/-
Fol.Dispatch.Patterns — the patterns of a parameter vector, their signatures, how specific these are
and the checks emitted for them.

A signature keeps of a pattern what dispatch looks at. `pattern-more-specific-p` compares two lists
of them position by position; `weight` writes such a list as numbers whose lexicographic order is
that comparison, so it is a strict weak order.

  §1 Patterns     — `Pattern`, `parseParams`, `stripSpecializers`.
  §2 Signatures   — `computeElementSignature`, `patternMoreSpecificP`.
  §3 Checks       — `emitElementPatternCheck`, `emitDictInnerPredicates`, `evalCheck`.
  §4 Meaning      — `Matches`, `evalChecks_emitElements`.
  §5 Specificity  — `weight`, `moreSpecific_iff`.
-/
import Mathlib.Data.List.Lex

namespace Fol.Dispatch

variable {F T E V : Type}

/-! ## §1 Patterns -/

/-- A form of the source. -/
inductive Form (F E : Type) where
  | symbol (name : F)
  | list (forms : List (Form F E))
  | constant (value : E)

/-- An element of a `:keys` vector, by the check it asks for. -/
inductive KeySpec (F T E : Type) where
  | unchecked
  | eql (field : F) (value : Form F E)
  | nested (field : F) (keys : List (KeySpec F T E)) (type : T)

/-- A symbol of a parameter vector: `&`, `:key`, `:or`, `:as` or another. -/
inductive Name (F : Type) where
  | restMark
  | keyMark
  | orMark
  | asMark
  | plain (name : F)
deriving DecidableEq

/-- A parameter, or an element of a destructuring vector. -/
inductive Pattern (F T E : Type) where
  | symbol (name : Name F)
  | pred (pattern : Pattern F T E) (fn : F) (args : List (Form F E))
  | type (pattern : Pattern F T E) (type : T)
  | vector (elems : List (Pattern F T E))
  | dict (keys : List (KeySpec F T E))
  | other

/-- The mode of `parse-params`. -/
inductive Mode where
  | regular
  | rest
  | key
  | defaults
  | whole

/-- What `parse-params` has collected. -/
structure Parsed (F T E : Type) where
  regular : List (Pattern F T E) := []
  restParam : Option (Pattern F T E) := none
  mode : Mode := .regular

def parseParam (st : Parsed F T E) (p : Pattern F T E) : Parsed F T E :=
  match p, st.mode with
  | .symbol .restMark, _ => { st with mode := .rest }
  | .symbol .keyMark, _ => { st with mode := .key }
  | .symbol .orMark, _ => { st with mode := .defaults }
  | .symbol .asMark, _ => { st with mode := .whole }
  | p, .rest => { st with restParam := some p, mode := .regular }
  | _, .key => st
  | _, .defaults => { st with mode := .regular }
  | _, .whole => { st with mode := .regular }
  | p, .regular => { st with regular := st.regular ++ [p] }

/-- `parse-params`: the regular parameters and the rest parameter. -/
def parseParams (params : List (Pattern F T E)) : Parsed F T E := params.foldl parseParam {}

/-- `strip-specializers`, of one parameter. -/
def stripSpecializer : Pattern F T E → Pattern F T E
  | .pred p _ _ => p
  | .type p _ => p
  | p => p

/-! ## §2 Signatures -/

inductive Sig (F T E : Type) where
  | any
  | type (type : T)
  | pred (fn : F) (args : List (Form F E))
  | typePred (fn : F) (args : List (Form F E))
  | seq (elems : List (Sig F T E)) (hasRest : Bool)

/-- What is known of the names: `type-predicate-p`, and which are called `AND`; a type predicate
begins with `<`, so no `AND` is one. -/
structure Names (F : Type) where
  typePredicateP : F → Bool
  isAnd : F → Bool
  isAnd_untyped (fn : F) : isAnd fn = true → typePredicateP fn = false

/-- `filter-as-bindings` stops at `&`. -/
def hasRestMark : List (Pattern F T E) → Bool
  | [] => false
  | .symbol .asMark :: _ => false
  | .symbol .restMark :: _ => true
  | _ :: elems => hasRestMark elems

mutual

/-- `compute-element-signature`; `compute-pattern-signature` does the same for a parameter. -/
def computeElementSignature (N : Names F) : Pattern F T E → Sig F T E
  | .pred _ fn args => if N.typePredicateP fn then .typePred fn args else .pred fn args
  | .type _ t => .type t
  | .vector elems => .seq (elementSignatures N elems) (hasRestMark elems)
  | .dict _ => .any
  | _ => .any

/-- The signatures of the elements before `:as` and `&`. -/
def elementSignatures (N : Names F) : List (Pattern F T E) → List (Sig F T E)
  | [] => []
  | .symbol .asMark :: _ => []
  | .symbol .restMark :: _ => []
  | p :: elems => computeElementSignature N p :: elementSignatures N elems

end

def isTypePredicateFormP (N : Names F) : Form F E → Bool
  | .list (.symbol f :: _) => N.typePredicateP f
  | _ => false

/-- `(and (listp conj) (symbolp (first conj)))`. -/
def isCallForm : Form F E → Bool
  | .list [] => true
  | .list (.symbol _ :: _) => true
  | _ => false

/-- `detect-composite-level` of a predicate and what stands after it. -/
def detectCompositeLevel (N : Names F) (fn : F) (conjuncts : List (Form F E)) : Bool :=
  N.isAnd fn && decide (conjuncts.length + 1 ≥ 3) && conjuncts.any (isTypePredicateFormP N) &&
    conjuncts.any fun conj => !isTypePredicateFormP N conj && isCallForm conj

/-- `pattern-specificity-level`. In a signature the arguments of a predicate are one list. -/
def patternSpecificityLevel (N : Names F) : Sig F T E → Nat
  | .pred fn args => if N.isAnd fn then if detectCompositeLevel N fn [.list args] then 3 else 4
      else 4
  | .type _ => 2
  | .typePred _ _ => 2
  | .seq _ _ => 1
  | .any => 0

/-- `pattern-more-specific-p`. -/
def patternMoreSpecificP (N : Names F) : List (Sig F T E) → List (Sig F T E) → Bool
  | s₁ :: sig₁, s₂ :: sig₂ =>
    if patternSpecificityLevel N s₁ > patternSpecificityLevel N s₂ then true
    else if patternSpecificityLevel N s₁ < patternSpecificityLevel N s₂ then false
    else
      match s₁, s₂ with
      | .seq elems₁ rest₁, .seq elems₂ rest₂ =>
        if patternMoreSpecificP N elems₁ elems₂ then true
        else if patternMoreSpecificP N elems₂ elems₁ then false
        else if elems₁.length > elems₂.length then true
        else if elems₁.length < elems₂.length then false
        else if !rest₁ && rest₂ then true
        else if rest₁ && !rest₂ then false
        else patternMoreSpecificP N sig₁ sig₂
      | _, _ => patternMoreSpecificP N sig₁ sig₂
  | sig₁, sig₂ => decide (sig₁.length > sig₂.length)
termination_by sig₁ sig₂ => sizeOf sig₁ + sizeOf sig₂

/-! ## §3 Checks -/

/-- The expression that an emitted check reads: an argument, an element of the sequence that the
check around it has bound, or a field. -/
inductive Access (F T : Type) where
  | arg (i : Nat)
  | elt (i : Nat)
  | field (object : Access F T) (outerType : Option T) (name : F)

/-- The forms of the emitted checks. -/
inductive Check (F T E : Type) where
  | typep (place : Access F T) (type : T)
  | pred (fn : F) (args : List (Form F E)) (place : Access F T)
  | eql (place : Access F T) (value : Form F E)
  | seq (place : Access F T) (n : Nat) (hasRest : Bool) (checks : List (Check F T E))

mutual

/-- `emit-element-pattern-check`; none is the form `t`. -/
def emitElementPatternCheck : Sig F T E → Access F T → Option (Check F T E)
  | .any, _ => none
  | .type t, place => some (.typep place t)
  | .pred fn args, place => some (.pred fn args place)
  | .typePred fn args, place => some (.pred fn args place)
  | .seq elems hasRest, place =>
    some (.seq place elems.length hasRest (emitElements .elt 0 elems))

/-- The checks of consecutive elements, those that are `t` left out. -/
def emitElements (place : Nat → Access F T) (i : Nat) : List (Sig F T E) → List (Check F T E)
  | [] => []
  | sig :: sigs => (emitElementPatternCheck sig (place i)).toList ++ emitElements place (i + 1) sigs

end

/-- `emit-dict-inner-predicates`. -/
def emitDictInnerPredicates (object : Access F T) (outerType : Option T) :
    List (KeySpec F T E) → List (Check F T E)
  | [] => []
  | .unchecked :: keys => emitDictInnerPredicates object outerType keys
  | .eql name value :: keys =>
    .eql (.field object outerType name) value :: emitDictInnerPredicates object outerType keys
  | .nested name inner t :: keys =>
    .typep (.field object outerType name) t ::
      emitDictInnerPredicates (.field object outerType name) (some t) inner ++
        emitDictInnerPredicates object outerType keys

/-- What the checks call. `typep` is the test emitted for a type, by the CL type of a primitive;
`instanceOf` is that of a class specializer. `sequence` has the elements of a CL sequence. A
predicate and the read of a field, by `slot-value` or by `get`, may signal an error (`none`). -/
structure Runtime (F T E V : Type) where
  typep : V → T → Bool
  instanceOf : V → T → Bool
  sequence : V → Option (List V)
  predicate : F → List (Form F E) → V → Option Bool
  field : Option T → F → V → Option V
  eql : V → Form F E → Bool

/-- The value of the place, the arguments and the bound sequence given. -/
def evalAccess (M : Runtime F T E V) (args elems : List V) : Access F T → Option V
  | .arg i => args[i]?
  | .elt i => elems[i]?
  | .field object outerType name => (evalAccess M args elems object).bind (M.field outerType name)

/-- `(>= n arity)` with a rest parameter, else `(= n arity)`. -/
def countFits (arity : Nat) (hasRest : Bool) (n : Nat) : Bool :=
  if hasRest then decide (arity ≤ n) else decide (n = arity)

mutual

/-- The value of a check; none when it signals an error. -/
@[grind =] def evalCheck (M : Runtime F T E V) (args elems : List V) : Check F T E → Option Bool
  | .typep place t => (evalAccess M args elems place).map (M.typep · t)
  | .pred fn fnArgs place => (evalAccess M args elems place).bind (M.predicate fn fnArgs)
  | .eql place value => (evalAccess M args elems place).map (M.eql · value)
  | .seq place n hasRest checks =>
    (evalAccess M args elems place).bind fun v =>
      match M.sequence v with
      | some inner => if countFits n hasRest inner.length then evalChecks M args inner checks
          else some false
      | none => some false

/-- `and`. -/
@[grind =] def evalChecks (M : Runtime F T E V) (args elems : List V) :
    List (Check F T E) → Option Bool
  | [] => some true
  | check :: checks =>
    (evalCheck M args elems check).bind fun holds =>
      if holds then evalChecks M args elems checks else some false

end

/-! ## §4 Meaning -/

mutual

/-- The value is what the signature describes. -/
def Matches (M : Runtime F T E V) : Sig F T E → V → Prop
  | .any, _ => True
  | .type t, v => M.typep v t = true
  | .pred fn args, v => M.predicate fn args v = some true
  | .typePred fn args, v => M.predicate fn args v = some true
  | .seq elems hasRest, v => ∃ inner, M.sequence v = some inner ∧
    countFits elems.length hasRest inner.length = true ∧ MatchesAll M elems inner

/-- The first values match, one by one. -/
def MatchesAll (M : Runtime F T E V) : List (Sig F T E) → List V → Prop
  | [], _ => True
  | _ :: _, [] => False
  | sig :: sigs, v :: vs => Matches M sig v ∧ MatchesAll M sigs vs

end

mutual

/-- The predicate of a `:keys` element. -/
def KeyHolds (M : Runtime F T E V) (outerType : Option T) (v : V) : KeySpec F T E → Prop
  | .unchecked => True
  | .eql name value => ∃ w, M.field outerType name v = some w ∧ M.eql w value = true
  | .nested name keys t => ∃ w, M.field outerType name v = some w ∧ M.typep w t = true ∧
    KeysHold M (some t) w keys

def KeysHold (M : Runtime F T E V) (outerType : Option T) (v : V) : List (KeySpec F T E) → Prop
  | [] => True
  | key :: keys => KeyHolds M outerType v key ∧ KeysHold M outerType v keys

end

/-- Induction over signatures. -/
@[elab_as_elim]
theorem Sig.induction {motive : Sig F T E → Prop}
    (any : motive .any)
    (type : ∀ t, motive (.type t))
    (pred : ∀ fn args, motive (.pred fn args))
    (typePred : ∀ fn args, motive (.typePred fn args))
    (seq : ∀ elems hasRest, (∀ s ∈ elems, motive s) → motive (.seq elems hasRest))
    (sig : Sig F T E) : motive sig :=
  Sig.rec (motive_1 := motive) (motive_2 := fun sigs => ∀ s ∈ sigs, motive s)
    any type pred typePred seq (fun _ h => absurd h List.not_mem_nil)
    (fun _ _ h hs => List.forall_mem_cons.mpr ⟨h, hs⟩) sig

/-- Induction over the elements of `:keys` vectors. -/
@[elab_as_elim]
theorem KeySpec.induction {motive : KeySpec F T E → Prop}
    (unchecked : motive .unchecked)
    (eql : ∀ name value, motive (.eql name value))
    (nested : ∀ name keys t, (∀ k ∈ keys, motive k) → motive (.nested name keys t))
    (key : KeySpec F T E) : motive key :=
  KeySpec.rec (motive_1 := motive) (motive_2 := fun keys => ∀ k ∈ keys, motive k)
    unchecked eql nested (fun _ h => absurd h List.not_mem_nil)
    (fun _ _ h hs => List.forall_mem_cons.mpr ⟨h, hs⟩) key

section Checks

variable {M : Runtime F T E V} {args elems : List V}

theorem evalChecks_cons {check : Check F T E} {checks : List (Check F T E)} :
    evalChecks M args elems (check :: checks) = some true ↔
      evalCheck M args elems check = some true ∧ evalChecks M args elems checks = some true := by
  simp only [evalChecks]
  cases evalCheck M args elems check with
  | none => simp
  | some holds => cases holds <;> simp

@[simp] theorem evalChecks_singleton {check : Check F T E} :
    evalChecks M args elems [check] = evalCheck M args elems check := by
  simp only [evalChecks]
  cases evalCheck M args elems check with
  | none => rfl
  | some holds => cases holds <;> rfl

theorem evalChecks_append {checks checks' : List (Check F T E)} :
    evalChecks M args elems (checks ++ checks') = some true ↔
      evalChecks M args elems checks = some true ∧ evalChecks M args elems checks' = some true := by
  induction checks with
  | nil => simp [evalChecks]
  | cons check checks ih => rw [List.cons_append, evalChecks_cons, evalChecks_cons, ih, and_assoc]

/-- The checks of consecutive elements, when each of them is right. -/
theorem evalChecks_emitElements_of {place : Nat → Access F T} {sigs : List (Sig F T E)} {i : Nat}
    {vs : List V} (hplace : ∀ j, evalAccess M args elems (place (i + j)) = vs[j]?)
    (hlen : sigs.length ≤ vs.length)
    (hsigs : ∀ s ∈ sigs, ∀ (p : Access F T) (v : V), evalAccess M args elems p = some v →
      (evalChecks M args elems (emitElementPatternCheck s p).toList = some true ↔ Matches M s v)) :
    evalChecks M args elems (emitElements place i sigs) = some true ↔ MatchesAll M sigs vs := by
  induction sigs generalizing i vs with
  | nil => simp [emitElements, evalChecks, MatchesAll]
  | cons s sigs ih =>
    cases vs with
    | nil => simp at hlen
    | cons v vs =>
      have hfirst := hsigs s (by simp) (place i) v (hplace 0)
      have hrest : evalChecks M args elems (emitElements place (i + 1) sigs) = some true ↔
        MatchesAll M sigs vs :=
        ih (fun j => by rw [Nat.add_assoc, Nat.add_comm 1 j, hplace, List.getElem?_cons_succ])
        (by simpa using hlen)
          fun s' hs' => hsigs s' (List.mem_cons_of_mem s hs')
      simp only [emitElements, MatchesAll]
      rw [evalChecks_append, hfirst, hrest]

/-- The check of one value. -/
theorem evalChecks_emitElementPatternCheck (sig : Sig F T E) :
    ∀ (args elems : List V) (place : Access F T) (v : V), evalAccess M args elems place = some v →
      (evalChecks M args elems (emitElementPatternCheck sig place).toList = some true ↔
        Matches M sig v) := by
  induction sig using Sig.induction with
  | any => simp [emitElementPatternCheck, evalChecks, Matches]
  | type t =>
    intro args elems place v hplace
    simp [emitElementPatternCheck, evalCheck, hplace, Matches]
  | pred fn fnArgs =>
    intro args elems place v hplace
    simp [emitElementPatternCheck, evalCheck, hplace, Matches]
  | typePred fn fnArgs =>
    intro args elems place v hplace
    simp [emitElementPatternCheck, evalCheck, hplace, Matches]
  | seq sigs hasRest ih =>
    intro args elems place v hplace
    simp only [emitElementPatternCheck, Option.toList_some, evalChecks_singleton, evalCheck, hplace,
      Option.bind_some, Matches]
    cases hseq : M.sequence v with
    | none => simp
    | some inner =>
      by_cases hcount : countFits sigs.length hasRest inner.length = true
      · have hlen : sigs.length ≤ inner.length := by
          cases hasRest <;> simp [countFits] at hcount <;> omega
        have hinner : evalChecks M args inner (emitElements .elt 0 sigs) = some true ↔
          MatchesAll M sigs inner :=
          evalChecks_emitElements_of (fun j => by simp [evalAccess]) hlen fun s hs p v hp =>
          ih s hs args inner p v hp
        simp [hcount, hinner]
      · simp [hcount]

/-- The emitted checks of a signature hold of the arguments that match it. -/
theorem evalChecks_emitElements {sigs : List (Sig F T E)} (hlen : sigs.length ≤ args.length) :
    evalChecks M args [] (emitElements .arg 0 sigs) = some true ↔ MatchesAll M sigs args := by
  refine evalChecks_emitElements_of (fun j => by simp [evalAccess]) hlen ?_
  intro s _ p v hp
  exact evalChecks_emitElementPatternCheck s args [] p v hp

/-- The checks of a `:keys` vector, when those of each element are right. -/
theorem evalChecks_emitDictInnerPredicates_of {keys : List (KeySpec F T E)}
    (hkeys : ∀ k ∈ keys, ∀ (object : Access F T) (outerType : Option T) (v : V),
      evalAccess M args elems object = some v →
        (evalChecks M args elems (emitDictInnerPredicates object outerType [k]) = some true ↔
          KeyHolds M outerType v k))
    (object : Access F T) (outerType : Option T) {v : V}
    (hobject : evalAccess M args elems object = some v) :
    evalChecks M args elems (emitDictInnerPredicates object outerType keys) = some true ↔
      KeysHold M outerType v keys := by
  induction keys with
  | nil => simp [emitDictInnerPredicates, evalChecks, KeysHold]
  | cons k keys ih =>
    have hsplit : emitDictInnerPredicates object outerType (k :: keys) =
        emitDictInnerPredicates object outerType [k] ++ emitDictInnerPredicates object outerType
        keys := by
      cases k <;> simp [emitDictInnerPredicates]
    have hfirst := hkeys k (by simp) object outerType v hobject
    have hrest := ih fun k' hk' => hkeys k' (List.mem_cons_of_mem k hk')
    rw [hsplit, evalChecks_append, hfirst, hrest, KeysHold]

theorem evalChecks_emitDictInnerPredicates_one (key : KeySpec F T E) :
    ∀ (object : Access F T) (outerType : Option T) (v : V),
    evalAccess M args elems object = some v →
      (evalChecks M args elems (emitDictInnerPredicates object outerType [key]) = some true ↔
        KeyHolds M outerType v key) := by
  induction key using KeySpec.induction with
  | unchecked => simp [emitDictInnerPredicates, evalChecks, KeyHolds]
  | eql name value =>
    intro object outerType v hobject
    simp [emitDictInnerPredicates, evalCheck, evalAccess, hobject, KeyHolds]
  | nested name keys t ih =>
    intro object outerType v hobject
    have hfield :
      evalAccess M args elems (.field object outerType name) = M.field outerType name v := by
      simp [evalAccess, hobject]
    simp only [emitDictInnerPredicates, List.append_nil, evalChecks_cons, evalCheck, hfield,
      KeyHolds]
    cases hread : M.field outerType name v with
    | none => simp
    | some w =>
      have hinner :=
        evalChecks_emitDictInnerPredicates_of ih (.field object outerType name) (some t)
        (hfield.trans hread)
      simp [hinner]

/-- The emitted inner checks are the predicates of the `:keys` vector. -/
theorem evalChecks_emitDictInnerPredicates {keys : List (KeySpec F T E)} {object : Access F T}
    {outerType : Option T} {v : V} (hobject : evalAccess M args elems object = some v) :
    evalChecks M args elems (emitDictInnerPredicates object outerType keys) = some true ↔
      KeysHold M outerType v keys :=
  evalChecks_emitDictInnerPredicates_of (fun k _ => evalChecks_emitDictInnerPredicates_one k)
    object outerType hobject

end Checks

/-! ## §5 Specificity -/

mutual

/-- A signature as numbers: its level, and for a sequence its elements and whether it is fixed. -/
def weight (N : Names F) : Sig F T E → List Nat
  | .seq elems hasRest => 2 :: (weights N elems ++ [if hasRest then 0 else 1])
  | sig => [patternSpecificityLevel N sig + 1]

/-- A list of signatures; the end counts less than any signature. -/
def weights (N : Names F) : List (Sig F T E) → List Nat
  | [] => [0]
  | sig :: sigs => weight N sig ++ weights N sigs

end

/-- What the comparison of two lists says, and the order of their weights. -/
inductive Compared (N : Names F) (sig₁ sig₂ : List (Sig F T E)) : Prop where
  | more (h : patternMoreSpecificP N sig₁ sig₂ = true)
      (h' : patternMoreSpecificP N sig₂ sig₁ = false)
      (hw : ∀ x y, weights N sig₂ ++ x < weights N sig₁ ++ y)
  | less (h : patternMoreSpecificP N sig₁ sig₂ = false)
      (h' : patternMoreSpecificP N sig₂ sig₁ = true)
      (hw : ∀ x y, weights N sig₁ ++ x < weights N sig₂ ++ y)
  | tied (h : patternMoreSpecificP N sig₁ sig₂ = false)
      (h' : patternMoreSpecificP N sig₂ sig₁ = false)
      (hw : weights N sig₁ = weights N sig₂) (hlen : sig₁.length = sig₂.length)

section Compare

variable {N : Names F} {s₁ s₂ : Sig F T E} {sig₁ sig₂ : List (Sig F T E)}

/-- The first number of a weight is the level. -/
theorem weight_eq (s : Sig F T E) : ∃ w, weight N s = (patternSpecificityLevel N s + 1) :: w := by
  cases s with
  | seq elems hasRest =>
      exact ⟨weights N elems ++ [if hasRest then 0 else 1], by
        simp [weight, patternSpecificityLevel]⟩
  | any => exact ⟨[], by simp [weight]⟩
  | type t => exact ⟨[], by simp [weight]⟩
  | pred fn args => exact ⟨[], by simp [weight]⟩
  | typePred fn args => exact ⟨[], by simp [weight]⟩

/-- A higher level decides. -/
theorem compared_level (sig₁ sig₂ : List (Sig F T E))
    (h : patternSpecificityLevel N s₂ < patternSpecificityLevel N s₁) :
    patternMoreSpecificP N (s₁ :: sig₁) (s₂ :: sig₂) = true ∧
      patternMoreSpecificP N (s₂ :: sig₂) (s₁ :: sig₁) = false ∧
      ∀ x y, weights N (s₂ :: sig₂) ++ x < weights N (s₁ :: sig₁) ++ y := by
  have hnot : ¬ patternSpecificityLevel N s₁ < patternSpecificityLevel N s₂ := by omega
  refine ⟨?_, ?_, fun x y => ?_⟩
  · unfold patternMoreSpecificP
    rw [if_pos h]
  · unfold patternMoreSpecificP
    rw [if_neg hnot, if_pos h]
  · obtain ⟨w₁, hw₁⟩ := weight_eq (N := N) s₁
    obtain ⟨w₂, hw₂⟩ := weight_eq (N := N) s₂
    simp only [weights, hw₁, hw₂, List.cons_append, List.cons_lt_cons_iff]
    exact .inl (by omega)

/-- Where the first signatures are tied the rest decides. -/
theorem Compared.cons (h : Compared N sig₁ sig₂)
    (hsame : patternMoreSpecificP N (s₁ :: sig₁) (s₂ :: sig₂) = patternMoreSpecificP N sig₁ sig₂)
    (hsame' : patternMoreSpecificP N (s₂ :: sig₂) (s₁ :: sig₁) = patternMoreSpecificP N sig₂ sig₁)
    (hw : weight N s₁ = weight N s₂) : Compared N (s₁ :: sig₁) (s₂ :: sig₂) := by
  cases h with
  | more h h' hrest =>
    refine .more (hsame.trans h) (hsame'.trans h') fun x y => ?_
    simp only [weights, hw, List.append_assoc]
    exact List.append_left_lt (hrest x y)
  | less h h' hrest =>
    refine .less (hsame.trans h) (hsame'.trans h') fun x y => ?_
    simp only [weights, hw, List.append_assoc]
    exact List.append_left_lt (hrest x y)
  | tied h h' hrest hlen =>
    exact .tied (hsame.trans h) (hsame'.trans h') (by simp only [weights, hw, hrest])
      (by simp [hlen])

/-- Signatures of one level that are not both sequences are tied. -/
theorem moreSpecific_cons_of_tied
    (hlevel : patternSpecificityLevel N s₁ = patternSpecificityLevel N s₂)
    (hseq : patternSpecificityLevel N s₁ ≠ 1) :
    patternMoreSpecificP N (s₁ :: sig₁) (s₂ :: sig₂) = patternMoreSpecificP N sig₁ sig₂ ∧
      weight N s₁ = weight N s₂ := by
  have hnot : ∀ elems hasRest, s₁ ≠ .seq elems hasRest := by
    rintro elems hasRest rfl
    exact hseq (by simp [patternSpecificityLevel])
  have hnot' : ∀ elems hasRest, s₂ ≠ .seq elems hasRest := by
    rintro elems hasRest rfl
    rw [hlevel] at hseq
    exact hseq (by simp [patternSpecificityLevel])
  constructor
  · rw [patternMoreSpecificP, if_neg (by omega), if_neg (by omega)]
    exact fun elems₁ _ _ _ h _ => hnot elems₁ _ h
  · rw [weight, weight, hlevel]
    · exact hnot'
    · exact hnot

theorem eq_seq_of_level {s : Sig F T E} (h : patternSpecificityLevel N s = 1) :
    ∃ elems hasRest, s = .seq elems hasRest := by
  cases s with
  | seq elems hasRest => exact ⟨elems, hasRest, rfl⟩
  | any => simp [patternSpecificityLevel] at h
  | type t => simp [patternSpecificityLevel] at h
  | typePred fn args => simp [patternSpecificityLevel] at h
  | pred fn args =>
    simp only [patternSpecificityLevel] at h
    split at h
    · split at h <;> omega
    · omega

variable {elems₁ elems₂ : List (Sig F T E)} {rest₁ rest₂ : Bool}

theorem moreSpecific_seq :
    patternMoreSpecificP N (.seq elems₁ rest₁ :: sig₁) (.seq elems₂ rest₂ :: sig₂) =
      if patternMoreSpecificP N elems₁ elems₂ then true
      else if patternMoreSpecificP N elems₂ elems₁ then false
      else if elems₁.length > elems₂.length then true
      else if elems₁.length < elems₂.length then false
      else if !rest₁ && rest₂ then true
      else if rest₁ && !rest₂ then false
      else patternMoreSpecificP N sig₁ sig₂ := by
  have hirrefl : ¬ (1 : Nat) < 1 := Nat.lt_irrefl 1
  rw [patternMoreSpecificP]
  simp only [patternSpecificityLevel, gt_iff_lt, if_neg hirrefl]

/-- Elements that are more specific decide. -/
theorem compared_elems (h : patternMoreSpecificP N elems₁ elems₂ = true)
    (h' : patternMoreSpecificP N elems₂ elems₁ = false)
    (hw : ∀ x y, weights N elems₂ ++ x < weights N elems₁ ++ y) :
    patternMoreSpecificP N (.seq elems₁ rest₁ :: sig₁) (.seq elems₂ rest₂ :: sig₂) = true ∧
      patternMoreSpecificP N (.seq elems₂ rest₂ :: sig₂) (.seq elems₁ rest₁ :: sig₁) = false ∧
      ∀ x y, weights N (.seq elems₂ rest₂ :: sig₂) ++ x < weights N (.seq elems₁ rest₁ :: sig₁) ++
      y := by
  refine ⟨by simp [moreSpecific_seq, h], by simp [moreSpecific_seq, h, h'], fun x y => ?_⟩
  simp only [weights, weight, List.cons_append, List.append_assoc, List.cons_lt_cons_self]
  exact hw _ _

/-- Of sequences with tied elements the fixed one decides. -/
theorem compared_fixed (h : patternMoreSpecificP N elems₁ elems₂ = false)
    (h' : patternMoreSpecificP N elems₂ elems₁ = false) (hw : weights N elems₁ = weights N elems₂)
    (hlen : elems₁.length = elems₂.length) :
    patternMoreSpecificP N (.seq elems₁ false :: sig₁) (.seq elems₂ true :: sig₂) = true ∧
      patternMoreSpecificP N (.seq elems₂ true :: sig₂) (.seq elems₁ false :: sig₁) = false ∧
      ∀ x y, weights N (.seq elems₂ true :: sig₂) ++ x < weights N (.seq elems₁ false :: sig₁) ++
      y := by
  refine ⟨by simp [moreSpecific_seq, h, h', hlen], by simp [moreSpecific_seq, h, h', hlen],
    fun x y => ?_⟩
  simp only [weights, weight, hw, List.cons_append, List.append_assoc, List.cons_lt_cons_self]
  exact List.append_left_lt (by simp [List.cons_lt_cons_iff])

theorem Compared.seq (helems : Compared N elems₁ elems₂) (h : Compared N sig₁ sig₂) :
    Compared N (.seq elems₁ rest₁ :: sig₁) (.seq elems₂ rest₂ :: sig₂) := by
  cases helems with
  | more hm hm' hw =>
    obtain ⟨hmore, hless, hweights⟩ := compared_elems hm hm' hw
    exact .more hmore hless hweights
  | less hm hm' hw =>
    obtain ⟨hmore, hless, hweights⟩ := compared_elems hm' hm hw
    exact .less hless hmore hweights
  | tied hm hm' hw hlen =>
    cases rest₁ with
    | false =>
      cases rest₂ with
      | false =>
        exact h.cons (by simp [moreSpecific_seq, hm, hm', hlen])
          (by simp [moreSpecific_seq, hm, hm', hlen])
          (by simp [weight, hw])
      | true =>
        obtain ⟨hmore, hless, hweights⟩ := compared_fixed hm hm' hw hlen
        exact .more hmore hless hweights
    | true =>
      cases rest₂ with
      | false =>
        obtain ⟨hmore, hless, hweights⟩ := compared_fixed hm' hm hw.symm hlen.symm
        exact .less hless hmore hweights
      | true =>
        exact h.cons (by simp [moreSpecific_seq, hm, hm', hlen])
          (by simp [moreSpecific_seq, hm, hm', hlen])
          (by simp [weight, hw])

/-- The comparison of lists, when the elements of their sequences are compared rightly. -/
theorem compared_of (sig₁ sig₂ : List (Sig F T E))
    (helems : ∀ s ∈ sig₁, ∀ elems hasRest, s = .seq elems hasRest → ∀ elems',
      Compared N elems elems') :
    Compared N sig₁ sig₂ := by
  induction sig₁ generalizing sig₂ with
  | nil =>
    cases sig₂ with
    | nil => exact .tied (by simp [patternMoreSpecificP]) (by simp [patternMoreSpecificP]) rfl rfl
    | cons s₂ sig₂ =>
      obtain ⟨w, hw⟩ := weight_eq (N := N) s₂
      exact .less (by simp [patternMoreSpecificP]) (by simp [patternMoreSpecificP])
        (by simp [weights, hw, List.cons_lt_cons_iff])
  | cons s₁ sig₁ ih =>
    cases sig₂ with
    | nil =>
      obtain ⟨w, hw⟩ := weight_eq (N := N) s₁
      exact .more (by simp [patternMoreSpecificP]) (by simp [patternMoreSpecificP])
        (by simp [weights, hw, List.cons_lt_cons_iff])
    | cons s₂ sig₂ =>
      have hrest := ih sig₂ fun s hs => helems s (List.mem_cons_of_mem s₁ hs)
      rcases Nat.lt_trichotomy (patternSpecificityLevel N s₁) (patternSpecificityLevel N s₂) with
        hlt | heq | hgt
      · obtain ⟨hmore, hless, hw⟩ := compared_level sig₂ sig₁ hlt
        exact .less hless hmore hw
      · by_cases hseq : patternSpecificityLevel N s₁ = 1
        · obtain ⟨elems₁, rest₁, rfl⟩ := eq_seq_of_level hseq
          obtain ⟨elems₂, rest₂, rfl⟩ := eq_seq_of_level (heq.symm.trans hseq)
          exact (helems _ (by simp) elems₁ rest₁ rfl elems₂).seq hrest
        · obtain ⟨hsame, hw⟩ := moreSpecific_cons_of_tied heq hseq
          obtain ⟨hsame', -⟩ := moreSpecific_cons_of_tied heq.symm (heq ▸ hseq)
          exact hrest.cons hsame hsame' hw
      · obtain ⟨hmore, hless, hw⟩ := compared_level sig₁ sig₂ hgt
        exact .more hmore hless hw

end Compare

/-- Two lists of signatures compare as their weights. -/
theorem compared (N : Names F) (sig₁ sig₂ : List (Sig F T E)) : Compared N sig₁ sig₂ := by
  have hseq : ∀ s : Sig F T E, ∀ elems hasRest, s = .seq elems hasRest → ∀ elems',
    Compared N elems elems' := by
    intro s
    induction s using Sig.induction with
    | any => rintro _ _ ⟨⟩
    | type t => rintro _ _ ⟨⟩
    | pred fn args => rintro _ _ ⟨⟩
    | typePred fn args => rintro _ _ ⟨⟩
    | seq elems hasRest ih =>
      rintro _ _ ⟨⟩ elems'
      exact compared_of elems elems' ih
  exact compared_of sig₁ sig₂ fun s _ => hseq s

/-- `pattern-more-specific-p` is the order of the weights. -/
theorem moreSpecific_iff (N : Names F) (sig₁ sig₂ : List (Sig F T E)) :
    patternMoreSpecificP N sig₁ sig₂ = true ↔ weights N sig₂ < weights N sig₁ := by
  cases compared N sig₁ sig₂ with
  | more h _ hw => simpa [h] using hw [] []
  | less h _ hw => simpa [h] using (hw [] []).le
  | tied h _ hw => simp [h, hw]

end Fol.Dispatch

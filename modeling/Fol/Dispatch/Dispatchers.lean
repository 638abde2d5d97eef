/-
Fol.Dispatch.Dispatchers — the dispatcher of a function or a method of several clauses picks a most
specific matching clause.

The clauses are sorted by the number of their parameters and then by `pattern-more-specific-p`, and
the tests are tried in that order. When all clauses have one number of parameters and none a rest
parameter the dispatcher has these parameters, and a method hands positions over to class
specializers.

  §1 Clauses      — `Clause`, `sortClauses`.
  §2 Dispatchers  — `compile`, `call`.
  §3 Tests        — `branch_test`: a test that holds is a clause that matches.
  §4 Order        — `not_before_of_sorted`, `sortClauses_perm`.
  §5 The choice   — `Dispatches`, `dispatch_most_specific`.
-/
import Fol.Dispatch.Patterns
import Mathlib.Data.List.Pairwise

namespace Fol.Dispatch

variable {F T E V B : Type}

/-! ## §1 Clauses -/

/-- A clause: its parameter vector and its body. -/
structure Clause (F T E B : Type) where
  params : List (Pattern F T E)
  body : B

namespace Clause

def regular (c : Clause F T E B) : List (Pattern F T E) := (parseParams c.params).regular

def arity (c : Clause F T E B) : Nat := c.regular.length

def hasRest (c : Clause F T E B) : Bool := (parseParams c.params).restParam.isSome

def signature (N : Names F) (c : Clause F T E B) : List (Sig F T E) :=
  c.regular.map (computeElementSignature N)

def stripped (c : Clause F T E B) : List (Pattern F T E) := c.regular.map stripSpecializer

end Clause

/-- The order of the sort: arity ascending, then specificity descending. -/
def sortsBefore (N : Names F) (c₁ c₂ : Clause F T E B) : Bool :=
  if c₁.arity < c₂.arity then true
  else if c₁.arity > c₂.arity then false
  else patternMoreSpecificP N (c₁.signature N) (c₂.signature N)

/-- `stable-sort`. -/
def sortClauses (N : Names F) (clauses : List (Clause F T E B)) : List (Clause F T E B) :=
  clauses.mergeSort fun c₁ c₂ => !sortsBefore N c₂ c₁

/-- The one arity of clauses without rest parameters. -/
def uniformArity : List (Clause F T E B) → Option Nat
  | [] => none
  | c :: clauses =>
    if (c :: clauses).any Clause.hasRest then none
    else if clauses.all fun c' => c'.arity = c.arity then some c.arity
    else none

/-! ## §2 Dispatchers -/

/-- What is defined. A method may have one of the names (`ASSOC`, `CONJ`, …) whose methods take more
arguments, and a qualifier. -/
inductive Kind where
  | fn
  | method (takesMore : Bool) (qualified : Bool)
deriving DecidableEq

/-- A clause of the emitted `cond`; the first test of a rest-argument dispatcher is on the number of
arguments. -/
structure Branch (F T E B : Type) where
  count : Option (Nat × Bool)
  checks : List (Check F T E)
  clause : Clause F T E B

/-- The emitted lambda list. -/
inductive LambdaList (T : Type) where
  | fixed (arity : Nat) (specializers : List (Option T)) (takesMore : Bool)
  | rest

/-- The emitted form; its last clause signals the error, or calls the next method. -/
structure Dispatcher (F T E B : Type) where
  lambdaList : LambdaList T
  branches : List (Branch F T E B)
  callsNext : Bool

section Compile

variable [DecidableEq F] [DecidableEq T]

def isSymbolNamed (name : Name F) : Pattern F T E → Bool
  | .symbol n => n = name
  | _ => false

def isTypeSig (t : T) : Sig F T E → Bool
  | .type t' => t' = t
  | _ => false

/-- The class that a position of a method is handed over to: all clauses have one symbol there, and
one type. -/
def specializerClass (N : Names F) (sorted : List (Clause F T E B)) (i : Nat) : Option T :=
  match sorted with
  | [] => none
  | c :: _ =>
    match c.stripped[i]?, (c.signature N)[i]? with
    | some (.symbol name), some (.type t) =>
      if sorted.all fun c' => (c'.stripped[i]?).any (isSymbolNamed name) &&
          ((c'.signature N)[i]?).any (isTypeSig t) then some t
      else none
    | _, _ => none

def specializerClasses (N : Names F) (sorted : List (Clause F T E B)) (arity : Nat) :
    List (Option T) :=
  (List.range arity).map (specializerClass N sorted)

end Compile

/-- The signature with the positions that a class specializer enforces as `(:any)`. -/
def checkedSignature (sigs : List (Sig F T E)) (classes : List (Option T)) : List (Sig F T E) :=
  List.zipWith (fun sig cls => if cls.isSome then .any else sig) sigs classes

/-- The type of a `(:type class)`. -/
def sigType : Sig F T E → Option T
  | .type t => some t
  | _ => none

/-- `emit-stripped-param-inner-predicates`. -/
def paramInnerPredicates (N : Names F) (i : Nat) (p : Pattern F T E) : List (Check F T E) :=
  match stripSpecializer p with
  | .dict keys => emitDictInnerPredicates (.arg i) (sigType (computeElementSignature N p)) keys
  | _ => []

def innerPredicates (N : Names F) (i : Nat) : List (Pattern F T E) → List (Check F T E)
  | [] => []
  | p :: params => paramInnerPredicates N i p ++ innerPredicates N (i + 1) params

/-- The inner predicates of the parameters, which only a method tests. -/
def kindInnerPredicates (N : Names F) (kind : Kind) (c : Clause F T E B) : List (Check F T E) :=
  match kind with
  | .fn => []
  | .method _ _ => innerPredicates N 0 c.regular

/-- A branch of `compile-fn-fixed-arity`, or of the fixed-arity path of
`compile-defmethod-clauses`. -/
def fixedBranch (N : Names F) (kind : Kind) (classes : List (Option T)) (c : Clause F T E B) :
    Branch F T E B where
  count := none
  checks := emitElements .arg 0 (checkedSignature (c.signature N) classes) ++
    kindInnerPredicates N kind c
  clause := c

/-- A branch of the rest-argument dispatchers. -/
def restBranch (N : Names F) (kind : Kind) (c : Clause F T E B) : Branch F T E B where
  count := some (c.arity, c.hasRest)
  checks := emitElements .arg 0 (c.signature N) ++ kindInnerPredicates N kind c
  clause := c

def Kind.takesMore : Kind → Bool
  | .fn => false
  | .method takesMore _ => takesMore

def Kind.callsNext : Kind → Bool
  | .fn => false
  | .method _ qualified => qualified

/-- The class specializers; a function has none. -/
def Kind.specializers [DecidableEq F] [DecidableEq T] (N : Names F) (kind : Kind)
    (sorted : List (Clause F T E B)) (arity : Nat) : List (Option T) :=
  match kind with
  | .fn => List.replicate arity none
  | .method _ _ => specializerClasses N sorted arity

/-- `compile-fn-multi-clause` and `compile-defmethod-clauses`. -/
def compile [DecidableEq F] [DecidableEq T] (N : Names F) (kind : Kind)
    (clauses : List (Clause F T E B)) :
    Dispatcher F T E B :=
  let sorted := sortClauses N clauses
  match uniformArity clauses with
  | some arity =>
    let classes := kind.specializers N sorted arity
    { lambdaList := .fixed arity classes kind.takesMore
      branches := sorted.map (fixedBranch N kind classes)
      callsNext := kind.callsNext }
  | none =>
    { lambdaList := .rest
      branches := sorted.map (restBranch N kind)
      callsNext := kind.callsNext }

/-- What a call comes to. -/
inductive Outcome (F T E B : Type) where
  | runs (c : Clause F T E B)
  | noMatchingClause
  | callsNextMethod
  | invalidArgumentCount
  | noApplicableMethod
  | signals

/-- The value of a branch's test; none when it signals an error. -/
def Branch.test (M : Runtime F T E V) (args : List V) (b : Branch F T E B) : Option Bool :=
  match b.count with
  | some count => if countFits count.1 count.2 args.length then evalChecks M args [] b.checks
      else some false
  | none => evalChecks M args [] b.checks

/-- `cond`. -/
def runBranches (M : Runtime F T E V) (args : List V) (otherwise : Outcome F T E B) :
    List (Branch F T E B) → Outcome F T E B
  | [] => otherwise
  | b :: branches =>
    match b.test M args with
    | none => .signals
    | some true => .runs b.clause
    | some false => runBranches M args otherwise branches

/-- The arguments are instances of the classes. -/
def instancesOf (M : Runtime F T E V) : List (Option T) → List V → Bool
  | some t :: classes, v :: args => M.instanceOf v t && instancesOf M classes args
  | none :: classes, _ :: args => instancesOf M classes args
  | _, _ => true

/-- Where no test holds. -/
def Dispatcher.otherwise (d : Dispatcher F T E B) : Outcome F T E B :=
  if d.callsNext then .callsNextMethod else .noMatchingClause

/-- A call of the dispatcher. -/
def call (M : Runtime F T E V) (d : Dispatcher F T E B) (args : List V) : Outcome F T E B :=
  match d.lambdaList with
  | .rest => runBranches M args d.otherwise d.branches
  | .fixed arity classes takesMore =>
    if args.length < arity ∨ (args.length > arity ∧ takesMore = false) then .invalidArgumentCount
    else if instancesOf M classes args then runBranches M args d.otherwise d.branches
    else .noApplicableMethod

/-! ## §3 Tests -/

/-- The inner predicates of a parameter. -/
def ParamInnerHolds (M : Runtime F T E V) (N : Names F) (p : Pattern F T E) (v : V) : Prop :=
  match stripSpecializer p with
  | .dict keys => KeysHold M (sigType (computeElementSignature N p)) v keys
  | _ => True

def InnerHold (M : Runtime F T E V) (N : Names F) (params : List (Pattern F T E)) (args : List V) :
    Prop :=
  ∀ (i : Nat) (p : Pattern F T E) (v : V), params[i]? = some p → args[i]? = some v →
  ParamInnerHolds M N p v

/-- The clause matches the arguments: their number, its signature and, in a method, the predicates
in `:keys` vectors. -/
structure Clause.Matches (M : Runtime F T E V) (N : Names F) (kind : Kind) (c : Clause F T E B)
    (args : List V) : Prop where
  count : countFits c.arity c.hasRest args.length = true
  signature : MatchesAll M (c.signature N) args
  inner : kind ≠ .fn → InnerHold M N c.regular args

section Tests

variable {M : Runtime F T E V} {N : Names F} {args : List V}

theorem matchesAll_iff {sigs : List (Sig F T E)} {vs : List V} :
    MatchesAll M sigs vs ↔ sigs.length ≤ vs.length ∧
      ∀ (i : Nat) (s : Sig F T E) (v : V), sigs[i]? = some s → vs[i]? = some v →
      Dispatch.Matches M s v := by
  induction sigs generalizing vs with
  | nil => simp [MatchesAll]
  | cons s sigs ih =>
    cases vs with
    | nil => simp [MatchesAll]
    | cons v vs =>
      simp only [MatchesAll, ih, List.length_cons, Nat.add_le_add_iff_right]
      constructor
      · rintro ⟨hs, hlen, hrest⟩
        refine ⟨hlen, fun i s' v' hi hi' => ?_⟩
        cases i with
        | zero =>
          cases hi
          cases hi'
          exact hs
        | succ i => exact hrest i s' v' hi hi'
      · rintro ⟨hlen, hall⟩
        exact ⟨hall 0 s v rfl rfl, hlen, fun i s' v' hi hi' => hall (i + 1) s' v' hi hi'⟩

theorem evalChecks_paramInnerPredicates {i : Nat} {p : Pattern F T E} {v : V}
    (hi : args[i]? = some v) :
    evalChecks M args [] (paramInnerPredicates N i p) = some true ↔ ParamInnerHolds M N p v := by
  simp only [paramInnerPredicates, ParamInnerHolds]
  cases stripSpecializer p with
  | dict keys => exact evalChecks_emitDictInnerPredicates hi
  | symbol name => simp [evalChecks]
  | pred p fn fnArgs => simp [evalChecks]
  | type p t => simp [evalChecks]
  | vector elems => simp [evalChecks]
  | other => simp [evalChecks]

theorem evalChecks_innerPredicates {params : List (Pattern F T E)} {i : Nat}
    (hlen : i + params.length ≤ args.length) :
    evalChecks M args [] (innerPredicates N i params) = some true ↔
    InnerHold M N params (args.drop i) := by
  induction params generalizing i with
  | nil => simp [innerPredicates, evalChecks, InnerHold]
  | cons p params ih =>
    have hlt : i < args.length := by
      rw [List.length_cons] at hlen
      omega
    have hfirst :=
      evalChecks_paramInnerPredicates (M := M) (N := N) (p := p) (List.getElem?_eq_getElem hlt)
    have hrest := ih (i := i + 1) (by rw [List.length_cons] at hlen; omega)
    rw [innerPredicates, evalChecks_append, hfirst, hrest]
    constructor
    · rintro ⟨hp, hparams⟩ j q v hj hv
      cases j with
      | zero =>
        cases hj
        rw [List.getElem?_drop, Nat.add_zero, List.getElem?_eq_getElem hlt] at hv
        cases hv
        exact hp
      | succ j =>
        refine hparams j q v hj ?_
        rw [List.getElem?_drop] at hv ⊢
        rw [← hv]
        congr 1
        omega
    · intro hall
      refine ⟨hall 0 p _ rfl (by simp [hlt]), fun j q v hj hv => hall (j + 1) q v hj ?_⟩
      rw [List.getElem?_drop] at hv ⊢
      rw [← hv]
      congr 1
      omega

/-- The inner checks that the kind of definition emits. -/
theorem evalChecks_kindInnerPredicates {kind : Kind} {c : Clause F T E B}
    (hlen : c.arity ≤ args.length) :
    evalChecks M args [] (kindInnerPredicates N kind c) = some true ↔
      (kind ≠ .fn → InnerHold M N c.regular args) := by
  cases kind with
  | fn => simp [kindInnerPredicates, evalChecks]
  | method takesMore qualified =>
    have hinner : evalChecks M args [] (innerPredicates N 0 c.regular) = some true ↔
        InnerHold M N c.regular (args.drop 0) :=
        evalChecks_innerPredicates (by simpa [Clause.arity] using hlen)
    simpa [kindInnerPredicates] using hinner

theorem length_signature {c : Clause F T E B} :
    (c.signature N).length = c.arity := List.length_map ..

theorem le_of_countFits {arity n : Nat} {hasRest : Bool} (h : countFits arity hasRest n = true) :
    arity ≤ n := by
  cases hasRest <;> simp [countFits] at h <;> omega

/-- The test of a rest-argument dispatcher. -/
theorem restBranch_test {kind : Kind} {c : Clause F T E B} :
    (restBranch N kind c).test M args = some true ↔ c.Matches M N kind args := by
  simp only [Branch.test, restBranch]
  by_cases hcount : countFits c.arity c.hasRest args.length = true
  · have hlen := le_of_countFits hcount
    have hle : (c.signature N).length ≤ args.length := by rw [length_signature]; exact hlen
    rw [if_pos hcount, evalChecks_append, evalChecks_emitElements hle,
      evalChecks_kindInnerPredicates hlen]
    exact ⟨fun h => ⟨hcount, h.1, h.2⟩, fun h => ⟨h.signature, h.inner⟩⟩
  · rw [if_neg hcount]
    refine iff_of_false (by simp) fun h => hcount h.count

/-- The positions handed over have the type in the clause's signature. -/
def HandedOver (N : Names F) (classes : List (Option T)) (c : Clause F T E B) : Prop :=
  classes.length = c.arity ∧
    ∀ (i : Nat) (t : T), classes[i]? = some (some t) → (c.signature N)[i]? = some (.type t)

/-- The test of a fixed-arity dispatcher, where the classes are right. -/
theorem fixedBranch_test {kind : Kind} {classes : List (Option T)} {c : Clause F T E B}
    (hclasses : HandedOver N classes c) (hrest : c.hasRest = false) (hlen : args.length = c.arity)
    (htypes : ∀ (i : Nat) (t : T) (v : V), classes[i]? = some (some t) → args[i]? = some v →
      M.typep v t = true) :
    (fixedBranch N kind classes c).test M args = some true ↔ c.Matches M N kind args := by
  have hcheckedLen : (checkedSignature (c.signature N) classes).length ≤ args.length := by
    rw [checkedSignature, List.length_zipWith, length_signature, hlen]
    exact Nat.min_le_left _ _
  have hcount : countFits c.arity c.hasRest args.length = true := by simp [countFits, hrest, hlen]
  have hchecked : MatchesAll M (checkedSignature (c.signature N) classes) args ↔
      MatchesAll M (c.signature N) args := by
    rw [matchesAll_iff, matchesAll_iff]
    have hle : (c.signature N).length ≤ args.length := by rw [length_signature, hlen]
    simp only [hcheckedLen, hle, true_and]
    constructor
    · intro h i s v hi hv
      have hlt : i < classes.length := by
        rw [hclasses.1, ← length_signature (N := N)]
        exact (List.getElem?_eq_some_iff.mp hi).1
      have hcls := List.getElem?_eq_getElem hlt
      cases hhanded : classes[i] with
      | none =>
        exact h i s v (by simp [checkedSignature, List.getElem?_zipWith, hi, hcls, hhanded]) hv
      | some t =>
        rw [hhanded] at hcls
        have htype := hclasses.2 i t hcls
        rw [hi] at htype
        cases htype
        exact htypes i t v hcls hv
    · intro h i s v hi hv
      rw [checkedSignature, List.getElem?_zipWith] at hi
      cases hsig : (c.signature N)[i]? with
      | none => simp [hsig] at hi
      | some sig =>
        cases hcls : classes[i]? with
        | none => simp [hsig, hcls] at hi
        | some cls =>
          cases cls with
          | none =>
            simp only [hsig, hcls] at hi
            cases hi
            exact h i sig v hsig hv
          | some t =>
            simp only [hsig, hcls] at hi
            cases hi
            trivial
  simp only [Branch.test, fixedBranch]
  rw [evalChecks_append, evalChecks_emitElements hcheckedLen, hchecked,
    evalChecks_kindInnerPredicates (hlen ▸ Nat.le_refl _)]
  exact ⟨fun h => ⟨hcount, h.1, h.2⟩, fun h => ⟨h.signature, h.inner⟩⟩

end Tests

/-! ## §4 Order -/

section Order

variable {N : Names F} {c₁ c₂ c₃ : Clause F T E B} {clauses clauses' : List (Clause F T E B)}

/-- A clause that does not sort before another has no fewer parameters, and with as many is not more
specific. -/
theorem not_sortsBefore_iff : sortsBefore N c₂ c₁ = false ↔
    c₁.arity ≤ c₂.arity ∧
      (c₁.arity = c₂.arity → weights N (c₂.signature N) ≤ weights N (c₁.signature N)) := by
  rw [sortsBefore]
  split
  · next hlt => exact iff_of_false (by simp) fun h => by omega
  · split
    · next hgt => exact iff_of_true rfl ⟨by omega, fun h => by omega⟩
    · rw [← Bool.not_eq_true, moreSpecific_iff, not_lt]
      exact ⟨fun h => ⟨by omega, fun _ => h⟩, fun h => h.2 (by omega)⟩

theorem not_sortsBefore_trans (h₁₂ : sortsBefore N c₂ c₁ = false)
    (h₂₃ : sortsBefore N c₃ c₂ = false) :
    sortsBefore N c₃ c₁ = false := by
  rw [not_sortsBefore_iff] at *
  refine ⟨h₁₂.1.trans h₂₃.1, fun heq => ?_⟩
  have h₁ := h₁₂.1
  have h₂ := h₂₃.1
  exact (h₂₃.2 (by omega)).trans (h₁₂.2 (by omega))

theorem not_sortsBefore_total (N : Names F) (c₁ c₂ : Clause F T E B) :
    sortsBefore N c₂ c₁ = false ∨ sortsBefore N c₁ c₂ = false := by
  rw [not_sortsBefore_iff, not_sortsBefore_iff]
  rcases Nat.lt_trichotomy c₁.arity c₂.arity with hlt | heq | hgt
  · exact .inl ⟨hlt.le, fun h => by omega⟩
  · rcases le_total (weights N (c₂.signature N)) (weights N (c₁.signature N)) with hle | hle
    · exact .inl ⟨heq.le, fun _ => hle⟩
    · exact .inr ⟨heq.ge, fun _ => hle⟩
  · exact .inr ⟨hgt.le, fun h => by omega⟩

/-- No clause of the sorted list sorts before an earlier one. -/
theorem sortClauses_sorted (N : Names F) (clauses : List (Clause F T E B)) :
    (sortClauses N clauses).Pairwise fun c₁ c₂ => sortsBefore N c₂ c₁ = false := by
  have h : (clauses.mergeSort fun c₁ c₂ => !sortsBefore N c₂ c₁).Pairwise fun c₁ c₂ =>
      (!sortsBefore N c₂ c₁) = true := List.pairwise_mergeSort
    (fun c₁ c₂ c₃ h₁₂ h₂₃ => by
      simp only [Bool.not_eq_true'] at *
      exact not_sortsBefore_trans h₁₂ h₂₃)
    (fun c₁ c₂ => by
      rcases not_sortsBefore_total N c₁ c₂ with h | h
      · simp [h]
      · simp [h]) clauses
  simpa [sortClauses] using h

theorem sortClauses_perm_self (N : Names F) (clauses : List (Clause F T E B)) :
    (sortClauses N clauses).Perm clauses := List.mergeSort_perm _ _

/-- The clauses have different numbers of parameters, or one is more specific. -/
def Differs (N : Names F) (c₁ c₂ : Clause F T E B) : Prop :=
  c₁.arity ≠ c₂.arity ∨ patternMoreSpecificP N (c₁.signature N) (c₂.signature N) = true ∨
    patternMoreSpecificP N (c₂.signature N) (c₁.signature N) = true

instance : Std.Symm (Differs (T := T) (E := E) (B := B) N) where
  symm c₁ c₂ h := by
    rcases h with hne | h | h
    · exact .inl hne.symm
    · exact .inr (.inr h)
    · exact .inr (.inl h)

/-- Clauses that differ stand in one order only. -/
theorem Differs.sortsBefore (h : Differs N c₁ c₂) (h₁₂ : sortsBefore N c₂ c₁ = false) :
    sortsBefore N c₁ c₂ = true := by
  rw [← Bool.not_eq_false, not_sortsBefore_iff]
  rw [not_sortsBefore_iff] at h₁₂
  rintro ⟨hle, himp⟩
  have heq : c₁.arity = c₂.arity := h₁₂.1.antisymm hle
  rcases h with hne | hmore | hmore
  · exact hne heq
  · rw [moreSpecific_iff] at hmore
    exact absurd (himp heq.symm) (not_le.mpr hmore)
  · rw [moreSpecific_iff] at hmore
    exact absurd (h₁₂.2 heq) (not_le.mpr hmore)

/-- The source order of clauses that differ does not matter. -/
theorem sortClauses_perm (hperm : clauses.Perm clauses') (hdiffer : clauses.Pairwise (Differs N)) :
    sortClauses N clauses = sortClauses N clauses' := by
  refine List.Perm.eq_of_pairwise ?_ (sortClauses_sorted N clauses) (sortClauses_sorted N clauses')
    ((sortClauses_perm_self N clauses).trans (hperm.trans (sortClauses_perm_self N clauses').symm))
  intro c₁ c₂ h₁ h₂ h₁₂ h₂₁
  by_contra hne
  have hmem : c₂ ∈ clauses := hperm.mem_iff.mpr ((sortClauses_perm_self N clauses').mem_iff.mp h₂)
  have hd := hdiffer.forall ((sortClauses_perm_self N clauses).mem_iff.mp h₁) hmem hne
  rw [hd.sortsBefore h₁₂] at h₂₁
  cases h₂₁

end Order

/-! ## §5 The choice -/

/-- The dispatcher takes the arguments: as many as it has parameters, and where a position is handed
over an instance of the class that is of the type. -/
def Takes (M : Runtime F T E V) (d : Dispatcher F T E B) (args : List V) : Prop :=
  match d.lambdaList with
  | .rest => True
  | .fixed arity classes _ => args.length = arity ∧ ∀ (i : Nat) (t : T) (v : V),
    classes[i]? = some (some t) → args[i]? = some v → M.instanceOf v t = true ∧ M.typep v t = true

section Choice

variable {M : Runtime F T E V} {N : Names F} {kind : Kind}
    {clauses clauses' : List (Clause F T E B)}
  {args : List V}

theorem uniformArity_eq_some {n : Nat} : uniformArity clauses = some n ↔
    clauses ≠ [] ∧ ∀ c ∈ clauses, c.hasRest = false ∧ c.arity = n := by
  cases clauses with
  | nil => simp [uniformArity]
  | cons c clauses =>
    rw [uniformArity]
    by_cases hrest : (c :: clauses).any Clause.hasRest = true
    · obtain ⟨c', hc', hc'rest⟩ := List.any_eq_true.mp hrest
      rw [if_pos hrest]
      refine iff_of_false (by simp) fun h => ?_
      rw [(h.2 c' hc').1] at hc'rest
      cases hc'rest
    · have hfixed : ∀ c' ∈ c :: clauses, c'.hasRest = false := by simpa using hrest
      rw [if_neg hrest]
      by_cases hall : (clauses.all fun c' => c'.arity = c.arity) = true
      · have hsame : ∀ c' ∈ clauses, c'.arity = c.arity := by simpa using hall
        rw [if_pos hall]
        constructor
        · rintro ⟨⟩
          refine ⟨by simp, fun c' hc' => ⟨hfixed c' hc', ?_⟩⟩
          rcases List.mem_cons.mp hc' with rfl | hc'
          · rfl
          · exact hsame c' hc'
        · intro h
          rw [(h.2 c (by simp)).2]
      · rw [if_neg hall]
        refine iff_of_false (by simp) fun h => hall ?_
        have hn := (h.2 c (by simp)).2
        simpa [hn] using fun c' hc' => (h.2 c' (List.mem_cons_of_mem c hc')).2

theorem uniformArity_perm (hperm : clauses.Perm clauses') :
    uniformArity clauses = uniformArity clauses' := by
  ext n
  have hnil : clauses = [] ↔ clauses' = [] := ⟨fun h => List.nil_perm.mp (h ▸ hperm), fun h =>
    List.perm_nil.mp (h ▸ hperm)⟩
  simp only [uniformArity_eq_some, ne_eq, hnil, hperm.mem_iff]

variable [DecidableEq F] [DecidableEq T]

/-- The class of a position is the type that every clause has there. -/
theorem specializerClass_eq {sorted : List (Clause F T E B)} {i : Nat} {t : T} {c : Clause F T E B}
    (h : specializerClass N sorted i = some t) (hc : c ∈ sorted) :
    (c.signature N)[i]? = some (.type t) := by
  cases sorted with
  | nil => cases hc
  | cons c₀ sorted =>
    simp only [specializerClass] at h
    split at h
    · split at h
      · next hall =>
        cases h
        have hsig := (Bool.and_eq_true_iff.mp (List.all_eq_true.mp hall c hc)).2
        obtain ⟨sig, hi, htype⟩ := (Option.any_eq_true _ _).mp hsig
        rw [hi]
        cases sig with
        | type t' => rw [of_decide_eq_true htype]
        | any => cases htype
        | pred fn args => cases htype
        | typePred fn args => cases htype
        | seq elems hasRest => cases htype
      · cases h
    · cases h

theorem handedOver_specializers {arity : Nat} {sorted : List (Clause F T E B)} {c : Clause F T E B}
    (hc : c ∈ sorted) (harity : c.arity = arity) :
    HandedOver N (kind.specializers N sorted arity) c := by
  subst harity
  cases kind with
  | fn => exact ⟨by simp [Kind.specializers], by simp [Kind.specializers, List.getElem?_replicate]⟩
  | method takesMore qualified =>
    refine ⟨by simp [Kind.specializers, specializerClasses], fun i t hi => ?_⟩
    simp only [Kind.specializers, specializerClasses, List.getElem?_map] at hi
    obtain ⟨j, hj, hclass⟩ := Option.map_eq_some_iff.mp hi
    have hlt := (List.getElem?_eq_some_iff.mp hj).1
    rw [List.length_range] at hlt
    rw [List.getElem?_range hlt] at hj
    cases hj
    exact specializerClass_eq hclass hc

omit [DecidableEq F] [DecidableEq T] in
theorem instancesOf_of {classes : List (Option T)} {vs : List V} (h : ∀ (i : Nat) (t : T) (v : V),
    classes[i]? = some (some t) → vs[i]? = some v → M.instanceOf v t = true) :
    instancesOf M classes vs = true := by
  induction classes generalizing vs with
  | nil => rfl
  | cons cls classes ih =>
    cases vs with
    | nil => cases cls <;> rfl
    | cons v vs =>
      have hrest := ih fun i t v hi hv => h (i + 1) t v hi hv
      cases cls with
      | none => exact hrest
      | some t => simp [instancesOf, hrest, h 0 t v rfl rfl]

omit [DecidableEq F] [DecidableEq T] in
/-- A call whose arguments the dispatcher takes goes through the tests. -/
theorem call_eq {d : Dispatcher F T E B} (h : Takes M d args) :
    call M d args = runBranches M args d.otherwise d.branches := by
  rw [call]
  split
  · rfl
  · next arity classes takesMore hlist =>
    simp only [Takes, hlist] at h
    rw [if_neg (by omega), if_pos (instancesOf_of fun i t v hi hv => (h.2 i t v hi hv).1)]

/-- The branches stand in the order of the sort, and their tests are the matches. -/
theorem branches_of_compile (h : Takes M (compile N kind clauses) args) :
    ∃ branch : Clause F T E B → Branch F T E B,
      (compile N kind clauses).branches = (sortClauses N clauses).map branch ∧
        (∀ c, (branch c).clause = c) ∧
        ∀ c ∈ clauses, ((branch c).test M args = some true ↔ c.Matches M N kind args) := by
  cases huniform : uniformArity clauses with
  | none =>
    refine ⟨restBranch N kind, by simp [compile, huniform], fun c => rfl,
      fun c _ => restBranch_test⟩
  | some arity =>
    refine ⟨fixedBranch N kind (kind.specializers N (sortClauses N clauses) arity), by
      simp [compile, huniform], fun c => rfl, fun c hc => ?_⟩
    simp only [Takes, compile, huniform] at h
    obtain ⟨hrest, harity⟩ := (uniformArity_eq_some.mp huniform).2 c hc
    have hsorted := (sortClauses_perm_self N clauses).mem_iff.mpr hc
    exact fixedBranch_test (handedOver_specializers hsorted harity) hrest (h.1.trans harity.symm)
      fun i t v hi hv => (h.2 i t v hi hv).2

omit [DecidableEq F] [DecidableEq T] in
/-- `cond` runs the first clause whose test holds. -/
theorem runBranches_cases {otherwise : Outcome F T E B} {branches : List (Branch F T E B)}
    (h : runBranches M args otherwise branches ≠ .signals) :
    (∃ earlier b later, branches = earlier ++ b :: later ∧ b.test M args = some true ∧
      (∀ b' ∈ earlier, b'.test M args = some false) ∧
      runBranches M args otherwise branches = .runs b.clause) ∨
    ((∀ b ∈ branches, b.test M args = some false) ∧ runBranches M args otherwise branches =
      otherwise) := by
  induction branches with
  | nil => exact .inr ⟨by simp, rfl⟩
  | cons b branches ih =>
    cases htest : b.test M args with
    | none => exact absurd (by simp [runBranches, htest]) h
    | some holds =>
      cases holds with
      | true => exact .inl ⟨[], b, branches, rfl, htest, by simp, by simp [runBranches, htest]⟩
      | false =>
        have hrun : runBranches M args otherwise (b :: branches) =
          runBranches M args otherwise branches := by
          simp [runBranches, htest]
        rw [hrun] at h ⊢
        rcases ih h with ⟨earlier, b', later, rfl, htrue, hfalse, hruns⟩ | ⟨hfalse, hruns⟩
        · exact .inl ⟨b :: earlier, b', later, rfl, htrue, by simpa [htest] using hfalse, hruns⟩
        · exact .inr ⟨by simpa [htest] using hfalse, hruns⟩

/-- The dispatcher answers as its clauses match: the last clause of the `cond` is reached exactly
when no clause matches, else a most specific matching clause runs, and the source order of clauses
that differ does not matter. -/
structure Dispatches (M : Runtime F T E V) (N : Names F) (kind : Kind)
    (clauses : List (Clause F T E B)) (args : List V) : Prop where
  otherwise : call M (compile N kind clauses) args = (compile N kind clauses).otherwise ↔
    ∀ c ∈ clauses, ¬ c.Matches M N kind args
  chosen : (∃ c ∈ clauses, c.Matches M N kind args) →
    ∃ c ∈ clauses, call M (compile N kind clauses) args = .runs c ∧ c.Matches M N kind args ∧
      ∀ c' ∈ clauses, c'.Matches M N kind args → c'.arity = c.arity →
        patternMoreSpecificP N (c'.signature N) (c.signature N) = false
  stable : ∀ clauses' : List (Clause F T E B), clauses.Perm clauses' →
    clauses.Pairwise (Differs N) →
    call M (compile N kind clauses') args = call M (compile N kind clauses) args

theorem compile_perm (hperm : clauses.Perm clauses') (hdiffer : clauses.Pairwise (Differs N)) :
    compile N kind clauses' = compile N kind clauses := by
  rw [compile, compile, sortClauses_perm hperm hdiffer, uniformArity_perm hperm]

end Choice

/-- The error is signalled exactly when no clause matches, and no clause with a rest parameter runs
beside a matching fixed one. -/
structure PicksMostSpecific [DecidableEq F] [DecidableEq T] (M : Runtime F T E V) (N : Names F)
    (kind : Kind) (clauses : List (Clause F T E B)) (args : List V) : Prop where
  error : call M (compile N kind clauses) args = .noMatchingClause ↔ ∀ c ∈ clauses,
    ¬ c.Matches M N kind args
  chosen : (∃ c ∈ clauses, c.Matches M N kind args) →
    ∃ c ∈ clauses, call M (compile N kind clauses) args = .runs c ∧ c.Matches M N kind args ∧
      (∀ c' ∈ clauses, c'.Matches M N kind args → c'.arity = c.arity →
        patternMoreSpecificP N (c'.signature N) (c.signature N) = false) ∧
      (c.hasRest = true → ∀ c' ∈ clauses, c'.hasRest = false → ¬ c'.Matches M N kind args)
  stable : ∀ clauses' : List (Clause F T E B), clauses.Perm clauses' →
    clauses.Pairwise (Differs N) →
    call M (compile N kind clauses') args = call M (compile N kind clauses) args

/-- No value is of the type. -/
def sampleRuntime : Runtime Unit Unit Unit Nat where
  typep _ _ := false
  instanceOf _ _ := false
  sequence _ := none
  predicate _ _ _ := some true
  field _ _ _ := none
  eql _ _ := false

def sampleNames : Names Unit := ⟨fun _ => false, fun _ => false, fun _ _ => rfl⟩

def sampleSymbol : Pattern Unit Unit Unit := .symbol (.plain ())

/-- `[x]`, `[(x <type>)]`, `[x y]` and `[x & more]`. -/
def oneParam : Clause Unit Unit Unit Nat := ⟨[sampleSymbol], 1⟩
def oneTyped : Clause Unit Unit Unit Nat := ⟨[.type sampleSymbol ()], 2⟩
def twoParams : Clause Unit Unit Unit Nat := ⟨[sampleSymbol, sampleSymbol], 3⟩
def variadic : Clause Unit Unit Unit Nat := ⟨[sampleSymbol, .symbol .restMark, sampleSymbol], 4⟩

theorem sortClauses_variadic :
    sortClauses sampleNames [twoParams, variadic] = [variadic, twoParams] := by
  simp [sortClauses, List.mergeSort, sortsBefore, twoParams, variadic, Clause.arity, Clause.regular,
    parseParams, parseParam, sampleSymbol]

theorem call_variadic (kind : Kind) (args : List Nat) :
    call sampleRuntime (compile sampleNames kind [twoParams, variadic]) args =
      runBranches sampleRuntime args (if kind.callsNext then .callsNextMethod
        else .noMatchingClause)
        [restBranch sampleNames kind variadic, restBranch sampleNames kind twoParams] := by
  have huniform : uniformArity [twoParams, variadic] = none := rfl
  simp only [call, compile, huniform, sortClauses_variadic, List.map_cons, List.map_nil,
    Dispatcher.otherwise]

end Fol.Dispatch

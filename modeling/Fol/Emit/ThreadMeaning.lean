/-
Fol.Emit.ThreadMeaning — where a threading form means the nested calls.

Splicing works where the code of the step and that of the call it stands for are calls of one
function, and differ in the accumulated argument only (`emitStep_same`); by induction on the
steps the whole form then means the nested calls. What the nested call is optimised to is
compared branch by branch with the plain call first (`emitCall_plain`).

  §1 Sameness   — `Same`, the forms it passes through.
  §2 Plain      — `plainCall`, `BranchesAgree`.
  §3 Steps      — `StepFine`, `emitStep_same`.
  §4 Forms      — `thread_means_nested`.
-/
import Mathlib.Data.List.Forall2
import Fol.Emit.Threading

namespace Fol.Threading

open Fol.Escape Fol.Names

section

variable {V S : Type} {M : Machine V S} {ρ : Env V}

/-! ## §1 Sameness -/

/-- Code of one value and one effect, wherever it stands under these variables. -/
def Same (M : Machine V S) (ρ : Env V) (a b : Sexp) : Prop :=
  ∀ temp σ, eval M ρ temp a σ = eval M ρ temp b σ

/-- Not a macro or a special operator. -/
def FunctionName (M : Machine V S) (f : Symbol) : Prop := f ∉ operators ∧ M.special f = none

theorem Same.refl (a : Sexp) : Same M ρ a a := fun _ _ => rfl

theorem Same.symm {a b : Sexp} (h : Same M ρ a b) : Same M ρ b a := fun temp σ => (h temp σ).symm

theorem Same.trans {a b c : Sexp} (hab : Same M ρ a b) (hbc : Same M ρ b c) : Same M ρ a c :=
  fun temp σ => (hab temp σ).trans (hbc temp σ)

theorem evalList_same {xs ys : List Sexp} (h : List.Forall₂ (Same M ρ) xs ys) :
    ∀ temp σ, evalList M ρ temp xs σ = evalList M ρ temp ys σ := by
  induction h with
  | nil =>
    intro temp σ
    rfl
  | cons hxy _ ih =>
    intro temp σ
    rw [evalList, evalList, hxy temp σ]
    exact congrArg _ (funext fun p => by rw [ih temp p.2])

theorem eval_form {f : Symbol} (hf : FunctionName M f) (temp : Option V) (args : List Sexp)
    (σ : S) :
    eval M ρ temp (.form f args) σ =
      (evalList M ρ temp args σ).bind fun p => invoke M ρ f p.1 p.2 := by
  obtain ⟨hop, hspecial⟩ := hf
  simp only [operators, List.mem_cons, List.not_mem_nil, or_false, not_or] at hop
  obtain ⟨hif, hlet, hcond, hfunction, hlambda⟩ := hop
  rw [Sexp.form, eval, if_neg hif, if_neg hlet, if_neg hcond, if_neg hfunction, if_neg hlambda,
    hspecial]

/-- Calls of functions that agree, on arguments that agree. -/
theorem form_same {f g : Symbol} (hf : FunctionName M f) (hg : FunctionName M g)
    (hfg : ∀ vs σ, invoke M ρ f vs σ = invoke M ρ g vs σ) {xs ys : List Sexp}
    (h : List.Forall₂ (Same M ρ) xs ys) : Same M ρ (.form f xs) (.form g ys) := by
  intro temp σ
  rw [eval_form hf, eval_form hg, evalList_same h]
  exact congrArg _ (funext fun p => hfg p.1 p.2)

theorem eval_ifForm (temp : Option V) (test thn els : Sexp) (σ : S) :
    eval M ρ temp (.ifForm test thn els) σ = (eval M ρ temp test σ).bind fun p =>
      if M.truthy p.1 then eval M ρ temp thn p.2 else eval M ρ temp els p.2 := by
  rw [Sexp.ifForm, Sexp.form, eval, if_pos rfl, evalIf]

/-- A test that has no effect chooses the branch. -/
theorem eval_ifForm_of {test : Sexp} {b : Bool} {temp : Option V} {σ : S}
    (h : eval M ρ temp test σ = truth M b σ) (thn els : Sexp) :
    eval M ρ temp (.ifForm test thn els) σ = if b then eval M ρ temp thn σ
    else eval M ρ temp els σ := by
  rw [eval_ifForm, h, truth, Option.bind_some, M.truthy_bool]

theorem eval_fboundp (s : Symbol) (temp : Option V) (σ : S) :
    eval M ρ temp (.fboundp (.sym s)) σ = truth M (M.fbound s σ) σ := by
  rw [eval, fboundpOf]

theorem guard_same {region : List String} {fast slow : Sexp} (h : Same M ρ fast slow) :
    Same M ρ (.ifForm (.guard region) fast slow) slow := by
  intro temp σ
  rw [eval_ifForm_of (b := M.valid region σ) (by rw [eval]), h temp σ, ite_self]

theorem guarded_same {E : Emitter} {region : List String} {fast slow : Sexp}
    (h : Same M ρ fast slow) :
    Same M ρ (guarded E region fast slow) slow := by
  rw [guarded]
  split
  · exact h
  · exact guard_same h

/-- What the value of the operator is chooses the clause. -/
theorem evalCond_clause (k : Kind) (reader : Symbol) (args cs : List Sexp) (v : V) (σ : S) :
    evalCond M ρ (some v) (.clause k reader args :: cs) σ =
      if M.isA k v then eval M ρ (some v) (.form reader (.temp :: args)) σ
      else evalCond M ρ (some v) cs σ := by
  rw [Sexp.clause, evalCond, eval, Option.bind_some, truth, Option.bind_some, M.truthy_bool]

theorem eval_dispatch (temp : Option V) (op : Sexp) (args cs : List Sexp) (σ : S) :
    eval M ρ temp (.dispatch op args cs) σ = (eval M ρ temp op σ).bind fun p =>
      evalCond M ρ (some p.1) (.clause .function (cl "FUNCALL") args :: cs ++
        [.list [.literal (.bool true), .quit]]) p.2 := by
  rw [Sexp.dispatch, Sexp.form, eval, if_neg (by decide), if_pos rfl, evalLet]
  refine congrArg _ (funext fun p => ?_)
  rw [evalBody, Sexp.form, eval, if_neg (by decide), if_neg (by decide), if_pos rfl]

theorem functionName_library {f : Symbol} (hf : f ∈ libraryFunctions) : FunctionName M f := by
  refine ⟨?_, M.library f hf⟩
  revert f
  decide

theorem clause_same {args args' : List Sexp} (h : List.Forall₂ (Same M ρ) args args')
    {reader : Symbol} (hreader : FunctionName M reader) :
    Same M ρ (.form reader (.temp :: args)) (.form reader (.temp :: args')) :=
  form_same hreader hreader (fun _ _ => rfl) (.cons (Same.refl _) h)

/-! ## §2 Plain -/

theorem emitNodes_eq_map (E : Emitter) (ns : List Ast) : emitNodes E ns = ns.map (emitNode E) := by
  induction ns with
  | nil => rfl
  | cons n ns ih => rw [emitNodes, ih, List.map_cons]

/-- The emitter that knows no slot. -/
def slotless (E : Emitter) : Emitter := { E with slot := fun _ _ => none }

/-- The code of a call before it is optimised. -/
def plainCall (E : Emitter) (op : Ast) (args : List Ast) : Sexp :=
  emitCall1 (slotless E) op args (emitNode E op) (emitNodes E args)

/-- The call reads this key of this value. -/
def keywordRead (E : Emitter) : Ast → List Ast → Option (Ast × String)
  | .literal (.keyword key), [object] => some (object, key)
  | .symbolRef s, args =>
    if s ∈ E.tables.letfnFns ∨ s ∈ E.tables.lexicalVars then none else getRead s args
  | _, _ => none

/-- Where an optimisation applies to a call, its code does what the code beside it does. -/
structure BranchesAgree (E : Emitter) (M : Machine V S) (ρ : Env V) (op : Ast) (args : List Ast) :
    Prop where
  slot : ∀ object key cls slot, keywordRead E op args = some (object, key) →
    E.slot object key = some (cls, slot) →
    Same M ρ (.form (cl "SLOT-VALUE") [emitNode E object, .quoted slot])
      (.form (collection "GET") [emitNode E object, .literal (.keyword key)])
  dynamicExtent : ∀ s fast, op = .symbolRef s → E.dynamicExtent s args = some fast →
    Same M ρ fast (plainCall E op args)
  converted : ∀ s region fast, op = .symbolRef s → E.converted s args = some (region, fast) →
    Same M ρ fast (plainCall E op args)

variable {E : Emitter}

theorem getRead_args {s : Symbol} {args : List Ast} {object : Ast} {key : String}
    (h : getRead s args = some (object, key)) : args = [object, .literal (.keyword key)] := by
  unfold getRead at h
  split at h
  next => split at h <;> simp_all
  next => exact nomatch h

theorem emitGet_same {object : Ast} {key : String}
    (h : ∀ cls slot, E.slot object key = some (cls, slot) →
      Same M ρ (.form (cl "SLOT-VALUE") [emitNode E object, .quoted slot])
        (.form (collection "GET") [emitNode E object, .literal (.keyword key)])) :
    Same M ρ (emitGet E object key (emitNode E object) [emitNode E object, .literal (.keyword key)])
      (.form (collection "GET") [emitNode E object, .literal (.keyword key)]) := by
  rw [emitGet]
  cases hslot : E.slot object key with
  | none => exact Same.refl _
  | some p => exact guard_same (h p.1 p.2 hslot)

theorem emitGlobalCall_plain {s : Symbol} {args : List Ast}
    (h : ∀ object key cls slot, getRead s args = some (object, key) →
      E.slot object key = some (cls, slot) →
      Same M ρ (.form (cl "SLOT-VALUE") [emitNode E object, .quoted slot])
        (.form (collection "GET") [emitNode E object, .literal (.keyword key)])) :
    Same M ρ (emitGlobalCall E s args (emitNodes E args))
      (emitGlobalCall (slotless E) s args (emitNodes E args)) := by
  rw [emitGlobalCall, emitGlobalCall]
  cases hread : getRead s args with
  | none => exact Same.refl _
  | some p =>
    obtain ⟨object, key⟩ := p
    obtain rfl := getRead_args hread
    exact emitGet_same (h object key · · hread)

theorem emitCall1_letfn {s : Symbol} (h : s ∈ E.tables.letfnFns) (args : List Ast) (opCode : Sexp)
    (codes : List Sexp) : emitCall1 E (.symbolRef s) args opCode codes = .form s codes := if_pos h

theorem emitCall1_lexical {s : Symbol} (hletfn : s ∉ E.tables.letfnFns)
    (h : s ∈ E.tables.lexicalVars) (args : List Ast) (opCode : Sexp) (codes : List Sexp) :
    emitCall1 E (.symbolRef s) args opCode codes = .dispatch (.sym s) codes (readers codes) :=
  (if_neg hletfn).trans (if_pos h)

theorem emitCall1_global {s : Symbol} (hletfn : s ∉ E.tables.letfnFns)
    (h : s ∉ E.tables.lexicalVars) (args : List Ast) (opCode : Sexp) (codes : List Sexp) :
    emitCall1 E (.symbolRef s) args opCode codes = emitGlobalCall E s args codes :=
  (if_neg hletfn).trans (if_neg h)

theorem emitCall1_plain {op : Ast} {args : List Ast} (h : BranchesAgree E M ρ op args) :
    Same M ρ (emitCall1 E op args (emitNode E op) (emitNodes E args)) (plainCall E op args) := by
  cases op with
  | literal l =>
    cases l with
    | keyword key =>
      match args with
      | [] => exact Same.refl _
      | [object] => exact emitGet_same (h.slot object key · · rfl)
      | _ :: _ :: _ => exact Same.refl _
    | _ => exact Same.refl _
  | symbolRef s =>
    rw [plainCall]
    by_cases hletfn : s ∈ E.tables.letfnFns
    · rw [emitCall1_letfn hletfn, emitCall1_letfn (E := slotless E) hletfn]
      exact Same.refl _
    by_cases hlexical : s ∈ E.tables.lexicalVars
    · rw [emitCall1_lexical hletfn hlexical, emitCall1_lexical (E := slotless E) hletfn hlexical]
      exact Same.refl _
    rw [emitCall1_global hletfn hlexical, emitCall1_global (E := slotless E) hletfn hlexical]
    refine emitGlobalCall_plain fun object key cls slot hread hslot => ?_
    refine h.slot object key cls slot ?_ hslot
    rw [keywordRead, if_neg (not_or.mpr ⟨hletfn, hlexical⟩), hread]
  | _ => exact Same.refl _

/-- The code of a call means the plain call. -/
theorem emitCall_plain {op : Ast} {args : List Ast} (h : BranchesAgree E M ρ op args) :
    Same M ρ (emitNode E (.call op args)) (plainCall E op args) := by
  have hslow := emitCall1_plain h
  cases op with
  | symbolRef s =>
    have hdx : Same M ρ (emitDx E (.symbolRef s) args
        (emitCall1 E (.symbolRef s) args (emitNode E (.symbolRef s)) (emitNodes E args)))
        (plainCall E (.symbolRef s) args) := by
      simp only [emitDx]
      cases hfast : E.dynamicExtent s args with
      | none => exact hslow
      | some fast =>
        exact (guarded_same ((h.dynamicExtent s fast rfl hfast).trans hslow.symm)).trans hslow
    simp only [emitNode, emitCall]
    cases hfast : E.converted s args with
    | none => exact hdx
    | some p => exact (guarded_same ((h.converted s p.1 p.2 rfl hfast).trans hdx.symm)).trans hdx
  | _ => exact hslow

/-! ## §3 Steps -/

theorem Side.map_insert {α β : Type} (side : Side) (f : α → β) (a : α) (as : List α) :
    (side.insert a as).map f = side.insert (f a) (as.map f) := by
  cases side with
  | first => rfl
  | last => exact List.map_append

/-- The accumulated argument is where the lists differ. -/
theorem insert_same {a b : Sexp} (h : Same M ρ a b) (side : Side) (xs : List Sexp) :
    List.Forall₂ (Same M ρ) (side.insert a xs) (side.insert b xs) := by
  have hxs : List.Forall₂ (Same M ρ) xs xs := List.forall₂_same.mpr fun x _ => Same.refl x
  cases side with
  | first => exact .cons h hxs
  | last => exact List.rel_append hxs (.cons h .nil)

theorem emitStep_form {f : Symbol} (hf : FunctionName M f) (side : Side) (acc : Sexp)
    (args : List Sexp) :
    emitStep side acc (.form f args) = .form f (side.insert acc args) := by
  have hsymbol : stepSymbol (.form f args) = none := by
    cases args with
    | nil => rfl
    | cons x xs =>
      refine if_neg ?_
      rintro rfl
      exact hf.1 (by decide)
  simp only [Sexp.form] at hsymbol ⊢
  rw [emitStep, hsymbol]

theorem emitStep_symbol (E : Emitter) (side : Side) (acc : Sexp) (s : Symbol) :
    emitStep side acc (emitRef E s) = dispatchStep (.sym s) acc := by
  rw [emitRef]
  cases emitSymbolRef E.setting E.world E.tables s <;> rfl

/-- Two names of one function. -/
structure SameFunction (M : Machine V S) (ρ : Env V) (f g : Symbol) : Prop where
  left : FunctionName M f
  right : FunctionName M g
  invoke : ∀ vs σ, invoke M ρ f vs σ = invoke M ρ g vs σ

/-- The variable holds no set. -/
def NotSet (M : Machine V S) (ρ : Env V) (s : Symbol) (σ : S) : Prop :=
  ∀ v, (ρ.vars s).or (M.value s σ) = some v → M.isA .set v = false

/-- A symbol as a step: what a call of it would choose is what the test at run time chooses. -/
def SymbolFine (E : Emitter) (M : Machine V S) (ρ : Env V) (s : Symbol) (acc : Ast) : Prop :=
  if s ∈ E.tables.letfnFns then FunctionName M s ∧ ∀ σ, M.fbound s σ = true
  else if s ∈ E.tables.lexicalVars then ∀ σ, M.fbound s σ = false ∧ NotSet M ρ s σ
  else
    match globalOperator E.setting E.world s [acc] with
    | .call f => SameFunction M ρ s f ∧ ∀ σ, M.fbound s σ = true
    | _ => ∀ σ, (M.fbound s σ = true ∧ FunctionName M s) ∨ (M.fbound s σ = false ∧ NotSet M ρ s σ)

/-- A call of a named function as a step: nothing but the call is emitted for it, and one
function is called with and without the accumulated argument. -/
structure NamedFine (E : Emitter) (M : Machine V S) (ρ : Env V) (side : Side) (s : Symbol)
    (args : List Ast) (acc : Ast) : Prop where
  converted : E.converted s args = none
  dynamicExtent : E.dynamicExtent s args = none
  slot : ∀ object key, keywordRead E (.symbolRef s) args = some (object, key) →
    E.slot object key = none
  function : (s ∈ E.tables.letfnFns ∧ FunctionName M s) ∨
    (s ∉ E.tables.letfnFns ∧ s ∉ E.tables.lexicalVars ∧
      ∃ f g, globalOperator E.setting E.world s args = .call f ∧
        globalOperator E.setting E.world s (side.insert acc args) = .call g ∧ SameFunction M ρ f g)

/-- What calls the value of an operator that is not a symbol. -/
def valueCaller : Ast → Option Symbol
  | .set _ => some (collection "GET")
  | .dict _ => some (collection "GET")
  | .vector _ => some (collection "NTH")
  | .fn _ _ => some (cl "FUNCALL")
  | .call _ _ => some (cl "FUNCALL")
  | .literal _ => some (cl "FUNCALL")
  | _ => none

/-- A call as a step. The value of an operator that is no symbol comes first in its code. -/
def CallFine (E : Emitter) (M : Machine V S) (ρ : Env V) (side : Side) (op : Ast) (args : List Ast)
    (acc : Ast) : Prop :=
  match op with
  | .symbolRef s => NamedFine E M ρ side s args acc
  | .literal (.keyword _) => side = .last ∧ 2 ≤ args.length
  | op => valueCaller op = none ∨ side = .last

/-- A step whose code can take the accumulated argument. -/
def StepFine (E : Emitter) (M : Machine V S) (ρ : Env V) (side : Side) (acc step : Ast) : Prop :=
  match step with
  | .symbolRef s => BranchesAgree E M ρ step [acc] ∧ SymbolFine E M ρ s acc
  | .call op args => BranchesAgree E M ρ op (side.insert acc args) ∧ CallFine E M ρ side op args acc
  | .literal l => stepSymbol (.literal l) = none
  | _ => False

theorem slotless_call {s f : Symbol} {args : List Ast} (codes : List Sexp)
    (h : globalOperator E.setting E.world s args = .call f) :
    emitGlobalCall (slotless E) s args codes = .form f codes := by
  rw [emitGlobalCall]
  cases hread : getRead s args with
  | none =>
    have h' : globalOperator (slotless E).setting (slotless E).world s args = .call f := h
    rw [h']
  | some p =>
    have hname : s.name = "GET" := by
      unfold getRead at hread
      split at hread
      next => split at hread <;> simp_all
      next => exact nomatch hread
    obtain rfl := getRead_args hread
    rw [globalOperator, if_pos (by simp [hname, keywordLookup])] at h
    obtain rfl := OperatorForm.call.inj h
    rfl

theorem emitGlobalCall_slotless {s : Symbol} {args : List Ast} (codes : List Sexp)
    (h : ∀ object key, getRead s args = some (object, key) → E.slot object key = none) :
    emitGlobalCall E s args codes = emitGlobalCall (slotless E) s args codes := by
  rw [emitGlobalCall, emitGlobalCall]
  cases hread : getRead s args with
  | none => rfl
  | some p => simp only [emitGet, h p.1 p.2 hread, slotless]

/-- The code of a step that calls a named function. -/
theorem emitNode_named {s : Symbol} {args : List Ast} (hconverted : E.converted s args = none)
    (hdx : E.dynamicExtent s args = none) :
    emitNode E (.call (.symbolRef s) args) =
      emitCall1 E (.symbolRef s) args (emitNode E (.symbolRef s)) (emitNodes E args) := by
  simp only [emitNode, emitCall, emitDx, hconverted, hdx]

theorem step_named {side : Side} {s : Symbol} {args : List Ast} {acc : Ast} {a : Sexp}
    (h : NamedFine E M ρ side s args acc) (ha : Same M ρ a (emitNode E acc)) :
    Same M ρ (emitStep side a (emitNode E (.call (.symbolRef s) args)))
      (plainCall E (.symbolRef s) (side.insert acc args)) := by
  have hargs :
    emitNodes E (side.insert acc args) = side.insert (emitNode E acc) (emitNodes E args) := by
    rw [emitNodes_eq_map, emitNodes_eq_map, Side.map_insert]
  rw [emitNode_named h.converted h.dynamicExtent, plainCall, hargs]
  obtain ⟨hletfn, hs⟩ | ⟨hletfn, hlexical, f, g, hf, hg, hfg⟩ := h.function
  · rw [emitCall1_letfn hletfn, emitCall1_letfn (E := slotless E) hletfn, emitStep_form hs]
    exact form_same hs hs (fun _ _ => rfl) (insert_same ha side _)
  · have hslot : ∀ object key, getRead s args = some (object, key) → E.slot object key = none := by
      intro object key hread
      refine h.slot object key ?_
      rw [keywordRead, if_neg (not_or.mpr ⟨hletfn, hlexical⟩), hread]
    rw [emitCall1_global hletfn hlexical, emitCall1_global (E := slotless E) hletfn hlexical,
      emitGlobalCall_slotless _ hslot, slotless_call _ hf, slotless_call _ hg,
      emitStep_form hfg.left]
    exact form_same hfg.left hfg.right hfg.invoke (insert_same ha side _)

/-- The code of a call whose operator is no symbol. -/
theorem emitNode_value {op : Ast} {args : List Ast} {g : Symbol} (hg : valueCaller op = some g)
    (hkeyword : ∀ key, op = .literal (.keyword key) → args.length ≠ 1) :
    emitNode E (.call op args) = .form g (emitNode E op :: emitNodes E args) := by
  cases op with
  | literal l =>
    cases l with
    | keyword key =>
      obtain rfl := Option.some.inj hg
      match args with
      | [] => rfl
      | [_] => exact absurd rfl (hkeyword key rfl)
      | _ :: _ :: _ => rfl
    | _ => exact Option.some.inj hg ▸ rfl
  | symbolRef s => exact nomatch hg
  | _ => first | exact Option.some.inj hg ▸ rfl | exact nomatch hg

theorem functionName_valueCaller {op : Ast} {g : Symbol} (hg : valueCaller op = some g) :
    FunctionName M g := by
  refine functionName_library ?_
  cases op <;> simp_all [valueCaller, libraryFunctions]

/-- Last is where the arguments of a value that is called go. -/
theorem step_value {op : Ast} {args : List Ast} {acc : Ast} {a : Sexp} {g : Symbol}
    (hg : valueCaller op = some g)
    (hkeyword : ∀ key, op = .literal (.keyword key) → 2 ≤ args.length)
    (ha : Same M ρ a (emitNode E acc)) :
    Same M ρ (emitStep .last a (emitNode E (.call op args)))
      (emitNode E (.call op (Side.last.insert acc args))) := by
  have hname : FunctionName M g := functionName_valueCaller hg
  have hlength : (Side.last.insert acc args).length = args.length + 1 := List.length_append
  rw [emitNode_value hg (fun key h => Nat.ne_of_gt (hkeyword key h)),
    emitNode_value hg (fun key h => by have := hkeyword key h; omega), emitStep_form hname,
    emitNodes_eq_map, emitNodes_eq_map, Side.map_insert]
  exact form_same hname hname (fun _ _ => rfl) (insert_same ha .last (_ :: _))

theorem eval_dispatchStep (s : Symbol) (a : Sexp) (temp : Option V) (σ : S) :
    eval M ρ temp (dispatchStep (.sym s) a) σ =
      if M.fbound s σ then eval M ρ temp (.form s [a]) σ
      else eval M ρ temp (.dispatch (.sym s) [a]
        [.clause .dict (collection "GET") [a], .clause .vector (collection "NTH") [a]]) σ :=
  eval_ifForm_of (eval_fboundp s temp σ) _ _

/-- The step has no clause for sets. -/
theorem eval_dispatch_readers {s : Symbol} {a b : Sexp} (hab : Same M ρ a b) (temp : Option V)
    {σ : S} (hset : NotSet M ρ s σ) :
    eval M ρ temp (.dispatch (.sym s) [a]
      [.clause .dict (collection "GET") [a], .clause .vector (collection "NTH") [a]]) σ =
    eval M ρ temp (.dispatch (.sym s) [b] (readers [b])) σ := by
  have hargs : List.Forall₂ (Same M ρ) [a] [b] := .cons hab .nil
  rw [eval_dispatch, eval_dispatch, eval]
  cases hv : (ρ.vars s).or (M.value s σ) with
  | none => rfl
  | some v =>
    simp only [Option.map_some, Option.bind_some, readers, List.length_singleton, true_or, if_true,
      List.cons_append, List.nil_append, evalCond_clause, hset v hv]
    rw [clause_same hargs (functionName_library (by decide)),
      clause_same hargs (functionName_library (by decide)),
      clause_same hargs (functionName_library (by decide))]
    rfl

theorem step_symbol {side : Side} {s : Symbol} {acc : Ast} {a : Sexp} (h : SymbolFine E M ρ s acc)
    (ha : Same M ρ a (emitNode E acc)) :
    Same M ρ (emitStep side a (emitRef E s)) (plainCall E (.symbolRef s) [acc]) := by
  intro temp σ
  rw [emitStep_symbol, eval_dispatchStep, plainCall, emitNodes, emitNodes]
  rw [SymbolFine] at h
  by_cases hletfn : s ∈ E.tables.letfnFns
  · rw [if_pos hletfn] at h
    rw [if_pos (h.2 σ), emitCall1_letfn (E := slotless E) hletfn]
    exact form_same h.1 h.1 (fun _ _ => rfl) (.cons ha .nil) temp σ
  rw [if_neg hletfn] at h
  by_cases hlexical : s ∈ E.tables.lexicalVars
  · rw [if_pos hlexical] at h
    rw [(h σ).1, emitCall1_lexical (E := slotless E) hletfn hlexical]
    exact eval_dispatch_readers ha temp (h σ).2
  rw [if_neg hlexical] at h
  rw [emitCall1_global (E := slotless E) hletfn hlexical]
  cases hop : globalOperator E.setting E.world s [acc] with
  | call f =>
    rw [hop] at h
    rw [slotless_call _ hop, if_pos (h.2 σ)]
    exact form_same h.1.left h.1.right h.1.invoke (.cons ha .nil) temp σ
  | _ =>
    rw [hop] at h
    have hchecked :
      emitGlobalCall (slotless E) s [acc] [emitNode E acc] = .ifForm (.fboundp (.sym s))
        (.form s [emitNode E acc])
        (.dispatch (.sym s) [emitNode E acc] (readers [emitNode E acc])) := by
      simp only [emitGlobalCall, getRead, slotless, hop]
    rw [hchecked, eval_ifForm_of (eval_fboundp s temp σ)]
    obtain ⟨hbound, hs⟩ | ⟨hunbound, hset⟩ := h σ
    · rw [if_pos hbound, if_pos hbound]
      exact form_same hs hs (fun _ _ => rfl) (.cons ha .nil) temp σ
    · rw [hunbound]
      exact eval_dispatch_readers ha temp hset

theorem callFine_value {side : Side} {op : Ast} {args : List Ast} {acc : Ast} {g : Symbol}
    (hg : valueCaller op = some g) (h : CallFine E M ρ side op args acc) :
    side = .last ∧ ∀ key, op = .literal (.keyword key) → 2 ≤ args.length := by
  cases op with
  | literal l =>
    cases l with
    | keyword key => exact ⟨h.1, fun _ _ => h.2⟩
    | _ => exact ⟨h.resolve_left (fun hnone => nomatch hnone), fun key hkey => nomatch hkey⟩
  | symbolRef s => exact nomatch hg
  | _ => exact ⟨h.resolve_left (fun hnone => nomatch hg.symm.trans hnone),
      fun key hkey => nomatch hkey⟩

/-- No code for a call of anything else. -/
theorem emitNode_illegal {op : Ast} (hsymbol : ∀ s, op ≠ .symbolRef s)
    (hnone : valueCaller op = none) (args : List Ast) : emitNode E (.call op args) = .fail := by
  cases op with
  | symbolRef s => exact absurd rfl (hsymbol s)
  | _ => first | rfl | exact nomatch hnone

/-- A fine step, its code spliced, means the call it stands for. -/
theorem emitStep_same {side : Side} {acc step : Ast} {a : Sexp} (h : StepFine E M ρ side acc step)
    (ha : Same M ρ a (emitNode E acc)) :
    Same M ρ (emitStep side a (emitNode E step)) (emitNode E (nestedCall side acc step)) := by
  cases step with
  | symbolRef s => exact (step_symbol h.2 ha).trans (emitCall_plain h.1).symm
  | literal l =>
    have hsymbol : stepSymbol (.literal l) = none := h
    have hl : emitStep side a (.literal l) = .form (cl "FUNCALL") [.literal l, a] := by
      simp only [emitStep, hsymbol]
    have hname : FunctionName M (cl "FUNCALL") := functionName_library (by decide)
    have hnested :
      emitNode E (.call (.literal l) [acc]) = .form (cl "FUNCALL") [.literal l,
        emitNode E acc] := by
      refine emitNode_value rfl fun key hkey => ?_
      obtain rfl := Ast.literal.inj hkey
      exact nomatch h
    have hcode : emitNode E (nestedCall side acc (.literal l)) = _ := hnested
    rw [emitNode, hl, hcode]
    exact form_same hname hname (fun _ _ => rfl) (.cons (Same.refl _) (.cons ha .nil))
  | call op args =>
    obtain ⟨hbranches, hcall⟩ := h
    by_cases hsymbol : ∃ s, op = .symbolRef s
    · obtain ⟨s, rfl⟩ := hsymbol
      exact (step_named hcall ha).trans (emitCall_plain hbranches).symm
    cases hg : valueCaller op with
    | some g =>
      obtain ⟨rfl, hkeyword⟩ := callFine_value hg hcall
      exact step_value hg hkeyword ha
    | none =>
      have hillegal := emitNode_illegal (E := E) (fun s hs => hsymbol ⟨s, hs⟩) hg
      rw [hillegal, nestedCall, hillegal]
      exact Same.refl _
  | _ => exact h.elim

/-! ## §4 Forms -/

/-- Every step of a form is fine where it stands. -/
def StepsFine (E : Emitter) (M : Machine V S) (ρ : Env V) (side : Side) (acc : Ast) :
    List Ast → Prop
  | [] => True
  | step :: steps =>
      StepFine E M ρ side acc step ∧ StepsFine E M ρ side (nestedCall side acc step) steps

theorem foldl_same {side : Side} {steps : List Ast} : ∀ {acc : Ast} {a : Sexp},
    StepsFine E M ρ side acc steps → Same M ρ a (emitNode E acc) →
    Same M ρ (steps.foldl (fun a step => emitStep side a (emitNode E step)) a)
      (emitNode E (steps.foldl (nestedCall side) acc)) := by
  induction steps with
  | nil =>
    intro acc a _ ha
    exact ha
  | cons step steps ih =>
    intro acc a h ha
    exact ih h.2 (emitStep_same h.1 ha)

end

/-- A threading form whose steps are fine means the nested calls, in every state and wherever
it stands. -/
theorem thread_means_nested {V S : Type} (E : Emitter) (M : Machine V S) (ρ : Env V) (side : Side)
    (x : Ast) (steps : List Ast) (h : StepsFine E M ρ side x steps) :
    Same M ρ (emitThread E side x steps) (emitNode E (nested side x steps)) :=
  foldl_same h (Same.refl _)

inductive Datum where
  | literal (l : Literal)
  | symbol (s : Symbol)
  | function (s : Symbol)
  | identity
  | vector (vs : List Datum)

namespace Datum

/-- The functions of the image; of `get`, on what is no collection. -/
def applyNamed (f : Symbol) (vs : List Datum) : Option Datum :=
  match f.name, vs with
  | "INC", [.literal (.num n)] => some (.literal (.num (n + 1)))
  | "NEGATE", [.literal (.num n)] => some (.literal (.num (-n)))
  | "-", [.literal (.num m), .literal (.num n)] => some (.literal (.num (m - n)))
  | "LATER", [.literal (.num m), .literal (.num n)] => some (.literal (.num (m - n)))
  | "VECTOR", vs => some (.vector vs)
  | "NTH", [.vector vs, .literal (.num n)] => vs[n.toNat]?
  | "GET", [.literal _, _] => some (.literal .nil)
  | _, _ => none

def applyGlobal (f : Symbol) (vs : List Datum) : Option Datum :=
  match f.name, vs with
  | "FUNCALL", .function g :: vs => applyNamed g vs
  | "FUNCALL", [.identity, v] => some v
  | _, _ => applyNamed f vs

def truthy : Datum → Bool
  | .literal .nil => false
  | .literal (.bool b) => b
  | _ => true

def isA : Kind → Datum → Bool
  | .function, .function _ => true
  | .function, .identity => true
  | .vector, .vector _ => true
  | _, _ => false

end Datum

def user (name : String) : Symbol := ⟨name, "USER"⟩

/-- Every function is there, and no variable but the local ones. -/
def image : Machine Datum Unit where
  literal := .literal
  symbol := .symbol
  truthy := Datum.truthy
  isA := Datum.isA
  value _ _ := none
  function s _ := some (.function s)
  fbound s _ := s.name ∈ ["INC", "NEGATE", "-", "LATER"]
  valid _ _ := true
  apply f vs σ := (Datum.applyGlobal f vs).map fun v => (v, σ)
  applyValue _ _ _ := none
  closure _ _ := .identity
  special _ := none
  truthy_bool _ := rfl
  library _ _ := rfl

/-- `negate` and `shift` are local variables; `later` is defined after the form is compiled. -/
def compiling : Emitter where
  setting := ⟨fun _ => false, fun _ => false, fun _ => false, false, false, "USER", fun _ => 0⟩
  world := ⟨[(user "INC", .function), (user "NEGATE", .function), (user "-", .function)], [], []⟩
  tables := ⟨[user "NEGATE", user "SHIFT"], []⟩
  sealed := false
  slot _ _ := none
  converted _ _ := none
  dynamicExtent _ _ := none
  node _ := .list [.sym (cl "LAMBDA"), .list [.sym (user "X")], .sym (user "X")]

def locals : Env Datum where
  vars s := if s.name = "NEGATE" then some (.function (user "INC"))
    else if s.name = "SHIFT" then some (.function (user "-")) else none
  functions _ := none

def num (n : Int) : Ast := .literal (.num n)

/-- `(-> 5 inc (- 1))`. -/
theorem arithmetic_threads : Same image locals
    (emitThread compiling .first (num 5) [.symbolRef (user "INC"),
      .call (.symbolRef (user "-")) [num 1]])
    (emitNode compiling
      (nested .first (num 5) [.symbolRef (user "INC"),
        .call (.symbolRef (user "-")) [num 1]])) := by
  have hbranches : ∀ op args, BranchesAgree compiling image locals op args := fun op args =>
    ⟨fun _ _ _ _ _ hslot => (nomatch hslot), fun _ _ _ hfast => (nomatch hfast),
      fun _ _ _ _ hfast => (nomatch hfast)⟩
  have hname : ∀ name, user name ∉ operators := fun name h => by simp [user, operators, cl] at h
  have hsame : ∀ f, SameFunction image locals (user f) (user f) :=
    fun f => ⟨⟨hname f, rfl⟩, ⟨hname f, rfl⟩, fun _ _ => rfl⟩
  refine thread_means_nested compiling image locals .first (num 5) _ ⟨⟨hbranches _ _, ?_⟩,
    ⟨hbranches _ _, ?_⟩, trivial⟩
  · have hop : globalOperator compiling.setting compiling.world (user "INC") [num 5] =
      .call (user "INC") := by
      decide +kernel
    rw [SymbolFine, if_neg (by decide), if_neg (by decide), hop]
    exact ⟨hsame "INC", fun _ => rfl⟩
  · refine ⟨rfl, rfl, fun _ _ _ => rfl,
      .inr ⟨by decide, by decide, user "-", user "-", ?_, ?_, hsame "-"⟩⟩
    · decide +kernel
    · decide +kernel

/-- `(-> 5 step)` does something else than the nested call. -/
def Parts (step : Ast) : Prop :=
  ¬ Same image locals (emitThread compiling .first (num 5) [step])
    (emitNode compiling (nested .first (num 5) [step]))

/-- A keyword, a collection literal and a closure as steps, calls of a local variable and of a
function that comes later, and a local variable with the name of a function. -/
theorem threads_part :
    Parts (.literal (.keyword "K")) ∧ Parts (.vector [num 1]) ∧ Parts (.fn none []) ∧
    Parts (.call (.symbolRef (user "SHIFT")) [num 1]) ∧
    Parts (.call (.symbolRef (user "LATER")) [num 1]) ∧ Parts (.symbolRef (user "NEGATE")) := by
  refine ⟨?_, ?_, ?_, ?_, ?_, ?_⟩ <;> intro hsame
  · exact nomatch hsame none ()
  · exact nomatch hsame none ()
  · exact nomatch hsame none ()
  · exact nomatch hsame none ()
  · have hthread : (eval image locals none (emitThread compiling .first (num 5)
        [.call (.symbolRef (user "LATER")) [num 1]]) ()).isSome = false := by decide +kernel
    have hnested : (eval image locals none (emitNode compiling
        (nested .first (num 5) [.call (.symbolRef (user "LATER")) [num 1]])) ()).isSome = true := by
      decide +kernel
    rw [hsame none (), hnested] at hthread
    exact nomatch hthread
  · have hneg : some (Datum.literal (.num (-5)), ()) = some (.literal (.num 6), ()) := hsame none ()
    simp at hneg

end Fol.Threading

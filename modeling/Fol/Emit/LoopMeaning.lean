/-
Fol.Emit.LoopMeaning — where the emitted code of a loop means a recursive function.

A steady run is followed step by step by both readings. The code returns what it returns
(`evalCode_emit`): a jump of the steady run is the `psetq` and the `go` of the code, and the
value of the body is the `return-from`. The recursive reading calls where the steady run
jumps (`evalRec_steady`), and in tail position that is the same. The lemmas are about a form
at one amount of fuel; induction on the fuel closes them over calls and iterations.
-/
import Fol.Emit.LoopCode

namespace Fol.Loops

open Fol.Escape

/-! ## §1 Results -/

section

variable {α β : Type}

theorem Result.strict_ne_astray {r : Result α} (h : r.strict ≠ .astray) : r.strict = r := by
  cases r with
  | again id σ => exact absurd rfl h
  | _ => rfl

theorem Result.ne_astray_of_bind {r : Result α} {k : α → State → Result β}
    (h : r.bind k ≠ .astray) :
    r ≠ .astray := by
  rintro rfl
  exact h rfl

/-- Code that agrees with a run agrees with it in what follows. -/
theorem bind_agree {r : Result α} {k : α → State → Result β} {c : CodeResult α}
    {kc : α → State → CodeResult β} (h : r ≠ .astray → c = .of r)
    (hk : ∀ a σ, k a σ ≠ .astray → kc a σ = .of (k a σ)) (hne : r.bind k ≠ .astray) :
    c.bind kc = .of (r.bind k) := by
  rw [h (Result.ne_astray_of_bind hne)]
  cases r with
  | ok a σ => exact hk a σ hne
  | _ => rfl

theorem bind_agree_strict {r : Result α} {k : α → State → Result β} {c : CodeResult α}
    {kc : α → State → CodeResult β} (h : r ≠ .astray → c = .of r)
    (hk : ∀ a σ, k a σ ≠ .astray → kc a σ = .of (k a σ)) (hne : r.strict.bind k ≠ .astray) :
    c.bind kc = .of (r.strict.bind k) := by
  have hstrict := Result.strict_ne_astray (Result.ne_astray_of_bind hne)
  rw [hstrict] at hne ⊢
  exact bind_agree h hk hne

theorem CodeResult.bind_bind {γ : Type} (c : CodeResult α) (f : α → State → CodeResult β)
    (g : β → State → CodeResult γ) : (c.bind f).bind g = c.bind fun a σ => (f a σ).bind g := by
  cases c with
  | of r => cases r <;> rfl
  | returned id v σ => rfl

end

/-! ## §2 Code -/

/-- The value of the body of a loop is returned from the block. -/
def returning (id : Nat) : Result Value → CodeResult Value
  | .ok v σ => .returned id v σ
  | r => .of r

theorem catchReturn_returning (id : Nat) (r : Result Value) :
    catchReturn id (returning id r) = .of r := by
  cases r with
  | ok v σ => exact if_pos rfl
  | _ => rfl

/-- The code of the rounds of a loop. -/
def roundCode (f : Frame) : Code := .returnFrom f.tag (emit (some (f.tag, f.names)) f.body)

structure CodeAgrees (lowC : LowerCode) (low : LowerExpr) : Prop where
  call : ∀ f vs σ, low.call f vs σ ≠ .astray → lowC.call f vs σ = .of (low.call f vs σ)
  rerun : ∀ f id σ, f.env.blocks.lookup f.tag = some id → f.env.tags.lookup f.tag = some f.id →
    low.resume f σ ≠ .astray → lowC.rerun (roundCode f) f.env f.id σ = returning id (low.resume f σ)

/-- A form inside a running loop: its context and its tag are the loop's. -/
def Inside (ctx : LoopContext) (frame : Option Frame) (ρ : Env) : Prop :=
  ∀ f, frame = some f → ctx = some (f.tag, f.names) ∧ ρ.tags.lookup f.tag = some f.id

theorem Inside.none (ctx : LoopContext) (ρ : Env) : Inside ctx none ρ := fun _ h => nomatch h

theorem Inside.lets {ctx : LoopContext} {frame : Option Frame} {ρ : Env} (h : Inside ctx frame ρ)
    {σ : State} (names : List Symbol) : Inside ctx frame (ρ.lets σ names) := h

section

variable {P : Prims} {lowC : LowerCode} {low : LowerExpr}

theorem evalCodes_singleton (ρ : Env) (c : Code) (σ : State) :
    evalCodes P lowC ρ [c] σ = (evalCode P lowC ρ c σ).bind fun v σ => .of (.ok [v] σ) := rfl

theorem emitList_length (ctx : LoopContext) (es : List Expr) :
    (emitList ctx es).length = es.length := by
  induction es with
  | nil => rfl
  | cons e es ih => simp [emitList, ih]

/-- The last value is the one a scope names that names the newest. -/
theorem own_eq_last {σ : State} {c : Cell} (h : c.version = σ.newest c.location) :
    σ.own c = σ.last c := by
  rw [State.own, State.last, List.getLast?_eq_getElem?, h]
  rfl

/-- What `evalCode_emit` says of a form. -/
def CodeAgreesOn (P : Prims) (lowC : LowerCode) (low : LowerExpr) (e : Expr) : Prop :=
  ∀ ctx frame ρ σ, Inside ctx frame ρ → evalSteady P low ctx frame ρ e σ ≠ .astray →
    evalCode P lowC ρ (emit ctx e) σ = .of (evalSteady P low ctx frame ρ e σ)

theorem evalCodes_emitList {es : List Expr} (hes : ∀ e ∈ es, CodeAgreesOn P lowC low e)
    {ctx : LoopContext} {frame : Option Frame} {ρ : Env} (hin : Inside ctx frame ρ) :
    ∀ σ, evalSteadys P low ctx frame ρ es σ ≠ .astray →
      evalCodes P lowC ρ (emitList ctx es) σ = .of (evalSteadys P low ctx frame ρ es σ) := by
  induction es with
  | nil =>
    intro σ _
    rfl
  | cons e es ih =>
    intro σ hne
    rw [List.forall_mem_cons] at hes
    refine bind_agree_strict (hes.1 ctx frame ρ σ hin) (fun v σ hne => ?_) hne
    exact bind_agree (ih hes.2 σ) (fun vs σ _ => rfl) hne

/-- One round of a loop: its code jumps where the run continues, and returns what it returns. -/
theorem round_agrees (hlow : CodeAgrees lowC low) {f : Frame} {id : Nat} {ρ : Env} {σ : State}
    (hblock : f.env.blocks.lookup f.tag = some id) (htag : f.env.tags.lookup f.tag = some f.id)
    (hρ : ρ.blocks = f.env.blocks) {r : Result Value}
    (hbody : r ≠ .astray → evalCode P lowC ρ (emit (some (f.tag, f.names)) f.body) σ = .of r)
    (hne : continueLoop low f r ≠ .astray) :
    catchGo f.id (lowC.rerun (roundCode f) f.env f.id) (evalCode P lowC ρ (roundCode f) σ) =
      returning id (continueLoop low f r) := by
  have hr : r ≠ .astray := by
    rintro rfl
    exact hne rfl
  rw [roundCode, evalCode, hbody hr, hρ, hblock]
  cases r with
  | again id' σ' =>
    simp only [CodeResult.bind, catchGo, continueLoop] at hne ⊢
    split at hne
    next heq =>
      rw [if_pos heq, if_pos heq, Result.strict_ne_astray hne]
      rw [Result.strict_ne_astray hne] at hne
      exact hlow.rerun f id σ' hblock htag hne
    next => exact absurd rfl hne
  | astray => exact absurd rfl hr
  | _ => rfl

/-- The emitted code does what a steady run does. -/
theorem evalCode_emit (hlow : CodeAgrees lowC low) (e : Expr) : CodeAgreesOn P lowC low e := by
  induction e with
  | const n =>
    intro ctx frame ρ σ _ _
    rfl
  | var s =>
    intro ctx frame ρ σ _ hne
    simp only [emit, evalCode, evalSteady, readSteady] at hne ⊢
    cases hs : ρ.vars.lookup s with
    | none => rfl
    | some c =>
      rw [hs] at hne
      simp only at hne ⊢
      split at hne
      next hnew => rw [if_pos hnew, Option.bind_some, own_eq_last hnew]
      next => exact absurd rfl hne
  | prim op args ih =>
    intro ctx frame ρ σ hin hne
    exact bind_agree (evalCodes_emitList ih hin σ) (fun vs σ _ => rfl) hne
  | ifNode test thn els ihtest ihthn ihels =>
    intro ctx frame ρ σ hin hne
    refine bind_agree_strict (ihtest ctx frame ρ σ hin) (fun v σ hne => ?_) hne
    split at hne
    next htrue => rw [if_pos htrue, if_pos htrue, ihthn ctx frame ρ σ hin hne]
    next hfalse => rw [if_neg hfalse, if_neg hfalse, ihels ctx frame ρ σ hin hne]
  | doNode first rest ihfirst ihrest =>
    intro ctx frame ρ σ hin hne
    exact bind_agree_strict (ihfirst ctx frame ρ σ hin)
      (fun _ σ hne => ihrest ctx frame ρ σ hin hne) hne
  | bind s init body ihinit ihbody =>
    intro ctx frame ρ σ hin hne
    rw [emit, evalCode, evalCodes_singleton, CodeResult.bind_bind]
    refine bind_agree_strict (ihinit ctx frame ρ σ hin) (fun v σ hne => ?_) hne
    exact ihbody ctx frame (ρ.lets σ [s]) (σ.alloc [v]) (hin.lets [s]) hne
  | fn params body =>
    intro ctx frame ρ σ _ _
    rfl
  | call op args ihop ihargs =>
    intro ctx frame ρ σ hin hne
    refine bind_agree_strict (ihop ctx frame ρ σ hin) (fun g σ hne => ?_) hne
    refine bind_agree (evalCodes_emitList ihargs hin σ) (fun vs σ hne => ?_) hne
    have hstrict := Result.strict_ne_astray hne
    rw [hstrict] at hne ⊢
    exact hlow.call g vs σ hne
  | loop tag names inits body ihinits ihbody =>
    intro ctx frame ρ σ hin hne
    rw [emit, emitLoop1, evalCode, evalCode]
    rw [evalSteady] at hne ⊢
    rw [evalCodes_emitList ihinits (Inside.none _ _) σ.enter (Result.ne_astray_of_bind hne)]
    cases hinits : evalSteadys P low (some (tag, names)) none (ρ.enterBlock tag σ.activations)
      inits σ.enter with
    | ok vs σ' =>
      rw [hinits] at hne
      have hblock :
        (beginLoop tag names body (ρ.enterBlock tag σ.activations) vs σ').1.env.blocks.lookup
          tag = some σ.activations := List.lookup_cons_self
      have htag : (beginLoop tag names body (ρ.enterBlock tag σ.activations) vs
        σ').1.env.tags.lookup
          tag = some (σ'.alloc vs).activations := List.lookup_cons_self
      have hround := round_agrees hlow hblock htag rfl
        (ihbody _ (some _) _ _ (fun f hf => Option.some.inj hf ▸ ⟨rfl, htag⟩)) hne
      exact (congrArg (catchReturn σ.activations) hround).trans (catchReturn_returning _ _)
    | _ => rfl
  | recur args ih =>
    intro ctx frame ρ σ hin hne
    cases frame with
    | none => exact absurd rfl hne
    | some f =>
      obtain ⟨rfl, htag⟩ := hin f rfl
      simp only [emit, emitRecur, emitList_length, evalSteady] at hne ⊢
      split at hne
      next hlength =>
        rw [if_pos hlength, if_pos hlength, evalCode, evalCode, CodeResult.bind_bind]
        refine bind_agree (evalCodes_emitList ih hin σ) (fun vs σ hne => ?_) hne
        split at hne
        next hlocations =>
          rw [if_pos hlocations, hlocations]
          simp only [CodeResult.bind, evalCode, htag]
        next => exact absurd rfl hne
      next hlength => rw [if_neg hlength, if_neg hlength, evalCode]

end

/-- With the same fuel the code does what a steady run does. -/
theorem codeLevel_agrees (P : Prims) (n : Nat) : CodeAgrees (codeLevel P n) (steadyLevel P n) := by
  induction n with
  | zero => exact ⟨fun _ _ _ _ => rfl, fun _ _ _ _ _ _ => rfl⟩
  | succ n ih =>
    constructor
    · intro g vs σ hne
      simp only [codeLevel, steadyLevel] at hne ⊢
      cases hg : enterCall g vs σ with
      | none => rfl
      | some entered =>
        obtain ⟨ctx, ρ, body, σ'⟩ := entered
        rw [hg] at hne
        exact evalCode_emit ih body ctx none ρ σ' (Inside.none ctx ρ) hne
    · intro f id σ hblock htag hne
      refine round_agrees ih (ρ := f.env.next σ) hblock htag rfl (fun hbody => ?_) hne
      exact evalCode_emit ih f.body _ (some f) _ σ (fun g hg =>
        Option.some.inj hg ▸ ⟨rfl, htag⟩) hbody

/-! ## §3 Recursion -/

/-- Where a steady run jumps, the recursive reading calls. -/
def close (lowR : LowerExpr) (frame : Option Frame) (r : Result Value) : Result Value :=
  match frame, r with
  | some f, .again _ σ => lowR.resume f σ
  | _, r => r

structure RecAgrees (lowR low : LowerExpr) : Prop where
  call : ∀ f vs σ, low.call f vs σ ≠ .astray → lowR.call f vs σ = low.call f vs σ
  resume : ∀ f σ, low.resume f σ ≠ .astray → lowR.resume f σ = low.resume f σ

theorem close_none (lowR : LowerExpr) (r : Result Value) : close lowR none r = r := rfl

theorem close_of_strict {lowR : LowerExpr} {frame : Option Frame} {r : Result Value}
    (h : r.strict = r) : close lowR frame r = r := by
  cases frame with
  | none => rfl
  | some f =>
    cases r with
    | again id σ => exact nomatch h
    | _ => rfl

/-- The rest of a form, in tail position, after a part that is not. -/
theorem bind_close {α : Type} {lowR : LowerExpr} {frame : Option Frame} {r rec : Result α}
    {k kr : α → State → Result Value} (h : r.strict ≠ .astray → rec = r)
    (hk : ∀ a σ, k a σ ≠ .astray → kr a σ = close lowR frame (k a σ))
    (hne : r.strict.bind k ≠ .astray) :
    rec.bind kr = close lowR frame (r.strict.bind k) := by
  rw [h (Result.ne_astray_of_bind hne)]
  cases r with
  | ok a σ => exact hk a σ hne
  | again id σ => exact absurd rfl hne
  | _ => exact (close_of_strict rfl).symm

section

variable {P : Prims} {lowR low : LowerExpr}

theorem continueLoop_strict (f : Frame) (r : Result Value) :
    (continueLoop low f r).strict = continueLoop low f r := by
  cases r with
  | again id σ =>
    rw [continueLoop]
    split
    · cases low.resume f σ <;> rfl
    · rfl
  | _ => rfl

theorem close_continueLoop (hlow : RecAgrees lowR low) {f : Frame} {r : Result Value}
    (hne : continueLoop low f r ≠ .astray) : close lowR (some f) r = continueLoop low f r := by
  cases r with
  | again id σ =>
    rw [continueLoop] at hne ⊢
    split at hne
    next hid =>
      have hstrict := Result.strict_ne_astray hne
      rw [hstrict] at hne
      rw [if_pos hid, hstrict, close, hlow.resume f σ hne]
    next => exact absurd rfl hne
  | _ => rfl

/-- What `evalRec_steady` says of a form. The initialisers of a loop are under the loop
around it in the one reading only. -/
def RecAgreesOn (P : Prims) (lowR low : LowerExpr) (e : Expr) : Prop :=
  ∀ ctx steady frame ρ σ, (∀ f, steady = some f → frame = some f) →
    evalSteady P low ctx steady ρ e σ ≠ .astray →
    evalRec P lowR ctx frame ρ e σ = close lowR steady (evalSteady P low ctx steady ρ e σ)

theorem RecAgreesOn.strict {e : Expr} (h : RecAgreesOn P lowR low e) {ctx : LoopContext}
    {steady frame : Option Frame} {ρ : Env} {σ : State}
    (hframe : ∀ f, steady = some f → frame = some f)
    (hne : (evalSteady P low ctx steady ρ e σ).strict ≠ .astray) :
    evalRec P lowR ctx frame ρ e σ = evalSteady P low ctx steady ρ e σ := by
  have hstrict := Result.strict_ne_astray hne
  rw [h ctx steady frame ρ σ hframe (hstrict ▸ hne), close_of_strict hstrict]

theorem evalSteadys_strict (ctx : LoopContext) (frame : Option Frame) (ρ : Env) (es : List Expr) :
    ∀ σ, (evalSteadys P low ctx frame ρ es σ).strict = evalSteadys P low ctx frame ρ es σ := by
  induction es with
  | nil =>
    intro σ
    rfl
  | cons e es ih =>
    intro σ
    rw [evalSteadys]
    cases evalSteady P low ctx frame ρ e σ with
    | ok v σ' =>
      simp only [Result.strict, Result.bind]
      rw [← ih σ']
      cases evalSteadys P low ctx frame ρ es σ' <;> rfl
    | _ => rfl

theorem evalRecs_steady {es : List Expr} (hes : ∀ e ∈ es, RecAgreesOn P lowR low e)
    {ctx : LoopContext} {steady frame : Option Frame} {ρ : Env}
    (hframe : ∀ f, steady = some f → frame = some f) :
    ∀ σ, evalSteadys P low ctx steady ρ es σ ≠ .astray →
      evalRecs P lowR ctx frame ρ es σ = evalSteadys P low ctx steady ρ es σ := by
  induction es with
  | nil =>
    intro σ _
    rfl
  | cons e es ih =>
    intro σ hne
    rw [List.forall_mem_cons] at hes
    rw [evalSteadys] at hne ⊢
    have hhead := Result.ne_astray_of_bind hne
    rw [evalRecs, hes.1.strict hframe hhead, Result.strict_ne_astray hhead]
    rw [Result.strict_ne_astray hhead] at hne
    cases he : evalSteady P low ctx steady ρ e σ with
    | ok v σ' =>
      rw [he] at hne
      simp only [Result.bind] at hne ⊢
      rw [ih hes.2 σ' (Result.ne_astray_of_bind hne)]
    | _ => rfl

/-- The operands of a form, then the rest of it. -/
theorem evalRecs_bind_close {es : List Expr} (hes : ∀ e ∈ es, RecAgreesOn P lowR low e)
    {ctx : LoopContext} {steady frame outer : Option Frame} {ρ : Env} {σ : State}
    (hframe : ∀ f, steady = some f → frame = some f) {k kr : List Value → State → Result Value}
    (hk : ∀ vs σ, k vs σ ≠ .astray → kr vs σ = close lowR outer (k vs σ))
    (hne : (evalSteadys P low ctx steady ρ es σ).bind k ≠ .astray) :
    (evalRecs P lowR ctx frame ρ es σ).bind kr =
      close lowR outer ((evalSteadys P low ctx steady ρ es σ).bind k) := by
  rw [← evalSteadys_strict ctx steady ρ es σ] at hne ⊢
  refine bind_close (fun hne => ?_) hk hne
  rw [evalSteadys_strict] at hne
  exact evalRecs_steady hes hframe σ hne

/-- The recursive reading does what a steady run does, and calls where that jumps. -/
theorem evalRec_steady (hlow : RecAgrees lowR low) (e : Expr) : RecAgreesOn P lowR low e := by
  induction e with
  | const n =>
    intro ctx steady frame ρ σ _ _
    exact (close_of_strict rfl).symm
  | var s =>
    intro ctx steady frame ρ σ _ hne
    simp only [evalRec, evalSteady, readSteady] at hne ⊢
    cases hs : ρ.vars.lookup s with
    | none => exact (close_of_strict rfl).symm
    | some c =>
      rw [hs] at hne
      simp only at hne ⊢
      split at hne
      next hnew =>
        rw [if_pos hnew, Option.bind_some]
        cases σ.own c <;> exact (close_of_strict rfl).symm
      next => exact absurd rfl hne
  | prim op args ih =>
    intro ctx steady frame ρ σ hframe hne
    refine evalRecs_bind_close ih hframe (fun vs σ _ => ?_) hne
    cases P.apply op vs <;> exact (close_of_strict rfl).symm
  | ifNode test thn els ihtest ihthn ihels =>
    intro ctx steady frame ρ σ hframe hne
    refine bind_close (ihtest.strict hframe) (fun v σ hne => ?_) hne
    split at hne
    next htrue => rw [if_pos htrue, if_pos htrue, ihthn ctx steady frame ρ σ hframe hne]
    next hfalse => rw [if_neg hfalse, if_neg hfalse, ihels ctx steady frame ρ σ hframe hne]
  | doNode first rest ihfirst ihrest =>
    intro ctx steady frame ρ σ hframe hne
    exact bind_close (ihfirst.strict hframe)
      (fun _ σ hne => ihrest ctx steady frame ρ σ hframe hne) hne
  | bind s init body ihinit ihbody =>
    intro ctx steady frame ρ σ hframe hne
    exact bind_close (ihinit.strict hframe)
      (fun v σ' hne => ihbody ctx steady frame _ (σ'.alloc [v]) hframe hne) hne
  | fn params body =>
    intro ctx steady frame ρ σ _ _
    exact (close_of_strict rfl).symm
  | call op args ihop ihargs =>
    intro ctx steady frame ρ σ hframe hne
    refine bind_close (ihop.strict hframe) (fun g σ hne => ?_) hne
    refine evalRecs_bind_close ihargs hframe (fun vs σ hne => ?_) hne
    have hstrict := Result.strict_ne_astray hne
    rw [hstrict] at hne ⊢
    rw [hlow.call g vs σ hne, close_of_strict hstrict]
  | loop tag names inits body ihinits ihbody =>
    intro ctx steady frame ρ σ _ hne
    have hnone : ∀ f, (none : Option Frame) = some f → frame = some f := fun f hf => nomatch hf
    refine evalRecs_bind_close ihinits hnone (fun vs σ' hne => ?_) hne
    rw [close_of_strict (continueLoop_strict _ _)]
    have hbody : evalSteady P low (some (tag, names))
        (some (beginLoop tag names body (ρ.enterBlock tag σ.activations) vs σ').1) _ body _ ≠
        .astray :=
      fun h => hne (congrArg (continueLoop low _) h)
    exact (ihbody _ _ _ _ _ (fun f hf => hf) hbody).trans (close_continueLoop hlow hne)
  | recur args ih =>
    intro ctx steady frame ρ σ hframe hne
    cases steady with
    | none => exact absurd rfl hne
    | some f =>
      obtain rfl := hframe f rfl
      simp only [evalRec, evalSteady] at hne ⊢
      split at hne
      next hlength =>
        rw [if_pos hlength, if_pos hlength]
        refine evalRecs_bind_close ih hframe (fun vs σ hne => ?_) hne
        split at hne
        next hlocations => rw [if_pos hlocations, close]
        next => exact absurd rfl hne
      next hlength =>
        rw [if_neg hlength, if_neg hlength]
        rfl

end

/-- With the same fuel the recursive reading does what a steady run does. -/
theorem recLevel_agrees (P : Prims) (n : Nat) : RecAgrees (recLevel P n) (steadyLevel P n) := by
  induction n with
  | zero => exact ⟨fun _ _ _ _ => rfl, fun _ _ _ => rfl⟩
  | succ n ih =>
    constructor
    · intro g vs σ hne
      simp only [recLevel, steadyLevel] at hne ⊢
      cases hg : enterCall g vs σ with
      | none => rfl
      | some entered =>
        obtain ⟨ctx, ρ, body, σ'⟩ := entered
        rw [hg] at hne
        exact evalRec_steady ih body ctx none none ρ σ' (fun f hf => hf) hne
    · intro f σ hne
      have hbody : evalSteady P (steadyLevel P n) (some (f.tag, f.names)) (some f) (f.env.next σ)
          f.body σ ≠ .astray := fun h => hne (congrArg (continueLoop (steadyLevel P n) f) h)
      exact (evalRec_steady ih f.body _ _ _ _ _ (fun g hg => hg) hbody).trans
        (close_continueLoop ih hne)

/-! ## §4 Loops -/

/-- What the code of a recur form does with the values of its arguments. -/
def assignAndGo (ρ : Env) (tag : Nat) (names : List Symbol) (vs : List Value) (σ : State) :
    CodeResult Value :=
  match ρ.locations names, ρ.tags.lookup tag with
  | some ls, some id => .of (.again id (σ.assign ls vs))
  | _, _ => .of .stuck

/-- Nothing is assigned before the last argument has its value. -/
theorem evalCode_recur (P : Prims) (low : LowerCode) (ρ : Env) (tag : Nat) (names : List Symbol)
    (args : List Expr) (σ : State) :
    evalCode P low ρ (emit (some (tag, names)) (.recur args)) σ =
      if args.length = names.length then
        (evalCodes P low ρ (emitList (some (tag, names)) args) σ).bind (assignAndGo ρ tag names)
      else .of .stuck := by
  simp only [emit, emitRecur, emitList_length]
  split
  · rw [evalCode, evalCode, CodeResult.bind_bind]
    refine congrArg (CodeResult.bind _) (funext fun vs => funext fun σ' => ?_)
    simp only [assignAndGo, evalCode]
    cases ρ.locations names with
    | none => rfl
    | some ls =>
      simp only [CodeResult.bind]
      cases ρ.tags.lookup tag <;> rfl
  · rw [evalCode]

/-- The code of a form means its recursive reading. -/
def MeansRecursion (P : Prims) (e : Expr) (n : Nat) (ctx : LoopContext) (ρ : Env) (σ : State) :
    Prop :=
  evalCode P (codeLevel P n) ρ (emit ctx e) σ = .of (evalRec P (recLevel P n) ctx none ρ e σ)

/-- A recur form assigns after its last argument. -/
def AssignsLast (P : Prims) (n : Nat) (ctx : LoopContext) (ρ : Env) (σ : State) : Prop :=
  ∀ tag names args, ctx = some (tag, names) → args.length = names.length →
    evalCode P (codeLevel P n) ρ (emit ctx (.recur args)) σ =
      (evalCodes P (codeLevel P n) ρ (emitList ctx args) σ).bind (assignAndGo ρ tag names)

/-- Integers, and `nil` false. -/
def integers : Prims where
  apply op vs :=
    match op.name, vs with
    | "DEC", [.int i] => some (.int (i - 1))
    | "+", [.int i, .int j] => some (.int (i + j))
    | "ZERO?", [.int i] => some (if i = 0 then .int 1 else .nil)
    | _, _ => none
  truthy
    | .nil => false
    | _ => true

def fol (name : String) : Symbol := ⟨name, "FOL"⟩

def noVars : Env := ⟨[], [], []⟩

def noCells : State := ⟨[], 0, []⟩

/-- `(loop [i first s second] (if (zero? i) done (recur (dec i) step)))`. -/
def countdown (first second : Int) (done step : Expr) : Expr :=
  .loop 1 [fol "I", fol "S"] [.const first, .const second]
    (.ifNode (.prim (fol "ZERO?") [.var (fol "I")]) done
      (.recur [.prim (fol "DEC") [.var (fol "I")], step]))

/-- `(loop [i 2 s 0] (if (zero? i) s (recur (dec i) (+ s i))))`. -/
def summing : Expr :=
  countdown 2 0 (.var (fol "S")) (.prim (fol "+") [.var (fol "S"), .var (fol "I")])

/-- `(loop [i 1 s 0] (if (zero? i) (s) (recur (dec i) (fn [] i))))`. -/
def captured : Expr := countdown 1 0 (.call (.var (fol "S")) []) (.fn [] (.var (fol "I")))

/-- `(loop [i 1 s 0] (if (zero? s) (+ 1 (recur i i)) i))`. -/
def notInTail : Expr :=
  .loop 1 [fol "I", fol "S"] [.const 1, .const 0]
    (.ifNode (.prim (fol "ZERO?") [.var (fol "S")])
      (.prim (fol "+") [.const 1, .recur [.var (fol "I"), .var (fol "I")]]) (.var (fol "I")))

/-- `(loop [i 1 s 0] (if (zero? s) (bind [i 5] (recur i 1)) i))`. -/
def rebound : Expr :=
  .loop 1 [fol "I", fol "S"] [.const 1, .const 0]
    (.ifNode (.prim (fol "ZERO?") [.var (fol "S")])
      (.bind (fol "I") (.const 5) (.recur [.var (fol "I"), .const 1])) (.var (fol "I")))

/-- `(loop [i 1 s 0] (if (zero? s) ((fn [] (recur i 1))) i))`. -/
def fromClosure : Expr :=
  .loop 1 [fol "I", fol "S"] [.const 1, .const 0]
    (.ifNode (.prim (fol "ZERO?") [.var (fol "S")])
      (.call (.fn [] (.recur [.var (fol "I"), .const 1])) []) (.var (fol "I")))

end Fol.Loops

/-
Fol.Escape.Fuel — the classifier with enough fuel.

More fuel changes no result of `chainKind` and `walk`. `chainOf` and `eventsOf` are
their results with as much fuel as it takes.
-/
import Fol.Lib.Fuel
import Fol.Escape.Classify

namespace Fol.Escape

open Fol.Lib.Fuel

/-! ## §1 Steps -/

section Steps

theorem gather_extends {α : Type} {f g : α → Option (List Event)} (h : ∀ x, Extends (f x) (g x))
    (xs : List α) : Extends (gather f xs) (gather g xs) := by
  induction xs with
  | nil => exact .refl _
  | cons x xs ih => exact .bind (h x) fun _ => .bind ih fun _ => .refl _

theorem walkLastTail_extends {f g : Ctx → Ast → Option (List Event)}
    (h : ∀ c n, Extends (f c n) (g c n)) (c : Ctx) (ns : List Ast) :
    Extends (walkLastTail f c ns) (walkLastTail g c ns) := by
  induction ns with
  | nil => exact .refl _
  | cons n ns ih =>
    cases ns with
    | nil => exact h c n
    | cons m ms => exact .bind (h _ n) fun _ => .bind ih fun _ => .refl _

variable {Γ : Env} {chain chain' : Ast → Symbol → Option ChainResult}
  {walk walk' : Symbol → Nat → Ctx → Ast → Option (List Event)}
  (hc : ∀ n s, Extends (chain n s) (chain' n s))
  (hw : ∀ s p c n, Extends (walk s p c n) (walk' s p c n))

include hw

theorem reduceAccQualifiedP_extends (name : Symbol) (body : List Ast) :
    Extends (reduceAccQualifiedP walk name body) (reduceAccQualifiedP walk' name body) :=
  .bind (walkLastTail_extends (hw name 0) _ body) fun _ => .refl _

theorem linearReduceLambda_extends (f : Ast) (name : Symbol) :
    Extends (linearReduceLambda walk f name) (linearReduceLambda walk' f name) := by
  unfold linearReduceLambda
  split
  · exact reduceAccQualifiedP_extends hw _ _
  · exact .refl _

include hc

theorem reduceChainKind_extends (args : List Ast) (name : Symbol) :
    Extends (reduceChainKind chain walk args name) (reduceChainKind chain' walk' args name) := by
  unfold reduceChainKind
  split
  · refine .bind (hc _ _) fun r => ?_
    split
    · exact .refl _
    · exact .bind (linearReduceLambda_extends hw _ _) fun _ => .refl _
  · exact .refl _

theorem chainKindCall_extends (node : Ast) (args : List Ast) (name : Symbol) :
    Extends (chainKindCall Γ chain walk node args name)
      (chainKindCall Γ chain' walk' node args name) := by
  unfold chainKindCall
  split
  · exact .bind (reduceChainKind_extends hc hw _ _) fun _ => .refl _
  · split
    · exact .bind (hc _ _) fun _ => .refl _
    · exact .refl _

theorem chainKindStep_extends (node : Ast) (name : Symbol) :
    Extends (chainKindStep Γ chain walk node name) (chainKindStep Γ chain' walk' node name) := by
  unfold chainKindStep
  split
  · exact .refl _
  · split
    · refine .bind (hc _ _) fun r => ?_
      split <;> exact .refl _
    · exact chainKindCall_extends hc hw _ _ _
  · refine .bind (hc _ _) fun r => ?_
    split <;> exact .refl _
  · split
    · exact .refl _
    · refine .bind (hc _ _) fun r => ?_
      split
      · exact .refl _
      · refine .bind (hc _ _) fun r' => ?_
        split <;> exact .refl _
  · exact .refl _

omit hw in
theorem foldLetAlias_extends (cur : Symbol) (bs : List (Symbol × Ast)) :
    Extends (foldLetAlias chain cur bs) (foldLetAlias chain' cur bs) := by
  induction bs generalizing cur with
  | nil => exact .refl _
  | cons b bs ih =>
    refine .bind (hc _ _) fun r => ?_
    exact .ite (.bind (ih _) fun _ => .refl _) (.refl _)

omit hw in
theorem tryLetChain_extends (name : Symbol) (bindings : List (Pattern × Ast)) (body : List Ast) :
    Extends (tryLetChain chain name bindings body) (tryLetChain chain' name bindings body) := by
  unfold tryLetChain
  split
  · exact .refl _
  · exact .bind (.bind (foldLetAlias_extends hc _ _) fun _ => .refl _) fun _ => .refl _

omit hw in
theorem validateReadTolerantChain_extends (cur : Symbol) (bs : List (Symbol × Ast)) :
    Extends (validateReadTolerantChain Γ chain cur bs)
      (validateReadTolerantChain Γ chain' cur bs) := by
  induction bs generalizing cur with
  | nil => exact .refl _
  | cons b bs ih =>
    refine .bind (hc _ _) fun r => ?_
    exact .ite (.bind (ih _) fun _ => .refl _) (.ite (.bind (ih _) fun _ => .refl _)
      (.ite (.bind (ih _) fun _ => .refl _) (.refl _)))

omit hw in
theorem tryReadTolerantChain_extends (name : Symbol) (bindings : List (Pattern × Ast))
    (body : List Ast) :
    Extends (tryReadTolerantChain Γ chain name bindings body)
      (tryReadTolerantChain Γ chain' name bindings body) := by
  unfold tryReadTolerantChain
  split
  · exact .refl _
  · exact .ite (.bind (validateReadTolerantChain_extends hc _ _) fun _ => .refl _) (.refl _)

omit hc in
theorem walkElement_extends (name : Symbol) (pos : Nat) (c : Ctx) (el : Ast) :
    Extends (walkElement (walk name pos) name c el) (walkElement (walk' name pos) name c el) :=
  .ite (.refl _) (hw _ _ _ _)

omit hc in
theorem walkCallArgs_extends (node : Ast) (name : Symbol) (pos : Nat) (c : Ctx) (i : Nat)
    (args : List Ast) :
    Extends (walkCallArgs Γ walk node name pos c i args)
      (walkCallArgs Γ walk' node name pos c i args) := by
  induction args generalizing i with
  | nil => exact .refl _
  | cons a args ih =>
    exact .bind (.ite (.refl _) (hw _ _ _ _)) fun _ => .bind (ih _) fun _ => .refl _

theorem walkRecurSlot_extends (name : Symbol) (pos : Nat) (c : Ctx) (arg : Ast) :
    Extends (walkRecurSlot chain walk name pos c arg)
      (walkRecurSlot chain' walk' name pos c arg) := by
  refine .bind (hc _ _) fun r => ?_
  split
  · exact .refl _
  · exact .bind (gather_extends (hw _ _ _) _) fun _ => .refl _
  · exact .bind (hw _ _ _ _) fun _ => .refl _

theorem walkRecurArgs_extends (name : Symbol) (pos : Nat) (c : Ctx) (i : Nat) (args : List Ast) :
    Extends (walkRecurArgs chain walk name pos c i args)
      (walkRecurArgs chain' walk' name pos c i args) := by
  induction args generalizing i with
  | nil => exact .refl _
  | cons a args ih =>
    exact .bind (.ite (walkRecurSlot_extends hc hw _ _ _ _) (hw _ _ _ _)) fun _ =>
      .bind (ih _) fun _ => .refl _

omit hc in
theorem walkBind_extends (name : Symbol) (pos : Nat) (c : Ctx) (bindings : List (Pattern × Ast))
    (body : List Ast) :
    Extends (walkBind walk name pos c bindings body) (walkBind walk' name pos c bindings body) :=
  .bind (gather_extends (fun _ => hw _ _ _ _) _) fun _ =>
    .ite (.refl _) (.bind (walkLastTail_extends (hw _ _) _ _) fun _ => .refl _)

theorem walkStep_extends (name : Symbol) (pos : Nat) (c : Ctx) (node : Ast) :
    Extends (walkStep Γ chain walk name pos c node) (walkStep Γ chain' walk' name pos c node) := by
  have hlast := fun c ns => walkLastTail_extends (hw name pos) c ns
  have hall := fun c ns => gather_extends (hw name pos c) ns
  cases node with
  | literal | quote | symbolRef => exact .refl _
  | recur args =>
    refine .ite (.bind (walkRecurArgs_extends hc hw _ _ _ _ _) fun _ => .refl _) (hall _ _)
  | ifNode test thn els =>
    exact .bind (hw _ _ _ _) fun _ => .bind (hw _ _ _ _) fun _ => .bind (hlast _ _) fun _ => .refl _
  | doNode body => exact hlast _ _
  | bind bindings body =>
    refine .bind (tryLetChain_extends hc _ _ _) fun ⟨synth, _⟩ => ?_
    cases synth with
    | some _ => exact .bind (hw _ _ _ _) fun _ => .refl _
    | none =>
      refine .bind (tryReadTolerantChain_extends hc _ _ _) fun ⟨tolerant, _⟩ => ?_
      cases tolerant with
      | some _ => exact .bind (hall _ _) fun _ => .refl _
      | none => exact .bind (walkBind_extends hw _ _ _ _ _) fun _ => .refl _
  | case expr clauses =>
    exact .bind (hw _ _ _ _) fun _ => .bind (gather_extends (fun _ => hlast _ _) _) fun _ => .refl _
  | cond clauses =>
    exact gather_extends
      (fun _ => .bind (hw _ _ _ _) fun _ => .bind (hlast _ _) fun _ => .refl _) _
  | loop bindings body => exact .ite (.refl _) (.bind (hlast _ _) fun _ => .refl _)
  | fn _ clauses => exact gather_extends (fun _ => .ite (.refl _) (hlast _ _)) _
  | letfn bindings body =>
    exact .bind (gather_extends (fun _ => gather_extends (fun _ => hall _ _) _) _) fun _ =>
      .bind (hlast _ _) fun _ => .refl _
  | threadFirst forms =>
    refine .bind (hc _ _) fun r => ?_
    split
    · exact .bind (hall _ _) fun _ => .refl _
    · exact .refl _
    · exact .bind (hall _ _) fun _ => .refl _
  | vector elements => exact gather_extends (walkElement_extends hw _ _ _) _
  | set elements => exact gather_extends (walkElement_extends hw _ _ _) _
  | dict entries =>
    exact gather_extends (fun _ => .bind (walkElement_extends hw _ _ _ _) fun _ =>
      .bind (walkElement_extends hw _ _ _ _) fun _ => .refl _) _
  | call op args =>
    refine .bind (hc _ _) fun r => ?_
    split
    · exact .bind (hall _ _) fun _ => .refl _
    · exact .bind (hw _ _ _ _) fun _ => .bind (walkCallArgs_extends hw _ _ _ _ _ _) fun _ =>
        .refl _
  | other kids => exact gather_extends (fun _ => hw _ _ _ _) _

end Steps

/-! ## §2 Limits -/

variable (Γ : Env)

theorem fuel_extends (fuel : Nat) :
    (∀ n s, Extends (chainKind Γ fuel n s) (chainKind Γ (fuel + 1) n s)) ∧
      ∀ s p c n, Extends (walk Γ fuel s p c n) (walk Γ (fuel + 1) s p c n) := by
  induction fuel with
  | zero => exact ⟨fun _ _ => .none _, fun _ _ _ _ => .none _⟩
  | succ fuel ih =>
    exact ⟨fun n s => chainKindStep_extends ih.1 ih.2 n s,
      fun s p c n => walkStep_extends ih.1 ih.2 s p c n⟩

/-- `chain-kind`. -/
noncomputable def chainResult (node : Ast) (name : Symbol) : Option ChainResult :=
  limit fun fuel => chainKind Γ fuel node name

/-- The values `chain-kind` returns. -/
noncomputable def chainOf (node : Ast) (name : Symbol) : Option (ChainKind × List Ast) :=
  (chainResult Γ node name).bind (·.chain)

/-- The events of a walk. -/
noncomputable def eventsOf (name : Symbol) (pos : Nat) (c : Ctx) (node : Ast) :
    Option (List Event) :=
  limit fun fuel => walk Γ fuel name pos c node

theorem chainKind_extends (fuel : Nat) (node : Ast) (name : Symbol) :
    Extends (chainKind Γ fuel node name) (chainResult Γ node name) :=
  extends_limit (fun fuel => (fuel_extends Γ fuel).1 node name) fuel

theorem chainOf_of_chainKind {fuel : Nat} {node : Ast} {name : Symbol} {r : ChainResult}
    (h : chainKind Γ fuel node name = some r) : chainOf Γ node name = r.chain := by
  rw [chainOf, chainKind_extends Γ fuel node name r h]
  rfl

end Fol.Escape

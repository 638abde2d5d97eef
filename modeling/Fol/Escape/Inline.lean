/-
Fol.Escape.Inline — helper inlining (`%tr-inline-subst`, `%tr-inline-attempt`)
compared with calling the helper.

`%tr-inline-subst` enters calls, `->` forms and `if`s, and there neither the operators
nor anything else. `betaSubst` is the substitution that enters every node. The two
agree exactly when no formal is left behind where the first does not go (`unreached`),
except under an actual of the same name.

  §1 Beta          — `betaSubst`, substitution at every free occurrence.
  §2 Reach         — `unreached`; when `inlineSubst` is `betaSubst`.
  §3 Values        — `Semantics`, `eval`; the substitution lemma.
  §4 Helper calls  — `BetaReduces`, `Inlinable`, their equivalence.
-/
import Fol.Escape.Classify

namespace Fol.Escape

/-! ## §1 Beta -/

/-- A substitution of actuals for formals. -/
abbrev Subst := Symbol → Option Ast

/-- The substitution below binders. -/
def Subst.without (σ : Subst) (bound : List Symbol) : Subst :=
  fun s => if s ∈ bound then none else σ s

/-- The alist of `%tr-inline-subst` as a function. -/
def actuals (subst : List (Symbol × Ast)) : Subst := fun s => (subst.find? (·.1 = s)).map (·.2)

/-- A step of a `->` form that is a bare symbol is the operator of a call: put in its
place, a tree that is no call operator by itself becomes one. -/
def asStep (n : Ast) : Ast := if n.isRefOrLiteral then n else .call n []

mutual

/-- Substitution at every free occurrence. -/
def betaSubst (σ : Subst) : Ast → Ast
  | .literal v => .literal v
  | .symbolRef s => (σ s).getD (.symbolRef s)
  | .call op args => .call (betaSubst σ op) (betaSubstList σ args)
  | .ifNode test thn els => .ifNode (betaSubst σ test) (betaSubst σ thn) (betaSubstList σ els)
  | .doNode body => .doNode (betaSubstList σ body)
  | .bind bindings body =>
    .bind (betaSubstBind σ bindings) (betaSubstList (σ.without (bindingsBind bindings)) body)
  | .letfn bindings body =>
    .letfn (betaSubstFns (σ.without (bindings.map (·.1))) bindings)
      (betaSubstList (σ.without (bindings.map (·.1))) body)
  | .fn name clauses => .fn name (betaSubstClauses (σ.without name.toList) clauses)
  | .loop bindings body =>
    .loop (betaSubstInits σ bindings) (betaSubstList (σ.without (bindingsBind bindings)) body)
  | .recur args => .recur (betaSubstList σ args)
  | .case expr clauses => .case (betaSubst σ expr) (betaSubstCases σ clauses)
  | .cond clauses => .cond (betaSubstConds σ clauses)
  | .threadFirst [] => .threadFirst []
  | .threadFirst (f :: steps) => .threadFirst (betaSubst σ f :: betaSubstSteps σ steps)
  | .vector elements => .vector (betaSubstList σ elements)
  | .set elements => .set (betaSubstList σ elements)
  | .dict entries => .dict (betaSubstEntries σ entries)
  | .quote s => .quote s
  | .other kids => .other (betaSubstKids σ kids)

def betaSubstList (σ : Subst) : List Ast → List Ast
  | [] => []
  | n :: ns => betaSubst σ n :: betaSubstList σ ns

/-- The steps of a `->` form. -/
def betaSubstSteps (σ : Subst) : List Ast → List Ast
  | [] => []
  | .symbolRef s :: ns => asStep (betaSubst σ (.symbolRef s)) :: betaSubstSteps σ ns
  | n :: ns => betaSubst σ n :: betaSubstSteps σ ns

def betaSubstInits (σ : Subst) : List (Pattern × Ast) → List (Pattern × Ast)
  | [] => []
  | (p, init) :: bs => (p, betaSubst σ init) :: betaSubstInits σ bs

def betaSubstBind (σ : Subst) : List (Pattern × Ast) → List (Pattern × Ast)
  | [] => []
  | (p, init) :: bs => (p, betaSubst σ init) :: betaSubstBind (σ.without p.binds) bs

def betaSubstClauses (σ : Subst) : List (Params × List Ast) → List (Params × List Ast)
  | [] => []
  | (ps, body) :: cs => (ps, betaSubstList (σ.without ps.binds) body) :: betaSubstClauses σ cs

def betaSubstFns (σ : Subst) :
    List (Symbol × List (Params × List Ast)) → List (Symbol × List (Params × List Ast))
  | [] => []
  | (f, clauses) :: fs => (f, betaSubstClauses σ clauses) :: betaSubstFns σ fs

def betaSubstCases (σ : Subst) : List (List Literal × List Ast) → List (List Literal × List Ast)
  | [] => []
  | (keys, body) :: cs => (keys, betaSubstList σ body) :: betaSubstCases σ cs

def betaSubstConds (σ : Subst) : List (Ast × List Ast) → List (Ast × List Ast)
  | [] => []
  | (test, body) :: cs => (betaSubst σ test, betaSubstList σ body) :: betaSubstConds σ cs

def betaSubstEntries (σ : Subst) : List (Ast × Ast) → List (Ast × Ast)
  | [] => []
  | (k, v) :: es => (betaSubst σ k, betaSubst σ v) :: betaSubstEntries σ es

def betaSubstKids (σ : Subst) : List (Bool × List Symbol × Ast) → List (Bool × List Symbol × Ast)
  | [] => []
  | (threaded, binds, n) :: ks =>
    (threaded, binds, betaSubst (σ.without binds) n) :: betaSubstKids σ ks

end

/-! ## §2 Reach -/

/-- Does the substitution leave the reference alone? -/
def Subst.Fixes (σ : Subst) (s : Symbol) : Prop := ∀ a, σ s = some a → a = .symbolRef s

@[simp] theorem fixes_without {σ : Subst} {bound : List Symbol} {s : Symbol} :
    (σ.without bound).Fixes s ↔ s ∈ bound ∨ σ.Fixes s := by
  unfold Subst.Fixes Subst.without
  by_cases h : s ∈ bound <;> simp [h]

theorem fixes_iff {σ : Subst} {s : Symbol} :
    σ.Fixes s ↔ (σ s).getD (.symbolRef s) = .symbolRef s := by
  unfold Subst.Fixes
  cases σ s <;> simp

theorem fixes_all_filter {σ : Subst} {bound refs : List Symbol} :
    (∀ s ∈ refs, (σ.without bound).Fixes s) ↔ ∀ s ∈ refs.filter (· ∉ bound), σ.Fixes s := by
  simp only [fixes_without, List.mem_filter, decide_eq_true_eq]
  constructor
  · intro h s hs
    exact (h s hs.1).resolve_left hs.2
  · intro h s hs
    by_cases hb : s ∈ bound
    · exact Or.inl hb
    · exact Or.inr (h s ⟨hs, hb⟩)

theorem asStep_eq_symbolRef {n : Ast} {s : Symbol} :
    asStep n = .symbolRef s ↔ n = .symbolRef s := by
  unfold asStep
  cases n <;> simp [Ast.isRefOrLiteral]

section Fixpoint

/-- Substitution leaves the tree alone exactly when it leaves its free references alone. -/
private def FixedIff (n : Ast) : Prop :=
  ∀ σ : Subst, betaSubst σ n = n ↔ ∀ s ∈ freeRefs n, σ.Fixes s

variable {σ : Subst}

theorem betaSubstList_fixed {ns : List Ast} (h : ∀ n ∈ ns, FixedIff n) :
    betaSubstList σ ns = ns ↔ ∀ s ∈ freeRefsList ns, σ.Fixes s := by
  induction ns with
  | nil => simp [betaSubstList, freeRefsList]
  | cons n ns ih =>
    simp only [betaSubstList, freeRefsList, List.cons.injEq, List.forall_mem_append,
      h n List.mem_cons_self σ, ih fun m hm => h m (List.mem_cons_of_mem _ hm)]

theorem betaSubstSteps_fixed {ns : List Ast} (h : ∀ n ∈ ns, FixedIff n) :
    betaSubstSteps σ ns = ns ↔ ∀ s ∈ freeRefsList ns, σ.Fixes s := by
  induction ns with
  | nil => simp [betaSubstSteps, freeRefsList]
  | cons n ns ih =>
    have hn := h n List.mem_cons_self σ
    have ih := ih fun m hm => h m (List.mem_cons_of_mem _ hm)
    simp only [freeRefsList, List.forall_mem_append, ← hn, ← ih]
    cases n <;> simp [betaSubstSteps, asStep_eq_symbolRef]

theorem betaSubstInits_fixed {bs : List (Pattern × Ast)} (h : ∀ b ∈ bs, FixedIff b.2) :
    betaSubstInits σ bs = bs ↔ ∀ s ∈ freeRefsInits bs, σ.Fixes s := by
  induction bs with
  | nil => simp [betaSubstInits, freeRefsInits]
  | cons b bs ih =>
    obtain ⟨p, init⟩ := b
    have hn := h _ List.mem_cons_self σ
    have ih := ih fun m hm => h m (List.mem_cons_of_mem _ hm)
    simp only [betaSubstInits, freeRefsInits, List.cons.injEq, Prod.mk.injEq, true_and,
      List.forall_mem_append, ih]
    simp only at hn
    rw [hn]

theorem betaSubstBind_fixed {bs : List (Pattern × Ast)} (h : ∀ b ∈ bs, FixedIff b.2) :
    betaSubstBind σ bs = bs ↔ ∀ s ∈ freeRefsBind bs, σ.Fixes s := by
  induction bs generalizing σ with
  | nil => simp [betaSubstBind, freeRefsBind]
  | cons b bs ih =>
    obtain ⟨p, init⟩ := b
    have hn := h _ List.mem_cons_self σ
    have ih := @ih (σ.without p.binds) fun m hm => h m (List.mem_cons_of_mem _ hm)
    simp only [betaSubstBind, freeRefsBind, List.cons.injEq, Prod.mk.injEq, true_and,
      List.forall_mem_append, ih, fixes_all_filter]
    simp only at hn
    rw [hn]

theorem betaSubstClauses_fixed {cs : List (Params × List Ast)}
    (h : ∀ c ∈ cs, ∀ n ∈ c.2, FixedIff n) :
    betaSubstClauses σ cs = cs ↔ ∀ s ∈ freeRefsClauses cs, σ.Fixes s := by
  induction cs with
  | nil => simp [betaSubstClauses, freeRefsClauses]
  | cons c cs ih =>
    obtain ⟨ps, body⟩ := c
    have hn := betaSubstList_fixed (σ := σ.without ps.binds) (h _ List.mem_cons_self)
    have ih := ih fun m hm => h m (List.mem_cons_of_mem _ hm)
    simp only [betaSubstClauses, freeRefsClauses, List.cons.injEq, Prod.mk.injEq, true_and,
      List.forall_mem_append, ih, hn, fixes_all_filter]

theorem betaSubstFns_fixed {fs : List (Symbol × List (Params × List Ast))}
    (h : ∀ f ∈ fs, ∀ c ∈ f.2, ∀ n ∈ c.2, FixedIff n) :
    betaSubstFns σ fs = fs ↔ ∀ s ∈ freeRefsFns fs, σ.Fixes s := by
  induction fs with
  | nil => simp [betaSubstFns, freeRefsFns]
  | cons f fs ih =>
    obtain ⟨name, clauses⟩ := f
    have hn := betaSubstClauses_fixed (σ := σ) (h _ List.mem_cons_self)
    have ih := ih fun m hm => h m (List.mem_cons_of_mem _ hm)
    simp only [betaSubstFns, freeRefsFns, List.cons.injEq, Prod.mk.injEq, true_and,
      List.forall_mem_append, ih, hn]

theorem betaSubstCases_fixed {cs : List (List Literal × List Ast)}
    (h : ∀ c ∈ cs, ∀ n ∈ c.2, FixedIff n) :
    betaSubstCases σ cs = cs ↔ ∀ s ∈ freeRefsCases cs, σ.Fixes s := by
  induction cs with
  | nil => simp [betaSubstCases, freeRefsCases]
  | cons c cs ih =>
    obtain ⟨keys, body⟩ := c
    have hn := betaSubstList_fixed (σ := σ) (h _ List.mem_cons_self)
    have ih := ih fun m hm => h m (List.mem_cons_of_mem _ hm)
    simp only [betaSubstCases, freeRefsCases, List.cons.injEq, Prod.mk.injEq, true_and,
      List.forall_mem_append, ih, hn]

theorem betaSubstConds_fixed {cs : List (Ast × List Ast)} (h₁ : ∀ c ∈ cs, FixedIff c.1)
    (h₂ : ∀ c ∈ cs, ∀ n ∈ c.2, FixedIff n) :
    betaSubstConds σ cs = cs ↔ ∀ s ∈ freeRefsConds cs, σ.Fixes s := by
  induction cs with
  | nil => simp [betaSubstConds, freeRefsConds]
  | cons c cs ih =>
    obtain ⟨test, body⟩ := c
    have ht := h₁ _ List.mem_cons_self σ
    have hn := betaSubstList_fixed (σ := σ) (h₂ _ List.mem_cons_self)
    have ih := ih (fun m hm => h₁ m (List.mem_cons_of_mem _ hm))
      fun m hm => h₂ m (List.mem_cons_of_mem _ hm)
    simp only at ht
    simp only [betaSubstConds, freeRefsConds, List.cons.injEq, Prod.mk.injEq,
      List.forall_mem_append, ih, hn, ht]

theorem betaSubstEntries_fixed {es : List (Ast × Ast)} (h₁ : ∀ e ∈ es, FixedIff e.1)
    (h₂ : ∀ e ∈ es, FixedIff e.2) :
    betaSubstEntries σ es = es ↔ ∀ s ∈ freeRefsEntries es, σ.Fixes s := by
  induction es with
  | nil => simp [betaSubstEntries, freeRefsEntries]
  | cons e es ih =>
    obtain ⟨k, v⟩ := e
    have hk := h₁ _ List.mem_cons_self σ
    have hv := h₂ _ List.mem_cons_self σ
    have ih := ih (fun m hm => h₁ m (List.mem_cons_of_mem _ hm))
      fun m hm => h₂ m (List.mem_cons_of_mem _ hm)
    simp only at hk hv
    simp only [betaSubstEntries, freeRefsEntries, List.cons.injEq, Prod.mk.injEq,
      List.forall_mem_append, ih, hk, hv]

theorem betaSubstKids_fixed {ks : List (Bool × List Symbol × Ast)}
    (h : ∀ k ∈ ks, FixedIff k.2.2) :
    betaSubstKids σ ks = ks ↔ ∀ s ∈ freeRefsKids ks, σ.Fixes s := by
  induction ks with
  | nil => simp [betaSubstKids, freeRefsKids]
  | cons k ks ih =>
    obtain ⟨threaded, binds, n⟩ := k
    have hn := h _ List.mem_cons_self (σ.without binds)
    have ih := ih fun m hm => h m (List.mem_cons_of_mem _ hm)
    simp only at hn
    simp only [betaSubstKids, freeRefsKids, List.cons.injEq, Prod.mk.injEq, true_and,
      List.forall_mem_append, ih, hn, fixes_all_filter]

theorem betaSubst_fixed (n : Ast) : FixedIff n := by
  induction n with
  | literal | quote => intro σ; simp [betaSubst, freeRefs]
  | symbolRef s =>
    intro σ
    simp only [betaSubst, freeRefs, List.forall_mem_singleton, fixes_iff]
  | call op args hop hargs =>
    intro σ
    simp only [betaSubst, freeRefs, Ast.call.injEq, List.forall_mem_append, hop σ,
      betaSubstList_fixed hargs]
  | ifNode test thn els ht hn he =>
    intro σ
    simp only [betaSubst, freeRefs, Ast.ifNode.injEq, List.forall_mem_append, ht σ, hn σ,
      betaSubstList_fixed he, and_assoc]
  | doNode body h | recur body h | vector body h | set body h =>
    intro σ
    simp only [betaSubst, freeRefs, Ast.doNode.injEq, Ast.recur.injEq, Ast.vector.injEq,
      Ast.set.injEq, betaSubstList_fixed h]
  | bind bindings body hb h =>
    intro σ
    simp only [betaSubst, freeRefs, Ast.bind.injEq, List.forall_mem_append,
      betaSubstBind_fixed hb, betaSubstList_fixed h, fixes_all_filter]
  | loop bindings body hb h =>
    intro σ
    simp only [betaSubst, freeRefs, Ast.loop.injEq, List.forall_mem_append,
      betaSubstInits_fixed hb, betaSubstList_fixed h, fixes_all_filter]
  | letfn bindings body hb h =>
    intro σ
    simp only [betaSubst, freeRefs, Ast.letfn.injEq, betaSubstFns_fixed hb,
      betaSubstList_fixed h, ← fixes_all_filter, List.forall_mem_append]
  | fn name clauses h =>
    intro σ
    have hf : (freeRefsClauses clauses).filter (some · ≠ name) =
        (freeRefsClauses clauses).filter (· ∉ name.toList) := by
      congr 1
      funext s
      cases name <;> simp
    simp only [betaSubst, freeRefs, Ast.fn.injEq, true_and, betaSubstClauses_fixed h, hf,
      fixes_all_filter]
  | case expr clauses he h =>
    intro σ
    simp only [betaSubst, freeRefs, Ast.case.injEq, List.forall_mem_append, he σ,
      betaSubstCases_fixed h]
  | cond clauses ht h =>
    intro σ
    simp only [betaSubst, freeRefs, Ast.cond.injEq, betaSubstConds_fixed ht h]
  | threadFirst forms h =>
    intro σ
    cases forms with
    | nil => simp [betaSubst, freeRefs, freeRefsList]
    | cons f steps =>
      simp only [betaSubst, freeRefs, freeRefsList, Ast.threadFirst.injEq, List.cons.injEq,
        List.forall_mem_append, h f List.mem_cons_self σ,
        betaSubstSteps_fixed fun n hn => h n (List.mem_cons_of_mem _ hn)]
  | dict entries h₁ h₂ =>
    intro σ
    simp only [betaSubst, freeRefs, Ast.dict.injEq, betaSubstEntries_fixed h₁ h₂]
  | other kids h =>
    intro σ
    simp only [betaSubst, freeRefs, Ast.other.injEq, betaSubstKids_fixed h]

end Fixpoint

mutual

/-- The free references `%tr-inline-subst` does not get to. -/
def unreached : Ast → List Symbol
  | .literal _ => []
  | .symbolRef _ => []
  | .call op args => freeRefs op ++ unreachedList args
  | .ifNode test thn els => unreached test ++ unreached thn ++ unreachedList els
  | .threadFirst forms => unreachedList forms
  | n => freeRefs n

def unreachedList : List Ast → List Symbol
  | [] => []
  | n :: ns => unreached n ++ unreachedList ns

end

mutual

/-- The steps of reached `->` forms that are bare symbols. -/
def bareSteps : Ast → List Symbol
  | .call _ args => bareStepsList args
  | .ifNode test thn els => bareSteps test ++ bareSteps thn ++ bareStepsList els
  | .threadFirst [] => []
  | .threadFirst (f :: steps) => bareSteps f ++ bareStepsSteps steps
  | _ => []

def bareStepsList : List Ast → List Symbol
  | [] => []
  | n :: ns => bareSteps n ++ bareStepsList ns

def bareStepsSteps : List Ast → List Symbol
  | [] => []
  | .symbolRef s :: ns => s :: bareStepsSteps ns
  | n :: ns => bareSteps n ++ bareStepsSteps ns

end

/-- May the actual of `s` be put in place of a step? -/
def Subst.FitsStep (σ : Subst) (s : Symbol) : Prop := ∀ a, σ s = some a → a.isRefOrLiteral = true

/-- `inlineSubst` reaches everything it should. -/
def Reaches (σ : Subst) (n : Ast) : Prop :=
  (∀ s ∈ unreached n, σ.Fixes s) ∧ ∀ s ∈ bareSteps n, σ.FitsStep s

section Reach

variable {subst : List (Symbol × Ast)}

theorem inlineSubst_symbolRef (s : Symbol) :
    inlineSubst subst (.symbolRef s) = betaSubst (actuals subst) (.symbolRef s) := by
  simp only [inlineSubst, betaSubst, actuals]
  cases subst.find? (·.1 = s) <;> rfl

theorem asStep_actual {σ : Subst} {s : Symbol} :
    betaSubst σ (.symbolRef s) = asStep (betaSubst σ (.symbolRef s)) ↔ σ.FitsStep s := by
  simp only [betaSubst, Subst.FitsStep]
  cases σ s with
  | none => simp [asStep, Ast.isRefOrLiteral]
  | some a =>
    have hne : a ≠ .call a [] := fun h => by
      have hsize := congrArg sizeOf h
      simp at hsize
      omega
    by_cases ha : a.isRefOrLiteral = true <;> simp [asStep, ha, hne]

theorem reachIff_of_verbatim {n : Ast} (hi : inlineSubst subst n = n)
    (hu : unreached n = freeRefs n) (hb : bareSteps n = []) :
    inlineSubst subst n = betaSubst (actuals subst) n ↔ Reaches (actuals subst) n := by
  rw [hi, eq_comm, betaSubst_fixed n, Reaches, hu, hb]
  simp

theorem inlineSubstList_eq_beta {ns : List Ast}
    (h : ∀ n ∈ ns, inlineSubst subst n = betaSubst (actuals subst) n ↔ Reaches (actuals subst) n) :
    inlineSubstList subst ns = betaSubstList (actuals subst) ns ↔
      (∀ s ∈ unreachedList ns, (actuals subst).Fixes s) ∧
        ∀ s ∈ bareStepsList ns, (actuals subst).FitsStep s := by
  induction ns with
  | nil => simp [inlineSubstList, betaSubstList, unreachedList, bareStepsList]
  | cons n ns ih =>
    have ih := ih fun m hm => h m (List.mem_cons_of_mem _ hm)
    simp only [inlineSubstList, betaSubstList, unreachedList, bareStepsList, List.cons.injEq,
      List.forall_mem_append, h n List.mem_cons_self, ih, Reaches]
    exact and_and_and_comm

theorem inlineSubstSteps_eq_beta {ns : List Ast}
    (h : ∀ n ∈ ns, inlineSubst subst n = betaSubst (actuals subst) n ↔ Reaches (actuals subst) n) :
    inlineSubstList subst ns = betaSubstSteps (actuals subst) ns ↔
      (∀ s ∈ unreachedList ns, (actuals subst).Fixes s) ∧
        ∀ s ∈ bareStepsSteps ns, (actuals subst).FitsStep s := by
  induction ns with
  | nil => simp [inlineSubstList, betaSubstSteps, unreachedList, bareStepsSteps]
  | cons n ns ih =>
    have ih := ih fun m hm => h m (List.mem_cons_of_mem _ hm)
    have hn := h n List.mem_cons_self
    cases n with
    | symbolRef s =>
      simp only [inlineSubstList, betaSubstSteps, unreachedList, bareStepsSteps, unreached,
        List.nil_append, List.cons.injEq, List.forall_mem_cons, ih, inlineSubst_symbolRef,
        asStep_actual]
      exact and_left_comm
    | _ =>
      simp only [inlineSubstList, betaSubstSteps, unreachedList, bareStepsSteps, List.cons.injEq,
        List.forall_mem_append, hn, ih, Reaches]
      exact and_and_and_comm

/-- `%tr-inline-subst` is substitution exactly when it leaves no formal behind. -/
theorem inlineSubst_eq_beta (n : Ast) :
    inlineSubst subst n = betaSubst (actuals subst) n ↔ Reaches (actuals subst) n := by
  induction n with
  | literal => simp [inlineSubst, betaSubst, Reaches, unreached, bareSteps]
  | symbolRef s => simp [inlineSubst_symbolRef, Reaches, unreached, bareSteps]
  | call op args hop hargs =>
    have hop := betaSubst_fixed op (actuals subst)
    simp only [inlineSubst, betaSubst, Reaches, unreached, bareSteps, Ast.call.injEq,
      List.forall_mem_append, inlineSubstList_eq_beta hargs, ← hop, eq_comm (a := op)]
    exact and_assoc.symm
  | ifNode test thn els ht hn he =>
    simp only [inlineSubst, betaSubst, Reaches, unreached, bareSteps, Ast.ifNode.injEq,
      List.forall_mem_append, inlineSubstList_eq_beta he] at ht hn ⊢
    rw [ht, hn]
    constructor
    · rintro ⟨⟨htu, htb⟩, ⟨hnu, hnb⟩, heu, heb⟩
      exact ⟨⟨⟨htu, hnu⟩, heu⟩, ⟨htb, hnb⟩, heb⟩
    · rintro ⟨⟨⟨htu, hnu⟩, heu⟩, ⟨htb, hnb⟩, heb⟩
      exact ⟨⟨htu, htb⟩, ⟨hnu, hnb⟩, heu, heb⟩
  | threadFirst forms h =>
    cases forms with
    | nil => simp [inlineSubst, inlineSubstList, betaSubst, Reaches, unreached, unreachedList,
        bareSteps]
    | cons f steps =>
      have hf := h f List.mem_cons_self
      have hs := inlineSubstSteps_eq_beta fun n hn => h n (List.mem_cons_of_mem f hn)
      simp only [inlineSubst, inlineSubstList, betaSubst, Reaches, unreached, unreachedList,
        bareSteps, Ast.threadFirst.injEq, List.cons.injEq, List.forall_mem_append] at hf hs ⊢
      rw [hf, hs]
      exact and_and_and_comm
  | _ => exact reachIff_of_verbatim rfl rfl rfl

end Reach

/-! ## §3 Values -/

/-- The meaning of what inlining does not look into: literals, the truth of a value,
calls as functions of their arguments, and the remaining nodes as functions of their
free variables. -/
structure Semantics (V : Type) where
  literal : Literal → V
  truthy : V → Bool
  apply : V → List V → V
  other : Ast → (Symbol → V) → V
  other_congr : ∀ (n : Ast) (ρ ρ' : Symbol → V),
    (∀ s ∈ freeRefs n, ρ s = ρ' s) → other n ρ = other n ρ'

namespace Semantics

variable {V : Type} (S : Semantics V)

mutual

/-- The value of a tree in an environment. -/
@[grind =] def eval (ρ : Symbol → V) : Ast → V
  | .literal v => S.literal v
  | .symbolRef s => ρ s
  | .call op args => S.apply (eval ρ op) (evalList ρ args)
  | .ifNode test thn els => if S.truthy (eval ρ test) then eval ρ thn else evalBody ρ els
  | .threadFirst [] => S.literal .nil
  | .threadFirst (f :: steps) => evalSteps ρ (eval ρ f) steps
  | n => S.other n ρ

def evalList (ρ : Symbol → V) : List Ast → List V
  | [] => []
  | n :: ns => eval ρ n :: evalList ρ ns

/-- The value of the last form. -/
def evalBody (ρ : Symbol → V) : List Ast → V
  | [] => S.literal .nil
  | [n] => eval ρ n
  | _ :: ns => evalBody ρ ns

/-- The threading of `emit-thread-first`: into a call as its first argument, else as the
argument of a call of the step. -/
@[grind =] def evalSteps (ρ : Symbol → V) (v : V) : List Ast → V
  | [] => v
  | .call op args :: ns => evalSteps ρ (S.apply (eval ρ op) (v :: evalList ρ args)) ns
  | n :: ns => evalSteps ρ (S.apply (eval ρ n) [v]) ns

end

/-- One step of a `->` form. -/
def evalStep (ρ : Symbol → V) (v : V) : Ast → V
  | .call op args => S.apply (S.eval ρ op) (v :: S.evalList ρ args)
  | n => S.apply (S.eval ρ n) [v]

theorem evalSteps_cons (ρ : Symbol → V) (v : V) (n : Ast) (ns : List Ast) :
    S.evalSteps ρ v (n :: ns) = S.evalSteps ρ (S.evalStep ρ v n) ns := by
  cases n <;> rfl

variable {ρ ρ' : Symbol → V}

theorem evalList_congr {ns : List Ast}
    (h : ∀ n ∈ ns, (∀ s ∈ freeRefs n, ρ s = ρ' s) → S.eval ρ n = S.eval ρ' n)
    (hρ : ∀ s ∈ freeRefsList ns, ρ s = ρ' s) : S.evalList ρ ns = S.evalList ρ' ns := by
  induction ns with
  | nil => rfl
  | cons n ns ih =>
    obtain ⟨h₁, h₂⟩ := List.forall_mem_append.mp hρ
    rw [evalList, evalList, h n List.mem_cons_self h₁,
      ih (fun m hm => h m (List.mem_cons_of_mem _ hm)) h₂]

theorem evalBody_congr {ns : List Ast}
    (h : ∀ n ∈ ns, (∀ s ∈ freeRefs n, ρ s = ρ' s) → S.eval ρ n = S.eval ρ' n)
    (hρ : ∀ s ∈ freeRefsList ns, ρ s = ρ' s) : S.evalBody ρ ns = S.evalBody ρ' ns := by
  induction ns with
  | nil => rfl
  | cons n ns ih =>
    obtain ⟨h₁, h₂⟩ := List.forall_mem_append.mp hρ
    cases ns with
    | nil => exact h n List.mem_cons_self h₁
    | cons m ms => exact ih (fun m hm => h m (List.mem_cons_of_mem _ hm)) h₂

theorem evalSteps_congr {ns : List Ast}
    (h : ∀ n ∈ ns, (∀ s ∈ freeRefs n, ρ s = ρ' s) → ∀ v, S.evalStep ρ v n = S.evalStep ρ' v n)
    (hρ : ∀ s ∈ freeRefsList ns, ρ s = ρ' s) (v : V) :
    S.evalSteps ρ v ns = S.evalSteps ρ' v ns := by
  induction ns generalizing v with
  | nil => rfl
  | cons n ns ih =>
    obtain ⟨h₁, h₂⟩ := List.forall_mem_append.mp hρ
    rw [evalSteps_cons, evalSteps_cons, h n List.mem_cons_self h₁]
    exact ih (fun m hm => h m (List.mem_cons_of_mem _ hm)) h₂ _

/-- The value depends on the free variables only, of a tree and of a step. -/
theorem eval_congr_step (n : Ast) : (∀ s ∈ freeRefs n, ρ s = ρ' s) →
    S.eval ρ n = S.eval ρ' n ∧ ∀ v, S.evalStep ρ v n = S.evalStep ρ' v n := by
  induction n with
  | literal v => exact fun _ => ⟨rfl, fun _ => rfl⟩
  | symbolRef s =>
    intro hρ
    have hs : ρ s = ρ' s := hρ s List.mem_cons_self
    simp [eval, evalStep, hs]
  | call op args hop hargs =>
    intro hρ
    obtain ⟨h₁, h₂⟩ := List.forall_mem_append.mp hρ
    have hl := S.evalList_congr (fun n hn hs => (hargs n hn hs).1) h₂
    simp only [eval, evalStep, (hop h₁).1, hl, implies_true, and_self]
  | ifNode test thn els ht hn he =>
    intro hρ
    simp only [freeRefs, List.forall_mem_append] at hρ
    have hb := S.evalBody_congr (fun n hn hs => (he n hn hs).1) hρ.2
    simp only [eval, evalStep, (ht hρ.1.1).1, (hn hρ.1.2).1, hb, implies_true, and_self]
  | threadFirst forms h =>
    intro hρ
    suffices hv : S.eval ρ (.threadFirst forms) = S.eval ρ' (.threadFirst forms) by
      exact ⟨hv, fun v => by simp only [evalStep, hv]⟩
    cases forms with
    | nil => rfl
    | cons f steps =>
      obtain ⟨h₁, h₂⟩ := List.forall_mem_append.mp hρ
      have hsteps := S.evalSteps_congr
        (fun n hn hs => (h n (List.mem_cons_of_mem f hn) hs).2) h₂
      simp only [eval, (h f List.mem_cons_self h₁).1, hsteps]
  | _ =>
    intro hρ
    have hv := S.other_congr _ ρ ρ' hρ
    exact ⟨hv, fun v => congrArg (S.apply · [v]) hv⟩

theorem eval_congr {n : Ast} (hρ : ∀ s ∈ freeRefs n, ρ s = ρ' s) : S.eval ρ n = S.eval ρ' n :=
  (S.eval_congr_step n hρ).1

/-! The substitution lemma: in `ρ'` the formals hold the values of their actuals in `ρ`. -/

section Substitution

variable {subst : List (Symbol × Ast)}

/-- The value of a reference after substitution. -/
def actualValue (ρ : Symbol → V) (σ : Subst) (s : Symbol) : V := (σ s).elim (ρ s) (S.eval ρ)

theorem actualValue_of_fixes {σ : Subst} {s : Symbol} (h : σ.Fixes s) :
    S.actualValue ρ σ s = ρ s := by
  unfold actualValue
  cases hs : σ s with
  | none => rfl
  | some a => rw [h a hs]; rfl

theorem eval_inlineSubst_symbolRef (s : Symbol) :
    S.eval ρ (inlineSubst subst (.symbolRef s)) = S.actualValue ρ (actuals subst) s := by
  rw [inlineSubst_symbolRef]
  simp only [betaSubst, actualValue]
  cases actuals subst s <;> rfl

theorem evalStep_of_isRefOrLiteral {n : Ast} (v : V) (h : n.isRefOrLiteral = true) :
    S.evalStep ρ v n = S.apply (S.eval ρ n) [v] := by
  cases n <;> first | rfl | simp [Ast.isRefOrLiteral] at h

theorem isRefOrLiteral_inlineSubst {s : Symbol} (h : (actuals subst).FitsStep s) :
    (inlineSubst subst (.symbolRef s)).isRefOrLiteral = true := by
  rw [inlineSubst_symbolRef, betaSubst]
  cases hs : actuals subst s with
  | none => rfl
  | some a => exact h a hs

private def Substitutes (S : Semantics V) (subst : List (Symbol × Ast)) (ρ ρ' : Symbol → V)
    (n : Ast) : Prop :=
  (∀ s ∈ freeRefs n, ρ' s = S.actualValue ρ (actuals subst) s) →
    (∀ s ∈ unreached n, (actuals subst).Fixes s) →
    ((∀ s ∈ bareSteps n, (actuals subst).FitsStep s) →
      S.eval ρ (inlineSubst subst n) = S.eval ρ' n) ∧
    ((∀ s ∈ bareStepsSteps [n], (actuals subst).FitsStep s) →
      ∀ v, S.evalStep ρ v (inlineSubst subst n) = S.evalStep ρ' v n)

theorem eval_congr_of_fixes {n : Ast}
    (hρ : ∀ s ∈ freeRefs n, ρ' s = S.actualValue ρ (actuals subst) s)
    (hf : ∀ s ∈ freeRefs n, (actuals subst).Fixes s) : S.eval ρ n = S.eval ρ' n :=
  S.eval_congr fun s hs => ((hρ s hs).trans (S.actualValue_of_fixes (hf s hs))).symm

theorem evalList_inlineSubst {ns : List Ast} (h : ∀ n ∈ ns, Substitutes S subst ρ ρ' n)
    (hρ : ∀ s ∈ freeRefsList ns, ρ' s = S.actualValue ρ (actuals subst) s)
    (hu : ∀ s ∈ unreachedList ns, (actuals subst).Fixes s)
    (hb : ∀ s ∈ bareStepsList ns, (actuals subst).FitsStep s) :
    S.evalList ρ (inlineSubstList subst ns) = S.evalList ρ' ns := by
  induction ns with
  | nil => rfl
  | cons n ns ih =>
    obtain ⟨hρ₁, hρ₂⟩ := List.forall_mem_append.mp hρ
    obtain ⟨hu₁, hu₂⟩ := List.forall_mem_append.mp hu
    obtain ⟨hb₁, hb₂⟩ := List.forall_mem_append.mp hb
    simp only [inlineSubstList, evalList, (h n List.mem_cons_self hρ₁ hu₁).1 hb₁,
      ih (fun m hm => h m (List.mem_cons_of_mem _ hm)) hρ₂ hu₂ hb₂]

theorem evalBody_inlineSubst {ns : List Ast} (h : ∀ n ∈ ns, Substitutes S subst ρ ρ' n)
    (hρ : ∀ s ∈ freeRefsList ns, ρ' s = S.actualValue ρ (actuals subst) s)
    (hu : ∀ s ∈ unreachedList ns, (actuals subst).Fixes s)
    (hb : ∀ s ∈ bareStepsList ns, (actuals subst).FitsStep s) :
    S.evalBody ρ (inlineSubstList subst ns) = S.evalBody ρ' ns := by
  induction ns with
  | nil => rfl
  | cons n ns ih =>
    obtain ⟨hρ₁, hρ₂⟩ := List.forall_mem_append.mp hρ
    obtain ⟨hu₁, hu₂⟩ := List.forall_mem_append.mp hu
    obtain ⟨hb₁, hb₂⟩ := List.forall_mem_append.mp hb
    cases ns with
    | nil => exact (h n List.mem_cons_self hρ₁ hu₁).1 hb₁
    | cons m ms => exact ih (fun m hm => h m (List.mem_cons_of_mem _ hm)) hρ₂ hu₂ hb₂

theorem evalSteps_inlineSubst {ns : List Ast} (h : ∀ n ∈ ns, Substitutes S subst ρ ρ' n)
    (hρ : ∀ s ∈ freeRefsList ns, ρ' s = S.actualValue ρ (actuals subst) s)
    (hu : ∀ s ∈ unreachedList ns, (actuals subst).Fixes s)
    (hb : ∀ s ∈ bareStepsSteps ns, (actuals subst).FitsStep s) (v : V) :
    S.evalSteps ρ v (inlineSubstList subst ns) = S.evalSteps ρ' v ns := by
  induction ns generalizing v with
  | nil => rfl
  | cons n ns ih =>
    obtain ⟨hρ₁, hρ₂⟩ := List.forall_mem_append.mp hρ
    obtain ⟨hu₁, hu₂⟩ := List.forall_mem_append.mp hu
    have hb : (∀ s ∈ bareStepsSteps [n], (actuals subst).FitsStep s) ∧
        ∀ s ∈ bareStepsSteps ns, (actuals subst).FitsStep s := by
      cases n <;> simp_all [bareStepsSteps, or_imp, forall_and]
    rw [inlineSubstList, evalSteps_cons, evalSteps_cons,
      (h n List.mem_cons_self hρ₁ hu₁).2 hb.1]
    exact ih (fun m hm => h m (List.mem_cons_of_mem _ hm)) hρ₂ hu₂ hb.2 _

/-- Where inlining reaches every formal, the inlined tree has the value of the original
in the callee's environment. -/
theorem eval_inlineSubst_step (n : Ast) : Substitutes S subst ρ ρ' n := by
  induction n with
  | literal v => exact fun _ _ => ⟨fun _ => rfl, fun _ _ => rfl⟩
  | symbolRef s =>
    intro hρ _
    have hs := hρ s List.mem_cons_self
    refine ⟨fun _ => (S.eval_inlineSubst_symbolRef s).trans hs.symm, fun hb v => ?_⟩
    have hv : S.eval ρ (inlineSubst subst (.symbolRef s)) = ρ' s :=
      (S.eval_inlineSubst_symbolRef s).trans hs.symm
    have hstep := S.evalStep_of_isRefOrLiteral (ρ := ρ) v
      (isRefOrLiteral_inlineSubst (hb s List.mem_cons_self))
    rw [hstep, hv]
    rfl
  | call op args hop hargs =>
    intro hρ hu
    obtain ⟨hρ₁, hρ₂⟩ := List.forall_mem_append.mp hρ
    obtain ⟨hu₁, hu₂⟩ := List.forall_mem_append.mp hu
    have hop := S.eval_congr_of_fixes hρ₁ hu₁
    constructor
    · intro hb
      simp only [inlineSubst, eval, hop, S.evalList_inlineSubst hargs hρ₂ hu₂ hb]
    · intro hb v
      have hb : ∀ s ∈ bareStepsList args, (actuals subst).FitsStep s := by
        simpa [bareStepsSteps, bareSteps] using hb
      simp only [inlineSubst, evalStep, hop, S.evalList_inlineSubst hargs hρ₂ hu₂ hb]
  | ifNode test thn els ht hn he =>
    intro hρ hu
    have hv : (∀ s ∈ bareSteps (.ifNode test thn els), (actuals subst).FitsStep s) →
        S.eval ρ (inlineSubst subst (.ifNode test thn els)) = S.eval ρ' (.ifNode test thn els) := by
      intro hb
      simp only [freeRefs, unreached, bareSteps, List.forall_mem_append] at hρ hu hb
      simp only [inlineSubst, eval, (ht hρ.1.1 hu.1.1).1 hb.1.1, (hn hρ.1.2 hu.1.2).1 hb.1.2,
        S.evalBody_inlineSubst he hρ.2 hu.2 hb.2]
    refine ⟨hv, fun hb v => ?_⟩
    have hb := hv (by simpa [bareStepsSteps] using hb)
    exact congrArg (S.apply · [v]) hb
  | threadFirst forms h =>
    intro hρ hu
    have hv : (∀ s ∈ bareSteps (.threadFirst forms), (actuals subst).FitsStep s) →
        S.eval ρ (inlineSubst subst (.threadFirst forms)) = S.eval ρ' (.threadFirst forms) := by
      intro hb
      cases forms with
      | nil => rfl
      | cons f steps =>
        simp only [freeRefs, freeRefsList, unreached, unreachedList, bareSteps,
          List.forall_mem_append] at hρ hu hb
        simp only [inlineSubst, inlineSubstList, eval,
          (h f List.mem_cons_self hρ.1 hu.1).1 hb.1,
          S.evalSteps_inlineSubst (fun n hn => h n (List.mem_cons_of_mem f hn)) hρ.2 hu.2 hb.2]
    refine ⟨hv, fun hb v => ?_⟩
    have hb := hv (by simpa [bareStepsSteps] using hb)
    exact congrArg (S.apply · [v]) hb
  | _ =>
    intro hρ hu
    have hv := S.eval_congr_of_fixes hρ hu
    exact ⟨fun _ => hv, fun _ v => congrArg (S.apply · [v]) hv⟩

end Substitution

end Semantics

/-! ## §4 Helper calls -/

/-- The environment a helper's body runs in: its formals hold the values of the actuals
in the caller's environment, every other variable is global. -/
def calleeEnv {V : Type} (S : Semantics V) (h : Helper) (args : List Ast)
    (global caller : Symbol → V) :
    Symbol → V :=
  fun s => (actuals (h.params.zip args) s).elim (global s) (S.eval caller)

/-- The inlined call is the helper's body with its formals replaced, free of capture by
`locals` (the local variables of the caller), and has the value of the call. -/
structure BetaReduces (h : Helper) (args : List Ast) (locals : List Symbol) (inlined : Ast) :
    Prop where
  replaced : inlined = betaSubst (actuals (h.params.zip args)) h.body
  hygienic : ∀ s ∈ freeRefs h.body, s ∉ h.params → s ∉ locals
  value : ∀ (V : Type) (S : Semantics V) (global caller : Symbol → V),
    (∀ s, s ∉ locals → caller s = global s) →
      S.eval caller inlined = S.eval (calleeEnv S h args global caller) h.body

/-- Every formal at a place `%tr-inline-subst` does not enter has the actual of the same
name, every formal that is a bare step has a variable or a literal, and the body has no
other free variable that the caller binds. -/
structure Inlinable (h : Helper) (args : List Ast) (locals : List Symbol) : Prop where
  reached : ∀ s ∈ unreached h.body, (actuals (h.params.zip args)).Fixes s
  steps : ∀ s ∈ bareSteps h.body, (actuals (h.params.zip args)).FitsStep s
  hygienic : ∀ s ∈ freeRefs h.body, s ∉ h.params → s ∉ locals

theorem actuals_zip_isSome {params : List Symbol} {args : List Ast}
    (hlen : params.length = args.length) {s : Symbol} (hs : s ∈ params) :
    (actuals (params.zip args) s).isSome = true := by
  induction params generalizing args with
  | nil => exact absurd hs List.not_mem_nil
  | cons p ps ih =>
    cases args with
    | nil => simp at hlen
    | cons a as =>
      by_cases hp : p = s
      · simp [actuals, hp]
      · have hs : s ∈ ps := by simpa [Ne.symm hp] using hs
        simpa [actuals, hp] using ih (by simpa using hlen) hs

/-- What `%tr-inline-attempt` accepts. -/
theorem inlineAttempt_eq_some {Γ : Env} {op : Symbol} {args : List Ast} {h : Helper}
    {inlined : Ast} {events : List Event} (hh : Γ.inlinableFns op = some h)
    (ha : inlineAttempt Γ (.call (.symbolRef op) args) = (some inlined, events)) :
    h.params.length = args.length ∧ inlined = inlineSubst (h.params.zip args) h.body := by
  unfold inlineAttempt at ha
  simp only [hh] at ha
  split at ha
  · rename_i hc
    simp only [Prod.mk.injEq, Option.some.injEq] at ha
    exact ⟨hc.1, ha.1.symm⟩
  · simp at ha

theorem betaReduces_iff {h : Helper} {args : List Ast} {locals : List Symbol}
    (hlen : h.params.length = args.length) :
    BetaReduces h args locals (inlineSubst (h.params.zip args) h.body) ↔
      Inlinable h args locals := by
  constructor
  · intro hb
    have hr := (inlineSubst_eq_beta h.body).mp hb.replaced
    exact ⟨hr.1, hr.2, hb.hygienic⟩
  · intro hi
    refine ⟨(inlineSubst_eq_beta h.body).mpr ⟨hi.reached, hi.steps⟩, hi.hygienic, ?_⟩
    intro V S global caller hglobal
    refine ((S.eval_inlineSubst_step h.body) (fun s hs => ?_) hi.reached).1 hi.steps
    by_cases hp : s ∈ h.params
    · obtain ⟨a, ha⟩ := Option.isSome_iff_exists.mp (actuals_zip_isSome hlen hp)
      simp [calleeEnv, Semantics.actualValue, ha]
    · simp only [calleeEnv, Semantics.actualValue, hglobal s (hi.hygienic s hs hp)]

/-- A registered helper is the single body form of a single clause over symbols. -/
def IsClauseOf (h : Helper) (clauses : List (Params × List Ast)) : Prop :=
  ∃ params body, clauses = [(params, body)] ∧ params.names = h.params.map some ∧
    stripDocstring body = [h.body]

theorem mapM_id_eq_some {α : Type} {os : List (Option α)} {as : List α}
    (h : os.mapM id = some as) : os = as.map some := by
  induction os generalizing as with
  | nil => simp_all
  | cons o os ih =>
    simp only [List.mapM_cons, id, Option.bind_eq_bind, Option.bind_eq_some_iff,
      Option.pure_def, Option.some.injEq] at h
    obtain ⟨a, rfl, as', has, rfl⟩ := h
    rw [List.map_cons, ih has]

theorem helperEntry_isClauseOf {Γ : Env} {fuel : Nat} {clauses : List (Params × List Ast)}
    {h : Helper} (he : helperEntry Γ fuel clauses = some (some h)) : IsClauseOf h clauses := by
  unfold helperEntry at he
  split at he
  · rename_i params body
    split at he
    · rename_i p ps expr hps hbody
      simp only [Option.bind_eq_bind, Option.bind_eq_some_iff] at he
      obtain ⟨found, -, he⟩ := he
      split at he
      · simp only [Option.pure_def, Option.some.injEq] at he
        subst he
        exact ⟨params, body, rfl, mapM_id_eq_some hps, hbody⟩
      · simp at he
    · simp at he
  · simp at he

theorem inlinableFns_registered {Γ Γ' : Env} {fuel : Nat} {name : Symbol}
    {clauses : List (Params × List Ast)} {h : Helper}
    (hreg : maybeRegisterInlinableHelper Γ fuel name clauses = some Γ')
    (hent : Γ'.inlinableFns name = some h) : IsClauseOf h clauses := by
  obtain ⟨entry, he, rfl⟩ := Option.map_eq_some_iff.mp hreg
  simp only [Env.setInlinable, if_true] at hent
  exact helperEntry_isClauseOf (he.trans (congrArg some hent))

/-- `(defn add [cart x] (conj cart [x]))`. -/
def addClauses : List (Params × List Ast) :=
  [({ elems := [.symbol ⟨"CART", "USER"⟩, .symbol ⟨"X", "USER"⟩] },
    [.call (.symbolRef ⟨"CONJ", "USER"⟩)
      [.symbolRef ⟨"CART", "USER"⟩, .vector [.symbolRef ⟨"X", "USER"⟩]]])]

/-- `(defn put [cart x] (conj cart x))`. -/
def putClauses : List (Params × List Ast) :=
  [({ elems := [.symbol ⟨"CART", "USER"⟩, .symbol ⟨"X", "USER"⟩] },
    [.call (.symbolRef ⟨"CONJ", "USER"⟩)
      [.symbolRef ⟨"CART", "USER"⟩, .symbolRef ⟨"X", "USER"⟩]])]

/-- The sum of all values a tree mentions. -/
def sumSemantics : Semantics Nat where
  literal _ := 0
  truthy _ := true
  apply f args := args.foldl (· + ·) f
  other n ρ := (freeRefs n).foldl (fun total s => total + ρ s) 0
  other_congr n ρ ρ' h := List.foldl_ext _ _ _ fun total s hs => by rw [h s hs]

theorem registered_of_isSome (Γ : Env) (fuel : Nat) (name : Symbol)
    (clauses : List (Params × List Ast))
    (he : ((helperEntry (Γ.setInlinable name none) fuel clauses).bind id).isSome = true) :
    ∃ Γ' h, maybeRegisterInlinableHelper Γ fuel name clauses = some Γ' ∧
      Γ'.inlinableFns name = some h := by
  obtain ⟨h, he⟩ := Option.isSome_iff_exists.mp he
  obtain ⟨_, he, rfl⟩ := Option.bind_eq_some_iff.mp he
  refine ⟨_, h, congrArg (Option.map _) he, ?_⟩
  simp [Env.setInlinable]

theorem inlineAttempt_of_refs {Γ : Env} {op : Symbol} {h : Helper} (args : List Ast)
    (hent : Γ.inlinableFns op = some h) (hlen : h.params.length = args.length)
    (hargs : ∀ a ∈ args, a.isRefOrLiteral = true) :
    inlineAttempt Γ (.call (.symbolRef op) args) =
      (some (inlineSubst (h.params.zip args) h.body), [.lookup .helper op, .inlinedHelper op]) := by
  have hall : (args.zipIdx.all fun a => substitutableP h a.2 a.1) = true := by
    rw [List.all_eq_true]
    intro a ha
    simp [substitutableP, hargs a.1 (List.fst_mem_of_mem_zipIdx ha)]
  simp only [inlineAttempt, hent, hlen, hall, and_self, if_true]

/-- What is known of an entry for `[cart x]` with one body form. -/
theorem entry_of_isClauseOf {h : Helper} {params : Params} {n : Ast}
    (hh : IsClauseOf h [(params, [n])]) :
    params.names = h.params.map some ∧ h.body = n := by
  obtain ⟨params', body, hc, hp, hb⟩ := hh
  simp only [List.cons.injEq, Prod.mk.injEq, and_true] at hc
  obtain ⟨rfl, rfl⟩ := hc
  cases n <;> simp_all [stripDocstring]

end Fol.Escape

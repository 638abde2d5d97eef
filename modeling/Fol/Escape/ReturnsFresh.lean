/-
Fol.Escape.ReturnsFresh — what an inferred `returns-fresh-p` promises of a run, and where it
does not keep it.

Freshness is judged on the tail alone. That the value returned was allocated in the run
follows, unless a destructuring pattern has taken over the name of a local that was entered
as fresh. That nobody else has got hold of it by then does not follow: the forms before the
tail are not looked at. `Tainted` reads both off the text of the body.

  §1 Text      — `KeptThenReturned`, `Tainted`.
  §2 Judgement — `freshTask`, `Trusted`.
  §3 Runs      — `Eval.own_of_fresh`.
  §4 Inference — `returns_fresh_sound`.
-/
import Mathlib.Data.Set.Insert
import Fol.Escape.MayKeep
import Fol.Escape.ParamEffects

namespace Fol.Escape

/-! ## §1 Text -/

/-- On some path to the tail, the value the variables of `A` may hold is kept and then
returned. -/
inductive KeptThenReturned (Γ : Env) : List Symbol → Task Bool → Prop where
  | testThen {A test thn els} : May Γ A (.node test) .keeps → May Γ A (.node thn) .returns →
      KeptThenReturned Γ A (.node (.ifNode test thn els))
  | testElse {A test thn els} : May Γ A (.node test) .keeps → May Γ A (.body els) .returns →
      KeptThenReturned Γ A (.node (.ifNode test thn els))
  | thn {A test thn els} : KeptThenReturned Γ A (.node thn) →
      KeptThenReturned Γ A (.node (.ifNode test thn els))
  | els {A test thn els} : KeptThenReturned Γ A (.body els) →
      KeptThenReturned Γ A (.node (.ifNode test thn els))
  | doNode {A body} : KeptThenReturned Γ A (.body body) →
      KeptThenReturned Γ A (.node (.doNode body))
  | bindNode {A bindings body} : KeptThenReturned Γ A (.bind bindings body) →
      KeptThenReturned Γ A (.node (.bind bindings body))
  | bodyLast {A n} : KeptThenReturned Γ A (.node n) → KeptThenReturned Γ A (.body [n])
  | bodyAfter {A n ns} : May Γ A (.node n) .keeps → May Γ A (.body ns) .returns →
      KeptThenReturned Γ A (.body (n :: ns))
  | bodyRest {A n ns} : KeptThenReturned Γ A (.body ns) → KeptThenReturned Γ A (.body (n :: ns))
  | bindNil {A body} : KeptThenReturned Γ A (.body body) → KeptThenReturned Γ A (.bind [] body)
  | bindAfter {A p init bs body} : May Γ A (.node init) .keeps →
      May Γ (without A p.binds) (.bind bs body) .returns →
      KeptThenReturned Γ A (.bind ((p, init) :: bs) body)
  | bindAfterHeld {A p init bs body} : KeptThenReturned Γ A (.node init) →
      May Γ (p.binds ++ A) (.bind bs body) .returns →
      KeptThenReturned Γ A (.bind ((p, init) :: bs) body)
  | bindHeld {A p init bs body} : May Γ A (.node init) .returns →
      KeptThenReturned Γ (p.binds ++ A) (.bind bs body) →
      KeptThenReturned Γ A (.bind ((p, init) :: bs) body)
  | bindOver {A p init bs body} : KeptThenReturned Γ (without A p.binds) (.bind bs body) →
      KeptThenReturned Γ A (.bind ((p, init) :: bs) body)

/-- The tail may return what its freshness is wrongly judged for: the variable of a pattern
(`S` are the names that patterns took over, or that were bound to such a value), or a local
that is kept on the way. -/
inductive Tainted (Γ : Env) : List Symbol → Task Bool → Prop where
  | ref {S s} : s ∈ S → Tainted Γ S (.node (.symbolRef s))
  | thn {S test thn els} : Tainted Γ S (.node thn) → Tainted Γ S (.node (.ifNode test thn els))
  | els {S test thn els} : Tainted Γ S (.body els) → Tainted Γ S (.node (.ifNode test thn els))
  | doNode {S body} : Tainted Γ S (.body body) → Tainted Γ S (.node (.doNode body))
  | bindNode {S bindings body} : Tainted Γ S (.bind bindings body) →
      Tainted Γ S (.node (.bind bindings body))
  | bodyLast {S n} : Tainted Γ S (.node n) → Tainted Γ S (.body [n])
  | bodyRest {S n ns} : Tainted Γ S (.body ns) → Tainted Γ S (.body (n :: ns))
  | bindNil {S body} : Tainted Γ S (.body body) → Tainted Γ S (.bind [] body)
  | bindKept {S x init bs body} : KeptThenReturned Γ [x] (.bind bs body) →
      Tainted Γ S (.bind ((.symbol x, init) :: bs) body)
  | bindTainted {S x init bs body} : Tainted Γ S (.node init) → Tainted Γ (x :: S) (.bind bs body) →
      Tainted Γ S (.bind ((.symbol x, init) :: bs) body)
  | bindSymbol {S x init bs body} : Tainted Γ (without S [x]) (.bind bs body) →
      Tainted Γ S (.bind ((.symbol x, init) :: bs) body)
  | bindPattern {S mentions binds init bs body} : Tainted Γ (binds ++ S) (.bind bs body) →
      Tainted Γ S (.bind ((.tree mentions binds, init) :: bs) body)

/-! ## §2 Judgement -/

/-- The freshness a task is judged to have in tail position. -/
def freshTask {α : Type} (Γ : Env) (params : List (Option Symbol)) (env : FreshEnv) : Task α → Bool
  | .node n => (freshTailValueP Γ params env n).1
  | .body ns => (freshLast Γ params env ns).1
  | .bind bs ns => (freshLast Γ params (freshBindings Γ params env bs) ns).1
  | _ => false

/-- The environment after one binding of a `bind`. -/
def FreshEnv.extend (Γ : Env) (params : List (Option Symbol)) (env : FreshEnv) (p : Pattern)
    (init : Ast) : FreshEnv :=
  match p with
  | .symbol x => (x, freshTailValueP Γ params env init) :: env
  | .tree _ _ => env

/-- A name that was entered as fresh and that is not of `S`. -/
structure Trusted (env : FreshEnv) (S : List Symbol) (s : Symbol) : Prop where
  fresh : ((env.lookup s).getD (false, [])).1 = true
  not_mem : s ∉ S

section Judgement

variable {α : Type} {Γ : Env} {params : List (Option Symbol)} {env : FreshEnv}

theorem freshTask_ifNode {test thn : Ast} {els : List Ast}
    (h : freshTask (α := α) Γ params env (.node (.ifNode test thn els)) = true) :
    freshTask (α := α) Γ params env (.node thn) = true ∧
      freshTask (α := α) Γ params env (.body els) = true := by
  simp only [freshTask, freshTailValueP, Bool.and_eq_true] at h ⊢
  refine ⟨h.1, ?_⟩
  obtain ⟨-, h⟩ := h
  induction els with
  | nil => rfl
  | cons n ns ih =>
    simp only [freshElse, Bool.and_eq_true] at h
    cases ns with
    | nil => exact h.1
    | cons m ms => exact ih h.2

theorem freshTask_bodyCons {n m : Ast} {ns : List Ast} :
    freshTask (α := α) Γ params env (.body (n :: m :: ns)) =
      freshTask (α := α) Γ params env (.body (m :: ns)) := by
  simp only [freshTask, freshLast]

theorem freshTask_bindCons {p : Pattern} {init : Ast} {bs : List (Pattern × Ast)}
    {body : List Ast} :
    freshTask (α := α) Γ params env (.bind ((p, init) :: bs) body) =
      freshTask (α := α) Γ params (env.extend Γ params p init) (.bind bs body) := by
  cases p <;> simp only [freshTask, freshBindings, FreshEnv.extend]

theorem freshCall_of_fresh {op : Ast} {args : List Ast}
    (h : (freshTailValueP Γ params env (.call op args)).1 = true) :
    freshCall Γ (Ast.call op args).operatorSymbol = true := by
  rw [freshTailValueP] at h
  cases hclass : tier2ConstructorClass Γ (.call op args) with
  | some c => simp [hclass] at h
  | none =>
    rw [hclass] at h
    rw [freshCall, ← initCallSummary]
    cases hsummary : initCallSummary Γ (.call op args) with
    | none => simp [hsummary] at h
    | some summary => simpa [hsummary] using h

theorem lookup_of_fresh {s : Symbol}
    (h : (freshTailValueP Γ params env (.symbolRef s)).1 = true) :
    ((env.lookup s).getD (false, [])).1 = true := by
  rw [freshTailValueP] at h
  by_cases hp : params.contains (some s) = true
  · rw [if_pos hp] at h
    cases h
  · rwa [if_neg hp] at h

end Judgement

/-! ## §3 Runs -/

section Runs

-- the judgement is made with `Δ`, the run with `Γ`
variable {Γ Δ : Env} {params : List (Option Symbol)} {env : FreshEnv} {S A : List Symbol}
  {ρ : Locals} {σ σ' : Roots} {t : Task Root} {res : Result} {r base : Root}

/-- What a binding of a `bind` leaves to trust: its own name, if it is a symbol and its value
is rightly judged fresh, and the names it does not take over. -/
theorem trusted_step (Γ Δ : Env) (params : List (Option Symbol)) (env : FreshEnv) (S : List Symbol)
    (p : Pattern) (init : Ast) :
    ∃ S', (∀ bs body, Tainted Γ S' (.bind bs body) → Tainted Γ S (.bind ((p, init) :: bs) body)) ∧
      ∀ s, Trusted (env.extend Δ params p init) S' s →
        (p = .symbol s ∧ (freshTailValueP Δ params env init).1 = true ∧ ¬Tainted Γ S (.node init)) ∨
          (s ∉ p.binds ∧ Trusted env S s) := by
  cases p with
  | tree mentions binds =>
    refine ⟨binds ++ S, fun bs body => .bindPattern, fun s hs => .inr ?_⟩
    rw [FreshEnv.extend] at hs
    have hnot := hs.not_mem
    rw [List.mem_append, not_or] at hnot
    exact ⟨hnot.1, hs.fresh, hnot.2⟩
  | symbol x =>
    have hother {S' : List Symbol} {s : Symbol}
      (hs : Trusted (env.extend Δ params (.symbol x) init) S' s)
        (hne : s ≠ x) (hS : s ∉ S) : s ∉ (Pattern.symbol x).binds ∧ Trusted env S s := by
      refine ⟨by simpa [Pattern.binds] using hne, ?_, hS⟩
      have hfresh := hs.fresh
      rw [FreshEnv.extend, List.lookup_cons, beq_false_of_ne hne] at hfresh
      exact hfresh
    by_cases htaint : Tainted Γ S (.node init)
    · refine ⟨x :: S, fun bs body => .bindTainted htaint, fun s hs => .inr ?_⟩
      have hnot := hs.not_mem
      rw [List.mem_cons, not_or] at hnot
      exact hother hs hnot.1 hnot.2
    · refine ⟨without S [x], fun bs body => .bindSymbol, fun s hs => ?_⟩
      by_cases hne : s = x
      · subst hne
        have hfresh := hs.fresh
        rw [FreshEnv.extend, List.lookup_cons, beq_self_eq_true] at hfresh
        exact .inl ⟨rfl, hfresh, htaint⟩
      · refine .inr (hother hs hne fun hS => hs.not_mem ?_)
        exact List.mem_filter.mpr ⟨hS, by simpa using hne⟩

/-- The trusted names are local variables. -/
def TrustedLocals (env : FreshEnv) (S : List Symbol) (ρ : Locals) : Prop :=
  ∀ s, Trusted env S s → ∃ v, ρ s = some v

/-- The trusted names among those that hold the root are in `A`. -/
def TrustedBy (env : FreshEnv) (S : List Symbol) (r : Root) (ρ : Locals) (A : List Symbol) : Prop :=
  ∀ s, Trusted env S s → ρ s = some r → s ∈ A

theorem Binds.symbol {x : Symbol} {v : Root} {ρ' : Locals} (h : Binds [(.symbol x, v)] ρ σ ρ' σ') :
    ρ' x = some v := h.symbols x v List.mem_cons_self

theorem Binds.other {p : Pattern} {v : Root} {ρ' : Locals} {s : Symbol}
    (h : Binds [(p, v)] ρ σ ρ' σ') (hs : s ∉ p.binds) : ρ' s = ρ s :=
  h.others s (by simpa using hs)

/-- The names trusted after a binding: its own, with the value, and old ones untouched. -/
theorem trusted_bound {env' : FreshEnv} {S' : List Symbol} {p : Pattern} {v : Root}
    {ρ' : Locals} {Q : Prop} (hbinds : Binds [(p, v)] ρ σ ρ' σ')
    (htrusted : ∀ s, Trusted env' S' s → (p = .symbol s ∧ Q) ∨ (s ∉ p.binds ∧ Trusted env S s))
    {s : Symbol} (hs : Trusted env' S' s) :
    (p = .symbol s ∧ ρ' s = some v ∧ Q) ∨ (s ∉ p.binds ∧ ρ' s = ρ s ∧ Trusted env S s) := by
  rcases htrusted s hs with ⟨rfl, hQ⟩ | ⟨hnot, hold⟩
  · exact .inl ⟨rfl, hbinds.symbol, hQ⟩
  · exact .inr ⟨hnot, hbinds.other hnot, hold⟩

theorem trustedLocals_bound {env' : FreshEnv} {S' : List Symbol} {p : Pattern} {v : Root}
    {ρ' : Locals} {Q : Prop} (hbinds : Binds [(p, v)] ρ σ ρ' σ')
    (htrusted : ∀ s, Trusted env' S' s → (p = .symbol s ∧ Q) ∨ (s ∉ p.binds ∧ Trusted env S s))
    (hlocal : TrustedLocals env S ρ) : TrustedLocals env' S' ρ' := by
  intro s hs
  rcases trusted_bound hbinds htrusted hs with ⟨-, hv, -⟩ | ⟨-, hρ, hold⟩
  · exact ⟨v, hv⟩
  · exact hρ ▸ hlocal s hold

/-- A root that existed before is returned, by a task that is rightly judged fresh, only
through a trusted name that held it. -/
theorem Eval.returns_of_fresh (hΔ : ∀ op, freshCall Δ op = true → freshCall Γ op = true)
    (h : Eval Γ ρ σ t σ' res) (hres : res = .value r) (hfresh : freshTask Δ params env t = true)
    (hclean : ¬Tainted Γ S (t.mark r)) (hr : r < σ.next) (hlocal : TrustedLocals env S ρ)
    (hA : TrustedBy env S r ρ A) : May Γ A (t.mark r) .returns := by
  induction h generalizing env S A with
  | @«local» _ _ s v hs =>
    cases hres
    exact .ref (hA s ⟨lookup_of_fresh hfresh, fun hmem => hclean (.ref hmem)⟩ hs)
  | @«global» _ _ s _ hs =>
    obtain ⟨v, hv⟩ := hlocal s ⟨lookup_of_fresh hfresh, fun hmem => hclean (.ref hmem)⟩
    rw [hs] at hv
    cases hv
  | literal _ hnew | quote _ hnew | bodyNil _ hnew =>
    cases hres
    exact absurd hr hnew.next_le.not_gt
  | vector hrs _ hnew | set hrs _ hnew | dict hrs _ hnew =>
    cases hres
    exact absurd (hr.trans_le hrs.le.next_le) hnew.next_le.not_gt
  | call hcs hrs hcalls =>
    cases hres
    have hnew := hcalls.fresh (hΔ _ (freshCall_of_fresh hfresh))
    exact absurd (hr.trans_le (hcs.le.trans hrs.le).next_le) hnew.next_le.not_gt
  | ifThen htest _ _ ih =>
    have hr₁ := hr.trans_le htest.le.next_le
    exact .thn (ih hres (freshTask_ifNode hfresh).1 (fun h => hclean (.thn h)) hr₁ hlocal hA)
  | ifElse htest _ _ ih =>
    have hr₁ := hr.trans_le htest.le.next_le
    exact .els (ih hres (freshTask_ifNode hfresh).2 (fun h => hclean (.els h)) hr₁ hlocal hA)
  | doNode _ ih =>
    simp only [freshTask, freshTailValueP] at hfresh
    exact .doNode (ih hres hfresh (fun h => hclean (.doNode h)) hr hlocal hA)
  | bindNode _ ih =>
    simp only [freshTask, freshTailValueP] at hfresh
    exact .bindNode (ih hres hfresh (fun h => hclean (.bindNode h)) hr hlocal hA)
  | bodyLast _ ih =>
    simp only [freshTask, freshLast] at hfresh
    exact .bodyLast (ih hres hfresh (fun h => hclean (.bodyLast h)) hr hlocal hA)
  | bodyCons hn _ _ ih =>
    rw [freshTask_bodyCons] at hfresh
    have hr₁ := hr.trans_le hn.le.next_le
    exact .bodyRest (ih hres hfresh (fun h => hclean (.bodyRest h)) hr₁ hlocal hA)
  | bindNil _ ih =>
    simp only [freshTask, freshBindings] at hfresh
    exact .bindNil (ih hres hfresh (fun h => hclean (.bindNil h)) hr hlocal hA)
  | @bindCons _ _ p init bs body _ v _ _ _ _ hinit hbinds _ ihinit ih =>
    rw [freshTask_bindCons] at hfresh
    obtain ⟨S', htainted, htrusted⟩ := trusted_step Γ Δ params env S p init
    have hr₂ := hr.trans_le (hinit.le.trans hbinds.le).next_le
    have hlocal' := trustedLocals_bound hbinds htrusted hlocal
    have hrest (B : List Symbol) :=
      ih (A := B) hres hfresh (fun h => hclean (htainted _ _ h)) hr₂ hlocal'
    by_cases hheld : v = r ∧ (freshTailValueP Δ params env init).1 = true ∧
        ¬Tainted Γ S (.node init)
    · obtain ⟨rfl, hinitFresh, hinitClean⟩ := hheld
      refine .bindHeld (ihinit rfl hinitFresh hinitClean hr hlocal hA) (hrest _ fun s hs hρ => ?_)
      rcases trusted_bound hbinds htrusted hs with ⟨rfl, -, -⟩ | ⟨-, hsame, hold⟩
      · exact List.mem_append_left _ List.mem_cons_self
      · exact List.mem_append_right _ (hA s hold (hsame ▸ hρ))
    · refine .bindOver (hrest _ fun s hs hρ => ?_)
      rcases trusted_bound hbinds htrusted hs with ⟨-, hv, hinit⟩ | ⟨hnot, hsame, hold⟩
      · rw [hv] at hρ
        exact absurd ⟨Option.some.inj hρ, hinit⟩ hheld
      · exact List.mem_filter.mpr ⟨hA s hold (hsame ▸ hρ), decide_eq_true hnot⟩
  | _ => simp [freshTask, freshTailValueP] at hfresh

/-- A root nobody has got hold of is returned, by a task that is rightly judged fresh, after
it was kept only along such a path. -/
theorem Eval.both_of_fresh (hΔ : ∀ op, freshCall Δ op = true → freshCall Γ op = true)
    (h : Eval Γ ρ σ t σ' res) (hres : res = .value r) (hfresh : freshTask Δ params env t = true)
    (hclean : ¬Tainted Γ S (t.mark r)) (hlocal : TrustedLocals env S ρ) (hr : σ.Secret r)
    (hA : HeldBy r ρ A) (hkept : r ∈ σ'.kept) : KeptThenReturned Γ A (t.mark r) := by
  induction h generalizing env S A with
  | «local» _ | «global» _ _ => exact absurd hkept hr.not_kept
  | literal _ hnew | quote _ hnew | bodyNil _ hnew | vector _ _ hnew | set _ _ hnew
  | dict _ _ hnew =>
    cases hres
    exact absurd hkept hnew.not_kept
  | call _ _ hcalls =>
    cases hres
    exact absurd hkept (hcalls.fresh (hΔ _ (freshCall_of_fresh hfresh))).not_kept
  | @ifThen _ _ _ _ _ σ₁ _ _ _ htest hthn _ ih =>
    obtain ⟨hthnFresh, -⟩ := freshTask_ifNode hfresh
    by_cases hr₁ : r ∈ σ₁.kept
    · refine .testThen ((htest.may hA hr).kept hr₁) ?_
      exact hthn.returns_of_fresh hΔ hres hthnFresh (fun h => hclean (.thn h))
        (hr.lt_next.trans_le htest.le.next_le) hlocal fun s _ => hA s
    · exact .thn (ih hres hthnFresh (fun h => hclean (.thn h)) hlocal (hr.mono htest.le hr₁) hA
        hkept)
  | @ifElse _ _ _ _ _ σ₁ _ _ _ htest hels _ ih =>
    obtain ⟨-, helsFresh⟩ := freshTask_ifNode hfresh
    by_cases hr₁ : r ∈ σ₁.kept
    · refine .testElse ((htest.may hA hr).kept hr₁) ?_
      exact hels.returns_of_fresh hΔ hres helsFresh (fun h => hclean (.els h))
        (hr.lt_next.trans_le htest.le.next_le) hlocal fun s _ => hA s
    · exact .els (ih hres helsFresh (fun h => hclean (.els h)) hlocal (hr.mono htest.le hr₁) hA
        hkept)
  | doNode _ ih =>
    simp only [freshTask, freshTailValueP] at hfresh
    exact .doNode (ih hres hfresh (fun h => hclean (.doNode h)) hlocal hr hA hkept)
  | bindNode _ ih =>
    simp only [freshTask, freshTailValueP] at hfresh
    exact .bindNode (ih hres hfresh (fun h => hclean (.bindNode h)) hlocal hr hA hkept)
  | bodyLast _ ih =>
    simp only [freshTask, freshLast] at hfresh
    exact .bodyLast (ih hres hfresh (fun h => hclean (.bodyLast h)) hlocal hr hA hkept)
  | @bodyCons _ _ _ _ _ σ₁ _ _ _ hn hns _ ih =>
    rw [freshTask_bodyCons] at hfresh
    by_cases hr₁ : r ∈ σ₁.kept
    · refine .bodyAfter ((hn.may hA hr).kept hr₁) ?_
      exact hns.returns_of_fresh hΔ hres hfresh (fun h => hclean (.bodyRest h))
        (hr.lt_next.trans_le hn.le.next_le) hlocal fun s _ => hA s
    · exact .bodyRest (ih hres hfresh (fun h => hclean (.bodyRest h)) hlocal (hr.mono hn.le hr₁) hA
        hkept)
  | bindNil _ ih =>
    simp only [freshTask, freshBindings] at hfresh
    exact .bindNil (ih hres hfresh (fun h => hclean (.bindNil h)) hlocal hr hA hkept)
  | @bindCons _ _ p init bs body σ₁ v ρ' _ _ _ hinit hbinds hrest ihinit ih =>
    rw [freshTask_bindCons] at hfresh
    obtain ⟨S', htainted, htrusted⟩ := trusted_step Γ Δ params env S p init
    have hlocal' := trustedLocals_bound hbinds htrusted hlocal
    have hclean' : ¬Tainted Γ S' (.bind bs body) := fun h => hclean (htainted _ _ h)
    have hvalue := hinit.may hA hr
    by_cases hr₁ : r ∈ σ₁.kept
    · -- kept by the init: from here on only trusted names can bring it back
      have hr₂ := hr.lt_next.trans_le (hinit.le.trans hbinds.le).next_le
      have hback (B : List Symbol) :=
      hrest.returns_of_fresh (A := B) hΔ hres hfresh hclean' hr₂ hlocal'
      by_cases hheld : v = r ∧ (freshTailValueP Δ params env init).1 = true ∧
          ¬Tainted Γ S (.node init)
      · obtain ⟨rfl, hinitFresh, hinitClean⟩ := hheld
        have hboth := ihinit rfl hinitFresh hinitClean hlocal hr hA hr₁
        refine .bindAfterHeld hboth (hback _ fun s hs hρ => ?_)
        rcases trusted_bound hbinds htrusted hs with ⟨rfl, -, -⟩ | ⟨-, hsame, -⟩
        · exact List.mem_append_left _ List.mem_cons_self
        · exact List.mem_append_right _ (hA s (hsame ▸ hρ))
      · refine .bindAfter (hvalue.kept hr₁) (hback _ fun s hs hρ => ?_)
        rcases trusted_bound hbinds htrusted hs with ⟨-, hv, hinit⟩ | ⟨hnot, hsame, -⟩
        · rw [hv] at hρ
          exact absurd ⟨Option.some.inj hρ, hinit⟩ hheld
        · exact List.mem_filter.mpr ⟨hA s (hsame ▸ hρ), decide_eq_true hnot⟩
    · obtain ⟨hr₂, hheld, hover⟩ :=
        hbinds.heldBy p.binds (hr.mono hinit.le hr₁) hA (by simp)
      by_cases hv : v = r
      · exact .bindHeld (hvalue.hit hr₁ .returns hv)
          (ih hres hfresh hclean' hlocal' hr₂ hheld hkept)
      · exact .bindOver (ih hres hfresh hclean' hlocal' hr₂ (hover (by simpa using hv)) hkept)
  | _ => simp [freshTask, freshTailValueP] at hfresh

/-- A root that no trusted name holds is not returned by a task that is rightly judged fresh,
unless the task allocates it. -/
theorem Eval.next_le_of_fresh (hΔ : ∀ op, freshCall Δ op = true → freshCall Γ op = true)
    (h : Eval Γ ρ σ t σ' (.value r)) (hfresh : freshTask Δ params env t = true)
    (hclean : ¬Tainted Γ S (t.mark r)) (hlocal : TrustedLocals env S ρ)
    (hρ : ∀ s, Trusted env S s → ρ s ≠ some r) : σ.next ≤ r := by
  by_contra hlt
  have hmay := h.returns_of_fresh (A := []) hΔ rfl hfresh hclean (not_le.mp hlt) hlocal
    fun s hs heq => absurd heq (hρ s hs)
  have hmarked := hmay.marked rfl
  cases t with
  | node | values | body | bind | conds | kids => exact hmarked
  | iterate | steps => simp [freshTask] at hfresh

/-- The names trusted hold roots from `base` on. -/
def TrustedFrom (env : FreshEnv) (S : List Symbol) (base : Root) (ρ : Locals) : Prop :=
  ∀ s v, Trusted env S s → ρ s = some v → base ≤ v

/-- A task that is rightly judged fresh returns a root allocated since `base`, and if the task
itself allocated it, nobody else has got hold of it. -/
theorem Eval.own_of_fresh (hΔ : ∀ op, freshCall Δ op = true → freshCall Γ op = true)
    (h : Eval Γ ρ σ t σ' res) (hres : res = .value r) (hfresh : freshTask Δ params env t = true)
    (hclean : ¬Tainted Γ S (t.mark r)) (hlocal : TrustedLocals env S ρ) (hρ : ρ.Below σ.next)
    (hown : TrustedFrom env S base ρ) (hbase : base ≤ σ.next) :
    base ≤ r ∧ (σ.next ≤ r → r ∉ σ'.kept) := by
  induction h generalizing env S r with
  | @«local» _ _ s v hs =>
    cases hres
    have htrusted : Trusted env S s := ⟨lookup_of_fresh hfresh, fun hmem => hclean (.ref hmem)⟩
    exact ⟨hown s v htrusted hs, fun hle => absurd (hρ s v hs) hle.not_gt⟩
  | @«global» _ _ s _ hs =>
    obtain ⟨v, hv⟩ := hlocal s ⟨lookup_of_fresh hfresh, fun hmem => hclean (.ref hmem)⟩
    rw [hs] at hv
    cases hv
  | literal _ hnew | quote _ hnew | bodyNil _ hnew =>
    cases hres
    exact ⟨hbase.trans hnew.next_le, fun _ => hnew.not_kept⟩
  | vector hrs _ hnew | set hrs _ hnew | dict hrs _ hnew =>
    cases hres
    exact ⟨(hbase.trans hrs.le.next_le).trans hnew.next_le, fun _ => hnew.not_kept⟩
  | call hcs hrs hcalls =>
    cases hres
    have hnew := hcalls.fresh (hΔ _ (freshCall_of_fresh hfresh))
    exact ⟨(hbase.trans (hcs.le.trans hrs.le).next_le).trans hnew.next_le, fun _ => hnew.not_kept⟩
  | ifThen htest hthn _ ih =>
    subst hres
    obtain ⟨hthnFresh, -⟩ := freshTask_ifNode hfresh
    have hclean' : ¬Tainted Γ S _ := fun h => hclean (.thn h)
    have hle := htest.le.next_le
    obtain ⟨hr, hkept⟩ := ih rfl hthnFresh hclean' hlocal (hρ.mono hle) hown (hbase.trans hle)
    refine ⟨hr, fun hnext => hkept ?_⟩
    exact hthn.next_le_of_fresh hΔ hthnFresh hclean' hlocal fun s _ hs =>
      absurd (hρ s r hs) hnext.not_gt
  | ifElse htest hels _ ih =>
    subst hres
    obtain ⟨-, helsFresh⟩ := freshTask_ifNode hfresh
    have hclean' : ¬Tainted Γ S _ := fun h => hclean (.els h)
    have hle := htest.le.next_le
    obtain ⟨hr, hkept⟩ := ih rfl helsFresh hclean' hlocal (hρ.mono hle) hown (hbase.trans hle)
    refine ⟨hr, fun hnext => hkept ?_⟩
    exact hels.next_le_of_fresh hΔ helsFresh hclean' hlocal fun s _ hs =>
      absurd (hρ s r hs) hnext.not_gt
  | doNode _ ih =>
    simp only [freshTask, freshTailValueP] at hfresh
    exact ih hres hfresh (fun h => hclean (.doNode h)) hlocal hρ hown hbase
  | bindNode _ ih =>
    simp only [freshTask, freshTailValueP] at hfresh
    exact ih hres hfresh (fun h => hclean (.bindNode h)) hlocal hρ hown hbase
  | bodyLast _ ih =>
    simp only [freshTask, freshLast] at hfresh
    exact ih hres hfresh (fun h => hclean (.bodyLast h)) hlocal hρ hown hbase
  | bodyCons hn hns _ ih =>
    subst hres
    rw [freshTask_bodyCons] at hfresh
    have hclean' : ¬Tainted Γ S _ := fun h => hclean (.bodyRest h)
    have hle := hn.le.next_le
    obtain ⟨hr, hkept⟩ := ih rfl hfresh hclean' hlocal (hρ.mono hle) hown (hbase.trans hle)
    refine ⟨hr, fun hnext => hkept ?_⟩
    exact hns.next_le_of_fresh hΔ hfresh hclean' hlocal fun s _ hs =>
      absurd (hρ s r hs) hnext.not_gt
  | bindNil _ ih =>
    simp only [freshTask, freshBindings] at hfresh
    exact ih hres hfresh (fun h => hclean (.bindNil h)) hlocal hρ hown hbase
  | @bindCons ρ σ p init bs body σ₁ v ρ' σ₂ σ' _ hinit hbinds hrest ihinit ih =>
    subst hres
    rw [freshTask_bindCons] at hfresh
    obtain ⟨S', htainted, htrusted⟩ := trusted_step Γ Δ params env S p init
    have hlocal' := trustedLocals_bound hbinds htrusted hlocal
    have hclean' : ¬Tainted Γ S' (.bind bs body) := fun h => hclean (htainted _ _ h)
    have hle := (hinit.le.trans hbinds.le).next_le
    have hown' : TrustedFrom (env.extend Δ params p init) S' base ρ' := by
      intro s w hs hw
      rcases trusted_bound hbinds htrusted hs with ⟨-, hv, hinitFresh, hinitClean⟩ |
        ⟨-, hsame, hold⟩
      · cases hv.symm.trans hw
        exact (ihinit rfl hinitFresh hinitClean hlocal hρ hown hbase).1
      · exact hown s w hold (hsame ▸ hw)
    have hbelow := hbinds.below (hρ.mono hinit.le.next_le)
    obtain ⟨hr, hkept⟩ := ih rfl hfresh hclean' hlocal' hbelow hown' (hbase.trans hle)
    refine ⟨hr, fun hnext hmem => ?_⟩
    -- the root is new to the bind; if not the rest's own, it is the value just bound
    have hheld : ∃ s, Trusted (env.extend Δ params p init) S' s ∧ ρ' s = some r := by
      by_contra hnone
      push Not at hnone
      exact hkept (hrest.next_le_of_fresh hΔ hfresh hclean' hlocal' hnone) hmem
    obtain ⟨s, hs, hρ's⟩ := hheld
    rcases trusted_bound hbinds htrusted hs with ⟨rfl, hv, hinitFresh, hinitClean⟩ | ⟨-, hsame, -⟩
    · cases hv.symm.trans hρ's
      have hsecret : σ₁.Secret v := ⟨hinit.lt_next hρ trivial,
        (ihinit rfl hinitFresh hinitClean hlocal hρ hown hbase).2 hnext⟩
      have hnobody : HeldBy v ρ [] := fun s' hs' => absurd (hρ s' v hs') hnext.not_gt
      obtain ⟨hsecret', hheldBy, -⟩ := hbinds.heldBy [s] hsecret hnobody (by simp [Pattern.binds])
      exact hclean (.bindKept
        (hrest.both_of_fresh hΔ rfl hfresh hclean' hlocal' hsecret' hheldBy hmem))
    · exact absurd (hρ s r (hsame ▸ hρ's)) hnext.not_gt
  | _ => simp [freshTask, freshTailValueP] at hfresh

end Runs

/-! ## §4 Inference -/

/-- The environment a function runs in once its summary is known under its name. -/
def Env.withSummary (Γ : Env) (name : Option Symbol) (summary : EscapeSummary) : Env :=
  match name with
  | some f => Γ.assume f summary
  | none => Γ

section Inference

variable {Γ : Env} {name : Option Symbol} {params : Params} {body : List Ast}

theorem freshCall_assume {f : Symbol} {F c : EscapeSummary} (hF : F.returnsFresh = true) {Δ : Env}
    (hΔ : Δ = Γ ∨ Δ = Γ.assume f c) (op : Option Symbol)
    (h : freshCall Δ op = true) : freshCall (Γ.assume f F) op = true := by
  cases op with
  | none => cases h
  | some s =>
    simp only [freshCall, Option.bind_some, lookupSummary_assume] at h ⊢
    cases hself : callsSelf (some f) (some s) with
    | true => simpa using hF
    | false =>
      rcases hΔ with rfl | rfl
      · simpa using h
      · simpa [lookupSummary_assume, hself] using h

theorem returnsFresh_of_join {s₁ s₂ : EscapeSummary}
    (h : (EscapeSummary.summaryJoin s₁ s₂).returnsFresh = true) : s₂.returnsFresh = true := by
  rw [EscapeSummary.summaryJoin, EscapeSummary.joinFresh] at h
  by_cases hnever : (s₁.neverFresh || s₂.neverFresh) = true
  · rw [if_pos hnever] at h
    cases h
  · rw [if_neg hnever] at h
    by_cases hboth : (s₁.returnsFresh && s₂.returnsFresh) = true
    · exact ((Bool.and_eq_true _ _).mp hboth).2
    · rw [if_neg hboth] at h
      cases h

/-- A summary found fresh is found so by a pass over the body. -/
theorem inferRounds_fresh {f : Symbol} {rounds : Nat} {cur F : EscapeSummary}
    (h : inferRounds Γ f params body rounds cur = some F) (hF : F.returnsFresh = true) :
    ∃ cur', (freshLast (Γ.assume f cur') params.names [] body).1 = true := by
  induction rounds generalizing cur with
  | zero => cases h
  | succ rounds ih =>
    rw [inferRounds] at h
    cases hle : EscapeSummary.summaryLe (EscapeSummary.summaryJoin cur
        (inferSummarySinglePass (Γ.assume f cur) params body)) cur with
    | true =>
      rw [hle, if_pos rfl] at h
      cases h
      exact ⟨cur, returnsFresh_of_join hF⟩
    | false =>
      rw [hle, if_neg Bool.false_ne_true] at h
      exact ih h

theorem inferSummary_fresh (h : (inferSummary Γ name params body).returnsFresh = true) :
    ∃ Δ, (freshLast Δ params.names [] body).1 = true ∧ Δ.persistentClass = Γ.persistentClass ∧
      ∀ op, freshCall Δ op = true →
        freshCall (Γ.withSummary name (inferSummary Γ name params body)) op = true := by
  cases name with
  | none => exact ⟨Γ, h, rfl, fun op hop => hop⟩
  | some f =>
    cases hname : assumedName (some f) params body with
    | none =>
      refine ⟨Γ, ?_, rfl,
        fun op => freshCall_assume (c := conservativeSummary params body) h (.inl rfl) op⟩
      rw [inferSummary_of_none hname] at h
      exact h
    | some g =>
      obtain ⟨hg, -⟩ := Option.filter_eq_some_iff.mp hname
      cases hg
      have hF := h
      rw [inferSummary_of_some hname] at hF
      cases hrounds : inferRounds Γ f params body 5 (optimisticSummary params body) with
      | none =>
        rw [hrounds] at hF
        cases hF
      | some F =>
        rw [hrounds] at hF
        obtain ⟨cur, hcur⟩ := inferRounds_fresh hrounds hF
        exact ⟨Γ.assume f cur, hcur, rfl, fun op => freshCall_assume h (.inr rfl) op⟩

theorem trustedLocals_nil {ρ : Locals} : TrustedLocals [] [] ρ := by
  intro s hs
  cases hs.fresh

/-- A function inferred to return fresh, whose tail returns nothing tainted, returns in every
run a root that was allocated in it, that no global variable is bound to, and that was
neither stored nor given to a call that may have retained it. -/
theorem returns_fresh_sound (hfresh : (inferSummary Γ name params body).returnsFresh = true)
    (hclean : ¬Tainted (Γ.withSummary name (inferSummary Γ name params body)) [] (.body body))
    {args : List Root} {σ σ' : Roots} {r : Root}
    (h : Returns (Γ.withSummary name (inferSummary Γ name params body)) params body args σ σ' r) :
    r ∉ args ∧ r ∉ σ.kept ∧ r ∉ σ'.globals ∧ r ∉ σ'.kept := by
  obtain ⟨Δ, hjudged, -, hΔ⟩ := inferSummary_fresh hfresh
  have hnew : σ.next ≤ r ∧ (∀ a ∈ args, a < σ.next) ∧ r ∉ σ'.kept := by
    induction h with
    | @value _ _ ρ _ _ _ hargs hbinds hbody =>
      have hbelow := hbinds.below (ρ := fun _ => none) (fun s v hv => nomatch hv)
      obtain ⟨hle, hkept⟩ := hbody.own_of_fresh (t := .body body) hΔ rfl hjudged hclean
        trustedLocals_nil hbelow (fun s v hs _ => nomatch hs.fresh) le_rfl
      exact ⟨hbinds.le.next_le.trans hle, hargs, hkept hle⟩
    | again hargs hbinds hbody _ ih =>
      obtain ⟨hle, -, hkept⟩ := ih
      exact ⟨((hbinds.le.trans hbody.le).next_le).trans hle, hargs, hkept⟩
  obtain ⟨hle, hargs, hkept⟩ := hnew
  refine ⟨fun hmem => (hargs r hmem).not_ge hle, fun hmem => (σ.kept_lt r hmem).not_ge hle, ?_,
    hkept⟩
  exact fun hglobal => hkept (σ'.globals_kept hglobal)

theorem not_tainted_count :
    ¬Tainted {} [] (.body [.bind [(.symbol { name := "X" }, .dict [])]
      [.call (.symbolRef { name := "COUNT" }) [.symbolRef { name := "X" }],
        .symbolRef { name := "X" }]]) := by
  intro h
  cases h with
  | bodyRest h => cases h
  | bodyLast h =>
  cases h with | bindNode h =>
  cases h with
  | bindTainted h _ => cases h
  | bindSymbol h =>
    cases h with | bindNil h =>
    cases h with | bodyRest h =>
    cases h with
    | bodyRest h => cases h
    | bodyLast h => cases h with | ref hs => exact absurd hs List.not_mem_nil
  | bindKept h =>
    cases h with | bindNil h =>
    cases h with
    | bodyRest h =>
      cases h with
      | bodyLast h => cases h
      | bodyAfter h => cases h
      | bodyRest h => cases h
    | bodyAfter h _ =>
      cases h with
      | callee h => cases h
      | args h => cases h with
        | valuesFirst h => cases h
        | valuesRest h => cases h
      | passed h hmay => cases h with
        | itemFirst h => exact absurd hmay (by decide)
        | itemRest h => cases h

/-- `n` roots, of which the rest of the program has those of `X`. -/
def Roots.of (n : Nat) (X : Set Root) (h : ∀ r ∈ X, r < n) : Roots :=
  ⟨n, X, ∅, Set.empty_subset X, h⟩

theorem Roots.Keeps.refl (X : Set Root) (σ : Roots) : Roots.Keeps X σ σ :=
  ⟨le_rfl, Set.Subset.rfl, fun _ => .inl⟩

theorem Binds.nil (ρ : Locals) (σ : Roots) : Binds [] ρ σ ρ σ where
  keeps := .refl ∅ σ
  symbols := nofun
  names := nofun
  source := nofun
  others := fun _ _ => rfl

/-- A pattern of one name takes the value itself. -/
theorem Binds.one {p : Pattern} {x : Symbol} (hp : p.binds = [x]) {v : Root} {ρ : Locals}
    {σ : Roots} (hv : v < σ.next) :
    Binds [(p, v)] ρ σ (fun s => if s = x then some v else ρ s) σ where
  keeps := .refl ∅ σ
  symbols y r hmem := by
    cases List.mem_singleton.mp hmem
    rw [Pattern.binds, List.singleton_inj] at hp
    exact if_pos hp
  names b hb s hs := by
    cases List.mem_singleton.mp hb
    rw [hp, List.mem_singleton] at hs
    exact ⟨v, if_pos hs⟩
  source s r hb hr := by
    obtain ⟨b, hb, hs⟩ := hb
    cases List.mem_singleton.mp hb
    have hx := List.mem_singleton.mp (hp ▸ hs)
    rw [if_pos hx] at hr
    cases hr
    exact ⟨hv, .inr (.inl ⟨_, List.mem_singleton_self _, hs, rfl⟩)⟩
  others s hs := by
    have hne := hs _ (List.mem_singleton_self _)
    rw [hp, List.mem_singleton] at hne
    exact if_neg hne

/-- `(fn [] (bind [x {}] (count x) x))` returns a root of its own. -/
theorem returns_fresh_sound_count :
    let body : List Ast := [.bind [(.symbol { name := "X" }, .dict [])]
      [.call (.symbolRef { name := "COUNT" }) [.symbolRef { name := "X" }],
        .symbolRef { name := "X" }]]
    ∃ σ σ', Returns {} ⟨[], false⟩ body [] σ σ' 0 ∧
      0 ∉ [] ∧ 0 ∉ σ.kept ∧ 0 ∉ σ'.globals ∧ 0 ∉ σ'.kept := by
  intro body
  have hkeeps (X : Set Root) (n : Nat) : Roots.Keeps X (.of n ∅ nofun) (.of (n + 1) ∅ nofun) :=
    ⟨Nat.le_succ n, Set.Subset.rfl, nofun⟩
  have hnew (n : Nat) : Roots.New (.of n ∅ nofun) (.of (n + 1) ∅ nofun) n :=
    ⟨le_rfl, Nat.lt_succ_self n, id⟩
  have hcalls : Roots.Calls {} (some { name := "COUNT" }) [0] (.of 1 ∅ nofun) (.of 2 ∅ nofun) 1 :=
    ⟨hkeeps _ 1, fun _ => hnew 1, fun h => absurd h (by decide)⟩
  have hrun : Returns {} ⟨[], false⟩ body [] (.of 0 ∅ nofun) (.of 2 ∅ nofun) 0 := by
    refine .value nofun (Binds.nil _ _) (.bodyLast (.bindNode (.bindCons ?_ (.one rfl ?_) (.bindNil
      (.bodyCons (.call .valuesNil (.valuesCons (.local rfl) .valuesNil) hcalls)
        (.bodyLast (.local rfl)))))))
    · exact .dict .valuesNil ⟨hkeeps _ 0, nofun⟩ (hnew 0)
    · exact Nat.zero_lt_one
  have hfresh : (inferSummary {} none ⟨[], false⟩ body).returnsFresh = true := by decide +kernel
  have hclean : ¬Tainted (Env.withSummary {} none (inferSummary {} none ⟨[], false⟩ body)) []
      (.body body) := not_tainted_count
  exact ⟨_, _, hrun, returns_fresh_sound hfresh hclean hrun⟩

/-- `(fn [] (bind [x {}] (register x) x))` returns what it has given away, and
`(fn [p] (bind [x {} [_ :as x] p] x))`, where the pattern takes over `x`, its own argument. -/
theorem returned_root_not_own :
    let x : Symbol := { name := "X" }
    let p : Symbol := { name := "P" }
    let registers : List Ast := [.bind [(.symbol x, .dict [])]
      [.call (.symbolRef { name := "REGISTER" }) [.symbolRef x], .symbolRef x]]
    let destructures : List Ast := [.bind [(.symbol x, .dict []), (.tree [] [x], .symbolRef p)]
      [.symbolRef x]]
    ((inferSummary {} none ⟨[], false⟩ registers).returnsFresh = true ∧
      ∃ σ σ' r, Returns {} ⟨[], false⟩ registers [] σ σ' r ∧ r ∈ σ'.kept) ∧
    ((inferSummary {} none ⟨[.symbol p], false⟩ destructures).returnsFresh = true ∧
      ∃ σ σ' r, Returns {} ⟨[.symbol p], false⟩ destructures [r] σ σ' r) := by
  intro x p registers destructures
  have hkeeps (X Y : Set Root) (n : Nat) (h : ∀ r ∈ Y, r < n) :
      Roots.Keeps X (.of n Y h) (.of (n + 1) Y fun r hr => (h r hr).trans n.lt_succ_self) :=
    ⟨Nat.le_succ n, Set.Subset.rfl, fun _ => .inl⟩
  constructor
  · refine ⟨by decide, .of 0 ∅ nofun, .of 2 {0} (by simp), 0, ?_, Set.mem_singleton 0⟩
    have hcalls : Roots.Calls {} (some { name := "REGISTER" }) [0] (.of 1 ∅ nofun)
        (.of 2 {0} (by simp)) 1 := by
      refine ⟨⟨Nat.le_succ 1, nofun, ?_⟩, fun h => absurd h (by decide), fun _ => ?_⟩
      · rintro r rfl
        exact .inr (.inl ⟨0, rfl, by decide⟩)
      · exact ⟨Nat.lt_succ_self 1, .inr (.inr le_rfl)⟩
    refine .value nofun (Binds.nil _ _) (.bodyLast (.bindNode (.bindCons ?_ (.one rfl ?_) (.bindNil
      (.bodyCons (.call .valuesNil (.valuesCons (.local rfl) .valuesNil) hcalls)
        (.bodyLast (.local rfl)))))))
    · exact .dict .valuesNil ⟨hkeeps _ ∅ 0 nofun, nofun⟩ ⟨le_rfl, Nat.zero_lt_one, id⟩
    · exact Nat.zero_lt_one
  · refine ⟨by decide, .of 1 {0} (by simp), .of 2 {0} (by simp), 0, ?_⟩
    refine .value (by simp [Roots.of]) (.one rfl Nat.zero_lt_one) (.bodyLast
      (.bindNode (.bindCons ?_
      (.one rfl (Nat.lt_succ_self 1)) (.bindCons (.local rfl) (.one rfl Nat.zero_lt_two)
        (.bindNil (.bodyLast (.local rfl)))))))
    refine .dict .valuesNil ⟨hkeeps _ {0} 1 (by simp), nofun⟩ ⟨le_rfl, Nat.lt_succ_self 1, ?_⟩
    exact Nat.one_ne_zero

end Inference

end Fol.Escape

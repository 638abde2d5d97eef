/-
Fol.Escape.MayKeep — what may become of the value some variables hold, read off the text of
a form: it may be the form's value, or be handed to a `recur`, or come to be stored or given
to a call that may retain it.

The variables that may hold the value are followed through the bindings in between, along
every path of the form. `Eval.may` shows that a run does to a root nobody has got hold of
yet only what the text says.

  §1 Text — `Fate`, `May`.
  §2 Runs — `Eval.may`.
-/
import Fol.Escape.Runs

namespace Fol.Escape

/-! ## §1 Text -/

/-- What may become of the value: it is returned, it is the value with this number of a list,
it is handed to a `recur`, it is kept. -/
inductive Fate where
  | returns
  | item (i : Nat)
  | recurs
  | keeps

/-- `names` without those a binding takes over. -/
def without (names bound : List Symbol) : List Symbol := names.filter (· ∉ bound)

/-- `May Γ A t e`: on some path through the task, `e` becomes of the value the variables of
`A` may hold, and the values of the task marked `true` are. -/
inductive May (Γ : Env) : List Symbol → Task Bool → Fate → Prop where
  | ref {A s} : s ∈ A → May Γ A (.node (.symbolRef s)) .returns
  | callee {A op args} : May Γ A (.values (calleeParts op)) .keeps →
      May Γ A (.node (.call op args)) .keeps
  | args {A op args} : May Γ A (.values args) .keeps → May Γ A (.node (.call op args)) .keeps
  | passed {A op args i} : May Γ A (.values args) (.item i) →
      mayKeep Γ (Ast.call op args).operatorSymbol i = true → May Γ A (.node (.call op args)) .keeps
  | result {A op args i} : May Γ A (.values args) (.item i) →
      freshCall Γ (Ast.call op args).operatorSymbol = false →
      May Γ A (.node (.call op args)) .returns
  | test {A test thn els} :
      May Γ A (.node test) .keeps → May Γ A (.node (.ifNode test thn els)) .keeps
  | thn {A test thn els e} : May Γ A (.node thn) e → May Γ A (.node (.ifNode test thn els)) e
  | els {A test thn els e} : May Γ A (.body els) e → May Γ A (.node (.ifNode test thn els)) e
  | doNode {A body e} : May Γ A (.body body) e → May Γ A (.node (.doNode body)) e
  | bindNode {A bindings body e} : May Γ A (.bind bindings body) e →
      May Γ A (.node (.bind bindings body)) e
  | letfnCaptured {A bindings body s} : s ∈ freeRefs (.letfn bindings []) → s ∈ A →
      May Γ A (.node (.letfn bindings body)) .keeps
  | letfnBody {A bindings body e} : May Γ (without A (bindings.map (·.1))) (.body body) e →
      May Γ A (.node (.letfn bindings body)) e
  | captured {A name clauses s} : s ∈ freeRefs (.fn name clauses) → s ∈ A →
      May Γ A (.node (.fn name clauses)) .keeps
  | loopInits {A bindings body} : May Γ A (.values (bindings.map (·.2))) .keeps →
      May Γ A (.node (.loop bindings body)) .keeps
  | loopHeld {A bindings body i e} : May Γ A (.values (bindings.map (·.2))) (.item i) →
      May Γ A (.iterate (bindings.map (·.1)) body [true]) e →
      May Γ A (.node (.loop bindings body)) e
  | loopBody {A bindings body e} : May Γ A (.iterate (bindings.map (·.1)) body []) e →
      May Γ A (.node (.loop bindings body)) e
  | recurArgs {A args} : May Γ A (.values args) .keeps → May Γ A (.node (.recur args)) .keeps
  | recurItem {A args i} : May Γ A (.values args) (.item i) → May Γ A (.node (.recur args)) .recurs
  | caseExpr {A expr clauses} :
      May Γ A (.node expr) .keeps → May Γ A (.node (.case expr clauses)) .keeps
  | caseBody {A expr clauses c e} : c ∈ clauses → May Γ A (.body c.2) e →
      May Γ A (.node (.case expr clauses)) e
  | cond {A clauses e} : May Γ A (.conds clauses) e → May Γ A (.node (.cond clauses)) e
  | threadKeeps {A f forms} :
      May Γ A (.node f) .keeps → May Γ A (.node (.threadFirst (f :: forms))) .keeps
  | threadHeld {A f forms e} : May Γ A (.node f) .returns → May Γ A (.steps true forms) e →
      May Γ A (.node (.threadFirst (f :: forms))) e
  | threadSteps {A f forms e} : May Γ A (.steps false forms) e →
      May Γ A (.node (.threadFirst (f :: forms))) e
  | vectorKeeps {A ns} : May Γ A (.values ns) .keeps → May Γ A (.node (.vector ns)) .keeps
  | vectorItem {A ns i} : May Γ A (.values ns) (.item i) → May Γ A (.node (.vector ns)) .keeps
  | setKeeps {A ns} : May Γ A (.values ns) .keeps → May Γ A (.node (.set ns)) .keeps
  | setItem {A ns i} : May Γ A (.values ns) (.item i) → May Γ A (.node (.set ns)) .keeps
  | dictKeeps {A es} : May Γ A (.values (es.flatMap fun e => [e.1, e.2])) .keeps →
      May Γ A (.node (.dict es)) .keeps
  | dictItem {A es i} : May Γ A (.values (es.flatMap fun e => [e.1, e.2])) (.item i) →
      May Γ A (.node (.dict es)) .keeps
  | other {A ks e} : May Γ A (.kids ks) e → May Γ A (.node (.other ks)) e
  -- forms for their values
  | valuesFirst {A n ns} : May Γ A (.node n) .keeps → May Γ A (.values (n :: ns)) .keeps
  | valuesRest {A n ns} : May Γ A (.values ns) .keeps → May Γ A (.values (n :: ns)) .keeps
  | itemFirst {A n ns} : May Γ A (.node n) .returns → May Γ A (.values (n :: ns)) (.item 0)
  | itemRest {A n ns i} :
      May Γ A (.values ns) (.item i) → May Γ A (.values (n :: ns)) (.item (i + 1))
  -- the forms of a body
  | bodyLast {A n e} : May Γ A (.node n) e → May Γ A (.body [n]) e
  | bodyFirst {A n ns} : May Γ A (.node n) .keeps → May Γ A (.body (n :: ns)) .keeps
  | bodyRest {A n ns e} : May Γ A (.body ns) e → May Γ A (.body (n :: ns)) e
  -- the bindings of a `bind`: on a path where the value is bound, its new names hold it
  | bindNil {A body e} : May Γ A (.body body) e → May Γ A (.bind [] body) e
  | bindInit {A p init bs body} : May Γ A (.node init) .keeps →
      May Γ A (.bind ((p, init) :: bs) body) .keeps
  | bindHeld {A p init bs body e} : May Γ A (.node init) .returns →
      May Γ (p.binds ++ A) (.bind bs body) e → May Γ A (.bind ((p, init) :: bs) body) e
  | bindOver {A p init bs body e} : May Γ (without A p.binds) (.bind bs body) e →
      May Γ A (.bind ((p, init) :: bs) body) e
  -- the rounds of a `loop`
  | iterateHeld {A ps body vs e} : true ∈ vs → e ≠ .recurs →
      May Γ (ps.flatMap Pattern.binds ++ A) (.body body) e → May Γ A (.iterate ps body vs) e
  | iterateOver {A ps body vs e} : e ≠ .recurs →
      May Γ (without A (ps.flatMap Pattern.binds)) (.body body) e → May Γ A (.iterate ps body vs) e
  | iterateRecur {A ps body vs e} :
      May Γ (without A (ps.flatMap Pattern.binds)) (.body body) .recurs →
      May Γ A (.iterate ps body [true]) e → May Γ A (.iterate ps body vs) e
  | iterateRecurHeld {A ps body vs e} : true ∈ vs →
      May Γ (ps.flatMap Pattern.binds ++ A) (.body body) .recurs →
      May Γ A (.iterate ps body [true]) e → May Γ A (.iterate ps body vs) e
  | iterateNext {A ps body vs e} : May Γ A (.iterate ps body []) e → May Γ A (.iterate ps body vs) e
  -- the clauses of a `cond`
  | condTest {A test body cs} :
      May Γ A (.node test) .keeps → May Γ A (.conds ((test, body) :: cs)) .keeps
  | condBody {A test body cs e} : May Γ A (.body body) e → May Γ A (.conds ((test, body) :: cs)) e
  | condNext {A test body cs e} : May Γ A (.conds cs) e → May Γ A (.conds ((test, body) :: cs)) e
  -- the steps of a threading form
  | stepsNil {A} : May Γ A (.steps true []) .returns
  | stepCallee {A b n ns} : May Γ A (.values (calleeParts (stepOperator n))) .keeps →
      May Γ A (.steps b (n :: ns)) .keeps
  | stepArgs {A b n ns} : May Γ A (.values (stepArgs n)) .keeps → May Γ A (.steps b (n :: ns))
      .keeps
  | stepThreaded {A n ns} :
      mayKeep Γ (Ast.call (stepOperator n) (stepArgs n)).operatorSymbol 0 = true →
      May Γ A (.steps true (n :: ns)) .keeps
  | stepPassed {A b n ns i} : May Γ A (.values (stepArgs n)) (.item i) →
      mayKeep Γ (Ast.call (stepOperator n) (stepArgs n)).operatorSymbol (i + 1) = true →
      May Γ A (.steps b (n :: ns)) .keeps
  | stepThrough {A n ns e} :
      freshCall Γ (Ast.call (stepOperator n) (stepArgs n)).operatorSymbol = false →
      May Γ A (.steps true ns) e → May Γ A (.steps true (n :: ns)) e
  | stepResult {A b n ns i e} : May Γ A (.values (stepArgs n)) (.item i) →
      freshCall Γ (Ast.call (stepOperator n) (stepArgs n)).operatorSymbol = false →
      May Γ A (.steps true ns) e → May Γ A (.steps b (n :: ns)) e
  | stepNext {A b n ns e} : May Γ A (.steps false ns) e → May Γ A (.steps b (n :: ns)) e
  -- the children of a node of another kind
  | kidNext {A k ks e} : May Γ A (.kids ks) e → May Γ A (.kids (k :: ks)) e
  | kidKept {A step binds n ks} : May Γ (without A binds) (.node n) .returns →
      May Γ A (.kids ((step, binds, n) :: ks)) .keeps
  | kid {A step binds n ks e} : May Γ (without A binds) (.node n) e →
      May Γ A (.kids ((step, binds, n) :: ks)) e

/-- The task has the value among its own. -/
def Task.Marked : Task Bool → Prop
  | .iterate _ _ vs => true ∈ vs
  | .steps v _ => v = true
  | _ => False

/-- Without variables to hold it nothing becomes of a value the task does not have. -/
theorem May.marked {Γ : Env} {A : List Symbol} {t : Task Bool} {e : Fate} (h : May Γ A t e)
    (hA : A = []) : t.Marked := by
  induction h with
  | ref hs | letfnCaptured _ hs | captured _ hs => exact absurd (hA ▸ hs) List.not_mem_nil
  | iterateHeld hmem | iterateRecurHeld hmem => exact hmem
  | stepsNil | stepThreaded | stepThrough => rfl
  -- otherwise it becomes something of a part that does not have it, under no more names
  | _ => simp_all [Task.Marked, without]

/-! ## §2 Runs -/

/-- The values that are the root, marked. -/
def Task.mark (r : Root) : Task Root → Task Bool
  | .node n => .node n
  | .values ns => .values ns
  | .body ns => .body ns
  | .bind bs forms => .bind bs forms
  | .iterate ps forms rs => .iterate ps forms (rs.map (· == r))
  | .conds clauses => .conds clauses
  | .steps v forms => .steps (v == r) forms
  | .kids ks => .kids ks

/-- The result has the root there. -/
def Result.Hits (r : Root) : Result → Fate → Prop
  | .value v, .returns => v = r
  | .again rs, .recurs => r ∈ rs
  | .values rs, .item i => rs[i]? = some r
  | _, _ => False

/-- All the variables that hold the root. -/
def HeldBy (r : Root) (ρ : Locals) (A : List Symbol) : Prop := ∀ s, ρ s = some r → s ∈ A

/-- Nobody has got hold of the root yet. -/
structure Roots.Secret (σ : Roots) (r : Root) : Prop where
  lt_next : r < σ.next
  not_kept : r ∉ σ.kept

/-- What a run did to the root is what the text says. -/
structure Told (Γ : Env) (r : Root) (A : List Symbol) (t : Task Bool) (σ' : Roots) (res : Result) :
    Prop where
  kept : r ∈ σ'.kept → May Γ A t .keeps
  hit : r ∉ σ'.kept → ∀ e, res.Hits r e → May Γ A t e

section Runs

variable {Γ : Env} {r : Root} {A : List Symbol} {σ σ₁ σ' : Roots}

theorem Roots.Secret.mono (h : σ.Secret r) (hle : σ.Le σ') (hkept : r ∉ σ'.kept) : σ'.Secret r :=
  ⟨h.lt_next.trans_le hle.next_le, hkept⟩

theorem Roots.Secret.mem_of_keeps {X : Set Root} (h : σ.Secret r) (hkeeps : Roots.Keeps X σ σ')
    (hr : r ∈ σ'.kept) : r ∈ X := by
  rcases hkeeps.kept_new r hr with hold | hX | hnew
  · exact absurd hold h.not_kept
  · exact hX
  · exact absurd h.lt_next hnew.not_gt

theorem Roots.Secret.ne_new {v : Root} (h : σ.Secret r) (hnew : Roots.New σ σ' v) : v ≠ r :=
  fun heq => absurd h.lt_next (heq ▸ hnew.next_le).not_gt

theorem Roots.Secret.mem_of_from {X : Set Root} (h : σ.Secret r) (hfrom : Roots.From X σ σ' r)
    (hr : r ∉ σ'.kept) : r ∈ X := by
  rcases hfrom.source with hkept | hX | hnew
  · exact absurd hkept hr
  · exact hX
  · exact absurd h.lt_next hnew.not_gt

/-- A step in front: either it already gave the root away, or the rest is told. -/
theorem Told.seq {B : List Symbol} {t t₁ : Task Bool} {res res₁ : Result}
    (h₁ : Told Γ r B t₁ σ₁ res₁) (hsub : May Γ B t₁ .keeps → May Γ A t .keeps) (hle : σ₁.Le σ')
    (h : r ∉ σ₁.kept → Told Γ r A t σ' res) : Told Γ r A t σ' res := by
  by_cases hr : r ∈ σ₁.kept
  · exact ⟨fun _ => hsub (h₁.kept hr), fun hr' => absurd (hle.kept_le hr) hr'⟩
  · exact h hr

theorem Told.imp {t t₁ : Task Bool} {res : Result} {B : List Symbol} (h : Told Γ r B t₁ σ' res)
    (hsub : ∀ e, May Γ B t₁ e → May Γ A t e) : Told Γ r A t σ' res :=
  ⟨fun hr => hsub _ (h.kept hr), fun hr e he => hsub _ (h.hit hr e he)⟩

/-- A last step that allocates its value. -/
theorem Told.of_new {X : Set Root} {t : Task Bool} {v : Root} (hr : σ.Secret r)
    (hkeeps : Roots.Keeps X σ σ') (hnew : Roots.New σ σ' v) (hX : r ∈ X → May Γ A t .keeps) :
    Told Γ r A t σ' (.value v) := by
  refine ⟨fun hkept => hX (hr.mem_of_keeps hkeeps hkept), fun _ e he => ?_⟩
  cases e with
  | returns => exact absurd he (hr.ne_new hnew)
  | item | recurs | keeps => exact he.elim

theorem HeldBy.without {ρ ρ' : Locals} {names : List Symbol} (h : HeldBy r ρ A)
    (hin : ∀ s ∈ names, ρ' s ≠ some r) (hout : ∀ s, s ∉ names → ρ' s = ρ s) :
    HeldBy r ρ' (without A names) := by
  intro s hs
  have hnot : s ∉ names := fun hmem => hin s hmem hs
  rw [hout s hnot] at hs
  exact List.mem_filter.mpr ⟨h s hs, decide_eq_true hnot⟩

theorem HeldBy.append {ρ ρ' : Locals} {names : List Symbol} (h : HeldBy r ρ A)
    (hout : ∀ s, s ∉ names → ρ' s = ρ s) : HeldBy r ρ' (names ++ A) := by
  intro s hs
  by_cases hmem : s ∈ names
  · exact List.mem_append_left _ hmem
  · rw [hout s hmem] at hs
    exact List.mem_append_right _ (h s hs)

theorem BindsNew.heldBy {names : List Symbol} {ρ ρ' : Locals} (h : BindsNew names ρ σ ρ' σ')
    (hr : σ.Secret r) (hA : HeldBy r ρ A) : σ'.Secret r ∧ HeldBy r ρ' (Escape.without A names) := by
  have hkept : r ∉ σ'.kept := fun hkept => hr.mem_of_keeps h.keeps hkept
  refine ⟨hr.mono h.le hkept, hA.without (fun s hs heq => ?_) h.others⟩
  exact hr.mem_of_from (h.source s hs r heq) hkept

/-- The names that take the root hold it, and if none does, they hold something else. -/
theorem Binds.heldBy {bound : List (Pattern × Root)} {ρ ρ' : Locals}
    (h : Binds bound ρ σ ρ' σ') (names : List Symbol) (hr : σ.Secret r) (hA : HeldBy r ρ A)
    (hnames : ∀ s, s ∈ names ↔ ∃ b ∈ bound, s ∈ b.1.binds) :
    σ'.Secret r ∧ HeldBy r ρ' (names ++ A) ∧
      ((∀ b ∈ bound, b.2 ≠ r) → HeldBy r ρ' (Escape.without A names)) := by
  have hkept : r ∉ σ'.kept := fun hkept => hr.mem_of_keeps h.keeps hkept
  have hothers : ∀ s, s ∉ names → ρ' s = ρ s := by
    intro s hs
    refine h.others s fun b hb hmem => hs ((hnames s).mpr ⟨b, hb, hmem⟩)
  refine ⟨hr.mono h.le hkept, hA.append hothers, fun hne => hA.without (fun s hs heq => ?_) hothers⟩
  obtain ⟨b, hb, -, hbr⟩ := hr.mem_of_from (h.source s r ((hnames s).mp hs) heq) hkept
  exact hne b hb hbr

theorem Told.of_other {X : Set Root} {t : Task Bool} {v : Root} (hr : σ.Secret r)
    (hkeeps : Roots.Keeps X σ σ') (hkept : r ∈ X → May Γ A t .keeps)
    (hret : r ∉ σ'.kept → v = r → May Γ A t .returns) : Told Γ r A t σ' (.value v) := by
  refine ⟨fun hr' => hkept (hr.mem_of_keeps hkeeps hr'), fun hr' e he => ?_⟩
  cases e with
  | returns => exact hret hr' he
  | item | recurs | keeps => exact he.elim

theorem Roots.Calls.kept_arg {o : Option Symbol} {rs : List Root} {v : Root}
    (h : Roots.Calls Γ o rs σ σ' v) (hr : σ.Secret r) (hkept : r ∈ σ'.kept) :
    ∃ i, rs[i]? = some r ∧ mayKeep Γ o i = true :=
  hr.mem_of_keeps h.keeps hkept

theorem Roots.Calls.returned_arg {o : Option Symbol} {rs : List Root}
    (h : Roots.Calls Γ o rs σ σ' r) (hr : σ.Secret r) (hkept : r ∉ σ'.kept) :
    ∃ i : Nat, rs[i]? = some r ∧ freshCall Γ o = false := by
  cases hf : freshCall Γ o with
  | true => exact absurd rfl (hr.ne_new (h.fresh hf))
  | false =>
    have hmem : r ∈ rs := hr.mem_of_from (h.other hf) hkept
    obtain ⟨i, hi⟩ := List.mem_iff_getElem?.mp hmem
    exact ⟨i, hi, rfl⟩

theorem May.iterate_mono {ps : List Pattern} {body : List Ast} {vs vs' : List Bool} {e : Fate}
    (h : May Γ A (.iterate ps body vs) e) (hvs : true ∈ vs → true ∈ vs') :
    May Γ A (.iterate ps body vs') e := by
  cases h with
  | iterateHeld hmem he hbody => exact .iterateHeld (hvs hmem) he hbody
  | iterateOver he hbody => exact .iterateOver he hbody
  | iterateRecur hbody h => exact .iterateRecur hbody h
  | iterateRecurHeld hmem hbody h => exact .iterateRecurHeld (hvs hmem) hbody h
  | iterateNext h => exact .iterateNext h

theorem true_mem_mark {rs : List Root} : true ∈ rs.map (· == r) ↔ r ∈ rs := by
  simp

theorem mem_flatMap_binds {ps : List Pattern} {rs : List Root} (hlen : ps.length = rs.length)
    (s : Symbol) :
    s ∈ ps.flatMap Pattern.binds ↔ ∃ b ∈ ps.zip rs, s ∈ b.1.binds := by
  constructor
  · intro hs
    obtain ⟨p, hp, hs⟩ := List.mem_flatMap.mp hs
    obtain ⟨b, hb, rfl⟩ := List.mem_map.mp (List.map_fst_zip hlen.le ▸ hp)
    exact ⟨b, hb, hs⟩
  · rintro ⟨b, hb, hs⟩
    exact List.mem_flatMap.mpr ⟨b.1, (List.of_mem_zip hb).1, hs⟩

theorem ne_of_zip {ps : List Pattern} {rs : List Root} (h : r ∉ rs) :
    ∀ b ∈ ps.zip rs, b.2 ≠ r := by
  rintro b hb rfl
  exact h (List.of_mem_zip hb).2

theorem Result.Hits.ne_recurs {v : Root} {e : Fate} (h : (Result.value v).Hits r e) :
    e ≠ .recurs := by
  rintro rfl
  exact h

/-- A run does to a root that nobody has got hold of only what the text says of the variables
that hold it. -/
theorem Eval.may {ρ : Locals} {t : Task Root} {res : Result} (h : Eval Γ ρ σ t σ' res)
    (hA : HeldBy r ρ A) (hr : σ.Secret r) : Told Γ r A (t.mark r) σ' res := by
  induction h generalizing A with
  | literal hkeeps hnew | quote hkeeps hnew | bodyNil hkeeps hnew | condNone hkeeps hnew =>
    exact .of_new hr hkeeps hnew fun hX => hX.elim
  | @«local» _ _ s v hs =>
    refine ⟨fun hkept => absurd hkept hr.not_kept, fun _ e he => ?_⟩
    cases e with
    | returns => exact .ref (hA s (he ▸ hs))
    | item | recurs | keeps => exact he.elim
  | @«global» _ σ _ v _ hv =>
    refine ⟨fun hkept => absurd hkept hr.not_kept, fun _ e he => ?_⟩
    cases e with
    | returns => exact absurd (σ.globals_kept (he ▸ hv)) hr.not_kept
    | item | recurs | keeps => exact he.elim
  | call hcs hrs hcalls ihcs ih =>
    refine (ihcs hA hr).seq .callee (hrs.le.trans hcalls.le) fun hr₁ => ?_
    have hargs := ih hA (hr.mono hcs.le hr₁)
    refine hargs.seq .args hcalls.le fun hr₂ => ?_
    have hsecret := (hr.mono hcs.le hr₁).mono hrs.le hr₂
    refine ⟨fun hkept => ?_, fun hr' e he => ?_⟩
    · obtain ⟨i, hi, hmay⟩ := hcalls.kept_arg hsecret hkept
      exact .passed (hargs.hit hr₂ (.item i) hi) hmay
    · cases e with
      | returns =>
        cases he
        obtain ⟨i, hi, hf⟩ := hcalls.returned_arg hsecret hr'
        exact .result (hargs.hit hr₂ (.item i) hi) hf
      | item | recurs | keeps => exact he.elim
  | ifThen htest hthn ihtest ih =>
    refine (ihtest hA hr).seq .test hthn.le fun hr₁ => ?_
    exact (ih hA (hr.mono htest.le hr₁)).imp fun e => .thn
  | ifElse htest hels ihtest ih =>
    refine (ihtest hA hr).seq .test hels.le fun hr₁ => ?_
    exact (ih hA (hr.mono htest.le hr₁)).imp fun e => .els
  | doNode _ ih => exact (ih hA hr).imp fun e => .doNode
  | bindNode _ ih => exact (ih hA hr).imp fun e => .bindNode
  | @letfn ρ _ bindings _ _ _ _ _ _ hstores hbinds hbody ih =>
    by_cases hX : r ∈ captured ρ (.letfn bindings [])
    · obtain ⟨s, hs, hρ⟩ := hX
      have hkept := (hbinds.le.trans hbody.le).kept_le (hstores.stored ⟨s, hs, hρ⟩)
      exact ⟨fun _ => .letfnCaptured hs (hA s hρ), fun hr' => absurd hkept hr'⟩
    · have hr₁ := hr.mono hstores.le fun hkept => hX (hr.mem_of_keeps hstores.toKeeps hkept)
      obtain ⟨hr₂, hA'⟩ := hbinds.heldBy hr₁ hA
      exact (ih hA' hr₂).imp fun e => .letfnBody
  | fn hstores hnew =>
    exact .of_new hr hstores.toKeeps hnew fun ⟨s, hs, hρ⟩ => .captured hs (hA s hρ)
  | @loop _ _ bindings _ _ rs _ _ hinits hbody ihinits ih =>
    have hvalues := ihinits hA hr
    refine hvalues.seq .loopInits hbody.le fun hr₁ => ?_
    refine (ih hA (hr.mono hinits.le hr₁)).imp fun e hmay => ?_
    by_cases hmem : r ∈ rs
    · obtain ⟨i, hi⟩ := List.mem_iff_getElem?.mp hmem
      exact .loopHeld (hvalues.hit hr₁ (.item i) hi) (hmay.iterate_mono fun _ => List.mem_cons_self)
    · exact .loopBody (hmay.iterate_mono fun htrue => absurd (true_mem_mark.mp htrue) hmem)
  | recur hargs ih =>
    have hvalues := ih hA hr
    refine ⟨fun hkept => .recurArgs (hvalues.kept hkept), fun hr' e he => ?_⟩
    cases e with
    | recurs =>
      obtain ⟨i, hi⟩ := List.mem_iff_getElem?.mp he
      exact .recurItem (hvalues.hit hr' (.item i) hi)
    | returns | item | keeps => exact he.elim
  | case hexpr hc hbody ihexpr ih =>
    refine (ihexpr hA hr).seq .caseExpr hbody.le fun hr₁ => ?_
    exact (ih hA (hr.mono hexpr.le hr₁)).imp fun e => .caseBody hc
  | caseNone hexpr hkeeps hnew ihexpr =>
    refine (ihexpr hA hr).seq .caseExpr hkeeps.le fun hr₁ => ?_
    exact .of_new (hr.mono hexpr.le hr₁) hkeeps hnew fun hX => hX.elim
  | cond _ ih => exact (ih hA hr).imp fun e => .cond
  | @threadFirst _ _ _ _ _ v _ _ hf hsteps ihf ih =>
    have hhead := ihf hA hr
    refine hhead.seq .threadKeeps hsteps.le fun hr₁ => ?_
    refine (ih hA (hr.mono hf.le hr₁)).imp fun e hmay => ?_
    by_cases hv : v = r
    · rw [Task.mark, hv, beq_self_eq_true] at hmay
      exact .threadHeld (hhead.hit hr₁ .returns hv) hmay
    · rw [Task.mark, beq_false_of_ne hv] at hmay
      exact .threadSteps hmay
  | vector hrs hstores hnew ih =>
    have hvalues := ih hA hr
    refine hvalues.seq .vectorKeeps hstores.le fun hr₁ => ?_
    refine .of_new (hr.mono hrs.le hr₁) hstores.toKeeps hnew fun hmem => ?_
    obtain ⟨i, hi⟩ := List.mem_iff_getElem?.mp hmem
    exact .vectorItem (hvalues.hit hr₁ (.item i) hi)
  | set hrs hstores hnew ih =>
    have hvalues := ih hA hr
    refine hvalues.seq .setKeeps hstores.le fun hr₁ => ?_
    refine .of_new (hr.mono hrs.le hr₁) hstores.toKeeps hnew fun hmem => ?_
    obtain ⟨i, hi⟩ := List.mem_iff_getElem?.mp hmem
    exact .setItem (hvalues.hit hr₁ (.item i) hi)
  | dict hrs hstores hnew ih =>
    have hvalues := ih hA hr
    refine hvalues.seq .dictKeeps hstores.le fun hr₁ => ?_
    refine .of_new (hr.mono hrs.le hr₁) hstores.toKeeps hnew fun hmem => ?_
    obtain ⟨i, hi⟩ := List.mem_iff_getElem?.mp hmem
    exact .dictItem (hvalues.hit hr₁ (.item i) hi)
  | other _ ih => exact (ih hA hr).imp fun e => .other
  | valuesNil =>
    refine ⟨fun hkept => absurd hkept hr.not_kept, fun _ e he => ?_⟩
    cases e with
    | item i => cases he
    | returns | recurs | keeps => exact he.elim
  | valuesCons hn hns ihn ih =>
    have hfirst := ihn hA hr
    refine hfirst.seq .valuesFirst hns.le fun hr₁ => ?_
    have hrest := ih hA (hr.mono hn.le hr₁)
    refine ⟨fun hkept => .valuesRest (hrest.kept hkept), fun hr' e he => ?_⟩
    cases e with
    | item i =>
      cases i with
      | zero => exact .itemFirst (hfirst.hit hr₁ .returns (Option.some.inj he))
      | succ i => exact .itemRest (hrest.hit hr' (.item i) he)
    | returns | recurs | keeps => exact he.elim
  | bodyLast _ ih => exact (ih hA hr).imp fun e => .bodyLast
  | bodyCons hn hns ihn ih =>
    refine (ihn hA hr).seq .bodyFirst hns.le fun hr₁ => ?_
    exact (ih hA (hr.mono hn.le hr₁)).imp fun e => .bodyRest
  | bindNil _ ih => exact (ih hA hr).imp fun e => .bindNil
  | @bindCons _ _ p _ _ _ _ v _ _ _ _ hinit hbinds hrest ihinit ih =>
    have hvalue := ihinit hA hr
    refine hvalue.seq .bindInit (hbinds.le.trans hrest.le) fun hr₁ => ?_
    obtain ⟨hr₂, hheld, hover⟩ := hbinds.heldBy p.binds (hr.mono hinit.le hr₁) hA (by simp)
    by_cases hv : v = r
    · exact (ih hheld hr₂).imp fun e => .bindHeld (hvalue.hit hr₁ .returns hv)
    · exact (ih (hover (by simpa using hv)) hr₂).imp fun e => .bindOver
  | @iterateDone _ _ ps _ rs _ _ _ _ hlen hbinds _ ih =>
    obtain ⟨hr₁, hheld, hover⟩ :=
      hbinds.heldBy (ps.flatMap Pattern.binds) hr hA (mem_flatMap_binds hlen)
    by_cases hmem : r ∈ rs
    · have hbody := ih hheld hr₁
      refine ⟨fun hkept => ?_, fun hr' e he => ?_⟩
      · exact .iterateHeld (true_mem_mark.mpr hmem) Fate.noConfusion (hbody.kept hkept)
      · exact .iterateHeld (true_mem_mark.mpr hmem) (Result.Hits.ne_recurs he) (hbody.hit hr' e he)
    · have hbody := ih (hover (ne_of_zip hmem)) hr₁
      refine ⟨fun hkept => .iterateOver Fate.noConfusion (hbody.kept hkept), fun hr' e he => ?_⟩
      exact .iterateOver (Result.Hits.ne_recurs he) (hbody.hit hr' e he)
  | @iterateAgain _ _ ps _ rs _ _ _ rs' _ _ hlen hbinds hbody hnext ihbody ih =>
    obtain ⟨hr₁, hheld, hover⟩ :=
      hbinds.heldBy (ps.flatMap Pattern.binds) hr hA (mem_flatMap_binds hlen)
    by_cases hmem : r ∈ rs
    · have hround := ihbody hheld hr₁
      refine hround.seq (.iterateHeld (true_mem_mark.mpr hmem) Fate.noConfusion) hnext.le fun hr₂ =>
      ?_
      refine (ih hA (hr₁.mono hbody.le hr₂)).imp fun e hmay => ?_
      by_cases hagain : r ∈ rs'
      · exact .iterateRecurHeld (true_mem_mark.mpr hmem) (hround.hit hr₂ .recurs hagain)
          (hmay.iterate_mono fun _ => List.mem_cons_self)
      · exact .iterateNext (hmay.iterate_mono fun htrue => absurd (true_mem_mark.mp htrue) hagain)
    · have hround := ihbody (hover (ne_of_zip hmem)) hr₁
      refine hround.seq (.iterateOver Fate.noConfusion) hnext.le fun hr₂ => ?_
      refine (ih hA (hr₁.mono hbody.le hr₂)).imp fun e hmay => ?_
      by_cases hagain : r ∈ rs'
      · exact .iterateRecur (hround.hit hr₂ .recurs hagain)
          (hmay.iterate_mono fun _ => List.mem_cons_self)
      · exact .iterateNext (hmay.iterate_mono fun htrue => absurd (true_mem_mark.mp htrue) hagain)
  | condTaken htest hbody ihtest ih =>
    refine (ihtest hA hr).seq .condTest hbody.le fun hr₁ => ?_
    exact (ih hA (hr.mono htest.le hr₁)).imp fun e => .condBody
  | condNext htest hcs ihtest ih =>
    refine (ihtest hA hr).seq .condTest hcs.le fun hr₁ => ?_
    exact (ih hA (hr.mono htest.le hr₁)).imp fun e => .condNext
  | @stepsNil _ _ v =>
    refine ⟨fun hkept => absurd hkept hr.not_kept, fun _ e he => ?_⟩
    cases e with
    | returns =>
      rw [Task.mark, beq_iff_eq.mpr he]
      exact .stepsNil
    | item | recurs | keeps => exact he.elim
  | @stepsCons _ _ v n ns _ _ _ rs σ₃ v' _ _ hcs hrs hcalls hns ihcs ihrs ih =>
    have hle := hcalls.le.trans hns.le
    refine (ihcs hA hr).seq .stepCallee (hrs.le.trans hle) fun hr₁ => ?_
    have hargs := ihrs hA (hr.mono hcs.le hr₁)
    refine hargs.seq .stepArgs hle fun hr₂ => ?_
    have hsecret := (hr.mono hcs.le hr₁).mono hrs.le hr₂
    rw [Task.mark]
    by_cases hkept : r ∈ σ₃.kept
    · refine ⟨fun _ => ?_, fun hr' => absurd (hns.le.kept_le hkept) hr'⟩
      obtain ⟨i, hi, hmay⟩ := hcalls.kept_arg hsecret hkept
      cases i with
      | zero =>
        rw [beq_iff_eq.mpr (Option.some.inj hi)]
        exact .stepThreaded hmay
      | succ i => exact .stepPassed (hargs.hit hr₂ (.item i) hi) hmay
    · refine (ih hA (hsecret.mono hcalls.le hkept)).imp fun e hmay => ?_
      by_cases hv : v' = r
      · subst hv
        rw [Task.mark, beq_self_eq_true] at hmay
        obtain ⟨i, hi, hf⟩ := hcalls.returned_arg hsecret hkept
        cases i with
        | zero =>
          rw [beq_iff_eq.mpr (Option.some.inj hi)]
          exact .stepThrough hf hmay
        | succ i => exact .stepResult (hargs.hit hr₂ (.item i) hi) hf hmay
      · rw [Task.mark, beq_false_of_ne hv] at hmay
        exact .stepNext hmay
  | kidsDone hkeeps hfrom =>
    refine .of_other hr hkeeps (fun hX => hX.elim) fun hr' hv => ?_
    subst hv
    exact (hr.mem_of_from hfrom hr').elim
  | kidsSkip _ ih => exact (ih hA hr).imp fun e => .kidNext
  | @kidsRun _ _ _ _ _ _ _ _ _ _ σ₃ _ _ hbinds hn hkeeps hks ihn ih =>
    obtain ⟨hr₁, hA'⟩ := hbinds.heldBy hr hA
    have hkid := ihn hA' hr₁
    refine hkid.seq .kid (hkeeps.le.trans hks.le) fun hr₂ => ?_
    have hsecret := hr₁.mono hn.le hr₂
    by_cases hkept : r ∈ σ₃.kept
    · have hv := hsecret.mem_of_keeps hkeeps hkept
      exact ⟨fun _ => .kidKept (hkid.hit hr₂ .returns hv.symm),
        fun hr' => absurd (hks.le.kept_le hkept) hr'⟩
    · exact ih hA (hsecret.mono hkeeps.le hkept)
  | kidsLast hbinds _ ih =>
    obtain ⟨hr₁, hA'⟩ := hbinds.heldBy hr hA
    exact (ih hA' hr₁).imp fun e => .kid

end Runs

end Fol.Escape

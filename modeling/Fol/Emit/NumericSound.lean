/-
Fol.Emit.NumericSound — the numeric types inferred for a loop hold in its runs.

A step lemma says what a run of any part of the body keeps (`Run.keeps`): under types that
hold, what it returns has the type inferred for it, and the recur form it ends in is one
the collection has seen. The rounds end in an environment above the types of the
initialisers and above those of every recur form (`numInferLoopEnv_closed`), and induction
over the iterations does the rest.

  §1 Calls     — `Arithmetic.apply_type`.
  §2 Weakening — the conditions survive fewer types.
  §3 Steps     — `Run.recurs`, `Run.keeps`.
  §4 Rounds    — `numInferLoopEnv_closed`.
  §5 Loops     — `reaches_types`.
-/
import Mathlib.Data.List.Forall2
import Fol.Emit.ClNumbers

namespace Fol.Numeric

open Fol.Escape

variable {V : Type}

/-! ## §1 Calls -/

namespace Arithmetic

variable (A : Arithmetic V)

theorem fits_none (v : V) : A.Fits none v := fun _ h => nomatch h

theorem fits_some {t : NumType} {v : V} : A.Fits (some t) v ↔ A.hasType t v :=
  ⟨fun h => h t rfl, fun h _ ht => Option.some.inj ht ▸ h⟩

theorem Fits.below {A : Arithmetic V} {a b : Option NumType} {v : V} (h : A.Fits a v)
    (hab : Below a b) : A.Fits b v := by
  rcases hab with rfl | rfl | ⟨rfl, ha⟩
  · exact A.fits_none v
  · exact h
  · obtain ⟨t, rfl⟩ := Option.ne_none_iff_exists'.mp ha
    exact A.fits_some.mpr (A.number_of (h t rfl))

theorem fits_contagion {op : String} (hop : op ≠ "/") {a b : Option NumType} {v u w : V}
    (hv : A.Fits a v) (hu : A.Fits b u) (hw : A.binary op v u = some w) :
    A.Fits (numContagion a b) w := by
  intro x hx
  have hne : ¬ (a = none ∨ b = none) := by simp [← numContagion_eq_none, hx]
  push Not at hne
  obtain ⟨t, rfl⟩ := Option.ne_none_iff_exists'.mp hne.1
  obtain ⟨t', rfl⟩ := Option.ne_none_iff_exists'.mp hne.2
  exact A.binary_type hop (hv t rfl) (hu t' rfl) hw hx

theorem fits_div {a b : Option NumType} {v u w : V} (hv : A.Fits a v) (hu : A.Fits b u)
    (hw : A.binary "/" v u = some w) : A.Fits (numDiv a b) w := by
  intro x hx
  have hne : ¬ (a = none ∨ b = none) := by simp [← numDiv_eq_none, hx]
  push Not at hne
  obtain ⟨t, rfl⟩ := Option.ne_none_iff_exists'.mp hne.1
  obtain ⟨t', rfl⟩ := Option.ne_none_iff_exists'.mp hne.2
  exact A.quotient_type (hv t rfl) (hu t' rfl) hw hx

/-- An operation that keeps types on two values keeps them from the left. -/
theorem fits_foldl {f : Option NumType → Option NumType → Option NumType} {g : V → V → Option V}
    (hfg : ∀ {a b v u w}, A.Fits a v → A.Fits b u → g v u = some w → A.Fits (f a b) w)
    {ts : List (Option NumType)} {vs : List V} (h : List.Forall₂ A.Fits ts vs) :
    ∀ {t v w}, A.Fits t v → vs.foldlM g v = some w → A.Fits (ts.foldl f t) w := by
  induction h with
  | nil =>
    intro t v w ht hw
    cases hw
    exact ht
  | cons hu _ ih =>
    intro t v w ht hw
    obtain ⟨x, hx, hw⟩ := Option.bind_eq_some_iff.mp hw
    exact ih (hfg ht hu hx) hw

/-- The type of a call holds of its value, reciprocals of integers apart. -/
theorem apply_type {op : Symbol} {ts : List (Option NumType)} {vs : List V} {t : NumType} {v : V}
    (ht : numCall op ts = some t) (hdiv : ¬ (op.name = "/" ∧ ts = [some .integer]))
    (hfit : List.Forall₂ A.Fits ts vs) (hv : A.apply op.name vs = some v) : A.hasType t v := by
  unfold numCall at ht
  split at ht
  next hinc =>
    have hop : op.name ≠ "/" := by rcases hinc with h | h <;> simp [h]
    cases hfit with
    | nil => cases ht
    | cons hu hfit =>
      cases hfit with
      | nil => exact A.unary_type hop (hu t ht) hv
      | cons _ _ => simp [apply, hinc] at hv
  next hinc =>
    split at ht
    next =>
      cases hfit with
      | nil =>
        rw [if_pos rfl] at ht
        split at ht
        · cases ht
        · cases ht
          rw [not_or] at hinc
          exact A.constant_type (by simpa [apply, *] using hv)
      | @cons a u ts us hu hfit =>
        rw [if_neg (List.cons_ne_nil _ _)] at ht
        by_cases hop : op.name = "/"
        · rw [if_pos hop] at ht
          cases hfit with
          | nil =>
            have hne : t ≠ .integer := by
              rintro rfl
              exact hdiv ⟨hop, congrArg (fun a => [a]) ht⟩
            exact A.reciprocal_type hne (hu t ht) (hop ▸ hv)
          | cons hu' hfit =>
            rw [apply, if_neg hinc, hop] at hv
            exact A.fits_foldl A.fits_div (.cons hu' hfit) hu hv t ht
        · rw [if_neg hop] at ht
          cases hfit with
          | nil => exact A.unary_type hop (hu t ht) hv
          | cons hu' hfit =>
            rw [apply, if_neg hinc] at hv
            exact A.fits_foldl (A.fits_contagion hop) (.cons hu' hfit) hu hv t ht
    next => cases ht

end Arithmetic

/-! ## §2 Weakening -/

theorem untyped_below {E E' : TypeEnv} (hE : TypeEnv.Below E E') {binds : List Symbol}
    (h : untyped E binds = true) : untyped E' binds = true := by
  simp only [untyped, List.all_eq_true, Option.isNone_iff_eq_none] at h ⊢
  intro s hs
  have hbelow := hE s
  rw [h s hs] at hbelow
  exact hbelow.eq_none

theorem callChecked_below {E E' : TypeEnv} (hE : TypeEnv.Below E E') {standard : Symbol → Bool}
    {spec : Bool} {bound : Bound} {op : Symbol} {args : List Ast}
    (h : callChecked standard spec bound E op args = true) :
    callChecked standard spec bound E' op args = true := by
  have hargs : BelowList (numInferList E args) (numInferList E' args) :=
    numInferList_below (fun n _ => numInfer_below n) hE
  by_cases hnone : numCall op (numInferList E' args) = none
  · simp [callChecked, hnone]
  · have hsome := (numCall_below op hargs).isSome hnone
    have hint : numInferList E' args = [some .integer] → numInferList E args = [some .integer] := by
      intro heq
      rw [heq] at hargs
      obtain ⟨a, ts, ha, hts, heq⟩ := List.forall₂_cons_right_iff.mp hargs
      rw [heq, ha.eq_integer, List.forall₂_nil_right_iff.mp hts]
    simp only [callChecked, hsome, hnone, decide_false, Bool.false_or, Bool.and_eq_true,
      Bool.not_eq_true', Bool.and_eq_false_iff, decide_eq_false_iff_not] at h ⊢
    exact ⟨h.1.imp_right fun hne heq => hne (hint heq), h.2⟩

theorem checked_callOther {standard : Symbol → Bool} {spec : Bool} {bound : Bound} {E : TypeEnv}
    {op : Ast} (hop : ∀ s, op ≠ .symbolRef s) (args : List Ast) :
    checked standard spec bound E (.call op args) =
      (checked standard spec bound E op && checkedList standard spec bound E args) := by
  cases op with
  | symbolRef s => exact absurd rfl (hop s)
  | _ => rfl

/-- What `checked_below` says of a node. -/
def CheckedBelow (standard : Symbol → Bool) (n : Ast) : Prop :=
  ∀ spec bound E E', TypeEnv.Below E E' → checked standard spec bound E n = true →
    checked standard spec bound E' n = true

section

variable {standard : Symbol → Bool} {spec : Bool} {bound : Bound} {E E' : TypeEnv}

theorem checkedList_below {ns : List Ast} (h : ∀ n ∈ ns, CheckedBelow standard n)
    (hE : TypeEnv.Below E E') (hns : checkedList standard spec bound E ns = true) :
    checkedList standard spec bound E' ns = true := by
  induction ns with
  | nil => rfl
  | cons n ns ih =>
    rw [List.forall_mem_cons] at h
    simp only [checkedList, Bool.and_eq_true] at hns ⊢
    exact ⟨h.1 _ _ _ _ hE hns.1, ih h.2 hns.2⟩

theorem checkedBindings_below {bs : List (Pattern × Ast)}
    (h : ∀ b ∈ bs, CheckedBelow standard b.2) :
    ∀ {bound E E'}, TypeEnv.Below E E' → checkedBindings standard spec bound E bs = true →
      checkedBindings standard spec bound E' bs = true := by
  induction bs with
  | nil =>
    intro bound E E' _ _
    rfl
  | cons b bs ih =>
    intro bound E E' hE hbs
    rw [List.forall_mem_cons] at h
    simp only [checkedBindings, Bool.and_eq_true] at hbs ⊢
    exact ⟨⟨⟨hbs.1.1.1, h.1 _ _ _ _ hE hbs.1.1.2⟩, untyped_below hE hbs.1.2⟩,
      ih h.2 (hE.bindType _ (numInfer_below _ E E' hE)) hbs.2⟩

theorem checkedCases_below {cs : List (List Literal × List Ast)}
    (h : ∀ c ∈ cs, ∀ n ∈ c.2, CheckedBelow standard n) (hE : TypeEnv.Below E E')
    (hcs : checkedCases standard bound E cs = true) : checkedCases standard bound E' cs = true := by
  induction cs with
  | nil => rfl
  | cons c cs ih =>
    rw [List.forall_mem_cons] at h
    simp only [checkedCases, Bool.and_eq_true] at hcs ⊢
    exact ⟨checkedList_below h.1 hE hcs.1, ih h.2 hcs.2⟩

theorem checkedConds_below {cs : List (Ast × List Ast)}
    (htest : ∀ c ∈ cs, CheckedBelow standard c.1) (h : ∀ c ∈ cs, ∀ n ∈ c.2, CheckedBelow standard n)
    (hE : TypeEnv.Below E E') (hcs : checkedConds standard spec bound E cs = true) :
    checkedConds standard spec bound E' cs = true := by
  induction cs with
  | nil => rfl
  | cons c cs ih =>
    rw [List.forall_mem_cons] at h htest
    simp only [checkedConds, Bool.and_eq_true] at hcs ⊢
    exact ⟨⟨htest.1 _ _ _ _ hE hcs.1.1, checkedList_below h.1 hE hcs.1.2⟩, ih htest.2 h.2 hcs.2⟩

theorem checkedEntries_below {es : List (Ast × Ast)} (hkey : ∀ e ∈ es, CheckedBelow standard e.1)
    (hval : ∀ e ∈ es, CheckedBelow standard e.2) (hE : TypeEnv.Below E E')
    (hes : checkedEntries standard bound E es = true) :
    checkedEntries standard bound E' es = true := by
  induction es with
  | nil => rfl
  | cons e es ih =>
    rw [List.forall_mem_cons] at hkey hval
    simp only [checkedEntries, Bool.and_eq_true] at hes ⊢
    exact ⟨⟨hkey.1 _ _ _ _ hE hes.1.1, hval.1 _ _ _ _ hE hes.1.2⟩, ih hkey.2 hval.2 hes.2⟩

theorem checkedKids_below {ks : List (Bool × List Symbol × Ast)}
    (h : ∀ k ∈ ks, CheckedBelow standard k.2.2) (hE : TypeEnv.Below E E')
    (hks : checkedKids standard bound E ks = true) : checkedKids standard bound E' ks = true := by
  induction ks with
  | nil => rfl
  | cons k ks ih =>
    rw [List.forall_mem_cons] at h
    simp only [checkedKids, Bool.and_eq_true] at hks ⊢
    exact ⟨⟨untyped_below hE hks.1.1, h.1 _ _ _ _ hE hks.1.2⟩, ih h.2 hks.2⟩

end

/-- What holds under more types holds under fewer. -/
theorem checked_below {standard : Symbol → Bool} (n : Ast) : CheckedBelow standard n := by
  induction n with
  | call op args ihop ihargs =>
    intro spec bound E E' hE h
    by_cases hop : ∃ s, op = .symbolRef s
    · obtain ⟨s, rfl⟩ := hop
      simp only [checked, Bool.and_eq_true] at h ⊢
      exact ⟨callChecked_below hE h.1, checkedList_below ihargs hE h.2⟩
    · push Not at hop
      rw [checked_callOther hop, Bool.and_eq_true] at h ⊢
      exact ⟨ihop _ _ _ _ hE h.1, checkedList_below ihargs hE h.2⟩
  | ifNode test thn els ihtest ihthn ihels =>
    intro spec bound E E' hE h
    simp only [checked, Bool.and_eq_true] at h ⊢
    exact ⟨⟨ihtest _ _ _ _ hE h.1.1, ihthn _ _ _ _ hE h.1.2⟩, checkedList_below ihels hE h.2⟩
  | doNode body ih =>
    intro spec bound E E' hE h
    exact checkedList_below ih hE h
  | bind bindings body ihb ih =>
    intro spec bound E E' hE h
    simp only [checked, Bool.and_eq_true] at h ⊢
    exact ⟨checkedBindings_below ihb hE h.1,
      checkedList_below ih (numScope_below (fun b _ => numInfer_below b.2) hE) h.2⟩
  | letfn bindings body _ ih =>
    intro spec bound E E' hE h
    simp only [checked, Bool.and_eq_true] at h ⊢
    exact ⟨untyped_below hE h.1, checkedList_below ih hE h.2⟩
  | recur args ih =>
    intro spec bound E E' hE h
    simp only [checked, Bool.and_eq_true] at h ⊢
    exact ⟨h.1, checkedList_below ih hE h.2⟩
  | case expr clauses ihe ih =>
    intro spec bound E E' hE h
    simp only [checked, Bool.and_eq_true] at h ⊢
    exact ⟨ihe _ _ _ _ hE h.1, checkedCases_below ih hE h.2⟩
  | cond clauses iht ih =>
    intro spec bound E E' hE h
    exact checkedConds_below iht ih hE h
  | threadFirst forms ih | vector forms ih | set forms ih =>
    intro spec bound E E' hE h
    exact checkedList_below ih hE h
  | dict entries ihk ihv =>
    intro spec bound E E' hE h
    exact checkedEntries_below ihk ihv hE h
  | other kids ih =>
    intro spec bound E E' hE h
    exact checkedKids_below ih hE h
  | _ =>
    intro spec bound E E' _ _
    rfl

/-! ## §3 Steps -/

namespace Task

/-- Running the task may reach a recur form of the loop around it. -/
def recurs : Task → Bool
  | .node n => Numeric.recurs n
  | .values ns => recursList ns
  | .body ns => recursList ns
  | .bind bindings forms => recursBindings bindings || recursList forms
  | .conds clauses => recursConds clauses
  | .kids ks => ks.any fun k => Numeric.recurs k.2

def checked (standard : Symbol → Bool) (spec : Bool) (bound : Bound) (E : TypeEnv) : Task → Prop
  | .node n => Numeric.checked standard spec bound E n = true
  | .values ns => checkedList standard spec bound E ns = true
  | .body ns => checkedList standard spec bound E ns = true
  | .bind bindings forms => checkedBindings standard spec bound E bindings = true ∧
      checkedList standard spec (bound.with (bindingsBind bindings)) (numScope E bindings) forms
      = true
  | .conds clauses => checkedConds standard spec bound E clauses = true
  | .kids ks => ∀ k ∈ ks, untyped E k.1 = true ∧
      Numeric.checked standard spec (bound.with k.1) E k.2 = true

/-- The recur forms the collection meets in the task. -/
def sites (E : TypeEnv) : Task → List (List (Option NumType))
  | .node n => recurSites E n
  | .values ns => recurSitesList E ns
  | .body ns => recurSitesList E ns
  | .bind bindings forms => recurSitesList (numScope E bindings) forms
  | .conds clauses => recurSitesConds E clauses
  | .kids ks => ks.flatMap fun k => recurSites E k.2

/-- The type of the value of the task. -/
def type (E : TypeEnv) : Task → Option NumType
  | .node n => numInfer E n
  | .body ns => numInferLast E ns
  | .bind bindings forms => numInferLast (numScope E bindings) forms
  | _ => none

end Task

theorem Bound.with_nil (bound : Bound) : bound.with [] = bound := by
  funext s
  simp [Bound.with]

theorem Bound.with_append (bound : Bound) (a b : List Symbol) :
    bound.with (a ++ b) = (bound.with a).with b := by
  funext s
  simp [Bound.with, Bool.or_assoc]

/-! The lists below a node, as tasks. -/

theorem recursList_eq_any (ns : List Ast) : recursList ns = ns.any recurs := by
  induction ns with
  | nil => rfl
  | cons n ns ih => simp [recursList, ih]

theorem recursCases_eq_any (cs : List (List Literal × List Ast)) :
    recursCases cs = (cs.flatMap (·.2)).any recurs := by
  induction cs with
  | nil => rfl
  | cons c cs ih => simp [recursCases, recursList_eq_any, ih]

theorem recursEntries_eq_any (es : List (Ast × Ast)) :
    recursEntries es = es.any fun e => recurs e.1 || recurs e.2 := by
  induction es with
  | nil => rfl
  | cons e es ih => simp [recursEntries, ih]

theorem recursKids_eq_any (ks : List (Bool × List Symbol × Ast)) :
    recursKids ks = ks.any fun k => recurs k.2.2 := by
  induction ks with
  | nil => rfl
  | cons k ks ih => simp [recursKids, ih]

section

variable {standard : Symbol → Bool} {spec : Bool} {bound : Bound} {E : TypeEnv}

theorem checkedList_iff {ns : List Ast} :
    checkedList standard spec bound E ns = true ↔ ∀ n ∈ ns,
    checked standard spec bound E n = true := by
  induction ns with
  | nil => simp [checkedList]
  | cons n ns ih => simp [checkedList, ih]

theorem checkedCases_iff {cs : List (List Literal × List Ast)} :
    checkedCases standard bound E cs = true ↔
      ∀ n ∈ cs.flatMap (·.2), checked standard false bound E n = true := by
  induction cs with
  | nil => simp [checkedCases]
  | cons c cs ih =>
    rw [checkedCases, Bool.and_eq_true, ih, checkedList_iff, List.flatMap_cons,
      List.forall_mem_append]

theorem checkedEntries_iff {es : List (Ast × Ast)} :
    checkedEntries standard bound E es = true ↔
      ∀ e ∈ es, checked standard false bound E e.1 = true ∧ checked standard false bound E e.2 =
      true := by
  induction es with
  | nil => simp [checkedEntries]
  | cons e es ih => simp [checkedEntries, ih]

theorem checkedKids_iff {ks : List (Bool × List Symbol × Ast)} :
    checkedKids standard bound E ks = true ↔ ∀ k ∈ ks, untyped E k.2.1 = true ∧
      checked standard false (bound.with k.2.1) E k.2.2 = true := by
  induction ks with
  | nil => simp [checkedKids]
  | cons k ks ih => simp [checkedKids, ih]

theorem recurSitesList_eq (ns : List Ast) : recurSitesList E ns = ns.flatMap (recurSites E) := by
  induction ns with
  | nil => rfl
  | cons n ns ih => simp [recurSitesList, ih]

theorem recurSitesCases_eq (cs : List (List Literal × List Ast)) :
    recurSitesCases E cs = (cs.flatMap (·.2)).flatMap (recurSites E) := by
  induction cs with
  | nil => rfl
  | cons c cs ih => simp [recurSitesCases, recurSitesList_eq, ih]

theorem recurSitesEntries_eq (es : List (Ast × Ast)) :
    recurSitesEntries E es = es.flatMap fun e => recurSites E e.1 ++ recurSites E e.2 := by
  induction es with
  | nil => rfl
  | cons e es ih => simp [recurSitesEntries, ih]

theorem recurSitesKids_eq (ks : List (Bool × List Symbol × Ast)) :
    recurSitesKids E ks = ks.flatMap fun k => recurSites E k.2.2 := by
  induction ks with
  | nil => rfl
  | cons k ks ih => simp [recurSitesKids, ih]

theorem untyped_nil : untyped E [] = true := rfl

/-- The kids of a form left as it was meet its conditions, and their recur forms are its. -/
theorem checked_opaqueKids {n : Ast} {ks : List (List Symbol × Ast)} (h : opaqueKids n = some ks)
    (hn : checked standard spec bound E n = true) :
    (Task.kids ks).checked standard false bound E ∧ (Task.kids ks).sites E ⊆ recurSites E n := by
  cases n <;> cases h
  case letfn bindings body =>
    simp only [checked, Bool.and_eq_true, checkedList_iff] at hn
    constructor
    · intro k hk
      obtain ⟨n, hn', rfl⟩ := List.mem_map.mp hk
      exact ⟨hn.1, hn.2 n hn'⟩
    · simp [Task.sites, recurSites, recurSitesList_eq, List.flatMap_map]
  case case expr clauses =>
    simp only [checked, Bool.and_eq_true, checkedCases_iff] at hn
    constructor
    · intro k hk
      rw [List.mem_cons, List.mem_map] at hk
      obtain rfl | ⟨n, hn', rfl⟩ := hk
      · exact ⟨untyped_nil, by rw [bound.with_nil]; exact hn.1⟩
      · exact ⟨untyped_nil, by rw [bound.with_nil]; exact hn.2 n hn'⟩
    · simp [Task.sites, recurSites, recurSitesCases_eq, List.flatMap_map]
  case dict entries =>
    simp only [checked, checkedEntries_iff] at hn
    constructor
    · intro k hk
      obtain ⟨e, he, hk⟩ := List.mem_flatMap.mp hk
      simp only [List.mem_cons, List.not_mem_nil, or_false] at hk
      obtain rfl | rfl := hk
      · exact ⟨untyped_nil, by rw [bound.with_nil]; exact (hn e he).1⟩
      · exact ⟨untyped_nil, by rw [bound.with_nil]; exact (hn e he).2⟩
    · simp [Task.sites, recurSites, recurSitesEntries_eq, List.flatMap_assoc]
  case quote =>
    exact ⟨fun k hk => absurd hk List.not_mem_nil, List.nil_subset _⟩
  case other kids =>
    simp only [checked, checkedKids_iff] at hn
    constructor
    · intro k hk
      obtain ⟨k', hk', rfl⟩ := List.mem_map.mp hk
      exact hn k' hk'
    · simp [Task.sites, recurSites, recurSitesKids_eq, List.flatMap_map]
  all_goals
    simp only [checked, checkedList_iff] at hn
    constructor
    · intro k hk
      obtain ⟨n, hn', rfl⟩ := List.mem_map.mp hk
      exact ⟨untyped_nil, by rw [bound.with_nil]; exact hn n hn'⟩
    · simp [Task.sites, recurSites, recurSitesList_eq, List.flatMap_map]

end

/-- A form left as it was gets no type. -/
theorem numInfer_opaqueKids {n : Ast} {ks : List (List Symbol × Ast)} (h : opaqueKids n = some ks)
    (E : TypeEnv) : numInfer E n = none := by
  cases n <;> first | rfl | cases h

/-- The kids of a form left as it was have its recur forms. -/
theorem recurs_opaqueKids {n : Ast} {ks : List (List Symbol × Ast)} (h : opaqueKids n = some ks) :
    (Task.kids ks).recurs = recurs n := by
  cases n <;> cases h
  case letfn bindings body => simp [Task.recurs, recurs, recursList_eq_any, Function.comp_def]
  case case expr clauses => simp [Task.recurs, recurs, recursCases_eq_any, Function.comp_def]
  case dict entries => simp [Task.recurs, recurs, recursEntries_eq_any, List.any_flatMap]
  case quote => rfl
  case other kids => simp [Task.recurs, recurs, recursKids_eq_any, Function.comp_def]
  all_goals simp [Task.recurs, recurs, recursList_eq_any, Function.comp_def]

/-- A run that ends in a recur form has one to reach. -/
theorem Run.recurs {M : Machine V} {S : Option TypeEnv} {ρ : Locals V} {task : Task} {vs : List V}
    (h : Run M S ρ task (.again vs)) : task.recurs = true := by
  generalize ho : Outcome.again vs = o at h
  induction h with
  | callOther _ _ ih =>
    have hkids := ih ho
    simpa [Task.recurs, Numeric.recurs, recursList_eq_any, Function.comp_def] using hkids
  | unspecialized hks _ ih => exact (recurs_opaqueKids hks).symm.trans (ih ho)
  | callLeaves _ _ ih | recurLeaves _ _ ih => simp [Task.recurs, Numeric.recurs, ← ih ho]
  | recur => rfl
  | bindCons _ _ _ _ ih =>
    rcases Bool.or_eq_true _ _ |>.mp (ih ho) with hrec | hrec <;>
      simp [Task.recurs, recursBindings, hrec]
  | _ => simp_all [Task.recurs, Numeric.recurs, recursList, recursBindings, recursConds]

/-- A scope whose types hold of the locals, and which knows the names bound. -/
structure Agrees (M : Machine V) (bound : Bound) (E : TypeEnv) (ρ : Locals V) : Prop where
  typed : ∀ s t, E s = some t → ∃ v, ρ s = some v ∧ M.hasType t v
  bound : ∀ s, ρ s ≠ none → bound s = true

namespace Agrees

variable {M : Machine V} {bound : Bound} {E : TypeEnv} {ρ ρ' : Locals V}

theorem fits (h : Agrees M bound E ρ) {s : Symbol} {v : V} (hv : ρ s = some v) :
    M.Fits (E s) v := by
  intro t ht
  obtain ⟨w, hw, hwt⟩ := h.typed s t ht
  rw [hv] at hw
  exact Option.some.inj hw ▸ hwt

/-- What is rebound out of sight of the inference has no type. -/
theorem sameBut (h : Agrees M bound E ρ) {binds : List Symbol} (hb : untyped E binds = true)
    (hρ : Locals.SameBut binds ρ ρ') : Agrees M (bound.with binds) E ρ' where
  typed := by
    intro s t ht
    have hs : s ∉ binds := by
      intro hs
      have hnone := List.all_eq_true.mp hb s hs
      simp [ht] at hnone
    rw [hρ s hs]
    exact h.typed s t ht
  bound := by
    intro s hs
    by_cases hmem : s ∈ binds
    · simp [Bound.with, hmem]
    · rw [hρ s hmem] at hs
      simp [Bound.with, h.bound s hs]

theorem set (h : Agrees M bound E ρ) (s : Symbol) {t : Option NumType} {v : V} (hv : M.Fits t v) :
    Agrees M (bound.with [s]) (E.set s t) (ρ.set s v) where
  typed := by
    intro s' t' ht'
    rw [TypeEnv.set_get] at ht'
    unfold Locals.set
    split at ht'
    next heq => exact ⟨v, if_pos heq, hv t' ht'⟩
    next hne =>
      rw [if_neg hne]
      exact h.typed s' t' ht'
  bound := by
    intro s' hs'
    unfold Locals.set at hs'
    by_cases heq : s' = s
    · simp [Bound.with, heq]
    · rw [if_neg heq] at hs'
      simp [Bound.with, h.bound s' hs']

theorem binds (h : Agrees M bound E ρ) {p : Pattern} {t : Option NumType} {v : V} (hv : M.Fits t v)
    (hp : untyped E (Pattern.hidden p) = true) (hb : Binds p v ρ ρ') :
    Agrees M (bound.with p.binds) (bindType E p t) ρ' := by
  cases p with
  | symbol s =>
    cases hb
    exact h.set s hv
  | tree _ binds => exact h.sameBut hp hb

end Agrees

/-- What a run of the task ends in, by the types of the scope. -/
def Keeps (M : Machine V) (E : TypeEnv) (task : Task) : Outcome V → Prop
  | .value v => M.Fits (task.type E) v
  | .values vs => ∃ ns, task = .values ns ∧ List.Forall₂ M.Fits (numInferList E ns) vs
  | .again vs => ∃ ts ∈ task.sites E, List.Forall₂ M.Fits ts vs
  | .fault => False

/-- A task that leaves leaves its parent, whose recur forms include its own. -/
theorem Keeps.leaves {M : Machine V} {E E' : TypeEnv} {task task' : Task} {o : Outcome V}
    (h : Keeps M E task o) (hsites : task.sites E ⊆ task'.sites E') (ho : o.leaves = true) :
    Keeps M E' task' o := by
  cases o with
  | again vs =>
    obtain ⟨ts, hts, hfit⟩ := h
    exact ⟨ts, hsites hts, hfit⟩
  | fault => exact h
  | value _ | values _ => cases ho

/-- A task whose value is its parent's. -/
theorem Keeps.parent {M : Machine V} {E E' : TypeEnv} {task task' : Task} {o : Outcome V}
    (h : Keeps M E task o) (hsites : task.sites E ⊆ task'.sites E')
    (htype : task'.type E' = none ∨ task'.type E' = task.type E)
    (hvalues : ∀ ns, task ≠ .values ns) :
    Keeps M E' task' o := by
  cases o with
  | value v =>
    rcases htype with hnone | heq
    · exact (congrArg (M.Fits · v) hnone).mpr (M.fits_none v)
    · exact (congrArg (M.Fits · v) heq).mpr h
  | values vs =>
    obtain ⟨ns, hns, -⟩ := h
    exact absurd hns (hvalues ns)
  | again vs =>
    obtain ⟨ts, hts, hfit⟩ := h
    exact ⟨ts, hsites hts, hfit⟩
  | fault => exact h

/-- With all operands typed the operands are numbers. -/
theorem numbers_of_fits {M : Machine V} {ts : List (Option NumType)} {vs : List V}
    (hts : ts.all Option.isSome = true) (h : List.Forall₂ M.Fits ts vs) :
    ∀ u ∈ vs, M.hasType .number u := by
  induction h with
  | nil => exact fun u hu => absurd hu List.not_mem_nil
  | cons hv _ ih =>
    simp only [List.all_cons, Bool.and_eq_true, Option.isSome_iff_exists] at hts
    obtain ⟨⟨t, ht⟩, hts⟩ := hts
    exact List.forall_mem_cons.mpr ⟨M.number_of (hv t ht), ih hts⟩

theorem rewrites_isSome {E : TypeEnv} {op cl : Symbol} {args : List Ast}
    (h : rewrites E op args = some cl) : (numInferList E args).all Option.isSome = true := by
  obtain ⟨_, -, h⟩ := Option.bind_eq_some_iff.mp h
  split at h
  next hargs => exact hargs.2
  next => cases h

theorem numInferList_length (E : TypeEnv) (ns : List Ast) :
    (numInferList E ns).length = ns.length := by
  induction ns with
  | nil => rfl
  | cons n ns ih => simp [numInferList, ih]

/-- A reduction with a type had all its operands typed. -/
theorem foldl_isSome {f : Option NumType → Option NumType → Option NumType}
    (strict : ∀ a b, f a b = none ↔ a = none ∨ b = none) (ts : List (Option NumType)) :
    ∀ t, ts.foldl f t ≠ none → t ≠ none ∧ ts.all Option.isSome = true := by
  induction ts with
  | nil =>
    intro t ht
    exact ⟨ht, rfl⟩
  | cons u ts ih =>
    intro t ht
    obtain ⟨hne, hall⟩ := ih (f t u) ht
    rw [Ne, strict, not_or] at hne
    exact ⟨hne.1, by simp [hall, Option.isSome_iff_ne_none, hne.2]⟩

/-- A call that gets a type is a call of a value operator, and the types it rests on are there. -/
theorem numCall_operands {op : Symbol} {ts : List (Option NumType)} (h : numCall op ts ≠ none) :
    op.name ∈ numValueOps ∧
      (ts.all Option.isSome = true ∨ ((op.name = "INC" ∨ op.name = "DEC") ∧ ts.length ≠ 1)) := by
  unfold numCall at h
  split at h
  next hinc =>
    refine ⟨by rcases hinc with h | h <;> simp [numValueOps, h], ?_⟩
    match ts, h with
    | [], h => exact absurd rfl h
    | [t], h => exact .inl (by simpa [Option.isSome_iff_ne_none] using h)
    | _ :: _ :: _, _ => exact .inr ⟨hinc, by simp⟩
  next =>
    split at h
    next hop =>
      refine ⟨hop, .inl ?_⟩
      cases ts with
      | nil => rfl
      | cons t ts =>
        rw [if_neg (List.cons_ne_nil _ _)] at h
        have hall : t ≠ none ∧ ts.all Option.isSome = true := by
          split at h
          · exact foldl_isSome numDiv_eq_none ts t h
          · exact foldl_isSome numContagion_eq_none ts t h
        simp [hall.2, Option.isSome_iff_ne_none, hall.1]
    next => exact absurd rfl h

theorem lookup_clNumOp {name : String} (h : name ∈ numValueOps) :
    ∃ cl, clNumOp.lookup name = some cl := by
  simp only [numValueOps, List.mem_cons, List.not_mem_nil, or_false] at h
  rcases h with rfl | rfl | rfl | rfl | rfl | rfl
  exacts [⟨"+", rfl⟩, ⟨"-", rfl⟩, ⟨"*", rfl⟩, ⟨"/", rfl⟩, ⟨"1+", rfl⟩, ⟨"1-", rfl⟩]

section

variable {M : Machine V} {E : TypeEnv} {bound : Bound} {ρ : Locals V} {op : Symbol}
    {args : List Ast}
  {vs : List V}

/-- The value of a rewritten call has the type of the call. -/
theorem fits_rewritten {spec : Bool} (hcheck : callChecked M.standard spec bound E op args = true)
    (hfit : List.Forall₂ M.Fits (numInferList E args) vs) {v : V} (hv : M.Rewritten op vs v) :
    M.Fits (numCall op (numInferList E args)) v := by
  intro t ht
  have hne : numCall op (numInferList E args) ≠ none := by simp [ht]
  simp only [callChecked, hne, decide_false, Bool.false_or, Bool.and_eq_true, Bool.not_eq_true',
    Bool.and_eq_false_iff, decide_eq_false_iff_not] at hcheck
  exact M.apply_type ht (fun h => hcheck.1.elim (· h.1) (· h.2)) hfit (hv (numCall_operands hne).1)

/-- So has the value of a call left generic. -/
theorem fits_generic {S : Option TypeEnv} (hS : S = none ∨ S = some E)
    (hgeneric : S.bind (rewrites · op args) = none) (hρ : Agrees M bound E ρ)
    (hcheck : callChecked M.standard S.isSome bound E op args = true)
    (hfit : List.Forall₂ M.Fits (numInferList E args) vs) {v : V} (hv : M.Generic ρ op vs v) :
    M.Fits (numCall op (numInferList E args)) v := by
  intro t ht
  have hne : numCall op (numInferList E args) ≠ none := by simp [ht]
  obtain ⟨hop, hoperands⟩ := numCall_operands hne
  have hlen : args.length = vs.length := by rw [← numInferList_length E, hfit.length_eq]
  simp only [callChecked, hne, decide_false, Bool.false_or, Bool.and_eq_true, Bool.not_eq_true',
    Bool.and_eq_false_iff, decide_eq_false_iff_not, Bool.or_eq_true] at hcheck
  obtain ⟨hdiv, hall | hstd⟩ := hcheck
  · -- all operands typed: the call would have been rewritten
    rcases hS with rfl | rfl
    · cases hall.1
    · obtain ⟨cl, hcl⟩ := lookup_clNumOp hop
      have hargs : args ≠ [] ∧ (numInferList E args).all Option.isSome = true := by
        have hall := hall.2
        simp only [allOperands, Bool.and_eq_true, decide_eq_true_eq, Bool.or_eq_true,
          Bool.not_eq_true', Bool.or_eq_false_iff, decide_eq_false_iff_not] at hall
        refine ⟨List.ne_nil_of_length_pos (Nat.pos_of_ne_zero hall.1), hoperands.resolve_right ?_⟩
        rintro ⟨hinc, hone⟩
        rw [numInferList_length] at hone
        exact hall.2.elim (fun h => hinc.elim h.1 h.2) hone
      have hsome : rewrites E op args = some ⟨cl, "COMMON-LISP"⟩ := by
        rw [rewrites, hcl, Option.bind_some, if_pos hargs]
      exact nomatch hgeneric.symm.trans hsome
  · have hnone : ρ op = none := by
      by_contra h
      simp [hρ.bound op h] at hstd
    refine M.apply_type ht (fun h => hdiv.elim (· h.1) (· h.2)) hfit (hv hstd.1 hnone hop ?_)
    refine hoperands.imp (fun hts => numbers_of_fits hts hfit) fun h => ⟨h.1, ?_⟩
    rw [← hlen, ← numInferList_length E]
    exact h.2

end

/-- One run, of the body of the loop or a part of it. -/
theorem Run.keeps {M : Machine V} {S : Option TypeEnv} {ρ : Locals V} {task : Task} {o : Outcome V}
    (h : Run M S ρ task o) : ∀ E bound, S = none ∨ S = some E → Agrees M bound E ρ →
    task.checked M.standard S.isSome bound E → Keeps M E task o := by
  induction h with
  | literal =>
    intro E bound _ _ _ t ht
    exact M.literal_type ht
  | «local» hv =>
    intro E bound _ hρ _
    exact hρ.fits hv
  | «global» hnone =>
    intro E bound _ hρ _ t ht
    obtain ⟨v, hv, -⟩ := hρ.typed _ t ht
    rw [hnone] at hv
    cases hv
  | rewritten hcl _ _ hv ih =>
    intro E bound hS hρ hc
    obtain rfl := Option.some.inj (hS.resolve_left (Option.some_ne_none _))
    simp only [Task.checked, checked, Bool.and_eq_true] at hc
    obtain ⟨_, ⟨⟩, hfit⟩ := ih _ _ hS hρ hc.2
    exact fits_rewritten hc.1 hfit hv
  | fault hcl _ hu hnum ih =>
    intro E bound hS hρ hc
    obtain rfl := Option.some.inj (hS.resolve_left (Option.some_ne_none _))
    simp only [Task.checked, checked, Bool.and_eq_true] at hc
    obtain ⟨_, ⟨⟩, hfit⟩ := ih _ _ hS hρ hc.2
    exact hnum (numbers_of_fits (rewrites_isSome hcl) hfit _ hu)
  | generic hgeneric _ hv ih =>
    intro E bound hS hρ hc
    simp only [Task.checked, checked, Bool.and_eq_true] at hc
    obtain ⟨_, ⟨⟩, hfit⟩ := ih _ _ hS hρ hc.2
    exact fits_generic hS hgeneric hρ hc.1 hfit hv
  | callLeaves _ ho ih =>
    intro E bound hS hρ hc
    simp only [Task.checked, checked, Bool.and_eq_true] at hc
    exact (ih _ _ hS hρ hc.2).leaves (by simp [Task.sites, recurSites]) ho
  | @callOther S ρ op args o hop _ ih =>
    intro E bound hS hρ hc
    simp only [Task.checked, checked_callOther hop, Bool.and_eq_true, checkedList_iff] at hc
    have hkids := ih E bound hS hρ (by
      intro k hk
      obtain ⟨n, hn, rfl⟩ := List.mem_map.mp hk
      refine ⟨untyped_nil, ?_⟩
      rw [bound.with_nil]
      rcases List.mem_cons.mp hn with rfl | hn
      · exact hc.1
      · exact hc.2 n hn)
    refine hkids.parent ?_ (.inl ?_) (fun _ => nofun)
    · simp [Task.sites, recurSites, recurSitesList_eq, List.flatMap_map]
    · cases op with
      | symbolRef s => exact absurd rfl (hop s)
      | _ => rfl
  | ifThen _ _ _ ih =>
    intro E bound hS hρ hc
    simp only [Task.checked, checked, Bool.and_eq_true] at hc
    exact (ih _ _ hS hρ hc.1.2).parent (by simp [Task.sites, recurSites]) (.inl rfl)
      (fun _ => nofun)
  | ifElse _ _ _ ih =>
    intro E bound hS hρ hc
    simp only [Task.checked, checked, Bool.and_eq_true] at hc
    exact (ih _ _ hS hρ hc.2).parent (by simp [Task.sites, recurSites]) (.inl rfl) (fun _ => nofun)
  | ifLeaves _ ho ih =>
    intro E bound hS hρ hc
    simp only [Task.checked, checked, Bool.and_eq_true] at hc
    exact (ih _ _ hS hρ hc.1.1).leaves (by simp [Task.sites, recurSites]) ho
  | doNode _ ih =>
    intro E bound hS hρ hc
    exact (ih _ _ hS hρ hc).parent (by simp [Task.sites, recurSites]) (.inr rfl) (fun _ => nofun)
  | bind _ ih =>
    intro E bound hS hρ hc
    simp only [Task.checked, checked, Bool.and_eq_true] at hc
    exact (ih _ _ hS hρ hc).parent (by simp [Task.sites, recurSites]) (.inr rfl) (fun _ => nofun)
  | cond _ ih =>
    intro E bound hS hρ hc
    exact (ih _ _ hS hρ hc).parent (by simp [Task.sites, recurSites]) (.inl rfl) (fun _ => nofun)
  | recur _ ih =>
    intro E bound hS hρ hc
    simp only [Task.checked, checked, Bool.and_eq_true] at hc
    obtain ⟨_, ⟨⟩, hfit⟩ := ih _ _ hS hρ hc.2
    exact ⟨_, by simp [Task.sites, recurSites], hfit⟩
  | @recurLeaves S ρ args o hrun ho ih =>
    intro E bound hS hρ hc
    simp only [Task.checked, checked, Bool.and_eq_true, Bool.not_eq_true'] at hc
    -- the arguments have no recur form to leave by
    cases o with
    | again vs => exact absurd hrun.recurs (by simp [Task.recurs, hc.1])
    | fault => exact ih _ _ hS hρ hc.2
    | value _ | values _ => cases ho
  | loop | fn =>
    intro E bound _ _ _
    exact M.fits_none _
  | unspecialized hks _ ih =>
    intro E bound hS hρ hc
    obtain ⟨hkids, hsites⟩ := checked_opaqueKids hks hc
    exact (ih _ _ (.inl rfl) hρ hkids).parent hsites (.inl (numInfer_opaqueKids hks E))
      (fun _ => nofun)
  | valuesNil =>
    intro E bound _ _ _
    exact ⟨[], rfl, .nil⟩
  | valuesCons _ _ ihn ihns =>
    intro E bound hS hρ hc
    simp only [Task.checked, checkedList, Bool.and_eq_true] at hc
    obtain ⟨_, ⟨⟩, hfit⟩ := ihns _ _ hS hρ hc.2
    exact ⟨_, rfl, .cons (ihn _ _ hS hρ hc.1) hfit⟩
  | valuesHead _ ho ih =>
    intro E bound hS hρ hc
    simp only [Task.checked, checkedList, Bool.and_eq_true] at hc
    exact (ih _ _ hS hρ hc.1).leaves (by simp [Task.sites, recurSitesList]) ho
  | valuesTail _ _ ho _ ih =>
    intro E bound hS hρ hc
    simp only [Task.checked, checkedList, Bool.and_eq_true] at hc
    exact (ih _ _ hS hρ hc.2).leaves (by simp [Task.sites, recurSitesList]) ho
  | bodyNil | condsNil =>
    intro E bound _ _ _
    exact M.fits_none _
  | bodyLast _ ih =>
    intro E bound hS hρ hc
    simp only [Task.checked, checkedList, Bool.and_true] at hc
    exact (ih _ _ hS hρ hc).parent (by simp [Task.sites, recurSitesList]) (.inr rfl)
      (fun _ => nofun)
  | bodyCons _ _ _ ih =>
    intro E bound hS hρ hc
    rw [Task.checked, checkedList, Bool.and_eq_true] at hc
    exact (ih _ _ hS hρ hc.2).parent (by simp [Task.sites, recurSitesList]) (.inr rfl)
      (fun _ => nofun)
  | bodyLeaves _ ho ih =>
    intro E bound hS hρ hc
    rw [Task.checked, checkedList, Bool.and_eq_true] at hc
    exact (ih _ _ hS hρ hc.1).leaves (by simp [Task.sites, recurSitesList]) ho
  | bindNil _ ih =>
    intro E bound hS hρ hc
    rw [Task.checked, bindingsBind, List.flatMap_nil, bound.with_nil] at hc
    exact (ih _ _ hS hρ hc.2).parent (by simp [Task.sites, numScope]) (.inr rfl) (fun _ => nofun)
  | @bindCons S ρ ρ' p init bs body v o _ hb _ ihinit ih =>
    intro E bound hS hρ hc
    simp only [Task.checked, checkedBindings, Bool.and_eq_true] at hc
    obtain ⟨⟨⟨⟨-, hinit⟩, hp⟩, hbs⟩, hbody⟩ := hc
    have hfit : M.Fits (numInfer E init) v := ihinit _ _ hS hρ hinit
    have hrest := ih (bindType E p (numInfer E init)) (bound.with p.binds)
      (hS.imp (fun h => by rw [h]; rfl) (fun h => by rw [h]; rfl)) (hρ.binds hfit hp hb) (by
        rw [bindingsBind, List.flatMap_cons, bound.with_append] at hbody
        rw [Option.isSome_map]
        exact ⟨hbs, hbody⟩)
    exact hrest.parent (by simp [Task.sites, numScope]) (.inr rfl) (fun _ => nofun)
  | @bindLeaves S ρ p init bs body o hrun ho ih =>
    intro E bound hS hρ hc
    simp only [Task.checked, checkedBindings, Bool.and_eq_true, Bool.not_eq_true'] at hc
    -- nor has an initialiser
    cases o with
    | again vs => exact absurd hrun.recurs (by simp [Task.recurs, hc.1.1.1.1])
    | fault => exact ih _ _ hS hρ hc.1.1.1.2
    | value _ | values _ => cases ho
  | condsTake _ _ _ ih =>
    intro E bound hS hρ hc
    simp only [Task.checked, checkedConds, Bool.and_eq_true] at hc
    exact (ih _ _ hS hρ hc.1.2).parent (by simp [Task.sites, recurSitesConds]) (.inl rfl)
      (fun _ => nofun)
  | condsNext _ _ _ ih =>
    intro E bound hS hρ hc
    simp only [Task.checked, checkedConds, Bool.and_eq_true] at hc
    exact (ih _ _ hS hρ hc.2).parent (by simp [Task.sites, recurSitesConds]) (.inl rfl)
      (fun _ => nofun)
  | condsLeaves _ ho ih =>
    intro E bound hS hρ hc
    simp only [Task.checked, checkedConds, Bool.and_eq_true] at hc
    exact (ih _ _ hS hρ hc.1.1).leaves (by simp [Task.sites, recurSitesConds]) ho
  | kidsNil =>
    intro E bound _ _ _
    exact M.fits_none _
  | kidsSkip _ ih =>
    intro E bound hS hρ hc
    rw [Task.checked, List.forall_mem_cons] at hc
    exact (ih _ _ hS hρ hc.2).parent (by simp [Task.sites]) (.inl rfl) (fun _ => nofun)
  | kidsCons _ _ _ _ ih =>
    intro E bound hS hρ hc
    rw [Task.checked, List.forall_mem_cons] at hc
    exact (ih _ _ hS hρ hc.2).parent (by simp [Task.sites]) (.inl rfl) (fun _ => nofun)
  | kidsLeaves hb _ ho ih =>
    intro E bound hS hρ hc
    rw [Task.checked, List.forall_mem_cons] at hc
    exact (ih _ _ hS (hρ.sameBut hc.1.1 hb) hc.1.2).leaves (by simp [Task.sites]) ho

/-! ## §4 Rounds -/

section

variable {inits : TypeEnv} {sites : List (List (Option NumType))}

theorem roundStep_changed (ss : List Symbol) :
    ∀ k env, (roundStep inits sites ss k (env, true)).2 = true := by
  induction ss with
  | nil =>
    intro k env
    rfl
  | cons s ss ih =>
    intro k env
    unfold roundStep
    split <;> exact ih _ _

/-- A round that reports no change has made none, and every variable has the type the round
would give it. -/
theorem roundStep_unchanged (ss : List Symbol) :
    ∀ k env, (roundStep inits sites ss k (env, false)).2 = false →
      (roundStep inits sites ss k (env, false)).1 = env ∧
        ∀ i s, ss[i]? = some s → roundType inits sites s (k + i) = env s := by
  induction ss with
  | nil =>
    intro k env _
    exact ⟨rfl, fun i s h => by simp at h⟩
  | cons s ss ih =>
    intro k env h
    unfold roundStep at h ⊢
    split at h
    next heq =>
      rw [if_pos heq]
      obtain ⟨henv, htypes⟩ := ih (k + 1) env h
      refine ⟨henv, ?_⟩
      intro i s' hs'
      cases i with
      | zero => exact Option.some.inj hs' ▸ heq
      | succ i =>
        have := htypes i s' hs'
        rwa [Nat.add_assoc, Nat.add_comm 1] at this
    next => simp [roundStep_changed] at h

theorem roundStep_other (ss : List Symbol) {s : Symbol} (hs : s ∉ ss) :
    ∀ k acc, (roundStep inits sites ss k acc).1 s = acc.1 s := by
  induction ss with
  | nil =>
    intro k acc
    rfl
  | cons s' ss ih =>
    intro k acc
    rw [List.mem_cons, not_or] at hs
    unfold roundStep
    split
    · exact ih hs.2 _ _
    · rw [ih hs.2]
      exact if_neg hs.1

end

theorem numRound_unchanged {l : Loop} {env : TypeEnv} (h : (numRound l env).2 = false) :
    (numRound l env).1 = env :=
  (roundStep_unchanged _ _ _ h).1

/-- Leaving early changes nothing. -/
theorem numRounds_eq_iterate (l : Loop) (n : Nat) :
    ∀ env, numRounds l n env = (fun E => (numRound l E).1)^[n] env := by
  induction n with
  | zero =>
    intro env
    rfl
  | succ n ih =>
    intro env
    rw [numRounds, Function.iterate_succ_apply]
    split
    · exact ih _
    next h =>
      have hfix := numRound_unchanged (Bool.not_eq_true _ ▸ h)
      rw [hfix]
      exact (Function.iterate_fixed hfix n).symm

/-- The rounds leave the names alone that are not variables of the loop. -/
theorem numRounds_other {l : Loop} {s : Symbol} (hs : s ∉ l.names) (n : Nat) :
    ∀ env, numRounds l n env s = env s := by
  have hround : ∀ env, (numRound l env).1 s = env s := fun env => roundStep_other _ hs _ _
  induction n with
  | zero =>
    intro env
    rfl
  | succ n ih =>
    intro env
    rw [numRounds]
    split
    · rw [ih, hround]
    · exact hround env

theorem below_foldl_lub (ts : List (Option NumType)) :
    ∀ t, Below t (ts.foldl numLub t) ∧ ∀ t' ∈ ts, Below t' (ts.foldl numLub t) := by
  induction ts with
  | nil =>
    intro t
    exact ⟨.refl t, fun t' ht' => absurd ht' List.not_mem_nil⟩
  | cons u ts ih =>
    intro t
    obtain ⟨hacc, hmem⟩ := ih (numLub t u)
    exact ⟨(Below.lub_left t u).trans hacc,
      List.forall_mem_cons.mpr ⟨(Below.lub_right t u).trans hacc, hmem⟩⟩

/-- The type a round gives is above that of the initialiser and those of the recur forms. -/
theorem below_roundType (inits : TypeEnv) (sites : List (List (Option NumType))) (s : Symbol)
    (k : Nat) :
    Below (inits s) (roundType inits sites s k) ∧
      ∀ ts ∈ sites, ∀ t, ts[k]? = some t → Below t (roundType inits sites s k) := by
  unfold roundType recurType
  cases hargs : argTypes sites k with
  | nil =>
    refine ⟨.refl _, ?_⟩
    intro ts hts t ht
    have : t ∈ argTypes sites k := List.mem_filterMap.mpr ⟨ts, hts, ht⟩
    simp [hargs] at this
  | cons u us =>
    refine ⟨Below.lub_left _ _, ?_⟩
    intro ts hts t ht
    have hmem : t ∈ u :: us := hargs ▸ List.mem_filterMap.mpr ⟨ts, hts, ht⟩
    refine Below.trans ?_ (Below.lub_right _ _)
    rcases List.mem_cons.mp hmem with rfl | hmem
    · exact (below_foldl_lub us t).1
    · exact (below_foldl_lub us u).2 t hmem

/-- Where the rounds settle, they have closed the environment under the recur forms. -/
theorem numInferLoopEnv_closed {l : Loop} (h : settles l = true) {k : Nat} {s : Symbol}
    (hs : l.names[k]? = some s) :
    Below (initEnv .empty l.bindings s) (numInferLoopEnv l s) ∧
      ∀ ts ∈ recurSitesList (numInferLoopEnv l) l.body, ∀ t, ts[k]? = some t →
        Below t (numInferLoopEnv l s) := by
  rw [settles, ← numRounds_eq_iterate, Bool.not_eq_true'] at h
  have htype := (roundStep_unchanged _ _ _ h).2 k s hs
  rw [Nat.zero_add] at htype
  unfold numInferLoopEnv
  rw [← htype]
  exact below_roundType _ _ s k

/-! ## §5 Loops -/

theorem initEnv_other {bs : List (Symbol × Ast)} {s : Symbol} (hs : s ∉ bs.map (·.1)) :
    ∀ env, initEnv env bs s = env s := by
  induction bs with
  | nil =>
    intro env
    rfl
  | cons b bs ih =>
    intro env
    rw [List.map_cons, List.mem_cons, not_or] at hs
    rw [initEnv, ih hs.2]
    exact if_neg hs.1

/-- The types of the initialisers outside the loop. -/
theorem initEnv_of_agree {bs : List (Symbol × Ast)} (hnodup : (bs.map (·.1)).Nodup) :
    ∀ env, initsAgree env bs = true → ∀ b ∈ bs, initEnv env bs b.1 = numInfer .empty b.2 := by
  induction bs with
  | nil =>
    intro env _ b hb
    exact absurd hb List.not_mem_nil
  | cons b bs ih =>
    intro env h
    rw [List.map_cons, List.nodup_cons] at hnodup
    simp only [initsAgree, Bool.and_eq_true, decide_eq_true_eq] at h
    refine List.forall_mem_cons.mpr ⟨?_, ih hnodup.2 _ h.2⟩
    rw [initEnv, initEnv_other hnodup.1, ← h.1]
    exact if_pos rfl

theorem numInferLoopEnv_other {l : Loop} {s : Symbol} (hs : s ∉ l.names) :
    numInferLoopEnv l s = none :=
  (numRounds_other hs 16 _).trans (initEnv_other hs .empty)

theorem initEnv_below {l : Loop} (h : settles l = true) :
    TypeEnv.Below (initEnv .empty l.bindings) (numInferLoopEnv l) := by
  intro s
  by_cases hs : s ∈ l.names
  · obtain ⟨k, hk⟩ := List.getElem?_of_mem hs
    exact (numInferLoopEnv_closed h hk).1
  · exact .inl (numInferLoopEnv_other hs)

namespace Locals

theorem setAll_other {s : Symbol} {ss : List Symbol} (hs : s ∉ ss) :
    ∀ (ρ : Locals V) (vs : List V), ρ.setAll ss vs s = ρ s := by
  induction ss with
  | nil =>
    intro ρ vs
    cases vs <;> rfl
  | cons s' ss ih =>
    intro ρ vs
    rw [List.mem_cons, not_or] at hs
    cases vs with
    | nil => rfl
    | cons v vs =>
      rw [setAll, ih hs.2]
      exact if_neg hs.1

theorem setAll_get {ss : List Symbol} (hnodup : ss.Nodup) :
    ∀ (ρ : Locals V) {vs : List V} {k : Nat} {s : Symbol} {v : V}, ss[k]? = some s →
      vs[k]? = some v → ρ.setAll ss vs s = some v := by
  induction ss with
  | nil =>
    intro ρ vs k s v hs
    simp at hs
  | cons s' ss ih =>
    intro ρ vs k s v hs hv
    rw [List.nodup_cons] at hnodup
    cases vs with
    | nil => simp at hv
    | cons v' vs =>
      cases k with
      | zero =>
        cases hs
        cases hv
        rw [setAll, setAll_other hnodup.1]
        exact if_pos rfl
      | succ k => exact ih hnodup.2 _ hs hv

end Locals

section

variable {M : Machine V} {ρ : Locals V} {l : Loop} {vs vs' : List V}

/-- The types of the loop fit the values of its variables. -/
def FitsAll (M : Machine V) (l : Loop) (vs : List V) : Prop :=
  List.Forall₂ (fun s v => M.Fits (numInferLoopEnv l s) v) l.names vs

theorem agrees_outside (M : Machine V) (ρ : Locals V) : Agrees M ρ.bound .empty ρ where
  typed := fun _ _ h => nomatch h
  bound := fun _ h => Option.isSome_iff_ne_none.mpr h

/-- The scope of the body, when the values fit. -/
theorem agrees_inside (hnodup : l.names.Nodup) (h : FitsAll M l vs) (ρ : Locals V) :
    Agrees M (ρ.bound.with l.names) (numInferLoopEnv l) (ρ.setAll l.names vs) where
  typed := by
    intro s t ht
    by_cases hs : s ∈ l.names
    · obtain ⟨k, hk⟩ := List.getElem?_of_mem hs
      have hlen : k < vs.length := h.length_eq ▸ (List.getElem?_eq_some_iff.mp hk).1
      refine ⟨vs[k], Locals.setAll_get hnodup ρ hk (List.getElem?_eq_getElem hlen), ?_⟩
      obtain ⟨hk', rfl⟩ := List.getElem?_eq_some_iff.mp hk
      exact List.forall₂_iff_get.mp h |>.2 k hk' hlen t ht
    · rw [numInferLoopEnv_other hs] at ht
      cases ht
  bound := by
    intro s hs
    by_cases hmem : s ∈ l.names
    · simp [Bound.with, hmem]
    · rw [Locals.setAll_other hmem] at hs
      simp [Bound.with, Locals.bound, Option.isSome_iff_ne_none.mpr hs]

/-- What one iteration keeps. -/
theorem body_keeps (hl : Sound M ρ l) (hnodup : l.names.Nodup) (h : FitsAll M l vs) {o : Outcome V}
    (hrun : Run M (some (numInferLoopEnv l)) (ρ.setAll l.names vs) (.body l.body) o) :
    Keeps M (numInferLoopEnv l) (.body l.body) o :=
  hrun.keeps _ _ (.inr rfl) (agrees_inside hnodup h ρ)
    (checkedList_below (fun n _ => checked_below n) (initEnv_below hl.settles) hl.body)

theorem fits_init (hl : Sound M ρ l) (hnodup : l.names.Nodup)
    (h : List.Forall₂ (fun b v => Run M none ρ (.node b.2) (.value v)) l.bindings vs) :
    FitsAll M l vs := by
  rw [FitsAll, Loop.names, List.forall₂_map_left_iff]
  refine List.forall₂_iff_get.mpr ⟨h.length_eq, ?_⟩
  intro k hk hk'
  have hmem : l.bindings.get ⟨k, hk⟩ ∈ l.bindings := List.get_mem _ _
  have hfit : M.Fits (numInfer .empty (l.bindings.get ⟨k, hk⟩).2) (vs.get ⟨k, hk'⟩) :=
    ((List.forall₂_iff_get.mp h).2 k hk hk').keeps _ _ (.inl rfl) (agrees_outside M ρ)
      (hl.inits _ hmem)
  rw [← initEnv_of_agree hnodup .empty hl.initsAgree _ hmem] at hfit
  exact hfit.below (initEnv_below hl.settles _)

theorem fits_jump (hl : Sound M ρ l) (hnodup : l.names.Nodup) (h : FitsAll M l vs)
    (hjump : Jumps M ρ l vs vs') (hlen : vs'.length = l.names.length) : FitsAll M l vs' := by
  rcases hjump with hrun | ⟨b, hb, ρ', hrun⟩
  · obtain ⟨ts, hts, hfit⟩ := body_keeps hl hnodup h hrun
    refine List.forall₂_iff_get.mpr ⟨hlen.symm, ?_⟩
    intro k hk hk'
    have hk'' : k < ts.length := hfit.length_eq ▸ hk'
    have hbelow := (numInferLoopEnv_closed hl.settles (List.getElem?_eq_getElem hk)).2 ts hts _
      (List.getElem?_eq_getElem hk'')
    exact ((List.forall₂_iff_get.mp hfit).2 k hk'' hk').below hbelow
  · have hrec := hrun.recurs
    rw [Task.recurs, hl.closures b hb] at hrec
    cases hrec

theorem fits_assigns {us : List V} (h : FitsAll M l vs) (h' : FitsAll M l vs')
    (hus : Assigns vs vs' us) :
    FitsAll M l us := by
  refine List.forall₂_iff_get.mpr ⟨h.length_eq.trans hus.length.symm, ?_⟩
  intro k hk hk'
  rcases hus.value k _ (List.getElem?_eq_getElem hk') with hu | hu
  · obtain ⟨hlt, heq⟩ := List.getElem?_eq_some_iff.mp hu
    exact (congrArg (M.Fits _) heq).mp ((List.forall₂_iff_get.mp h').2 k hk hlt)
  · obtain ⟨hlt, heq⟩ := List.getElem?_eq_some_iff.mp hu
    exact (congrArg (M.Fits _) heq).mp ((List.forall₂_iff_get.mp h).2 k hk hlt)

/-- Every iteration starts with values of the types inferred. -/
theorem reaches_fits (hl : Sound M ρ l) (h : Reaches M ρ l vs) :
    l.names.Nodup ∧ FitsAll M l vs := by
  induction h with
  | init hnodup h => exact ⟨hnodup, fits_init hl hnodup h⟩
  | step _ hjump hlen hus ih =>
    exact ⟨ih.1, fits_assigns ih.2 (fits_jump hl ih.1 ih.2 hjump hlen) hus⟩

end

/-- The types inferred for a sound loop hold in every iteration: of the variables, of the
declarations emitted for them, and of the operands of every operator rewritten. -/
theorem numeric_types_hold (M : Machine V) (ρ : Locals V) (l : Loop) (hl : Sound M ρ l) :
    ∀ vs, Reaches M ρ l vs → TypesHold M ρ l vs := by
  intro vs h
  obtain ⟨hnodup, hfit⟩ := reaches_fits hl h
  refine ⟨hfit, ?_, fun hrun => body_keeps hl hnodup hfit hrun⟩
  intro d hd
  obtain ⟨s, -, hs⟩ := List.mem_filterMap.mp hd
  refine (agrees_inside hnodup hfit ρ).typed d.1 d.2 ?_
  split at hs <;> cases hs
  assumption

theorem settles_of_unchanged {l : Loop} (h : (numRound l (initEnv .empty l.bindings)).2 = false) :
    settles l = true := by
  have hfix := numRound_unchanged h
  rw [settles, Function.iterate_fixed hfix, h]
  rfl

/-- CL numbers, and all names standard. -/
def clMachine : Machine ClNumber where
  toArithmetic := clArithmetic
  standard := fun _ => true

/-- `(loop [x 2 n 0] (if (= n 1) x (recur step (inc n))))`. -/
def countedLoop (step : Ast) : Loop where
  bindings := [(⟨"X", "USER"⟩, .literal (.num 2)), (⟨"N", "USER"⟩, .literal (.num 0))]
  body := [.ifNode (.call (.symbolRef ⟨"=", "FOL"⟩) [.symbolRef ⟨"N", "USER"⟩, .literal (.num 1)])
    (.symbolRef ⟨"X", "USER"⟩)
    [.recur [step, .call (.symbolRef ⟨"INC", "FOL"⟩) [.symbolRef ⟨"N", "USER"⟩]]]]

/-- `(* x 2)`. -/
def doubling : Ast := .call (.symbolRef ⟨"*", "FOL"⟩) [.symbolRef ⟨"X", "USER"⟩, .literal (.num 2)]

/-- `(/ x)`. -/
def reciprocal : Ast := .call (.symbolRef ⟨"/", "FOL"⟩) [.symbolRef ⟨"X", "USER"⟩]

theorem number_int (n : Int) : clMachine.hasType .number (.int n) := Below.number .integer

/-- The second iteration, if the test and the count are rewritten. -/
theorem countedLoop_reaches {step : Ast} {v : ClNumber}
    (htest : rewrites (numInferLoopEnv (countedLoop step)) ⟨"=", "FOL"⟩
      [.symbolRef ⟨"N", "USER"⟩, .literal (.num 1)] = some ⟨"=", "COMMON-LISP"⟩)
    (hcount : rewrites (numInferLoopEnv (countedLoop step)) ⟨"INC", "FOL"⟩
      [.symbolRef ⟨"N", "USER"⟩] =
      some ⟨"1+", "COMMON-LISP"⟩)
    (hstep : Run clMachine (some (numInferLoopEnv (countedLoop step)))
      (Locals.setAll (fun _ => none) (countedLoop step).names [.int 2, .int 0]) (.node step)
      (.value v)) :
    Reaches clMachine (fun _ => none) (countedLoop step) [v, .int 1] := by
  have hstart : Reaches clMachine (fun _ => none) (countedLoop step) [.int 2, .int 0] :=
    .init (by simp [Loop.names, countedLoop]) (.cons .literal (.cons .literal .nil))
  have hjump : Jumps clMachine (fun _ => none) (countedLoop step) [.int 2, .int 0] [v, .int 1] := by
    refine .inl (.bodyLast (.ifElse (u := .other) ?_ (.bodyLast (.recur (.valuesCons hstep
      (.valuesCons ?_ .valuesNil))))))
    · exact .rewritten htest (.valuesCons (.local rfl) (.valuesCons .literal .valuesNil))
        (List.forall_mem_cons.mpr ⟨number_int 0, List.forall_mem_singleton.mpr (number_int 1)⟩)
        (fun h => absurd h (by decide))
    · exact .rewritten hcount (.valuesCons (.local rfl) .valuesNil)
        (List.forall_mem_singleton.mpr (number_int 0))
        (fun _ => by decide +kernel)
  exact .step hstart hjump rfl ⟨rfl, fun _ _ h => .inl h⟩

/-- In the second iteration the variables are 4 and 1. -/
theorem doubling_types_hold :
    TypesHold clMachine (fun _ => none) (countedLoop doubling) [.int 4, .int 1] :=
  numeric_types_hold clMachine (fun _ => none) (countedLoop doubling)
    { inits := by decide +kernel
      initsAgree := by decide +kernel
      body := by decide +kernel
      closures := by decide +kernel
      settles := settles_of_unchanged (by decide) }
    [.int 4, .int 1] (countedLoop_reaches (by decide) (by decide)
      (.rewritten (show rewrites _ _ _ = some ⟨"*", "COMMON-LISP"⟩ by decide)
        (.valuesCons (.local rfl) (.valuesCons .literal .valuesNil))
        (List.forall_mem_cons.mpr ⟨number_int 2, List.forall_mem_singleton.mpr (number_int 2)⟩)
        (fun _ => by decide +kernel)))

theorem reciprocal_breaks_types : ¬ ∀ (M : Machine ClNumber) (ρ : Locals ClNumber) (l : Loop),
    ∀ vs, Reaches M ρ l vs → TypesHold M ρ l vs := by
  intro h
  let l := countedLoop reciprocal
  have hE : numInferLoopEnv l ⟨"X", "USER"⟩ = some .integer := by decide +kernel
  have hreach : Reaches clMachine (fun _ => none) l [.ratio (1 / 2), .int 1] :=
    countedLoop_reaches (by decide) (by decide)
      (.rewritten (show rewrites _ _ _ = some ⟨"/", "COMMON-LISP"⟩ by decide)
        (.valuesCons (.local rfl) .valuesNil)
        (List.forall_mem_singleton.mpr (number_int 2)) (fun _ => by decide +kernel))
  have hhold := (h clMachine (fun _ => none) l [.ratio (1 / 2), .int 1] hreach).typed
  cases hhold with
  | cons hx _ =>
    have hbelow := hx _ hE
    exact absurd hbelow.eq_integer (by decide)

end Fol.Numeric

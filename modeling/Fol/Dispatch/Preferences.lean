/-
Fol.Dispatch.Preferences — `prefer-method` of compiler.lisp and its search for cycles.

A preference is stored under the qualifier that yields: the table of a generic function maps a
qualifier to those preferred over it. The search starts at what is preferred over the new
preferred qualifier and looks for the one that is to yield; the two themselves it never
compares. So a qualifier can be preferred over itself.
-/
import Fol.Lib.Runs
import Fol.Lib.Search
import Fol.Lib.Table

namespace Fol.Dispatch.Preferences

open Lib Relation

/-! ## §1 Registry -/

section Registry

variable {G Q : Type} [DecidableEq G] [DecidableEq Q]

/-- The table of one generic function: from a qualifier to those preferred over it. -/
abbrev Prefs (Q : Type) [DecidableEq Q] := Table Q (List Q)

/-- `*method-preferences*`. -/
abbrev Registry (G Q : Type) [DecidableEq G] [DecidableEq Q] := Table G (Prefs Q)

/-- `(gethash node prefs-for-gf)`. -/
def parents (prefs : Prefs Q) (node : Q) : List Q := (prefs.get node).getD []

/-- All qualifiers that are preferred over one. -/
def preferred (prefs : Prefs Q) : List Q := prefs.entries.flatMap (·.2)

/-- `creates-cycle-p`; `none` when the search goes deeper than there are qualifiers to visit. -/
def createsCycleP (registry : Registry G Q) (gfName : G) (sub pref : Q) : Option Bool :=
  match registry.get gfName with
  | none => some false
  | some prefs =>
    Search.search (parents prefs) sub ((preferred prefs).length + 1) (parents prefs pref)

/-- `pushnew`, which compares by EQL. -/
def pushnew (eql : Q → Q → Bool) (item : Q) (place : List Q) : List Q :=
  if place.any (eql item) then place else item :: place

/-- A call of `prefer-method`. -/
structure Call (G Q : Type) where
  gfName : G
  prefQualifier : Q
  subQualifier : Q

/-- `prefer-method`: the registry after the call, or the error. -/
def preferMethod (eql : Q → Q → Bool) (registry : Registry G Q) (c : Call G Q) :
    Option (Except String (Registry G Q)) :=
  (createsCycleP registry c.gfName c.subQualifier c.prefQualifier).map fun cycle =>
    if cycle then .error "Circular preference"
    else
      let prefs := (registry.get c.gfName).getD {}
      .ok (registry.set c.gfName (prefs.set c.subQualifier
        (pushnew eql c.prefQualifier (parents prefs c.subQualifier))))

/-- The registry after the call, be it accepted or rejected. -/
def step (eql : Q → Q → Bool) (registry : Registry G Q) (c : Call G Q) : Option (Registry G Q) :=
  (preferMethod eql registry c).map fun
    | .ok registry' => registry'
    | .error _ => registry

/-! ## §2 Runs -/

/-- The stored preferences of a generic function. -/
def Stored (registry : Registry G Q) (gfName : G) (sub pref : Q) : Prop :=
  pref ∈ ((registry.get gfName).map (parents · sub)).getD []

/-- No qualifier is preferred over itself, however many preferences are between. -/
def Acyclic (r : Q → Q → Prop) : Prop := ∀ q, ¬TransGen r q q

/-- The relation with one preference more. -/
def Adding (r : Q → Q → Prop) (sub pref : Q) (a b : Q) : Prop := r a b ∨ (a = sub ∧ b = pref)

/-- A call returns, signals an error exactly if its preference closes a cycle, and leaves the
preferences as they are if it does. -/
structure Right (eql : Q → Q → Bool) (registry : Registry G Q) (c : Call G Q) : Prop where
  terminates : (createsCycleP registry c.gfName c.subQualifier c.prefQualifier).isSome = true
  rejects : preferMethod eql registry c = some (.error "Circular preference") ↔
    ¬Acyclic (Adding (Stored registry c.gfName) c.subQualifier c.prefQualifier)
  unchanged : ∀ message, preferMethod eql registry c = some (.error message) →
    step eql registry c = some registry

/-! ## §3 Search -/

omit [DecidableEq G] in
theorem mem_preferred {prefs : Prefs Q} {sub pref : Q} (h : pref ∈ parents prefs sub) :
    pref ∈ preferred prefs := by
  unfold parents at h
  cases hget : prefs.get sub with
  | none => simp [hget] at h
  | some l =>
    rw [hget, Option.getD_some] at h
    exact List.mem_flatMap.mpr ⟨(sub, l), (prefs.get_eq_some_iff).mp hget, h⟩

/-- The search answers on every registry, and its answer is whether the preferred qualifier
yields to the other one already. -/
theorem createsCycleP_spec (registry : Registry G Q) (gfName : G) (sub pref : Q) :
    ∃ b, createsCycleP registry gfName sub pref = some b ∧
      (b = true ↔ TransGen (Stored registry gfName) pref sub) := by
  unfold createsCycleP
  cases hget : registry.get gfName with
  | none =>
    refine ⟨false, rfl, by simp, fun hpath => ?_⟩
    obtain ⟨q, hq, -⟩ := TransGen.head'_iff.mp hpath
    simp [Stored, hget] at hq
  | some prefs =>
    have hstored : Stored registry gfName = fun a b => b ∈ parents prefs a := by
      funext a b
      simp [Stored, hget]
    have hclosed : ∀ v ∈ (preferred prefs).toFinset, ∀ w ∈ parents prefs v,
        w ∈ (preferred prefs).toFinset :=
      fun v _ w hw => List.mem_toFinset.mpr (mem_preferred hw)
    have hfuel : ((preferred prefs).toFinset \ ([] : List Q).toFinset).card <
        (preferred prefs).length + 1 := by
      have hle := List.toFinset_card_le (preferred prefs)
      simp only [List.toFinset_nil, Finset.sdiff_empty]
      omega
    obtain ⟨r, hr, -⟩ : ∃ r, Search.visitAll
        (Search.visit (parents prefs) sub ((preferred prefs).length + 1)) (parents prefs pref) [] =
          some r ∧ [] ⊆ r.2 :=
      Search.visitAll_isSome hclosed _ (fun v hv => List.mem_toFinset.mpr (mem_preferred hv)) hfuel
    have hsearch : Search.search (parents prefs) sub ((preferred prefs).length + 1)
        (parents prefs pref) = some r.1 := by
      rw [Search.search, hr]
      rfl
    refine ⟨r.1, hsearch, ?_⟩
    rw [Search.search_iff hsearch, hstored, TransGen.head'_iff]
    rfl

/-! ## §4 Steps -/

omit [DecidableEq Q] in
/-- A path with one edge more is an old path, or leads to the edge and away from it. -/
theorem path_of_adding {r : Q → Q → Prop} {sub pref a b : Q}
    (h : TransGen (Adding r sub pref) a b) :
    TransGen r a b ∨ (ReflTransGen r a sub ∧ ReflTransGen r pref b) := by
  induction h with
  | single hab =>
    rcases hab with hr | ⟨rfl, rfl⟩
    · exact .inl (.single hr)
    · exact .inr ⟨.refl, .refl⟩
  | tail _ hbc ih =>
    rcases hbc with hr | ⟨rfl, rfl⟩
    · exact ih.imp (·.tail hr) (And.imp_right (·.tail hr))
    · rcases ih with hold | ⟨hto, -⟩
      · exact .inr ⟨hold.to_reflTransGen, .refl⟩
      · exact .inr ⟨hto, .refl⟩

omit [DecidableEq Q] in
/-- In a relation without cycles an edge closes one exactly if there is a path back along it. -/
theorem adding_acyclic_iff {r : Q → Q → Prop} (hr : Acyclic r) (sub pref : Q) :
    Acyclic (Adding r sub pref) ↔ ¬ReflTransGen r pref sub := by
  have hmono : ∀ a b, r a b → Adding r sub pref a b := fun _ _ => .inl
  constructor
  · intro hadd hpath
    exact hadd sub (TransGen.head' (.inr ⟨rfl, rfl⟩) (ReflTransGen.mono hmono _ _ hpath))
  · intro hpath q hq
    rcases path_of_adding hq with hold | ⟨hto, hfrom⟩
    · exact hr q hold
    · exact hpath (hfrom.trans hto)

omit [DecidableEq Q] in
theorem Acyclic.mono {r s : Q → Q → Prop} (h : Acyclic s) (hrs : ∀ a b, r a b → s a b) :
    Acyclic r :=
  fun q hq => h q (TransGen.mono hrs _ _ hq)

omit [DecidableEq Q] in
theorem mem_pushnew {eql : Q → Q → Bool} {item q : Q} {place : List Q}
    (h : q ∈ pushnew eql item place) : q = item ∨ q ∈ place := by
  unfold pushnew at h
  split at h
  · exact .inr h
  · exact List.mem_cons.mp h

/-- An accepted call stores no more than its preference. -/
theorem stored_of_set (eql : Q → Q → Bool) (registry : Registry G Q) (c : Call G Q) (gfName : G)
    (a b : Q)
    (h : Stored (registry.set c.gfName (((registry.get c.gfName).getD {}).set c.subQualifier
      (pushnew eql c.prefQualifier (parents ((registry.get c.gfName).getD {}) c.subQualifier))))
      gfName a b) :
    Stored registry gfName a b ∨
      (c.gfName = gfName ∧ a = c.subQualifier ∧ b = c.prefQualifier) := by
  unfold Stored at h ⊢
  by_cases hname : c.gfName = gfName
  · subst hname
    have hold : ((registry.get c.gfName).map (parents · a)).getD [] =
        parents ((registry.get c.gfName).getD {}) a := by
      cases registry.get c.gfName with
      | none => rfl
      | some prefs => rfl
    rw [Table.get_set_self, Option.map_some, Option.getD_some, parents, Table.get_set] at h
    rw [hold]
    by_cases hsub : c.subQualifier = a
    · rw [if_pos hsub, Option.getD_some] at h
      rw [← hsub]
      exact (mem_pushnew h).symm.imp id fun hb => ⟨rfl, rfl, hb⟩
    · rw [if_neg hsub] at h
      exact .inl h
  · rw [Table.get_set_ne _ _ hname] at h
    exact .inl h

/-- What one call does: a cycle is reported, or the preference is stored. -/
theorem step_cases (eql : Q → Q → Bool) (registry : Registry G Q) (c : Call G Q) :
    (TransGen (Stored registry c.gfName) c.prefQualifier c.subQualifier ∧
      preferMethod eql registry c = some (.error "Circular preference") ∧
      step eql registry c = some registry) ∨
    (¬TransGen (Stored registry c.gfName) c.prefQualifier c.subQualifier ∧
      ∃ registry', preferMethod eql registry c = some (.ok registry') ∧
        step eql registry c = some registry' ∧ ∀ gfName a b, Stored registry' gfName a b →
          Stored registry gfName a b ∨
            (c.gfName = gfName ∧ a = c.subQualifier ∧ b = c.prefQualifier)) := by
  obtain ⟨b, hb, hiff⟩ := createsCycleP_spec registry c.gfName c.subQualifier c.prefQualifier
  cases b with
  | true =>
    refine .inl ⟨hiff.mp rfl, ?_, ?_⟩
    · simp [preferMethod, hb]
    · simp [step, preferMethod, hb]
  | false =>
    refine .inr ⟨fun hpath => absurd (hiff.mpr hpath) (by simp), _, ?_, ?_,
      stored_of_set eql registry c⟩
    · simp [preferMethod, hb]
    · simp [step, preferMethod, hb]

theorem step_isSome (eql : Q → Q → Bool) (registry : Registry G Q) (c : Call G Q) :
    ∃ registry', step eql registry c = some registry' := by
  rcases step_cases eql registry c with ⟨-, -, hstep⟩ | ⟨-, registry', -, hstep, -⟩
  · exact ⟨registry, hstep⟩
  · exact ⟨registry', hstep⟩

omit [DecidableEq Q] in
/-- Of two different qualifiers, one that is reached is reached by a preference. -/
theorem path_iff_of_ne {r : Q → Q → Prop} {sub pref : Q} (h : pref ≠ sub) :
    ReflTransGen r pref sub ↔ TransGen r pref sub := by
  rw [reflTransGen_iff_eq_or_transGen]
  exact or_iff_right fun heq => h heq.symm

/-- In a registry without cycles, a call does what it should exactly if its qualifiers differ. -/
theorem right_iff (eql : Q → Q → Bool) {registry : Registry G Q}
    (hacyclic : ∀ gfName, Acyclic (Stored registry gfName)) (c : Call G Q) :
    Right eql registry c ↔ c.prefQualifier ≠ c.subQualifier := by
  have hadd := adding_acyclic_iff (hacyclic c.gfName) c.subQualifier c.prefQualifier
  have hterminates : (createsCycleP registry c.gfName c.subQualifier c.prefQualifier).isSome =
    true := by
    obtain ⟨b, hb, -⟩ := createsCycleP_spec registry c.gfName c.subQualifier c.prefQualifier
    rw [hb]
    rfl
  constructor
  · intro h heq
    have hreject := h.rejects.mpr fun hac => hadd.mp hac (heq ▸ .refl)
    rcases step_cases eql registry c with ⟨hpath, -⟩ | ⟨-, registry', hok, -⟩
    · rw [heq] at hpath
      exact hacyclic c.gfName _ hpath
    · rw [hreject] at hok
      simp at hok
  · intro hne
    have hpath := path_iff_of_ne (r := Stored registry c.gfName) hne
    rcases step_cases eql registry c with ⟨hp, herr, hstep⟩ | ⟨hp, registry', hok, hstep, -⟩
    · exact ⟨hterminates, iff_of_true herr fun hac => hadd.mp hac (hpath.mpr hp), fun _ _ => hstep⟩
    · refine ⟨hterminates, iff_of_false ?_ ?_, fun message herr => ?_⟩
      · rw [hok]
        simp
      · exact not_not.mpr (hadd.mpr fun h => hp (hpath.mp h))
      · rw [hok] at herr
        simp at herr

/-- The step lemma: a call with two different qualifiers keeps the registry without cycles. -/
theorem acyclic_step (eql : Q → Q → Bool) {registry registry' : Registry G Q} {c : Call G Q}
    (hacyclic : ∀ gfName, Acyclic (Stored registry gfName)) (hne : c.prefQualifier ≠ c.subQualifier)
    (hstep : step eql registry c = some registry') :
    ∀ gfName, Acyclic (Stored registry' gfName) := by
  rcases step_cases eql registry c with ⟨-, -, hsame⟩ | ⟨hp, registry'', -, hstored, hmore⟩
  · rw [hsame] at hstep
    cases hstep
    exact hacyclic
  · rw [hstored] at hstep
    cases hstep
    intro gfName
    by_cases hname : c.gfName = gfName
    · subst hname
      have hadd := (adding_acyclic_iff (hacyclic c.gfName) c.subQualifier c.prefQualifier).mpr
        fun h => hp ((path_iff_of_ne hne).mp h)
      exact hadd.mono fun a b hab => (hmore c.gfName a b hab).imp id And.right
    · exact (hacyclic gfName).mono fun a b hab =>
        (hmore gfName a b hab).resolve_right fun h => hname h.1

/-! ## §5 Result -/

theorem acyclic_empty (gfName : G) : Acyclic (Stored ({} : Registry G Q) gfName) := by
  intro q hq
  obtain ⟨p, hp, -⟩ := TransGen.head'_iff.mp hq
  simp [Stored] at hp

/-- Every sequence of calls has a run, and in a run the preferences stay without cycles and every
call does what it should exactly if no call has one qualifier twice. -/
theorem preferences_acyclic_iff (G Q : Type) [DecidableEq G] [DecidableEq Q] (eql : Q → Q → Bool) :
    (∀ calls : List (Call G Q), ∃ run : List (Call G Q × Registry G Q),
      IsRun (fun s c s' => step eql s c = some s') {} run ∧ run.map Prod.fst = calls) ∧
    ∀ run : List (Call G Q × Registry G Q), IsRun (fun s c s' => step eql s c = some s') {} run →
      ((Always (fun s => ∀ gfName, Acyclic (Stored s gfName)) {} run ∧
        EachStep (fun s c => Right eql s c) {} run) ↔
      EachStep (fun _ c => c.prefQualifier ≠ c.subQualifier) {} run) := by
  constructor
  · intro calls
    have hruns : ∀ s : Registry G Q, ∃ run : List (Call G Q × Registry G Q),
        IsRun (fun s c s' => step eql s c = some s') s run ∧ run.map Prod.fst = calls := by
      induction calls with
      | nil => exact fun s => ⟨[], trivial, rfl⟩
      | cons c calls ih =>
        intro s
        obtain ⟨s', hs'⟩ := step_isSome eql s c
        obtain ⟨run, hrun, hcalls⟩ := ih s'
        exact ⟨(c, s') :: run, ⟨hs', hrun⟩, by rw [List.map_cons, hcalls]⟩
    exact hruns {}
  · have hrun : ∀ (run : List (Call G Q × Registry G Q)) (s : Registry G Q),
        (∀ gfName, Acyclic (Stored s gfName)) → IsRun (fun s c s' => step eql s c = some s') s run →
        ((Always (fun s => ∀ gfName, Acyclic (Stored s gfName)) s run ∧
          EachStep (fun s c => Right eql s c) s run) ↔
        EachStep (fun _ c => c.prefQualifier ≠ c.subQualifier) s run) := by
      intro run
      induction run with
      | nil => exact fun s hs _ => iff_of_true ⟨hs, trivial⟩ trivial
      | cons p run ih =>
        rintro s hs ⟨hstep, hrest⟩
        constructor
        · rintro ⟨hall, hright, hrights⟩
          exact ⟨(right_iff eql hs p.1).mp hright, (ih p.2 hall.2.head hrest).mp ⟨hall.2, hrights⟩⟩
        · rintro ⟨hne, hnes⟩
          have hs' := acyclic_step eql hs hne hstep
          obtain ⟨hall, hrights⟩ := (ih p.2 hs' hrest).mpr hnes
          exact ⟨⟨hs, hall⟩, (right_iff eql hs p.1).mpr hne, hrights⟩
    exact fun run => hrun run {} acyclic_empty

/-- `(prefer-method 'gf :a :a)` is accepted, and stores `:a` as preferred over itself. -/
theorem preferred_over_itself :
    ¬∀ run : List (Call String String × Registry String String),
      IsRun (fun s c s' => step (· == ·) s c = some s') {} run →
        Always (fun s => ∀ gfName, Acyclic (Stored s gfName)) {} run := by
  intro h
  have hrun := h [(⟨"GF", ":a", ":a"⟩, Table.set {} "GF" (Table.set {} ":a" [":a"]))] ⟨rfl, trivial⟩
  refine hrun.2 "GF" ":a" (.single ?_)
  show ":a" ∈ _
  decide

end Registry

end Fol.Dispatch.Preferences

/-
Fol.World.Notification — when a change of a function is followed by
`note-redefinition`, over any sequence of compiled and evaluated forms.

Which functions a form changes is decided by the definitions in it, nested `do` forms
included; whether one is notified, by the outermost node alone. The first does not depend
on the clauses of the definitions (`outline`), so the fast and the fallback form of a
guarded definition change the same names.
-/
import Fol.World.CompileForm

namespace Fol.Notification

open Fol.Escape Fol.Regions Fol.CompileForm

/-! ## §1 Outlines -/

mutual

/-- A form without its clauses and expressions. -/
def outline : TopLevel → TopLevel
  | .function type name _ => .function type name []
  | .defmethod name _ => .defmethod name []
  | .defgeneric name lambdaLists => .defgeneric name lambdaLists
  | .defVar name value => .defVar name value
  | .doNode body => .doNode (outlines body)
  | .expression _ => .expression (.literal .nil)

def outlines : List TopLevel → List TopLevel
  | [] => []
  | n :: ns => outline n :: outlines ns

end

/-- The pass changes clauses and expressions only. -/
theorem outline_intraBindVisit {flags : Flags} {info : TypeInfo} {fuel : Nat} {form : TopLevel}
    {out : Rewritten TopLevel} (h : intraBindVisit flags info fuel form = .ok out) :
    outline out.node = outline form := by
  induction form generalizing out with
  | function type name clauses =>
    rw [intraBindVisit] at h
    cases hk : srVisitList (srIntraBindVisit flags info fuel) (clauses.flatMap (·.2)) with
    | error e => rw [hk] at h; cases h
    | ok kids =>
      rw [hk] at h
      obtain rfl := Except.ok.inj h
      rfl
  | defmethod name clauses =>
    rw [intraBindVisit] at h
    cases hk : srVisitList (srIntraBindVisit flags info fuel) (clauses.flatMap (·.2)) with
    | error e => rw [hk] at h; cases h
    | ok kids =>
      rw [hk] at h
      obtain rfl := Except.ok.inj h
      rfl
  | defgeneric name lambdaLists =>
    rw [intraBindVisit] at h
    obtain rfl := Except.ok.inj h
    rfl
  | defVar name value =>
    rw [intraBindVisit] at h
    cases hk : srVisitList (srIntraBindVisit flags info fuel) value.toList with
    | error e => rw [hk] at h; cases h
    | ok kids =>
      rw [hk] at h
      obtain rfl := Except.ok.inj h
      rfl
  | doNode body ih =>
    rw [intraBindVisit] at h
    cases hk : intraBindVisitAll flags info fuel body with
    | error e => rw [hk] at h; cases h
    | ok kids =>
      rw [hk] at h
      obtain rfl := Except.ok.inj h
      have hkids : outlines (kids.map (·.node)) = outlines body := by
        clear h
        induction body generalizing kids with
        | nil =>
          rw [intraBindVisitAll] at hk
          obtain rfl := Except.ok.inj hk
          rfl
        | cons n ns ihs =>
          rw [intraBindVisitAll] at hk
          cases hn : intraBindVisit flags info fuel n with
          | error e => rw [hn] at hk; cases hk
          | ok first =>
            rw [hn] at hk
            cases hns : intraBindVisitAll flags info fuel ns with
            | error e => rw [hns] at hk; cases hk
            | ok rest =>
              rw [hns] at hk
              obtain rfl := Except.ok.inj hk
              have hfirst := ih n List.mem_cons_self hn
              have hrest := ihs (fun m hm => ih m (List.mem_cons_of_mem _ hm)) rest hns
              simp [outlines, hfirst, hrest]
      exact congrArg TopLevel.doNode hkids
  | expression node =>
    rw [intraBindVisit] at h
    cases hk : srIntraBindVisit flags info fuel node with
    | error e => rw [hk] at h; cases h
    | ok kids =>
      rw [hk] at h
      obtain rfl := Except.ok.inj h
      rfl

theorem outline_srIntraBindPass {flags : Flags} {info : TypeInfo} {fuel : Nat} {form : TopLevel}
    {out : Rewritten TopLevel} (h : srIntraBindPass flags info fuel form = .ok out) :
    outline out.node = outline form := by
  unfold srIntraBindPass at h
  split at h
  · exact outline_intraBindVisit h
  · exact congrArg (outline ∘ Rewritten.node) (Except.ok.inj h).symm

theorem definition?_outline (form : TopLevel) :
    (outline form).definition?.map (·.1) = form.definition?.map (·.1) := by
  cases form <;> rfl

/-- The same functions exist, the same variables are bound, and the same has happened. -/
structure Alike (a b : Image) : Prop where
  log : a.log = b.log
  aborted : a.aborted = b.aborted
  bound : a.bound = b.bound
  function : ∀ s, (a.function s).map (·.generic) = (b.function s).map (·.generic)

namespace Alike

variable {a b : Image}

theorem isSome (h : Alike a b) (s : Symbol) : (a.function s).isSome = (b.function s).isSome := by
  rw [← Option.isSome_map, h.function, Option.isSome_map]

theorem ordinaryFunction (h : Alike a b) (s : Symbol) :
    a.ordinaryFunction s = b.ordinaryFunction s := by
  have hf := h.function s
  unfold Image.ordinaryFunction
  cases ha : a.function s <;> cases hb : b.function s <;> simp_all

theorem install (h : Alike a b) (name : Symbol) {d e : Definition} (hde : d.generic = e.generic) :
    Alike (a.install name d) (b.install name e) := by
  refine ⟨?_, h.aborted, h.bound, ?_⟩
  · simp [Image.install, h.log]
  · intro s
    by_cases hs : s = name
    · simp [Image.install, hs, hde]
    · simp [Image.install, hs, h.function s]

theorem abort (h : Alike a b) : Alike { a with aborted := true } { b with aborted := true } :=
  ⟨h.log, rfl, h.bound, h.function⟩

theorem defvar (h : Alike a b) (functionValued : Ast → Bool) (name : Symbol) (value : Option Ast) :
    Alike (a.defvar functionValued name value) (b.defvar functionValued name value) := by
  cases value with
  | none => exact h
  | some v =>
    have hnone : (a.function name).isNone = (b.function name).isNone := by
      rw [← Option.not_isSome, ← Option.not_isSome, h.isSome]
    simp only [Image.defvar, h.bound, h.log, hnone]
    split
    · exact h
    · exact ⟨rfl, h.aborted, rfl, h.function⟩

/-- Evaluating forms of one outline leaves alike images alike. -/
theorem evalNode (h : Alike a b) (functionValued : Ast → Bool) (form : TopLevel) :
    Alike (a.evalNode functionValued form) (b.evalNode functionValued (outline form)) := by
  induction form generalizing a b with
  | function type name clauses =>
    simp only [outline, Image.evalNode, h.aborted]
    split
    · exact h
    · exact h.install name rfl
  | defmethod name clauses =>
    simp only [outline, Image.evalNode, h.aborted, h.ordinaryFunction]
    split
    · exact h
    · split
      · exact h.abort
      · exact h.install name rfl
  | defgeneric name lambdaLists =>
    simp only [outline, Image.evalNode, h.aborted, h.ordinaryFunction, h.isSome]
    split
    · exact h
    · split
      · exact h.install name rfl
      · split
        · exact h.abort
        · split
          · exact h
          · exact h.install name rfl
  | defVar name value =>
    simp only [outline, Image.evalNode, h.aborted]
    split
    · exact h
    · exact h.defvar functionValued name value
  | doNode body ih =>
    simp only [outline, Image.evalNode]
    induction body generalizing a b with
    | nil => exact h
    | cons n ns ihs =>
      simp only [outlines, Image.evalNodes]
      exact ihs (fun m hm => ih m (List.mem_cons_of_mem _ hm)) (ih n List.mem_cons_self h)
  | expression node => exact h

end Alike

theorem Alike.refl (a : Image) : Alike a a := ⟨rfl, rfl, rfl, fun _ => rfl⟩

/-- Two forms of one outline do the same to alike images. -/
theorem alike_evalNode {a b : Image} (h : Alike a b) (functionValued : Ast → Bool)
    {form form' : TopLevel} (hform : outline form = outline form') :
    Alike (a.evalNode functionValued form) (b.evalNode functionValued form') := by
  have h₁ := h.evalNode functionValued form
  have h₂ := (Alike.refl b).evalNode functionValued form'
  rw [hform] at h₁
  exact ⟨h₁.log.trans h₂.log.symm, h₁.aborted.trans h₂.aborted.symm, h₁.bound.trans h₂.bound.symm,
    fun s => (h₁.function s).trans (h₂.function s).symm⟩

/-! ## §2 Logs -/

section Logs

variable {upcase : String → String} {functionValued : Ast → Bool}

/-- Definitions alone notify nothing. -/
theorem noted_mem_evalNode (img : Image) (form : TopLevel) (name : Symbol) :
    .noted name ∈ (img.evalNode functionValued form).log ↔ .noted name ∈ img.log := by
  induction form generalizing img with
  | function type f clauses =>
    rw [Image.evalNode]
    split <;> simp [Image.install]
  | defmethod f clauses =>
    rw [Image.evalNode]
    split
    · rfl
    · split <;> simp [Image.install]
  | defgeneric f lambdaLists =>
    rw [Image.evalNode]
    split
    · rfl
    · split
      · simp [Image.install]
      · split
        · rfl
        · split <;> simp [Image.install]
  | defVar f value =>
    rw [Image.evalNode]
    split
    · rfl
    · cases value with
      | none => rfl
      | some v =>
        simp only [Image.defvar]
        split
        · rfl
        · split <;> simp
  | doNode body ih =>
    rw [Image.evalNode]
    induction body generalizing img with
    | nil => rfl
    | cons n ns ihs =>
      rw [Image.evalNodes, ihs fun m hm => ih m (List.mem_cons_of_mem _ hm)]
      exact ih n List.mem_cons_self img
  | expression node => rfl

/-- A guarded definition does what its original does. -/
theorem alike_guardedCode {flags : Flags} {form : TopLevel} {out : Rewritten TopLevel}
    (h : outline out.node = outline form) {a b : Image} (hab : Alike a b) :
    Alike (evalCode upcase functionValued a (guardedCode flags form out))
      (b.evalNode functionValued form) := by
  unfold guardedCode
  split
  · rw [evalCode]
    have hworld : ∀ w : World, Alike { a with world := w } b :=
      fun w => ⟨hab.log, hab.aborted, hab.bound, hab.function⟩
    refine alike_evalNode (hworld _) functionValued ?_
    split
    · exact h
    · rfl
  · exact alike_evalNode hab functionValued h

theorem redefName_congr {flags : Flags} {a b : TopLevel} (h : outline a = outline b) :
    redefName flags a = redefName flags b := by
  unfold redefName
  rw [← definition?_outline a, h, definition?_outline]

/-- A definition that is notified changes its own function, or aborts. -/
theorem log_definition {form : TopLevel} {clauses : Clauses} {name : Symbol} {img : Image}
    (h : form.definition? = some (name, clauses)) (ha : img.aborted = false) :
    (img.evalNode functionValued form).aborted = false ∧
        (img.evalNode functionValued form).log = img.log ++ [.changed name] ∨
      (img.evalNode functionValued form).aborted = true ∧
        (img.evalNode functionValued form).log = img.log := by
  cases form with
  | function type f cs =>
    obtain ⟨rfl, rfl⟩ := Prod.mk.inj (Option.some.inj h)
    simp [Image.evalNode, ha, Image.install]
  | defmethod f cs =>
    obtain ⟨rfl, rfl⟩ := Prod.mk.inj (Option.some.inj h)
    by_cases ho : img.ordinaryFunction f = true <;>
      simp [Image.evalNode, ha, ho, Image.install]
  | defgeneric f lambdaLists => cases h
  | defVar f value => cases h
  | doNode body => cases h
  | expression node => cases h

end Logs

/-! ## §3 Runs -/

/-- A form, with the flags and the class registry it is compiled under, whether its emission
returns, and the regions its code registers when it is loaded. -/
structure Step where
  flags : Flags
  info : TypeInfo
  form : TopLevel
  emits : Bool := true
  regions : List (List String) := []

/-- Is the name an inlinable helper, does it have a summary, or has a region assumed it? -/
def tracked (upcase : String → String) (img : Image) (name : Symbol) : Bool :=
  (img.tables.inlinableFns name).isSome || (img.srInlinableFns name).isSome ||
    (img.world.inferred name).isSome ||
    img.world.cells.any fun c => c.assumed.any fun a => upcase a = upcase name.name

section Runs

variable (upcase : String → String) (functionValued : Ast → Bool) (fuel : Nat)

/-- The image in which evaluation of a loaded form starts. -/
def load (img : Image) (regions : List (List String)) : Image :=
  { img with world :=
    regions.foldl (·.registerRegion upcase) img.world, aborted := false, log := [] }

def evaluate (loaded : Image) : Option Code → Image
  | some code => evalCode upcase functionValued loaded code
  | none => loaded

/-- Every change of a tracked name's function is followed by its notification. -/
def NotifiesAll (loaded after : Image) : Prop :=
  ∀ name, tracked upcase loaded name = true → ∀ pre post, after.log = pre ++ .changed name :: post →
    .noted name ∈ post

/-- The forms are compiled and evaluated one after the other, each notifying what it changes. -/
def Complete (img : Image) : List Step → Prop
  | [] => True
  | s :: steps => ∀ compiled code,
    compileForm s.flags s.info fuel s.emits img s.form = some (compiled, code) →
      let loaded := load upcase compiled s.regions
      let after := evaluate upcase functionValued loaded code
      NotifiesAll upcase loaded after ∧ Complete after steps

/-- The names whose functions the definitions in a form change. -/
def changedNames (loaded : Image) (form : TopLevel) : List Symbol :=
  (loaded.evalNode functionValued form).log.filterMap fun
    | .changed name => some name
    | .noted _ => none

/-- Every form of the run that changes a tracked name's function is the definition of that
name itself, of a type that is notified, under flags with which it is. -/
def Covered (img : Image) : List Step → Prop
  | [] => True
  | s :: steps => ∀ compiled code,
    compileForm s.flags s.info fuel s.emits img s.form = some (compiled, code) →
      let loaded := load upcase compiled s.regions
      (code.isSome → ∀ name ∈ changedNames functionValued loaded s.form,
        tracked upcase loaded name = true → redefName s.flags s.form = some name) ∧
        Covered (evaluate upcase functionValued loaded code) steps

end Runs

/-! ## §4 Result -/

section Result

variable {upcase : String → String} {functionValued : Ast → Bool} {fuel : Nat}

/-- The code of a compiled form comes from what the intra-bind pass made of it. -/
theorem code_compileForm {flags : Flags} {info : TypeInfo} {emits : Bool} {img compiled : Image}
    {form : TopLevel} {code : Code}
    (h : compileForm flags info fuel emits img form = some (compiled, some code)) :
    ∃ out, outline out.node = outline form ∧ code = finalCode flags form out := by
  unfold compileForm at h
  cases hpass : srIntraBindPass flags info fuel form with
  | error e => rw [hpass] at h; simp [Except.toOption] at h
  | ok out =>
    rw [hpass] at h
    refine ⟨out, outline_srIntraBindPass hpass, ?_⟩
    simp only [Except.toOption, Option.bind_eq_bind, Option.bind_some] at h
    split at h
    · simp at h
    · have hcode : (if emits then some (finalCode flags form out) else none) = some code := by
        split at h
        · obtain ⟨img', -, h⟩ := Option.bind_eq_some_iff.mp h
          exact congrArg Prod.snd (Option.some.inj h)
        · exact congrArg Prod.snd (Option.some.inj h)
      cases emits with
      | false => simp at hcode
      | true => exact (Option.some.inj hcode).symm

theorem log_load (img : Image) (regions : List (List String)) : (load upcase img regions).log
    = [] := rfl

theorem mem_changedNames {loaded : Image} {form : TopLevel} {name : Symbol} :
    name ∈ changedNames functionValued loaded form ↔
      .changed name ∈ (loaded.evalNode functionValued form).log := by
  unfold changedNames
  rw [List.mem_filterMap]
  constructor
  · rintro ⟨e, he, hname⟩
    cases e with
    | changed n =>
      obtain rfl := Option.some.inj hname
      exact he
    | noted n => cases hname
  · intro h
    exact ⟨_, h, rfl⟩

/-- A form that is notified: its definition and the notification, or nothing. -/
theorem log_redefining {flags : Flags} {form : TopLevel} {out : Rewritten TopLevel} {loaded : Image}
    {name : Symbol} (hout : outline out.node = outline form) (hlog : loaded.log = [])
    (ha : loaded.aborted = false) (hr : redefName flags form = some name) :
    (evalCode upcase functionValued loaded (finalCode flags form out)).log =
        [.changed name, .noted name] ∧ changedNames functionValued loaded form = [name] ∨
      (evalCode upcase functionValued loaded (finalCode flags form out)).log = [] ∧
        changedNames functionValued loaded form = [] := by
  have hdef : ∃ clauses, form.definition? = some (name, clauses) := by
    unfold redefName at hr
    split at hr
    · obtain ⟨⟨g, clauses⟩, hdef, rfl⟩ := Option.map_eq_some_iff.mp hr
      exact ⟨clauses, hdef⟩
    · cases hr
  obtain ⟨clauses, hdef⟩ := hdef
  -- the image after `clear-inferred-summary`
  have hl : Alike (evalCode upcase functionValued { loaded with world := { loaded.world with
      inferred := fun s => if s = name then none else loaded.world.inferred s } }
      (guardedCode flags form out)) (loaded.evalNode functionValued form) :=
    alike_guardedCode hout ⟨rfl, rfl, rfl, fun _ => rfl⟩
  have hcode : finalCode flags form out = .redefining name (guardedCode flags form out) := by
    unfold finalCode
    rw [redefName_congr hout, hr]
  rw [hcode, evalCode]
  unfold changedNames
  have hlogged := @log_definition functionValued form clauses name loaded hdef ha
  rcases hlogged with ⟨hok, hlogs⟩ | ⟨hab, hlogs⟩
  · rw [hlog] at hlogs
    refine Or.inl ⟨?_, by simp [hlogs]⟩
    simp only [hl.aborted, hok]
    simp [hl.log, hlogs]
  · rw [hlog] at hlogs
    refine Or.inr ⟨?_, by simp [hlogs]⟩
    simp only [hl.aborted, hab]
    simp [hl.log, hlogs]

/-- The step lemma: a form notifies all it changes exactly when it is covered. -/
theorem notifiesAll_iff {flags : Flags} {form : TopLevel} {out : Rewritten TopLevel}
    {loaded : Image} (hout : outline out.node = outline form) (hlog : loaded.log = [])
    (ha : loaded.aborted = false) :
    NotifiesAll upcase loaded (evalCode upcase functionValued loaded (finalCode flags form out)) ↔
      ∀ name ∈ changedNames functionValued loaded form, tracked upcase loaded name = true →
        redefName flags form = some name := by
  cases hr : redefName flags form with
  | none =>
    have hcode : finalCode flags form out = guardedCode flags form out := by
      unfold finalCode
      rw [redefName_congr hout, hr]
    have hl : Alike (evalCode upcase functionValued loaded (guardedCode flags form out))
        (loaded.evalNode functionValued form) := alike_guardedCode hout (Alike.refl loaded)
    rw [hcode]
    constructor
    · intro h name hname htracked
      obtain ⟨pre, post, hsplit⟩ := List.append_of_mem (mem_changedNames.mp hname)
      have hnoted := h name htracked pre post (hl.log.trans hsplit)
      have hmem : .noted name ∈ (loaded.evalNode functionValued form).log := by
        rw [hsplit]
        exact List.mem_append_right _ (List.mem_cons_of_mem _ hnoted)
      rw [noted_mem_evalNode, hlog] at hmem
      exact absurd hmem List.not_mem_nil
    · intro h name htracked pre post hsplit
      have hmem : .changed name ∈ (loaded.evalNode functionValued form).log := by
        rw [← hl.log, hsplit]
        simp
      cases h name (mem_changedNames.mpr hmem) htracked
  | some f =>
    have hlogged := @log_redefining upcase functionValued flags form out loaded f hout hlog ha hr
    rcases hlogged with ⟨hafter, hnames⟩ | ⟨hafter, hnames⟩
    · rw [NotifiesAll, hafter, hnames]
      constructor
      · intro _ name hname _
        exact congrArg some (List.mem_singleton.mp hname).symm
      · intro _ name _ pre post hsplit
        cases pre with
        | nil =>
          obtain ⟨rfl, rfl⟩ : f = name ∧ [.noted f] = post := by simpa using hsplit
          exact List.mem_cons_self
        | cons e pre =>
          have htail := (List.cons.inj hsplit).2
          cases pre with
          | nil => simp at htail
          | cons e' pre => simp at htail
    · rw [NotifiesAll, hafter, hnames]
      constructor
      · intro _ name hname
        exact absurd hname List.not_mem_nil
      · intro _ name _ pre post hsplit
        simp at hsplit

/-- In every run, every change of a tracked name's function is notified exactly when each
form that makes one is the definition of that name itself, under flags that notify it. -/
theorem notification_complete_iff (upcase : String → String) (functionValued : Ast → Bool)
    (fuel : Nat) (img : Image) (steps : List Step) :
    Complete upcase functionValued fuel img steps ↔ Covered upcase functionValued fuel img
    steps := by
  induction steps generalizing img with
  | nil => exact Iff.rfl
  | cons s steps ih =>
    rw [Complete, Covered]
    refine forall_congr' fun compiled => forall_congr' fun code => forall_congr' fun hcompile => ?_
    refine and_congr ?_ (ih _)
    cases code with
    | none =>
      refine iff_of_true ?_ (fun h => by cases h)
      intro name _ pre post hsplit
      rw [evaluate, log_load] at hsplit
      simp at hsplit
    | some code =>
      obtain ⟨out, hout, rfl⟩ := code_compileForm hcompile
      rw [evaluate, notifiesAll_iff hout (log_load compiled s.regions) rfl]
      exact ⟨fun h _ => h, fun h => h rfl⟩

end Result

/-- `(defn f [acc x] (assoc acc x 1))` inside a `do`. -/
def nestedDefn : TopLevel :=
  .doNode [.function .defn { name := "F" }
    [({ elems := [.symbol { name := "ACC" }, .symbol { name := "X" }] },
      [.call (.symbolRef { name := "ASSOC" })
        [.symbolRef { name := "ACC" }, .symbolRef { name := "X" }, .literal (.num 1)]])]]

/-- The helper in the `do` is registered, and its definition is not notified. -/
theorem nested_defn_not_notified :
    ¬ Complete String.toUpper (fun _ => false) 20 {}
      [{ flags := { transientLoops := true }, info := fun _ => none, form := nestedDefn }] := by
  rw [notification_complete_iff, Covered]
  intro h
  have hregistered : (compileForm { transientLoops := true } (fun _ => none) 20 true {}
    nestedDefn).map
      (fun p => tracked String.toUpper (load String.toUpper p.1 []) { name := "F" } && p.2.isSome) =
        some true := by decide +kernel
  obtain ⟨⟨compiled, code⟩, hcompile, htrue⟩ := Option.map_eq_some_iff.mp hregistered
  obtain ⟨htracked, hcode⟩ := Bool.and_eq_true_iff.mp htrue
  have hmem : ({ name := "F" } : Symbol) ∈
      changedNames (fun _ => false) (load String.toUpper compiled []) nestedDefn := by
    simp [mem_changedNames, nestedDefn, Image.evalNode, Image.evalNodes, load, Image.install]
  have hr := (h compiled code hcompile).1 hcode { name := "F" } hmem htracked
  simp [redefName, nestedDefn, TopLevel.definition?] at hr

end Fol.Notification

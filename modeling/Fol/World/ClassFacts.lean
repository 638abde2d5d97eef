/-
Fol.World.ClassFacts — where the facts of `infer-interprocedural-types` hold of every run.

Evidence only moves facts up, so a round that changes nothing has joined nothing new:
every counted argument and every tail expression is already below the fact it was joined to
(`round_closed`). Induction over evaluation then shows that a fact holds of what it is about, with
`bottom` holding of nothing (`eval_evidence`), and induction over the runs carries the facts to
the parameters (`runs_hold`). What is left is that each way of entering a function is counted
or guarded, and that names mean what the tables take them for: the conditions of `Sound` and, on the
text alone, of `Plain`.

  §1 Order  — `Fact.Le`, `round_closed`.
  §2 Tables — what the tables say of the definitions.
  §3 Scans  — everything that occurs is scanned.
  §4 Facts  — `Sound`, `eval_evidence`, `runs_hold`.
  §5 Claims — `class_facts_hold`.
-/
import Mathlib.Data.List.Forall2
import Fol.World.CallRuns

namespace Fol.Interprocedural

open Fol.Escape Fol.CompileForm

/-! ## §1 Order -/

/-- The second says at most what the first says. -/
def Fact.Le (a b : Fact) : Prop := a = b ∨ a = .bottom ∨ b = .conflict

namespace Fact.Le

theorem refl (a : Fact) : a.Le a := .inl rfl

theorem trans {a b c : Fact} (hab : a.Le b) (hbc : b.Le c) : a.Le c := by
  rcases hab with rfl | rfl | rfl
  · exact hbc
  · exact .inr (.inl rfl)
  · rcases hbc with rfl | h | rfl
    · exact .inr (.inr rfl)
    · exact nomatch h
    · exact .inr (.inr rfl)

theorem antisymm {a b : Fact} (hab : a.Le b) (hba : b.Le a) : a = b := by
  rcases hab with rfl | rfl | rfl
  · rfl
  · rcases hba with h | h | h
    · exact h.symm
    · exact h.symm
    · exact nomatch h
  · rcases hba with h | h | h
    · exact h.symm
    · exact nomatch h
    · exact h

theorem join (current : Fact) (evidence : Evidence) :
    current.Le (ipJoinEvidence current evidence) := by
  cases evidence with
  | pending => exact refl current
  | conflict => cases current <;> exact .inr (.inr rfl)
  | cls c =>
    cases current with
    | bottom => exact .inr (.inl rfl)
    | conflict => exact refl _
    | cls d =>
      rw [ipJoinEvidence]
      split
      · exact refl _
      · exact .inr (.inr rfl)

end Fact.Le

/-- Pointwise, the facts of all parameters and results. -/
structure Tables.Le (T T' : Tables) : Prop where
  params : ∀ f, List.Forall₂ Fact.Le (T.params f) (T'.params f)
  returns : ∀ f, (T.returns f).Le (T'.returns f)

theorem forall₂_antisymm {l l' : List Fact} (h : List.Forall₂ Fact.Le l l')
    (h' : List.Forall₂ Fact.Le l' l) : l = l' := by
  induction h with
  | nil => rfl
  | cons hab _ ih =>
    cases h' with
    | cons hba htail => rw [hab.antisymm hba, ih htail]

theorem forall₂_trans {l l' l'' : List Fact} (h : List.Forall₂ Fact.Le l l')
    (h' : List.Forall₂ Fact.Le l' l'') : List.Forall₂ Fact.Le l l'' := by
  induction h generalizing l'' with
  | nil =>
    cases h'
    exact .nil
  | cons hab _ ih =>
    cases h' with
    | cons hbc htail => exact .cons (hab.trans hbc) (ih htail)

theorem forall₂_set {l : List Fact} {i : Nat} {x : Fact} (h : ∀ old, l[i]? = some old → old.Le x) :
    List.Forall₂ Fact.Le l (l.set i x) := by
  induction l generalizing i with
  | nil => exact .nil
  | cons a l ih =>
    cases i with
    | zero => exact .cons (h a rfl) (List.forall₂_same.mpr fun b _ => .refl b)
    | succ i => exact .cons (.refl a) (ih fun old hold => h old hold)

namespace Tables.Le

theorem refl (T : Tables) : T.Le T :=
  ⟨fun _ => List.forall₂_same.mpr fun b _ => .refl b, fun _ => .refl _⟩

theorem trans {T T' T'' : Tables} (h : T.Le T') (h' : T'.Le T'') : T.Le T'' :=
  ⟨fun f => forall₂_trans (h.params f) (h'.params f),
    fun f => (h.returns f).trans (h'.returns f)⟩

theorem antisymm {T T' : Tables} (h : T.Le T') (h' : T'.Le T) : T = T' := by
  obtain ⟨params, returns⟩ := T
  obtain ⟨params', returns'⟩ := T'
  obtain rfl : params = params' := funext fun f => forall₂_antisymm (h.params f) (h'.params f)
  obtain rfl : returns = returns' := funext fun f => (h.returns f).antisymm (h'.returns f)
  rfl

theorem setParam {T : Tables} {f : Symbol} {i : Nat} {x : Fact}
    (h : ∀ old, (T.params f)[i]? = some old → old.Le x) : T.Le (T.setParam f i x) := by
  refine ⟨fun g => ?_, fun g => .refl _⟩
  by_cases hg : g = f
  · subst hg
    simpa [Tables.setParam] using forall₂_set h
  · simpa [Tables.setParam, hg] using List.forall₂_same.mpr fun b _ => Fact.Le.refl b

theorem setReturns {T : Tables} {f : Symbol} {x : Fact} (h : (T.returns f).Le x) :
    T.Le (T.setReturns f x) := by
  refine ⟨fun g => (refl T).params g, fun g => ?_⟩
  by_cases hg : g = f
  · subst hg
    simpa [Tables.setReturns] using h
  · simpa [Tables.setReturns, hg] using Fact.Le.refl (T.returns g)

end Tables.Le

theorem foldl_le {α : Type} {step : Tables → α → Tables}
    (hstep : ∀ (T : Tables) a, T.Le (step T a)) :
    ∀ (xs : List α) (T : Tables), T.Le (xs.foldl step T) := by
  intro xs
  induction xs with
  | nil => exact Tables.Le.refl
  | cons x xs ih => exact fun T => (hstep T x).trans (ih _)

/-- A pass that only moves up and ends where it began has done nothing. -/
theorem foldl_fixed {α : Type} {step : Tables → α → Tables}
    (hstep : ∀ (T : Tables) a, T.Le (step T a)) :
    ∀ {xs : List α} {T : Tables}, (xs.foldl step T).Le T → ∀ a ∈ xs, step T a = T := by
  intro xs
  induction xs with
  | nil => exact fun _ a ha => absurd ha List.not_mem_nil
  | cons x xs ih =>
    intro T hT
    have hx : step T x = T := ((foldl_le hstep xs _).trans hT).antisymm (hstep T x)
    rw [List.foldl_cons, hx] at hT
    exact List.forall_mem_cons.mpr ⟨hx, ih hT⟩

section

variable (table : FnTable)

theorem joinArg_le (callee : Symbol) (ctx : Option IpContext) (T : Tables) (i : Nat) (arg : Ast) :
    T.Le (joinArg table callee ctx T i arg) := by
  rw [joinArg]
  cases hold : (T.params callee)[i]? with
  | none => exact .refl T
  | some old =>
    refine .setParam fun old' hold' => ?_
    obtain rfl := Option.some.inj (hold.symm.trans hold')
    exact .join _ _

theorem joinArgs_le (callee : Symbol) (ctx : Option IpContext) (args : List Ast) :
    ∀ (T : Tables) i, T.Le (joinArgs table callee ctx T i args) := by
  induction args with
  | nil => exact fun T _ => .refl T
  | cons arg args ih => exact fun T i => (joinArg_le table callee ctx T i arg).trans (ih _ _)

theorem joinEvent_le (T : Tables) (e : ScanEvent) : T.Le (joinEvent table T e) := by
  cases e with
  | call callee args ctx => exact joinArgs_le table callee.name ctx args T 0
  | ref s => exact .refl T

theorem joinTail_le (T : Tables) (info : FnInfo) : T.Le (joinTail table T info) := by
  rw [joinTail]
  cases info.tailNode with
  | none => exact .refl T
  | some tail => exact .setReturns (.join _ _)

theorem guardIndirect_le (events : List ScanEvent) (T : Tables) (info : FnInfo) :
    T.Le (guardIndirect events T info) := by
  rw [guardIndirect]
  split
  · constructor
    · intro f
      by_cases hf : f = info.name
      · subst hf
        simp only [if_true]
        exact List.forall₂_map_right_iff.mpr (List.forall₂_same.mpr fun b _ => .inr (.inr rfl))
      · simpa [hf] using (Tables.Le.refl T).params f
    · intro f
      by_cases hf : f = info.name
      · simp [hf, Fact.Le]
      · simpa [hf] using Fact.Le.refl (T.returns f)
  · exact .refl T

/-- Only the facts of tracked functions differ. -/
def Outside (T T' : Tables) : Prop :=
  ∀ f, (∀ info ∈ table, info.name ≠ f) → T'.params f = T.params f ∧ T'.returns f = T.returns f

variable {table}

theorem Outside.refl (T : Tables) : Outside table T T := fun _ _ => ⟨rfl, rfl⟩

theorem Outside.trans {T T' T'' : Tables} (h : Outside table T T') (h' : Outside table T' T'') :
    Outside table T T'' := fun f hf =>
  ⟨(h' f hf).1.trans (h f hf).1, (h' f hf).2.trans (h f hf).2⟩

theorem Outside.foldl {α : Type} {step : Tables → α → Tables} :
    ∀ {xs : List α}, (∀ a ∈ xs, ∀ T, Outside table T (step T a)) →
      ∀ T, Outside table T (xs.foldl step T) := by
  intro xs
  induction xs with
  | nil => exact fun _ T => refl T
  | cons x xs ih =>
    intro h T
    rw [List.forall_mem_cons] at h
    exact (h.1 T).trans (ih h.2 _)

theorem joinArgs_outside {callee : FnInfo} (hcallee : callee ∈ table) (ctx : Option IpContext)
    (args : List Ast) :
    ∀ (T : Tables) i, Outside table T (joinArgs table callee.name ctx T i args) := by
  induction args with
  | nil => exact fun T _ => .refl T
  | cons arg args ih =>
    intro T i
    refine Outside.trans (fun f hf => ?_) (ih _ _)
    rw [joinArg]
    cases (T.params callee.name)[i]? with
    | none => exact ⟨rfl, rfl⟩
    | some old => exact ⟨if_neg (hf callee hcallee).symm, rfl⟩

theorem joinTail_outside {info : FnInfo} (hinfo : info ∈ table) (T : Tables) :
    Outside table T (joinTail table T info) := by
  intro f hf
  rw [joinTail]
  cases info.tailNode with
  | none => exact ⟨rfl, rfl⟩
  | some tail => exact ⟨rfl, if_neg (hf info hinfo).symm⟩

theorem guardIndirect_outside {info : FnInfo} (hinfo : info ∈ table) (events : List ScanEvent)
    (T : Tables) :
    Outside table T (guardIndirect events T info) := by
  intro f hf
  rw [guardIndirect]
  split
  · exact ⟨if_neg (hf info hinfo).symm, if_neg (hf info hinfo).symm⟩
  · exact ⟨rfl, rfl⟩

/-- The scan counts calls of tracked functions only. -/
def Counts (table : FnTable) (events : List ScanEvent) : Prop :=
  ∀ callee args ctx, .call callee args ctx ∈ events → callee ∈ table

theorem ipRound_outside {events : List ScanEvent} (hevents : Counts table events) (T : Tables) :
    Outside table T (ipRound table events T) := by
  refine ((Outside.foldl (fun e he T => ?_) T).trans
    (Outside.foldl (fun info hinfo T => ?_) _)).trans
    (Outside.foldl (fun info hinfo T => guardIndirect_outside hinfo events T) _)
  · cases e with
    | call callee args ctx => exact joinArgs_outside (hevents callee args ctx he) ctx args T 0
    | ref s => exact .refl T
  · exact joinTail_outside hinfo T

/-- A round that changes nothing has joined nothing new. -/
structure Closed (table : FnTable) (events : List ScanEvent) (T : Tables) : Prop where
  event : ∀ e ∈ events, joinEvent table T e = T
  tail : ∀ info ∈ table, joinTail table T info = T
  guarded : ∀ info ∈ table, guardIndirect events T info = T

theorem round_closed {events : List ScanEvent} (hevents : Counts table events) {T : Tables}
    (h : settled table T (ipRound table events T) = true) : Closed table events T := by
  have hle₁ := foldl_le (joinEvent_le table) events T
  have hle₂ := foldl_le (joinTail_le table) table (events.foldl (joinEvent table) T)
  have hle₃ := foldl_le (guardIndirect_le events) table
    (List.foldl (joinTail table) (events.foldl (joinEvent table) T) table)
  have hround : ipRound table events T = T := by
    refine Tables.Le.antisymm ?_ (hle₁.trans (hle₂.trans hle₃))
    have hsame : ∀ f, (ipRound table events T).params f = T.params f ∧
        (ipRound table events T).returns f = T.returns f := by
      intro f
      by_cases hf : ∃ info ∈ table, info.name = f
      · obtain ⟨info, hinfo, rfl⟩ := hf
        have hchecked := List.all_eq_true.mp h info hinfo
        simp only [Bool.and_eq_true, decide_eq_true_eq] at hchecked
        exact ⟨hchecked.1.symm, hchecked.2.symm⟩
      · exact ipRound_outside hevents T f fun info hinfo hname => hf ⟨info, hinfo, hname⟩
    exact ⟨fun f => (hsame f).1 ▸ (Tables.Le.refl T).params f,
      fun f => (hsame f).2 ▸ Fact.Le.refl (T.returns f)⟩
  have hend : (List.foldl (guardIndirect events)
      (List.foldl (joinTail table) (events.foldl (joinEvent table) T) table) table).Le T :=
    (congrArg (Tables.Le · T) hround).mpr (.refl T)
  have hevents' := foldl_fixed (joinEvent_le table) (hle₂.trans (hle₃.trans hend))
  have hfirst : events.foldl (joinEvent table) T = T := (hle₂.trans (hle₃.trans hend)).antisymm hle₁
  rw [hfirst] at hle₂ hle₃ hend
  have htails := foldl_fixed (joinTail_le table) (hle₃.trans hend)
  have hsecond : List.foldl (joinTail table) T table = T := (hle₃.trans hend).antisymm hle₂
  rw [hsecond] at hend
  exact ⟨hevents', htails, foldl_fixed (guardIndirect_le events) hend⟩

end

section

variable {table : FnTable} {events : List ScanEvent} {T : Tables}

theorem joinArgs_fixed {callee : Symbol} {ctx : Option IpContext} {args : List Ast} :
    ∀ {T : Tables} {i : Nat}, joinArgs table callee ctx T i args = T →
      ∀ k arg, args[k]? = some arg → joinArg table callee ctx T (i + k) arg = T := by
  induction args with
  | nil => exact fun _ k arg h => nomatch h
  | cons a args ih =>
    intro T i h k arg hk
    have hhead : joinArg table callee ctx T i a = T := by
      refine Tables.Le.antisymm ?_ (joinArg_le table callee ctx T i a)
      exact (joinArgs_le table callee ctx args _ (i + 1)).trans
        ((congrArg (Tables.Le · T) h).mpr (.refl T))
    cases k with
    | zero =>
      obtain rfl := Option.some.inj hk
      exact hhead
    | succ k =>
      rw [joinArgs, hhead] at h
      have htail := ih h k arg hk
      rwa [Nat.add_assoc, Nat.add_comm 1 k] at htail

/-- A counted argument has been joined. -/
theorem Closed.arg (h : Closed table events T) {callee : FnInfo} {args : List Ast}
    {ctx : Option IpContext} (hcall : .call callee args ctx ∈ events) {i : Nat} {arg : Ast}
    {fact : Fact}
    (harg : args[i]? = some arg) (hfact : (T.params callee.name)[i]? = some fact) :
    ipJoinEvidence fact (ipArgExprType table T ctx arg) = fact := by
  have hfixed := joinArgs_fixed (h.event _ hcall) i arg harg
  rw [Nat.zero_add, joinArg, hfact] at hfixed
  have hset : (T.params callee.name).set i (ipJoinEvidence fact (ipArgExprType table T ctx arg)) =
      T.params callee.name := by
    have hparams := congrFun (congrArg Tables.params hfixed) callee.name
    simpa only [Tables.setParam, if_true] using hparams
  have hlt : i < (T.params callee.name).length := List.getElem?_eq_some_iff.mp hfact |>.1
  have hget := congrArg (·[i]?) hset
  rw [List.getElem?_set_self hlt, hfact] at hget
  exact Option.some.inj hget

/-- The tail expression has been joined. -/
theorem Closed.result (h : Closed table events T) {info : FnInfo} (hinfo : info ∈ table)
    {tail : Ast} (htail : info.tailNode = some tail) :
    ipJoinEvidence (T.returns info.name)
      (ipArgExprType table T (some { owner := some info.name, params := info.params }) tail) =
      T.returns info.name := by
  have hfixed := h.tail info hinfo
  rw [joinTail, htail] at hfixed
  have hreturns := congrFun (congrArg Tables.returns hfixed) info.name
  simpa only [Tables.setReturns, if_true] using hreturns

/-- A function that is referenced has no facts. -/
theorem Closed.indirect (h : Closed table events T) {info : FnInfo} (hinfo : info ∈ table)
    (href : .ref info.name ∈ events) :
    (∀ fact ∈ T.params info.name, fact = .conflict) ∧ T.returns info.name = .conflict := by
  have hfixed := h.guarded info hinfo
  rw [guardIndirect, if_pos (List.any_eq_true.mpr ⟨_, href, decide_eq_true rfl⟩)] at hfixed
  have hparams := congrFun (congrArg Tables.params hfixed) info.name
  have hreturns := congrFun (congrArg Tables.returns hfixed) info.name
  simp only [if_true] at hparams hreturns
  refine ⟨fun fact hfact => ?_, hreturns.symm⟩
  rw [← hparams] at hfact
  obtain ⟨_, -, rfl⟩ := List.mem_map.mp hfact
  rfl

end

/-! ## §2 Tables -/

/-- The single expression of a body. -/
def tailOf : List Ast → Option Ast
  | [n] => some n
  | _ => none

/-- The entry is the definition's. -/
structure Describes (d : Definition) (info : FnInfo) : Prop where
  name : d.name = info.name
  alone : d.alone = true
  params : flatParams d.params = some info.params
  tail : info.tailNode = tailOf d.body

/-- One entry a name, each for a definition of the list. -/
structure Collected (D : List Definition) (table : FnTable) : Prop where
  nodup : (table.map (·.name)).Nodup
  source : ∀ info ∈ table, ∃ d ∈ D, Describes d info

theorem mem_put {info info' : FnInfo} {table : FnTable} (h : info' ∈ table.put info) :
    info' = info ∨ info' ∈ table := by
  induction table with
  | nil => exact .inl (List.mem_singleton.mp h)
  | cons old table ih =>
    rw [FnTable.put] at h
    split at h
    · exact (List.mem_cons.mp h).imp id (List.mem_cons_of_mem _)
    · rcases List.mem_cons.mp h with rfl | h
      · exact .inr List.mem_cons_self
      · exact (ih h).imp id (List.mem_cons_of_mem _)

theorem put_nodup {info : FnInfo} {table : FnTable} (h : (table.map (·.name)).Nodup) :
    ((table.put info).map (·.name)).Nodup := by
  induction table with
  | nil => exact List.nodup_cons.mpr ⟨List.not_mem_nil, List.nodup_nil⟩
  | cons old table ih =>
    rw [List.map_cons, List.nodup_cons] at h
    rw [FnTable.put]
    split
    next hname => rwa [List.map_cons, List.nodup_cons, ← hname]
    next hname =>
      rw [List.map_cons, List.nodup_cons]
      refine ⟨fun hmem => ?_, ih h.2⟩
      obtain ⟨info', hinfo', heq⟩ := List.mem_map.mp hmem
      rcases mem_put hinfo' with rfl | hinfo'
      · exact hname heq.symm
      · exact h.1 (heq ▸ List.mem_map_of_mem hinfo')

theorem describes_of_fnInfo {name : Symbol} {clauses : Clauses} {info : FnInfo} (type : DefnType)
    (h : fnInfo? name clauses = some info) :
    ∃ d ∈ definitions (.function type name clauses), Describes d info := by
  unfold fnInfo? at h
  split at h
  next params body =>
    obtain ⟨ps, hps, rfl⟩ := Option.map_eq_some_iff.mp h
    refine ⟨_, List.mem_singleton.mpr rfl, rfl, by simp, hps, ?_⟩
    rfl
  next => exact nomatch h

theorem Collected.put {D : List Definition} {table : FnTable} {info : FnInfo}
    (h : Collected D table) (hinfo : ∃ d ∈ D, Describes d info) : Collected D (table.put info) := by
  refine ⟨put_nodup h.nodup, fun info' hinfo' => ?_⟩
  rcases mem_put hinfo' with rfl | hinfo'
  · exact hinfo
  · exact h.source info' hinfo'

theorem ipCollectAll_collected {D : List Definition} {ns : List TopLevel}
    (hns : ∀ n ∈ ns, ∀ table, (∀ d ∈ definitions n, d ∈ D) → Collected D table →
      Collected D (ipCollect table n)) :
    ∀ table, (∀ d ∈ definitionsAll ns, d ∈ D) → Collected D table →
    Collected D (ipCollectAll table ns) := by
  induction ns with
  | nil => exact fun _ _ h => h
  | cons n ns ih =>
    intro table hD h
    rw [List.forall_mem_cons] at hns
    rw [definitionsAll, List.forall_mem_append] at hD
    exact ih hns.2 _ hD.2 (hns.1 table hD.1 h)

theorem ipCollect_collected {D : List Definition} (n : TopLevel) :
    ∀ table, (∀ d ∈ definitions n, d ∈ D) → Collected D table →
    Collected D (ipCollect table n) := by
  induction n with
  | function type name clauses =>
    intro table hD h
    rw [ipCollect]
    cases hinfo : fnInfo? name clauses with
    | none => exact h
    | some info =>
      obtain ⟨d, hd, hdescribes⟩ := describes_of_fnInfo type hinfo
      exact h.put ⟨d, hD d hd, hdescribes⟩
  | doNode body ih =>
    intro table hD h
    exact ipCollectAll_collected ih table hD h
  | _ => exact fun _ _ h => h

theorem find_of_mem {table : FnTable} (h : (table.map (·.name)).Nodup) {info : FnInfo}
    (hinfo : info ∈ table) : table.find info.name = some info := by
  induction table with
  | nil => exact absurd hinfo List.not_mem_nil
  | cons old table ih =>
    rw [List.map_cons, List.nodup_cons] at h
    rw [FnTable.find, List.find?_cons]
    rcases List.mem_cons.mp hinfo with rfl | hinfo
    · simp
    · have hne : old.name ≠ info.name := fun heq => h.1 (heq ▸ List.mem_map_of_mem hinfo)
      simp only [hne, decide_false]
      exact ih h.2 hinfo

theorem mem_of_find {table : FnTable} {f : Symbol} {info : FnInfo} (h : table.find f = some info) :
    info ∈ table ∧ info.name = f := by
  rw [FnTable.find] at h
  exact ⟨List.mem_of_find?_eq_some h, by simpa using List.find?_some h⟩

/-- The table of a unit, what its scan meets, and the facts at the end. -/
def fnTable (unit : List TopLevel) : FnTable := ipCollectAll [] unit

def scanEvents (unit : List TopLevel) : List ScanEvent := ipScanForms (fnTable unit) unit

def finalTables (unit : List TopLevel) : Tables :=
  ipRounds (fnTable unit) (scanEvents unit) ipMaxIterations (ipStart (fnTable unit))

theorem fnTable_collected (unit : List TopLevel) : Collected (definitionsAll unit) (fnTable unit) :=
  ipCollectAll_collected (fun n _ => ipCollect_collected n) [] (fun _ h => h)
    ⟨List.nodup_nil, fun _ h => absurd h List.not_mem_nil⟩

/-! ## §3 Scans -/

section

variable (table : FnTable) (ctx : Option IpContext)

theorem ipScanAll_eq (ns : List Ast) :
    ipScanAll table ctx ns = ns.flatMap (ipScanNode table ctx) := by
  induction ns with
  | nil => rfl
  | cons n ns ih => rw [ipScanAll, ih, List.flatMap_cons]

theorem ipScanBindings_eq (bs : List (Pattern × Ast)) :
    ipScanBindings table ctx bs = bs.flatMap fun b => ipScanNode table ctx b.2 := by
  induction bs with
  | nil => rfl
  | cons b bs ih => rw [ipScanBindings, ih, List.flatMap_cons]

theorem ipScanClauses_eq (cs : Clauses) :
    ipScanClauses table ctx cs = cs.flatMap fun c => ipScanAll table ctx c.2 := by
  induction cs with
  | nil => rfl
  | cons c cs ih => rw [ipScanClauses, ih, List.flatMap_cons]

theorem ipScanFns_eq (fs : List (Symbol × Clauses)) :
    ipScanFns table ctx fs = fs.flatMap fun f => ipScanClauses table ctx f.2 := by
  induction fs with
  | nil => rfl
  | cons f fs ih => rw [ipScanFns, ih, List.flatMap_cons]

theorem ipScanCases_eq (cs : List (List Literal × List Ast)) :
    ipScanCases table ctx cs = cs.flatMap fun c => ipScanAll table ctx c.2 := by
  induction cs with
  | nil => rfl
  | cons c cs ih => rw [ipScanCases, ih, List.flatMap_cons]

theorem ipScanConds_eq (cs : List (Ast × List Ast)) :
    ipScanConds table ctx cs = cs.flatMap fun c => ipScanNode table ctx c.1 ++
    ipScanAll table ctx c.2 := by
  induction cs with
  | nil => rfl
  | cons c cs ih => rw [ipScanConds, ih, List.flatMap_cons]

theorem ipScanEntries_eq (es : List (Ast × Ast)) :
    ipScanEntries table ctx es = es.flatMap fun e => ipScanNode table ctx e.1 ++
    ipScanNode table ctx e.2 := by
  induction es with
  | nil => rfl
  | cons e es ih => rw [ipScanEntries, ih, List.flatMap_cons]

theorem ipScanKids_eq (ks : List (Bool × List Symbol × Ast)) :
    ipScanKids table ctx ks = ks.flatMap fun k => ipScanNode table ctx k.2.2 := by
  induction ks with
  | nil => rfl
  | cons k ks ih => rw [ipScanKids, ih, List.flatMap_cons]

theorem scan_bindScopes {bindings : List (Pattern × Ast)} {body : List Ast} {binds : List Symbol}
    {c : Ast} :
    ∀ {bound : List Symbol}, (binds, c) ∈ bindScopes bound body bindings →
      (∃ b ∈ bindings, b.2 = c) ∨ c ∈ body := by
  induction bindings with
  | nil =>
    intro bound h
    obtain ⟨n, hn, heq⟩ := List.mem_map.mp h
    exact .inr ((Prod.mk.inj heq).2 ▸ hn)
  | cons b bs ih =>
    intro bound h
    rcases List.mem_cons.mp h with heq | h
    · exact .inl ⟨b, List.mem_cons_self, (Prod.mk.inj heq).2.symm⟩
    · exact (ih h).imp (fun ⟨b', hb', heq⟩ => ⟨b', List.mem_cons_of_mem _ hb', heq⟩) id

/-- What is evaluated is scanned. -/
theorem scan_subform {n c : Ast} {binds : List Symbol} (h : (binds, c) ∈ subforms n) :
    ∀ e ∈ ipScanNode table ctx c, e ∈ ipScanNode table ctx n := by
  intro e he
  cases n with
  | call op args =>
    cases op with
    | symbolRef s =>
      obtain ⟨a, ha, heq⟩ := List.mem_map.mp h
      obtain rfl := (Prod.mk.inj heq).2
      rw [ipScanNode, ipScanAll_eq]
      exact List.mem_append_right _ (List.mem_flatMap.mpr ⟨a, ha, he⟩)
    | _ =>
      obtain ⟨a, ha, heq⟩ := List.mem_map.mp h
      obtain rfl := (Prod.mk.inj heq).2
      show e ∈ ipScanNode table ctx _ ++ ipScanAll table ctx args
      rw [ipScanAll_eq]
      rcases List.mem_cons.mp ha with rfl | ha
      · exact List.mem_append_left _ he
      · exact List.mem_append_right _ (List.mem_flatMap.mpr ⟨a, ha, he⟩)
  | bind bindings body =>
    rw [ipScanNode, ipScanBindings_eq, ipScanAll_eq]
    rcases scan_bindScopes h with ⟨b, hb, rfl⟩ | hc
    · exact List.mem_append_left _ (List.mem_flatMap.mpr ⟨b, hb, he⟩)
    · exact List.mem_append_right _ (List.mem_flatMap.mpr ⟨c, hc, he⟩)
  | literal _ | symbolRef _ | quote _ => exact absurd h List.not_mem_nil
  | fn name clauses =>
    simp only [subforms, List.mem_map, List.mem_flatMap, Prod.mk.injEq] at h
    obtain ⟨clause, hclause, n, hn, -, rfl⟩ := h
    simp only [ipScanNode, ipScanClauses_eq, ipScanAll_eq, List.mem_flatMap]
    exact ⟨clause, hclause, n, hn, he⟩
  | letfn fns body =>
    simp only [subforms, List.mem_append, List.mem_map, List.mem_flatMap, Prod.mk.injEq] at h
    simp only [ipScanNode, ipScanFns_eq, ipScanClauses_eq, ipScanAll_eq, List.mem_append,
      List.mem_flatMap]
    rcases h with ⟨f, hf, clause, hclause, n, hn, -, rfl⟩ | ⟨n, hn, -, rfl⟩
    · exact .inl ⟨f, hf, clause, hclause, n, hn, he⟩
    · exact .inr ⟨n, hn, he⟩
  | case expr clauses =>
    simp only [subforms, List.mem_cons, List.mem_map, List.mem_flatMap, Prod.mk.injEq] at h
    simp only [ipScanNode, ipScanCases_eq, ipScanAll_eq, List.mem_append, List.mem_flatMap]
    rcases h with ⟨-, rfl⟩ | ⟨clause, hclause, n, hn, -, rfl⟩
    · exact .inl he
    · exact .inr ⟨clause, hclause, n, hn, he⟩
  | cond clauses =>
    simp only [subforms, List.mem_cons, List.mem_map, List.mem_flatMap, Prod.mk.injEq] at h
    simp only [ipScanNode, ipScanConds_eq, ipScanAll_eq, List.mem_append, List.mem_flatMap]
    obtain ⟨clause, hclause, ⟨-, rfl⟩ | ⟨n, hn, -, rfl⟩⟩ := h
    · exact ⟨clause, hclause, .inl he⟩
    · exact ⟨clause, hclause, .inr ⟨n, hn, he⟩⟩
  | dict entries =>
    simp only [subforms, List.mem_cons, List.mem_flatMap, Prod.mk.injEq, List.not_mem_nil,
      or_false] at h
    simp only [ipScanNode, ipScanEntries_eq, List.mem_append, List.mem_flatMap]
    obtain ⟨entry, hentry, ⟨-, rfl⟩ | ⟨-, rfl⟩⟩ := h
    · exact ⟨entry, hentry, .inl he⟩
    · exact ⟨entry, hentry, .inr he⟩
  | _ =>
    simp only [subforms, List.mem_map, List.mem_append, List.mem_cons, Prod.mk.injEq] at h
    simp only [ipScanNode, ipScanAll_eq, ipScanBindings_eq, ipScanKids_eq, List.mem_append,
      List.mem_flatMap]
    grind

theorem callEvent_counts (op : Symbol) (args : List Ast) :
    Counts table (callEvent table op args ctx) := by
  intro callee as c h
  rw [callEvent] at h
  cases hfind : table.find op with
  | none =>
    rw [hfind] at h
    exact absurd h List.not_mem_nil
  | some info =>
    rw [hfind] at h
    simp only at h
    split at h
    · rw [List.mem_singleton, ScanEvent.call.injEq] at h
      obtain ⟨rfl, -, -⟩ := h
      exact (mem_of_find hfind).1
    · exact absurd h List.not_mem_nil

theorem Counts.append {es es' : List ScanEvent} (h : Counts table es) (h' : Counts table es') :
    Counts table (es ++ es') := fun callee args c hmem =>
  (List.mem_append.mp hmem).elim (h callee args c) (h' callee args c)

theorem Counts.flatMap {α : Type} {f : α → List ScanEvent} {xs : List α}
    (h : ∀ x ∈ xs, Counts table (f x)) : Counts table (xs.flatMap f) := by
  intro callee args c hmem
  obtain ⟨x, hx, hmem⟩ := List.mem_flatMap.mp hmem
  exact h x hx callee args c hmem

theorem ipScanNode_counts (n : Ast) : Counts table (ipScanNode table ctx n) := by
  induction n with
  | literal v => exact fun _ _ _ h => absurd h List.not_mem_nil
  | quote s => exact fun _ _ _ h => absurd h List.not_mem_nil
  | symbolRef s =>
    intro callee args c h
    rw [ipScanNode] at h
    split at h
    · cases List.mem_singleton.mp h
    · exact absurd h List.not_mem_nil
  | call op args ihop ihargs =>
    have hargs : Counts table (ipScanAll table ctx args) :=
      ipScanAll_eq table ctx args ▸ .flatMap table ihargs
    cases op with
    | symbolRef s => exact (callEvent_counts table ctx s args).append table hargs
    | _ => exact ihop.append table hargs
  | ifNode test thn els ihtest ihthn ihels =>
    rw [ipScanNode, ipScanAll_eq]
    exact (ihtest.append table ihthn).append table (.flatMap table ihels)
  | doNode body ih =>
    rw [ipScanNode, ipScanAll_eq]
    exact .flatMap table ih
  | bind bindings body ihinits ihbody =>
    rw [ipScanNode, ipScanBindings_eq, ipScanAll_eq]
    exact Counts.append table (.flatMap table ihinits) (.flatMap table ihbody)
  | letfn bindings body ihfns ihbody =>
    rw [ipScanNode, ipScanFns_eq, ipScanAll_eq]
    refine Counts.append table (.flatMap table fun f hf => ?_) (.flatMap table ihbody)
    rw [ipScanClauses_eq]
    refine .flatMap table fun c hc => ?_
    rw [ipScanAll_eq]
    exact .flatMap table (ihfns f hf c hc)
  | fn name clauses ih =>
    rw [ipScanNode, ipScanClauses_eq]
    refine .flatMap table fun c hc => ?_
    rw [ipScanAll_eq]
    exact .flatMap table (ih c hc)
  | loop bindings body ihinits ihbody =>
    rw [ipScanNode, ipScanBindings_eq, ipScanAll_eq]
    exact Counts.append table (.flatMap table ihinits) (.flatMap table ihbody)
  | recur args ih =>
    rw [ipScanNode, ipScanAll_eq]
    exact .flatMap table ih
  | case expr clauses ihexpr ihclauses =>
    rw [ipScanNode, ipScanCases_eq]
    refine ihexpr.append table (.flatMap table fun c hc => ?_)
    rw [ipScanAll_eq]
    exact .flatMap table (ihclauses c hc)
  | cond clauses ihtests ihbodies =>
    rw [ipScanNode, ipScanConds_eq]
    refine .flatMap table fun c hc => (ihtests c hc).append table ?_
    rw [ipScanAll_eq]
    exact .flatMap table (ihbodies c hc)
  | threadFirst forms ih =>
    rw [ipScanNode, ipScanAll_eq]
    exact .flatMap table ih
  | vector elements ih =>
    rw [ipScanNode, ipScanAll_eq]
    exact .flatMap table ih
  | set elements ih =>
    rw [ipScanNode, ipScanAll_eq]
    exact .flatMap table ih
  | dict entries ihkeys ihvalues =>
    rw [ipScanNode, ipScanEntries_eq]
    exact .flatMap table fun e he => (ihkeys e he).append table (ihvalues e he)
  | other kids ih =>
    rw [ipScanNode, ipScanKids_eq]
    exact .flatMap table ih

end

section

variable (table : FnTable)

theorem ipScanForms_eq (ns : List TopLevel) :
    ipScanForms table ns = ns.flatMap (ipScanForm table) := by
  induction ns with
  | nil => rfl
  | cons n ns ih => rw [ipScanForms, ih, List.flatMap_cons]

theorem definitionsAll_eq (ns : List TopLevel) : definitionsAll ns = ns.flatMap definitions := by
  induction ns with
  | nil => rfl
  | cons n ns ih => rw [definitionsAll, ih, List.flatMap_cons]

theorem outerFormsAll_eq (ns : List TopLevel) : outerFormsAll ns = ns.flatMap outerForms := by
  induction ns with
  | nil => rfl
  | cons n ns ih => rw [outerFormsAll, ih, List.flatMap_cons]

theorem ipScanForm_counts (form : TopLevel) : Counts table (ipScanForm table form) := by
  induction form with
  | function type name clauses =>
    refine .flatMap table fun c _ => ?_
    rw [ipScanAll_eq]
    exact .flatMap table fun n _ => ipScanNode_counts table _ n
  | defmethod name clauses =>
    rw [ipScanForm]
    refine .flatMap table fun c _ => ?_
    rw [ipScanAll_eq]
    exact .flatMap table fun n _ => ipScanNode_counts table _ n
  | defgeneric name lambdaLists => exact fun _ _ _ h => absurd h List.not_mem_nil
  | defVar name value =>
    rw [ipScanForm, ipScanAll_eq]
    exact .flatMap table fun n _ => ipScanNode_counts table _ n
  | doNode body ih =>
    rw [ipScanForm, ipScanForms_eq]
    exact .flatMap table ih
  | expression node => exact ipScanNode_counts table none node

/-- No context names the function that its parameters belong to. -/
def Ownerless (ctx : Option IpContext) : Prop := ∀ c, ctx = some c → c.owner = none

theorem outer_scanned {form : TopLevel} {binds : List Symbol} {n : Ast}
    (h : (binds, n) ∈ outerForms form) :
    ∀ e ∈ ipScanNode table none n, e ∈ ipScanForm table form := by
  induction form with
  | function type name clauses => exact absurd h List.not_mem_nil
  | defmethod name clauses =>
    intro e he
    obtain ⟨c, hc, h⟩ := List.mem_flatMap.mp h
    obtain ⟨n', hn', heq⟩ := List.mem_map.mp h
    obtain rfl := (Prod.mk.inj heq).2
    rw [ipScanForm]
    refine List.mem_flatMap.mpr ⟨c, hc, ?_⟩
    rw [ipScanAll_eq]
    exact List.mem_flatMap.mpr ⟨n', hn', he⟩
  | defgeneric name lambdaLists => exact absurd h List.not_mem_nil
  | defVar name value =>
    intro e he
    obtain ⟨n', hn', heq⟩ := List.mem_map.mp h
    obtain rfl := (Prod.mk.inj heq).2
    rw [ipScanForm, ipScanAll_eq]
    exact List.mem_flatMap.mpr ⟨n', hn', he⟩
  | doNode body ih =>
    intro e he
    rw [outerForms, outerFormsAll_eq] at h
    obtain ⟨form, hform, h⟩ := List.mem_flatMap.mp h
    rw [ipScanForm, ipScanForms_eq]
    exact List.mem_flatMap.mpr ⟨form, hform, ih form hform h e he⟩
  | expression node =>
    intro e he
    obtain rfl := (Prod.mk.inj (List.mem_singleton.mp h)).2
    exact he

theorem body_scanned {form : TopLevel} {d : Definition} {n : Ast} (hd : d ∈ definitions form)
    (hn : n ∈ d.body) :
    ∃ ctx, Ownerless ctx ∧ ∀ e ∈ ipScanNode table ctx n, e ∈ ipScanForm table form := by
  induction form with
  | function type name clauses =>
    obtain ⟨c, hc, rfl⟩ := List.mem_map.mp hd
    refine ⟨(flatParams c.1).map fun params => { owner := none, params }, ?_, fun e he => ?_⟩
    · intro c' hc'
      obtain ⟨params, -, rfl⟩ := Option.map_eq_some_iff.mp hc'
      rfl
    · refine List.mem_flatMap.mpr ⟨c, hc, ?_⟩
      rw [ipScanAll_eq]
      exact List.mem_flatMap.mpr ⟨n, hn, he⟩
  | doNode body ih =>
    rw [definitions, definitionsAll_eq] at hd
    obtain ⟨form, hform, hd⟩ := List.mem_flatMap.mp hd
    obtain ⟨ctx, hctx, hscan⟩ := ih form hform hd
    rw [ipScanForm, ipScanForms_eq]
    exact ⟨ctx, hctx, fun e he => List.mem_flatMap.mpr ⟨form, hform, hscan e he⟩⟩
  | _ => exact absurd hd List.not_mem_nil

/-- Everything in the unit is scanned. -/
theorem occurs_scanned {unit : List TopLevel} {owner : Option Definition} {bound : List Symbol}
    {n : Ast} (h : Occurs unit owner bound n) :
    ∃ ctx, Ownerless ctx ∧ ∀ e ∈ ipScanNode table ctx n, e ∈ ipScanForms table unit := by
  induction h with
  | outer hmem =>
    rw [outerFormsAll_eq] at hmem
    obtain ⟨form, hform, hmem⟩ := List.mem_flatMap.mp hmem
    rw [ipScanForms_eq]
    exact ⟨none, fun c hc => (nomatch hc), fun e he =>
      List.mem_flatMap.mpr ⟨form, hform, outer_scanned table hmem e he⟩⟩
  | body hd hn =>
    rw [definitionsAll_eq] at hd
    obtain ⟨form, hform, hd⟩ := List.mem_flatMap.mp hd
    obtain ⟨ctx, hctx, hscan⟩ := body_scanned table hd hn
    rw [ipScanForms_eq]
    exact ⟨ctx, hctx, fun e he => List.mem_flatMap.mpr ⟨form, hform, hscan e he⟩⟩
  | part _ hpart ih =>
    obtain ⟨ctx, hctx, hscan⟩ := ih
    exact ⟨ctx, hctx, fun e he => hscan e (scan_subform table ctx hpart e he)⟩

theorem scanEvents_counts (unit : List TopLevel) : Counts (fnTable unit) (scanEvents unit) := by
  rw [scanEvents, ipScanForms_eq]
  exact .flatMap _ fun form _ => ipScanForm_counts _ form

end

/-! ## §4 Facts -/

section

variable {V : Type} {M : Machine V} {unit : List TopLevel}

/-- What a fact says of a value: `bottom` that there is none. -/
def Fact.Holds (M : Machine V) : Fact → V → Prop
  | .bottom, _ => False
  | .cls c, v => M.instOf c v
  | .conflict, _ => True

def Evidence.Holds (M : Machine V) : Evidence → V → Prop
  | .pending, _ => False
  | .cls c, v => M.instOf c v
  | .conflict, _ => True

theorem holds_of_join {fact : Fact} {evidence : Evidence} {v : V}
    (h : ipJoinEvidence fact evidence = fact) (hv : evidence.Holds M v) : fact.Holds M v := by
  cases evidence with
  | pending => exact hv.elim
  | conflict =>
    cases fact with
    | conflict => trivial
    | _ => exact nomatch h
  | cls c =>
    cases fact with
    | bottom => exact nomatch h
    | conflict => trivial
    | cls d =>
      rw [ipJoinEvidence] at h
      split at h
      next heq => exact heq ▸ hv
      next => exact nomatch h

theorem Fact.holds_evidence {fact : Fact} {v : V} (h : fact.Holds M v) :
    fact.evidence.Holds M v := by
  cases fact <;> exact h

/-- Nothing is claimed of the parameters of a function. -/
def NoParams (unit : List TopLevel) (f : Symbol) : Prop :=
  ∀ fact ∈ (finalTables unit).params f, fact = .conflict

/-- The names bound around a node in its function, and the parameters. -/
def scope (owner : Option Definition) (bound : List Symbol) : List Symbol :=
  bound ++ (owner.map (·.params.binds)).getD []

/-- What `infer-type-from-expr` knows of the function it is in. -/
def current (owner : Option Definition) : CurrentDefn :=
  owner.bind fun d => if d.alone then (flatParams d.params).map (d.name, ·) else none

/-- The names at a node mean what the analysis takes them for. -/
structure NodeFine (M : Machine V) (unit : List TopLevel) (owner : Option Definition)
    (bound : List Symbol) (n : Ast) : Prop where
  constructs : ∀ op args c, n = .call (.symbolRef op) args → inferTypeFromConstructor n = some c →
    op ∉ scope owner bound ∧ (∀ d ∈ definitionsAll unit, d.name ≠ op) ∧ op ∉ genericsAll unit ∧
      op ∉ M.specials unit ∧ ∀ vs v,
      (∀ s, args.head? = some (.quote (some s)) → vs.head? = some (M.symbol s)) →
        M.value op vs v → M.instOf c v
  calls : ∀ op args, n = .call (.symbolRef op) args → ((fnTable unit).find op).isSome →
    (finalTables unit).returns op ≠ .conflict → op ∉ scope owner bound
  parameter : ∀ s f params i c, n = .symbolRef s → current owner = some (f, params) →
    params.findIdx? (· = s) = some i → ((finalTables unit).params f)[i]? = some (.cls c) → s ∉ bound
  steps : ∀ f ∈ threads n, NoParams unit f
  quoted : ∀ f, n = .quote (some f) → NoParams unit f

/-- A call of a function with several body forms gives no evidence. -/
def Tailed (unit : List TopLevel) (n : Ast) : Prop :=
  ∀ op args info, n = .call (.symbolRef op) args → (fnTable unit).find op = some info →
    info.tailNode = none → (finalTables unit).returns op = .conflict

/-- The units whose facts hold. -/
structure Sound (M : Machine V) (unit : List TopLevel) : Prop where
  settles : settled (fnTable unit) (finalTables unit)
    (ipRound (fnTable unit) (scanEvents unit) (finalTables unit)) = true
  single : ∀ f, ((fnTable unit).find f).isSome →
    (NoParams unit f ∧ (finalTables unit).returns f = .conflict) ∨
      ((∀ d ∈ definitionsAll unit, ∀ d' ∈ definitionsAll unit, d.name = f → d'.name = f → d = d') ∧
        f ∉ genericsAll unit ∧ f ∉ M.specials unit)
  rest : ∀ info ∈ fnTable unit, "&" ∈ info.params.map (·.name) → NoParams unit info.name
  lexical : ∀ info ∈ fnTable unit, ∀ s ∈ info.params, s ∈ M.specials unit → NoParams unit info.name
  raw : ∀ f ∈ M.raw, NoParams unit f
  arguments : ∀ callee args ctx, .call callee args ctx ∈ scanEvents unit → ∀ a ∈ args, Tailed unit a
  tails : ∀ info ∈ fnTable unit, ∀ tail, info.tailNode = some tail → Tailed unit tail
  nodes : ∀ owner bound n, Occurs unit owner bound n → NodeFine M unit owner bound n

/-- The arguments are what the facts of the parameters say. -/
def ParamsHold (M : Machine V) (unit : List TopLevel) (f : Symbol) (vs : List V) : Prop :=
  ∀ (i : Nat) (fact : Fact) (v : V), ((finalTables unit).params f)[i]? = some fact →
  vs[i]? = some v → fact.Holds M v

theorem NoParams.hold {f : Symbol} (h : NoParams unit f) (vs : List V) :
    ParamsHold M unit f vs := by
  intro i fact v hfact _
  obtain rfl := h fact (List.mem_of_getElem? hfact)
  trivial

/-- The local variables of a context: where a parameter has a fact, it is lexical and there, and the
fact holds. -/
def CtxHolds (M : Machine V) (unit : List TopLevel) (ctx : Option IpContext) (ρ : Locals V) :
    Prop :=
  ∀ f params, ctx = some { owner := some f, params } → ∀ s i (fact : Fact),
    params.findIdx? (· = s) = some i → ((finalTables unit).params f)[i]? = some fact →
    fact ≠ .conflict →
      s ∉ M.specials unit ∧ ∃ v, ρ s = some v ∧ fact.Holds M v

theorem Ownerless.holds {ctx : Option IpContext} (h : Ownerless ctx) (ρ : Locals V) :
    CtxHolds M unit ctx ρ := by
  rintro f params rfl
  exact nomatch h _ rfl

theorem get_of_findIdx {params : List Symbol} {s : Symbol} {i : Nat}
    (h : params.findIdx? (· = s) = some i) : params[i]? = some s := by
  obtain ⟨hlt, hp, -⟩ := List.findIdx?_eq_some_iff_getElem.mp h
  rw [List.getElem?_eq_getElem hlt, of_decide_eq_true hp]

theorem Sound.closed (h : Sound M unit) :
    Closed (fnTable unit) (scanEvents unit) (finalTables unit) :=
  round_closed (scanEvents_counts unit) h.settles

/-- The definition a tracked function with facts has. -/
theorem Sound.definition (h : Sound M unit) {f : Symbol} {info : FnInfo}
    (hinfo : (fnTable unit).find f = some info)
    (hfacts : ¬ (NoParams unit f ∧ (finalTables unit).returns f = .conflict)) :
    (f ∉ genericsAll unit ∧ f ∉ M.specials unit) ∧
      ∀ d ∈ definitionsAll unit, d.name = f → Describes d info := by
  obtain ⟨hmem, rfl⟩ := mem_of_find hinfo
  obtain ⟨d₀, hd₀, hdescribes⟩ := (fnTable_collected unit).source info hmem
  obtain ⟨hunique, hnames⟩ := (h.single info.name (by rw [hinfo]; rfl)).resolve_left hfacts
  refine ⟨hnames, fun d hd hname => ?_⟩
  obtain rfl := hunique d hd d₀ hd₀ hname hdescribes.name
  exact hdescribes

/-- What plain parameters hold. -/
theorem Entry.param {d : Definition} {vs : List V} {ρ : Locals V} (h : Entry d vs ρ)
    {params : List Symbol} (hparams : flatParams d.params = some params)
    (hrest : "&" ∉ params.map (·.name)) {s : Symbol} {i : Nat} (hs : params[i]? = some s) :
    ∃ v, vs[i]? = some v ∧ ρ s = some v := by
  have hall := (h.plain params hparams hrest).2
  have hlt : i < params.length := (List.getElem?_eq_some_iff.mp hs).1
  have hlt' : i < vs.length := hall.length_eq ▸ hlt
  refine ⟨vs[i], List.getElem?_eq_getElem hlt', ?_⟩
  have hget := List.Forall₂.get hall hlt hlt'
  rw [List.getElem?_eq_getElem hlt] at hs
  obtain rfl := Option.some.inj hs
  simpa using hget

/-- The facts of a function entered hold where its body begins. -/
theorem Sound.ctxHolds (h : Sound M unit) {d : Definition} {info : FnInfo}
    (hinfo : info ∈ fnTable unit) (hd : Describes d info) {vs : List V} {ρ : Locals V}
    (hentry : Entry d vs ρ) (hvs : ParamsHold M unit info.name vs) :
    CtxHolds M unit (some { owner := some info.name, params := info.params }) ρ := by
  intro f params hctx s i fact hs hfact hne
  obtain ⟨rfl, rfl⟩ : info.name = f ∧ info.params = params := by simpa using hctx
  by_cases hrest : "&" ∈ info.params.map (·.name)
  · exact absurd (h.rest info hinfo hrest fact (List.mem_of_getElem? hfact)) hne
  · have hget := get_of_findIdx hs
    obtain ⟨v, hv, hρ⟩ := hentry.param hd.params hrest hget
    refine ⟨fun hspecial => ?_, v, hρ, hvs i fact v hfact hv⟩
    exact hne (h.lexical info hinfo s (List.mem_of_getElem? hget) hspecial fact
      (List.mem_of_getElem? hfact))

theorem Eval.length {ρ : Locals V} {ns : List Ast} {vs : List V}
    (h : Eval M unit ρ (.values ns) (.values vs)) : ns.length = vs.length := by
  induction ns generalizing vs with
  | nil =>
    cases h
    rfl
  | cons n ns ih =>
    cases h with
    | cons _ htail => rw [List.length_cons, List.length_cons, ih htail]

/-- A quoted symbol as the first argument. -/
theorem Eval.head_quote {ρ : Locals V} {ns : List Ast} {vs : List V}
    (h : Eval M unit ρ (.values ns) (.values vs)) {s : Symbol}
    (hs : ns.head? = some (.quote (some s))) :
    vs.head? = some (M.symbol s) := by
  cases h with
  | nil => exact nomatch hs
  | cons hhead _ =>
    obtain rfl := Option.some.inj hs
    cases hhead with
    | quote => rfl
    | other hother => exact nomatch hother

/-- What `eval_evidence` says of an evaluation. -/
def EvidenceHolds (M : Machine V) (unit : List TopLevel) (ρ : Locals V) : Task → Outcome V → Prop
  | .node n, .value v => ∀ owner bound ctx, Occurs unit owner bound n →
    (∀ s, s ∉ scope owner bound → ρ s = none) → CtxHolds M unit ctx ρ → Tailed unit n →
      (ipArgExprType (fnTable unit) (finalTables unit) ctx n).Holds M v
  | .values ns, .values vs => ∀ owner bound ctx, (∀ n ∈ ns, Occurs unit owner bound n) →
    (∀ s, s ∉ scope owner bound → ρ s = none) → CtxHolds M unit ctx ρ → (∀ n ∈ ns, Tailed unit n) →
      List.Forall₂ (fun n v => (ipArgExprType (fnTable unit) (finalTables unit) ctx n).Holds M v)
      ns vs
  | _, _ => True

/-- The facts hold of the arguments of a call in the unit. -/
theorem Sound.paramsHold (h : Sound M unit) {owner : Option Definition} {bound : List Symbol}
    {args : List Ast} {info : FnInfo} {vs : List V} {ρ : Locals V}
    (hoccurs : Occurs unit owner bound (.call (.symbolRef info.name) args))
    (hinfo : (fnTable unit).find info.name = some info) (hlength : args.length = info.params.length)
    (hρ : ∀ s, s ∉ scope owner bound → ρ s = none)
    (hargs : EvidenceHolds M unit ρ (.values args) (.values vs)) :
    ParamsHold M unit info.name vs := by
  obtain ⟨ctx, hctx, hscan⟩ := occurs_scanned (fnTable unit) hoccurs
  have hevent : .call info args ctx ∈ scanEvents unit := by
    refine hscan _ (List.mem_append_left _ ?_)
    rw [callEvent, hinfo]
    simp only [hlength, if_true]
    exact List.mem_singleton.mpr rfl
  have hparts : ∀ a ∈ args, Occurs unit owner bound a := by
    intro a ha
    have hpart : ([], a) ∈ subforms (.call (.symbolRef info.name) args) :=
      List.mem_map.mpr ⟨a, ha, rfl⟩
    exact .part hoccurs hpart
  have hall := hargs owner bound ctx hparts hρ (hctx.holds ρ) (h.arguments _ _ _ hevent)
  intro i fact v hfact hv
  have hlt' : i < vs.length := (List.getElem?_eq_some_iff.mp hv).1
  have hlt : i < args.length := hall.length_eq ▸ hlt'
  have hget := List.Forall₂.get hall hlt hlt'
  rw [List.getElem?_eq_getElem hlt'] at hv
  obtain rfl := Option.some.inj hv
  exact holds_of_join (h.closed.arg hevent (List.getElem?_eq_getElem hlt) hfact)
    (by simpa using hget)

/-- Under a name that the analysis relies on there is no local function. -/
theorem not_computed {owner : Option Definition} {bound : List Symbol} {ρ : Locals V} {op : Symbol}
    {u : V} (hρ : ∀ s, s ∉ scope owner bound → ρ s = none) (hop : op ∉ scope owner bound)
    (hu : ρ op = some u) :
    False := nomatch (hρ op hop).symm.trans hu

theorem body_of_tail {d : Definition} {info : FnInfo} (hd : Describes d info) {tail : Ast}
    (htail : info.tailNode = some tail) : d.body = [tail] := by
  have htailOf := hd.tail.symm.trans htail
  match hbody : d.body with
  | [] =>
    rw [hbody] at htailOf
    exact nomatch htailOf
  | [m] =>
    rw [hbody] at htailOf
    rw [Option.some.inj htailOf]
  | _ :: _ :: _ =>
    rw [hbody] at htailOf
    exact nomatch htailOf

/-- A call of a function of the unit returns what the fact of its result says. -/
theorem Sound.call_holds (h : Sound M unit) {owner : Option Definition} {bound : List Symbol}
    {args : List Ast} {ρ ρ' : Locals V} {d : Definition} {info : FnInfo} {vs : List V} {n : Ast}
    {v : V}
    (hoccurs : Occurs unit owner bound (.call (.symbolRef info.name) args))
    (hρ : ∀ s, s ∉ scope owner bound → ρ s = none)
    (htailed : Tailed unit (.call (.symbolRef info.name) args))
    (hinfo : (fnTable unit).find info.name = some info)
    (hconflict : (finalTables unit).returns info.name ≠ .conflict)
    (hd : d ∈ definitionsAll unit) (hname : d.name = info.name) (hlength : args.length = vs.length)
    (hentry : Entry d vs ρ') (hn : d.body.getLast? = some n)
    (hargs : EvidenceHolds M unit ρ (.values args) (.values vs))
    (hbody : EvidenceHolds M unit ρ' (.node n) (.value v)) :
    ((finalTables unit).returns info.name).Holds M v := by
  have hmem := (mem_of_find hinfo).1
  have hdescribes := (h.definition hinfo fun hno => hconflict hno.2).2 d hd hname
  have htailNode : ∃ tail, info.tailNode = some tail := by
    cases htail : info.tailNode with
    | some tail => exact ⟨tail, rfl⟩
    | none => exact absurd (htailed _ _ info rfl hinfo htail) hconflict
  obtain ⟨tail, htail⟩ := htailNode
  have hsingle : d.body = [tail] := body_of_tail hdescribes htail
  rw [hsingle] at hn
  obtain rfl := Option.some.inj hn
  have hparams : ParamsHold M unit info.name vs := by
    by_cases hrest : "&" ∈ info.params.map (·.name)
    · exact NoParams.hold (h.rest info hmem hrest) vs
    · have hlength' := (hentry.plain info.params hdescribes.params hrest).2.length_eq
      exact h.paramsHold hoccurs hinfo (hlength.trans hlength'.symm) hρ hargs
  have hoccurs' : Occurs unit (some d) [] tail :=
    .body hd (by rw [hsingle]; exact List.mem_singleton.mpr rfl)
  refine holds_of_join (h.closed.result hmem htail) ?_
  exact hbody (some d) [] _ hoccurs' hentry.other (h.ctxHolds hmem hdescribes hentry hparams)
    (h.tails info hmem _ htail)

theorem argType_call {op : Symbol} {args : List Ast} {ctx : Option IpContext} {v : V}
    (hconstructor : inferTypeFromConstructor (.call (.symbolRef op) args) = none)
    (h : ((fnTable unit).find op).isSome → (finalTables unit).returns op ≠ .conflict →
      ((finalTables unit).returns op).Holds M v) :
    (ipArgExprType (fnTable unit) (finalTables unit) ctx (.call (.symbolRef op) args)).Holds M
    v := by
  simp only [ipArgExprType, hconstructor]
  split
  next hsome =>
    cases hfact : (finalTables unit).returns op with
    | conflict => trivial
    | _ =>
      have hholds := h hsome (by rw [hfact]; exact fun hc => nomatch hc)
      rw [hfact] at hholds
      exact hholds
  next => trivial

theorem argType_constructor {n : Ast} {c : Symbol} (hc : inferTypeFromConstructor n = some c)
    (ctx : Option IpContext) : ipArgExprType (fnTable unit) (finalTables unit) ctx n = .cls c := by
  simp only [ipArgExprType, hc]

theorem argType_symbol {s : Symbol} {ctx : Option IpContext} {v : V}
    (h : ∀ f params, ctx = some { owner := some f, params } → ∀ i (fact : Fact),
      params.findIdx? (· = s) = some i → ((finalTables unit).params f)[i]? = some fact →
      fact ≠ .conflict →
        fact.Holds M v) :
    (ipArgExprType (fnTable unit) (finalTables unit) ctx (.symbolRef s)).Holds M v := by
  simp only [ipArgExprType, inferTypeFromConstructor]
  rcases ctx with _ | ⟨_ | f, params⟩
  · trivial
  · trivial
  · simp only
    cases hi : params.findIdx? (· = s) with
    | none => trivial
    | some i =>
      simp only
      cases hfact : ((finalTables unit).params f)[i]? with
      | none => trivial
      | some fact =>
        by_cases hne : fact = .conflict
        · subst hne
          trivial
        · exact Fact.holds_evidence (h f params rfl i fact hi hfact hne)

/-- The evidence for an expression holds of its values. -/
theorem eval_evidence (h : Sound M unit) {ρ : Locals V} {task : Task} {out : Outcome V}
    (heval : Eval M unit ρ task out) : EvidenceHolds M unit ρ task out := by
  induction heval with
  | «local» hs =>
    intro owner bound ctx _ _ hctx _
    refine argType_symbol fun f params hc i fact hi hfact hne => ?_
    obtain ⟨-, v, hv, hholds⟩ := hctx f params hc _ i fact hi hfact hne
    exact Option.some.inj (hv.symm.trans hs) ▸ hholds
  | global hs =>
    intro owner bound ctx _ _ hctx _
    refine argType_symbol fun f params hc i fact hi hfact hne => ?_
    obtain ⟨-, v, hv, -⟩ := hctx f params hc _ i fact hi hfact hne
    exact nomatch hs.symm.trans hv
  | special hs =>
    intro owner bound ctx _ _ hctx _
    refine argType_symbol fun f params hc i fact hi hfact hne => ?_
    exact absurd hs (hctx f params hc _ i fact hi hfact hne).1
  | quote =>
    intro owner bound ctx _ _ _ _
    trivial
  | @call ρ op args vs d ρ' n v hρop hd hname hargs hentry hn _ ihargs ihbody =>
    intro owner bound ctx hoccurs hρ _ htailed
    have hfine := h.nodes owner bound _ hoccurs
    cases hc : inferTypeFromConstructor (.call (.symbolRef op) args) with
    | some c => exact absurd hname ((hfine.constructs op args c rfl hc).2.1 d hd)
    | none =>
      refine argType_call hc fun hsome hconflict => ?_
      obtain ⟨info, hinfo⟩ := Option.isSome_iff_exists.mp hsome
      obtain rfl := (mem_of_find hinfo).2
      exact h.call_holds hoccurs hρ htailed hinfo hconflict hd hname hargs.length hentry hn ihargs
        ihbody
  | @callEmpty ρ op args d v hρop hd hname hbody =>
    intro owner bound ctx hoccurs hρ _ htailed
    have hfine := h.nodes owner bound _ hoccurs
    cases hc : inferTypeFromConstructor (.call (.symbolRef op) args) with
    | some c => exact absurd hname ((hfine.constructs op args c rfl hc).2.1 d hd)
    | none =>
      refine argType_call hc fun hsome hconflict => ?_
      obtain ⟨info, hinfo⟩ := Option.isSome_iff_exists.mp hsome
      have hdescribes := (h.definition hinfo fun hno => hconflict hno.2).2 d hd hname
      have htail : info.tailNode = none := by rw [hdescribes.tail, hbody]; rfl
      exact absurd (htailed op args info rfl hinfo htail) hconflict
  | @generic ρ op args v hρop hgeneric =>
    intro owner bound ctx hoccurs hρ _ htailed
    have hfine := h.nodes owner bound _ hoccurs
    cases hc : inferTypeFromConstructor (.call (.symbolRef op) args) with
    | some c => exact absurd hgeneric (hfine.constructs op args c rfl hc).2.2.1
    | none =>
      refine argType_call hc fun hsome hconflict => ?_
      obtain ⟨info, hinfo⟩ := Option.isSome_iff_exists.mp hsome
      exact absurd hgeneric (h.definition hinfo fun hno => hconflict hno.2).1.1
  | @external ρ op args vs v hρop hundefined hgeneric hargs hvalue ih =>
    intro owner bound ctx hoccurs hρ _ htailed
    have hfine := h.nodes owner bound _ hoccurs
    cases hc : inferTypeFromConstructor (.call (.symbolRef op) args) with
    | some c =>
      rw [argType_constructor hc]
      exact (hfine.constructs op args c rfl hc).2.2.2.2 vs v (fun s hs => hargs.head_quote hs)
        hvalue
    | none =>
      refine argType_call hc fun hsome hconflict => ?_
      obtain ⟨info, hinfo⟩ := Option.isSome_iff_exists.mp hsome
      obtain ⟨hmem, rfl⟩ := mem_of_find hinfo
      obtain ⟨d, hd, hdescribes⟩ := (fnTable_collected unit).source info hmem
      exact absurd hdescribes.name (hundefined d hd)
  | @computed ρ op args u v hu =>
    intro owner bound ctx hoccurs hρ _ htailed
    have hfine := h.nodes owner bound _ hoccurs
    cases hc : inferTypeFromConstructor (.call (.symbolRef op) args) with
    | some c => exact (not_computed hρ (hfine.constructs op args c rfl hc).1 hu).elim
    | none =>
      refine argType_call hc fun hsome hconflict => ?_
      exact (not_computed hρ (hfine.calls op args rfl hsome hconflict) hu).elim
  | @dynamic ρ op args v hspecial =>
    intro owner bound ctx hoccurs _ _ _
    have hfine := h.nodes owner bound _ hoccurs
    cases hc : inferTypeFromConstructor (.call (.symbolRef op) args) with
    | some c => exact absurd hspecial (hfine.constructs op args c rfl hc).2.2.2.1
    | none =>
      refine argType_call hc fun hsome hconflict => ?_
      obtain ⟨info, hinfo⟩ := Option.isSome_iff_exists.mp hsome
      exact absurd hspecial (h.definition hinfo fun hno => hconflict hno.2).1.2
  | @other ρ n v hother =>
    intro owner bound ctx _ _ _ _
    cases n with
    | symbolRef s => exact nomatch hother
    | call op args =>
      cases op with
      | symbolRef s => exact nomatch hother
      | _ => trivial
    | _ => trivial
  | nil =>
    intro owner bound ctx _ _ _ _
    exact .nil
  | cons _ _ ihhead ihtail =>
    intro owner bound ctx hoccurs hρ hctx htailed
    rw [List.forall_mem_cons] at hoccurs htailed
    exact .cons (ihhead owner bound ctx hoccurs.1 hρ hctx htailed.1)
      (ihtail owner bound ctx hoccurs.2 hρ hctx htailed.2)

/-- A predicate that each part of a round keeps holds at the end. -/
theorem ipRounds_induction {table : FnTable} {events : List ScanEvent} {P : Tables → Prop}
    (hround : ∀ T, P T → P (ipRound table events T)) :
    ∀ n T, P T → P (ipRounds table events n T) := by
  intro n
  induction n with
  | zero => exact fun T h => h
  | succ n ih =>
    intro T h
    rw [ipRounds]
    split
    · exact hround T h
    · exact ih _ (hround T h)

/-- Of functions that are not tracked nothing is said. -/
theorem untracked {f : Symbol} (h : (fnTable unit).find f = none) :
    (finalTables unit).params f = [] ∧ (finalTables unit).returns f = .bottom := by
  have houtside : ∀ info ∈ fnTable unit, info.name ≠ f := by
    intro info hinfo hname
    have hfind := find_of_mem (fnTable_collected unit).nodup hinfo
    rw [hname, h] at hfind
    exact nomatch hfind
  refine ipRounds_induction (P := fun T => T.params f = [] ∧ T.returns f = .bottom)
    (fun T hT => ?_) _ _ ⟨?_, rfl⟩
  · obtain ⟨hparams, hreturns⟩ := ipRound_outside (scanEvents_counts unit) T f houtside
    exact ⟨hparams.trans hT.1, hreturns.trans hT.2⟩
  · simp only [ipStart, h]

theorem joinArgs_returns {table : FnTable} {callee : Symbol} {ctx : Option IpContext}
    (args : List Ast) :
    ∀ (T : Tables) i, (joinArgs table callee ctx T i args).returns = T.returns := by
  induction args with
  | nil => exact fun T i => rfl
  | cons a as ih =>
    intro T i
    rw [joinArgs, ih, joinArg]
    cases (T.params callee)[i]? <;> rfl

theorem foldl_joinEvent_returns {table : FnTable} (es : List ScanEvent) :
    ∀ T : Tables, (es.foldl (joinEvent table) T).returns = T.returns := by
  induction es with
  | nil => exact fun T => rfl
  | cons e es ih =>
    intro T
    rw [List.foldl_cons, ih]
    cases e with
    | call callee args ctx => exact joinArgs_returns args T 0
    | ref s => rfl

/-- A function without a tail expression is left out of the second step. -/
theorem foldl_joinTail_returns {info : FnInfo} (hinfo : info ∈ fnTable unit)
    (htail : info.tailNode = none) {infos : List FnInfo} :
    (∀ info' ∈ infos, info' ∈ fnTable unit) → ∀ T : Tables,
      (infos.foldl (joinTail (fnTable unit)) T).returns info.name = T.returns info.name := by
  induction infos with
  | nil => exact fun _ T => rfl
  | cons info' infos ih =>
    intro hinfos T
    rw [List.forall_mem_cons] at hinfos
    rw [List.foldl_cons, ih hinfos.2, joinTail]
    cases htail' : info'.tailNode with
    | none => rfl
    | some tail =>
      refine if_neg fun hname => ?_
      have hfind := find_of_mem (fnTable_collected unit).nodup hinfos.1
      rw [← hname, find_of_mem (fnTable_collected unit).nodup hinfo] at hfind
      obtain rfl := Option.some.inj hfind
      exact nomatch htail.symm.trans htail'

/-- Nothing, or nothing any more, is known of the result. -/
def NoClass (f : Symbol) (T : Tables) : Prop := T.returns f = .bottom ∨ T.returns f = .conflict

theorem foldl_guard_noClass {f : Symbol} {events : List ScanEvent} (infos : List FnInfo) :
    ∀ T : Tables, NoClass f T → NoClass f (infos.foldl (guardIndirect events) T) := by
  induction infos with
  | nil => exact fun T hT => hT
  | cons info infos ih =>
    intro T hT
    refine ih _ ?_
    rw [guardIndirect]
    split
    · by_cases hname : f = info.name
      · exact .inr (if_pos hname)
      · simpa [NoClass, hname] using hT
    · exact hT

/-- The result of a function with several body forms has no class. -/
theorem noClass_of_no_tail {info : FnInfo} (hinfo : info ∈ fnTable unit)
    (htail : info.tailNode = none) :
    NoClass info.name (finalTables unit) := by
  refine ipRounds_induction (P := NoClass info.name) (fun T hT => ?_) _ _ (.inl rfl)
  refine foldl_guard_noClass _ _ ?_
  rwa [NoClass, foldl_joinTail_returns hinfo htail (fun _ hinfo' => hinfo'),
    foldl_joinEvent_returns]

/-- What holds of an event. -/
def EventHolds (M : Machine V) (unit : List TopLevel) : Event V → Prop
  | .visits call bound ρ n => Occurs unit (call.map (·.1)) bound n ∧
    (∀ s, s ∉ scope (call.map (·.1)) bound → ρ s = none) ∧
    ∀ d vs, call = some (d, vs) → d ∈ definitionsAll unit ∧ ParamsHold M unit d.name vs ∧
      ∃ ρ₀, Entry d vs ρ₀ ∧ ∀ s, s ∉ bound → ρ s = ρ₀ s
  | .enters d vs => d ∈ definitionsAll unit ∧ ParamsHold M unit d.name vs

theorem paramsHold_untracked {f : Symbol} (h : (fnTable unit).find f = none) (vs : List V) :
    ParamsHold M unit f vs := by
  intro i fact v hfact _
  rw [(untracked h).1] at hfact
  exact nomatch hfact

/-- In every run the facts hold of the arguments a function is entered with. -/
theorem runs_hold (h : Sound M unit) {event : Event V} (hruns : Runs M unit event) :
    EventHolds M unit event := by
  induction hruns with
  | outer hmem hρ =>
    exact ⟨.outer hmem, fun s hs => hρ s fun hb => hs (List.mem_append_left _ hb),
      fun d vs hcall => (nomatch hcall)⟩
  | @body d vs ρ n _ hentry hn ih =>
    refine ⟨.body ih.1 hn, fun s hs => hentry.other s hs, ?_⟩
    rintro d vs ⟨⟩
    exact ⟨ih.1, ih.2, ρ, hentry, fun _ _ => rfl⟩
  | @part call bound ρ n binds ρ' c _ hpart hρ' ih =>
    obtain ⟨hoccurs, hρ, hcall⟩ := ih
    refine ⟨.part hoccurs hpart, fun s hs => ?_, fun d vs hc => ?_⟩
    · have hs' : s ∉ binds ∧ s ∉ scope (call.map (·.1)) bound := by
        simp only [scope, List.mem_append, not_or] at hs ⊢
        exact ⟨hs.1.1, hs.1.2, hs.2⟩
      rw [hρ' s hs'.1, hρ s hs'.2]
    · obtain ⟨hd, hvs, ρ₀, hentry, hsame⟩ := hcall d vs hc
      refine ⟨hd, hvs, ρ₀, hentry, fun s hs => ?_⟩
      rw [List.mem_append, not_or] at hs
      rw [hρ' s hs.1, hsame s hs.2]
  | @call call bound ρ d args vs ρ' _ hd _ hargs hentry ih =>
    obtain ⟨hoccurs, hρ, -⟩ := ih
    refine ⟨hd, ?_⟩
    cases hinfo : (fnTable unit).find d.name with
    | none => exact paramsHold_untracked hinfo vs
    | some info =>
      obtain ⟨hmem, hname⟩ := mem_of_find hinfo
      by_cases hno : NoParams unit d.name
      · exact hno.hold vs
      have hdescribes := (h.definition hinfo fun hconflict => hno hconflict.1).2 d hd rfl
      have hrest : "&" ∉ info.params.map (·.name) :=
        fun hrest => hno (hname ▸ h.rest info hmem hrest)
      have hlength := (hentry.plain info.params hdescribes.params hrest).2.length_eq
      rw [← hname] at hoccurs hinfo ⊢
      exact h.paramsHold hoccurs hinfo (hargs.length.trans hlength.symm) hρ (eval_evidence h hargs)
  | threaded _ hthreads hd ih =>
    exact ⟨hd, NoParams.hold ((h.nodes _ _ _ ih.1).steps _ hthreads) _⟩
  | @indirect call bound ρ d vs _ hd ih =>
    refine ⟨hd, ?_⟩
    cases hinfo : (fnTable unit).find d.name with
    | none => exact paramsHold_untracked hinfo vs
    | some info =>
      obtain ⟨hmem, hname⟩ := mem_of_find hinfo
      obtain ⟨ctx, -, hscan⟩ := occurs_scanned (fnTable unit) ih.1
      have href : .ref info.name ∈ scanEvents unit := by
        refine hscan _ ?_
        rw [ipScanNode, hinfo, hname]
        exact List.mem_singleton.mpr rfl
      exact hname ▸ NoParams.hold (h.closed.indirect hmem href).1 vs
  | quoted _ hd ih => exact ⟨hd, NoParams.hold ((h.nodes _ _ _ ih.1).quoted _ rfl) _⟩
  | raw hname hd => exact ⟨hd, NoParams.hold (h.raw _ hname) _⟩

end

/-! ## §5 Claims -/

/-- What the class facts promise of the runs of a unit: of the arguments of its functions, of
their results, and of the expressions in their bodies. -/
structure FactsHold {V : Type} (M : Machine V) (unit : List TopLevel) : Prop where
  params : ∀ (d : Definition) (vs : List V) (i : Nat) (c : Symbol) (v : V),
    Runs M unit (.enters d vs) →
    ((inferInterproceduralTypes unit).params d.name)[i]? = some (some c) → vs[i]? = some v →
    M.instOf c v
  returns : ∀ (d : Definition) (vs : List V) (ρ : Locals V) (n : Ast) (c : Symbol) (v : V),
    Runs M unit (.enters d vs) → Entry d vs ρ → d.body.getLast? = some n →
      Eval M unit ρ (.node n) (.value v) →
        (inferInterproceduralTypes unit).returns d.name = some c → M.instOf c v
  expressions : ∀ (d : Definition) (vs : List V) (bound : List Symbol) (ρ : Locals V) (n : Ast)
    (c : Symbol) (v : V), Runs M unit (.visits (some (d, vs)) bound ρ n) →
      inferTypeFromExpr (inferInterproceduralTypes unit) (current (some d)) n = some c →
        Eval M unit ρ (.node n) (.value v) → M.instOf c v

section

variable {V : Type} {M : Machine V} {unit : List TopLevel}

theorem class_eq {fact : Fact} {c : Symbol} (h : fact.class? = some c) : fact = .cls c := by
  cases fact with
  | cls d => rw [Option.some.inj h]
  | _ => exact nomatch h

theorem params_fact {f c : Symbol} {i : Nat}
    (h : ((inferInterproceduralTypes unit).params f)[i]? = some (some c)) :
    ((finalTables unit).params f)[i]? = some (.cls c) := by
  rw [inferInterproceduralTypes, List.getElem?_map] at h
  obtain ⟨fact, hfact, hclass⟩ := Option.map_eq_some_iff.mp h
  exact class_eq hclass ▸ hfact

theorem tracked_of_returns {f c : Symbol} (h : (finalTables unit).returns f = .cls c) :
    ∃ info, (fnTable unit).find f = some info := by
  cases hinfo : (fnTable unit).find f with
  | none => exact nomatch h.symm.trans (untracked hinfo).2
  | some info => exact ⟨info, rfl⟩

theorem results_hold (h : Sound M unit) {d : Definition} {vs : List V} {ρ : Locals V} {n : Ast}
    {c : Symbol} {v : V} (hruns : Runs M unit (.enters d vs)) (hentry : Entry d vs ρ)
    (hlast : d.body.getLast? = some n) (hresult : Eval M unit ρ (.node n) (.value v))
    (hfact : (finalTables unit).returns d.name = .cls c) : M.instOf c v := by
  obtain ⟨hd, hvs⟩ := runs_hold h hruns
  obtain ⟨info, hinfo⟩ := tracked_of_returns hfact
  obtain ⟨hmem, hname⟩ := mem_of_find hinfo
  have hdescribes := (h.definition hinfo fun hno => nomatch hfact.symm.trans hno.2).2 d hd rfl
  cases htail : info.tailNode with
  | none =>
    have hnone := noClass_of_no_tail hmem htail
    rw [NoClass, hname, hfact] at hnone
    exact hnone.elim (fun hb => nomatch hb) (fun hc => nomatch hc)
  | some tail =>
    have hsingle : d.body = [tail] := body_of_tail hdescribes htail
    have hn : n = tail := by rw [hsingle] at hlast; exact (Option.some.inj hlast).symm
    subst hn
    have hoccurs : Occurs unit (some d) [] n :=
      .body hd (by rw [hsingle]; exact List.mem_singleton.mpr rfl)
    have hctx := h.ctxHolds hmem hdescribes hentry (hname ▸ hvs)
    have hevidence := eval_evidence h hresult (some d) [] _ hoccurs hentry.other hctx
      (h.tails info hmem _ htail)
    have hholds := holds_of_join (h.closed.result hmem htail) hevidence
    rw [hname, hfact] at hholds
    exact hholds

/-- Outside every function no fact of a parameter is used. -/
theorem no_context (ρ : Locals V) : CtxHolds M unit none ρ := by rintro f params ⟨⟩

/-- A call or a constructor that has a class has values of it. -/
theorem evidence_holds (h : Sound M unit) {owner : Option Definition} {bound : List Symbol}
    {ρ : Locals V} {n : Ast} {c : Symbol} {v : V} (hoccurs : Occurs unit owner bound n)
    (hρ : ∀ s, s ∉ scope owner bound → ρ s = none) (htailed : Tailed unit n)
    (hclass : ipArgExprType (fnTable unit) (finalTables unit) none n = .cls c)
    (hv : Eval M unit ρ (.node n) (.value v)) : M.instOf c v := by
  have hholds := eval_evidence h hv owner bound none hoccurs hρ (no_context ρ) htailed
  rw [hclass] at hholds
  exact hholds

/-- A parameter with a class, where it is not bound again. -/
theorem parameter_holds (h : Sound M unit) {d : Definition} {vs : List V} {bound : List Symbol}
    {ρ : Locals V} {s c f : Symbol} {params : List Symbol} {i : Nat} {v : V}
    (hruns : Runs M unit (.visits (some (d, vs)) bound ρ (.symbolRef s)))
    (hcurrent : current (some d) = some (f, params)) (hi : params.findIdx? (· = s) = some i)
    (hfact : ((finalTables unit).params f)[i]? = some (.cls c))
    (hv : Eval M unit ρ (.node (.symbolRef s)) (.value v)) : M.instOf c v := by
  obtain ⟨hoccurs, -, hcall⟩ := runs_hold h hruns
  obtain ⟨hd, hvs, ρ₀, hentry, hsame⟩ := hcall d vs rfl
  have hbound := (h.nodes _ _ _ hoccurs).parameter s f params i c rfl hcurrent hi hfact
  obtain ⟨rfl, hparams⟩ : d.name = f ∧ flatParams d.params = some params := by
    rw [current, Option.bind_some] at hcurrent
    split at hcurrent
    next =>
      obtain ⟨ps, hps, heq⟩ := Option.map_eq_some_iff.mp hcurrent
      obtain ⟨rfl, rfl⟩ := Prod.mk.inj heq
      exact ⟨rfl, hps⟩
    next => exact nomatch hcurrent
  have hsome : ¬ NoParams unit d.name := fun hno => nomatch hno _ (List.mem_of_getElem? hfact)
  cases hinfo : (fnTable unit).find d.name with
  | none =>
    rw [(untracked hinfo).1] at hfact
    exact nomatch hfact
  | some info =>
    obtain ⟨hmem, hname⟩ := mem_of_find hinfo
    have hdescribes := (h.definition hinfo fun hno => hsome hno.1).2 d hd rfl
    obtain rfl : info.params = params := Option.some.inj (hdescribes.params.symm.trans hparams)
    have hrest : "&" ∉ info.params.map (·.name) :=
      fun hrest => hsome (hname ▸ h.rest info hmem hrest)
    obtain ⟨u, hu, hlocal⟩ := hentry.param hparams hrest (get_of_findIdx hi)
    have hvalue : ρ s = some u := (hsame s hbound).trans hlocal
    have huv : u = v := by
      cases hv with
      | «local» hs => exact Option.some.inj (hvalue.symm.trans hs)
      | global hs => exact nomatch hvalue.symm.trans hs
      | special hs =>
        have hmem' := List.mem_of_getElem? (get_of_findIdx hi)
        exact (hsome (hname ▸ h.lexical info hmem s hmem' hs)).elim
      | other hother => exact nomatch hother
    exact huv ▸ hvs i _ u hfact hu

theorem returns_fact {f c : Symbol} (h : (inferInterproceduralTypes unit).returns f = some c) :
    (finalTables unit).returns f = .cls c := class_eq h

theorem expressions_hold (h : Sound M unit) {d : Definition} {vs : List V} {bound : List Symbol}
    {ρ : Locals V} {n : Ast} {c : Symbol} {v : V}
    (hruns : Runs M unit (.visits (some (d, vs)) bound ρ n))
    (hclass : inferTypeFromExpr (inferInterproceduralTypes unit) (current (some d)) n = some c)
    (hv : Eval M unit ρ (.node n) (.value v)) : M.instOf c v := by
  obtain ⟨hoccurs, hρ, -⟩ := runs_hold h hruns
  rw [inferTypeFromExpr.eq_def] at hclass
  cases hconstructor : inferTypeFromConstructor n with
  | some c' =>
    simp only [hconstructor, Option.some.injEq] at hclass
    subst hclass
    refine evidence_holds h hoccurs hρ ?_ (argType_constructor hconstructor none) hv
    rintro op args info rfl hinfo _
    obtain ⟨hmem, rfl⟩ := mem_of_find hinfo
    obtain ⟨d', hd', hdescribes⟩ := (fnTable_collected unit).source info hmem
    have hundefined := ((h.nodes _ _ _ hoccurs).constructs _ args c' rfl hconstructor).2.1
    exact absurd hdescribes.name (hundefined d' hd')
  | none =>
    simp only [hconstructor] at hclass
    split at hclass
    next f args =>
      have hfact := returns_fact hclass
      obtain ⟨info, hinfo⟩ := tracked_of_returns hfact
      refine evidence_holds h hoccurs hρ ?_ ?_ hv
      · rintro op args' info' heq hinfo' htail
        cases heq
        obtain ⟨hmem, hname⟩ := mem_of_find hinfo'
        have hnone := noClass_of_no_tail hmem htail
        rw [NoClass, hname, hfact] at hnone
        exact hnone.elim (fun hb => nomatch hb) (fun hc => nomatch hc)
      · simp only [ipArgExprType, hconstructor, hinfo, Option.isSome_some, if_true, hfact,
          Fact.evidence]
    next s =>
      obtain ⟨⟨f, params⟩, hcurrent, hclass⟩ := Option.bind_eq_some_iff.mp hclass
      obtain ⟨i, hi, hclass⟩ := Option.bind_eq_some_iff.mp hclass
      obtain ⟨fact, hfact, hsome⟩ := Option.bind_eq_some_iff.mp hclass
      obtain rfl : fact = some c := hsome
      exact parameter_holds h hruns hcurrent hi (params_fact hfact) hv
    next => exact nomatch hclass

end

/-- In every run of a unit that is `Sound`, the class facts hold. -/
theorem Sound.facts_hold {V : Type} {M : Machine V} {unit : List TopLevel} (h : Sound M unit) :
    FactsHold M unit where
  params _ _ i _ v hruns hfact hv := (runs_hold h hruns).2 i _ v (params_fact hfact) hv
  returns _ _ _ _ _ _ hruns hentry hlast hv hfact :=
    results_hold h hruns hentry hlast hv (returns_fact hfact)
  expressions _ _ _ _ _ _ _ hruns hclass hv := expressions_hold h hruns hclass hv

/-- The analysis follows this function: one clause, all parameters symbols. -/
def Tracked (unit : List TopLevel) (f : Symbol) : Prop := ((fnTable unit).find f).isSome

/-- What the analysis takes the names at a node for. -/
structure NodePlain {V : Type} (M : Machine V) (unit : List TopLevel) (owner : Option Definition)
    (bound : List Symbol) (n : Ast) : Prop where
  constructs : ∀ op args c, n = .call (.symbolRef op) args → inferTypeFromConstructor n = some c →
    op ∉ scope owner bound ∧ (∀ d ∈ definitionsAll unit, d.name ≠ op) ∧ op ∉ genericsAll unit ∧
      op ∉ M.specials unit ∧ ∀ vs v,
      (∀ s, args.head? = some (.quote (some s)) → vs.head? = some (M.symbol s)) →
        M.value op vs v → M.instOf c v
  calls : ∀ op args, n = .call (.symbolRef op) args → Tracked unit op → op ∉ scope owner bound
  parameter : ∀ s f params, n = .symbolRef s → current owner = some (f, params) → s ∈ params →
    s ∉ bound
  steps : ∀ f ∈ threads n, ¬ Tracked unit f
  quoted : ∀ f, n = .quote (some f) → ¬ Tracked unit f

/-- The units in which nothing is missed: the rounds come to rest, a name that is followed has one
definition with plain lexical parameters, code that is not parsed does not name it, functions of
several body forms give no evidence, and names mean what they are taken for. -/
structure Plain {V : Type} (M : Machine V) (unit : List TopLevel) : Prop where
  settles : settled (fnTable unit) (finalTables unit)
    (ipRound (fnTable unit) (scanEvents unit) (finalTables unit)) = true
  single : ∀ f, Tracked unit f →
    (∀ d ∈ definitionsAll unit, ∀ d' ∈ definitionsAll unit, d.name = f → d'.name = f → d = d') ∧
      f ∉ genericsAll unit ∧ f ∉ M.specials unit
  rest : ∀ info ∈ fnTable unit, "&" ∉ info.params.map (·.name)
  lexical : ∀ info ∈ fnTable unit, ∀ s ∈ info.params, s ∉ M.specials unit
  raw : ∀ f ∈ M.raw, ¬ Tracked unit f
  tails : ∀ info ∈ fnTable unit, info.tailNode = none → ∀ args,
    (∀ callee args' ctx, .call callee args' ctx ∈ scanEvents unit →
      .call (.symbolRef info.name) args ∉ args') ∧
      ∀ info' ∈ fnTable unit, info'.tailNode ≠ some (.call (.symbolRef info.name) args)
  nodes : ∀ owner bound n, Occurs unit owner bound n → NodePlain M unit owner bound n

section

variable {V : Type} {M : Machine V} {unit : List TopLevel}

theorem NoParams.of_untracked {f : Symbol} (h : ¬ Tracked unit f) : NoParams unit f := by
  intro fact hfact
  rw [(untracked (Option.not_isSome_iff_eq_none.mp h)).1] at hfact
  exact nomatch hfact

theorem NodePlain.fine {owner : Option Definition} {bound : List Symbol} {n : Ast}
    (h : NodePlain M unit owner bound n) : NodeFine M unit owner bound n where
  constructs := h.constructs
  calls op args hn htracked _ := h.calls op args hn htracked
  parameter s f params _ _ hn hcurrent hi _ :=
    h.parameter s f params hn hcurrent (List.mem_of_getElem? (get_of_findIdx hi))
  steps f hf := .of_untracked (h.steps f hf)
  quoted f hn := .of_untracked (h.quoted f hn)

theorem Plain.sound (h : Plain M unit) : Sound M unit where
  settles := h.settles
  single f hf := .inr (h.single f hf)
  rest info hinfo hrest := absurd hrest (h.rest info hinfo)
  lexical info hinfo s hs hspecial := absurd hspecial (h.lexical info hinfo s hs)
  raw f hf := .of_untracked (h.raw f hf)
  arguments callee args ctx hcall a ha := by
    rintro op args' info rfl hinfo htail
    obtain ⟨hmem, rfl⟩ := mem_of_find hinfo
    exact absurd ha ((h.tails info hmem htail args').1 callee args ctx hcall)
  tails info hinfo tail htail := by
    rintro op args' info' rfl hinfo' htail'
    obtain ⟨hmem, rfl⟩ := mem_of_find hinfo'
    exact absurd htail ((h.tails info' hmem htail' args').2 info hinfo)
  nodes owner bound n hoccurs := (h.nodes owner bound n hoccurs).fine

end

/-- Objects are the symbols of their classes, and only `make-a` and `make-b` return. -/
def objects : Machine Symbol where
  instOf c v := c = v
  symbol s := s
  value op _ v := op = ⟨"make-a", "USER"⟩ ∧ v = ⟨"a", "USER"⟩ ∨ op = ⟨"make-b", "USER"⟩ ∧
    v = ⟨"b", "USER"⟩
  raw := []
  special := []

def makeA : Ast := .call (.symbolRef ⟨"make-a", "USER"⟩) []

def makeB : Ast := .call (.symbolRef ⟨"make-b", "USER"⟩) []

/-- `(defn f [p] p)` -/
def identityDefinition : TopLevel :=
  .function .defn ⟨"f", "USER"⟩ [(⟨[.symbol ⟨"p", "USER"⟩], false⟩, [.symbolRef ⟨"p", "USER"⟩])]

/-- `(f (make-a))` -/
def identityCall : Ast := .call (.symbolRef ⟨"f", "USER"⟩) [makeA]

def identityUnit : List TopLevel := [identityDefinition, .expression identityCall]

theorem identity_occurs {owner : Option Definition} {bound : List Symbol} {n : Ast}
    (h : Occurs identityUnit owner bound n) :
    bound = [] ∧
    (owner = none ∧ (n = identityCall ∨ n = makeA) ∨ n = .symbolRef ⟨"p", "USER"⟩) := by
  induction h with
  | outer hmem =>
    obtain ⟨rfl, rfl⟩ := Prod.mk.inj (List.mem_singleton.mp hmem)
    exact ⟨rfl, .inl ⟨rfl, .inl rfl⟩⟩
  | body hd hn =>
    obtain rfl := List.mem_singleton.mp hd
    exact ⟨rfl, .inr (List.mem_singleton.mp hn)⟩
  | part _ hpart ih =>
    obtain ⟨rfl, ⟨rfl, rfl | rfl⟩ | rfl⟩ := ih
    · obtain ⟨rfl, rfl⟩ := Prod.mk.inj (List.mem_singleton.mp hpart)
      exact ⟨rfl, .inl ⟨rfl, .inr rfl⟩⟩
    · exact nomatch hpart
    · exact nomatch hpart

theorem identity_table : fnTable identityUnit =
    [⟨⟨"f", "USER"⟩, [⟨"p", "USER"⟩], some (.symbolRef ⟨"p", "USER"⟩)⟩] := rfl

theorem identity_found {f : Symbol} (h : ((fnTable identityUnit).find f).isSome) :
    f = ⟨"f", "USER"⟩ := by
  obtain ⟨info, hinfo⟩ := Option.isSome_iff_exists.mp h
  obtain ⟨hmem, rfl⟩ := mem_of_find hinfo
  obtain rfl := List.mem_singleton.mp (identity_table ▸ hmem)
  rfl

theorem identity_plain : Plain objects identityUnit where
  settles := by decide +kernel
  single f hf := by
    obtain rfl := identity_found hf
    refine ⟨fun d hd d' hd' _ _ => ?_, (fun hgeneric => nomatch hgeneric), List.not_mem_nil⟩
    rw [List.mem_singleton.mp hd, List.mem_singleton.mp hd']
  rest info hinfo hrest := by
    rw [identity_table] at hinfo
    obtain rfl := List.mem_singleton.mp hinfo
    simp at hrest
  lexical _ _ _ _ := List.not_mem_nil
  raw f hf := nomatch hf
  tails info hinfo htail := by
    rw [identity_table] at hinfo
    obtain rfl := List.mem_singleton.mp hinfo
    exact nomatch htail
  nodes owner bound n hoccurs := by
    obtain ⟨rfl, ⟨rfl, rfl | rfl⟩ | rfl⟩ := identity_occurs hoccurs
    · refine ⟨?_, ?_, ?_, (fun f hf => nomatch hf), (fun f hf => nomatch hf)⟩
      · rintro op args c ⟨⟩ hc
        have hnone : inferTypeFromConstructor identityCall = none := by decide +kernel
        exact nomatch hnone.symm.trans hc
      · rintro op args ⟨⟩ _
        decide
      · rintro s f params ⟨⟩
    · refine ⟨?_, ?_, ?_, (fun f hf => nomatch hf), (fun f hf => nomatch hf)⟩
      · rintro op args c ⟨⟩ hc
        have hc' : c = ⟨"a", "USER"⟩ := Option.some.inj (hc.symm.trans (by decide +kernel))
        subst hc'
        refine ⟨by decide, by simp [definitionsAll, definitions, identityUnit, identityDefinition],
          (fun hgeneric => nomatch hgeneric), List.not_mem_nil, ?_⟩
        rintro vs v - (⟨-, rfl⟩ | ⟨hop, -⟩)
        · rfl
        · exact absurd hop (by decide)
      · rintro op args ⟨⟩ hfound
        exact absurd (identity_found hfound) (by decide)
      · rintro s f params ⟨⟩
    · refine ⟨?_, ?_, ?_, (fun f hf => nomatch hf), (fun f hf => nomatch hf)⟩
      · rintro op args c ⟨⟩
      · rintro op args ⟨⟩
      · exact fun s f params _ _ _ => List.not_mem_nil

/-- `(defn g [] 1 (make-b))` -/
def pendingDefinition : TopLevel :=
  .function .defn ⟨"g", "USER"⟩ [(⟨[], false⟩, [.literal (.num 1), makeB])]

/-- `(f (g))` -/
def pendingCall : Ast := .call (.symbolRef ⟨"f", "USER"⟩) [.call (.symbolRef ⟨"g", "USER"⟩) []]

def pendingUnit : List TopLevel :=
  [identityDefinition, pendingDefinition, .expression identityCall, .expression pendingCall]

end Fol.Interprocedural

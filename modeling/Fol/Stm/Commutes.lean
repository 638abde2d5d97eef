/-
Fol.Stm.Commutes — transactions that use a ref only through `commute`.

`commute` computes its estimate with `deref`, which notes the version of the ref in the read set:
a commit to the ref fails every running transaction that has commuted it. Those that do commit
replay their functions on the value they find, so none is lost.
-/
import Fol.Stm.Serial

namespace Fol.Stm

open Fol.Lib

variable {T R V E : Type} [DecidableEq T] [DecidableEq R]

/-! ## §1 Access -/

def Op.ref : Op R V E → R
  | .deref r => r
  | .refSet r _ => r
  | .alter r _ => r
  | .commute r _ => r
  | .ensure r => r

/-- The transaction accesses the ref, and only through `commute`. -/
def CommuteOnly (l : Log R V E) (r : R) : Prop :=
  (∃ op ∈ l.ops, op.ref = r) ∧ ∀ op ∈ l.ops, op.ref = r → op.direct = false

/-- A version noted for the ref is no longer its version: the transaction cannot commit. -/
def Stale (σ : Store R V) (t : Txn R V E) (r : R) : Prop :=
  ∃ n, (t.readSet.get r = some n ∨ t.ensureSet.get r = some n) ∧ n ≠ (σ r).version

/-- `%try-commit` returns `nil` exactly if some ref is stale. -/
theorem conflict_iff_stale (refs : R → Hooks V E) (σ : Store R V) (t : Txn R V E) :
    (tryCommit refs σ t).2 = .conflict ↔ ∃ r, Stale σ t r := by
  rw [tryCommit_conflict, unchangedAll, ← Bool.not_eq_true, Bool.and_eq_true, unchanged_iff,
    unchanged_iff]
  constructor
  · intro h
    by_contra hnone
    exact h ⟨fun r n hn => by_contra fun hne => hnone ⟨r, n, .inl hn, hne⟩,
      fun r n hn => by_contra fun hne => hnone ⟨r, n, .inr hn, hne⟩⟩
  · rintro ⟨r, n, hn | hn, hne⟩ ⟨hreads, hensures⟩
    · exact hne (hreads r n hn)
    · exact hne (hensures r n hn)

/-- What the tables have of a ref, the transaction has accessed; and it notes what it commutes. -/
structure Noticed (a : Attempt R V E) : Prop where
  reads : ∀ r, (a.txn.readSet.get r).isSome → ∃ op ∈ a.log.ops, op.ref = r
  ensures : ∀ r, (a.txn.ensureSet.get r).isSome → .ensure r ∈ a.log.ops
  commutes : ∀ r, CommuteOnly a.log r → (a.txn.readSet.get r).isSome

theorem CommuteOnly.not_sets {l : Log R V E} {r : R} (h : CommuteOnly l r) :
    l.ops.any (fun op => op.sets r) = false := by
  rw [List.any_eq_false]
  intro op hop hsets
  have hdirect := h.2 op hop
  cases op with
  | refSet r' v => exact nomatch hdirect (of_decide_eq_true hsets)
  | alter r' f => exact nomatch hdirect (of_decide_eq_true hsets)
  | _ => exact nomatch hsets

/-- A ref that is only commuted is not in the ensure set. -/
theorem Noticed.not_ensured {a : Attempt R V E} (h : Noticed a) {r : R} (hr : CommuteOnly a.log r) :
    a.txn.ensureSet.get r = none := by
  refine Option.not_isSome_iff_eq_none.mp fun hsome => ?_
  exact nomatch hr.2 _ (h.ensures r hsome) rfl

omit [DecidableEq R] in
theorem CommuteOnly.before {l : Log R V E} {p : Logged R V E} {r : R}
    (h : CommuteOnly (l ++ [p] : Log R V E) r) (hl : ∃ op ∈ l.ops, op.ref = r) :
    CommuteOnly l r := by
  refine ⟨hl, fun op hop => h.2 op ?_⟩
  rw [Log.ops_snoc]
  exact List.mem_append_left _ hop

/-- What an operation notes. -/
structure Notes (t : Txn R V E) (op : Op R V E) (t' : Txn R V E) : Prop where
  reads : ∀ r, (t'.readSet.get r).isSome → (t.readSet.get r).isSome ∨ op.ref = r
  ensures : ∀ r, (t'.ensureSet.get r).isSome → (t.ensureSet.get r).isSome ∨ op = .ensure r
  commutes : op.direct = false → (t.writeSet.get op.ref).isSome = false →
    (t'.readSet.get op.ref).isSome

theorem noteVersion_isSome {σ : Store R V} {r r' : R} {table : Table R Nat}
    (h : ((noteVersion σ r table).get r').isSome) : (table.get r').isSome ∨ r = r' := by
  obtain ⟨n, hn⟩ := Option.isSome_iff_exists.mp h
  rcases noteVersion_get hn with hold | ⟨hr, -⟩
  · exact .inl (Option.isSome_iff_exists.mpr ⟨n, hold⟩)
  · exact .inr hr

theorem deref_reads {σ : Store R V} {t : Txn R V E} {r r' : R}
    (h : ((Stm.deref σ t r).2.readSet.get r').isSome) : (t.readSet.get r').isSome ∨ r = r' := by
  rcases deref_readSet σ t r with heq | heq
  · exact .inl (heq ▸ h)
  · rw [heq] at h
    exact noteVersion_isSome h

theorem deref_notes {σ : Store R V} {t : Txn R V E} {r : R}
    (h : (t.writeSet.get r).isSome = false) :
    ((Stm.deref σ t r).2.readSet.get r).isSome := by
  rw [deref, Option.isSome_eq_false_iff.mp h |> Option.isNone_iff_eq_none.mp]
  exact noteVersion_self σ r _

theorem exec_notes {σ : Store R V} {t t' : Txn R V E} {op : Op R V E} {v : V}
    (h : t.exec σ op = .ok (v, t')) : Notes t op t' := by
  cases op with
  | deref r =>
    obtain ⟨-, rfl⟩ := ok_pair (p := Stm.deref σ t r) h
    refine ⟨fun r' => deref_reads, fun r' hr => .inl ?_, fun hd => nomatch hd⟩
    rwa [deref_ensureSet] at hr
  | refSet r v =>
    obtain ⟨-, rfl⟩ := ok_pair (p := Stm.refSet t r v) h
    exact ⟨fun r' => .inl, fun r' => .inl, fun hd => nomatch hd⟩
  | alter r f =>
    obtain ⟨-, rfl⟩ := alter_ok h
    refine ⟨fun r' => deref_reads, fun r' hr => .inl ?_, fun hd => nomatch hd⟩
    have hr' : ((Stm.deref σ t r).2.ensureSet.get r').isSome := hr
    rwa [deref_ensureSet] at hr'
  | commute r f =>
    obtain ⟨-, rfl⟩ := commute_ok h
    refine ⟨fun r' => deref_reads (t := t.push r f), fun r' hr => .inl ?_,
      fun _ hw => deref_notes hw⟩
    rwa [deref_ensureSet] at hr
  | ensure r =>
    obtain ⟨-, rfl⟩ := ok_pair (p := Stm.ensure σ t r) h
    let t' := { t with ensureSet := noteVersion σ r t.ensureSet }
    refine ⟨fun r' => deref_reads (t := t'), fun r' hr => ?_, fun hd => nomatch hd⟩
    rw [ensure, deref_ensureSet] at hr
    exact (noteVersion_isSome hr).imp_right (congrArg Op.ensure)

theorem Noticed.start : Noticed ({} : Attempt R V E) := by
  refine ⟨(fun r h => nomatch h), (fun r h => nomatch h), fun r h => ?_⟩
  obtain ⟨⟨op, hop, -⟩, -⟩ := h
  exact nomatch hop

theorem Noticed.exec {σ : Store R V} {a : Attempt R V E} (h : Noticed a) (hsets : Consistent σ a)
    {op : Op R V E} {v : V} {t : Txn R V E} (hexec : a.txn.exec σ op = .ok (v, t)) :
    Noticed { txn := t, log := a.log ++ [(op, v)] } := by
  have hnotes := exec_notes hexec
  have hmem {o : Op R V E} : o ∈ (a.log ++ [(op, v)] : Log R V E).ops ↔ o ∈ a.log.ops ∨ o = op := by
    rw [Log.ops_snoc, List.mem_append, List.mem_singleton]
  refine ⟨fun r hr => ?_, fun r hr => ?_, fun r hr => ?_⟩
  · rcases hnotes.reads r hr with hold | heq
    · obtain ⟨o, ho, href⟩ := h.reads r hold
      exact ⟨o, hmem.mpr (.inl ho), href⟩
    · exact ⟨op, hmem.mpr (.inr rfl), heq⟩
  · rcases hnotes.ensures r hr with hold | rfl
    · exact hmem.mpr (.inl (h.ensures r hold))
    · exact hmem.mpr (.inr rfl)
  · by_cases hold : ∃ o ∈ a.log.ops, o.ref = r
    · obtain ⟨n, hn⟩ := Option.isSome_iff_exists.mp (h.commutes r (hr.before hold))
      exact Option.isSome_iff_exists.mpr ⟨n, (exec_executes hexec).reads.2 r n hn⟩
    · obtain ⟨⟨o, ho, rfl⟩, hall⟩ := hr
      rcases hmem.mp ho with hin | rfl
      · exact absurd ⟨o, hin, rfl⟩ hold
      · refine hnotes.commutes (hall o ho rfl) ?_
        rw [hsets.sets, List.any_eq_false]
        intro o' ho' hsets'
        refine hold ⟨o', ho', ?_⟩
        cases o' with
        | refSet r' v => exact of_decide_eq_true hsets'
        | alter r' f => exact of_decide_eq_true hsets'
        | _ => exact nomatch hsets'

/-! ## §2 Steps -/

/-- No running transaction has a stale version of a ref it has only commuted. -/
def Fresh (s : State T R V E) : Prop :=
  ∀ i a r, s.active i = some a → CommuteOnly a.log r → ¬ Stale s.store a.txn r

/-- `%try-commit` returns `nil` only for a ref that the transaction has not only commuted. -/
def Admitted (refs : R → Hooks V E) (s : State T R V E) : Prop :=
  ∀ i a, s.active i = some a → (tryCommit refs s.store a.txn).2 = .conflict →
    ∃ r, ¬ CommuteOnly a.log r ∧ Stale s.store a.txn r

omit [DecidableEq T] in
theorem Fresh.admitted {s : State T R V E} (h : Fresh s) (refs : R → Hooks V E) :
    Admitted refs s := by
  intro i a ha hconflict
  obtain ⟨r, hr⟩ := (conflict_iff_stale refs s.store a.txn).mp hconflict
  exact ⟨r, fun honly => h i a r ha honly hr, hr⟩

/-- A commit writes no ref that another running transaction has only commuted. -/
def SparesCommutes (refs : R → Hooks V E) (s : State T R V E) (act : Action T R V E) : Prop :=
  ∀ i a, s.Commits act i a → ∀ writes, Writes refs s.store a.txn writes →
    ∀ j b r, j ≠ i → s.active j = some b → CommuteOnly b.log r → writes.get r = none

/-- What is known of the transactions in progress. -/
structure State.Tracked (s : State T R V E) : Prop where
  consistent : s.Consistent
  noticed : ∀ i a, s.active i = some a → Noticed a

theorem step_tracked {refs : R → Hooks V E} {s s' : State T R V E} {act : Action T R V E}
    (hs : s.Tracked) (h : Steps refs s act s') : s'.Tracked := by
  refine ⟨step_consistent hs.consistent h, fun j b hb => ?_⟩
  rcases step_cases h with ⟨i, a, -, rfl⟩ | ⟨-, i, x, rfl, hx⟩
  · exact hs.noticed j b (active_of_finish hb).2
  · rcases active_of_setActive hb with ⟨rfl, hnew⟩ | ⟨-, hold⟩
    · rcases hx b hnew with rfl | ⟨a, op, v, ha, -, hexec, hlog⟩
      · exact .start
      · have hnext := (hs.noticed j a ha).exec (hs.consistent j a ha) hexec
        rwa [← hlog] at hnext
    · exact hs.noticed j b hold

/-- The only version noted of a ref that is only commuted is the one in the read set. -/
theorem stale_iff {σ : Store R V} {a : Attempt R V E} (hnoticed : Noticed a) {r : R}
    (hr : CommuteOnly a.log r) : Stale σ a.txn r ↔ ∃ n, a.txn.readSet.get r = some n ∧
    n ≠ (σ r).version := by
  refine exists_congr fun n => and_congr_left fun _ => or_iff_left fun hensured => ?_
  rw [hnoticed.not_ensured hr] at hensured
  exact nomatch hensured

/-- An operation of a transaction makes nothing stale that it has only commuted. -/
theorem fresh_exec {σ : Store R V} {a b : Attempt R V E} (hconsistent : Consistent σ a)
    (hnoticed : Noticed a) (hfresh : ∀ r, CommuteOnly a.log r → ¬ Stale σ a.txn r) {op : Op R V E}
    {v : V}
    (hexec : a.txn.exec σ op = .ok (v, b.txn)) (hlog : b.log = a.log ++ [(op, v)]) {r : R}
    (hr : CommuteOnly b.log r) : ¬ Stale σ b.txn r := by
  have hb : Noticed b := by
    have hnext := hnoticed.exec hconsistent hexec
    rwa [← hlog] at hnext
  rw [stale_iff hb hr]
  rintro ⟨n, hn, hne⟩
  have hbefore := ((exec_executes hexec).reads.1 r n hn).resolve_right hne
  have hold : CommuteOnly a.log r :=
    (hlog ▸ hr).before (hnoticed.reads r (Option.isSome_iff_exists.mpr ⟨n, hbefore⟩))
  exact hfresh r hold ((stale_iff hnoticed hold).mpr ⟨n, hbefore, hne⟩)

/-- A step keeps all commutes fresh exactly if its commit spares them. -/
theorem step_fresh_iff {refs : R → Hooks V E} {s s' : State T R V E} {act : Action T R V E}
    (hs : s.Tracked) (hfresh : Fresh s) (hquiet : QuietCommit refs s act)
    (h : Steps refs s act s') :
    Fresh s' ↔ SparesCommutes refs s act := by
  rcases step_cases h with ⟨i, a, hcommits, rfl⟩ | ⟨hcommits, i, x, rfl, hx⟩
  · have hunique (j b) (hc : s.Commits act j b) : j = i ∧ b = a := by
      obtain ⟨rfl, ha⟩ := hcommits
      obtain ⟨hact, hb⟩ := hc
      obtain rfl := Action.commit.inj hact
      exact ⟨rfl, Option.some.inj (hb.symm.trans ha)⟩
    rcases tryCommit_cases refs s.store a.txn with ⟨writes, hw, -, hcommit⟩ |
      ⟨_, _, -, hnoisy, -⟩ | ⟨hnone, hsame, -⟩
    · rw [hcommit]
      constructor
      · rintro hafter j b hc writes' hw' k c r hk hc' hr
        obtain ⟨rfl, rfl⟩ := hunique j b hc
        obtain rfl := Except.ok.inj (hw'.commutes.symm.trans hw.commutes)
        by_contra hwritten
        obtain ⟨v, hv⟩ := Option.ne_none_iff_exists'.mp hwritten
        obtain ⟨n, hn⟩ := Option.isSome_iff_exists.mp ((hs.noticed k c hc').commutes r hr)
        refine hafter k c r ((setActive_ne s none hk).trans hc') hr ⟨n, .inl hn, ?_⟩
        have hle := (hs.consistent k c hc').noted r n hn
        have hversion : (written s.store writes' r).version = (s.store r).version + 1 := by
          rw [written.eq_def, hv]
        rw [finish_store, hversion]
        omega
      · intro hspares j b r hb hr
        obtain ⟨hj, hb⟩ := active_of_finish hb
        rw [finish_store]
        have hnone := hspares i a hcommits writes hw j b r hj hb hr
        have hsame : written s.store writes r = s.store r := by rw [written.eq_def, hnone]
        rintro ⟨n, hn, hne⟩
        exact hfresh j b r hb hr ⟨n, hn, hsame ▸ hne⟩
    · exact absurd (hquiet i a hcommits) hnoisy
    · refine iff_of_true ?_ ?_
      · intro j b r hb hr
        rw [finish_store, hsame]
        exact hfresh j b r (active_of_finish hb).2 hr
      · intro j b hc writes hw
        obtain ⟨rfl, rfl⟩ := hunique j b hc
        exact absurd hw (hnone writes)
  · refine iff_of_true (fun j b r hb hr => ?_) fun j b hc => absurd hc (hcommits j b)
    rcases active_of_setActive hb with ⟨rfl, hnew⟩ | ⟨-, hold⟩
    · rcases hx b hnew with rfl | ⟨a, op, v, ha, -, hexec, hlog⟩
      · obtain ⟨⟨o, ho, -⟩, -⟩ := hr
        cases ho
      · exact fresh_exec (hs.consistent j a ha) (hs.noticed j a ha) (fun r' => hfresh j a r' ha)
          hexec hlog hr
    · exact hfresh j b r hold hr

/-! ## §3 Values -/

theorem deferred_frame {x y : Vars R V} {op : Op R V E} {v : V} (h : deferred x op = .ok (v, y))
    {r : R} (hr : op.sets r = false) : y r = x r := by
  cases op with
  | refSet r' v' =>
    obtain ⟨-, rfl⟩ := ok_pair (p := (v', x.assign r' v')) h
    exact if_neg fun heq => of_decide_eq_false hr heq.symm
  | alter r' f =>
    rw [deferred, plain, update] at h
    · cases hf : f (x r') with
      | error e =>
        rw [hf] at h
        cases h
      | ok w =>
        rw [hf] at h
        obtain ⟨-, rfl⟩ := ok_pair (p := (w, x.assign r' w)) h
        exact if_neg fun heq => of_decide_eq_false hr heq.symm
    · simp
  | commute r' f =>
    rw [deferred, estimate] at h
    cases hf : f (x r') with
    | error e =>
      rw [hf] at h
      cases h
    | ok w =>
      rw [hf] at h
      obtain ⟨-, rfl⟩ := ok_pair (p := (w, x)) h
      rfl
  | deref r' =>
    obtain ⟨-, rfl⟩ := ok_pair (p := (x r', x)) h
    rfl
  | ensure r' =>
    obtain ⟨-, rfl⟩ := ok_pair (p := (x r', x)) h
    rfl

theorem run_frame {x y : Vars R V} {ops : List (Op R V E)} {vs : List V}
    (h : run deferred x ops = .ok (vs, y)) {r : R} (hr : ∀ op ∈ ops, op.sets r = false) :
    y r = x r := by
  induction ops generalizing x vs with
  | nil =>
    obtain ⟨-, rfl⟩ := Prod.mk.inj (Except.ok.inj h)
    rfl
  | cons op ops ih =>
    obtain ⟨hop, hops⟩ := List.forall_mem_cons.mp hr
    obtain ⟨v, z, ws, hfirst, hrest, -⟩ := run_cons_ok h
    exact (ih hrest hops).trans (deferred_frame hfirst hop)

theorem applyAll_append (fs gs : List (Fn V E)) (v : V) :
    applyAll (fs ++ gs) v = (applyAll fs v).bind (applyAll gs) := List.foldlM_append

/-- A transaction that writes a ref only through `commute` applies its functions to it. -/
theorem replays_value {σ σ' : Store R V} {l : Log R V E} (h : Replays σ l σ') {r : R}
    (hr : l.writes r = true → CommuteOnly l r) :
    applyAll (commutesOf r l.ops) (σ r).value = .ok (σ' r).value := by
  obtain ⟨x, y, hrun, hy, rfl⟩ := h
  cases hw : l.writes r with
  | true =>
    have hsets : ∀ op ∈ l.ops, op.sets r = false := by
      simpa [List.any_eq_false] using (hr hw).not_sets
    have hvalue := hy r
    rw [run_frame hrun hsets] at hvalue
    rw [Log.store, if_pos hw]
    exact hvalue
  | false =>
    have hnil : commutesOf r l.ops = [] := by
      simp only [Log.writes, Bool.or_eq_false_iff, Bool.not_eq_false', List.isEmpty_iff] at hw
      exact hw.2
    rw [hnil, Log.store, if_neg (by simp [hw])]
    rfl

/-- A ref that the committed transactions write only through `commute` has the value of all their
functions, in the order of the commits. -/
def Applied (σ : Store R V) (s : State T R V E) : Prop :=
  ∀ r, (∀ l ∈ s.committed, l.writes r = true → CommuteOnly l r) →
    applyAll (s.committed.flatMap fun l => commutesOf r l.ops) (σ r).value = .ok (s.store r).value

theorem serial_applied {σ σ' : Store R V} {ls : List (Log R V E)} (h : Serial Replays σ ls σ')
    {r : R} (hr : ∀ l ∈ ls, l.writes r = true → CommuteOnly l r) :
    applyAll (ls.flatMap fun l => commutesOf r l.ops) (σ r).value = .ok (σ' r).value := by
  induction ls generalizing σ with
  | nil =>
    obtain rfl : σ' = σ := h
    rfl
  | cons l ls ih =>
    obtain ⟨mid, hl, hls⟩ := h
    obtain ⟨hfirst, hrest⟩ := List.forall_mem_cons.mp hr
    rw [List.flatMap_cons, applyAll_append, replays_value hl hfirst]
    exact ih hls hrest

/-! ## §4 Claims -/

/-- No commute is in conflict, and none is lost or applied twice. -/
def CommutesFine (refs : R → Hooks V E) (σ : Store R V) (s : State T R V E) : Prop :=
  Fresh s ∧ Admitted refs s ∧ Applied σ s

/-- In a run whose commits meet no failing watch, commutes do not conflict exactly if no commit
writes a ref that another running transaction has commuted. -/
theorem commutes_fine_iff (refs : R → Hooks V E) {σ : Store R V}
    {run : List (Action T R V E × State T R V E)} (hrun : IsRun (Steps refs) { store := σ } run)
    (hquiet : EachStep (QuietCommit refs) { store := σ } run) :
    Always (CommutesFine refs σ) { store := σ } run ↔
    EachStep (SparesCommutes refs) { store := σ } run := by
  have htracked : State.Tracked ({ store := σ } : State T R V E) :=
    ⟨(fun _ _ ha => nomatch ha), (fun _ _ ha => nomatch ha)⟩
  have hfresh : Fresh ({ store := σ } : State T R V E) := fun _ _ _ ha => nomatch ha
  have happlied : Always (Applied σ) { store := σ } run :=
    ((run_replays_iff hrun).mpr hquiet).imp fun s hs r hr => serial_applied hs hr
  have hiff : Always Fresh { store := σ } run ↔
    EachStep (SparesCommutes refs) { store := σ } run := by
    refine always_iff_eachStep (I := State.Tracked) (D := QuietCommit refs) ?_ ?_ htracked hfresh
      hrun hquiet
    · exact fun s a s' hs _ _ _ h => step_tracked hs h
    · exact fun s a s' hs hfresh hq h => step_fresh_iff hs hfresh hq h
  rw [← hiff]
  exact ⟨fun h => h.imp fun s hs => hs.1,
    fun h => (h.and happlied).imp fun s hs => ⟨hs.1, hs.1.admitted refs, hs.2⟩⟩

/-! Two transactions that commute one ref, one after the other and interleaved. -/

def counting : Op Nat Nat Unit := .commute 0 fun v => .ok (v + 1)

def commutesInTurn : List (Action Bool Nat Nat Unit) :=
  [.start true, .op true counting, .commit true, .start false, .op false counting, .commit false]

theorem commutes_in_turn_fine :
    Always (CommutesFine bareRefs fun _ => ⟨0, 0⟩) { store := fun _ => ⟨0, 0⟩ }
      (trace bareRefs { store := fun _ => ⟨0, 0⟩ } commutesInTurn) := by
  refine (commutes_fine_iff bareRefs ?_ ?_).mpr ?_
  · exact ⟨rfl, rfl, rfl, rfl, rfl, rfl, trivial⟩
  · exact .of_forall (fun _ _ _ _ _ _ _ _ _ => rfl) _ _
  · refine ⟨?_, ?_, ?_, ?_, ?_, ?_, trivial⟩
      <;> rintro i a ⟨⟨⟩, ha⟩ writes hw (_ | _) b r hj hb hr <;>
      first
      | exact absurd hb.symm (Option.some_ne_none b)
      | exact absurd rfl hj

def commutesInterleaved : List (Action Bool Nat Nat Unit) :=
  [.start true, .start false, .op true counting, .op false counting, .commit true]

/-- The first to commit makes the other stale. -/
theorem commutes_conflict :
    ¬ Always (CommutesFine bareRefs fun _ => ⟨0, 0⟩) { store := fun _ => ⟨0, 0⟩ }
      (trace bareRefs { store := fun _ => ⟨0, 0⟩ } commutesInterleaved) := by
  rintro ⟨-, -, -, -, -, hfresh, -⟩
  refine hfresh false _ 0 rfl ⟨⟨counting, .head _, rfl⟩, fun op hop _ => ?_⟩ ⟨0,
    .inl rfl, by decide⟩
  obtain rfl := List.mem_singleton.mp hop
  rfl

end Fol.Stm

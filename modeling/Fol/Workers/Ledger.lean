/-
Fol.Workers.Ledger — what becomes of the work that is submitted to the thread pool.

A work item is with the call that submits it, then in a deque, then with the worker that took it.
-/
import Fol.Workers.Pool
import Fol.Lib.Ledgers
import Mathlib.Algebra.BigOperators.Fin
import Mathlib.Data.List.ReduceOption

namespace Fol.Workers

open Fol.Lib

variable {n : Nat} {W : Type}

/-! ## §1 Held -/

/-- What a call of `submit-work` has still to push. -/
def Submit.works : Submit n W → Multiset W
  | .picked _ work => {work}
  | .pushed => 0

/-- What a worker executes. -/
def Phase.work? : Phase n W → Option W
  | .executes work => some work
  | _ => none

namespace Deque

variable {d d' : Deque W}

def works (d : Deque W) : Multiset W := ↑d.toList.reduceOption

theorem works_pushTail (work : W) : (d.pushTail work).works = d.works + {work} := by
  simp [works, toList_pushTail, List.reduceOption_append, ← Multiset.coe_singleton]

theorem Took.works {item : Option W} (h : d.Took item d') : d.works = d'.works + ↑item.toList := by
  rcases h with hpop | hsteal
  · rw [Deque.works, toList_popTail d hpop, List.reduceOption_append,
      Deque.works, ← Multiset.coe_add]
    cases item <;> rfl
  · rw [Deque.works, toList_stealHead d hsteal, Deque.works, add_comm]
    cases item <;> rfl

end Deque

namespace Pool

variable {s s' : Pool n W}

/-- The work in the pool. -/
def held (s : Pool n W) : Multiset W :=
  (s.submits.map Submit.works).sum + (∑ k, (s.deques k).works + ∑ k, ↑(s.workers k).work?.toList)

/-- The work that a step brings into the pool. -/
def accepts (_ : Pool n W) : Act n W → Option W
  | .submit work => some work
  | _ => none

/-- The work that a step completes. -/
def completes (s : Pool n W) : Act n W → Option W
  | .work k _ => (s.workers k).work?
  | _ => none

theorem held_toWorker (k : Fin n) (phase : Phase n W) :
    (s.toWorker k phase).held + ↑(s.workers k).work?.toList = s.held + ↑phase.work?.toList := by
  have hsum :=
    sum_update (fun phase : Phase n W => (↑phase.work?.toList : Multiset W)) s.workers k phase
  simp only [held, toWorker, add_assoc, hsum]

/-- An item moves from a deque to a worker. -/
theorem held_got {k victim : Fin n} {item : Option W} {deque : Deque W} {other : Phase n W}
    (htook : (s.deques victim).Took item deque) (hbefore : (s.workers k).work? = none)
    (hother : other.work? = none) : (s.got k victim item deque other).held = s.held := by
  have hwork : (item.elim other .executes).work? = item := by
    cases item with
    | none => exact hother
    | some work => rfl
  have hsum := sum_update Deque.works s.deques victim deque
  have hworker := held_toWorker (s := { s with deques := Function.update s.deques victim deque }) k
    (item.elim other .executes)
  rw [htook.works, add_comm deque.works, ← add_assoc, add_right_cancel_iff] at hsum
  simp only [hbefore, hwork, Option.toList_none, Multiset.coe_nil, add_zero] at hworker
  refine hworker.trans ?_
  simp only [held, ← hsum, add_assoc, add_comm (item.toList : Multiset W)]

/-! ## §2 Steps -/

theorem held_further (start : Fin n) (i : Nat) : (further start i : Phase n W).work? = none := by
  unfold further
  split <;> rfl

theorem held_workerStep {k random : Fin n} (h : s.workerStep k random = some s') :
    s.held = s'.held + ↑(s.workers k).work?.toList := by
  have hgoes {phase : Phase n W} (hphase : phase.work? = none) :
      s.held = (s.toWorker k phase).held + ↑(s.workers k).work?.toList := by
    simp [held_toWorker, hphase]
  have hgets {victim : Fin n} {q : Option W × Deque W} {other : Phase n W}
      (htook : (s.deques victim).Took q.1 q.2) (hbefore : (s.workers k).work? = none)
      (hother : other.work? = none) :
      s.held = (s.got k victim q.1 q.2 other).held + ↑(s.workers k).work?.toList := by
    simp [held_got htook hbefore hother, hbefore]
  unfold workerStep at h
  cases hphase : s.workers k with
  | own =>
    simp only [hphase] at h hgoes hgets
    cases hpop : (s.deques k).popTail with
    | some q =>
      simp only [hpop, Option.some.injEq] at h
      exact h ▸ hgets (.inl hpop) rfl rfl
    | none =>
      simp only [hpop, Option.some.injEq] at h
      exact h ▸ hgoes rfl
  | steal start i =>
    simp only [hphase] at h hgoes hgets
    split at h
    · exact Option.some.inj h ▸ hgoes (held_further start i)
    · cases hsteal : (s.deques (victim start i)).stealHead with
      | some q =>
        simp only [hsteal, Option.some.injEq] at h
        exact h ▸ hgets (.inr hsteal) rfl rfl
      | none =>
        simp only [hsteal, Option.some.injEq] at h
        exact h ▸ hgoes (held_further start i)
  | executes work =>
    simp only [hphase, Option.some.injEq] at h hgoes
    exact h ▸ hgoes rfl
  | idle =>
    simp only [hphase, Option.some.injEq] at h hgoes
    exact h ▸ hgoes rfl
  | waits notified =>
    simp only [hphase, Option.some.injEq] at h hgoes
    exact h ▸ hgoes (by split <;> rfl)
  | returned => simp [hphase] at h

theorem submits_notifyIdle (w : Nat) : (s.notifyIdle w).submits = s.submits := by
  unfold notifyIdle
  split <;> rfl

theorem held_notifyIdle (w : Nat) : (s.notifyIdle w).held = s.held := by
  unfold notifyIdle
  split
  · next k hk =>
    have hwaits : s.workers k = .waits false := by
      have hin := List.mem_of_getElem? hk
      exact asleepP_iff.mp (by simpa [asleep] using hin)
    simpa [hwaits, Phase.work?] using held_toWorker (s := s) k (.waits true)
  · rfl

/-- One submission goes on, or returns. -/
theorem sum_eraseIdx {M : Type*} [AddCommMonoid M] (f : Submit n W → M)
    {submits : List (Submit n W)} {j : Nat} {submit : Submit n W} (h : submits[j]? = some submit) :
    (submits.map f).sum = f submit + ((submits.eraseIdx j).map f).sum := by
  obtain ⟨hlt, rfl⟩ := List.getElem?_eq_some_iff.mp h
  have hperm := (List.getElem_cons_eraseIdx_perm hlt).map f
  rw [← hperm.sum_eq, List.map_cons, List.sum_cons]

theorem sum_set {M : Type*} [AddCommMonoid M] (f : Submit n W → M) {submits : List (Submit n W)}
    {j : Nat} (hlt : j < submits.length) :
    ((submits.set j .pushed).map f).sum = f .pushed + ((submits.eraseIdx j).map f).sum := by
  have hperm := (List.set_perm_cons_eraseIdx hlt .pushed).map f
  rw [hperm.sum_eq, List.map_cons, List.sum_cons]

theorem step_accounts (act : Act n W) (h : s.step act = some s') :
    s.held + ↑(s.accepts act).toList = s'.held + ↑(s.completes act).toList := by
  cases act with
  | work k random => exact (add_zero _).trans (held_workerStep h)
  | submit work =>
    simp only [step, submitWork] at h
    split at h
    · cases h
      simp [held, accepts, completes, Submit.works, add_comm]
    · cases h
  | push j =>
    simp only [step, pushWork] at h
    split at h
    · next idx work hj =>
      cases h
      have hsum := sum_update Deque.works s.deques idx ((s.deques idx).pushTail work)
      rw [Deque.works_pushTail, add_comm (s.deques idx).works, ← add_assoc,
        add_right_cancel_iff] at hsum
      have hlt := (List.getElem?_eq_some_iff.mp hj).1
      simp only [held, accepts, completes, sum_eraseIdx Submit.works hj, sum_set Submit.works hlt,
        hsum, Submit.works]
      simp only [zero_add, add_assoc, add_left_comm, add_comm]
    · cases h
  | notify j w =>
    simp only [step, notifyWork] at h
    split at h
    · next hj =>
      cases h
      have hsame := held_notifyIdle (s := s) w
      simp only [held, submits_notifyIdle, sum_eraseIdx Submit.works hj, Submit.works,
        zero_add] at hsame
      simpa [held, accepts, completes, sum_eraseIdx Submit.works hj, Submit.works] using hsame.symm
    · cases h

/-! ## §3 Runs -/

abbrev Runs (run : List (Act n W × Pool n W)) : Prop :=
  IsRun (fun s act s' => Pool.step s act = some s') (initializeThreadPool n W) run

@[simp] theorem held_initializeThreadPool : (initializeThreadPool n W).held = 0 := by
  simp [held, initializeThreadPool, Deque.works, Phase.work?]

/-- Work that was accepted is in the pool or was completed, each once: none is lost and none is
executed twice. -/
theorem accepted_eq {run : List (Act n W × Pool n W)} (hrun : Runs run) :
    (↑(yields accepts (initializeThreadPool n W) run) : Multiset W) =
      (final (initializeThreadPool n W) run).held
      + ↑(yields completes (initializeThreadPool n W) run) := by
  have haccount := account_run (fun s act s' h => step_accounts act h) hrun
  rwa [held_initializeThreadPool, zero_add] at haccount

/-- Nobody submits, and every worker waits without a notification. -/
def Rests (s : Pool n W) : Prop := s.submits = [] ∧ ∀ k, s.workers k = .waits false

theorem Rests.held_eq (h : Rests s) (hawake : ¬ Asleep s) : s.held = 0 := by
  have hempty (idx : Fin n) : (s.deques idx).works = 0 := by
    have hnone : (s.deques idx).emptyP = true := by
      by_contra hwork
      exact hawake ⟨h.2, by simp [h.1], idx, by simpa using hwork⟩
    simp [Deque.works, (Deque.emptyP_iff _).mp hnone]
  simp [held, h.1, h.2, hempty, Phase.work?]

/-- While no work is pushed to a deque that a worker has just found empty, a pool at rest has
completed all that it accepted, each once. -/
theorem completed_of_rests {run : List (Act n W × Pool n W)} (hrun : Runs run)
    (houtside : EachStep Outside (initializeThreadPool n W) run)
    (hrests : Rests (final (initializeThreadPool n W) run)) :
    (yields completes (initializeThreadPool n W) run).Perm
    (yields accepts (initializeThreadPool n W) run) := by
  have hlooked : Always Looked (initializeThreadPool n W) run :=
    invariant_always (fun _ _ _ h hC hs => h.step hC hs) looked_initializeThreadPool hrun houtside
  have haccount := account_run (fun s act s' h => step_accounts act h) hrun
  rw [held_initializeThreadPool, hrests.held_eq hlooked.final.awake, zero_add, zero_add] at haccount
  exact (Multiset.coe_eq_coe.mp haccount).symm

/-- Two submissions to a pool of one worker, which is asleep at the second. -/
def restRun : List (Act 1 Nat × Pool 1 Nat) :=
  let work := .work (Fin.last _) (Fin.last _)
  trace Pool.step (initializeThreadPool 1 Nat) [.submit 10, .push 0, .notify 0 0, work, work, work,
    work, work, .submit 20, .push 0, .notify 0 0, work, work, work, work, work, work]

theorem runs_restRun : Runs restRun := trace_isRun _ _ _

theorem restRun_accepted :
    (↑[10, 20] : Multiset Nat) = (final (initializeThreadPool 1 Nat) restRun).held + ↑[10, 20] :=
  accepted_eq runs_restRun

theorem restRun_completed : (yields completes (initializeThreadPool 1 Nat) restRun).Perm [10, 20] :=
  completed_of_rests runs_restRun (by decide) ⟨by decide, by decide⟩

end Pool

end Fol.Workers

/-
Fol.Workers.Pool — the thread pool: `n` workers with a deque each, who steal from one another, and
calls of `submit-work`.

A worker looks at its own deque, then at the others, and if it has found nothing it takes the idle
lock and waits. `submit-work` pushes to a deque and then notifies the idle workers' condition
variable. Each section under a lock is one step.
-/
import Fol.Workers.Deque
import Fol.Lib.Runs

namespace Fol.Workers

open Fol.Lib

/-! ## §1 State -/

/-- Where a worker is in `%worker-thread-loop`. -/
inductive Phase (n : Nat) (W : Type) where
  /-- Before it looks at its own deque. -/
  | own
  /-- It has looked at the deques `start`, `start + 1`, … before the `i`-th. -/
  | steal (start : Fin n) (i : Nat)
  | executes (work : W)
  /-- It has found nothing and is about to take the idle lock. -/
  | idle
  | waits (notified : Bool)
  | returned
deriving DecidableEq

def Phase.asleepP {n : Nat} {W : Type} : Phase n W → Bool
  | .waits notified => !notified
  | _ => false

/-- A call of `submit-work`: it has picked a deque, or it has pushed its work and will notify. -/
inductive Submit (n : Nat) (W : Type) where
  | picked (idx : Fin n) (work : W)
  | pushed
deriving DecidableEq

structure Pool (n : Nat) (W : Type) where
  deques : Fin n → Deque W
  workers : Fin n → Phase n W
  submits : List (Submit n W) := []
  counter : Nat := 0
  shutdown : Bool := false

/-- `initialize-thread-pool`. -/
def initializeThreadPool (n : Nat) (W : Type) : Pool n W where
  deques _ := .make
  workers _ := .own

/-! ## §2 Steps -/

/-- A step of a worker with the random number it may draw, of a submission, or a new submission. `w`
says which of the waiting workers a notification reaches. -/
inductive Act (n : Nat) (W : Type) where
  | work (k : Fin n) (random : Fin n)
  | submit (work : W)
  | push (j : Nat)
  | notify (j : Nat) (w : Nat)
deriving DecidableEq

variable {n : Nat} {W : Type}

section

variable (s : Pool n W)

namespace Pool

def toWorker (k : Fin n) (phase : Phase n W) : Pool n W :=
  { s with workers := Function.update s.workers k phase }

/-- What a worker does with what it got from a deque. -/
def got (k : Fin n) (victim : Fin n) (item : Option W) (deque : Deque W) (other : Phase n W) :
    Pool n W :=
  { s with
    deques := Function.update s.deques victim deque
    workers := Function.update s.workers k (item.elim other .executes) }

/-- The `i`-th deque of the rotation that starts here. -/
def victim (start : Fin n) (i : Nat) : Fin n :=
  ⟨(start + i) % n, Nat.mod_lt _ (Nat.zero_lt_of_lt start.isLt)⟩

/-- After the `i`-th deque: the next one, or none is left. -/
def further (start : Fin n) (i : Nat) : Phase n W :=
  if i + 1 < n then .steal start (i + 1) else .idle

/-- A step of `%worker-thread-loop`. -/
def workerStep (k random : Fin n) : Option (Pool n W) :=
  match s.workers k with
  | .own =>
    match (s.deques k).popTail with
    | some (item, deque) => some (s.got k k item deque (.steal random 0))
    | none => some (s.toWorker k (.steal random 0))
  | .steal start i =>
    if victim start i = k then some (s.toWorker k (further start i))
    else
      match (s.deques (victim start i)).stealHead with
      | some (item, deque) => some (s.got k (victim start i) item deque .idle)
      | none => some (s.toWorker k (further start i))
  | .executes _ => some (s.toWorker k .own)
  | .idle => some (s.toWorker k (.waits false))
  | .waits _ => some (s.toWorker k (if s.shutdown then .returned else .own))
  | .returned => none

/-- The workers that wait and have no notification. -/
def asleep : List (Fin n) := (List.finRange n).filter fun k => (s.workers k).asleepP

/-- `condition-notify` on the idle workers' condition variable. -/
def notifyIdle (w : Nat) : Pool n W :=
  match s.asleep[w % s.asleep.length]? with
  | some k => s.toWorker k (.waits true)
  | none => s

/-- `submit-work` picks a deque. -/
def submitWork (work : W) : Option (Pool n W) :=
  if hn : 0 < n then
    some { s with
      submits := s.submits ++ [.picked ⟨s.counter % n, Nat.mod_lt _ hn⟩ work]
      counter := s.counter + 1 }
  else none

/-- `submit-work` pushes its work. -/
def pushWork (j : Nat) : Option (Pool n W) :=
  match s.submits[j]? with
  | some (.picked idx work) => some { s with
      deques := Function.update s.deques idx ((s.deques idx).pushTail work)
      submits := s.submits.set j .pushed }
  | _ => none

/-- `submit-work` notifies, and returns. -/
def notifyWork (j w : Nat) : Option (Pool n W) :=
  match s.submits[j]? with
  | some .pushed => some { s.notifyIdle w with submits := s.submits.eraseIdx j }
  | _ => none

def step : Act n W → Option (Pool n W)
  | .work k random => s.workerStep k random
  | .submit work => s.submitWork work
  | .push j => s.pushWork j
  | .notify j w => s.notifyWork j w

end Pool

end

/-! ## §3 Asleep -/

/-- Every worker waits and none has a notification, or will get one, while there is work. -/
structure Asleep (s : Pool n W) : Prop where
  waiting : ∀ k, s.workers k = .waits false
  unnotified : ∀ submit ∈ s.submits, submit ≠ .pushed
  work : ∃ idx, (s.deques idx).emptyP = false

/-- The deques that worker `k` has found empty since it began to look. -/
def Phase.Found (k : Fin n) : Phase n W → Fin n → Prop
  | .steal start i, idx => idx = k ∨ ∃ j < i, Pool.victim start j = idx
  | .idle, _ => True
  | _, _ => False

abbrev Found (s : Pool n W) (k idx : Fin n) : Prop := (s.workers k).Found k idx

instance (k : Fin n) : (phase : Phase n W) → (idx : Fin n) → Decidable (phase.Found k idx)
  | .steal start i, idx =>
      inferInstanceAs (Decidable (idx = k ∨ ∃ j < i, Pool.victim start j = idx))
  | .idle, _ => .isTrue trivial
  | .own, _ => .isFalse id
  | .executes _, _ => .isFalse id
  | .waits _, _ => .isFalse id
  | .returned, _ => .isFalse id

/-- The deque to which this submission will push. -/
def Submit.target? : Submit n W → Option (Fin n)
  | .picked idx _ => some idx
  | .pushed => none

/-- No work is pushed to a deque that a worker has found empty while this worker has not found other
work or begun to wait. -/
def Outside (s : Pool n W) : Act n W → Prop
  | .push j => ∀ idx ∈ s.submits[j]?.bind Submit.target?, ∀ k, ¬ Found s k idx
  | _ => True

instance (s : Pool n W) : (act : Act n W) → Decidable (Outside s act)
  | .push j =>
      inferInstanceAs (Decidable (∀ idx ∈ s.submits[j]?.bind Submit.target?, ∀ k, ¬ Found s k idx))
  | .work _ _ => .isTrue trivial
  | .submit _ => .isTrue trivial
  | .notify _ _ => .isTrue trivial

/-! ## §4 Looked -/

namespace Deque

variable {d d' : Deque W} {x : Option W}

theorem popTail_none (h : d.popTail = none) : d.emptyP = true := by
  unfold popTail at h
  split at h
  · assumption
  · cases h

theorem stealHead_none (h : d.stealHead = none) : d.emptyP = true := by
  unfold stealHead at h
  split at h
  · assumption
  · cases h

/-- An element was taken from an end of the deque. -/
def Took (d : Deque W) (x : Option W) (d' : Deque W) : Prop :=
  d.popTail = some (x, d') ∨ d.stealHead = some (x, d')

theorem Took.mem (h : d.Took x d') : x ∈ d.toList ∧ ∀ y ∈ d'.toList, y ∈ d.toList := by
  rcases h with hpop | hsteal
  · rw [toList_popTail d hpop]
    exact ⟨by simp, fun y hy => List.mem_append_left _ hy⟩
  · rw [toList_stealHead d hsteal]
    exact ⟨by simp, fun y hy => List.mem_cons_of_mem _ hy⟩

theorem Took.not_empty (h : d.Took x d') : d.emptyP ≠ true := by
  rw [Ne, emptyP_iff]
  exact List.ne_nil_of_mem h.mem.1

end Deque

section

variable {s s' : Pool n W} {k random : Fin n}

/-- What a step of a worker can do: it takes work; it finds a deque empty; it begins to wait; or it
begins anew, or returns. -/
inductive Works (s : Pool n W) (k : Fin n) : Pool n W → Prop where
  | took {victim item deque other} : (s.deques victim).Took item deque →
    Works s k (s.got k victim item deque other)
  | looked {start} : s.workers k = .own → (s.deques k).emptyP = true →
      Works s k (s.toWorker k (.steal start 0))
  | passed {start i} : s.workers k = .steal start i →
    (Pool.victim start i = k ∨ (s.deques (Pool.victim start i)).emptyP = true) →
    Works s k (s.toWorker k (Pool.further start i))
  | waits : s.workers k = .idle → Works s k (s.toWorker k (.waits false))
  | begins : Works s k (s.toWorker k .own)
  | returns : Works s k (s.toWorker k .returned)

theorem works_of_step (h : s.workerStep k random = some s') : Works s k s' := by
  unfold Pool.workerStep at h
  cases hphase : s.workers k with
  | own =>
    simp only [hphase] at h
    cases hpop : (s.deques k).popTail with
    | some q =>
      obtain ⟨item, deque⟩ := q
      simp only [hpop, Option.some.injEq] at h
      exact h ▸ .took (.inl hpop)
    | none =>
      simp only [hpop, Option.some.injEq] at h
      exact h ▸ .looked hphase (Deque.popTail_none hpop)
  | steal start i =>
    simp only [hphase] at h
    split at h
    · next hself =>
      cases h
      exact .passed hphase (.inl hself)
    · cases hsteal : (s.deques (Pool.victim start i)).stealHead with
      | some q =>
        obtain ⟨item, deque⟩ := q
        simp only [hsteal, Option.some.injEq] at h
        exact h ▸ .took (.inr hsteal)
      | none =>
        simp only [hsteal, Option.some.injEq] at h
        exact h ▸ .passed hphase (.inr (Deque.stealHead_none hsteal))
  | executes work =>
    simp only [hphase, Option.some.injEq] at h
    exact h ▸ .begins
  | idle =>
    simp only [hphase, Option.some.injEq] at h
    exact h ▸ .waits hphase
  | waits notified =>
    simp only [hphase, Option.some.injEq] at h
    split at h
    · exact h ▸ .returns
    · exact h ▸ .begins
  | returned => simp [hphase] at h

@[simp] theorem toWorker_self (phase : Phase n W) : (s.toWorker k phase).workers k = phase := by
  simp [Pool.toWorker]

@[simp] theorem toWorker_of_ne (phase : Phase n W) {k' : Fin n} (hne : k' ≠ k) :
    (s.toWorker k phase).workers k' = s.workers k' := by
  simp [Pool.toWorker, Function.update_of_ne hne]

/-- Deques hold work items; those that a worker has found empty are empty; not all are asleep. -/
structure Looked (s : Pool n W) : Prop where
  filled : ∀ idx, none ∉ (s.deques idx).toList
  empty : ∀ k idx, Found s k idx → (s.deques idx).emptyP = true
  awake : ¬ Asleep s

/-- Another worker has found the same. -/
theorem found_congr {s' : Pool n W} {k idx : Fin n} (h : s'.workers k = s.workers k) :
    Found s' k idx ↔ Found s k idx := by
  rw [Found, Found, h]

/-- Once round, every deque has been looked at. -/
theorem victim_reaches (start idx : Fin n) : ∃ j < n, Pool.victim start j = idx := by
  have hstart := start.isLt
  have hidx := idx.isLt
  refine ⟨(idx + n - start) % n, Nat.mod_lt _ (by omega), Fin.ext ?_⟩
  show (start + (idx + n - start) % n) % n = idx
  rw [Nat.add_mod_mod, show (start : Nat) + (idx + n - start) = idx + n by omega, Nat.add_mod_right,
    Nat.mod_eq_of_lt hidx]

/-- A worker that is not asleep goes on: the deques stay. -/
theorem Looked.toWorker (h : Looked s) {phase : Phase n W}
    (hempty : ∀ idx, Found (s.toWorker k phase) k idx → (s.deques idx).emptyP = true)
    (hawake : phase = .waits false → ∀ idx, (s.deques idx).emptyP = true) :
    Looked (s.toWorker k phase) := by
  refine ⟨h.filled, fun k' idx hfound => ?_, fun hasleep => ?_⟩
  · by_cases hk : k' = k
    · subst hk
      exact hempty idx hfound
    · exact h.empty k' idx ((found_congr (toWorker_of_ne phase hk)).mp hfound)
  · obtain ⟨idx, hwork⟩ := hasleep.work
    have hphase : phase = .waits false := by simpa using hasleep.waiting k
    have hwork' : (s.deques idx).emptyP = false := hwork
    exact absurd (hwork'.symm.trans (hawake hphase idx)) (by simp)

theorem Looked.works (h : Looked s) (hs : Works s k s') : Looked s' := by
  cases hs with
  | @took victim item deque other htook =>
    obtain ⟨work, rfl⟩ : ∃ work, item = some work := by
      cases item with
      | none => exact absurd htook.mem.1 (h.filled victim)
      | some work => exact ⟨work, rfl⟩
    -- nobody has found this deque empty
    have hnot (k' : Fin n) : ¬ Found s k' victim :=
      fun hfound => htook.not_empty (h.empty k' victim hfound)
    refine ⟨fun idx => ?_, fun k' idx hfound => ?_, fun hasleep => ?_⟩
    · by_cases hidx : idx = victim
      · subst hidx
        simpa [Pool.got] using fun hin => h.filled idx (htook.mem.2 none hin)
      · simpa [Pool.got, Function.update_of_ne hidx] using h.filled idx
    · by_cases hk : k' = k
      · subst hk
        simp [Phase.Found, Pool.got] at hfound
      · have hfound' : Found s k' idx :=
          (found_congr (by simp [Pool.got, Function.update_of_ne hk])).mp hfound
        have hidx : idx ≠ victim := fun heq => hnot k' (heq ▸ hfound')
        simpa [Pool.got, Function.update_of_ne hidx] using h.empty k' idx hfound'
    · simpa [Pool.got] using hasleep.waiting k
  | looked hown hempty =>
    refine h.toWorker (fun idx hfound => ?_) fun hphase => by cases hphase
    obtain rfl : idx = k := by simpa [Found, Phase.Found] using hfound
    exact hempty
  | @passed start i hsteal hvictim =>
    have hnext (idx : Fin n) (hidx : idx = k ∨ ∃ j < i + 1, Pool.victim start j = idx) :
        (s.deques idx).emptyP = true := by
      have hbefore (hfound : idx = k ∨ ∃ j < i, Pool.victim start j = idx) :
        (s.deques idx).emptyP = true :=
        h.empty k idx (by simpa [Found, Phase.Found, hsteal] using hfound)
      rcases hidx with hself | ⟨j, hj, rfl⟩
      · exact hbefore (.inl hself)
      · rcases Nat.lt_succ_iff_lt_or_eq.mp hj with hlt | rfl
        · exact hbefore (.inr ⟨j, hlt, rfl⟩)
        · exact hvictim.elim (fun hself => hbefore (.inl hself)) id
    refine h.toWorker (fun idx hfound => hnext idx ?_) fun hphase => ?_
    · rw [Found, toWorker_self, Pool.further] at hfound
      split at hfound
      · exact hfound
      · next hdone =>
        obtain ⟨j, hj, hreach⟩ := victim_reaches start idx
        exact .inr ⟨j, by omega, hreach⟩
    · rw [Pool.further] at hphase
      split at hphase <;> cases hphase
  | waits hidle =>
    refine h.toWorker (fun idx hfound => ?_) fun _ idx =>
      h.empty k idx (by simp [Found, Phase.Found, hidle])
    simp [Phase.Found] at hfound
  | begins =>
    refine h.toWorker (fun idx hfound => ?_) fun hphase => by cases hphase
    simp [Phase.Found] at hfound
  | returns =>
    refine h.toWorker (fun idx hfound => ?_) fun hphase => by cases hphase
    simp [Phase.Found] at hfound

theorem asleepP_iff {phase : Phase n W} : phase.asleepP = true ↔ phase = .waits false := by
  cases phase <;> simp [Phase.asleepP]

/-- A submission picks a deque. -/
theorem Looked.submits (h : Looked s) {work : W} (hs : s.submitWork work = some s') :
    Looked s' := by
  unfold Pool.submitWork at hs
  split at hs
  · cases hs
    refine ⟨h.filled, h.empty,
      fun hasleep => h.awake ⟨hasleep.waiting, fun submit hin => ?_, hasleep.work⟩⟩
    exact hasleep.unnotified submit (List.mem_append_left _ hin)
  · cases hs

/-- A submission pushes its work, outside the window: it will notify. -/
theorem Looked.pushes (h : Looked s) {j : Nat} (houtside : Outside s (.push j))
    (hs : s.pushWork j = some s') :
    Looked s' := by
  unfold Pool.pushWork at hs
  split at hs
  · next victim work hj =>
    cases hs
    refine ⟨fun idx => ?_, fun k' idx hfound => ?_, fun hasleep => ?_⟩
    · by_cases hidx : idx = victim
      · subst hidx
        simpa [Deque.toList_pushTail] using h.filled idx
      · simpa [Function.update_of_ne hidx] using h.filled idx
    · have hfound' : Found s k' idx := hfound
      have hidx : idx ≠ victim :=
      fun heq => houtside victim (by simp [hj, Submit.target?]) k' (heq ▸ hfound')
      simpa [Function.update_of_ne hidx] using h.empty k' idx hfound'
    · have hlt : j < s.submits.length := (List.getElem?_eq_some_iff.mp hj).1
      exact hasleep.unnotified .pushed (List.mem_set hlt _) rfl
  · cases hs

/-- A submission notifies: if all wait, one of them has the notification. -/
theorem Looked.notifies (h : Looked s) {j w : Nat} (hs : s.notifyWork j w = some s') :
    Looked s' := by
  unfold Pool.notifyWork at hs
  split at hs
  · cases hs
    unfold Pool.notifyIdle
    split
    · next k hk =>
      have hwaits : s.workers k = .waits false := by
        have hin := List.mem_of_getElem? hk
        exact asleepP_iff.mp (by simpa [Pool.asleep] using hin)
      refine ⟨h.filled, fun k' idx hfound => ?_, fun hasleep => ?_⟩
      · by_cases hk' : k' = k
        · subst hk'
          simp [Phase.Found, Pool.toWorker] at hfound
        · exact h.empty k' idx
            ((found_congr (by simp [Pool.toWorker, Function.update_of_ne hk'])).mp hfound)
      · simpa [Pool.toWorker] using hasleep.waiting k
    · next hnone =>
      refine ⟨h.filled, h.empty, fun hasleep => ?_⟩
      -- all wait, so there is one to notify
      obtain ⟨idx, -⟩ := hasleep.work
      have hin : idx ∈ s.asleep := by
        have hwaits : s.workers idx = .waits false := hasleep.waiting idx
        simp [Pool.asleep, hwaits, Phase.asleepP]
      have hlt := Nat.mod_lt w (List.length_pos_of_mem hin)
      rw [List.getElem?_eq_getElem hlt] at hnone
      cases hnone
  · cases hs

/-! ## §5 Runs -/

theorem Looked.step (h : Looked s) {act : Act n W} (houtside : Outside s act)
    (hs : s.step act = some s') :
    Looked s' := by
  cases act with
  | work k random => exact h.works (works_of_step hs)
  | submit work => exact h.submits hs
  | push j => exact h.pushes houtside hs
  | notify j w => exact h.notifies hs

theorem looked_initializeThreadPool : Looked (initializeThreadPool n W) := by
  refine ⟨fun idx => by simp [initializeThreadPool], fun k idx hfound => ?_, fun hasleep => ?_⟩
  · simp [Phase.Found, initializeThreadPool] at hfound
  · obtain ⟨idx, hwork⟩ := hasleep.work
    cases hwork

/-- While no work is pushed to a deque that a worker has just found empty, the pool does not sleep
on queued work. -/
theorem awake_of_outside {run : List (Act n W × Pool n W)}
    (hrun : IsRun (fun s act s' => Pool.step s act = some s') (initializeThreadPool n W) run)
    (houtside : EachStep Outside (initializeThreadPool n W) run) :
    Always (fun s => ¬ Asleep s) (initializeThreadPool n W) run :=
  (invariant_always (fun _ _ _ h hC hs => h.step hC hs) looked_initializeThreadPool hrun
    houtside).imp
    fun _ h => h.awake

end

/-- A step of the only worker. -/
def workOnly : Act 1 Nat := .work (Fin.last _) (Fin.last _)

/-- Two submissions to a pool of one worker: the first before it looks, the second while it
waits. -/
def outsideRun : List (Act 1 Nat) :=
  [.submit 10, .push 0, .notify 0 0, workOnly, workOnly, workOnly, workOnly, workOnly,
    .submit 20, .push 0, .notify 0 0, workOnly, workOnly]

theorem outsideRun_awake : Always (fun s => ¬ Asleep s) (initializeThreadPool 1 Nat)
    (trace Pool.step (initializeThreadPool 1 Nat) outsideRun) :=
  awake_of_outside (trace_isRun _ _ _) (by decide)

/-- The worker has found nothing; work is pushed and its notification reaches nobody; the worker
waits. -/
def lostRun : List (Act 1 Nat) :=
  [workOnly, workOnly, .submit 10, .push 0, .notify 0 0, workOnly]

theorem lostRun_asleep : ¬ ∀ run : List (Act 1 Nat × Pool 1 Nat),
    IsRun (fun s act s' => Pool.step s act = some s') (initializeThreadPool 1 Nat) run →
    Always (fun s => ¬ Asleep s) (initializeThreadPool 1 Nat) run := by
  intro h
  have hrun := h (trace Pool.step (initializeThreadPool 1 Nat) lostRun) (trace_isRun _ _ _)
  have hlast := hrun.2.2.2.2.2.2
  exact hlast ⟨by decide, by decide, Fin.last _, by decide⟩

end Fol.Workers

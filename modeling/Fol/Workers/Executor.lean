/-
Fol.Workers.Executor — threads that submit work to the thread pool, and wait for it.

The pool is that of Fol.Workers.Pool: its workers look, steal, wait and are notified as there, and a
call of `submit-work` goes through its three sections as there. What a worker executes may itself
call `submit-work` and `wait-for-work`, as may one more thread, the caller. `wait-for-work` goes on
when the box of its work is filled: it looks under the lock under which `%execute-work` fills the
box.

  §1 State    — `Executor`, `step`, `Delivers`.
  §2 Alert    — `Covered`: where a worker sleeps, no queued work is without somebody to look for it.
  §3 Workers  — what a worker that executes nothing can do.
  §4 Tasks    — `Refines`: the tasks go on as those of `Lib.ForkJoin.Pool`.
  §5 Delivery — `delivers_of_lt`.
  §6 Stalls   — `Quiet`: every run of `Lib.ForkJoin.Pool` is one of the executor.
  §7 Main     — `delivers_iff`.
-/
import Fol.Lib.ForkJoin
import Fol.Workers.Ledger

namespace Fol.Workers

open Fol.Lib
open Fol.Lib.ForkJoin (Work)

/-! ## §1 State -/

/-- `calls` are the threads that make the calls of `submit-work`, with the boxes of their work, in
the order of `pool.submits`. The thread `none` is the caller. -/
structure Executor (n : Nat) (R : Type) where
  pool : Pool n (Nat × Work R)
  boxes : List (Option R)
  caller : Option (Nat × Work R)
  calls : List (Option (Fin n) × Nat) := []

namespace Executor

/-- A worker that executes nothing goes on, with the random number it may draw; or a thread goes on
with what it executes. `w` says whom a notification reaches. -/
inductive Act (n : Nat) where
  | look (k random : Fin n)
  | go (x : Option (Fin n)) (w : Nat)

variable {n : Nat} {R : Type}

/-- The caller begins, with workers that have not looked yet. -/
def start (n : Nat) (main : Work R) (turn : Nat) : Executor n R where
  pool := { initializeThreadPool n (Nat × Work R) with counter := turn }
  boxes := [none]
  caller := some (0, main)

section

variable (s : Executor n R)

def result : Option R := (s.boxes[0]?).join

/-- What the thread executes, with the box for its result. -/
def task : Option (Fin n) → Option (Nat × Work R)
  | none => s.caller
  | some k => (s.pool.workers k).work?

def goOn (x : Option (Fin n)) (t : Nat × Work R) : Executor n R :=
  match x with
  | none => { s with caller := some t }
  | some k => { s with pool := s.pool.toWorker k (.executes t) }

/-- `%execute-work` fills the box, and the worker looks for other work. -/
def finish (x : Option (Fin n)) (i : Nat) (r : R) : Executor n R :=
  match x with
  | none => { s with boxes := s.boxes.set i (some r), caller := none }
  | some k => { s with boxes := s.boxes.set i (some r), pool := s.pool.toWorker k .own }

/-- The number of the thread's call of `submit-work`, if it is in one. -/
def call? (x : Option (Fin n)) : Option Nat := s.calls.findIdx? (·.1 = x)

/-- A section of `submit-work` under a lock; the last one gives the handle. -/
def submitWork (x : Option (Fin n)) (w i : Nat) (child : Work R) (rest : Nat → Work R) :
    Option (Executor n R) :=
  match s.call? x with
  | none =>
    (s.pool.submitWork (s.boxes.length, child)).map fun pool =>
      { s with pool, boxes := s.boxes ++ [none], calls := s.calls ++ [(x, s.boxes.length)] }
  | some j =>
    match s.pool.submits[j]?, s.calls[j]? with
    | some (.picked _ _), _ => (s.pool.pushWork j).map fun pool => { s with pool }
    | some .pushed, some (_, handle) =>
      (s.pool.notifyWork j w).map fun pool =>
        { s with pool, calls := s.calls.eraseIdx j }.goOn x (i, rest handle)
    | _, _ => none

def step : Act n → Option (Executor n R)
  | .look k random =>
    match s.pool.workers k with
    | .executes _ => none
    | _ => (s.pool.workerStep k random).map fun pool => { s with pool }
  | .go x w =>
    match s.task x with
    | none => none
    | some (i, .done r) => some (s.finish x i r)
    | some (i, .submit child rest) => s.submitWork x w i child rest
    | some (i, .wait handle rest) => ((s.boxes[handle]?).join).map fun r => s.goOn x (i, rest r)

/-- The deque to which the step pushes work. -/
def target? : Act n → Option (Fin n)
  | .look _ _ => none
  | .go x _ => (s.call? x).bind fun j => s.pool.submits[j]?.bind Submit.target?

/-- No work is pushed to a deque that a worker has found empty while this worker has not found other
work or begun to wait. -/
def Outside (act : Act n) : Prop := ∀ idx ∈ s.target? act, ∀ k, ¬ Found s.pool k idx

theorem outside_look (k random : Fin n) : s.Outside (.look k random) :=
  fun idx hidx => absurd hidx (Option.not_mem_none idx)

/-- A worker that waits goes on without a notification. -/
def Spurious : Act n → Prop
  | .look k _ => s.pool.workers k = .waits false
  | .go _ _ => False

end

abbrev Runs (s : Executor n R) (run : List (Act n × Executor n R)) : Prop :=
  IsRun (fun s act s' => s.step act = some s') s run

/-- The step loses no notification, and is not made by a worker that was woken for nothing. -/
def Regular (s : Executor n R) (act : Act n) : Prop := s.Outside act ∧ ¬ s.Spurious act

/-- The caller gets this result: whatever it gets is this, until it has it some thread can go on,
and what the threads can do comes to an end. -/
structure Delivered (s : Executor n R) (r : R) : Prop where
  only : ∀ r', s.result = some r' → r' = r
  goes : s.result = none → ∃ act s', s.step act = some s' ∧ s.Regular act
  ends : ∃ bound, ∀ run, Runs s run → EachStep Regular s run → run.length ≤ bound

/-- In every order of the steps in which no notification is lost, the caller gets this result. -/
def Delivers (s : Executor n R) (r : R) : Prop :=
  ∀ run, Runs s run → EachStep Outside s run → (final s run).Delivered r

/-- In some order of the steps the caller gets the result. -/
theorem Delivers.exists_result {s : Executor n R} {r : R} (h : s.Delivers r) :
    ∃ run, Runs s run ∧ EachStep Outside s run ∧ (final s run).result = some r := by
  by_contra hnone
  obtain ⟨bound, hbound⟩ := (h [] trivial trivial).ends
  -- without a result a run goes on
  have hlong (m : Nat) : ∃ run, Runs s run ∧ EachStep Regular s run ∧ run.length = m := by
    induction m with
    | zero => exact ⟨[], trivial, trivial, rfl⟩
    | succ m ih =>
      obtain ⟨run, hrun, hregular, rfl⟩ := ih
      have houtside := hregular.imp fun _ _ h => h.1
      have hdelivered := h run hrun houtside
      have hopen : (final s run).result = none := by
        by_contra hresult
        obtain ⟨r', hr'⟩ := Option.ne_none_iff_exists'.mp hresult
        exact hnone ⟨run, hrun, houtside, hdelivered.only r' hr' ▸ hr'⟩
      obtain ⟨act, s', hs, hact⟩ := hdelivered.goes hopen
      exact ⟨run ++ [(act, s')], isRun_append.mpr ⟨hrun, hs, trivial⟩,
        eachStep_append.mpr ⟨hregular, hact, trivial⟩, by simp⟩
  obtain ⟨run, hrun, hregular, hlength⟩ := hlong (bound + 1)
  have hle := hbound run hrun hregular
  omega

theorem Delivers.unique {s : Executor n R} {r r' : R} (h : s.Delivers r) (h' : s.Delivers r') :
    r = r' := by
  obtain ⟨run, hrun, houtside, hresult⟩ := h.exists_result
  exact (h' run hrun houtside).only r hresult

end Executor

/-! ## §2 Alert -/

section

variable {n : Nat} {W : Type}

@[simp] theorem Phase.work?_executes (work : W) :
    (Phase.executes work : Phase n W).work? = some work := rfl

@[simp] theorem Phase.work?_own : (Phase.own : Phase n W).work? = none := rfl

theorem Phase.work?_eq_some {phase : Phase n W} {work : W} :
    phase.work? = some work ↔ phase = .executes work := by
  cases phase <;> simp [Phase.work?]

theorem Phase.work?_eq_none {phase : Phase n W} (h : ∀ work, phase ≠ .executes work) :
    phase.work? = none := by
  cases phase with
  | executes work => exact absurd rfl (h work)
  | _ => rfl

/-- 1 for a worker that looks for work, or will when it has woken. -/
def Phase.looks : Phase n W → Nat
  | .executes _ => 0
  | .waits notified => if notified then 1 else 0
  | .returned => 0
  | _ => 1

/-- How many steps a worker makes until it waits, or executes something. -/
def Phase.rank : Phase n W → Nat
  | .own => n + 3
  | .steal _ i => n - i + 2
  | .idle => 1
  | .waits notified => if notified then n + 4 else 0
  | _ => 0

/-- 1 for a call of `submit-work` that will notify a worker. -/
def Submit.notifies : Submit n W → Nat
  | .picked _ _ => 0
  | .pushed => 1

def Submit.rank : Submit n W → Nat
  | .picked _ _ => n + 6
  | .pushed => n + 5

namespace Pool

variable (s : Pool n W)

def weigh (f : Submit n W → Nat) (g : Phase n W → Nat) : Nat :=
  (s.submits.map f).sum + ∑ k, g (s.workers k)

/-- Who will look for work. -/
def alert : Nat := s.weigh Submit.notifies Phase.looks

/-- A bound on the steps of the calls in progress and of the workers until they wait. -/
def rank : Nat := s.weigh Submit.rank Phase.rank

def queued : Nat := ∑ idx, (s.deques idx).count

/-- While a worker sleeps, no queued work is without somebody who will look for it. -/
def Covered : Prop := ∀ k, s.workers k = .waits false → s.queued ≤ s.alert

variable {s} {s' : Pool n W} (f : Submit n W → Nat) (g : Phase n W → Nat)

theorem weigh_toWorker (k : Fin n) (phase : Phase n W) :
    (s.toWorker k phase).weigh f g + g (s.workers k) = s.weigh f g + g phase := by
  have hsum := sum_update g s.workers k phase
  simp only [weigh, toWorker] at hsum ⊢
  omega

theorem weigh_got (k victim : Fin n) (work : W) (deque : Deque W) (other : Phase n W) :
    (s.got k victim (some work) deque other).weigh f g + g (s.workers k) =
    s.weigh f g + g (.executes work) :=
  weigh_toWorker f g k (.executes work)

theorem weigh_submitWork {work : W} (h : s.submitWork work = some s')
    (hf : ∀ idx, f (.picked idx work) = m) :
    s'.weigh f g = s.weigh f g + m := by
  unfold submitWork at h
  split at h
  · cases h
    simp only [weigh, List.map_append, List.sum_append, List.map_singleton, List.sum_singleton, hf]
    omega
  · cases h

theorem weigh_pushWork {j : Nat} {idx : Fin n} {work : W}
    (hj : s.submits[j]? = some (.picked idx work)) (h : s.pushWork j = some s') :
    s'.weigh f g + f (.picked idx work) = s.weigh f g + f .pushed := by
  simp only [pushWork, hj, Option.some.injEq] at h
  cases h
  have hlt := (List.getElem?_eq_some_iff.mp hj).1
  simp only [weigh, sum_eraseIdx f hj, sum_set f hlt]
  omega

/-- A notification reaches a worker that sleeps, if there is one. -/
theorem notifyIdle_cases (w : Nat) :
    (∃ k, s.workers k = .waits false ∧ s.notifyIdle w = s.toWorker k (.waits true)) ∨
      (∀ k, s.workers k ≠ .waits false) ∧ s.notifyIdle w = s := by
  unfold notifyIdle
  split
  · next k hk =>
    refine .inl ⟨k, ?_, rfl⟩
    exact asleepP_iff.mp (by simpa [asleep] using List.mem_of_getElem? hk)
  · next hnone =>
    refine .inr ⟨fun k hk => ?_, rfl⟩
    have hin : k ∈ s.asleep := by simp [asleep, hk, Phase.asleepP]
    have hlt := Nat.mod_lt w (List.length_pos_of_mem hin)
    rw [List.getElem?_eq_getElem hlt] at hnone
    cases hnone

/-- What `submit-work` leaves when it notifies. -/
structure Notified (s : Pool n W) (j : Nat) (s' : Pool n W) : Prop where
  pushed : s.submits[j]? = some .pushed
  deques : s'.deques = s.deques
  submits : s'.submits = s.submits.eraseIdx j
  shutdown : s'.shutdown = s.shutdown
  work : ∀ k, (s'.workers k).work? = (s.workers k).work?
  returned : ∀ k, s'.workers k = .returned → s.workers k = .returned

theorem notifyWork_spec {j w : Nat} (h : s.notifyWork j w = some s') : Notified s j s' := by
  unfold notifyWork at h
  split at h
  · next hj =>
    cases h
    rcases notifyIdle_cases (s := s) w with ⟨k, hk, heq⟩ | ⟨-, heq⟩
    · rw [heq]
      refine ⟨hj, rfl, rfl, rfl, fun k' => ?_, fun k' hk' => ?_⟩
      · by_cases hself : k' = k
        · simp [hself, hk, Phase.work?]
        · simp [hself]
      · by_cases hself : k' = k
        · simp [hself] at hk'
        · simpa [hself] using hk'
    · rw [heq]
      exact ⟨hj, rfl, rfl, rfl, fun _ => rfl, fun _ hk => hk⟩
  · cases h

theorem weigh_notifyWork {j w : Nat} (h : s.notifyWork j w = some s') :
    (∃ k, s.workers k = .waits false ∧
        s'.weigh f g + f .pushed + g (.waits false) = s.weigh f g + g (.waits true) ∧
        s'.workers = (s.toWorker k (.waits true)).workers) ∨
      (∀ k, s.workers k ≠ .waits false) ∧ s'.weigh f g + f .pushed = s.weigh f g ∧
      s'.workers = s.workers := by
  unfold notifyWork at h
  split at h
  · next hj =>
    cases h
    have hsum := sum_eraseIdx f hj
    rcases notifyIdle_cases (s := s) w with ⟨k, hk, heq⟩ | ⟨hnone, heq⟩
    · refine .inl ⟨k, hk, ?_, by rw [heq]⟩
      have hworker := weigh_toWorker (s := s) f g k (.waits true)
      simp only [weigh, heq, toWorker, hk, hsum] at hworker ⊢
      omega
    · refine .inr ⟨hnone, ?_, by rw [heq]⟩
      simp only [weigh, heq, hsum]
      omega
  · cases h

theorem Covered.toWorker (h : s.Covered) {k : Fin n} {phase : Phase n W}
    (hlooks : (s.workers k).looks ≤ phase.looks) (hphase : phase ≠ .waits false) :
    (s.toWorker k phase).Covered := by
  intro k' hk'
  have hne : k' ≠ k := by
    rintro rfl
    exact hphase (by simpa using hk')
  have hqueued := h k' (by simpa [hne] using hk')
  have halert := weigh_toWorker (s := s) Submit.notifies Phase.looks k phase
  have hsame : (s.toWorker k phase).queued = s.queued := rfl
  simp only [alert] at hqueued ⊢
  omega

end Pool

namespace Pool.Covered

variable {s s' : Pool n W}

theorem submits (h : s.Covered) {work : W} (hs : s.submitWork work = some s') : s'.Covered := by
  have halert := weigh_submitWork Submit.notifies Phase.looks hs fun _ => rfl
  unfold submitWork at hs
  split at hs
  · cases hs
    exact fun k hk => (h k hk).trans halert.ge
  · cases hs

theorem pushes (h : s.Covered) {j : Nat} (hs : s.pushWork j = some s') : s'.Covered := by
  cases hj : s.submits[j]? with
  | none => simp [pushWork, hj] at hs
  | some submit =>
    cases submit with
    | pushed => simp [pushWork, hj] at hs
    | picked idx work =>
      have halert := weigh_pushWork Submit.notifies Phase.looks hj hs
      simp only [pushWork, hj, Option.some.injEq] at hs
      cases hs
      intro k hk
      have hqueued := h k hk
      have hsum := sum_update Deque.count s.deques idx ((s.deques idx).pushTail work)
      have hcount : ((s.deques idx).pushTail work).count = (s.deques idx).count + 1 := by
        rw [← Deque.length_toList, Deque.toList_pushTail, List.length_append, Deque.length_toList]
        rfl
      simp only [queued, alert, Submit.notifies] at hqueued halert ⊢
      omega

theorem notifies (h : s.Covered) {j w : Nat} (hs : s.notifyWork j w = some s') : s'.Covered := by
  have hqueued : s'.queued = s.queued := by simp only [queued, (notifyWork_spec hs).deques]
  rcases weigh_notifyWork Submit.notifies Phase.looks hs with ⟨k, hk, halert, hworkers⟩ |
    ⟨hnone, -, hworkers⟩
  · intro k' hk'
    have hbefore := h k hk
    simp [Submit.notifies, Phase.looks] at halert
    simp only [alert] at hbefore ⊢
    omega
  · exact fun k hk => absurd (by rw [← hworkers, hk]) (hnone k)

end Pool.Covered

end

/-! ## §3 Workers -/

section

variable {n : Nat} {W : Type} {s s' : Pool n W} {k random : Fin n}

/-- What a worker that executes nothing can do: it takes work, or it goes on looking, or it begins
to wait. -/
inductive Looks (s : Pool n W) (k : Fin n) : Pool n W → Prop where
  | takes {victim work deque other} (hlooks : (s.workers k).looks = 1)
      (hrank : 0 < (s.workers k).rank)
      (htook : (s.deques victim).Took (some work) deque) :
      Looks s k (s.got k victim (some work) deque other)
  | turns {phase} (hwork : phase.work? = none) (hrunning : phase ≠ .returned)
      (hlooks : phase.looks = 1)
      (hrank : s.workers k = .waits false ∨ phase.rank < (s.workers k).rank) :
      Looks s k (s.toWorker k phase)
  | sleeps (hidle : s.workers k = .idle) : Looks s k (s.toWorker k (.waits false))

theorem turns_further {start : Fin n} {i : Nat} (hsteal : s.workers k = .steal start i) :
    Looks s k (s.toWorker k (Pool.further start i)) := by
  unfold Pool.further
  split
  · exact .turns rfl (by simp) rfl (.inr (by simp only [hsteal, Phase.rank]; omega))
  · exact .turns rfl (by simp) rfl (.inr (by simp only [hsteal, Phase.rank]; omega))

theorem looks_of_step (hfilled : ∀ idx, none ∉ (s.deques idx).toList) (hopen : s.shutdown = false)
    (hwork : (s.workers k).work? = none) (h : s.workerStep k random = some s') : Looks s k s' := by
  have hitem {victim : Fin n} {item : Option W} {deque : Deque W}
    (htook : (s.deques victim).Took item deque) :
      ∃ work, item = some work := by
    cases item with
    | none => exact absurd htook.mem.1 (hfilled victim)
    | some work => exact ⟨work, rfl⟩
  unfold Pool.workerStep at h
  cases hphase : s.workers k with
  | own =>
    simp only [hphase] at h
    cases hpop : (s.deques k).popTail with
    | some q =>
      obtain ⟨item, deque⟩ := q
      obtain ⟨work, rfl⟩ := hitem (.inl hpop)
      simp only [hpop, Option.some.injEq] at h
      exact h ▸ .takes (by rw [hphase]; rfl) (by simp [hphase, Phase.rank]) (.inl hpop)
    | none =>
      simp only [hpop, Option.some.injEq] at h
      exact h ▸ .turns rfl (by simp) rfl (.inr (by simp [hphase, Phase.rank]))
  | steal start i =>
    simp only [hphase] at h
    split at h
    · exact Option.some.inj h ▸ turns_further hphase
    · cases hsteal : (s.deques (Pool.victim start i)).stealHead with
      | some q =>
        obtain ⟨item, deque⟩ := q
        obtain ⟨work, rfl⟩ := hitem (.inr hsteal)
        simp only [hsteal, Option.some.injEq] at h
        exact h ▸ .takes (by rw [hphase]; rfl) (by simp [hphase, Phase.rank]) (.inr hsteal)
      | none =>
        simp only [hsteal, Option.some.injEq] at h
        exact h ▸ turns_further hphase
  | executes work => simp [hphase, Phase.work?] at hwork
  | idle =>
    simp only [hphase, Option.some.injEq] at h
    exact h ▸ .sleeps hphase
  | waits notified =>
    simp only [hphase, hopen, Option.some.injEq] at h
    refine h ▸ .turns rfl (by simp) rfl ?_
    cases notified with
    | false => exact .inl hphase
    | true => exact .inr (by simp [hphase, Phase.rank])
  | returned => simp [hphase] at h

theorem Deque.Took.count {d d' : Deque W} {x : Option W} (h : d.Took x d') :
    d.count = d'.count + 1 := by
  rw [← d.length_toList, ← d'.length_toList]
  rcases h with hpop | hsteal
  · rw [toList_popTail d hpop, List.length_append, List.length_singleton]
  · rw [toList_stealHead d hsteal, List.length_cons]

theorem Pool.Covered.looks (hlooked : Looked s) (h : s.Covered) (hs : Looks s k s') :
    s'.Covered := by
  cases hs with
  | @takes victim work deque other hlooks _ htook =>
    intro k' hk'
    have hne : k' ≠ k := by
      rintro rfl
      simp [got] at hk'
    have hqueued := h k' (by simpa [got, Function.update_of_ne hne] using hk')
    have halert := weigh_got (s := s) Submit.notifies Phase.looks k victim work deque other
    have hsum := sum_update Deque.count s.deques victim deque
    have hcount := htook.count
    have hexecutes : (Phase.executes work : Phase n W).looks = 0 := rfl
    simp only [queued, alert, got] at hqueued halert hsum ⊢
    omega
  | turns _ _ hlooks _ =>
    refine h.toWorker ?_ (by rintro rfl; cases hlooks)
    rw [hlooks]
    cases s.workers k with
    | waits notified => cases notified <;> simp [Phase.looks]
    | _ => simp [Phase.looks]
  | sleeps hidle =>
    intro _ _
    have hempty : s.queued = 0 := by
      refine Finset.sum_eq_zero fun idx _ => ?_
      have hnone :=
        (s.deques idx).emptyP_iff.mp (hlooked.empty k idx (by simp [Found, hidle, Phase.Found]))
      rw [← (s.deques idx).length_toList, hnone, List.length_nil]
    exact hempty.le.trans (Nat.zero_le _)

end

/-! ## §4 Tasks -/

/-- The work that the call has still to push to this deque. -/
def Submit.worksTo {n : Nat} {W : Type} (idx : Fin n) : Submit n W → Multiset W
  | .picked idx' work => if idx' = idx then {work} else 0
  | .pushed => 0

/-- What is in this deque, or about to be pushed to it. -/
def Pool.coming {n : Nat} {W : Type} (s : Pool n W) (idx : Fin n) : Multiset W :=
  (s.deques idx).works + (s.submits.map (Submit.worksTo idx)).sum

namespace Executor

variable {n : Nat} {R : Type} {s s' : Executor n R} {a a' : ForkJoin.Pool n R}

/-- The tasks have come as far in the other pool, where a thread that has picked a deque has its
handle and goes on. -/
structure Refines (s : Executor n R) (a : ForkJoin.Pool n R) : Prop where
  boxes : a.boxes = s.boxes
  free : ∀ x, (∀ handle, (x, handle) ∉ s.calls) → a.threads x = s.task x
  called : ∀ x handle, (x, handle) ∈ s.calls → ∃ i child rest,
    s.task x = some (i, .submit child rest) ∧ a.threads x = some (i, rest handle)
  queues : ∀ idx, (↑(a.queues idx) : Multiset (Nat × Work R)) = s.pool.coming idx
  calls : s.calls.length = s.pool.submits.length
  nodup : (s.calls.map (·.1)).Nodup
  filled : ∀ idx, none ∉ (s.pool.deques idx).toList
  opened : s.pool.shutdown = false
  running : ∀ k, s.pool.workers k ≠ .returned

theorem call?_eq_none {x : Option (Fin n)} :
    s.call? x = none ↔ ∀ handle, (x, handle) ∉ s.calls := by
  simp only [call?, List.findIdx?_eq_none_iff, decide_eq_false_iff_not]
  exact ⟨fun h handle hmem => h _ hmem rfl, fun h c hc heq => h c.2 (heq ▸ hc)⟩

theorem call?_eq_some {x : Option (Fin n)} {j : Nat} (h : s.call? x = some j) :
    ∃ handle, s.calls[j]? = some (x, handle) := by
  obtain ⟨hlt, hx, -⟩ := List.findIdx?_eq_some_iff_getElem.mp h
  refine ⟨(s.calls[j]).2, ?_⟩
  rw [List.getElem?_eq_getElem hlt, ← of_decide_eq_true hx]

theorem work?_toWorker (p : Pool n (Nat × Work R)) (k k' : Fin n) (phase : Phase n (Nat × Work R)) :
    ((p.toWorker k phase).workers k').work? = if k' = k then phase.work?
    else (p.workers k').work? := by
  by_cases hk : k' = k
  · simp [hk]
  · simp [hk]

@[simp] theorem task_goOn (x y : Option (Fin n)) (t : Nat × Work R) :
    (s.goOn x t).task y = if y = x then some t else s.task y := by
  cases x with
  | none => cases y <;> simp [goOn, task]
  | some k =>
    cases y with
    | none => simp [goOn, task]
    | some k' => simp [goOn, task, work?_toWorker]

theorem task_finish (x y : Option (Fin n)) (i : Nat) (r : R) :
    (s.finish x i r).task y = if y = x then none else s.task y := by
  cases x with
  | none => cases y <;> simp [finish, task]
  | some k =>
    cases y with
    | none => simp [finish, task]
    | some k' => simp [finish, task, work?_toWorker]

/-- A thread that makes no call goes on, or has finished. -/
theorem Refines.thread (h : Refines s a) {x : Option (Fin n)} {t : Option (Nat × Work R)}
    {boxes : List (Option R)} (hcall : ∀ handle, (x, handle) ∉ s.calls) (hboxes : s'.boxes = boxes)
    (hcalls : s'.calls = s.calls) (htask : ∀ y, s'.task y = if y = x then t else s.task y)
    (hdeques : s'.pool.deques = s.pool.deques) (hsubmits : s'.pool.submits = s.pool.submits)
    (hopen : s'.pool.shutdown = s.pool.shutdown) (hrunning : ∀ k, s'.pool.workers k ≠ .returned) :
    Refines s' { a with boxes, threads := Function.update a.threads x t } where
  boxes := hboxes.symm
  free y hy := by
    by_cases heq : y = x
    · simp [heq, htask]
    · simp [htask, heq, h.free y (hcalls ▸ hy)]
  called y handle hy := by
    rw [hcalls] at hy
    have hne : y ≠ x := by
      rintro rfl
      exact hcall handle hy
    obtain ⟨i, child, rest, hbefore, hreached⟩ := h.called y handle hy
    exact ⟨i, child, rest, by rw [htask, if_neg hne, hbefore], by
      simp [Function.update_of_ne hne, hreached]⟩
  queues idx := by rw [h.queues idx, Pool.coming, Pool.coming, hdeques, hsubmits]
  calls := by rw [hcalls, hsubmits, h.calls]
  nodup := hcalls ▸ h.nodup
  filled := hdeques ▸ h.filled
  opened := hopen.trans h.opened
  running := hrunning

/-- A thread in a call of `submit-work` has something to submit. -/
theorem Refines.not_called (h : Refines s a) {x : Option (Fin n)}
    (hx : ∀ i child rest, s.task x ≠ some (i, .submit child rest)) (handle : Nat) :
    (x, handle) ∉ s.calls := by
  intro hmem
  obtain ⟨i, child, rest, htask, -⟩ := h.called x handle hmem
  exact hx i child rest htask

/-- The pool goes on: no thread gets another task, and no work comes in. -/
theorem Refines.pool (h : Refines s a) {pool : Pool n (Nat × Work R)}
    (htask : ∀ k, (pool.workers k).work? = (s.pool.workers k).work?)
    (hcoming : ∀ idx, pool.coming idx = s.pool.coming idx)
    (hlength : pool.submits.length = s.pool.submits.length)
    (hfilled : ∀ idx, none ∉ (pool.deques idx).toList)
    (hopen : pool.shutdown = false) (hrunning : ∀ k, pool.workers k ≠ .returned) :
    Refines { s with pool } a := by
  have hsame (x : Option (Fin n)) : ({ s with pool } : Executor n R).task x = s.task x := by
    cases x with
    | none => rfl
    | some k => exact htask k
  exact ⟨h.boxes, fun x hx => (h.free x hx).trans (hsame x).symm,
    fun x handle hx => by
    simpa only [hsame] using h.called x handle hx,
    fun idx => (h.queues idx).trans (hcoming idx).symm,
    h.calls.trans hlength.symm, h.nodup, hfilled, hopen, hrunning⟩

/-- A worker goes from one phase in which it executes nothing to another. -/
theorem Refines.turns (h : Refines s a) {k : Fin n} {phase : Phase n (Nat × Work R)}
    (hbefore : (s.pool.workers k).work? = none) (hwork : phase.work? = none)
    (hrunning : phase ≠ .returned) :
    Refines { s with pool := s.pool.toWorker k phase } a := by
  refine h.pool (fun k' => ?_) (fun _ => rfl) rfl h.filled h.opened fun k' => ?_
  · rw [work?_toWorker]
    split
    case isTrue heq => rw [heq, hbefore, hwork]
    case isFalse => rfl
  · by_cases heq : k' = k
    · simpa [heq] using hrunning
    · rw [toWorker_of_ne phase heq]
      exact h.running k'

/-- A worker takes work from a deque. -/
theorem Refines.takes (h : Refines s a) {k victim : Fin n} {work : Nat × Work R}
    {deque : Deque (Nat × Work R)} (other : Phase n (Nat × Work R))
    (hbefore : (s.pool.workers k).work? = none)
    (htook : (s.pool.deques victim).Took (some work) deque) :
    ∃ a', ForkJoin.Pool.Moves a a' ∧
    Refines { s with pool := s.pool.got k victim (some work) deque other } a' := by
  have hidle : s.task (some k) = none := hbefore
  have hcall := h.not_called (x := some k) fun i child rest => by simp [hidle]
  have hqueue := h.queues victim
  rw [Pool.coming, htook.works, Option.toList_some] at hqueue
  have hmem : work ∈ a.queues victim := by
    rw [← Multiset.mem_coe, hqueue]
    simp
  obtain ⟨others, hperm⟩ : ∃ others, (a.queues victim).Perm (work :: others) := by
    obtain ⟨before, after, heq⟩ := List.append_of_mem hmem
    exact ⟨before ++ after, heq ▸ List.perm_middle⟩
  refine ⟨_, .take ((h.free _ hcall).trans hidle) hperm, h.boxes, fun x hx => ?_,
    fun x handle hx => ?_, fun idx => ?_, h.calls, h.nodup, fun idx => ?_, h.opened, fun k' => ?_⟩
  · by_cases heq : x = some k
    · simp [heq, task, Pool.got, Phase.work?]
    · refine (Function.update_of_ne heq _ _).trans ((h.free x hx).trans ?_)
      cases x with
      | none => rfl
      | some k' =>
        have hne : k' ≠ k := fun hk => heq (congrArg some hk)
        simp [task, Pool.got, Function.update_of_ne hne]
  · have heq : x ≠ some k := by
      rintro rfl
      exact hcall handle hx
    obtain ⟨i, child, rest, htask, hreached⟩ := h.called x handle hx
    refine ⟨i, child, rest, ?_, by simp [Function.update_of_ne heq, hreached]⟩
    rw [← htask]
    cases x with
    | none => rfl
    | some k' =>
      have hne : k' ≠ k := fun hk => heq (congrArg some hk)
      simp [task, Pool.got, Function.update_of_ne hne]
  · by_cases heq : idx = victim
    · subst heq
      have hothers : (↑(a.queues idx) : Multiset (Nat × Work R)) = ↑others + {work} := by
        rw [Multiset.coe_eq_coe.mpr hperm, ← Multiset.cons_coe, ← Multiset.singleton_add, add_comm]
      rw [hothers, add_right_comm, Multiset.coe_singleton, add_right_cancel_iff] at hqueue
      simpa [Pool.coming, Pool.got] using hqueue
    · simpa [Pool.coming, Pool.got, Function.update_of_ne heq] using h.queues idx
  · by_cases heq : idx = victim
    · subst heq
      simpa [Pool.got] using fun hin => h.filled idx (htook.mem.2 none hin)
    · simpa [Pool.got, Function.update_of_ne heq] using h.filled idx
  · by_cases heq : k' = k
    · simp [heq, Pool.got]
    · simpa [Pool.got, Function.update_of_ne heq] using h.running k'

/-- What a step does: a task goes on in the other pool as well, or a worker or a call comes nearer
to its end. -/
def Simulates (s s' : Executor n R) (a : ForkJoin.Pool n R) (spurious : Prop) : Prop :=
  (∃ a', ForkJoin.Pool.Moves a a' ∧ Refines s' a' ∧ s'.pool.rank ≤ s.pool.rank + (n + 6)) ∨
    (Refines s' a ∧ (spurious ∨ s'.pool.rank < s.pool.rank))

theorem Refines.looks (h : Refines s a) {k : Fin n} {pool : Pool n (Nat × Work R)}
    (hwork : (s.pool.workers k).work? = none) (hs : Looks s.pool k pool) :
    Simulates s { s with pool } a (s.pool.workers k = .waits false) := by
  cases hs with
  | @takes victim work deque other _ hrank htook =>
    obtain ⟨a', hmove, hrefines⟩ := h.takes other hwork htook
    refine .inl ⟨a', hmove, hrefines, ?_⟩
    have hsum := Pool.weigh_got (s := s.pool) Submit.rank Phase.rank k victim work deque other
    have hexecutes : (Phase.executes work : Phase n (Nat × Work R)).rank = 0 := rfl
    simp only [Pool.rank] at hsum ⊢
    omega
  | @turns phase hafter hrunning _ hrank =>
    refine .inr ⟨h.turns hwork hafter hrunning, hrank.imp_right fun hless => ?_⟩
    have hsum := Pool.weigh_toWorker (s := s.pool) Submit.rank Phase.rank k phase
    simp only [Pool.rank]
    omega
  | sleeps hidle =>
    refine .inr ⟨h.turns hwork rfl (by simp), .inr ?_⟩
    have hsum := Pool.weigh_toWorker (s := s.pool) Submit.rank Phase.rank k (.waits false)
    simp only [hidle, Phase.rank] at hsum
    simp only [Pool.rank]
    simp at hsum
    omega

theorem calls_goOn (x : Option (Fin n)) (t : Nat × Work R) :
    (s.goOn x t).calls = s.calls := by cases x <;> rfl

theorem submits_goOn (x : Option (Fin n)) (t : Nat × Work R) :
    (s.goOn x t).pool.submits = s.pool.submits := by
  cases x <;> rfl

theorem coming_goOn (x : Option (Fin n)) (t : Nat × Work R) (idx : Fin n) :
    (s.goOn x t).pool.coming idx = s.pool.coming idx := by
  cases x <;> rfl

theorem rank_goOn {x : Option (Fin n)} {t t' : Nat × Work R} (hx : s.task x = some t) :
    (s.goOn x t').pool.rank = s.pool.rank := by
  cases x with
  | none => rfl
  | some k =>
    have hphase : s.pool.workers k = .executes t := Phase.work?_eq_some.mp hx
    have hsum := Pool.weigh_toWorker (s := s.pool) Submit.rank Phase.rank k (.executes t')
    simp only [hphase, Phase.rank, Nat.add_zero] at hsum
    exact hsum

theorem running_goOn (h : ∀ k, s.pool.workers k ≠ .returned) (x : Option (Fin n)) (t : Nat × Work R)
    (k : Fin n) :
    (s.goOn x t).pool.workers k ≠ .returned := by
  cases x with
  | none => exact h k
  | some k' =>
    by_cases heq : k = k'
    · simp [goOn, heq]
    · simpa [goOn, toWorker_of_ne _ heq] using h k

theorem Refines.goOn (h : Refines s a) {x : Option (Fin n)} {t : Nat × Work R}
    (hcall : ∀ handle, (x, handle) ∉ s.calls) :
    Refines (s.goOn x t) { a with threads := Function.update a.threads x (some t) } := by
  have hrefines : Refines (s.goOn x t)
      { a with boxes := s.boxes, threads := Function.update a.threads x (some t) } := by
    refine h.thread hcall ?_ ?_ (task_goOn x · t) ?_ ?_ ?_ (running_goOn h.running x t)
    all_goals cases x <;> rfl
  rwa [← h.boxes] at hrefines

theorem Refines.finish (h : Refines s a) {x : Option (Fin n)} {i : Nat} {r : R}
    (hx : s.task x = some (i, .done r)) :
    Simulates s (s.finish x i r) a False := by
  have hcall := h.not_called (x := x) fun i child rest => by simp [hx]
  refine .inl ⟨_, .finish ((h.free x hcall).trans hx), ?_, ?_⟩
  · rw [h.boxes]
    refine h.thread hcall ?_ ?_ (task_finish x · i r) ?_ ?_ ?_ fun k => ?_
    case refine_6 =>
      cases x with
      | none => exact h.running k
      | some k' =>
        by_cases heq : k = k'
        · simp [Executor.finish, heq]
        · simpa [Executor.finish, toWorker_of_ne _ heq] using h.running k
    all_goals cases x <;> rfl
  · cases x with
    | none => exact Nat.le_add_right _ _
    | some k =>
      have hphase : s.pool.workers k = .executes (i, .done r) := Phase.work?_eq_some.mp hx
      have hsum := Pool.weigh_toWorker (s := s.pool) Submit.rank Phase.rank k .own
      simp only [hphase, Phase.rank] at hsum
      simp only [Executor.finish, Pool.rank]
      omega

theorem Refines.resume (h : Refines s a) {x : Option (Fin n)} {i handle : Nat} {rest : R → Work R}
    {r : R} (hx : s.task x = some (i, .wait handle rest))
    (hbox : s.boxes[handle]? = some (some r)) :
    Simulates s (s.goOn x (i, rest r)) a False := by
  have hcall := h.not_called (x := x) fun i child rest => by simp [hx]
  refine .inl ⟨_, .resume ((h.free x hcall).trans hx) (h.boxes ▸ hbox), h.goOn hcall, ?_⟩
  rw [rank_goOn hx]
  exact Nat.le_add_right _ _

/-- A thread picks a deque for its work. -/
theorem Refines.picks (h : Refines s a) {x : Option (Fin n)} {i : Nat} {child : Work R}
    {rest : Nat → Work R} {pool : Pool n (Nat × Work R)}
    (hx : s.task x = some (i, .submit child rest)) (hcall : s.call? x = none)
    (hs : s.pool.submitWork (s.boxes.length, child) = some pool) :
    Simulates s { s with pool, boxes := s.boxes ++ [none], calls := s.calls ++
      [(x, s.boxes.length)] } a False := by
  have hrank := Pool.weigh_submitWork Submit.rank Phase.rank hs fun _ => rfl
  have hnone := call?_eq_none.mp hcall
  unfold Pool.submitWork at hs
  split at hs
  · next hpos =>
    obtain rfl := (Option.some.inj hs).symm
    let idx : Fin n := ⟨s.pool.counter % n, Nat.mod_lt _ hpos⟩
    refine .inl ⟨_, .submit idx ((h.free x hnone).trans hx), ?_, hrank.le⟩
    refine ⟨congrArg (· ++ [none]) h.boxes, fun y hy => ?_, fun y handle hy => ?_, fun idx' => ?_,
      ?_, ?_, h.filled, h.opened, h.running⟩
    · have hne : y ≠ x := by
        rintro rfl
        exact hy s.boxes.length (by simp)
      refine (Function.update_of_ne hne _ _).trans
        ((h.free y fun handle hmem => hy handle ?_).trans ?_)
      · exact List.mem_append_left _ hmem
      · cases y <;> rfl
    · rcases List.mem_append.mp hy with hold | hnew
      · have hne : y ≠ x := by
          rintro rfl
          exact hnone handle hold
        obtain ⟨i', child', rest', htask, hreached⟩ := h.called y handle hold
        refine ⟨i', child', rest', ?_, (Function.update_of_ne hne _ _).trans hreached⟩
        rw [← htask]
        cases y <;> rfl
      · obtain ⟨rfl, rfl⟩ := Prod.mk.inj (List.mem_singleton.mp hnew)
        refine ⟨i, child, rest, ?_, ?_⟩
        · rw [← hx]
          cases y <;> rfl
        · rw [← h.boxes]
          exact Function.update_self ..
    · have hqueue := h.queues idx'
      simp only [Pool.coming, List.map_append, List.map_singleton, List.sum_append,
        List.sum_singleton, Submit.worksTo, ForkJoin.Pool.submitTo] at hqueue ⊢
      by_cases heq : idx' = idx
      · subst heq
        rw [Function.update_self, if_pos rfl, ← Multiset.coe_add, hqueue, h.boxes,
          Multiset.coe_singleton, add_assoc]
      · have hne : ¬ (⟨s.pool.counter % n, Nat.mod_lt _ hpos⟩ : Fin n) = idx' :=
          fun hidx => heq hidx.symm
        rw [Function.update_of_ne heq, if_neg hne, add_zero, hqueue]
    · simp [h.calls]
    · rw [List.map_append, List.nodup_append]
      refine ⟨h.nodup, by simp, fun y hy z hz => ?_⟩
      obtain ⟨c, hc, rfl⟩ := List.mem_map.mp hy
      rintro rfl
      obtain rfl : c.1 = x := by simpa using hz
      exact hnone c.2 hc
  · cases hs

/-- A thread pushes its work. -/
theorem Refines.pushes (h : Refines s a) {j : Nat} {idx : Fin n} {work : Nat × Work R}
    {pool : Pool n (Nat × Work R)} (hj : s.pool.submits[j]? = some (.picked idx work))
    (hs : s.pool.pushWork j = some pool) :
    Simulates s { s with pool } a False := by
  have hrank := Pool.weigh_pushWork Submit.rank Phase.rank hj hs
  simp only [Pool.pushWork, hj, Option.some.injEq] at hs
  subst hs
  refine .inr ⟨h.pool (fun _ => rfl) (fun idx' => ?_) (List.length_set ..) (fun idx' => ?_) h.opened
    h.running, .inr ?_⟩
  · have hlt := (List.getElem?_eq_some_iff.mp hj).1
    simp only [Pool.coming, Pool.sum_eraseIdx (Submit.worksTo idx') hj,
      Pool.sum_set (Submit.worksTo idx') hlt, Submit.worksTo, zero_add]
    by_cases heq : idx' = idx
    · subst heq
      rw [Function.update_self, if_pos rfl, Deque.works_pushTail, add_assoc]
    · have hne : ¬ idx = idx' := fun hidx => heq hidx.symm
      rw [Function.update_of_ne heq, if_neg hne, zero_add]
  · by_cases heq : idx' = idx
    · subst heq
      simpa [Deque.toList_pushTail] using h.filled idx'
    · simpa [Function.update_of_ne heq] using h.filled idx'
  · simp only [Submit.rank] at hrank
    simp only [Pool.rank]
    omega

theorem mem_calls_eraseIdx (h : Refines s a) {x y : Option (Fin n)} {j handle handle' : Nat}
    (hj : s.calls[j]? = some (x, handle)) :
    (y, handle') ∈ s.calls.eraseIdx j ↔ (y, handle') ∈ s.calls ∧ y ≠ x := by
  obtain ⟨hlt, hget⟩ := List.getElem?_eq_some_iff.mp hj
  have hperm := List.getElem_cons_eraseIdx_perm hlt
  have hnodup := (hperm.map Prod.fst).nodup_iff.mpr h.nodup
  rw [hget, List.map_cons, List.nodup_cons] at hnodup
  rw [← hperm.mem_iff, hget, List.mem_cons]
  constructor
  · intro hmem
    refine ⟨.inr hmem, ?_⟩
    rintro rfl
    exact hnodup.1 (List.mem_map.mpr ⟨_, hmem, rfl⟩)
  · rintro ⟨heq | hmem, hne⟩
    · exact absurd (Prod.mk.inj heq).1 hne
    · exact hmem

/-- A thread notifies a worker, and has its handle. -/
theorem Refines.notifies (h : Refines s a) {x : Option (Fin n)} {i j w handle : Nat}
    {child : Work R} {rest : Nat → Work R} {pool : Pool n (Nat × Work R)}
    (hx : s.task x = some (i, .submit child rest)) (hcall : s.calls[j]? = some (x, handle))
    (hs : s.pool.notifyWork j w = some pool) :
    Simulates s ({ s with pool, calls := s.calls.eraseIdx j }.goOn x (i, rest handle)) a False := by
  have hspec := Pool.notifyWork_spec hs
  have htask (y : Option (Fin n)) :
    ({ s with pool, calls := s.calls.eraseIdx j } : Executor n R).task y = s.task y := by
    cases y with
    | none => rfl
    | some k => exact hspec.work k
  have hreached : a.threads x = some (i, rest handle) := by
    obtain ⟨i', child', rest', htask', hthread⟩ := h.called x handle (List.mem_of_getElem? hcall)
    cases htask'.symm.trans hx
    exact hthread
  refine .inr ⟨⟨?_, fun y hy => ?_, fun y handle' hy => ?_, fun idx => ?_, ?_, ?_, fun idx => ?_,
    ?_, fun k => ?_⟩, .inr ?_⟩
  · cases x <;> exact h.boxes
  · rw [task_goOn, htask]
    split
    case isTrue heq => rw [heq, hreached]
    case isFalse hne =>
      refine h.free y fun handle' hmem => ?_
      refine hy handle' ?_
      rw [calls_goOn]
      exact (mem_calls_eraseIdx h hcall).mpr ⟨hmem, hne⟩
  · rw [calls_goOn] at hy
    obtain ⟨hmem, hne⟩ := (mem_calls_eraseIdx h hcall).mp hy
    rw [task_goOn, if_neg hne, htask]
    exact h.called y handle' hmem
  · rw [h.queues idx, coming_goOn, Pool.coming, Pool.coming, hspec.deques, hspec.submits,
      Pool.sum_eraseIdx (Submit.worksTo idx) hspec.pushed, Submit.worksTo, zero_add]
  · rw [calls_goOn, submits_goOn, hspec.submits, List.length_eraseIdx, List.length_eraseIdx,
      h.calls]
  · rw [calls_goOn]
    exact ((List.eraseIdx_sublist ..).map _).nodup h.nodup
  · cases x <;> exact hspec.deques ▸ h.filled idx
  · cases x <;> exact hspec.shutdown.trans h.opened
  · exact running_goOn (fun k' hk' => h.running k' (hspec.returned k' hk')) x _ k
  · rw [rank_goOn ((htask x).trans hx)]
    rcases Pool.weigh_notifyWork Submit.rank Phase.rank hs with ⟨k, hk, hrank, -⟩ | ⟨-, hrank, -⟩
    · simp [Submit.rank, Phase.rank] at hrank
      simp only [Pool.rank]
      omega
    · simp only [Submit.rank] at hrank
      simp only [Pool.rank]
      omega

theorem Refines.submits (h : Refines s a) {x : Option (Fin n)}
    {i w : Nat} {child : Work R} {rest : Nat → Work R}
    (hx : s.task x = some (i, .submit child rest)) (hs : s.submitWork x w i child rest = some s') :
    Simulates s s' a False := by
  unfold submitWork at hs
  split at hs
  case h_1 hcall =>
    obtain ⟨pool, hpool, rfl⟩ := Option.map_eq_some_iff.mp hs
    exact h.picks hx hcall hpool
  case h_2 j hcall =>
    obtain ⟨handle, hj⟩ := call?_eq_some hcall
    rw [hj] at hs
    split at hs
    case h_1 hsubmit =>
      obtain ⟨pool, hpool, rfl⟩ := Option.map_eq_some_iff.mp hs
      exact h.pushes hsubmit hpool
    case h_2 x' handle' hsubmit heq =>
      obtain ⟨rfl, rfl⟩ := Prod.mk.inj (Option.some.inj heq)
      obtain ⟨pool, hpool, rfl⟩ := Option.map_eq_some_iff.mp hs
      exact h.notifies hx hj hpool
    case h_3 => cases hs

theorem Refines.step (h : Refines s a) {act : Act n} (hs : s.step act = some s') :
    Simulates s s' a (s.Spurious act) := by
  cases act with
  | look k random =>
    simp only [Executor.step] at hs
    split at hs
    case h_1 => cases hs
    case h_2 hphase =>
      obtain ⟨pool, hpool, rfl⟩ := Option.map_eq_some_iff.mp hs
      have hwork := Phase.work?_eq_none hphase
      exact h.looks hwork (looks_of_step h.filled h.opened hwork hpool)
  | go x w =>
    simp only [Executor.step] at hs
    split at hs
    case h_1 => cases hs
    case h_2 hx => exact Option.some.inj hs ▸ h.finish hx
    case h_3 hx => exact h.submits hx hs
    case h_4 hx =>
      obtain ⟨r, hbox, rfl⟩ := Option.map_eq_some_iff.mp hs
      exact h.resume hx (Option.join_eq_some_iff.mp hbox)

/-! ## §5 Delivery -/

/-- No deque that a worker has found empty has work, and a worker sleeps only while others will find
all there is. -/
structure Vigilant (s : Executor n R) : Prop where
  looked : Looked s.pool
  covered : s.pool.Covered

theorem Vigilant.goOn (h : Vigilant s) {x : Option (Fin n)} (hx : s.task x ≠ none)
    (t' : Nat × Work R) : Vigilant (s.goOn x t') := by
  cases x with
  | none => exact ⟨h.looked, h.covered⟩
  | some k =>
    obtain ⟨t, ht⟩ := Option.ne_none_iff_exists'.mp hx
    have hphase : s.pool.workers k = .executes t := Phase.work?_eq_some.mp ht
    refine ⟨h.looked.toWorker (fun idx hfound => ?_) (fun hphase' => by cases hphase'),
      h.covered.toWorker ?_ (by simp)⟩
    · simp [Found, Phase.Found] at hfound
    · simp [hphase, Phase.looks]

theorem Vigilant.finish (h : Vigilant s) {x : Option (Fin n)} {i : Nat} {r : R}
    (hx : s.task x = some (i, .done r)) :
    Vigilant (s.finish x i r) := by
  cases x with
  | none => exact ⟨h.looked, h.covered⟩
  | some k =>
    have hphase : s.pool.workers k = .executes (i, .done r) := Phase.work?_eq_some.mp hx
    refine ⟨h.looked.toWorker (fun idx hfound => ?_) (fun hphase' => by cases hphase'),
      h.covered.toWorker ?_ (by simp)⟩
    · simp [Found, Phase.Found] at hfound
    · simp [hphase, Phase.looks]

theorem Vigilant.submits (h : Vigilant s) {x : Option (Fin n)} {i w : Nat} {child : Work R}
    {rest : Nat → Work R} (houtside : s.Outside (.go x w))
    (hx : s.task x = some (i, .submit child rest)) (hs : s.submitWork x w i child rest = some s') :
    Vigilant s' := by
  unfold submitWork at hs
  split at hs
  case h_1 =>
    obtain ⟨pool, hpool, rfl⟩ := Option.map_eq_some_iff.mp hs
    exact ⟨h.looked.submits hpool, h.covered.submits hpool⟩
  case h_2 j hcall =>
    split at hs
    case h_1 =>
      obtain ⟨pool, hpool, rfl⟩ := Option.map_eq_some_iff.mp hs
      have hpush : Workers.Outside s.pool (.push j) :=
        fun idx hidx => houtside idx (by simpa [target?, hcall] using hidx)
      exact ⟨h.looked.pushes hpush hpool, h.covered.pushes hpool⟩
    case h_2 =>
      obtain ⟨pool, hpool, rfl⟩ := Option.map_eq_some_iff.mp hs
      refine Vigilant.goOn ⟨h.looked.notifies hpool, h.covered.notifies hpool⟩ ?_ _
      have hspec := Pool.notifyWork_spec hpool
      cases x with
      | none => exact (hx : s.caller = _) ▸ by simp
      | some k => simpa [task, hspec.work] using fun hnone => nomatch hnone.symm.trans hx
    case h_3 => cases hs

theorem Vigilant.step (h : Vigilant s) (hrefines : Refines s a) {act : Act n}
    (houtside : s.Outside act) (hs : s.step act = some s') : Vigilant s' := by
  cases act with
  | look k random =>
    simp only [Executor.step] at hs
    split at hs
    case h_1 => cases hs
    case h_2 hphase =>
      obtain ⟨pool, hpool, rfl⟩ := Option.map_eq_some_iff.mp hs
      have hwork := Phase.work?_eq_none hphase
      exact ⟨h.looked.works (works_of_step hpool),
        h.covered.looks h.looked (looks_of_step hrefines.filled hrefines.opened hwork hpool)⟩
  | go x w =>
    simp only [Executor.step] at hs
    split at hs
    case h_1 => cases hs
    case h_2 hx => exact Option.some.inj hs ▸ h.finish hx
    case h_3 hx => exact h.submits houtside hx hs
    case h_4 hx =>
      obtain ⟨r, -, rfl⟩ := Option.map_eq_some_iff.mp hs
      exact h.goOn (by simp [hx]) _

section

variable [Inhabited R] {r : R}

/-- What holds in every run in which no notification is lost. -/
structure Fine (s : Executor n R) (r : R) : Prop where
  vigilant : Vigilant s
  tasks : ∃ (a : ForkJoin.Pool n R) (E : Nat → Option R),
    Refines s a ∧ a.Sound E ∧ E 0 = some r ∧ a.waiting ≤ n

theorem fine_start [NeZero n] {main : Work R} (hmeans : main.Means (fun _ => none) r)
    (huniform : main.Uniform) (habove : main.Above 1) (turn : Nat) (hforks : main.forks < n) :
    Fine (start n main turn) r := by
  refine ⟨⟨?_, fun k hk => by cases hk⟩, .start n main turn, _, ?_,
    ForkJoin.Pool.sound_start hmeans huniform habove turn, Function.update_self .., ?_⟩
  · have hlooked := looked_initializeThreadPool (n := n) (W := Nat × Work R)
    exact ⟨hlooked.filled, hlooked.empty,
      fun hasleep => hlooked.awake ⟨hasleep.waiting, hasleep.unnotified, hasleep.work⟩⟩
  · refine ⟨rfl, fun x _ => ?_, (fun x handle hx => nomatch hx), fun idx => rfl, rfl,
      List.nodup_nil, fun idx => ?_, rfl, (fun k hk => nomatch hk)⟩
    · cases x <;> rfl
    · simp [start, initializeThreadPool]
  · have hload := main.load_le_one
    simp only [ForkJoin.Pool.waiting, ForkJoin.Pool.weigh_start]
    omega

theorem Fine.step (h : Fine s r) {act : Act n} (houtside : s.Outside act)
    (hs : s.step act = some s') : Fine s' r := by
  obtain ⟨a, E, hrefines, hsound, hr, hwaiting⟩ := h.tasks
  refine ⟨h.vigilant.step hrefines houtside hs, ?_⟩
  rcases hrefines.step hs with ⟨a', hmove, hrefines', -⟩ | ⟨hrefines', -⟩
  · obtain ⟨E', hext, hsound'⟩ := hsound.move hmove
    exact ⟨a', E', hrefines', hsound', hext _ _ hr,
      (ForkJoin.Pool.waiting_move hmove hsound.uniform).trans hwaiting⟩
  · exact ⟨a, E, hrefines', hsound, hr, hwaiting⟩

/-- A bound on the steps of threads that are not woken for nothing. -/
theorem length_le {E : Nat → Option R} (hrefines : Refines s a) (hsound : a.Sound E)
    {run : List (Act n × Executor n R)} (hrun : Runs s run)
    (hawake : EachStep (fun s act => ¬ s.Spurious act) s run) :
    run.length ≤ (n + 7) * a.cost + s.pool.rank := by
  induction run generalizing s a E with
  | nil => exact Nat.zero_le _
  | cons p run ih =>
    rcases hrefines.step hrun.1 with ⟨a', hmove, hrefines', hrank⟩ | ⟨hrefines', hrank⟩
    · obtain ⟨E', -, hsound'⟩ := hsound.move hmove
      have hrest := ih hrefines' hsound' hrun.2 hawake.2
      have hcost := ForkJoin.Pool.cost_move hmove hsound.uniform
      rw [List.length_cons, ← hcost, Nat.mul_add, Nat.mul_one]
      omega
    · have hrest := ih hrefines' hsound hrun.2 hawake.2
      have hless := hrank.resolve_left hawake.1
      rw [List.length_cons]
      omega

omit [Inhabited R] in
/-- In a section of `submit-work` a thread can go on. -/
theorem Refines.call_goes (h : Refines s a) (hcalls : s.calls ≠ []) :
    ∃ x w s', s.step (.go x w) = some s' := by
  obtain ⟨c, hc⟩ := List.exists_mem_of_ne_nil _ hcalls
  obtain ⟨x, handle⟩ := c
  obtain ⟨i, child, rest, hx, -⟩ := h.called x handle hc
  obtain ⟨j, hcall⟩ : ∃ j, s.call? x = some j := by
    rw [← Option.isSome_iff_exists, Option.isSome_iff_ne_none]
    exact fun hnone => call?_eq_none.mp hnone handle hc
  obtain ⟨handle', hj⟩ := call?_eq_some hcall
  have hlt : j < s.pool.submits.length := h.calls ▸ (List.getElem?_eq_some_iff.mp hj).1
  refine ⟨x, 0, ?_⟩
  simp only [Executor.step, hx, submitWork, hcall, hj, List.getElem?_eq_getElem hlt]
  cases hsubmit : s.pool.submits[j] with
  | picked idx work => simp [Pool.pushWork, List.getElem?_eq_getElem hlt, hsubmit]
  | pushed => simp [Pool.notifyWork, List.getElem?_eq_getElem hlt, hsubmit]

omit [Inhabited R] in
theorem exists_look {k : Fin n} (hwork : (s.pool.workers k).work? = none)
    (hrunning : s.pool.workers k ≠ .returned) :
    ∃ s', s.step (.look k k) = some s' := by
  obtain ⟨pool, hpool⟩ : ∃ pool, s.pool.workerStep k k = some pool := by
    unfold Pool.workerStep
    cases hphase : s.pool.workers k with
    | own => cases hpop : (s.pool.deques k).popTail <;> exact ⟨_, rfl⟩
    | steal start i =>
      simp only
      split
      · exact ⟨_, rfl⟩
      · cases hsteal : (s.pool.deques (Pool.victim start i)).stealHead <;> exact ⟨_, rfl⟩
    | returned => exact absurd hphase hrunning
    | _ => exact ⟨_, rfl⟩
  refine ⟨{ s with pool }, ?_⟩
  simp only [step]
  split
  case h_1 work hphase => simp [hphase] at hwork
  case h_2 => rw [hpool]; rfl

omit [Inhabited R] in
/-- When all workers that execute nothing are asleep, nothing is queued. -/
theorem Refines.queues_nil (h : Refines s a) (hcovered : s.pool.Covered)
    (hsubmits : s.pool.submits = [])
    (hasleep : ∀ k, (s.pool.workers k).work? = none → s.pool.workers k = .waits false) {k : Fin n}
    (hk : (s.pool.workers k).work? = none) (idx : Fin n) : a.queues idx = [] := by
  have halert : s.pool.alert = 0 := by
    have hlooks (k' : Fin n) : (s.pool.workers k').looks = 0 := by
      cases hwork : (s.pool.workers k').work? with
      | none => rw [hasleep k' hwork]; rfl
      | some work => rw [Phase.work?_eq_some.mp hwork]; rfl
    simp [Pool.alert, Pool.weigh, hsubmits, hlooks]
  have hqueued : s.pool.queued = 0 := Nat.le_zero.mp (halert ▸ hcovered k (hasleep k hk))
  have hcount : (s.pool.deques idx).count = 0 :=
    Finset.sum_eq_zero_iff.mp hqueued idx (Finset.mem_univ idx)
  have hempty : (s.pool.deques idx).toList = [] :=
    List.eq_nil_of_length_eq_zero (by rw [Deque.length_toList, hcount])
  have hqueue := h.queues idx
  rw [Pool.coming, hsubmits, Deque.works, hempty] at hqueue
  simpa using hqueue

/-- Until the caller has its result, some thread can go on. -/
theorem Fine.goes [NeZero n] (h : Fine s r) (hopen : s.result = none) :
    ∃ act s', s.step act = some s' ∧ s.Regular act := by
  obtain ⟨a, E, hrefines, hsound, hr, hwaiting⟩ := h.tasks
  by_contra hnone
  have hasleep (k : Fin n) (hk : (s.pool.workers k).work? = none) :
    s.pool.workers k = .waits false := by
    obtain ⟨s', hs⟩ := exists_look hk (hrefines.running k)
    by_contra hspurious
    exact hnone ⟨.look k k, s', hs, outside_look _ _ _, hspurious⟩
  -- nobody looks, so nothing that is pushed is overlooked
  have hstuck (x : Option (Fin n)) (w : Nat) (s' : Executor n R) (hs : s.step (.go x w) = some s') :
    False := by
    refine hnone ⟨.go x w, s', hs, fun idx _ k hfound => ?_, id⟩
    rw [Found] at hfound
    cases hwork : (s.pool.workers k).work? with
    | none => simp [hasleep k hwork, Phase.Found] at hfound
    | some work => simp [Phase.work?_eq_some.mp hwork, Phase.Found] at hfound
  have hcalls : s.calls = [] := by
    by_contra hne
    obtain ⟨x, w, s', hs⟩ := hrefines.call_goes hne
    exact hstuck x w s' hs
  have hsubmits : s.pool.submits = [] :=
    List.eq_nil_of_length_eq_zero (by rw [← hrefines.calls, hcalls, List.length_nil])
  have hthread (x : Option (Fin n)) : a.threads x = s.task x :=
    hrefines.free x fun handle hmem => by simp [hcalls] at hmem
  have hopen' : a.result = none := by rw [ForkJoin.Pool.result, hrefines.boxes]; exact hopen
  -- the step of the other pool is one of the executor
  obtain ⟨act, a', ha⟩ := hsound.exists_step hopen' (by simp [hr]) hwaiting
  cases act with
  | go x =>
    simp only [ForkJoin.Pool.step, hthread] at ha
    split at ha
    case h_1 => cases ha
    case h_2 hx => exact hstuck x 0 _ (by simp only [Executor.step, hx]; rfl)
    case h_3 hx =>
      have hcall : s.call? x = none := call?_eq_none.mpr fun handle hmem => by simp [hcalls] at hmem
      exact hstuck x 0 _
        (by simp only [Executor.step, hx, submitWork, hcall, Pool.submitWork, NeZero.pos n]; rfl)
    case h_4 hx =>
      obtain ⟨r', hbox, -⟩ := Option.map_eq_some_iff.mp ha
      rw [hrefines.boxes] at hbox
      exact hstuck x 0 _ (by simp only [Executor.step, hx, hbox]; rfl)
  | take k victim =>
    simp only [ForkJoin.Pool.step] at ha
    split at ha
    case h_1 hk htaken =>
      have hempty :=
        hrefines.queues_nil h.vigilant.covered hsubmits hasleep ((hthread (some k)).symm.trans hk)
      simp [ForkJoin.Pool.taken, hempty] at htaken
    case h_2 => cases ha

theorem Fine.delivered [NeZero n] (h : Fine s r) : s.Delivered r := by
  obtain ⟨a, E, hrefines, hsound, hr, -⟩ := h.tasks
  refine ⟨fun r' hr' => ?_, h.goes, _,
    fun run hrun hquiet => length_le hrefines hsound hrun (hquiet.imp fun _ _ h => h.2)⟩
  have hbox := hsound.filled 0 r' (hrefines.boxes ▸ Option.join_eq_some_iff.mp hr')
  exact (Option.some.inj (hr.symm.trans hbox)).symm

/-- While fewer tasks wait than there are workers, the caller gets its result. -/
theorem delivers_of_lt [NeZero n] {main : Work R} (hmeans : main.Means (fun _ => none) r)
    (huniform : main.Uniform) (habove : main.Above 1) (turn : Nat) (hforks : main.forks < n) :
    (start n main turn).Delivers r := by
  intro run hrun houtside
  have hfine :=
    invariant_always (I := fun s : Executor n R => Fine s r) (fun _ _ _ h hC hs => h.step hC hs)
    (fine_start hmeans huniform habove turn hforks) hrun houtside
  exact hfine.final.delivered

end

/-! ## §6 Stalls -/

/-- Nobody submits or sleeps, and the other pool is in the same state. -/
structure Quiet (s : Executor n R) (a : ForkJoin.Pool n R) : Prop where
  boxes : a.boxes = s.boxes
  caller : a.threads none = s.caller
  workers : ∀ k, s.pool.workers k = (a.threads (some k)).elim .own .executes
  queues : ∀ idx, (s.pool.deques idx).toList = (a.queues idx).map some
  turn : s.pool.counter = a.turn
  submits : s.pool.submits = []
  calls : s.calls = []

theorem Quiet.task (h : Quiet s a) (x : Option (Fin n)) : s.task x = a.threads x := by
  cases x with
  | none => exact h.caller.symm
  | some k =>
    rw [Executor.task, h.workers]
    cases a.threads (some k) <;> rfl

theorem Quiet.not_found (h : Quiet s a) (k idx : Fin n) : ¬ Found s.pool k idx := by
  rw [Found, h.workers]
  cases a.threads (some k) <;> exact id

theorem quiet_start (main : Work R) (turn : Nat) :
    Quiet (start n main turn) (.start n main turn) where
  boxes := rfl
  caller := rfl
  workers _ := rfl
  queues _ := by simp [start, initializeThreadPool, ForkJoin.Pool.start]
  turn := rfl
  submits := rfl
  calls := rfl

/-- A thread goes on, or has finished. -/
theorem Quiet.thread (h : Quiet s a) {x : Option (Fin n)} {t : Option (Nat × Work R)}
    {boxes : List (Option R)} (hboxes : s'.boxes = boxes)
    (hcaller : s'.caller = if x = none then t else s.caller)
    (hworkers : ∀ k, s'.pool.workers k = if x = some k then t.elim .own .executes
      else s.pool.workers k)
    (hdeques : s'.pool.deques = s.pool.deques) (hcounter : s'.pool.counter = s.pool.counter)
    (hsubmits : s'.pool.submits = []) (hcalls : s'.calls = []) :
    Quiet s' { a with boxes, threads := Function.update a.threads x t } where
  boxes := hboxes.symm
  caller := by
    by_cases hx : x = none
    · simp [hcaller, hx]
    · simp [hcaller, hx, Function.update_of_ne (Ne.symm hx), h.caller]
  workers k := by
    by_cases hx : x = some k
    · simp [hworkers, hx]
    · simp [hworkers, hx, Function.update_of_ne (Ne.symm hx), h.workers]
  queues idx := hdeques ▸ h.queues idx
  turn := hcounter.trans h.turn
  submits := hsubmits
  calls := hcalls

theorem Quiet.goOn (h : Quiet s a) (x : Option (Fin n)) (t : Nat × Work R) :
    Quiet (s.goOn x t) { a with threads := Function.update a.threads x (some t) } := by
  suffices hquiet : Quiet (s.goOn x t)
      { a with boxes := s.boxes, threads := Function.update a.threads x (some t) } by
    rwa [← h.boxes] at hquiet
  cases x with
  | none => exact h.thread rfl rfl (fun k => by simp [Executor.goOn]) rfl rfl h.submits h.calls
  | some k =>
    refine h.thread rfl rfl (fun k' => ?_) rfl rfl h.submits h.calls
    by_cases heq : k = k'
    · simp [Executor.goOn, heq]
    · simp [Executor.goOn, heq, toWorker_of_ne _ (Ne.symm heq)]

theorem Quiet.finish (h : Quiet s a) (x : Option (Fin n)) (i : Nat) (r : R) :
    Quiet (s.finish x i r)
      { a with boxes := a.boxes.set i (some r), threads := Function.update a.threads x none } := by
  rw [h.boxes]
  cases x with
  | none => exact h.thread rfl rfl (fun k => by simp [Executor.finish]) rfl rfl h.submits h.calls
  | some k =>
    refine h.thread rfl rfl (fun k' => ?_) rfl rfl h.submits h.calls
    by_cases heq : k = k'
    · simp [Executor.finish, heq]
    · simp [Executor.finish, heq, toWorker_of_ne _ (Ne.symm heq)]

/-- A worker takes work from a deque. -/
theorem Quiet.takes (h : Quiet s a) {p : Pool n (Nat × Work R)} {k victim : Fin n}
    {work : Nat × Work R} {others : List (Nat × Work R)} {deque : Deque (Nat × Work R)}
    {other : Phase n (Nat × Work R)} (hp : ∃ phase, p = s.pool.toWorker k phase)
    (hdeque : deque.toList = others.map some) :
    Quiet { s with pool := p.got k victim (some work) deque other }
      { a with
        queues := Function.update a.queues victim others
        threads := Function.update a.threads (some k) (some work) } := by
  obtain ⟨phase, rfl⟩ := hp
  refine ⟨h.boxes, ?_, fun k' => ?_, fun idx => ?_, h.turn, h.submits, h.calls⟩
  · simpa using h.caller
  · by_cases heq : k' = k
    · simp [Pool.got, heq]
    · simp [Pool.got, heq, Pool.toWorker, h.workers]
  · by_cases heq : idx = victim
    · simp [Pool.got, heq, hdeque]
    · simp [Pool.got, heq, Pool.toWorker, h.queues]

/-- The executor can make the step as well, and loses no notification. -/
def Follows (s : Executor n R) (a' : ForkJoin.Pool n R) : Prop :=
  ∃ run, Runs s run ∧ EachStep Outside s run ∧ Quiet (final s run) a'

theorem Quiet.outside_of_none (h : Quiet s a) (act : Act n) :
    s.Outside act := fun idx _ k => h.not_found k idx

theorem Quiet.asleep (h : Quiet s a) (w : Nat) : s.pool.notifyIdle w = s.pool := by
  rcases Pool.notifyIdle_cases (s := s.pool) w with ⟨k, hk, -⟩ | ⟨-, heq⟩
  · rw [h.workers] at hk
    cases hthread : a.threads (some k) <;> simp [hthread] at hk
  · exact heq

/-- The three sections of `submit-work`, one after the other. -/
theorem Quiet.follows_submit [NeZero n] (h : Quiet s a) {x : Option (Fin n)} {i : Nat}
    {child : Work R} {rest : Nat → Work R} (hx : a.threads x = some (i, .submit child rest)) :
    Follows s { a.submit
      child with threads := Function.update a.threads x (some (i, rest a.boxes.length)) } := by
  have hpos := NeZero.pos n
  let idx : Fin n := ⟨s.pool.counter % n, Nat.mod_lt _ hpos⟩
  let work : Nat × Work R := (s.boxes.length, child)
  let boxes := s.boxes ++ [none]
  let calls := [(x, s.boxes.length)]
  let picked : Pool n (Nat × Work R) :=
    { s.pool with submits := [.picked idx work], counter := s.pool.counter + 1 }
  let pushed : Pool n (Nat × Work R) :=
    { picked with
      deques := Function.update s.pool.deques idx ((s.pool.deques idx).pushTail work)
      submits := [.pushed] }
  let done : Pool n (Nat × Work R) := { pushed with submits := [] }
  let s₁ : Executor n R := { s with pool := picked, boxes, calls }
  let s₂ : Executor n R := { s with pool := pushed, boxes, calls }
  let s₃ : Executor n R := { s with pool := done, boxes, calls := [] }
  have htask : s.task x = some (i, .submit child rest) := (h.task x).trans hx
  have htask₁ : s₁.task x = some (i, .submit child rest) := by rw [← htask]; cases x <;> rfl
  have htask₂ : s₂.task x = some (i, .submit child rest) := by rw [← htask]; cases x <;> rfl
  have hcall : s.call? x = none := call?_eq_none.mpr fun handle hmem => by simp [h.calls] at hmem
  have hcall₁ : s₁.call? x = some 0 := by simp [call?, s₁, calls]
  have hcall₂ : s₂.call? x = some 0 := by simp [call?, s₂, calls]
  have hquiet : Quiet s₃ (a.submit child) := by
    refine ⟨congrArg (· ++ [none]) h.boxes, h.caller, h.workers, fun idx' => ?_,
      congrArg (· + 1) h.turn, rfl, rfl⟩
    have hnext : a.next = idx := Fin.ext (by simp [ForkJoin.Pool.next, idx, h.turn])
    have hqueue := h.queues idx'
    by_cases heq : idx' = idx
    · subst heq
      simp [s₃, done, pushed, ForkJoin.Pool.submitTo, hnext, Deque.toList_pushTail, hqueue, h.boxes,
        work]
    · simp [s₃, done, pushed, ForkJoin.Pool.submitTo, hnext, heq, hqueue]
  have hasleep (w : Nat) : pushed.notifyIdle w = pushed := by
    rcases Pool.notifyIdle_cases (s := pushed) w with ⟨k, hk, -⟩ | ⟨-, heq⟩
    · have hk' : s.pool.workers k = .waits false := hk
      rw [h.workers] at hk'
      cases hthread : a.threads (some k) <;> simp [hthread] at hk'
    · exact heq
  have hstep₁ : s.step (.go x 0) = some s₁ := by
    simp only [Executor.step, htask, submitWork, hcall, Pool.submitWork, hpos, h.submits, h.calls]
    rfl
  have hstep₂ : s₁.step (.go x 0) = some s₂ := by
    simp only [Executor.step, htask₁, submitWork, hcall₁]
    rfl
  have hstep₃ : s₂.step (.go x 0) = some (s₃.goOn x (i, rest a.boxes.length)) := by
    simp only [Executor.step, htask₂, submitWork, hcall₂]
    have hnotify : pushed.notifyWork 0 0 = some done := by
      simp [Pool.notifyWork, pushed, hasleep, done]
    simp [s₂, calls, hnotify, pushed, h.boxes, s₃]
  refine ⟨[(.go x 0, s₁), (.go x 0, s₂), (.go x 0, _)], ⟨hstep₁, hstep₂, hstep₃, trivial⟩,
    ⟨h.outside_of_none _, fun idx _ k => h.not_found k idx, fun idx _ k => h.not_found k idx,
      trivial⟩, ?_⟩
  exact hquiet.goOn x _

/-- A worker takes work from its own deque, or looks and steals. -/
theorem Quiet.follows_take (h : Quiet s a) {k victim : Fin n} {work : Nat × Work R}
    {queues : Fin n → List (Nat × Work R)} (hk : a.threads (some k) = none)
    (htaken : a.taken k victim = some (work, queues)) :
    Follows s { a with queues, threads := Function.update a.threads (some k) (some work) } := by
  have hown : s.pool.workers k = .own := by rw [h.workers, hk]; rfl
  unfold ForkJoin.Pool.taken at htaken
  split at htaken
  case h_1 last hlast =>
    obtain ⟨rfl, rfl⟩ := Prod.mk.inj (Option.some.inj htaken)
    have hqueue := h.queues k
    rw [← List.dropLast_append_getLast? _ hlast, List.map_append, List.map_singleton] at hqueue
    cases hpop : (s.pool.deques k).popTail with
    | none => simp [(Deque.popTail_eq_none _).mp hpop] at hqueue
    | some q =>
      obtain ⟨item, deque⟩ := q
      rw [Deque.toList_popTail _ hpop] at hqueue
      obtain ⟨hothers, hitem⟩ := List.append_inj' hqueue rfl
      obtain rfl : item = some last := by simpa using hitem
      have hstep :
        s.step (.look k k) =
        some { s with pool := s.pool.got k k (some last) deque (.steal k 0) } := by
        simp only [Executor.step, hown, Pool.workerStep, hpop, Option.map_some]
      refine ⟨[(.look k k, _)], ⟨hstep, trivial⟩, ⟨h.outside_of_none _, trivial⟩, ?_⟩
      exact h.takes ⟨.own, by rw [← hown, Pool.toWorker, Function.update_eq_self]⟩ hothers
  case h_2 hnone =>
    split at htaken
    case h_1 => cases htaken
    case h_2 first others hvictim =>
      obtain ⟨rfl, rfl⟩ := Prod.mk.inj (Option.some.inj htaken)
      have hempty : a.queues k = [] := List.getLast?_eq_none_iff.mp hnone
      have hne : victim ≠ k := by
        rintro rfl
        rw [hempty] at hvictim
        cases hvictim
      have hpop : (s.pool.deques k).popTail = none :=
        (Deque.popTail_eq_none _).mpr (by rw [h.queues, hempty]; rfl)
      have hqueue := h.queues victim
      rw [hvictim, List.map_cons] at hqueue
      have hself : Pool.victim victim 0 = victim := Fin.ext (Nat.mod_eq_of_lt victim.isLt)
      cases hsteal : (s.pool.deques victim).stealHead with
      | none => simp [(Deque.stealHead_eq_none _).mp hsteal] at hqueue
      | some q =>
        obtain ⟨item, deque⟩ := q
        rw [Deque.toList_stealHead _ hsteal] at hqueue
        obtain ⟨rfl, hothers⟩ := List.cons.inj hqueue
        let looking : Pool n (Nat × Work R) := s.pool.toWorker k (.steal victim 0)
        have hstep : s.step (.look k victim) = some { s with pool := looking } := by
          simp only [Executor.step, hown, Pool.workerStep, hpop, Option.map_some, looking]
        have hstep' : ({ s with pool := looking } : Executor n R).step (.look k victim) =
            some { s with pool := looking.got k victim (some first) deque .idle } := by
          have hsteal' : (looking.deques victim).stealHead = some (some first, deque) := hsteal
          simp only [Executor.step, looking, toWorker_self, Pool.workerStep, hself, if_neg hne]
          simp only [looking] at hsteal'
          rw [hsteal']
          rfl
        refine ⟨[(.look k victim, _), (.look k victim, _)], ⟨hstep, hstep', trivial⟩,
          ⟨h.outside_of_none _, outside_look _ _ _, trivial⟩, ?_⟩
        exact h.takes ⟨_, rfl⟩ hothers

theorem Quiet.follows [NeZero n] (h : Quiet s a) {act : ForkJoin.Act n}
    (ha : a.step act = some a') : Follows s a' := by
  cases act with
  | go x =>
    simp only [ForkJoin.Pool.step] at ha
    split at ha
    case h_1 => cases ha
    case h_2 i r hx =>
      have hstep : s.step (.go x 0) = some (s.finish x i r) := by
        simp only [Executor.step, h.task, hx]
      exact Option.some.inj ha ▸ ⟨[(.go x 0, _)], ⟨hstep, trivial⟩,
        ⟨h.outside_of_none _, trivial⟩, h.finish x i r⟩
    case h_3 hx => exact Option.some.inj ha ▸ h.follows_submit hx
    case h_4 i handle rest hx =>
      obtain ⟨r, hbox, rfl⟩ := Option.map_eq_some_iff.mp ha
      have hstep : s.step (.go x 0) = some (s.goOn x (i, rest r)) := by
        simp only [Executor.step, h.task, hx, ← h.boxes, hbox, Option.map_some]
      exact ⟨[(.go x 0, _)], ⟨hstep, trivial⟩, ⟨h.outside_of_none _, trivial⟩, h.goOn x _⟩
  | take k victim =>
    simp only [ForkJoin.Pool.step] at ha
    split at ha
    case h_1 hk htaken => exact Option.some.inj ha ▸ h.follows_take hk htaken
    case h_2 => cases ha

/-- Every run of the other pool is one of the executor, in which no notification is lost. -/
theorem Quiet.follows_run [NeZero n] (h : Quiet s a)
    {run : List (ForkJoin.Act n × ForkJoin.Pool n R)}
    (hrun : IsRun (fun a act a' => a.step act = some a') a run) : Follows s (final a run) := by
  induction run generalizing s a with
  | nil => exact ⟨[], trivial, trivial, h⟩
  | cons p run ih =>
    obtain ⟨run₁, hrun₁, houtside₁, hquiet⟩ := h.follows hrun.1
    obtain ⟨run₂, hrun₂, houtside₂, hend⟩ := ih hquiet hrun.2
    exact ⟨run₁ ++ run₂, isRun_append.mpr ⟨hrun₁, hrun₂⟩,
      eachStep_append.mpr ⟨houtside₁, houtside₂⟩, by rwa [final_append]⟩

/-- Where the other pool is stuck with all workers busy, no thread of the executor can go on. -/
theorem Quiet.stuck [NeZero n] (h : Quiet s a) (hbusy : a.Busy) (hstuck : ∀ act, a.step act = none)
    (act : Act n) :
    s.step act = none := by
  cases act with
  | look k random =>
    obtain ⟨t, ht⟩ := Option.ne_none_iff_exists'.mp (hbusy k)
    have hphase : s.pool.workers k = .executes t := by rw [h.workers, ht]; rfl
    simp only [Executor.step, hphase]
  | go x w =>
    have hgo := hstuck (.go x)
    simp only [ForkJoin.Pool.step] at hgo
    simp only [Executor.step, h.task]
    rcases hx : a.threads x with _ | ⟨i, r | ⟨child, rest⟩ | ⟨handle, rest⟩⟩
    · rfl
    · rw [hx] at hgo
      cases hgo
    · rw [hx] at hgo
      cases hgo
    · simpa only [hx, ← h.boxes, Option.map_eq_none_iff] using hgo

/-! ## §7 Main -/

section

variable [NeZero n] [Inhabited R] {main : Work R} {r : R}

theorem not_delivers_of_le (huniform : main.Uniform) (hfirst : main.ForksFirst) (turn : Nat)
    (hforks : n ≤ main.forks) : ¬ (start n main turn).Delivers r := by
  intro hdelivers
  obtain ⟨run, hrun, hstuck, hopen, hbusy⟩ := ForkJoin.Pool.exists_stall huniform hfirst turn hforks
  obtain ⟨run', hrun', houtside, hquiet⟩ := (quiet_start main turn).follows_run hrun
  have hopen' : (final (start n main turn) run').result = none := by
    rw [Executor.result, ← hquiet.boxes]
    exact hopen
  obtain ⟨act, s', hs, -⟩ := (hdelivers run' hrun' houtside).goes hopen'
  rw [hquiet.stuck hbusy hstuck act] at hs
  cases hs

/-- The caller gets its result exactly when fewer tasks wait than there are workers. -/
theorem delivers_iff (hmeans : main.Means (fun _ => none) r) (huniform : main.Uniform)
    (habove : main.Above 1) (hfirst : main.forks = 0 ∨ main.ForksFirst) (turn : Nat) :
    (start n main turn).Delivers r ↔ main.forks < n := by
  refine ⟨fun hdelivers => ?_, delivers_of_lt hmeans huniform habove turn⟩
  rcases hfirst with hzero | hfirst
  · exact hzero ▸ NeZero.pos n
  · by_contra hle
    exact not_delivers_of_le huniform hfirst turn (by omega) hdelivers

end

end Executor

end Fol.Workers

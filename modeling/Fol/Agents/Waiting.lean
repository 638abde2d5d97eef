/-
Fol.Agents.Waiting — `deref` of promises and futures, `await` of agents, as threads that wait on a
monitor.

`deliver`, the end of a future's thread, `future-cancel` and a worker that stops each notify one
thread (`condition-notify`), however many wait.
-/
import Fol.Lib.Monitors
import Fol.Agents.Agent

namespace Fol.Agents

open Fol.Lib (Monitor IsRun Always EachStep)
open Fol.Lib.Monitor (NoneLeft Reached)
open Fol.Stm (Hooks)

/-! ## §1 Promises -/

/-- The slots of a `<promise>`. -/
structure Promise (V : Type) where
  delivered : Bool := false
  value : Option V := none

/-- `deliver`. -/
def Promise.deliver {V : Type} (p : Promise V) (val : V) : Promise V :=
  if p.delivered then p else { delivered := true, value := some val }

/-- `deref` waits until the promise is delivered. -/
def promises (V : Type) : Monitor (Promise V) V where
  step p val := some (p.deliver val)
  notifies p _ := !p.delivered
  isOpen p := p.delivered

/-! ## §2 Futures -/

inductive Status where
  | pending
  | done
  | failed
  | cancelled
deriving DecidableEq

/-- The slots of a `<future>`, and whether its thread is still to end. -/
structure Future (V E : Type) where
  state : Status := .pending
  value : Option (Except E V) := none
  running : Bool := true

/-- The end of the future's thread, with the value of the function or its error. -/
def Future.complete {V E : Type} (f : Future V E) (result : Except E V) : Future V E :=
  if f.state = .cancelled then { f with running := false }
  else
    match result with
    | .ok v => { state := .done, value := some (.ok v), running := false }
    | .error e => { state := .failed, value := some (.error e), running := false }

/-- `future-cancel`, up to the call of `halt`. -/
def Future.cancel {V E : Type} (f : Future V E) : Future V E :=
  if f.state = .pending then { f with state := .cancelled } else f

/-- `future-cancel` notifies unless `halt` exits by an error, as it does for the thread that calls
it. -/
inductive FutureAct (V E : Type) where
  | complete (result : Except E V)
  | cancel (halts : Bool)

/-- `deref` waits while the future is pending. -/
def futures (V E : Type) : Monitor (Future V E) (FutureAct V E) where
  step f
    | .complete result => if f.running then some (f.complete result) else none
    | .cancel _ => some f.cancel
  notifies f
    | .complete _ => true
    | .cancel halts => f.state = .pending && halts
  isOpen f := f.state ≠ .pending

/-! ## §3 Agents -/

/-- The worker finds nothing to do, or an error that stops the agent. -/
def stops {V E : Type} (s : State V E) : Act V E → Bool
  | .work i =>
    match s.workers[i]? with
    | some .looking => s.agent.stopped || s.agent.queue.isEmpty
    | _ => false
  | _ => false

/-- `await` waits until the agent is idle. -/
def agents {V E : Type} (hooks : Hooks V E) : Monitor (State V E) (Act V E) where
  step := step hooks
  notifies := stops
  isOpen s := s.agent.idle

section Idle

variable {V E : Type} {hooks : Hooks V E}

theorem idle_of_ensureRunning {s : State V E} (h : (ensureRunning s).agent.idle = true) :
    s.agent.idle = true := by
  unfold ensureRunning at h
  split at h
  · exact h
  · cases h

theorem idle_of_restart {s : State V E} {v : V} {clearActions : Bool}
    (h : (restart s v clearActions).agent.idle = true) : s.agent.idle = true := by
  unfold restart at h
  cases clearActions <;> simp only [Bool.false_eq_true, if_false, if_true] at h <;> split at h
  · exact h
  · have hs := idle_of_ensureRunning h
    exact hs
  · exact h
  · have hs := idle_of_ensureRunning h
    exact hs

/-- A worker that goes on leaves the agent as idle as it was. -/
theorem idle_work {s : State V E} {i : Nat} {p : Phase V E} (hp : s.workers[i]? = some p)
    (hstops : stops s (.work i) = false) : (work hooks s i p).agent.idle = s.agent.idle := by
  cases p with
  | looking =>
    simp only [stops, hp, Bool.or_eq_false_iff] at hstops
    rw [work, look, if_neg (by simp [hstops.1])]
    cases hq : s.agent.queue with
    | nil => simp [hq] at hstops
    | cons a rest => cases hf : a.fn <;> simp [hf, State.phase]
  | holding a =>
    rw [work, apply]
    cases perform hooks a s.agent.value <;> rfl
  | finishing a old new =>
    rw [work, store]
    cases Stm.notifyWatches hooks s.agent.value new <;> rfl
  | failing a old e => rfl

/-- Only a worker that stops makes the agent idle. -/
theorem idle_of_not_stops {s s' : State V E} {act : Act V E} (h : step hooks s act = some s')
    (hstops : stops s act = false) (hidle : s'.agent.idle = true) : s.agent.idle = true := by
  cases act with
  | send fn =>
    cases h
    unfold send at hidle
    split at hidle
    · exact hidle
    · have hs := idle_of_ensureRunning hidle
      exact hs
  | restart v clearActions =>
    cases h
    exact idle_of_restart hidle
  | setErrorMode mode =>
    cases h
    exact hidle
  | work i =>
    obtain ⟨p, hp, rfl⟩ := Option.map_eq_some_iff.mp h
    rw [idle_work hp hstops] at hidle
    exact hidle

end Idle

/-! ## §4 Waiters -/

section Waiters

variable {T V E : Type} [DecidableEq T]

/-- At most one thread waits. -/
def OneWaits {σ : Type} (s : Monitor.State T σ) : Prop := ∀ t u, s.Waits t → s.Waits u → t = u

omit [DecidableEq T] in
theorem promises_reached {s : Monitor.State T (Promise V)} {l : Monitor.Label T V}
    (h : OneWaits s) :
    Reached (promises V) s l := by
  cases l with
  | act val =>
    intro hclosed _
    have hnotifies : (promises V).notifies s.inner val = true := by
      simpa [promises] using hclosed
    rw [if_pos hnotifies]
    exact h
  | _ => trivial

omit [DecidableEq T] in
/-- A cancellation that fails at `halt` reaches nobody. -/
theorem futures_reached {s : Monitor.State T (Future V E)} {l : Monitor.Label T (FutureAct V E)}
    (h : OneWaits s) (hcancel : l = .act (.cancel false) → ∀ t, ¬ s.Waits t) :
    Reached (futures V E) s l := by
  cases l with
  | act a =>
    intro hclosed _
    have hpending : s.inner.state = .pending := by simpa [futures] using hclosed
    cases a with
    | complete result => exact h
    | cancel halts =>
      cases halts with
      | true =>
        rw [if_pos (by simp [futures, hpending])]
        exact h
      | false =>
        rw [if_neg (by simp [futures])]
        exact hcancel rfl
  | _ => trivial

omit [DecidableEq T] in
theorem agents_reached {hooks : Hooks V E} {s : Monitor.State T (State V E)}
    {l : Monitor.Label T (Act V E)} (h : OneWaits s) : Reached (agents hooks) s l := by
  cases l with
  | act a =>
    rintro hclosed ⟨s', hstep, hopen⟩
    cases hstops : stops s.inner a with
    | true =>
      rw [if_pos (show (agents hooks).notifies s.inner a = true from hstops)]
      exact h
    | false =>
      have hidle := idle_of_not_stops hstep hstops hopen
      rw [show (agents hooks).isOpen s.inner = s.inner.agent.idle from rfl, hidle] at hclosed
      cases hclosed
  | _ => trivial

/-- Whether a thread is left waiting for a promise, a future or an agent is decided by the sections
that end the wait: they reach one thread by their notification. -/
theorem noneLeft_decided (T V E : Type) [DecidableEq T] (hooks : Hooks V E) (init : V)
    (mode : ErrorMode) :
    Monitor.Decided (promises V) ({ inner := {} } : Monitor.State T (Promise V)) ∧
      Monitor.Decided (futures V E) ({ inner := {} } : Monitor.State T (Future V E)) ∧
      Monitor.Decided (agents hooks)
      ({ inner := { agent := { value := init, mode } } } : Monitor.State T (State V E)) :=
  ⟨Monitor.decided fun _ => rfl, Monitor.decided fun _ => rfl, Monitor.decided fun _ => rfl⟩

/-- One thread waits, `deliver` notifies it, and it leaves. -/
theorem noneLeft_decided_one : ∃ run, run.map (·.1) = [.enter true false, .act 7, .resume true] ∧
    IsRun (Monitor.Step (promises Nat)) ({ inner := {} } : Monitor.State Bool (Promise Nat)) run ∧
    Always (NoneLeft (promises Nat)) { inner := {} } run := by
  let s₀ : Monitor.State Bool (Promise Nat) := { inner := {} }
  let s₁ := s₀.set true (.waiting false)
  let s₂ := ({ s₁ with inner := s₁.inner.deliver 7 } : Monitor.State Bool (Promise Nat)).set true
    (.notified false)
  let s₃ := s₂.set true .away
  have hrun : IsRun (Monitor.Step (promises Nat)) s₀ [(.enter true false, s₁), (.act 7, s₂),
    (.resume true, s₃)] :=
    ⟨.wait rfl rfl, .notify rfl rfl rfl, .leave (.inl rfl) (.inl rfl), trivial⟩
  refine ⟨_, rfl, hrun, (noneLeft_decided Bool Nat Empty {} 0 .fail).1.enough _ hrun
    ⟨trivial, promises_reached ?_, trivial, trivial⟩⟩
  rintro t u ⟨_, ht⟩ ⟨_, hu⟩
  cases t with
  | false => cases ht
  | true =>
    cases u with
    | false => cases hu
    | true => rfl

/-- Two threads wait, `deliver` notifies one of them, and the other is left. -/
theorem not_noneLeft :
    ∃ run, run.map (·.1) = [.enter true false, .enter false false, .act 7, .resume true] ∧
    IsRun (Monitor.Step (promises Nat)) ({ inner := {} } : Monitor.State Bool (Promise Nat)) run ∧
    ¬ Always (NoneLeft (promises Nat)) { inner := {} } run := by
  let s₀ : Monitor.State Bool (Promise Nat) := { inner := {} }
  let s₁ := s₀.set true (.waiting false)
  let s₂ := s₁.set false (.waiting false)
  let s₃ := ({ s₂ with inner := s₂.inner.deliver 7 } : Monitor.State Bool (Promise Nat)).set true
    (.notified false)
  let s₄ := s₃.set true .away
  have hrun : IsRun (Monitor.Step (promises Nat)) s₀
      [(.enter true false, s₁), (.enter false false, s₂), (.act 7, s₃), (.resume true, s₄)] :=
    ⟨.wait rfl rfl, .wait rfl rfl, .notify rfl rfl rfl, .leave (.inl rfl) (.inl rfl), trivial⟩
  refine ⟨_, rfl, hrun, fun h => ?_⟩
  obtain ⟨t, _, ht⟩ := h.2.2.2.2 rfl ⟨false, false, rfl⟩
  cases t <;> cases ht

/-- While at most one thread waits, and none when a cancellation fails at `halt`, nobody is left
behind. -/
theorem noneLeft_of_oneWaits (T V E : Type) [DecidableEq T] (hooks : Hooks V E) (init : V)
    (mode : ErrorMode) :
    (∀ run, IsRun (Monitor.Step (promises V)) ({ inner := {} } : Monitor.State T (Promise V)) run →
      EachStep (fun s _ => OneWaits s) { inner := {} } run →
      Always (NoneLeft (promises V)) { inner := {} } run) ∧
    (∀ run, IsRun (Monitor.Step (futures V E)) ({ inner := {} } : Monitor.State T (Future V E))
      run →
      EachStep (fun s l => OneWaits s ∧ (l = .act (.cancel false) → ∀ t, ¬ s.Waits t))
      { inner := {} } run →
      Always (NoneLeft (futures V E)) { inner := {} } run) ∧
    (∀ s : Monitor.State T (State V E), s = { inner := { agent := { value := init, mode } } } →
      ∀ run, IsRun (Monitor.Step (agents hooks)) s run → EachStep (fun s _ => OneWaits s) s run →
      Always (NoneLeft (agents hooks)) s run) := by
  refine ⟨fun run hrun hone => ?_, fun run hrun hone => ?_, fun s hs run hrun hone => ?_⟩
  · exact Monitor.noneLeft_always (fun _ => rfl) hrun (hone.imp fun s l h => promises_reached h)
  · exact Monitor.noneLeft_always (fun _ => rfl) hrun
      (hone.imp fun s l h => futures_reached h.1 h.2)
  · exact Monitor.noneLeft_always (fun _ => hs ▸ rfl) hrun (hone.imp fun s l h => agents_reached h)

/-- A thread waits for a future, the future's thread ends, and the other leaves. -/
theorem noneLeft_of_oneWaits_one : ∃ run,
    run.map (·.1) = [.enter true false, .act (.complete (.ok 7)), .resume true] ∧
    IsRun (Monitor.Step (futures Nat Empty))
    ({ inner := {} } : Monitor.State Bool (Future Nat Empty)) run ∧
    Always (NoneLeft (futures Nat Empty)) { inner := {} } run := by
  let s₀ : Monitor.State Bool (Future Nat Empty) := { inner := {} }
  let s₁ := s₀.set true (.waiting false)
  let s₂ := ({ s₁ with inner := s₁.inner.complete (.ok 7) } : Monitor.State Bool
    (Future Nat Empty)).set true
    (.notified false)
  let s₃ := s₂.set true .away
  have hrun : IsRun (Monitor.Step (futures Nat Empty)) s₀
      [(.enter true false, s₁), (.act (.complete (.ok 7)), s₂), (.resume true, s₃)] :=
    ⟨.wait rfl rfl, .notify rfl rfl rfl, .leave (.inl rfl) (.inl rfl), trivial⟩
  have hfalse (s : Monitor.State Bool (Future Nat Empty)) (hs : s.waiter false = .away) :
    OneWaits s := by
    rintro t u ⟨_, ht⟩ ⟨_, hu⟩
    cases t <;> cases u <;> simp_all
  exact ⟨_, rfl, hrun, (noneLeft_of_oneWaits Bool Nat Empty {} 0 .fail).2.1 _ hrun
    ⟨⟨hfalse _ rfl, fun h => by cases h⟩, ⟨hfalse _ rfl, fun h => by cases h⟩,
      ⟨hfalse _ rfl, fun h => by cases h⟩, trivial⟩⟩

end Waiters

end Fol.Agents

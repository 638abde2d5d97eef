/-
Fol.Agents.Agent — agents of `mutable.lisp`: a queue of actions and the thread that works on it.

`send`, `restart-agent` and `set-error-mode!` run under the agent's lock. A worker takes the lock to
look at the queue, calls the action without it, and takes it again to store the value or to record
the error.
-/
import Fol.Lib.Runs
import Fol.Stm.Transaction

namespace Fol.Agents

open Fol.Stm (Hooks Failure checkValue notifyWatches)

/-! ## §1 Agents -/

inductive ErrorMode where
  | fail
  | continues
deriving DecidableEq

/-- What `send` puts into the queue, numbered in the order of the sends. The function may be
`nil`. -/
structure Action (V E : Type) where
  id : Nat
  fn : Option (V → Except E V)

/-- The slots of an `<agent>` that its operations change. -/
structure Agent (V E : Type) where
  value : V
  queue : List (Action V E) := []
  active : Bool := false
  error : Option (Failure V E) := none
  mode : ErrorMode := .fail
  idle : Bool := true

/-- Where a worker is: before it looks at the queue, with an action it has dequeued, with the value
the action returned for another one, with its error. -/
inductive Phase (V E : Type) where
  | looking
  | holding (a : Action V E)
  | finishing (a : Action V E) (old new : V)
  | failing (a : Action V E) (old : V) (e : Failure V E)

/-- What has happened to an agent. -/
inductive Event (V E : Type) where
  | accepted (a : Action V E)
  | taken (a : Action V E)
  | applied (a : Action V E) (v : V)
  | stored (a : Action V E) (v : V)
  | finished (a : Action V E)
  | restarted (v : V)
  | cleared (as : List (Action V E))

abbrev Log (V E : Type) := List (Event V E)

structure State (V E : Type) where
  agent : Agent V E
  workers : List (Phase V E) := []
  sent : Nat := 0
  log : Log V E := []

section

variable {V E : Type}

/-! ## §2 Steps -/

section

variable (s : State V E)

/-- In an error state that stops the agent. -/
def Agent.stopped (ag : Agent V E) : Bool := ag.mode = .fail && ag.error.isSome

/-- `%ensure-agent-running`. -/
def ensureRunning : State V E :=
  if s.agent.active then s
  else { s with
    agent := { s.agent with idle := false, active := true }
    workers := s.workers ++ [.looking] }

/-- `send`, and so `send-off`. A stopped agent refuses with an error. -/
def send (fn : Option (V → Except E V)) : State V E :=
  if s.agent.stopped then s
  else
    let a : Action V E := { id := s.sent, fn }
    ensureRunning { s with
      agent := { s.agent with queue := s.agent.queue ++ [a] }
      sent := s.sent + 1
      log := s.log ++ [.accepted a] }

/-- `restart-agent`. -/
def restart (v : V) (clearActions : Bool) : State V E :=
  let s := { s with agent := { s.agent with error := none, value := v }, log := s.log ++
    [.restarted v] }
  let s := if clearActions then
      { s with agent := { s.agent with queue := [] }, log := s.log ++ [.cleared s.agent.queue] }
    else s
  if s.agent.queue.isEmpty then s else ensureRunning s

/-- `set-error-mode!`. -/
def setErrorMode (mode : ErrorMode) : State V E := { s with agent := { s.agent with mode } }

/-- A worker goes on to another phase. -/
def State.phase (i : Nat) (p : Phase V E) : State V E := { s with workers := s.workers.set i p }

/-- The worker ends: the agent is idle. -/
def goIdle (i : Nat) : State V E := { s with
  agent := { s.agent with idle := true, active := false }
  workers := s.workers.eraseIdx i }

/-- The first section of `%agent-worker` under the lock. An action that is `nil` is not called. -/
def look (i : Nat) : State V E :=
  if s.agent.stopped then goIdle s i
  else
    match s.agent.queue with
    | [] => goIdle s i
    | a :: rest =>
      let s := { s with agent := { s.agent with queue := rest } }
      match a.fn with
      | none => { s with log := s.log ++ [.taken a, .finished a] }
      | some _ => { s.phase i (.holding a) with log := s.log ++ [.taken a] }

/-- The action is called and the validator is asked. -/
def perform (hooks : Hooks V E) (a : Action V E) (v : V) : Except (Failure V E) V :=
  match a.fn with
  | none => .ok v
  | some f =>
    match f v with
    | .error e => .error (.signalled e)
    | .ok new =>
      match checkValue hooks new with
      | .error e => .error e
      | .ok () => .ok new

/-- The action is called with the present value, without the lock. -/
def apply (hooks : Hooks V E) (i : Nat) (a : Action V E) : State V E :=
  let v := s.agent.value
  let s : State V E := { s with log := s.log ++ [.applied a v] }
  match perform hooks a v with
  | .ok new => s.phase i (.finishing a v new)
  | .error e => s.phase i (.failing a v e)

/-- The second section under the lock. A watch that signals an error leaves the value stored. -/
def store (hooks : Hooks V E) (i : Nat) (a : Action V E) (old new : V) : State V E :=
  match notifyWatches hooks s.agent.value new with
  | .ok () => { s.phase i .looking with
      agent := { s.agent with value := new }, log := s.log ++ [.stored a new, .finished a] }
  | .error e => { s.phase i (.failing a old (.signalled e)) with
      agent := { s.agent with value := new }, log := s.log ++ [.stored a new] }

/-- The error is recorded; the error handler's own errors are ignored. -/
def record (i : Nat) (a : Action V E) (e : Failure V E) : State V E := { s.phase i .looking with
  agent := { s.agent with error := some e }, log := s.log ++ [.finished a] }

end

/-- What happens next: a call of an operation, or a step of a worker. -/
inductive Act (V E : Type) where
  | send (fn : Option (V → Except E V))
  | restart (v : V) (clearActions : Bool)
  | setErrorMode (mode : ErrorMode)
  | work (i : Nat)

/-- A step of the worker. -/
def work (hooks : Hooks V E) (s : State V E) (i : Nat) : Phase V E → State V E
  | .looking => look s i
  | .holding a => apply s hooks i a
  | .finishing a old new => store s hooks i a old new
  | .failing a _ e => record s i a e

def step (hooks : Hooks V E) (s : State V E) : Act V E → Option (State V E)
  | .send fn => some (send s fn)
  | .restart v clearActions => some (restart s v clearActions)
  | .setErrorMode mode => some (setErrorMode s mode)
  | .work i => (s.workers[i]?).map (work hooks s i)

/-- The steps as a relation, for runs. -/
def Steps (hooks : Hooks V E) (s : State V E) (act : Act V E) (s' : State V E) : Prop :=
  step hooks s act = some s'

/-! ## §3 Serial -/

/-- An agent that works on one action after the other: its value, its queue, and the action it works
on, with the value the action was applied to. -/
structure Serial (V E : Type) where
  value : V
  queue : List (Action V E) := []
  current : Option (Action V E × Option V) := none

/-- What each event does to it. -/
inductive Serial.Step (hooks : Hooks V E) : Serial V E → Event V E → Serial V E → Prop where
  | accepted {v q c a} : Step hooks ⟨v, q, c⟩ (.accepted a) ⟨v, q ++ [a], c⟩
  | taken {v q a} : Step hooks ⟨v, a :: q, none⟩ (.taken a) ⟨v, q, some (a, none)⟩
  | skipped {v q a} : a.fn = none → Step hooks ⟨v, q, some (a, none)⟩ (.finished a) ⟨v, q, none⟩
  | applied {v q a} : Step hooks ⟨v, q, some (a, none)⟩ (.applied a v) ⟨v, q, some (a, some v)⟩
  | stored {v q a u new} : perform hooks a u = .ok new →
    Step hooks ⟨v, q, some (a, some u)⟩ (.stored a new) ⟨new, q, some (a, some u)⟩
  | finished {v q a u} : Step hooks ⟨v, q, some (a, some u)⟩ (.finished a) ⟨v, q, none⟩
  | restarted {v q c w} : Step hooks ⟨v, q, c⟩ (.restarted w) ⟨w, q, c⟩
  | cleared {v q c} : Step hooks ⟨v, q, c⟩ (.cleared q) ⟨v, [], c⟩

/-- A log from an agent with this value and no actions. -/
inductive Serial.Run (hooks : Hooks V E) (init : V) : Log V E → Serial V E → Prop where
  | start : Run hooks init [] { value := init }
  | next {log t e t'} : Run hooks init log t → Serial.Step hooks t e t' →
      Run hooks init (log ++ [e]) t'

end

/-- The actions accepted, called, and discarded, and the value left by the last step completed. -/
def accepted {V E : Type} (log : Log V E) : List (Action V E) :=
  log.filterMap fun | .accepted a => some a | _ => none

def taken {V E : Type} (log : Log V E) : List (Action V E) :=
  log.filterMap fun | .taken a => some a | _ => none

def applied {V E : Type} (log : Log V E) : List (Action V E) :=
  log.filterMap fun | .applied a _ => some a | _ => none

def cleared {V E : Type} (log : Log V E) : List (Action V E) :=
  log.flatMap fun | .cleared as => as | _ => []

def leaves {V E : Type} : V → Event V E → V
  | _, .stored _ v => v
  | _, .restarted v => v
  | v, _ => v

def leftBy {V E : Type} (init : V) (log : Log V E) : V := log.foldl leaves init

end Fol.Agents

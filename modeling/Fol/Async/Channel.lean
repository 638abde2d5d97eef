/-
Fol.Async.Channel — channels of `core-async.lisp`: a monitor with a buffer, two lists of waiting
calls and two condition variables.

Everything between taking the lock, a wait and the release is one step. A call that waits stays in
`waiting`; it goes on when it has been notified, or at any time (a spurious wake-up). Each value
carries the number of the put it comes from, so that values can be told apart; nothing is decided
by that number.
-/
import Fol.Lib.Runs
import Mathlib.Logic.Function.Basic

namespace Fol.Async

/-! ## §1 Buffers -/

/-- `fixed-buf`, `dropping-buf`, `sliding-buf`. -/
inductive Policy where
  | fixed
  | dropping
  | sliding
deriving DecidableEq

structure Buffer (α : Type) where
  policy : Policy
  capacity : Int
  data : List α := []

namespace Buffer

variable {α : Type} (b : Buffer α)

/-- `%buf-full-p`: only a fixed buffer makes a put wait. -/
def fullP : Bool := b.policy = .fixed && b.capacity ≤ b.data.length

/-- `%buf-add!`. A sliding buffer without room for one value has nothing to evict: an error. -/
def addBang (x : α) : Option (Buffer α) :=
  match b.policy with
  | .fixed => some { b with data := b.data ++ [x] }
  | .dropping => if b.data.length < b.capacity then some { b with data := b.data ++ [x] }
      else some b
  | .sliding =>
    if b.capacity ≤ b.data.length then
      match b.data with
      | [] => none
      | _ :: rest => some { b with data := rest ++ [x] }
    else some { b with data := b.data ++ [x] }

def addAll : Buffer α → List α → Option (Buffer α)
  | b, [] => some b
  | b, x :: xs => (b.addBang x).bind (addAll · xs)

/-- `%buf-take!`, where the buffer is not empty. -/
def takeBang : Option (α × Buffer α) :=
  match b.data with
  | [] => none
  | x :: rest => some (x, { b with data := rest })

end Buffer

/-! ## §2 Transducers -/

/-- How a step of a transducer ends: with its result, with a reduced result, with an error. -/
inductive Ending where
  | result
  | reduced
  | raised
deriving DecidableEq

/-- What one step of a transducer gives. -/
structure Stepped (S V : Type) where
  state : S
  passed : List V := []
  ending : Ending := .result

/-- A transducer as a channel sees it, with an exception handler where there is one: what it passes
on for each value, and for the completion. `interrupted` is what an error of the buffer leaves, and
whether the handler hides it. -/
structure Transducer (S V : Type) where
  init : S
  step : S → V → Stepped S V
  completion : S → List V := fun _ => []
  interrupted : S → V → S × Bool := fun s _ => (s, false)

/-- `%ch-xf`: the step function of a channel, which keeps a state. -/
structure StepFn (S V : Type) where
  xf : Transducer S V
  state : S

/-- A value in a channel, with the number of its put. -/
structure Item (V : Type) where
  put : Nat
  value : V
deriving DecidableEq

section

variable {S V : Type}

/-- `%apply-xf-or-add`: the buffer and the step function afterwards, and whether there was no error.
That the result is reduced is not looked at. -/
def applyXfOrAdd (xf : Option (StepFn S V)) (b : Buffer (Item V)) (x : Item V) :
    Buffer (Item V) × Option (StepFn S V) × Bool :=
  match xf with
  | none =>
    match b.addBang x with
    | none => (b, none, false)
    | some b => (b, none, true)
  | some f =>
    let stepped := f.xf.step f.state x.value
    match b.addAll (stepped.passed.map (Item.mk x.put)) with
    | none =>
      let (state, hidden) := f.xf.interrupted f.state x.value
      (b, some { f with state }, hidden)
    | some b => (b, some { f with state := stepped.state }, stepped.ending ≠ .raised)

/-- What a step function passes on for a value; without one the value itself. -/
def passed (xf : Option (StepFn S V)) (v : V) : List V :=
  match xf with
  | none => [v]
  | some f => (f.xf.step f.state v).passed

def after (xf : Option (StepFn S V)) (v : V) : Option (StepFn S V) :=
  xf.map fun f => { f with state := (f.xf.step f.state v).state }

/-- What it passes on for one value after the other. -/
def passes : Option (StepFn S V) → List V → List V
  | _, [] => []
  | xf, v :: vs => passed xf v ++ passes (after xf v) vs

end

/-! ## §3 Channels -/

inductive Cv where
  | notEmpty
  | notFull
deriving DecidableEq

/-- A call that waits: a put for room in the buffer, a put for its value to be taken, a take for its
result cell. -/
inductive Call (V : Type) where
  | putting (x : Item V)
  | offering (x : Item V)
  | taking (cell : Nat)
deriving DecidableEq

def Call.on {V : Type} : Call V → Cv
  | .taking _ => .notEmpty
  | _ => .notFull

structure Waiter (V : Type) where
  call : Call V
  notified : Bool := false
deriving DecidableEq

/-- What has happened: the values that entered the channel or were handed over, those that left it
or were handed over, those returned by takes, and what each put returned. -/
structure History (V : Type) where
  accepted : List (Item V) := []
  handed : List (Item V) := []
  taken : List (Item V) := []
  puts : List (Item V × Bool) := []

/-- A channel, its done cells and result cells, and the calls that wait. A done cell is known by the
number of its put, a result cell by its own. -/
structure State (S V : Type) where
  buf : Option (Buffer (Item V)) := none
  xf : Option (StepFn S V) := none
  closed : Bool := false
  pendingPuts : List (Item V) := []
  pendingTakes : List Nat := []
  done : Nat → Bool := fun _ => false
  cells : Nat → Option (Item V) := fun _ => none
  nextCell : Nat := 0
  waiting : List (Waiter V) := []
  sent : Nat := 0
  history : History V := {}

section

variable {S V : Type} (s : State S V)

def State.calls : List (Call V) := s.waiting.map Waiter.call

/-- Waits on the condition variable and has not been notified. -/
def Waiter.asleep (cv : Cv) (t : Waiter V) : Bool := t.call.on = cv && !t.notified

/-- `%notify` wakes one of those that wait, whichever `w` says. -/
def wake (cv : Cv) (w : Nat) (waiting : List (Waiter V)) : List (Waiter V) :=
  let asleep := (List.range waiting.length).filter fun i => waiting[i]?.any (Waiter.asleep cv)
  match asleep[w % asleep.length]? with
  | none => waiting
  | some i => waiting.modify i fun t => { t with notified := true }

def notify (cv : Cv) (w : Nat) : State S V := { s with waiting := wake cv w s.waiting }

/-- `%broadcast`. -/
def broadcast (cv : Cv) (n : Nat) (ws : List Nat) : State S V :=
  (List.range n).foldl (fun s k => notify s cv (ws.getD k 0)) s

/-- A put returns. -/
def putReturns (x : Item V) (result : Bool) : State S V :=
  { s with history := { s.history with puts := s.history.puts ++ [(x, result)] } }

/-- A value enters the channel, or goes to a taker. -/
def accept (x : Item V) : State S V :=
  { s with history := { s.history with accepted := s.history.accepted ++ [x] } }

/-- A take returns a value of the channel. -/
def takeReturns (x : Item V) : State S V :=
  { s with history := { s.history with
      handed := s.history.handed ++ [x], taken := s.history.taken ++ [x] } }

/-- A value goes into the first result cell of the pending takes. -/
def handOff (cell : Nat) (rest : List Nat) (x : Item V) (w : Nat) : State S V :=
  notify { accept s x with
    pendingTakes := rest
    cells := Function.update s.cells cell (some x)
    history := { (accept s x).history with handed := s.history.handed ++ [x] } } .notEmpty w

/-- A call waits. -/
def waits (call : Call V) : State S V := { s with waiting := s.waiting ++ [{ call }] }

/-- A put without a buffer and without a taker: its value is pending. -/
def pend (x : Item V) : State S V :=
  waits { s with pendingPuts := s.pendingPuts ++ [x] } (.offering x)

/-- A take with nothing to take: it waits with a new result cell. -/
def register : State S V :=
  waits { s with pendingTakes := s.pendingTakes ++ [s.nextCell], nextCell := s.nextCell + 1 }
    (.taking s.nextCell)

/-! ## §4 Operations -/

/-- A value goes through the transducer into the buffer. An error leaves the call that added it. -/
def addTo (b : Buffer (Item V)) (x : Item V) (w : Nat) : State S V :=
  let (b, xf, fine) := applyXfOrAdd s.xf b x
  let s := accept { s with buf := some b, xf } x
  if fine then putReturns (notify s .notEmpty w) x true else s

/-- `>!!` on a buffered channel, from the loop that waits for room. -/
def putBuffered (b : Buffer (Item V)) (x : Item V) (w : Nat) : State S V :=
  if b.fullP then
    if s.closed then putReturns s x false
    else
      match s.pendingTakes with
      | cell :: rest => putReturns (handOff s cell rest x w) x true
      | [] => waits s (.putting x)
  else if s.closed then putReturns s x false
  else
    match s.pendingTakes with
    | cell :: rest => putReturns (handOff s cell rest x w) x true
    | [] => addTo s b x w

/-- `>!!` of a value with its number. -/
def putItem (x : Item V) (w : Nat) : State S V :=
  if s.closed then putReturns s x false
  else
    match s.buf with
    | some b => putBuffered s b x w
    | none =>
      match s.pendingTakes with
      | cell :: rest => putReturns (handOff s cell rest x w) x true
      | [] => pend s x

/-- `>!!`. -/
def put (v : V) (w : Nat) : State S V := putItem { s with sent := s.sent + 1 } ⟨s.sent, v⟩ w

/-- A put whose value is pending has been woken. -/
def offeringResumes (x : Item V) : State S V :=
  if s.done x.put || s.closed then putReturns s x (!s.closed) else waits s (.offering x)

/-- The oldest value has left the buffer: a pending put is admitted. `false` when that signals an
error. -/
def admitPut (b : Buffer (Item V)) (w : Nat) : State S V × Bool :=
  match s.pendingPuts with
  | [] => ({ s with buf := some b }, true)
  | x :: rest =>
    let (b, xf, fine) := applyXfOrAdd s.xf b x
    let s := accept { s with buf := some b, xf, pendingPuts := rest } x
    if fine then (notify { s with done := Function.update s.done x.put true } .notFull w, true)
      else (s, false)

/-- The value of the first pending put goes to a taker. -/
def takeFromPut (x : Item V) (rest : List (Item V)) (w : Nat) : State S V :=
  takeReturns (notify { accept s x with
    pendingPuts := rest
    done := Function.update s.done x.put true } .notFull w) x

/-- `<!!`, from the top of its loop. -/
def take (w : Nat) : State S V :=
  match s.buf.bind Buffer.takeBang with
  | some (x, b) =>
    match admitPut s b w with
    | (s, false) => s
    | (s, true) => takeReturns (notify s .notFull w) x
  | none =>
    match s.pendingPuts with
    | x :: rest => takeFromPut s x rest w
    | [] =>
      if s.closed then s else register s

/-- A take has been woken: its cell has a value, or it starts again. -/
def takingResumes (cell : Nat) (w : Nat) : State S V :=
  match s.cells cell with
  | some x => { s with history := { s.history with taken := s.history.taken ++ [x] } }
  | none => take s w

/-- `offer!` of a value with its number. -/
def offerItem (x : Item V) (w : Nat) : State S V :=
  if s.closed then putReturns s x false
  else
    match s.pendingTakes with
    | cell :: rest => putReturns (handOff s cell rest x w) x true
    | [] =>
      match s.buf with
      | some b => if b.fullP then putReturns s x false else addTo s b x w
      | none => putReturns s x false

/-- `offer!`. -/
def offerBang (v : V) (w : Nat) : State S V := offerItem { s with sent := s.sent + 1 } ⟨s.sent, v⟩ w

/-- `poll!`: no notification when a value leaves the buffer. -/
def pollBang (w : Nat) : State S V :=
  match s.buf.bind Buffer.takeBang with
  | some (x, b) =>
    match admitPut s b w with
    | (s, false) => s
    | (s, true) => takeReturns s x
  | none =>
    match s.pendingPuts with
    | x :: rest => takeFromPut s x rest w
    | [] => s

/-- `close!`. -/
def closeBang (ws : List Nat) : State S V :=
  if s.closed then s
  else
    let s := { s with closed := true }
    broadcast (broadcast s .notEmpty s.pendingTakes.length ws) .notFull s.pendingPuts.length
      (ws.drop s.pendingTakes.length)

/-! ## §5 Steps -/

/-- An operation is called, or a call that waits goes on. `w` says which waiter a notification
wakes. -/
inductive Act (V : Type) where
  | put (v : V) (w : Nat)
  | take (w : Nat)
  | offer (v : V) (w : Nat)
  | poll (w : Nat)
  | close (ws : List Nat)
  | resume (i : Nat) (w : Nat)
deriving DecidableEq

def resume (w : Nat) : Call V → State S V
  | .putting x =>
    match s.buf with
    | some b => putBuffered s b x w
    | none => s
  | .offering x => offeringResumes s x
  | .taking cell => takingResumes s cell w

def step : Act V → Option (State S V)
  | .put v w => some (put s v w)
  | .take w => some (take s w)
  | .offer v w => some (offerBang s v w)
  | .poll w => some (pollBang s w)
  | .close ws => some (closeBang s ws)
  | .resume i w => s.waiting[i]?.map fun t =>
      resume { s with waiting := s.waiting.eraseIdx i } w t.call

end

/-- `chan`, with no buffer or one of a policy and a capacity. -/
def chan {S V : Type} (buf : Option (Policy × Int)) (xf : Option (Transducer S V)) : State S V where
  buf := buf.map fun p => { policy := p.1, capacity := p.2 }
  xf := xf.map fun xf => ⟨xf, xf.init⟩

def Act.closes {V : Type} : Act V → Bool
  | .close _ => true
  | _ => false

/-- The steps as a relation, for runs. -/
def Steps {S V : Type} (s : State S V) (act : Act V) (s' : State S V) : Prop := step s act = some s'

end Fol.Async

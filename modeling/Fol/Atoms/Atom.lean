/-
Fol.Atoms.Atom — atoms of `mutable.lisp` and `mutable-functions.lisp` under several threads.

Every read, write and compare-and-swap of the value is one step, and so is every call of a watch.
What a thread computes from a value it has read belongs to the step of the read. Any thread may
begin any update whenever it is not in one.
-/
import Fol.Lib.Runs
import Fol.Stm.Transaction

namespace Fol.Atoms

open Fol.Stm (Hooks Failure Fn checkValue)

/-! ## §1 Atoms -/

/-- An update of an atom. -/
inductive Call (V E : Type) where
  | swap (f : Fn V E)
  | reset (new : V)
  | compareAndSet (old new : V)
  | swapVals (f : Fn V E)
  | resetVals (new : V)

/-- What an update returns, or the error it exits by. -/
inductive Answer (V E : Type) where
  | value (v : V)
  | flag (b : Bool)
  | pair (old new : V)
  | failed (e : Failure V E)
deriving DecidableEq

/-- Where a thread is: outside of an update, at the beginning of one or of its loop, before the
compare-and-swap, before the plain write of `reset!`, before the call of watch `i`. -/
inductive Phase (V E : Type) where
  | idle
  | started (c : Call V E)
  | swapping (c : Call V E) (old new : V)
  | writing (c : Call V E) (old new : V)
  | notifying (c : Call V E) (old new : V) (i : Nat)

/-- What happens to the atom: `updated` has the value that the slot had. -/
inductive Event (V E : Type) where
  | called (c : Call V E)
  | updated (old new : V)
  | told (i : Nat) (old new : V)
  | answered (a : Answer V E)

structure State (T V E : Type) where
  value : V
  phase : T → Phase V E := fun _ => .idle
  log : List (T × Event V E) := []

inductive Label (T V E : Type) where
  | call (t : T) (c : Call V E)
  | advance (t : T)

/-! ## §2 Steps -/

section Steps

variable {T V E : Type} [DecidableEq T]

/-- The thread goes on to another phase. -/
def State.goes (s : State T V E) (t : T) (p : Phase V E) (es : List (Event V E)) : State T V E :=
  { s with phase := Function.update s.phase t p, log := s.log ++ es.map (t, ·) }

variable [DecidableEq V] (hooks : Hooks V E)

/-- The function of a `swap!`, called with the value. -/
def applyFn (f : Fn V E) (v : V) : Except (Failure V E) V :=
  match f v with
  | .error e => .error (.signalled e)
  | .ok new => .ok new

/-- Up to the write: the functions are called, the validator too. `compare-and-set!` reads nothing
before. -/
def prepare (value : V) (c : Call V E) : Except (Failure V E) (Phase V E) :=
  match c with
  | .swap f => do
    let new ← applyFn f value
    checkValue hooks new
    return .swapping c value new
  | .reset new => do
    checkValue hooks new
    return .writing c value new
  | .compareAndSet old new => do
    checkValue hooks new
    return .swapping c old new
  | .swapVals f => do
    let new ← applyFn f value
    checkValue hooks new
    return .swapping c value new
  | .resetVals new => do
    checkValue hooks new
    return .swapping c value new

/-- What a successful update returns. -/
def answer (c : Call V E) (old new : V) : Answer V E :=
  match c with
  | .swap _ => .value new
  | .reset _ => .value new
  | .compareAndSet _ _ => .flag true
  | .swapVals _ => .pair old new
  | .resetVals _ => .pair old new

/-- After a compare-and-swap that finds another value: `compare-and-set!` returns, the others try
again. -/
def retry (s : State T V E) (t : T) (c : Call V E) : State T V E :=
  match c with
  | .compareAndSet _ _ => s.goes t .idle [.answered (.flag false)]
  | c => s.goes t (.started c) []

/-- The slot is written; the watches are next. -/
def store (s : State T V E) (t : T) (c : Call V E) (old new : V) : State T V E :=
  { s with value := new }.goes t (.notifying c old new 0) [.updated s.value new]

/-- The next call in the loop of `notify-watches`, or the return from it. -/
def notify (s : State T V E) (t : T) (c : Call V E) (old new : V) (i : Nat) : State T V E :=
  match hooks.watches[i]? with
  | none => s.goes t .idle [.answered (answer c old new)]
  | some watch =>
    match watch old new with
    | .error e => s.goes t .idle [.told i old new, .answered (.failed (.signalled e))]
    | .ok () => s.goes t (.notifying c old new (i + 1)) [.told i old new]

/-- The next step of a thread that is in an update. -/
def advance (s : State T V E) (t : T) : Option (State T V E) :=
  match s.phase t with
  | .idle => none
  | .started c =>
    match prepare hooks s.value c with
    | .error e => some (s.goes t .idle [.answered (.failed e)])
    | .ok p => some (s.goes t p [])
  | .swapping c old new => some (if s.value = old then store s t c old new else retry s t c)
  | .writing c old new => some (store s t c old new)
  | .notifying c old new i => some (notify hooks s t c old new i)

def step (s : State T V E) : Label T V E → Option (State T V E)
  | .call t c =>
    match s.phase t with
    | .idle => some (s.goes t (.started c) [.called c])
    | _ => none
  | .advance t => advance hooks s t

end Steps

/-! ## §3 Orders -/

section Orders

variable {T V E : Type}

def Event.update? : Event V E → Option (V × V)
  | .updated old new => some (old, new)
  | _ => none

def Event.told? (i : Nat) : Event V E → Option (V × V)
  | .told j old new => if j = i then some (old, new) else none
  | _ => none

/-- The transitions of the slot, in their order. -/
def updates (es : List (Event V E)) : List (V × V) := es.filterMap Event.update?

/-- The pairs that watch `i` was called with. -/
def toldTo (i : Nat) (es : List (Event V E)) : List (V × V) := es.filterMap (Event.told? i)

/-- Of all threads. -/
def eventsOf [DecidableEq T] (t : T) (log : List (T × Event V E)) : List (Event V E) :=
  (log.filter (·.1 = t)).map (·.2)

/-- Every transition starts from the value that the one before it left. -/
def Chain : V → List (V × V) → V → Prop
  | v, [], v' => v = v'
  | v, (old, new) :: us, v' => v = old ∧ Chain new us v'

/-- The transition is what the update does to the value `old`. -/
def Applies (c : Call V E) (old new : V) : Prop :=
  match c with
  | .swap f => f old = .ok new
  | .reset v => new = v
  | .compareAndSet v v' => old = v ∧ new = v'
  | .swapVals f => f old = .ok new
  | .resetVals v => new = v

variable [DecidableEq V] (hooks : Hooks V E)

/-- An update that changes nothing: a function or the validator refuses, or `compare-and-set!` finds
another value. -/
inductive Refused : Call V E → Answer V E → Prop where
  | failed {c : Call V E} {v : V} {e : Failure V E} (h : prepare hooks v c = .error e) :
      Refused c (.failed e)
  | other (old new : V) : Refused (.compareAndSet old new) (.flag false)

/-- Where a thread is by what it has done. -/
inductive Stage (V E : Type) where
  | idle
  | called (c : Call V E)
  | updated (c : Call V E) (old new : V)

/-- A thread's events are those of one update after the other: the call, the transition it stands
for, the answer. An error of a watch ends an update as well. -/
inductive Explains : List (Event V E) → Stage V E → Prop where
  | nil : Explains [] .idle
  | called {es : List (Event V E)} (c : Call V E) (h : Explains es .idle) :
      Explains (es ++ [.called c]) (.called c)
  | updated {es : List (Event V E)} {c : Call V E} {old new : V} (h : Explains es (.called c))
      (happlies : Applies c old new) : Explains (es ++ [.updated old new]) (.updated c old new)
  | told {es : List (Event V E)} {g : Stage V E} (i : Nat) (old new : V) (h : Explains es g) :
      Explains (es ++ [.told i old new]) g
  | answered {es : List (Event V E)} {c : Call V E} {old new : V}
      (h : Explains es (.updated c old new)) :
      Explains (es ++ [.answered (answer c old new)]) .idle
  | signalled {es : List (Event V E)} {c : Call V E} {old new : V} (e : E)
      (h : Explains es (.updated c old new)) :
      Explains (es ++ [.answered (.failed (.signalled e))]) .idle
  | refused {es : List (Event V E)} {c : Call V E} {a : Answer V E} (h : Explains es (.called c))
      (hrefused : Refused hooks c a) : Explains (es ++ [.answered a]) .idle

/-- What a thread is still to pass to watch `i`. -/
def owed (i : Nat) : Phase V E → List (V × V)
  | .notifying _ old new j => if j ≤ i then [(old, new)] else []
  | _ => []

/-- Every watch is told every transition, or will be by the thread that made it. -/
def Watched [DecidableEq T] (s : State T V E) : Prop :=
  ∀ i < hooks.watches.length, ∀ t,
    updates (eventsOf t s.log) = toldTo i (eventsOf t s.log) ++ owed i (s.phase t)

/-- One order of all transitions, in which every update does what it should and every watch is told
all of them. -/
structure Linearized [DecidableEq T] (init : V) (s : State T V E) : Prop where
  chain : Chain init (updates (s.log.map (·.2))) s.value
  valid : ∀ p ∈ updates (s.log.map (·.2)), checkValue hooks p.2 = .ok ()
  threads : ∀ t, ∃ g, Explains hooks (eventsOf t s.log) g
  watched : Watched hooks s

/-- A `reset!` finds the value it has read, and a watch before the last one signals no error. -/
def Orderly (s : State T V E) : Label T V E → Prop
  | .call _ _ => True
  | .advance t =>
    match s.phase t with
    | .writing _ old _ => hooks.watches = [] ∨ s.value = old
    | .notifying _ old new i => ∀ watch e, hooks.watches[i]? = some watch →
        watch old new = .error e →
        i + 1 = hooks.watches.length
    | _ => True

end Orders

end Fol.Atoms

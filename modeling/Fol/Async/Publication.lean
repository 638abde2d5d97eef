/-
Fol.Async.Publication — a publication sends each value of its source to the channels subscribed to
its topic.

The dispatch thread holds the lock while it sends, or closes the channels at the end of the source.
-/
import Fol.Lib.Runs
import Fol.Lib.Table
import Mathlib.Data.List.Nodup

namespace Fol.Async

open Fol.Lib

variable {T V C : Type} [DecidableEq T] [DecidableEq C]

/-! ## §1 State -/

/-- Channels by topic. -/
abbrev Subs (T C : Type) [DecidableEq T] := Table T { chs : List C // chs.Nodup }

/-- The dispatch thread; `none` is the end of the source. -/
inductive Dispatch (V C : Type) where
  | fetching
  | holding (val : Option V)
  | sending (val : V) (subChs : { chs : List C // chs.Nodup })
  | closing (subChs : List C)
  | returned

/-- `publication`, and what channels have accepted. -/
structure Publication (T V C : Type) [DecidableEq T] where
  subs : Subs T C := {}
  dispatch : Dispatch V C := .fetching
  received : C → List V := fun _ => []
  closed : C → Bool := fun _ => false

namespace Subs

def chs (subs : Subs T C) (topic : T) : { chs : List C // chs.Nodup } :=
  (subs.get topic).getD ⟨[], .nil⟩

def sub (subs : Subs T C) (topic : T) (ch : C) : Subs T C :=
  subs.set topic ⟨(subs.chs topic).1.insert ch, List.Nodup.insert (subs.chs topic).2⟩

def unsub (subs : Subs T C) (topic : T) (ch : C) : Subs T C :=
  subs.set topic ⟨(subs.chs topic).1.filter (· ≠ ch), (subs.chs topic).2.filter _⟩

def unsubAll (subs : Subs T C) : Option T → Subs T C
  | some topic => ⟨without topic subs.entries, subs.distinct.without topic⟩
  | none => {}

end Subs

namespace Publication

/-! ## §2 Steps -/

inductive Call (T C : Type) where
  | sub (topic : T) (ch : C)
  | unsub (topic : T) (ch : C)
  | unsubAll (topic : Option T)

/-- The dispatch thread takes from the source, takes the lock, or serves the next channel and at
last lets go of the lock; or another thread acts. -/
inductive Act (T V C : Type) where
  | fetch (val : Option V)
  | lock
  | serve
  | call (c : Call T C)
  | close (ch : C)

/-- Nobody holds the lock. -/
def free (p : Publication T V C) : Bool :=
  match p.dispatch with
  | .sending _ _ | .closing _ => false
  | _ => true

def call (p : Publication T V C) : Call T C → Subs T C
  | .sub topic ch => p.subs.sub topic ch
  | .unsub topic ch => p.subs.unsub topic ch
  | .unsubAll topic => p.subs.unsubAll topic

/-- `>!!`: a closed channel refuses. -/
def put (p : Publication T V C) (ch : C) (val : V) : Publication T V C :=
  if p.closed ch then p
  else { p with received := Function.update p.received ch (p.received ch ++ [val]) }

/-- `close!`. -/
def close (p : Publication T V C) (ch : C) : Publication T V C :=
  { p with closed := Function.update p.closed ch true }

variable (topicFn : V → T)

def step (p : Publication T V C) (act : Act T V C) : Option (Publication T V C) :=
  match act, p.dispatch with
  | .fetch val, .fetching => some { p with dispatch := .holding val }
  | .lock, .holding (some val) =>
      some { p with dispatch := .sending val (p.subs.chs (topicFn val)) }
  | .lock, .holding none => some { p with dispatch := .closing (p.subs.entries.flatMap (·.2.1)) }
  | .serve, .sending _ ⟨[], _⟩ => some { p with dispatch := .fetching }
  | .serve, .sending val ⟨ch :: chs, h⟩ =>
      some { p.put ch val with dispatch := .sending val ⟨chs, h.of_cons⟩ }
  | .serve, .closing [] => some { p with dispatch := .returned }
  | .serve, .closing (ch :: chs) => some { p.close ch with dispatch := .closing chs }
  | .call c, _ => if p.free then some { p with subs := p.call c } else none
  | .close ch, _ => some (p.close ch)
  | _, _ => none

/-! ## §3 Due -/

/-- The value that the dispatch thread now begins to send, to this channel among others. -/
def due (ch : C) (p : Publication T V C) (act : Act T V C) : Option V :=
  match act, p.dispatch with
  | .lock, .holding (some val) => if ch ∈ (p.subs.chs (topicFn val)).1 then some val else none
  | _, _ => none

/-- What this channel is still to be sent. -/
def underway (ch : C) : Dispatch V C → List V
  | .sending val chs => if ch ∈ chs.1 then [val] else []
  | _ => []

/-- What the channel has accepted, when these values were due to it. -/
structure Sent (ch : C) (vals : List V) (p : Publication T V C) : Prop where
  prefix_due : p.received ch <+: vals
  all : p.closed ch = false → p.received ch ++ underway ch p.dispatch = vals

variable {topicFn} {p p' : Publication T V C} {ch : C} {vals : List V}

/-- A step that sends nothing to this channel. -/
theorem Sent.same (h : Sent ch vals p) {act : Act T V C} (hdue : due topicFn ch p act = none)
    (hreceived : p'.received ch = p.received ch)
    (hclosed : p'.closed ch = false → p.closed ch = false)
    (hunderway : underway ch p'.dispatch = underway ch p.dispatch) :
    Sent ch (vals ++ (due topicFn ch p act).toList) p' where
  prefix_due := by simpa [hdue, hreceived] using h.prefix_due
  all hopen := by simpa [hdue, hreceived, hunderway] using h.all (hclosed hopen)

theorem open_of_close {ch' : C} (h : (p.close ch').closed ch = false) : p.closed ch = false := by
  by_cases hch : ch = ch' <;> simp_all [close]

theorem Sent.step (h : Sent ch vals p) {act : Act T V C} (hs : p.step topicFn act = some p') :
    Sent ch (vals ++ (due topicFn ch p act).toList) p' := by
  have hall := h.all
  unfold Publication.step at hs
  split at hs
  case h_2 val hd =>
    cases hs
    refine ⟨h.prefix_due.trans (List.prefix_append ..), fun hopen => ?_⟩
    simp only [underway, hd, List.append_nil] at hall
    by_cases hch : ch ∈ (p.subs.chs (topicFn val)).1 <;> simp [underway, due, hd, hch, hall hopen]
  case h_5 val ch' chs hnodup hd =>
    cases hs
    have hput : (p.put ch' val).closed = p.closed := by
      unfold put
      split <;> rfl
    by_cases hch : ch = ch'
    · subst hch
      have hnot := (List.nodup_cons.mp hnodup).1
      simp only [underway, hd, List.mem_cons, true_or, if_true] at hall
      refine ⟨?_, fun hopen => ?_⟩
      · cases hopen : p.closed ch with
        | true => simpa [put, hopen, due] using h.prefix_due
        | false => simp [put, hopen, due, hall hopen]
      · replace hopen : p.closed ch = false := hput ▸ hopen
        simp [put, hopen, due, underway, hnot, hall hopen]
    · refine h.same rfl ?_ (fun hopen => hput ▸ hopen) (by simp [underway, hd, hch])
      by_cases hopen : p.closed ch' <;> simp [put, hopen, hch]
  case h_7 ch' chs hd =>
    cases hs
    exact h.same rfl rfl (open_of_close (p := p)) (by simp [underway, hd])
  case h_8 c =>
    obtain ⟨-, hs⟩ := Option.ite_none_right_eq_some.mp hs
    cases hs
    exact h.same rfl rfl id rfl
  case h_9 =>
    cases hs
    exact h.same rfl rfl open_of_close rfl
  case h_10 => cases hs
  all_goals
    next hd =>
      cases hs
      exact h.same (by simp [due, hd]) rfl id (by simp [underway, hd])

theorem sent_run (h : Sent ch vals p) {run : List (Act T V C × Publication T V C)}
    (hrun : IsRun (fun p act p' => step topicFn p act = some p') p run) :
    Sent ch (vals ++ yields (due topicFn ch) p run) (final p run) := by
  induction run generalizing p vals with
  | nil => exact (List.append_nil vals).symm ▸ h
  | cons q run ih =>
    rw [yields, ← List.append_assoc]
    exact ih (h.step hrun.1) hrun.2

/-- A channel accepts, in order and each once, the values that were dispatched while it was
subscribed to their topics: all but the one underway while it is open, and a first part of them if
it is closed. -/
theorem sent_of_run {run : List (Act T V C × Publication T V C)}
    (hrun : IsRun (fun p act p' => step topicFn p act = some p') ({} : Publication T V C) run)
    (ch : C) :
    Sent ch (yields (due topicFn ch) {} run) (final {} run) :=
  sent_run ⟨List.prefix_rfl, fun _ => rfl⟩ hrun

/-- A second subscription to a topic, and a value while nobody is subscribed. -/
def twice : List (Act Nat Nat Bool × Publication Nat Nat Bool) :=
  trace (step fun val => val % 2) {} [.call (.sub 1 true), .call (.sub 1 true), .fetch (some 7),
    .lock, .serve, .serve, .call (.unsub 1 true), .fetch (some 9), .lock, .serve]

theorem sent_twice : Sent true [7] (final {} twice) :=
  sent_of_run (show IsRun _ {} twice from trace_isRun _ _ _) true

end Publication

end Fol.Async

/-
Fol.Queue.Blocking — `%blocking-queue` of seq-functions.lisp, with `bq-put` and `bq-take` called by
any threads.

The part of a call between taking the lock and waiting or releasing it is one step. A notification
wakes one thread that waits at the condition variable, if there is one, and a thread may wake by
itself.
-/
import Fol.Lib.Chains
import Fol.Lib.Permits
import Fol.Lib.Runs

namespace Fol.Queue

open Lib

variable {T α : Type}

/-! ## §1 Queue -/

/-- The queue and its tail are addresses of conses, `none` for NIL. -/
structure BlockingQueue (α : Type) where
  heap : Heap α := []
  queue : Option Nat := none
  tail : Option Nat := none
  count : Nat := 0
  capacity : Nat

namespace BlockingQueue

/-- The new node becomes the cdr of the tail, or the queue when that is NIL. A tail that is NIL has
no cdr to set. -/
def enqueue (bq : BlockingQueue α) (item : α) : Option (BlockingQueue α) :=
  let node := bq.heap.length
  let heap := bq.heap.cons item none
  match bq.queue, bq.tail with
  | some _, some tail =>
    some { bq with heap := heap.setCdr tail (some node), tail := some node, count := bq.count + 1 }
  | some _, none => none
  | none, _ =>
      some { bq with heap := heap, queue := some node, tail := some node, count := bq.count + 1 }

/-- `pop`: the car, which is NIL for an empty queue, and the cdr. -/
def pop (bq : BlockingQueue α) : Option α × Option Nat :=
  match bq.queue with
  | none => (none, none)
  | some node =>
    match bq.heap[node]? with
    | none => (none, none)
    | some (car, cdr) => (some car, cdr)

def dequeue (bq : BlockingQueue α) : Option α × BlockingQueue α :=
  let (item, queue) := bq.pop
  let tail := if queue.isSome then bq.tail else none
  (item, { bq with queue := queue, tail := tail, count := bq.count - 1 })

end BlockingQueue

/-! ## §2 Threads -/

inductive Call (α : Type) where
  | put (item : α)
  | take

inductive Condition where
  | notFull
  | notEmpty
deriving DecidableEq

def Call.awaits : Call α → Condition
  | .put _ => .notFull
  | .take => .notEmpty

def Call.notifies : Call α → Condition
  | .put _ => .notEmpty
  | .take => .notFull

/-- How the part under the lock ends. The item is the one that `bq-take` returns. -/
inductive Outcome (α : Type) where
  | waits
  | fails
  | returns (bq : BlockingQueue α) (item : Option α)

/-- The part of a call under the lock, from the test of the loop on. -/
def critical (bq : BlockingQueue α) : Call α → Outcome α
  | .put item =>
    if bq.capacity ≤ bq.count then .waits
    else
      match bq.enqueue item with
      | some bq' => .returns bq' none
      | none => .fails
  | .take => if bq.count = 0 then .waits else .returns bq.dequeue.2 bq.dequeue.1

inductive Phase (α : Type) where
  | away
  | inside (call : Call α) (wait : Wait)

/-- How the thread waits at the condition variable. -/
def Phase.waitAt (c : Condition) : Phase α → Option Wait
  | .away => none
  | .inside call wait => if call.awaits = c then some wait else none

structure State (T α : Type) where
  bq : BlockingQueue α
  phase : T → Phase α := fun _ => .away

inductive Label (T α : Type) where
  | enter (t : T) (call : Call α)
  | resume (t : T)
  | rouse (t : T)

def Label.thread : Label T α → T
  | .enter t _ => t
  | .resume t => t
  | .rouse t => t

/-- The call whose part under the lock the step runs. -/
def callAt (s : State T α) : Label T α → Option (Call α)
  | .enter t call =>
    match s.phase t with
    | .away => some call
    | .inside _ _ => none
  | .resume t =>
    match s.phase t with
    | .inside call .notified => some call
    | .inside call .roused => some call
    | _ => none
  | .rouse _ => none

section

variable [DecidableEq T]

def State.set (s : State T α) (t : T) (p : Phase α) : State T α :=
  { s with phase := Function.update s.phase t p }

/-- `condition-notify`. -/
inductive Notify (c : Condition) (phase : T → Phase α) : (T → Phase α) → Prop where
  | one {t : T} {call : Call α} (hwaits : phase t = .inside call .waiting) (hc : call.awaits = c) :
      Notify c phase (Function.update phase t (.inside call .notified))
  | unheard (hnone : ∀ t call, phase t = .inside call .waiting → call.awaits ≠ c) :
      Notify c phase phase

inductive Step : State T α → Label T α → State T α → Prop where
  | wait {s : State T α} {l : Label T α} {call : Call α} (hcall : callAt s l = some call)
      (houtcome : critical s.bq call = .waits) : Step s l (s.set l.thread (.inside call .waiting))
  | fail {s : State T α} {l : Label T α} {call : Call α} (hcall : callAt s l = some call)
      (houtcome : critical s.bq call = .fails) : Step s l (s.set l.thread .away)
  | done {s : State T α} {l : Label T α} {call : Call α} {bq : BlockingQueue α} {item : Option α}
      {phase : T → Phase α} (hcall : callAt s l = some call)
      (houtcome : critical s.bq call = .returns bq item)
      (hnotify : Notify call.notifies (Function.update s.phase l.thread .away) phase) :
      Step s l ⟨bq, phase⟩
  | rouse {s : State T α} {t : T} {call : Call α} (hwaits : s.phase t = .inside call .waiting) :
      Step s (.rouse t) (s.set t (.inside call .roused))

end

/-! ## §3 Events -/

/-- The item that the step puts into the queue. -/
def entered (s : State T α) (l : Label T α) : Option α :=
  match callAt s l with
  | some (.put item) =>
    match critical s.bq (.put item) with
    | .returns _ _ => some item
    | _ => none
  | _ => none

/-- What the `bq-take` that the step ends returns. -/
def left (s : State T α) (l : Label T α) : Option (Option α) :=
  match callAt s l with
  | some .take =>
    match critical s.bq .take with
    | .returns _ item => some item
    | _ => none
  | _ => none

/-! ## §4 Sections -/

/-- The queue is linked through the conses, its tail is the last of them, and the counter is
right. -/
structure Holds (bq : BlockingQueue α) (cells : List (Nat × α)) : Prop where
  chain : Chain bq.heap bq.queue cells
  nodup : (cells.map Prod.fst).Nodup
  tail : bq.tail = cells.getLast?.map Prod.fst
  count : bq.count = cells.length
  bounded : bq.count ≤ bq.capacity

theorem holds_empty (capacity : Nat) : Holds ({ capacity := capacity } : BlockingQueue α) [] where
  chain := .nil
  nodup := List.nodup_nil
  tail := rfl
  count := rfl
  bounded := Nat.zero_le _

namespace Holds

variable {bq : BlockingQueue α} {cells : List (Nat × α)}

theorem nodup_append (h : Holds bq cells) (item : α) :
    ((cells ++ [(bq.heap.length, item)]).map Prod.fst).Nodup := by
  rw [List.map_append, List.nodup_append]
  refine ⟨h.nodup, List.nodup_singleton _, fun i hi j hj => ?_⟩
  obtain ⟨p, hp, rfl⟩ := List.mem_map.mp hi
  obtain rfl : j = bq.heap.length := by simpa using hj
  exact Nat.ne_of_lt (h.chain.lt_length hp)

theorem enqueue (h : Holds bq cells) (hroom : bq.count < bq.capacity) (item : α) :
    ∃ bq', bq.enqueue item = some bq' ∧ Holds bq' (cells ++ [(bq.heap.length, item)]) ∧
      bq'.capacity = bq.capacity := by
  have hnodup := h.nodup_append item
  have hcount : bq.count + 1 = (cells ++ [(bq.heap.length, item)]).length := by simp [h.count]
  have hchain := h.chain
  cases hq : bq.queue with
  | none =>
    rw [hq] at hchain
    cases hchain
    have henqueue : bq.enqueue item = some { bq with
        heap := bq.heap.cons item none, queue := some bq.heap.length, tail := some bq.heap.length,
        count := bq.count + 1 } := by
      simp only [BlockingQueue.enqueue, hq]
    refine ⟨_, henqueue, ⟨.cons ?_ .nil, hnodup, rfl, hcount, hroom⟩, rfl⟩
    exact Heap.getElem?_cons_length _ _ _
  | some node =>
    obtain ⟨last, hlast⟩ : ∃ last, cells.getLast? = some last := by
      rw [hq] at hchain
      cases hchain
      exact ⟨_, List.getLast?_eq_some_getLast (by simp)⟩
    have htail : bq.tail = some last.1 := by rw [h.tail, hlast, Option.map_some]
    have henqueue : bq.enqueue item = some { bq with
        heap := (bq.heap.cons item none).setCdr last.1 (some bq.heap.length), tail :=
          some bq.heap.length,
        count := bq.count + 1 } := by
      simp only [BlockingQueue.enqueue, hq, htail]
    refine ⟨_, henqueue, ⟨?_, hnodup, ?_, hcount, hroom⟩, rfl⟩
    · exact hchain.append h.nodup hlast item
    · simp

theorem dequeue {p : Nat × α} (h : Holds bq (p :: cells)) :
    bq.dequeue.1 = some p.2 ∧ Holds bq.dequeue.2 cells ∧ bq.dequeue.2.capacity = bq.capacity := by
  have hchain := h.chain
  cases hq : bq.queue with
  | none =>
    rw [hq] at hchain
    cases hchain
  | some node =>
    rw [hq] at hchain
    cases hchain with
    | @cons i x next cells hcell hrest =>
      have hpop : bq.pop = (some x, next) := by simp [BlockingQueue.pop, hq, hcell]
      have hdequeue : bq.dequeue = (some x, { bq with
          queue := next, tail := if next.isSome then bq.tail else none, count :=
            bq.count - 1 }) := by
        rw [BlockingQueue.dequeue, hpop]
      rw [hdequeue]
      refine ⟨rfl, ⟨hrest, (List.nodup_cons.mp h.nodup).2, ?_, ?_, ?_⟩, rfl⟩
      · cases hrest with
        | nil => rfl
        | cons _ _ =>
          simp only [Option.isSome_some, if_true]
          rw [h.tail, List.getLast?_cons_cons]
      · show bq.count - 1 = _
        rw [h.count]
        rfl
      · exact Nat.le_trans (Nat.sub_le _ _) h.bounded

end Holds

/-- How often a wait at the condition variable may end. -/
def permits (bq : BlockingQueue α) : Condition → Nat
  | .notFull => bq.capacity - bq.count
  | .notEmpty => bq.count

/-- The items that a call brings. -/
def Call.items : Call α → List α
  | .put item => [item]
  | .take => []

/-- The part under the lock waits without a permit. Else it takes the permit and makes one of the
other kind; a put appends its item, and a take returns the first one. -/
theorem critical_spec {bq : BlockingQueue α} {cells : List (Nat × α)} (h : Holds bq cells)
    (call : Call α) :
    (critical bq call = .waits ∧ permits bq call.awaits = 0) ∨
      ∃ bq' item cells', critical bq call = .returns bq' item ∧ Holds bq' cells' ∧
      bq'.capacity = bq.capacity ∧
        (call = .take ↔ item.isSome) ∧
        cells.map Prod.snd ++ call.items = item.toList ++ cells'.map Prod.snd ∧
        permits bq call.awaits = permits bq' call.awaits + 1 ∧
        permits bq' call.notifies = permits bq call.notifies + 1 := by
  cases call with
  | put item =>
    by_cases hfull : bq.capacity ≤ bq.count
    · exact .inl ⟨if_pos hfull, Nat.sub_eq_zero_of_le hfull⟩
    · obtain ⟨bq', henqueue, hholds, hcapacity⟩ := h.enqueue (Nat.lt_of_not_le hfull) item
      have hcount : bq'.count = bq.count + 1 := by
        rw [hholds.count, h.count]
        simp
      refine .inr ⟨bq', none, _, ?_, hholds, hcapacity, by simp, by simp [Call.items], ?_, hcount⟩
      · simp only [critical, if_neg hfull, henqueue]
      · simp only [Call.awaits, permits]
        omega
  | take =>
    cases cells with
    | nil => exact .inl ⟨if_pos h.count, h.count⟩
    | cons p cells =>
      obtain ⟨hitem, hholds, hcapacity⟩ := h.dequeue
      have hcount : bq.count = bq.dequeue.2.count + 1 := by
        rw [hholds.count, h.count]
        rfl
      have hpos : bq.count ≠ 0 := by omega
      refine .inr ⟨_, _, cells, if_neg hpos, hholds, hcapacity, ?_, ?_, hcount, ?_⟩
      · simp [hitem]
      · simp [hitem, Call.items]
      · have hbounded := h.bounded
        simp only [Call.notifies, permits]
        omega

/-! ## §5 Waiting -/

/-- Every condition variable has enough notified threads. -/
structure Inv (s : State T α) (cells : List (Nat × α)) : Prop where
  holds : Holds s.bq cells
  enough : ∀ c, Enough (permits s.bq c) fun t => (s.phase t).waitAt c

theorem Call.awaits_ne_notifies (call : Call α) : call.awaits ≠ call.notifies := by
  cases call <;> simp [Call.awaits, Call.notifies]

theorem Call.eq_awaits_or (call : Call α) (c : Condition) :
    c = call.awaits ∨ c = call.notifies := by
  cases call <;> cases c <;> simp [Call.awaits, Call.notifies]

/-- A thread whose part under the lock is next is outside, or has been woken from the wait of this
call. -/
theorem phase_of_callAt {s : State T α} {l : Label T α} {call : Call α}
    (h : callAt s l = some call) :
    s.phase l.thread = .away ∨ ∃ wait, wait ≠ .waiting ∧ s.phase l.thread = .inside call wait := by
  cases l with
  | enter t call' =>
    simp only [callAt] at h
    split at h
    · next hp => exact .inl hp
    · cases h
  | resume t =>
    simp only [callAt] at h
    split at h
    · next hp =>
      cases h
      exact .inr ⟨_, by simp, hp⟩
    · next hp =>
      cases h
      exact .inr ⟨_, by simp, hp⟩
    · cases h
  | rouse t => cases h

variable [DecidableEq T]

/-- How the threads wait after one has gone on to another phase. -/
theorem waitAt_update (phase : T → Phase α) (t : T) (p : Phase α) (c : Condition) :
    (fun u => (Function.update phase t p u).waitAt c) =
      Function.update (fun u => (phase u).waitAt c) t (p.waitAt c) := by
  funext u
  by_cases hu : u = t
  · subst hu
    simp
  · simp [hu]

theorem enough_notify {c : Condition} {phase phase' : T → Phase α} {n : Nat}
    (hn : Notify c phase phase') (h : Enough n fun t => (phase t).waitAt c) :
    Enough (n + 1) fun t => (phase' t).waitAt c := by
  cases hn with
  | one hwaits hc =>
    rw [waitAt_update]
    simp only [Phase.waitAt, if_pos hc]
    exact h.notify (by simp [hwaits, Phase.waitAt, hc])
  | unheard hnone =>
    refine .of_none fun t ht => ?_
    cases hp : phase t with
    | away => simp [hp, Phase.waitAt] at ht
    | inside call wait =>
      simp only [hp, Phase.waitAt, Option.ite_none_right_eq_some, Option.some.injEq] at ht
      obtain ⟨hc, rfl⟩ := ht
      exact hnone t call hp hc

/-- A notification leaves the other condition variable as it is. -/
theorem waitAt_notify {c d : Condition} {phase phase' : T → Phase α} (hn : Notify c phase phase')
    (hd : d ≠ c) :
    (fun t => (phase' t).waitAt d) = fun t => (phase t).waitAt d := by
  cases hn with
  | @one t call hwaits hc =>
    have hne : call.awaits ≠ d := fun h => hd (h.symm.trans hc)
    funext u
    by_cases hu : u = t
    · subst hu
      simp [hwaits, Phase.waitAt, hne]
    · simp [hu]
  | unheard _ => rfl

omit [DecidableEq T] in
/-- The thread does not wait at the condition variable that its call notifies. -/
theorem waitAt_of_callAt {s : State T α} {l : Label T α} {call : Call α}
    (h : callAt s l = some call) :
    (s.phase l.thread).waitAt call.notifies = none := by
  rcases phase_of_callAt h with hp | ⟨wait, -, hp⟩
  · rw [hp]
    rfl
  · rw [hp]
    exact if_neg call.awaits_ne_notifies

omit [DecidableEq T] in
theorem events_of_waits {s : State T α} {l : Label T α} {call : Call α}
    (hcall : callAt s l = some call) (houtcome : critical s.bq call = .waits) :
    left s l = none ∧ entered s l = none := by
  cases call <;> simp [left, entered, hcall, houtcome]

omit [DecidableEq T] in
theorem events_of_returns {s : State T α} {l : Label T α} {call : Call α} {bq : BlockingQueue α}
    {item : Option α} (hcall : callAt s l = some call)
    (houtcome : critical s.bq call = .returns bq item)
    (htake : call = .take ↔ item.isSome) :
    (left s l).toList = item.toList.map some ∧ (entered s l).toList = call.items := by
  cases call with
  | put x =>
    have hnone : item = none := by simpa using htake
    simp [left, entered, hcall, houtcome, hnone, Call.items]
  | take =>
    obtain ⟨x, rfl⟩ : ∃ x, item = some x := Option.isSome_iff_exists.mp (htake.mp rfl)
    simp [left, entered, hcall, houtcome, Call.items]

/-- The notified threads stay enough when a thread waits. -/
theorem Inv.wait {s : State T α} {l : Label T α} {call : Call α} {cells : List (Nat × α)}
    (h : Inv s cells) (hcall : callAt s l = some call) (hpermits : permits s.bq call.awaits = 0) :
    Inv (s.set l.thread (.inside call .waiting)) cells := by
  refine ⟨h.holds, fun c => ?_⟩
  show Enough (permits s.bq c) fun u =>
    (Function.update s.phase l.thread (.inside call .waiting) u).waitAt c
  rcases call.eq_awaits_or c with rfl | rfl
  · rw [hpermits]
    exact .zero
  · have hnone : (Phase.inside call .waiting).waitAt call.notifies = none :=
      if_neg call.awaits_ne_notifies
    rw [waitAt_update, hnone]
    exact (h.enough call.notifies).leave (by simp [waitAt_of_callAt hcall]) (by simp)

/-- They stay enough when a thread takes a permit and notifies one that waits for the other kind. -/
theorem Inv.done {s : State T α} {l : Label T α} {call : Call α} {cells cells' : List (Nat × α)}
    {bq : BlockingQueue α} {phase : T → Phase α} (h : Inv s cells) (hholds : Holds bq cells')
    (hcall : callAt s l = some call)
    (htaken : permits s.bq call.awaits = permits bq call.awaits + 1)
    (hmade : permits bq call.notifies = permits s.bq call.notifies + 1)
    (hnotify : Notify call.notifies (Function.update s.phase l.thread .away) phase) :
    Inv ⟨bq, phase⟩ cells' := by
  refine ⟨hholds, fun c => ?_⟩
  show Enough (permits bq c) fun t => (phase t).waitAt c
  rcases call.eq_awaits_or c with rfl | rfl
  · have henough := h.enough call.awaits
    rw [htaken] at henough
    rw [waitAt_notify hnotify call.awaits_ne_notifies, waitAt_update]
    exact henough.spend (by simp [Phase.waitAt])
  · rw [hmade]
    refine enough_notify hnotify ?_
    rw [waitAt_update]
    exact (h.enough call.notifies).leave (by simp [waitAt_of_callAt hcall]) (by simp [Phase.waitAt])

theorem Inv.rouse {s : State T α} {t : T} {call : Call α} {cells : List (Nat × α)} (h : Inv s cells)
    (hwaits : s.phase t = .inside call .waiting) : Inv (s.set t (.inside call .roused)) cells := by
  refine ⟨h.holds, fun c => ?_⟩
  show Enough (permits s.bq c) fun u =>
    (Function.update s.phase t (.inside call .roused) u).waitAt c
  rw [waitAt_update]
  refine (h.enough c).leave ?_ ?_
  · by_cases hc : call.awaits = c
    · simp [hwaits, Phase.waitAt, hc]
    · simp [hwaits, Phase.waitAt, hc]
  · by_cases hc : call.awaits = c
    · simp [Phase.waitAt, hc]
    · simp [Phase.waitAt, hc]

/-- What a step does while the queue is linked. -/
inductive Runs (s : State T α) (cells : List (Nat × α)) (l : Label T α) :
    State T α → List (Nat × α) → Prop where
  | waits {call : Call α} (hcall : callAt s l = some call) (houtcome : critical s.bq call = .waits)
      (hpermits : permits s.bq call.awaits = 0) :
      Runs s cells l (s.set l.thread (.inside call .waiting)) cells
  | returns {call : Call α} {bq : BlockingQueue α} {item : Option α} {phase : T → Phase α}
      {cells' : List (Nat × α)} (hcall : callAt s l = some call)
      (houtcome : critical s.bq call = .returns bq item) (hholds : Holds bq cells')
      (hcapacity : bq.capacity = s.bq.capacity) (htake : call = .take ↔ item.isSome)
      (hmoved : cells.map Prod.snd ++ call.items = item.toList ++ cells'.map Prod.snd)
      (htaken : permits s.bq call.awaits = permits bq call.awaits + 1)
      (hmade : permits bq call.notifies = permits s.bq call.notifies + 1)
      (hnotify : Notify call.notifies (Function.update s.phase l.thread .away) phase) :
      Runs s cells l ⟨bq, phase⟩ cells'
  | rouses {t : T} {call : Call α} (hl : l = .rouse t)
      (hwaits : s.phase t = .inside call .waiting) :
      Runs s cells l (s.set t (.inside call .roused)) cells

/-- No call fails. -/
theorem Step.runs {s s' : State T α} {l : Label T α} {cells : List (Nat × α)}
    (hholds : Holds s.bq cells) (hstep : Step s l s') : ∃ cells', Runs s cells l s' cells' := by
  cases hstep with
  | @wait _ call hcall houtcome =>
    rcases critical_spec hholds call with ⟨-, hpermits⟩ | ⟨_, _, _, hreturns, -⟩
    · exact ⟨_, .waits hcall houtcome hpermits⟩
    · rw [houtcome] at hreturns
      cases hreturns
  | @fail _ call hcall houtcome =>
    rcases critical_spec hholds call with ⟨hwaits, -⟩ | ⟨_, _, _, hreturns, -⟩
    · rw [houtcome] at hwaits
      cases hwaits
    · rw [houtcome] at hreturns
      cases hreturns
  | @done _ call _ _ _ hcall houtcome hnotify =>
    rcases critical_spec hholds call with
      ⟨hwaits, -⟩ | ⟨bq, item, cells', hreturns, hholds', hcapacity, htake, hmoved, htaken, hmade⟩
    · rw [houtcome] at hwaits
      cases hwaits
    · have heq := houtcome.symm.trans hreturns
      cases heq
      exact ⟨cells', .returns hcall houtcome hholds' hcapacity htake hmoved htaken hmade hnotify⟩
  | rouse hwaits => exact ⟨_, .rouses rfl hwaits⟩

theorem Runs.capacity {s s' : State T α} {l : Label T α} {cells cells' : List (Nat × α)}
    (hruns : Runs s cells l s' cells') : s'.bq.capacity = s.bq.capacity := by
  cases hruns with
  | waits _ _ _ => rfl
  | returns _ _ _ hcapacity _ _ _ _ _ => exact hcapacity
  | rouses _ _ => rfl

theorem Inv.runs {s s' : State T α} {l : Label T α} {cells cells' : List (Nat × α)}
    (h : Inv s cells) (hruns : Runs s cells l s' cells') : Inv s' cells' := by
  cases hruns with
  | waits hcall _ hpermits => exact h.wait hcall hpermits
  | returns hcall _ hholds _ _ _ htaken hmade hnotify =>
      exact h.done hholds hcall htaken hmade hnotify
  | rouses _ hwaits => exact h.rouse hwaits

theorem exists_notify (c : Condition) (phase : T → Phase α) : ∃ phase', Notify c phase phase' := by
  by_cases h : ∃ t call, phase t = .inside call .waiting ∧ call.awaits = c
  · obtain ⟨t, call, hwaits, hc⟩ := h
    exact ⟨_, .one hwaits hc⟩
  · exact ⟨_, .unheard fun t call hwaits hc => h ⟨t, call, hwaits, hc⟩⟩

/-- A call whose part under the lock is next can take its step. -/
theorem exists_step {s : State T α} {l : Label T α} {call : Call α}
    (hcall : callAt s l = some call) :
    ∃ s', Step s l s' := by
  cases houtcome : critical s.bq call with
  | waits => exact ⟨_, .wait hcall houtcome⟩
  | fails => exact ⟨_, .fail hcall houtcome⟩
  | returns bq item =>
    obtain ⟨phase, hnotify⟩ := exists_notify call.notifies (Function.update s.phase l.thread .away)
    exact ⟨_, .done hcall houtcome hnotify⟩

/-- The step lemma: what enters is appended, and what leaves was first. -/
theorem Inv.step {s s' : State T α} {l : Label T α} {cells : List (Nat × α)} (h : Inv s cells)
    (hstep : Step s l s') : ∃ (cells' : List (Nat × α)) (gone : List α), Inv s' cells' ∧
      s'.bq.capacity = s.bq.capacity ∧ (left s l).toList = gone.map some ∧
      cells.map Prod.snd ++ (entered s l).toList = gone ++ cells'.map Prod.snd := by
  obtain ⟨cells', hruns⟩ := hstep.runs h.holds
  have hinv := h.runs hruns
  have hcapacity := hruns.capacity
  cases hruns with
  | waits hcall houtcome _ =>
    obtain ⟨hleft, hentered⟩ := events_of_waits hcall houtcome
    exact ⟨_, [], hinv, hcapacity, by simp [hleft], by simp [hentered]⟩
  | returns hcall houtcome _ _ htake hmoved _ _ _ =>
    obtain ⟨hleft, hentered⟩ := events_of_returns hcall houtcome htake
    exact ⟨_, _, hinv, hcapacity, hleft, hentered ▸ hmoved⟩
  | rouses hl _ =>
    subst hl
    exact ⟨_, [], hinv, hcapacity, rfl, by simp [entered, callAt]⟩

/-! ## §6 Result -/

/-- A thread that calls `bq-take`, or `bq-put`, waits. -/
def Waits (s : State T α) (c : Condition) : Prop := ∃ t, (s.phase t).waitAt c = some .waiting

/-- A wake-up is pending: a thread that waited was notified and has not taken the lock again. -/
def WakeUpPending (s : State T α) (c : Condition) : Prop :=
  ∃ t, (s.phase t).waitAt c = some .notified

/-- The run lemma. -/
theorem Inv.run {s : State T α} {cells : List (Nat × α)} (h : Inv s cells)
    {run : List (Label T α × State T α)} (hrun : IsRun Step s run) :
    ∃ (cells' : List (Nat × α)) (gone : List α), Inv (final s run) cells' ∧
      (final s run).bq.capacity = s.bq.capacity ∧ yields left s run = gone.map some ∧
      cells.map Prod.snd ++ yields entered s run = gone ++ cells'.map Prod.snd := by
  induction run generalizing s cells with
  | nil => exact ⟨cells, [], h, rfl, rfl, by simp [yields]⟩
  | cons p run ih =>
    obtain ⟨cells₁, gone₁, hinv, hcapacity, hleft, hmoved⟩ := h.step hrun.1
    obtain ⟨cells₂, gone₂, hinv₂, hcapacity₂, hleft₂, hmoved₂⟩ := ih hinv hrun.2
    refine ⟨cells₂, gone₁ ++ gone₂, hinv₂, hcapacity₂.trans hcapacity, ?_, ?_⟩
    · simp [yields, hleft, hleft₂]
    · show _ ++ ((entered s p.1).toList ++ yields entered p.2 run) = _
      rw [← List.append_assoc, hmoved, List.append_assoc, hmoved₂, List.append_assoc]

/-- The state with an empty queue and no calls. -/
def start (capacity : Nat) : State T α := { bq := { capacity := capacity } }

omit [DecidableEq T] in
theorem inv_start (capacity : Nat) : Inv (start capacity : State T α) [] where
  holds := holds_empty capacity
  enough c := .of_none fun t ht => by cases ht

/-- What holds at the end of a run. The conses that are linked from the queue are as many as the
counter says; what was put and not taken is in them; nobody waits for what is there, unless a
wake-up is pending. -/
structure Right (capacity : Nat) (run : List (Label T α × State T α)) (s : State T α) : Prop where
  queued : ∃ (cells : List (Nat × α)) (gone : List α), Chain s.bq.heap s.bq.queue cells ∧
    s.bq.count = cells.length ∧ s.bq.count ≤ capacity ∧ yields left (start capacity) run =
    gone.map some ∧
    yields entered (start capacity) run = gone ++ cells.map Prod.snd
  takers : Waits s .notEmpty → 0 < s.bq.count → WakeUpPending s .notEmpty
  putters : Waits s .notFull → s.bq.count < capacity → WakeUpPending s .notFull

/-- Any run of any threads. -/
theorem blocking_queue_right (capacity : Nat) {run : List (Label T α × State T α)}
    (hrun : IsRun Step (start capacity) run) : Right capacity run (final (start capacity) run) := by
  obtain ⟨cells, gone, hinv, hcapacity, hleft, hmoved⟩ := (inv_start capacity).run hrun
  have hbounded := hinv.holds.bounded
  rw [hcapacity] at hbounded
  refine ⟨⟨cells, gone, hinv.holds.chain, hinv.holds.count, hbounded, hleft, hmoved⟩, ?_, ?_⟩
  · rintro ⟨t, ht⟩ hpos
    exact (hinv.enough .notEmpty).pending hpos ht
  · rintro ⟨t, ht⟩ hroom
    refine (hinv.enough .notFull).pending ?_ ht
    simp only [permits, hcapacity]
    exact Nat.sub_pos_of_lt hroom

end Fol.Queue

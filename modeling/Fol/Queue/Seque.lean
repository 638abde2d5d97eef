/-
Fol.Queue.Seque — `seque` of seq-functions.lisp: an agent's thread puts the elements of the argument
and a sentinel into a bounded queue, and the calling thread takes them from it into a vector.

  §1 Threads   — `Seque`, `SequeStep`.
  §2 Elements  — what has been taken, `SequeInv`.
  §3 Ending    — `work`, `exists_step`.
  §4 Result    — `sequeRight_iff`, `seque_right_iff`.
-/
import Fol.Collections.Arguments
import Fol.Collections.LazyConsumers
import Fol.Queue.Blocking

namespace Fol.Queue

open Lib VecTrie Collections.Making
open Collections.Arguments
open Collections.Consumers
    (makeVector_filled makeVector_of_ne represents_unique build_represents_iff)

/-! ## §1 Threads -/

section

variable {α : Type} [DecidableEq α] (O : Objects α)

inductive Party where
  | producer
  | consumer
deriving DecidableEq

inductive Item (α : Type) where
  | elem (x : α)
  | eos
deriving DecidableEq

/-- The items that the producer has not put, and those that the consumer has taken, the newest
first. -/
structure Seque (α : Type) where
  queue : State Party (Item α)
  remaining : List (Item α)
  result : List α := []
  returned : Bool := false

/-- The thread may make the call. -/
def Seque.Allowed (s : Seque α) : Label Party (Item α) → Prop
  | .enter .producer (.put item) => s.remaining.head? = some item
  | .enter .consumer .take => s.returned = false
  | .enter _ _ => False
  | _ => True

/-- An error in a call of the producer ends its action. -/
def Seque.failed (s : Seque α) (l : Label Party (Item α)) : Bool :=
  match callAt s.queue l with
  | some call =>
    match critical s.queue.bq call with
    | .fails => true
    | _ => false
  | none => false

/-- The step of the queue, and what the two loops make of it. -/
def Seque.after (s : Seque α) (l : Label Party (Item α)) (queue : State Party (Item α)) :
    Seque α where
  queue := queue
  remaining := if s.failed l then [] else s.remaining.drop (entered s.queue l).toList.length
  result :=
    match left s.queue l with
    | some (some (.elem x)) => x :: s.result
    | some none => O.nil :: s.result
    | _ => s.result
  returned :=
    match left s.queue l with
    | some (some .eos) => true
    | _ => s.returned

inductive SequeStep : Seque α → Label Party (Item α) → Seque α → Prop where
  | mk {s : Seque α} {l : Label Party (Item α)} {queue : State Party (Item α)}
      (hallowed : s.Allowed l)
      (hstep : Step s.queue l queue) : SequeStep s l (s.after O l queue)

/-- A buffer size that is not positive is taken for 1. -/
def bufferSize (size : Option Int) : Nat :=
  let n := size.getD 100
  if n ≤ 0 then 1 else n.toNat

/-- The call of `seque`. -/
def seque (size : Option Int) (arg : Argument α) : Seque α where
  queue := start (bufferSize size)
  remaining := (collectionSeq O arg).map .elem ++ [.eos]

/-! ## §2 Elements -/

variable {O}

omit [DecidableEq α] in
theorem elems_unique {xs ys : List α} {rest : List (Item α)}
    (h : xs.map Item.elem ++ [.eos] = ys.map Item.elem ++ .eos :: rest) : xs = ys ∧ rest = [] := by
  induction xs generalizing ys with
  | nil =>
    cases ys with
    | nil =>
      simp only [List.map_nil, List.nil_append, List.cons.injEq, true_and] at h
      exact ⟨rfl, h.symm⟩
    | cons y ys => simp at h
  | cons x xs ih =>
    cases ys with
    | nil => simp at h
    | cons y ys =>
      simp only [List.map_cons, List.cons_append, List.cons.injEq, Item.elem.injEq] at h
      obtain ⟨hxs, hrest⟩ := ih h.2
      exact ⟨by rw [h.1, hxs], hrest⟩

/-- The items that have been taken. -/
def Seque.taken (s : Seque α) : List (Item α) :=
  s.result.reverse.map .elem ++ if s.returned then [.eos] else []

/-- What the phase of each thread says. -/
def Seque.Placed (s : Seque α) : Party → Phase (Item α) → Prop
  | _, .away => True
  | .producer, .inside (.put item) _ => s.remaining.head? = some item
  | .consumer, .inside .take _ => s.returned = false
  | _, _ => False

/-- What has been taken, what is queued and what is still to be put are the elements and the
sentinel. -/
structure SequeInv (listed : List α) (s : Seque α) (cells : List (Nat × Item α)) : Prop where
  inv : Inv s.queue cells
  split : listed.map .elem ++ [.eos] = s.taken ++ cells.map Prod.snd ++ s.remaining
  placed : ∀ p, s.Placed p (s.queue.phase p)

namespace SequeInv

variable {listed : List α} {s : Seque α} {cells : List (Nat × Item α)} {l : Label Party (Item α)}
  {call : Call (Item α)} {q : State Party (Item α)}

omit [DecidableEq α] in
/-- Its thread may be in the call. -/
theorem caller (h : SequeInv listed s cells) (hallowed : s.Allowed l)
    (hcall : callAt s.queue l = some call) (w : Wait) : s.Placed l.thread (.inside call w) := by
  cases l with
  | enter t call' =>
    obtain rfl : call' = call := by
      simp only [callAt] at hcall
      split at hcall
      · exact Option.some.inj hcall
      · cases hcall
    cases t <;> cases call' <;> exact hallowed
  | resume t =>
    have hplaced := h.placed t
    rcases phase_of_callAt hcall with hp | ⟨w', -, hp⟩
    · simp only [callAt] at hcall
      have hp : s.queue.phase t = .away := hp
      simp [hp] at hcall
    · have hp : s.queue.phase t = .inside call w' := hp
      rw [hp] at hplaced
      show s.Placed t _
      cases t <;> cases call <;> exact hplaced
  | rouse t => cases hcall

omit [DecidableEq α] in
/-- The place of a thread that is not the producer does not depend on what remains, and that of one
that is not the consumer not on the result. -/
theorem placed_notify {s' : Seque α} {c : Condition} {t : Party} {phase : Party → Phase (Item α)}
    (h : SequeInv listed s cells) (hnotify : Notify c (Function.update s.queue.phase t .away) phase)
    (hother : ∀ u, u ≠ t → ∀ call w w', s.Placed u (.inside call w) → s'.Placed u (.inside call w'))
    (p : Party) : s'.Placed p (phase p) := by
  have hupdate : ∀ call w w', Function.update s.queue.phase t .away p = .inside call w →
      s'.Placed p (.inside call w') := by
    intro call w w' hp
    by_cases hpt : p = t
    · subst hpt
      simp at hp
    · rw [Function.update_of_ne hpt] at hp
      have hplaced := h.placed p
      rw [hp] at hplaced
      exact hother p hpt call w w' hplaced
  cases hnotify with
  | @one u call hwaits hc =>
    by_cases hpu : p = u
    · subst hpu
      rw [Function.update_self]
      exact hupdate call _ _ hwaits
    · rw [Function.update_of_ne hpu]
      cases hp : Function.update s.queue.phase t .away p with
      | away => cases p <;> trivial
      | inside call w => exact hupdate call w w hp
  | unheard _ =>
    cases hp : Function.update s.queue.phase t .away p with
    | away => cases p <;> trivial
    | inside call w => exact hupdate call w w hp

omit [DecidableEq α] in
theorem after_of_waits (O : Objects α) (hcall : callAt s.queue l = some call)
    (houtcome : critical s.queue.bq call = .waits) : s.after O l q = { s with queue := q } := by
  obtain ⟨hleft, hentered⟩ := events_of_waits hcall houtcome
  simp [Seque.after, Seque.failed, hcall, houtcome, hleft, hentered]

omit [DecidableEq α] in
theorem after_of_rouse (O : Objects α) (t : Party) :
    s.after O (.rouse t) q = { s with queue := q } := rfl

omit [DecidableEq α] in
theorem after_of_put (O : Objects α) {item : Item α} {bq : BlockingQueue (Item α)}
    {out : Option (Item α)} (hcall : callAt s.queue l = some (.put item))
    (houtcome : critical s.queue.bq (.put item) = .returns bq out) :
    s.after O l q = { s with queue := q, remaining := s.remaining.drop 1 } := by
  simp [Seque.after, Seque.failed, left, entered, hcall, houtcome]

omit [DecidableEq α] in
theorem after_of_take (O : Objects α) {bq : BlockingQueue (Item α)} {item : Item α}
    (hcall : callAt s.queue l = some .take)
    (houtcome : critical s.queue.bq .take = .returns bq (some item)) :
    s.after O l q =
      match item with
      | .elem x => { s with queue := q, result := x :: s.result }
      | .eos => { s with queue := q, returned := true } := by
  cases item <;> simp [Seque.after, Seque.failed, left, entered, hcall, houtcome]

omit [DecidableEq α] in
theorem placed_put {t : Party} {x : Item α} {w : Wait} (h : s.Placed t (.inside (.put x) w)) :
    t = .producer ∧ ∃ rest, s.remaining = x :: rest := by
  cases t with
  | producer =>
    have hhead : s.remaining.head? = some x := h
    exact ⟨rfl, List.head?_eq_some_iff.mp hhead⟩
  | consumer => cases h

omit [DecidableEq α] in
theorem placed_take {t : Party} {w : Wait} (h : s.Placed t (.inside .take w)) :
    t = .consumer ∧ s.returned = false := by
  cases t with
  | producer => cases h
  | consumer => exact ⟨rfl, h⟩

omit [DecidableEq α] in
theorem taken_elem (h : s.returned = false) (x : α) :
    ({ s with queue := q, result := x :: s.result } : Seque α).taken = s.taken ++ [.elem x] := by
  simp [Seque.taken, h]

omit [DecidableEq α] in
theorem taken_eos (h : s.returned = false) :
    ({ s with queue := q, returned := true } : Seque α).taken = s.taken ++ [.eos] := by
  simp [Seque.taken, h]

omit [DecidableEq α] in
/-- A put that ends. -/
theorem put_step (h : SequeInv listed s cells) {cells' : List (Nat × Item α)} {x : Item α}
    (hplaced : s.Placed l.thread (.inside (.put x) .waiting)) (hinv : Inv q cells')
    (hmoved : cells.map Prod.snd ++ [x] = cells'.map Prod.snd)
    (hnotify : Notify .notEmpty (Function.update s.queue.phase l.thread .away) q.phase) :
    SequeInv listed { s with queue := q, remaining := s.remaining.drop 1 } cells' := by
  obtain ⟨hthread, rest, hrest⟩ := placed_put hplaced
  refine ⟨hinv, ?_, h.placed_notify hnotify fun u hu call w w' hu' => ?_⟩
  · show _ = s.taken ++ cells'.map Prod.snd ++ s.remaining.drop 1
    rw [h.split, hrest, ← hmoved]
    simp
  · rw [hthread] at hu
    cases u with
    | producer => exact absurd rfl hu
    | consumer =>
      cases call with
      | put x => cases hu'
      | take => exact hu'

omit [DecidableEq α] in
/-- A take that ends. -/
theorem take_step (h : SequeInv listed s cells) {cells' : List (Nat × Item α)} {x : Item α}
    {s' : Seque α} (hplaced : s.Placed l.thread (.inside .take .waiting))
    (hinv : Inv s'.queue cells') (hmoved : cells.map Prod.snd = x :: cells'.map Prod.snd)
    (htaken : s'.taken = s.taken ++ [x]) (hremaining : s'.remaining = s.remaining)
    (hnotify : Notify .notFull (Function.update s.queue.phase l.thread .away) s'.queue.phase) :
    SequeInv listed s' cells' := by
  obtain ⟨hthread, -⟩ := placed_take hplaced
  refine ⟨hinv, ?_, h.placed_notify hnotify fun u hu call w w' hu' => ?_⟩
  · rw [htaken, hremaining, h.split, hmoved]
    simp
  · rw [hthread] at hu
    cases u with
    | producer =>
      cases call with
      | put x =>
        show s'.remaining.head? = some x
        rw [hremaining]
        exact hu'
      | take => cases hu'
    | consumer => exact absurd rfl hu

omit [DecidableEq α] in
/-- A thread that stays in its call, or begins it. -/
theorem stay_step (h : SequeInv listed s cells) {t : Party} {w : Wait}
    (hplaced : s.Placed t (.inside call w)) (hinv : Inv (s.queue.set t (.inside call w)) cells) :
    SequeInv listed { s with queue := s.queue.set t (.inside call w) } cells := by
  refine ⟨hinv, h.split, fun p => ?_⟩
  show s.Placed p (Function.update s.queue.phase t (.inside call w) p)
  by_cases hp : p = t
  · subst hp
    rw [Function.update_self]
    exact hplaced
  · rw [Function.update_of_ne hp]
    exact h.placed p

omit [DecidableEq α] in
/-- The step lemma. -/
theorem step {s' : Seque α} (h : SequeInv listed s cells) (hstep : SequeStep O s l s') :
    ∃ cells', SequeInv listed s' cells' ∧ Runs s.queue cells l s'.queue cells' := by
  cases hstep with
  | @mk q hallowed hstep =>
    obtain ⟨cells', hruns⟩ := hstep.runs h.inv.holds
    have hinv := h.inv.runs hruns
    refine ⟨cells', ?_, hruns⟩
    cases hruns with
    | waits hcall houtcome _ =>
      rw [after_of_waits O hcall houtcome]
      exact h.stay_step (h.caller hallowed hcall .waiting) hinv
    | @returns call bq item phase _ hcall houtcome _ _ htake hmoved _ _ hnotify =>
      have hplaced := h.caller hallowed hcall .waiting
      cases call with
      | put x =>
        obtain rfl : item = none := by simpa using htake
        rw [after_of_put O hcall houtcome]
        exact h.put_step hplaced hinv hmoved hnotify
      | take =>
        obtain ⟨x, rfl⟩ : ∃ x, item = some x := Option.isSome_iff_exists.mp (htake.mp rfl)
        have hreturned := (placed_take hplaced).2
        have hcells : cells.map Prod.snd = x :: cells'.map Prod.snd := by
          simpa [Call.items] using hmoved
        rw [after_of_take O hcall houtcome]
        cases x with
        | elem x => exact h.take_step hplaced hinv hcells (taken_elem hreturned x) rfl hnotify
        | eos => exact h.take_step hplaced hinv hcells (taken_eos hreturned) rfl hnotify
    | @rouses t call hl hwaits =>
      subst hl
      have hplaced := h.placed t
      rw [hwaits] at hplaced
      refine h.stay_step ?_ hinv
      cases t <;> cases call <;> exact hplaced

end SequeInv

/-! ## §3 Ending -/

/-- A thread that waits has nothing to do until it is woken. -/
def weight : Phase (Item α) → Nat
  | .inside _ .waiting => 0
  | _ => 1

def weights (phase : Party → Phase (Item α)) : Nat :=
  weight (phase .producer) + weight (phase .consumer)

/-- What is left to do. Every item is to be taken, and those that remain are to be put before. -/
def Seque.work (s : Seque α) : Nat :=
  2 * (2 * s.remaining.length + s.queue.bq.count) + weights s.queue.phase

/-- The step is a wake-up without a notification. -/
def isRouse : Label Party (Item α) → Bool
  | .rouse _ => true
  | _ => false

omit [DecidableEq α] in
theorem weights_update (phase : Party → Phase (Item α)) (t : Party) (p : Phase (Item α)) :
    weights (Function.update phase t p) + weight (phase t) = weights phase + weight p := by
  cases t <;> simp [weights, Function.update] <;> omega

omit [DecidableEq α] in
theorem weight_le (p : Phase (Item α)) : weight p ≤ 1 := by
  unfold weight
  split <;> omega

omit [DecidableEq α] in
theorem weights_notify {c : Condition} {phase phase' : Party → Phase (Item α)}
    (h : Notify c phase phase') :
    weights phase' ≤ weights phase + 1 := by
  cases h with
  | @one t call hwaits hc =>
    have hupdate := weights_update phase t (.inside call .notified)
    have hle := weight_le (Phase.inside call .notified)
    omega
  | unheard _ => omega

omit [DecidableEq α] in
/-- A thread whose part under the lock is next does not wait. -/
theorem weight_of_callAt {s : State Party (Item α)} {l : Label Party (Item α)}
    {call : Call (Item α)} (h : callAt s l = some call) : weight (s.phase l.thread) = 1 := by
  rcases phase_of_callAt h with hp | ⟨w, hw, hp⟩
  · rw [hp]
    rfl
  · rw [hp]
    cases w with
    | waiting => exact absurd rfl hw
    | notified => rfl
    | roused => rfl

omit [DecidableEq α] in
/-- A call that ends leaves one item less to put or to take. -/
theorem SequeInv.items_returns {listed : List α} {s : Seque α} {cells cells' : List (Nat × Item α)}
    {l : Label Party (Item α)} {call : Call (Item α)} {bq : BlockingQueue (Item α)}
    {item : Option (Item α)}
    {q : State Party (Item α)} (h : SequeInv listed s cells) (hallowed : s.Allowed l)
    (hcall : callAt s.queue l = some call) (houtcome : critical s.queue.bq call = .returns bq item)
    (htake : call = .take ↔ item.isSome)
    (hmoved : cells.map Prod.snd ++ call.items = item.toList ++ cells'.map Prod.snd) :
    2 * (s.after O l q).remaining.length + cells'.length + 1 =
    2 * s.remaining.length + cells.length := by
  have hplaced := h.caller hallowed hcall .waiting
  have hlength := congrArg List.length hmoved
  cases call with
  | put x =>
    obtain rfl : item = none := by simpa using htake
    obtain ⟨-, rest, hrest⟩ := SequeInv.placed_put hplaced
    rw [SequeInv.after_of_put O hcall houtcome]
    simp [Call.items] at hlength
    simp [hrest]
    omega
  | take =>
    obtain ⟨x, rfl⟩ : ∃ x, item = some x := Option.isSome_iff_exists.mp (htake.mp rfl)
    have hsame : (s.after O l q).remaining = s.remaining := by
      rw [SequeInv.after_of_take O hcall houtcome]
      cases x <;> rfl
    simp [Call.items] at hlength
    rw [hsame]
    omega

omit [DecidableEq α] in
/-- Every step but a wake-up without a notification leaves less to do. -/
theorem SequeInv.work_step {listed : List α} {s s' : Seque α} {cells : List (Nat × Item α)}
    {l : Label Party (Item α)} (h : SequeInv listed s cells) (hstep : SequeStep O s l s') :
    s'.work + 1 ≤ s.work + if isRouse l then 2 else 0 := by
  cases hstep with
  | @mk q hallowed hstep =>
    obtain ⟨cells', hruns⟩ := hstep.runs h.inv.holds
    have hcount := h.inv.holds.count
    have hcount' := (h.inv.runs hruns).holds.count
    cases hruns with
    | @waits call hcall houtcome _ =>
      have hupdate := weights_update s.queue.phase l.thread (.inside call .waiting)
      rw [weight_of_callAt hcall] at hupdate
      rw [SequeInv.after_of_waits O hcall houtcome]
      simp only [Seque.work, State.set, weight] at hupdate ⊢
      omega
    | @returns call bq item phase _ hcall houtcome _ _ htake hmoved _ _ hnotify =>
      have hitems :=
        h.items_returns (O := O) (q := ⟨bq, phase⟩) hallowed hcall houtcome htake hmoved
      have hupdate := weights_update s.queue.phase l.thread .away
      have hnotified := weights_notify hnotify
      have hqueue : (s.after O l ⟨bq, phase⟩).queue = ⟨bq, phase⟩ := rfl
      rw [weight_of_callAt hcall] at hupdate
      simp only [Seque.work, hqueue, weight] at hupdate hcount' ⊢
      omega
    | @rouses t call hl hwaits =>
      subst hl
      have hupdate := weights_update s.queue.phase t (.inside call .roused)
      rw [hwaits] at hupdate
      rw [SequeInv.after_of_rouse O]
      simp only [Seque.work, State.set, weight, isRouse, if_true] at hupdate ⊢
      omega

/-- How often a thread wakes without a notification. -/
def rouses (run : List (Label Party (Item α) × Seque α)) : Nat := run.countP fun p => isRouse p.1

omit [DecidableEq α] in
/-- The run lemma. -/
theorem SequeInv.run {listed : List α} {s : Seque α} {cells : List (Nat × Item α)}
    (h : SequeInv listed s cells) {run : List (Label Party (Item α) × Seque α)}
    (hrun : IsRun (SequeStep O) s run) :
    (∃ cells', SequeInv listed (final s run) cells') ∧
      (final s run).queue.bq.capacity = s.queue.bq.capacity ∧
      run.length + (final s run).work ≤ s.work + 2 * rouses run := by
  induction run generalizing s cells with
  | nil => exact ⟨⟨cells, h⟩, rfl, by simp [final]⟩
  | cons p run ih =>
    obtain ⟨cells₁, hinv, hruns⟩ := h.step hrun.1
    obtain ⟨hcells, hcapacity, hlength⟩ := ih hinv hrun.2
    have hwork := h.work_step hrun.1
    refine ⟨hcells, hcapacity.trans hruns.capacity, ?_⟩
    show _ + (final p.2 run).work ≤ _
    cases hrouse : isRouse p.1 with
    | false =>
      simp [rouses, hrouse] at hwork hlength ⊢
      omega
    | true =>
      simp [rouses, hrouse] at hwork hlength ⊢
      omega

omit [DecidableEq α] in
/-- While the consumer has not returned, a thread can take a step without waking by itself. -/
theorem SequeInv.exists_step {listed : List α} {s : Seque α} {cells : List (Nat × Item α)}
    (h : SequeInv listed s cells) (hcapacity : 0 < s.queue.bq.capacity)
    (hreturned : s.returned = false) :
    ∃ l s', isRouse l = false ∧ SequeStep O s l s' := by
  have hcan : ∀ l call, isRouse l = false → s.Allowed l → callAt s.queue l = some call →
      ∃ l s', isRouse l = false ∧ SequeStep O s l s' := by
    intro l call hrouse hallowed hcall
    obtain ⟨q, hq⟩ := Queue.exists_step hcall
    exact ⟨l, _, hrouse, .mk hallowed hq⟩
  have hconsumer := h.placed .consumer
  have hproducer := h.placed .producer
  cases hc : s.queue.phase .consumer with
  | away => exact hcan (.enter .consumer .take) .take rfl hreturned (by simp [callAt, hc])
  | inside call w =>
    rw [hc] at hconsumer
    cases call with
    | put x => cases hconsumer
    | take =>
      cases w with
      | notified => exact hcan (.resume .consumer) .take rfl trivial (by simp [callAt, hc])
      | roused => exact hcan (.resume .consumer) .take rfl trivial (by simp [callAt, hc])
      | waiting =>
        -- no other thread takes, so the queue is empty
        have hnone : (s.queue.phase .producer).waitAt .notEmpty = none := by
          cases hp : s.queue.phase .producer with
          | away => rfl
          | inside call w =>
            rw [hp] at hproducer
            cases call with
            | put x => rfl
            | take => cases hproducer
        have hwaits : (s.queue.phase .consumer).waitAt .notEmpty = some .waiting := by
          rw [hc]
          rfl
        have hcount : s.queue.bq.count = 0 := by
          by_contra hpos
          obtain ⟨u, hu⟩ := (h.inv.enough .notEmpty).pending (Nat.pos_of_ne_zero hpos) hwaits
          cases u with
          | producer => simp [hnone] at hu
          | consumer => simp [hwaits] at hu
        have hcells : cells = [] := List.eq_nil_of_length_eq_zero (h.inv.holds.count ▸ hcount)
        cases hp : s.queue.phase .producer with
        | away =>
          obtain ⟨item, rest, hrest⟩ : ∃ item rest, s.remaining = item :: rest := by
            cases hr : s.remaining with
            | cons item rest => exact ⟨_, _, rfl⟩
            | nil =>
              have hsplit := h.split
              have heos : Item.eos ∈ s.taken ++ cells.map Prod.snd ++ s.remaining := by
                rw [← hsplit]
                simp
              simp [Seque.taken, hcells, hr, hreturned] at heos
          refine hcan (.enter .producer (.put item)) (.put item) rfl ?_ (by simp [callAt, hp])
          show s.remaining.head? = some item
          rw [hrest]
          rfl
        | inside call w =>
          rw [hp] at hproducer
          cases call with
          | take => cases hproducer
          | put x =>
            cases w with
            | notified => exact hcan (.resume .producer) (.put x) rfl trivial (by simp [callAt, hp])
            | roused => exact hcan (.resume .producer) (.put x) rfl trivial (by simp [callAt, hp])
            | waiting =>
              -- nor does it wait for room
              have hroom : 0 < permits s.queue.bq .notFull := by
                simp only [permits, hcount]
                exact hcapacity
              have hwaits' : (s.queue.phase .producer).waitAt .notFull = some .waiting := by
                rw [hp]
                rfl
              obtain ⟨u, hu⟩ := (h.inv.enough .notFull).pending hroom hwaits'
              cases u with
              | producer => simp [hwaits'] at hu
              | consumer => simp [hc, Phase.waitAt, Call.awaits] at hu

omit [DecidableEq α] in
/-- When the consumer has returned, it has taken what `collection-seq` listed. -/
theorem SequeInv.result_eq {listed : List α} {s : Seque α} {cells : List (Nat × Item α)}
    (h : SequeInv listed s cells) (hreturned : s.returned = true) : s.result.reverse = listed := by
  have hsplit := h.split
  simp only [Seque.taken, hreturned, if_true, List.append_assoc, List.singleton_append] at hsplit
  exact (elems_unique hsplit).1.symm

/-! ## §4 Result -/

/-- The vector that `make` builds from a part of the list represents the list when it is all of it,
unless it is taken for the arguments of a filled vector. -/
theorem makeVector_represents_iff {args xs : List α} (hargs : args ⊆ xs) :
    (∃ v, makeVector O args = .ok v ∧ v.Represents xs) ↔ args = xs ∧ ∀ y,
    xs ≠ [O.initialElement, y] := by
  by_cases hfilled : ∃ y, args = [O.initialElement, y]
  · obtain ⟨y, rfl⟩ := hfilled
    rw [iff_false_right fun h => h.2 y h.1.symm]
    rintro ⟨v, hmake, hxs⟩
    obtain ⟨n, hsize, hrep⟩ := makeVector_filled hmake
    have hmem : y ∈ xs := hargs (by simp)
    rw [represents_unique hxs hrep] at hmem
    rw [List.eq_of_mem_replicate hmem, O.size_initialElement] at hsize
    cases hsize
  · have hne : ∀ y, args ≠ [O.initialElement, y] := fun y h => hfilled ⟨y, h⟩
    rw [makeVector_of_ne hne]
    constructor
    · rintro ⟨v, hv, hxs⟩
      cases hv
      obtain rfl := build_represents_iff.mp hxs
      exact ⟨rfl, hne⟩
    · rintro ⟨rfl, -⟩
      exact ⟨_, rfl, buildVecTFromList_represents _⟩

variable (O)

/-- In every run of `seque`, so many steps are left that a thread can take until the call has
returned, and it returns a vector of the elements. -/
def SequeRight (size : Option Int) (arg : Argument α) (xs : List α) : Prop :=
  ∀ run, IsRun (SequeStep O) (seque O size arg) run →
    run.length ≤ 4 * xs.length + 6 + 2 * rouses run ∧
    ((final (seque O size arg) run).returned = false →
      ∃ l s', isRouse l = false ∧ SequeStep O (final (seque O size arg) run) l s') ∧
    ((final (seque O size arg) run).returned = true →
      ∃ v, makeVector O (final (seque O size arg) run).result.reverse = .ok v ∧ v.Represents xs)

variable {O}

theorem inv_seque (size : Option Int) (arg : Argument α) :
    SequeInv (collectionSeq O arg) (seque O size arg) [] where
  inv := inv_start _
  split := by simp [seque, Seque.taken]
  placed p := by cases p <;> trivial

theorem bufferSize_pos (size : Option Int) : 0 < bufferSize size := by
  unfold bufferSize
  dsimp only
  split
  · exact Nat.one_pos
  · omega

omit [DecidableEq α] in
/-- Some run goes on until the consumer has returned. -/
theorem SequeInv.exists_returned {listed : List α} {s : Seque α} {cells : List (Nat × Item α)}
    (h : SequeInv listed s cells) (hcapacity : 0 < s.queue.bq.capacity) :
    ∃ run, IsRun (SequeStep O) s run ∧ (final s run).returned = true := by
  induction hwork : s.work using Nat.strong_induction_on generalizing s cells with
  | _ work ih =>
    cases hreturned : s.returned with
    | true => exact ⟨[], trivial, hreturned⟩
    | false =>
      obtain ⟨l, s', hrouse, hstep⟩ := h.exists_step (O := O) hcapacity hreturned
      obtain ⟨cells', h', hruns⟩ := h.step hstep
      have hless := h.work_step hstep
      rw [hrouse] at hless
      simp only [Bool.false_eq_true, if_false] at hless
      have hcapacity' := hruns.capacity
      obtain ⟨run, hrun, hdone⟩ := ih s'.work (by omega) h' (by omega) rfl
      exact ⟨(l, s') :: run, ⟨hstep, hrun⟩, hdone⟩

/-- `seque` is right if its argument is listed whole, and its elements are not the two arguments of
a filled vector. -/
theorem sequeRight_iff (size : Option Int) {arg : Argument α} {xs : List α} (harg : arg.Has xs) :
    SequeRight O size arg xs ↔ arg.Whole O xs ∧ ∀ y, xs ≠ [O.initialElement, y] := by
  have hinv := inv_seque (O := O) size arg
  have hcapacity : 0 < (seque O size arg).queue.bq.capacity := bufferSize_pos size
  have hsub : collectionSeq O arg ⊆ xs := collectionSeq_subset harg
  have hall : collectionSeq O arg = xs ↔ arg.Whole O xs := collectionSeq_eq_iff harg
  have hmake := makeVector_represents_iff (O := O) hsub
  rw [hall] at hmake
  rw [← hmake]
  constructor
  · intro hright
    obtain ⟨run, hrun, hreturned⟩ := hinv.exists_returned (O := O) hcapacity
    obtain ⟨⟨cells, hfinal⟩, -⟩ := hinv.run hrun
    have hresult := (hright run hrun).2.2 hreturned
    rwa [hfinal.result_eq hreturned] at hresult
  · intro hresult run hrun
    obtain ⟨⟨cells, hfinal⟩, hcap, hlength⟩ := hinv.run hrun
    have hwork : (seque O size arg).work = 4 * (collectionSeq O arg).length + 6 := by
      simp [Seque.work, seque, start, weights, weight]
      omega
    refine ⟨?_, fun hreturned => ?_, fun hreturned => ?_⟩
    · have hle : (collectionSeq O arg).length ≤ xs.length := by
        rw [hall.mpr (hmake.mp hresult).1]
      omega
    · exact hfinal.exists_step (hcap ▸ hcapacity) hreturned
    · rwa [hfinal.result_eq hreturned]

end

/-- `:eof` is 0, `:initial-element` is 1 and NIL is 2; the others are their own sizes. -/
def numbers : Objects Nat where
  sxhash := id
  eof := 0
  initialElement := 1
  nil := 2
  size n := if n < 3 then none else some n
  size_initialElement := rfl

end Fol.Queue

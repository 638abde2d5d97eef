/-
Fol.Async.Alts — one round of `alts!!` over several channels, against `<!!` and `>!!`.

`%alts-try-once` calls `offer!` and `poll!`. They refuse what the blocking operations answer
at once on a closed channel, a put that is accepted is reported with its value and not with
T, and a take from a buffer does not wake the put that waits for room. An error of a
transducer leaves the round, whatever else is listed.

  §1 Calls      — what a call returns: `putCall`, `takeCall`, `offerCall`, `pollCall`.
  §2 Rounds     — `shuffle`, `tryOps`, `altsTryOnce`.
  §3 Agreement  — `Agrees`, `AgreesWhen`.
  §4 Waking     — a notification wakes one call, or there is none to wake.
  §5 Each call  — how the two calls for one operation compare.
  §6 Whole      — `altsTryOnce_agrees_iff`.
-/
import Fol.Async.Moves
import Mathlib.Data.List.Count

namespace Fol.Async

variable {C S V R : Type}

/-! ## §1 Calls -/

/-- How a call ends that does not wait: it returns, or an error leaves it. -/
inductive Ends (S V R : Type) where
  | returned (result : R) (s : State S V)
  | signalled (s : State S V)

def Ends.state : Ends S V R → State S V
  | .returned _ s => s
  | .signalled s => s

@[simp] theorem Ends.state_returned (result : R) (s : State S V) :
    (Ends.returned result s).state = s := rfl

@[simp] theorem Ends.state_signalled (s : State S V) :
    (Ends.signalled s : Ends S V R).state = s := rfl

def Ends.map {R' : Type} (f : R → R') : Ends S V R → Ends S V R'
  | .returned result s => .returned (f result) s
  | .signalled s => .signalled s

section

variable (s : State S V)

/-- A value goes through the transducer into the buffer. -/
def addCall (b : Buffer (Item V)) (x : Item V) (w : Nat) : Ends S V Bool :=
  if (applyXfOrAdd s.xf b x).2.2 then .returned true (addTo s b x w) else .signalled (addTo s b x w)

/-- `>!!`, with T for `true` and NIL for `false`; `none` where it waits. -/
def putCall (v : V) (w : Nat) : Option (Ends S V Bool) :=
  let x : Item V := ⟨s.sent, v⟩
  let s := { s with sent := s.sent + 1 }
  if s.closed then some (.returned false (putReturns s x false))
  else
    match s.buf with
    | some b =>
      if b.fullP then
        match s.pendingTakes with
        | cell :: rest => some (.returned true (putReturns (handOff s cell rest x w) x true))
        | [] => none
      else
        match s.pendingTakes with
        | cell :: rest => some (.returned true (putReturns (handOff s cell rest x w) x true))
        | [] => some (addCall s b x w)
    | none =>
      match s.pendingTakes with
      | cell :: rest => some (.returned true (putReturns (handOff s cell rest x w) x true))
      | [] => none

/-- `<!!`; `none` where it waits. -/
def takeCall (nil : V) (w : Nat) : Option (Ends S V V) :=
  match s.buf.bind Buffer.takeBang with
  | some (x, b) =>
    match admitPut s b w with
    | (s, false) => some (.signalled s)
    | (s, true) => some (.returned x.value (takeReturns (notify s .notFull w) x))
  | none =>
    match s.pendingPuts with
    | x :: rest => some (.returned x.value (takeFromPut s x rest w))
    | [] => if s.closed then some (.returned nil s) else none

/-- `offer!`. -/
def offerCall (v : V) (w : Nat) : Ends S V Bool :=
  let x : Item V := ⟨s.sent, v⟩
  let s := { s with sent := s.sent + 1 }
  if s.closed then .returned false (putReturns s x false)
  else
    match s.pendingTakes with
    | cell :: rest => .returned true (putReturns (handOff s cell rest x w) x true)
    | [] =>
      match s.buf with
      | some b => if b.fullP then .returned false (putReturns s x false) else addCall s b x w
      | none => .returned false (putReturns s x false)

/-- `poll!`; its two values are one option. -/
def pollCall (w : Nat) : Ends S V (Option V) :=
  match s.buf.bind Buffer.takeBang with
  | some (x, b) =>
    match admitPut s b w with
    | (s, false) => .signalled s
    | (s, true) => .returned (some x.value) (takeReturns s x)
  | none =>
    match s.pendingPuts with
    | x :: rest => .returned (some x.value) (takeFromPut s x rest w)
    | [] => .returned none s

@[simp] theorem state_addCall (b : Buffer (Item V)) (x : Item V) (w : Nat) :
    (addCall s b x w).state = addTo s b x w := by
  unfold addCall
  split <;> rfl

theorem state_offerCall (v : V) (w : Nat) : (offerCall s v w).state = offerBang s v w := by
  unfold offerCall offerBang offerItem
  cases hclosed : s.closed with
  | true => rfl
  | false =>
    cases htakes : s.pendingTakes with
    | cons cell rest => simp
    | nil =>
      cases hbuf : s.buf with
      | none => simp
      | some b => cases hfull : b.fullP <;> simp [hfull]

theorem state_pollCall (w : Nat) : (pollCall s w).state = pollBang s w := by
  unfold pollCall pollBang
  cases hbuf : s.buf.bind Buffer.takeBang with
  | some p =>
    obtain ⟨x, b⟩ := p
    rcases hgets : admitPut s b w with ⟨s₁, _ | _⟩ <;> simp [hgets]
  | none => cases hputs : s.pendingPuts <;> simp

theorem state_takeCall {nil : V} {w : Nat} {e : Ends S V V} (h : takeCall s nil w = some e) :
    e.state = take s w := by
  unfold take
  unfold takeCall at h
  cases hbuf : s.buf.bind Buffer.takeBang with
  | some p =>
    obtain ⟨x, b⟩ := p
    rcases hgets : admitPut s b w with ⟨s₁, _ | _⟩ <;>
    · simp only [hbuf, hgets, Option.some.injEq] at h
      simp [← h, hgets]
  | none =>
    cases hputs : s.pendingPuts with
    | cons x rest =>
      simp only [hbuf, hputs, Option.some.injEq] at h
      simp [← h]
    | nil =>
      cases hclosed : s.closed with
      | false => simp [hbuf, hputs, hclosed] at h
      | true =>
        simp only [hbuf, hputs, hclosed, if_true, Option.some.injEq] at h
        simp [← h]

end

/-! ## §2 Rounds -/

/-- `%shuffle`: each position from the last one down changes places with one that is not behind
it. `random i` stands for the answer to `(random (1+ i))`. -/
def shuffle {α : Type} (random : Nat → Nat) (lst : List α) : List α :=
  ((List.range (lst.length - 1)).reverse.foldl
    (fun vec i => vec.swapIfInBounds (i + 1) (random (i + 1) % (i + 2))) lst.toArray).toList

/-- An operation of `alts!!`: a channel, or a list of a channel and what follows it. -/
inductive AltsOp (C V : Type) where
  | channel (ch : C)
  | list (ch : C) (values : List V)
deriving DecidableEq

def AltsOp.ch : AltsOp C V → C
  | .channel ch => ch
  | .list ch _ => ch

/-- The value of a put; the other operations are takes. -/
def AltsOp.value : AltsOp C V → Option V
  | .channel _ => none
  | .list _ values => values.head?

/-- How a round ends: with a result and the channel that fired, with nothing, with an error. -/
inductive Round (C S V : Type) where
  | fired (result : V) (ch : C) (world : C → State S V)
  | nothing
  | signalled (world : C → State S V)

section

variable [DecidableEq C] (world : C → State S V)

/-- The `dolist` of `%alts-try-once`. What is refused leaves the channel as it was: the number
and the record of the put are not kept. -/
def tryOps (w : Nat) : List (AltsOp C V) → Round C S V
  | [] => .nothing
  | op :: rest =>
    match op.value with
    | some v =>
      match offerCall (world op.ch) v w with
      | .returned true s => .fired v op.ch (Function.update world op.ch s)
      | .returned false _ => tryOps w rest
      | .signalled s => .signalled (Function.update world op.ch s)
    | none =>
      match pollCall (world op.ch) w with
      | .returned (some v) s => .fired v op.ch (Function.update world op.ch s)
      | .returned none _ => tryOps w rest
      | .signalled s => .signalled (Function.update world op.ch s)

/-- The order in which the operations are tried. -/
def tryOrder (priority : Bool) (random : Nat → Nat) (ops : List (AltsOp C V)) : List (AltsOp C V) :=
  if priority then ops else shuffle random ops

/-- `%alts-try-once`. -/
def altsTryOnce (w : Nat) (priority : Bool) (random : Nat → Nat) (ops : List (AltsOp C V)) :
    Round C S V :=
  tryOps world w (tryOrder priority random ops)

/-! ## §3 Agreement -/

/-- The operation as `>!!` or `<!!`. -/
def blocking (t nil : V) (w : Nat) (op : AltsOp C V) : Option (Ends S V V) :=
  match op.value with
  | some v => (putCall (world op.ch) v w).map (Ends.map fun accepted => if accepted then t else nil)
  | none => takeCall (world op.ch) nil w

/-- A round reports a channel exactly if an operation would return at once, and what it reports
and leaves is what one of these does. -/
structure Agrees (t nil : V) (w : Nat) (ops : List (AltsOp C V)) (round : Round C S V) : Prop where
  ready : (∃ result ch world', round = .fired result ch world') ↔
    ∃ op ∈ ops, ∃ result s, blocking world t nil w op = some (.returned result s)
  effect : ∀ result ch world', round = .fired result ch world' →
    ∃ op ∈ ops, op.ch = ch ∧ ∃ s, blocking world t nil w op = some (.returned result s) ∧
      world' = Function.update world ch s

end

section

variable (s : State S V)

/-- `offer!` is refused: the channel is closed, or there is no taker and no room. -/
def putIdle : Bool :=
  s.closed || (s.pendingTakes.isEmpty &&
    match s.buf with
    | some b => b.fullP
    | none => true)

/-- `poll!` is refused: the channel has no value. -/
def takeIdle : Bool := (s.buf.bind Buffer.takeBang).isNone && s.pendingPuts.isEmpty

/-- The value goes into the buffer and the transducer signals an error. -/
def putRaises (v : V) : Bool :=
  s.pendingTakes.isEmpty &&
    match s.buf with
    | some b => !(applyXfOrAdd s.xf b ⟨s.sent, v⟩).2.2
    | none => false

/-- A pending put is admitted and the transducer signals an error. -/
def takeRaises : Bool :=
  match s.buf.bind Buffer.takeBang with
  | some (_, b) =>
    match s.pendingPuts with
    | y :: _ => !(applyXfOrAdd s.xf b y).2.2
    | [] => false
  | none => false

/-- The calls that sleep on a condition variable. -/
def asleepOn (cv : Cv) : Nat := s.waiting.countP (Waiter.asleep cv)

/-- A value that is taken from the buffer has nobody to wake, the put apart that is admitted. -/
def WakesAll : Prop :=
  (s.buf.bind Buffer.takeBang).isSome → asleepOn s .notFull ≤ if s.pendingPuts = [] then 0 else 1

end

section

variable (world : C → State S V) (op : AltsOp C V)

def AltsOp.idle : Bool :=
  match op.value with
  | some _ => putIdle (world op.ch)
  | none => takeIdle (world op.ch)

def AltsOp.raises : Bool :=
  match op.value with
  | some v => putRaises (world op.ch) v
  | none => takeRaises (world op.ch)

/-- Neither waits nor ends in an error. -/
def AltsOp.AtOnce : Prop :=
  if op.idle world then (world op.ch).closed = true else op.raises world = false

/-- Does what the blocking operation does: a put of T, or a take that leaves nobody asleep whom
`<!!` wakes. -/
def AltsOp.Matches (t : V) : Prop :=
  match op.value with
  | some v => v = t
  | none => WakesAll (world op.ch)

/-- Where a round agrees: the first operation in the order that is not refused matches, or it
ends in an error and no operation returns at once; where all are refused, no channel is closed. -/
def AgreesWhen (t : V) (ops order : List (AltsOp C V)) : Prop :=
  match order.find? fun op => !op.idle world with
  | some op => if op.raises world then ∀ op ∈ ops, ¬op.AtOnce world else op.Matches world t
  | none => ∀ op ∈ ops, ¬(world op.ch).closed

end

/-! ## §4 Waking -/

section Waking

theorem countP_modify {α : Type} {p : α → Bool} {f : α → α} {t : α} (hp : p t)
    (hf : p (f t) = false) {i : Nat} {l : List α} (h : l[i]? = some t) :
    (l.modify i f).countP p + 1 = l.countP p := by
  induction l generalizing i with
  | nil => simp at h
  | cons x l ih =>
    cases i with
    | zero =>
      obtain rfl : x = t := by simpa using h
      simp [hp, hf]
    | succ i =>
      have hrest := ih (by simpa using h)
      simp only [List.modify_succ_cons, List.countP_cons]
      omega

/-- No waiting call has an index at which one sleeps. -/
theorem asleep_eq_nil_iff {cv : Cv} {waiting : List (Waiter V)} :
    (List.range waiting.length).filter (fun i => waiting[i]?.any (Waiter.asleep cv)) = [] ↔
      waiting.countP (Waiter.asleep cv) = 0 := by
  rw [List.filter_eq_nil_iff, List.countP_eq_zero]
  constructor
  · intro h t ht hsleeps
    obtain ⟨i, hi, rfl⟩ := List.mem_iff_getElem.mp ht
    have hnot := h i (List.mem_range.mpr hi)
    simp [hi, hsleeps] at hnot
  · intro h i hi
    have hlt := List.mem_range.mp hi
    simpa [hlt] using h _ (List.getElem_mem hlt)

/-- A notification wakes one call, if one sleeps. -/
theorem asleepOn_notify (s : State S V) (cv : Cv) (w : Nat) :
    asleepOn (notify s cv w) cv = asleepOn s cv - 1 := by
  unfold asleepOn notify wake
  dsimp only
  split
  · rename_i hnone
    have hempty : (List.range s.waiting.length).filter
        (fun i => s.waiting[i]?.any (Waiter.asleep cv)) = [] := by
      by_contra hne
      have hlt := Nat.mod_lt w (List.length_pos_iff.mpr hne)
      exact absurd (List.getElem?_eq_none_iff.mp hnone) (Nat.not_le.mpr hlt)
    rw [asleep_eq_nil_iff.mp hempty]
  · rename_i i hsome
    obtain ⟨-, hi⟩ := List.mem_filter.mp (List.mem_of_getElem? hsome)
    obtain ⟨t, ht, hsleeps⟩ := (Option.any_eq_true _ _).mp hi
    have hwoken : Waiter.asleep cv { t with notified := true } = false := by simp [Waiter.asleep]
    have hcount := countP_modify (f := fun t => { t with notified := true }) hsleeps hwoken ht
    omega

theorem notify_eq_self_iff (s : State S V) (cv : Cv) (w : Nat) :
    notify s cv w = s ↔ asleepOn s cv = 0 := by
  constructor
  · intro h
    have hcount := asleepOn_notify s cv w
    rw [h] at hcount
    omega
  · intro h
    unfold notify wake
    simp [asleep_eq_nil_iff.mpr h]

end Waking

/-! ## §5 Each call -/

section EachCall

variable {s : State S V} {v nil : V} {w : Nat}

/-- What `offer!` refuses leaves nothing but its number and its record. -/
theorem offerCall_of_idle (h : putIdle s) :
    offerCall s v w =
    .returned false (putReturns { s with sent := s.sent + 1 } ⟨s.sent, v⟩ false) := by
  unfold offerCall
  cases hclosed : s.closed with
  | true => simp
  | false =>
    simp only [putIdle, hclosed, Bool.false_or, Bool.and_eq_true, List.isEmpty_iff] at h
    obtain ⟨htakes, hbuf⟩ := h
    cases hb : s.buf with
    | none => simp [htakes]
    | some b =>
      have hfull : b.fullP := by simpa [hb] using hbuf
      simp [htakes, hfull]

theorem putCall_of_idle (h : putIdle s) :
    (s.closed → ∃ s', putCall s v w = some (.returned false s')) ∧
      (¬s.closed → putCall s v w = none) := by
  unfold putCall
  cases hclosed : s.closed with
  | true => exact ⟨fun _ => ⟨_, rfl⟩, fun hopen => absurd rfl hopen⟩
  | false =>
    simp only [putIdle, hclosed, Bool.false_or, Bool.and_eq_true, List.isEmpty_iff] at h
    obtain ⟨htakes, hbuf⟩ := h
    refine ⟨by simp, fun _ => ?_⟩
    cases hb : s.buf with
    | none => simp [htakes]
    | some b =>
      have hfull : b.fullP := by simpa [hb] using hbuf
      simp [htakes, hfull]

/-- Where `offer!` is not refused, `>!!` does the same. -/
theorem putCall_of_busy (h : putIdle s = false) : putCall s v w = some (offerCall s v w) := by
  simp only [putIdle, Bool.or_eq_false_iff] at h
  obtain ⟨hopen, h⟩ := h
  unfold putCall offerCall
  cases htakes : s.pendingTakes with
  | cons cell rest => cases hb : s.buf <;> simp [hopen]
  | nil =>
    simp only [htakes, List.isEmpty_nil, Bool.true_and] at h
    cases hb : s.buf with
    | none => simp [hb] at h
    | some b =>
      have hroom : b.fullP = false := by simpa [hb] using h
      simp [hopen, hroom]

/-- It hands the value over, or adds it to the buffer unless that signals an error. -/
theorem offerCall_of_busy (h : putIdle s = false) :
    offerCall s v w =
      if putRaises s v then .signalled (offerBang s v w) else .returned true (offerBang s v w) := by
  simp only [putIdle, Bool.or_eq_false_iff] at h
  obtain ⟨hopen, h⟩ := h
  rw [← state_offerCall]
  unfold offerCall putRaises
  cases htakes : s.pendingTakes with
  | cons cell rest => simp [hopen, Ends.state]
  | nil =>
    simp only [htakes, List.isEmpty_nil, Bool.true_and] at h
    cases hb : s.buf with
    | none => simp [hb] at h
    | some b =>
      have hroom : b.fullP = false := by simpa [hb] using h
      cases hfine : (applyXfOrAdd s.xf b ⟨s.sent, v⟩).2.2 <;>
        simp [hopen, hroom, addCall, hfine, Ends.state]

/-- A put that returns is recorded. -/
theorem length_puts_putCall {result : Bool} {s' : State S V}
    (h : putCall s v w = some (.returned result s')) :
    s'.history.puts.length = s.history.puts.length + 1 := by
  unfold putCall at h
  cases hclosed : s.closed with
  | true =>
    simp only [hclosed, if_true, Option.some.injEq, Ends.returned.injEq] at h
    simp [← h.2, putReturns]
  | false =>
    cases htakes : s.pendingTakes with
    | cons cell rest =>
      have hs : putReturns (handOff { s with sent := s.sent + 1 } cell rest ⟨s.sent, v⟩ w)
        ⟨s.sent, v⟩
          true = s' := by
        cases hb : s.buf <;> simp_all
      simp [← hs, putReturns, handOff, notify, accept]
    | nil =>
      cases hb : s.buf with
      | none => simp [hclosed, htakes, hb] at h
      | some b =>
        cases hfull : b.fullP with
        | true => simp [hclosed, htakes, hb, hfull] at h
        | false =>
          cases hfine : (applyXfOrAdd s.xf b ⟨s.sent, v⟩).2.2 with
          | false => simp [hclosed, htakes, hb, hfull, addCall, hfine] at h
          | true =>
            simp only [hclosed, htakes, hb, hfull, addCall, hfine, Bool.false_eq_true, if_false,
              if_true, Option.some.injEq, Ends.returned.injEq] at h
            simp [← h.2, addTo, hfine, putReturns, notify, accept]

theorem pollCall_of_idle (h : takeIdle s) : pollCall s w = .returned none s := by
  simp only [takeIdle, Bool.and_eq_true, Option.isNone_iff_eq_none, List.isEmpty_iff] at h
  simp [pollCall, h.1, h.2]

theorem takeCall_of_idle (h : takeIdle s) :
    takeCall s nil w = if s.closed then some (.returned nil s) else none := by
  simp only [takeIdle, Bool.and_eq_true, Option.isNone_iff_eq_none, List.isEmpty_iff] at h
  simp [takeCall, h.1, h.2]

/-- `poll!` leaves out the last notification of `<!!`. -/
theorem takeReturns_notify_iff (s : State S V) (x : Item V) (w : Nat) :
    takeReturns s x = takeReturns (notify s .notFull w) x ↔ asleepOn s .notFull = 0 := by
  rw [← notify_eq_self_iff s .notFull w]
  constructor
  · intro h
    have hwaiting : s.waiting = wake .notFull w s.waiting :=
      congrArg (fun s : State S V => s.waiting) h
    unfold notify
    rw [← hwaiting]
  · intro h
    rw [h]

theorem pollCall_of_raises (h : takeRaises s) :
    ∃ s', pollCall s w = .signalled s' ∧ ∀ nil, takeCall s nil w = some (.signalled s') := by
  unfold takeRaises at h
  unfold pollCall takeCall admitPut
  cases hbuf : s.buf.bind Buffer.takeBang with
  | none => simp [hbuf] at h
  | some p =>
    obtain ⟨x, b⟩ := p
    cases hputs : s.pendingPuts with
    | nil => simp [hbuf, hputs] at h
    | cons y rest =>
      have hfine : (applyXfOrAdd s.xf b y).2.2 = false := by simpa [hbuf, hputs] using h
      simp [hfine]

/-- A pending put that is admitted wakes one call. -/
theorem asleepOn_admitPut {p : Item V × Buffer (Item V)}
    (hbuf : s.buf.bind Buffer.takeBang = some p) (h : takeRaises s = false) :
    ∃ s₁, admitPut s p.2 w = (s₁, true) ∧
      asleepOn s₁ .notFull = asleepOn s .notFull - if s.pendingPuts = [] then 0 else 1 := by
  unfold takeRaises at h
  unfold admitPut
  cases hputs : s.pendingPuts with
  | nil => exact ⟨_, rfl, by simp [asleepOn]⟩
  | cons y rest =>
    have hfine : (applyXfOrAdd s.xf p.2 y).2.2 = true := by simpa [hbuf, hputs] using h
    simp only [hfine, if_true]
    exact ⟨_, rfl, by rw [asleepOn_notify]; simp [asleepOn, accept]⟩

/-- Where `poll!` is not refused, `<!!` takes the same value, and leaves the same state where it
has nobody else to wake. -/
theorem pollCall_of_busy (h : takeIdle s = false) (hr : takeRaises s = false) :
    ∃ v s₁ s₂, pollCall s w = .returned (some v) s₁ ∧
      (∀ nil, takeCall s nil w = some (.returned v s₂)) ∧ (s₁ = s₂ ↔ WakesAll s) := by
  unfold WakesAll pollCall takeCall
  cases hbuf : s.buf.bind Buffer.takeBang with
  | none =>
    cases hputs : s.pendingPuts with
    | nil => simp [takeIdle, hbuf, hputs] at h
    | cons y rest => simp
  | some p =>
    obtain ⟨s₁, hgets, hcount⟩ := asleepOn_admitPut (w := w) hbuf hr
    refine ⟨p.1.value, takeReturns s₁ p.1, takeReturns (notify s₁ .notFull w) p.1, by simp [hgets],
      fun nil => by simp [hgets], ?_⟩
    rw [takeReturns_notify_iff, hcount, Nat.sub_eq_zero_iff_le]
    simp

theorem puts_admitPut (b : Buffer (Item V)) : (admitPut s b w).1.history.puts = s.history.puts := by
  unfold admitPut
  cases s.pendingPuts with
  | nil => rfl
  | cons y rest => cases hfine : (applyXfOrAdd s.xf b y).2.2 <;> simp [hfine, notify, accept]

theorem Takes.history_puts {s' : State S V} (h : Takes s s') :
    s'.history.puts = s.history.puts := by
  cases h with
  | buffered w hbuf hgets hmark =>
    obtain ⟨_, -, rfl⟩ := hmark
    exact (congrArg (fun p => p.1.history.puts) hgets).symm.trans (puts_admitPut _)
  | raised w hbuf hgets =>
    exact (congrArg (fun p => p.1.history.puts) hgets).symm.trans (puts_admitPut _)
  | fromPut => rfl
  | nothing => rfl
  | registers => rfl

/-- A take records no put. -/
theorem puts_takeCall {result : V} {s' : State S V}
    (h : takeCall s nil w = some (.returned result s')) :
    s'.history.puts = s.history.puts := by
  have hs : s' = take s w := state_takeCall s h
  rw [hs]
  exact (takes_take s w).history_puts

theorem puts_pollCall {result : Option V} {s' : State S V}
    (h : pollCall s w = .returned result s') :
    s'.history.puts = s.history.puts := by
  have hs : s' = pollBang s w := by rw [← state_pollCall, h, Ends.state_returned]
  rw [hs]
  exact (takes_pollBang s w).history_puts

end EachCall

/-! ## §6 Whole -/

section Whole

theorem perm_shuffle {α : Type} (random : Nat → Nat) (lst : List α) :
    (shuffle random lst).Perm lst := by
  have hfold (is : List Nat) (vec : Array α) (his : ∀ i ∈ is, i + 1 < vec.size) :
      (is.foldl (fun vec i => vec.swapIfInBounds (i + 1) (random (i + 1) % (i + 2))) vec).Perm
      vec := by
    induction is generalizing vec with
    | nil => exact .refl _
    | cons i is ih =>
      have hi := his i List.mem_cons_self
      have hj : random (i + 1) % (i + 2) < vec.size :=
        Nat.lt_of_lt_of_le (Nat.mod_lt _ (by omega)) (by omega)
      have hswap : (vec.swapIfInBounds (i + 1) (random (i + 1) % (i + 2))).Perm vec := by
        rw [Array.swapIfInBounds_def, dif_pos hi, dif_pos hj]
        exact Array.swap_perm hi hj
      refine (ih _ fun j hj => ?_).trans hswap
      rw [Array.size_swapIfInBounds]
      exact his j (List.mem_cons_of_mem _ hj)
  have hbound : ∀ i ∈ (List.range (lst.length - 1)).reverse, i + 1 < lst.toArray.size := by
    intro i hi
    have hlt := List.mem_range.mp (List.mem_reverse.mp hi)
    rw [List.size_toArray]
    omega
  exact Array.perm_iff_toList_perm.mp (hfold _ _ hbound)

theorem mem_tryOrder {priority : Bool} {random : Nat → Nat} {ops : List (AltsOp C V)}
    {op : AltsOp C V} :
    op ∈ tryOrder priority random ops ↔ op ∈ ops := by
  cases priority with
  | true => rfl
  | false => exact (perm_shuffle random ops).mem_iff

variable [DecidableEq C] {world : C → State S V} {op : AltsOp C V} {t nil : V} {w : Nat}

theorem tryOps_of_idle (h : op.idle world) (rest : List (AltsOp C V)) :
    tryOps world w (op :: rest) = tryOps world w rest := by
  rw [tryOps]
  unfold AltsOp.idle at h
  cases hv : op.value with
  | some v =>
    rw [hv] at h
    simp [offerCall_of_idle h]
  | none =>
    rw [hv] at h
    simp [pollCall_of_idle h]

/-- An error leaves the round. -/
theorem tryOps_of_raises (hbusy : op.idle world = false) (h : op.raises world = true)
    (rest : List (AltsOp C V)) : ∃ world', tryOps world w (op :: rest) = .signalled world' := by
  rw [tryOps]
  cases hv : op.value with
  | some v =>
    simp only [AltsOp.idle, AltsOp.raises, hv] at hbusy h
    simp only [offerCall_of_busy hbusy, if_pos h]
    exact ⟨_, rfl⟩
  | none =>
    simp only [AltsOp.raises, hv] at h
    obtain ⟨s', hpoll, -⟩ := pollCall_of_raises (w := w) h
    simp only [hpoll]
    exact ⟨_, rfl⟩

omit [DecidableEq C] in
theorem putCall_of_blocking {v result : V} {s : State S V} (hv : op.value = some v)
    (h : blocking world t nil w op = some (.returned result s)) :
    ∃ accepted, putCall (world op.ch) v w = some (.returned accepted s) ∧
      result = if accepted then t else nil := by
  simp only [blocking, hv, Option.map_eq_some_iff] at h
  obtain ⟨e, hput, he⟩ := h
  cases e with
  | signalled s' => cases he
  | returned accepted s' =>
    cases he
    exact ⟨accepted, hput, rfl⟩

/-- What is not refused fires, and it is what a blocking operation on the channel does exactly
if it matches. -/
theorem tryOps_of_fires (t nil : V) (hbusy : op.idle world = false) (h : op.raises world = false)
    (rest : List (AltsOp C V)) :
    ∃ result s, tryOps world w (op :: rest) = .fired result op.ch (Function.update world op.ch s) ∧
      (op.Matches world t → blocking world t nil w op = some (.returned result s)) ∧
      ∀ op' : AltsOp C V, op'.ch = op.ch → blocking world t nil w op' = some (.returned result s) →
        op.Matches world t := by
  rw [tryOps]
  cases hv : op.value with
  | some v =>
    simp only [AltsOp.idle, AltsOp.raises, hv] at hbusy h
    have hoffer : offerCall (world op.ch) v w = .returned true (offerBang (world op.ch) v w) := by
      rw [offerCall_of_busy hbusy, h]
      rfl
    have hput : putCall (world op.ch) v w =
      some (.returned true (offerBang (world op.ch) v w)) := by
      rw [putCall_of_busy hbusy, hoffer]
    simp only [hoffer]
    refine ⟨v, _, rfl, fun hmatch => ?_, fun op' hch hop' => ?_⟩
    · simp only [AltsOp.Matches, hv] at hmatch
      simp only [blocking, hv, hput, Option.map_some, Ends.map, if_true]
      rw [hmatch]
    · simp only [AltsOp.Matches, hv]
      cases hv' : op'.value with
      | some v' =>
        obtain ⟨accepted, hput', hresult⟩ := putCall_of_blocking hv' hop'
        rw [hch, putCall_of_busy hbusy, offerCall_of_busy hbusy] at hput'
        split at hput'
        · simp at hput'
        · simp only [Option.some.injEq, Ends.returned.injEq] at hput'
          rwa [← hput'.1, if_pos rfl] at hresult
      | none =>
        simp only [blocking, hv', hch] at hop'
        have hsame := puts_takeCall hop'
        have hmore := length_puts_putCall hput
        rw [hsame] at hmore
        omega
  | none =>
    simp only [AltsOp.idle, AltsOp.raises, hv] at hbusy h
    obtain ⟨v, s₁, s₂, hpoll, htake, hsame⟩ := pollCall_of_busy (w := w) hbusy h
    simp only [hpoll]
    refine ⟨v, s₁, rfl, fun hmatch => ?_, fun op' hch hop' => ?_⟩
    · simp only [AltsOp.Matches, hv] at hmatch
      simp [blocking, hv, htake, hsame.mpr hmatch]
    · simp only [AltsOp.Matches, hv]
      refine hsame.mp ?_
      cases hv' : op'.value with
      | some v' =>
        obtain ⟨accepted, hput', -⟩ := putCall_of_blocking hv' hop'
        rw [hch] at hput'
        have hmore := length_puts_putCall hput'
        rw [puts_pollCall hpoll] at hmore
        omega
      | none =>
        simp only [blocking, hv', hch, htake, Option.some.injEq, Ends.returned.injEq,
          true_and] at hop'
        exact hop'.symm

omit [DecidableEq C] in
/-- Which blocking operations return at once. -/
theorem atOnce_iff : (∃ result s, blocking world t nil w op = some (.returned result s)) ↔
    op.AtOnce world := by
  cases hv : op.value with
  | some v =>
    simp only [blocking, AltsOp.AtOnce, AltsOp.idle, AltsOp.raises, hv]
    cases hidle : putIdle (world op.ch) with
    | true =>
      obtain ⟨hclosed, hopen⟩ := putCall_of_idle (v := v) (w := w) hidle
      by_cases hc : (world op.ch).closed
      · obtain ⟨s', hput⟩ := hclosed hc
        simp [hput, hc, Ends.map]
      · simp [hopen hc, hc]
    | false =>
      rw [putCall_of_busy hidle, offerCall_of_busy hidle]
      cases hraises : putRaises (world op.ch) v <;> simp [Ends.map]
  | none =>
    simp only [blocking, AltsOp.AtOnce, AltsOp.idle, AltsOp.raises, hv]
    cases hidle : takeIdle (world op.ch) with
    | true =>
      simp only [takeCall_of_idle hidle]
      cases hc : (world op.ch).closed <;> simp
    | false =>
      cases hraises : takeRaises (world op.ch) with
      | true =>
        obtain ⟨s', -, htake⟩ := pollCall_of_raises (w := w) hraises
        simp [htake]
      | false =>
        obtain ⟨v, s₁, s₂, -, htake, -⟩ := pollCall_of_busy (w := w) hidle hraises
        simp [htake]

theorem tryOps_of_find?_eq_none {order : List (AltsOp C V)}
    (h : order.find? (fun op => !op.idle world) = none) : tryOps world w order = .nothing := by
  induction order with
  | nil => rfl
  | cons op rest ih =>
    rw [List.find?_eq_none] at h
    rw [tryOps_of_idle (by simpa using h op List.mem_cons_self)]
    exact ih (List.find?_eq_none.mpr fun op' hop' => h op' (List.mem_cons_of_mem _ hop'))

/-- The first operation that is not refused decides. -/
theorem tryOps_of_find?_eq_some {order : List (AltsOp C V)}
    (h : order.find? (fun op => !op.idle world) = some op) :
    ∃ rest, tryOps world w order = tryOps world w (op :: rest) := by
  induction order with
  | nil => cases h
  | cons op' rest ih =>
    cases hidle : op'.idle world with
    | true =>
      rw [List.find?_cons_of_neg (by simp [hidle])] at h
      rw [tryOps_of_idle hidle]
      exact ih h
    | false =>
      rw [List.find?_cons_of_pos (by simp [hidle])] at h
      cases h
      exact ⟨rest, rfl⟩

/-- A round agrees with the blocking operations exactly if what comes first in the order, of all
that is not refused, is a put of T or a take without anyone else to wake, or an error where no
operation returns at once, or does not exist where no channel is closed. -/
theorem altsTryOnce_agrees_iff (world : C → State S V) (t nil : V) (w : Nat) (priority : Bool)
    (random : Nat → Nat) (ops : List (AltsOp C V)) :
    Agrees world t nil w ops (altsTryOnce world w priority random ops) ↔
      AgreesWhen world t ops (tryOrder priority random ops) := by
  unfold altsTryOnce AgreesWhen
  cases hfind : (tryOrder priority random ops).find? fun op => !op.idle world with
  | none =>
    rw [tryOps_of_find?_eq_none hfind]
    have hatOnce (op : AltsOp C V) (hop : op ∈ ops) : op.AtOnce world ↔
      (world op.ch).closed = true := by
      have hidle := List.find?_eq_none.mp hfind op (mem_tryOrder.mpr hop)
      simp only [AltsOp.AtOnce, if_pos (by simpa using hidle : op.idle world = true)]
    constructor
    · intro h op hop hclosed
      obtain ⟨_, _, _, hfired⟩ :=
      h.ready.mpr ⟨op, hop, atOnce_iff.mpr ((hatOnce op hop).mpr hclosed)⟩
      cases hfired
    · intro h
      refine ⟨⟨?_, ?_⟩, ?_⟩
      · rintro ⟨_, _, _, hfired⟩
        cases hfired
      · rintro ⟨op, hop, hblocking⟩
        exact absurd ((hatOnce op hop).mp (atOnce_iff.mp hblocking)) (h op hop)
      · intro _ _ _ hfired
        cases hfired
  | some op =>
    have hop : op ∈ ops := mem_tryOrder.mp (List.mem_of_find?_eq_some hfind)
    have hbusy : op.idle world = false := by simpa using List.find?_some hfind
    obtain ⟨rest, htry⟩ := tryOps_of_find?_eq_some (w := w) hfind
    rw [htry]
    dsimp only
    cases hraises : op.raises world with
    | true =>
      obtain ⟨world', hround⟩ := tryOps_of_raises (w := w) hbusy hraises rest
      rw [hround, if_pos rfl]
      constructor
      · intro h op' hop' honce
        obtain ⟨_, _, _, hfired⟩ := h.ready.mpr ⟨op', hop', atOnce_iff.mpr honce⟩
        cases hfired
      · intro h
        refine ⟨⟨?_, ?_⟩, ?_⟩
        · rintro ⟨_, _, _, hfired⟩
          cases hfired
        · rintro ⟨op', hop', hblocking⟩
          exact absurd (atOnce_iff.mp hblocking) (h op' hop')
        · intro _ _ _ hfired
          cases hfired
    | false =>
      obtain ⟨result, s, hround, hmatch, hexact⟩ :=
        tryOps_of_fires t nil (w := w) hbusy hraises rest
      rw [hround, if_neg (by simp)]
      constructor
      · intro h
        obtain ⟨op', -, hch, s', hblocking, hworld⟩ := h.effect _ _ _ rfl
        have hs : s = s' := by simpa using congrFun hworld op.ch
        exact hexact op' hch (hs ▸ hblocking)
      · intro h
        refine ⟨iff_of_true ⟨_, _, _, rfl⟩ ⟨op, hop, result, s, hmatch h⟩, ?_⟩
        intro result' ch world' hfired
        cases hfired
        exact ⟨op, hop, rfl, s, hmatch h, rfl⟩

/-- A channel that has been closed: a take from it returns NIL at once, and `alts!!` goes on
polling. -/
theorem altsTryOnce_not_agrees :
    ¬Agrees (fun _ : Unit => (closeBang (chan none none) [] : State Unit String)) "T" "NIL" 0
      [.channel ()]
      (altsTryOnce (fun _ => closeBang (chan none none) []) 0 true id [.channel ()]) := by
  intro h
  obtain ⟨_, _, _, hfired⟩ := h.ready.mpr ⟨.channel (), List.mem_cons_self, "NIL", _, rfl⟩
  cases hfired

end Whole

end Fol.Async

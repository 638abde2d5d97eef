/-
Fol.Async.Stuck — a putter and a taker waiting for each other.

A put that waits for room in a buffer stands in no list, and neither `poll!` nor a take that finds
the buffer empty tells it that there is room: a channel with a fixed buffer that can become full
gets stuck. The others do not.
-/
import Fol.Async.Moves

namespace Fol.Async

open Fol.Lib

variable {S V : Type}

/-! ## §1 Stuck -/

/-- The call has not got what it waits for. -/
def State.unresolved (s : State S V) : Call V → Bool
  | .putting _ => true
  | .offering x => !s.done x.put
  | .taking cell => (s.cells cell).isNone

def State.Waits (s : State S V) (cv : Cv) : Prop :=
  ∃ t ∈ s.waiting, t.asleep cv = true ∧ s.unresolved t.call = true

/-- The channel is open, a put waits and a take waits, and neither has a notification or its
value. -/
def Stuck (s : State S V) : Prop := s.closed = false ∧ s.Waits .notFull ∧ s.Waits .notEmpty

/-- In no state of a run without `close!`. -/
def NeverStuck (s : State S V) : Prop :=
  ∀ run, IsRun Steps s run → EachStep (fun _ (act : Act V) => act.closes = false) s run →
    Always (fun s => ¬ Stuck s) s run

/-- The buffer is fixed, and some values make its step function pass on as many as it holds. -/
def Fills (buf : Option (Policy × Int)) (xf : Option (StepFn S V)) : Prop :=
  ∃ n, buf = some (.fixed, n) ∧ ∃ vs : List V, n ≤ (passes xf vs).length

theorem NeverStuck.now {s : State S V} (h : NeverStuck s) : ¬ Stuck s := h [] trivial trivial

theorem NeverStuck.next {s s' : State S V} {act : Act V} (h : NeverStuck s)
    (hs : step s act = some s') (hact : act.closes = false) : NeverStuck s' :=
  fun run hrun hopen => (h ((act, s') :: run) ⟨hs, hrun⟩ ⟨hact, hopen⟩).2

/-! ## §2 Full -/

/-- Open, with a fixed buffer, and no call waits but these. -/
structure Quiet (s : State S V) (b : Buffer (Item V)) (waiting : List (Waiter V)) : Prop where
  buf : s.buf = some b
  fixed : b.policy = .fixed
  closed : s.closed = false
  pendingPuts : s.pendingPuts = []
  pendingTakes : s.pendingTakes = []
  cells : s.cells = fun _ => none
  waiting : s.waiting = waiting

/-- Offers fill the buffer. -/
theorem NeverStuck.fill {s : State S V} {b : Buffer (Item V)} (vs : List V) (h : NeverStuck s)
    (hs : Quiet s b []) (hvs : b.capacity ≤ b.data.length + (passes s.xf vs).length) :
    ∃ (s' : State S V) (b' : Buffer (Item V)), NeverStuck s' ∧ Quiet s' b' [] ∧
    b'.fullP = true := by
  induction vs generalizing s b with
  | nil => exact ⟨s, b, h, hs, by simpa [Buffer.fullP, hs.fixed, passes] using hvs⟩
  | cons v vs ih =>
    cases hfull : b.fullP with
    | true => exact ⟨s, b, h, hs, hfull⟩
    | false =>
      obtain ⟨fine, happly⟩ := applyXfOrAdd_fixed hs.fixed s.xf ⟨s.sent, v⟩
      have hoffer :
        step s (.offer v 0) = some (addTo { s with sent := s.sent + 1 } b ⟨s.sent, v⟩ 0) := by
        simp [step, offerBang, offerItem, hs.closed, hs.pendingTakes, hs.buf, hfull]
      have hadded : (addTo { s with sent := s.sent + 1 } b ⟨s.sent, v⟩ 0).xf = after s.xf v := by
        unfold addTo
        dsimp only
        rw [happly]
        split <;> rfl
      refine ih (b := { b with data := b.data ++ (passed s.xf v).map (Item.mk s.sent) })
        (h.next hoffer rfl) ?_ ?_
      · have hstill := still_addTo { s with sent := s.sent + 1 } b ⟨s.sent, v⟩ 0
        refine ⟨by rw [buf_addTo, happly], hs.fixed, ?_, hstill.pendingPuts.trans hs.pendingPuts,
          hstill.pendingTakes.trans hs.pendingTakes, hstill.cells.trans hs.cells, ?_⟩
        · unfold addTo
          dsimp only
          split <;> exact hs.closed
        · have hnone : s.calls = [] := by simp [State.calls, hs.waiting]
          exact List.map_eq_nil_iff.mp (hstill.calls.trans hnone)
      · rw [hadded]
        simp only [passes, List.length_append, List.length_map] at hvs ⊢
        push_cast at hvs ⊢
        omega

/-- Polls empty it again. -/
theorem NeverStuck.empty {s : State S V} {b : Buffer (Item V)} {waiting : List (Waiter V)}
    (h : NeverStuck s) (hs : Quiet s b waiting) :
    ∃ s' : State S V, NeverStuck s' ∧ Quiet s' { b with data := [] } waiting := by
  obtain ⟨policy, capacity, data⟩ := b
  induction data generalizing s with
  | nil => exact ⟨s, h, hs⟩
  | cons x data ih =>
    have hpoll : step s (.poll 0) =
        some (takeReturns { s with buf := some { policy, capacity, data } } x) := by
      simp [step, pollBang, hs.buf, Buffer.takeBang, admitPut, hs.pendingPuts]
    exact ih (h.next hpoll rfl)
      ⟨rfl, hs.fixed, hs.closed, hs.pendingPuts, hs.pendingTakes, hs.cells, hs.waiting⟩

theorem not_neverStuck_of_full {s : State S V} {b : Buffer (Item V)} (hs : Quiet s b [])
    (hfull : b.fullP = true) (v : V) : ¬ NeverStuck s := by
  intro h
  have hput : step s (.put v 0) =
    some (waits { s with sent := s.sent + 1 } (.putting ⟨s.sent, v⟩)) := by
    simp [step, put, putItem, putBuffered, hs.closed, hs.buf, hfull, hs.pendingTakes]
  have hwaits : Quiet (waits { s with sent := s.sent + 1 } (.putting ⟨s.sent, v⟩)) b
      [{ call := .putting ⟨s.sent, v⟩ }] :=
    ⟨hs.buf, hs.fixed, hs.closed, hs.pendingPuts, hs.pendingTakes,
      hs.cells, by simp [waits, hs.waiting]⟩
  obtain ⟨s', h', hs'⟩ := (h.next hput rfl).empty hwaits
  have htake : step s' (.take 0) = some (register s') := by
    simp [step, take, hs'.buf, Buffer.takeBang, hs'.pendingPuts, hs'.closed]
  refine (h'.next htake rfl).now ⟨hs'.closed, ⟨{ call := .putting ⟨s.sent, v⟩ }, ?_, rfl, rfl⟩,
    ⟨{ call := .taking s'.nextCell }, ?_, rfl, ?_⟩⟩
  · simp [register, waits, hs'.waiting]
  · simp [register, waits]
  · show (s'.cells s'.nextCell).isNone = true
    rw [hs'.cells]
    rfl

/-! ## §3 Safe -/

/-- No put waits for room, and a fixed buffer has no more than was ever passed on. -/
structure Roomy (buf : Option (Policy × Int)) (xf : Option (StepFn S V)) (s : State S V) :
    Prop where
  putting : ∀ x, .putting x ∉ s.calls
  bounded : ∀ b, s.buf = some b → b.policy = .fixed → buf = some (.fixed, b.capacity) ∧
    ∃ vs, s.xf = vs.foldl after xf ∧ b.data.length ≤ (passes xf vs).length

namespace Roomy

variable {buf : Option (Policy × Int)} {xf : Option (StepFn S V)} {s s' : State S V} {x : Item V}

theorem still (h : Roomy buf xf s) (hcalls : ∀ call ∈ s'.calls, call ∈ s.calls)
    (hbuf : s'.buf = s.buf) (hxf : s'.xf = s.xf) : Roomy buf xf s' := by
  refine ⟨fun x hx => h.putting x (hcalls _ hx), ?_⟩
  rw [hbuf, hxf]
  exact h.bounded

/-- What a policy other than the fixed one keeps of its kind. -/
theorem policy_addBang {α : Type} {b b' : Buffer α} {x : α} (h : b.addBang x = some b') :
    b'.policy = b.policy := by
  unfold Buffer.addBang at h
  split at h <;> (try split at h) <;> (try split at h) <;> cases h <;> rfl

theorem policy_addAll {α : Type} {b b' : Buffer α} {xs : List α} (h : b.addAll xs = some b') :
    b'.policy = b.policy := by
  induction xs generalizing b with
  | nil =>
    cases h
    rfl
  | cons x xs ih =>
    obtain ⟨mid, hmid, hrest⟩ := Option.bind_eq_some_iff.mp h
    exact (ih hrest).trans (policy_addBang hmid)

theorem policy_applyXfOrAdd (xf : Option (StepFn S V)) (b : Buffer (Item V)) (x : Item V) :
    (applyXfOrAdd xf b x).1.policy = b.policy := by
  unfold applyXfOrAdd
  split
  · split
    · rfl
    · exact policy_addBang (by assumption)
  · dsimp only
    split
    · rfl
    · exact policy_addAll (by assumption)

theorem added (h : Roomy buf xf s) {b : Buffer (Item V)} (hb : s.buf = some b) (w : Nat) :
    Roomy buf xf (addTo s b x w) := by
  refine ⟨fun y hy => h.putting y ((still_addTo s b x w).calls ▸ hy), fun b' hb' hfixed => ?_⟩
  obtain rfl := Option.some.inj ((buf_addTo s b x w).symm.trans hb')
  rw [policy_applyXfOrAdd] at hfixed
  obtain ⟨hbuf, vs, hxf, hlength⟩ := h.bounded b hb hfixed
  obtain ⟨fine, happly⟩ := applyXfOrAdd_fixed hfixed s.xf x
  refine ⟨by rw [happly]; exact hbuf, vs ++ [x.value], ?_, ?_⟩
  · rw [List.foldl_append, ← hxf]
    unfold addTo
    dsimp only
    rw [happly]
    split <;> rfl
  · rw [happly, passes_snoc, ← hxf]
    simpa using hlength

theorem notFull (h : Roomy buf xf s) (hfills : ¬ Fills buf xf) {b : Buffer (Item V)}
    (hb : s.buf = some b) :
    b.fullP = false := by
  by_contra hfull
  obtain ⟨hfixed, hcapacity⟩ : b.policy = .fixed ∧ b.capacity ≤ b.data.length := by
    simpa [Buffer.fullP] using hfull
  obtain ⟨hbuf, vs, -, hlength⟩ := h.bounded b hb hfixed
  exact hfills ⟨b.capacity, hbuf, vs, Int.le_trans hcapacity (Int.ofNat_le.mpr hlength)⟩

theorem puts (h : Roomy buf xf s) (hfills : ¬ Fills buf xf) (hs : Puts s x s') :
    Roomy buf xf s' := by
  cases hs with
  | refused _ => exact h.still (fun _ h => h) rfl rfl
  | @handed cell rest w hopen htakes =>
    refine h.still (fun call hcall => ?_) rfl rfl
    rwa [← show (handOff s cell rest x w).calls = s.calls from calls_wake _ _ _]
  | added w hopen htakes hbuf hfull => exact h.added hbuf w
  | waits hopen htakes hbuf hfull =>
      exact absurd ((h.notFull hfills hbuf).symm.trans hfull) (by simp)
  | pends hopen htakes hbuf =>
    refine ⟨fun y hy => h.putting y (by simpa using hy), h.bounded⟩

theorem takes (h : Roomy buf xf s) (htidy : Tidy s) (hs : Takes s s') : Roomy buf xf s' := by
  cases hs with
  | @buffered x b s₁ s₂ w hbuf hadmit hmarked =>
    obtain rfl : { s with buf := some b } = s₁ :=
      congrArg Prod.fst ((htidy.admitPut hbuf w).symm.trans hadmit)
    obtain ⟨waiting, hwaiting, rfl⟩ := hmarked
    refine ⟨fun y hy => h.putting y (hwaiting ▸ hy), fun b' hb' hfixed => ?_⟩
    obtain rfl := Option.some.inj hb'
    obtain ⟨b₀, hb₀, htake⟩ := Option.bind_eq_some_iff.mp hbuf
    obtain ⟨policy, capacity, data⟩ := b₀
    cases data with
    | nil => simp [Buffer.takeBang] at htake
    | cons y data =>
      obtain ⟨rfl, rfl⟩ := Prod.mk.inj (Option.some.inj htake)
      obtain ⟨hfirst, vs, hxf, hlength⟩ := h.bounded _ hb₀ hfixed
      exact ⟨hfirst, vs, hxf, Nat.le_of_succ_le hlength⟩
  | raised w hbuf hadmit => exact absurd ((htidy.admitPut hbuf w).symm.trans hadmit) (by simp)
  | @fromPut y rest w hbuf hputs =>
    refine h.still (fun call hcall => ?_) rfl rfl
    rwa [← show (takeFromPut s y rest w).calls = s.calls from calls_wake _ _ _]
  | nothing => exact h
  | registers => exact ⟨fun y hy => h.putting y (by simpa using hy), h.bounded⟩

theorem moves (h : Roomy buf xf s) (htidy : Tidy s) (hfills : ¬ Fills buf xf) {act : Act V}
    (hs : Moves s act s') : Roomy buf xf s' := by
  have hsent : Roomy buf xf { s with sent := s.sent + 1 } := h.still (fun _ h => h) rfl rfl
  cases hs with
  | puts hputs => exact hsent.puts hfills hputs
  | offers hputs => exact hsent.puts hfills hputs
  | takes htakes => exact h.takes htidy htakes
  | polls htakes => exact h.takes htidy htakes
  | closes hmarked =>
    obtain ⟨waiting, hwaiting, rfl⟩ := hmarked
    exact h.still (fun call hcall => hwaiting ▸ hcall) rfl rfl
  | @resumes i w t _ hi hresumes =>
    have herased : Roomy buf xf { s with waiting := s.waiting.eraseIdx i } := by
      refine h.still (fun call hcall => ?_) rfl rfl
      obtain ⟨t, ht, rfl⟩ := List.mem_map.mp hcall
      exact List.mem_map_of_mem ((List.eraseIdx_sublist _ _).mem ht)
    have htidy' := htidy.erased i
    generalize t.call = call at hresumes
    cases hresumes with
    | puts hputs => exact herased.puts hfills hputs
    | unbuffered => exact herased
    | returns => exact herased.still (fun _ h => h) rfl rfl
    | waits => exact ⟨fun y hy => herased.putting y (by simpa using hy), herased.bounded⟩
    | resolved => exact herased.still (fun _ h => h) rfl rfl
    | takes _ htakes => exact herased.takes htidy' htakes

end Roomy

/-- Calls that wait for each other would stand in both lists. -/
theorem Tidy.not_stuck {s : State S V} (h : Tidy s) (hputting : ∀ x, .putting x ∉ s.calls) :
    ¬ Stuck s := by
  rintro ⟨-, ⟨t, ht, hfull, hput⟩, ⟨u, hu, hempty, htake⟩⟩
  have htcall : t.call ∈ s.calls := List.mem_map_of_mem ht
  have hucall : u.call ∈ s.calls := List.mem_map_of_mem hu
  have hputs : s.pendingPuts ≠ [] := by
    generalize hc : t.call = c at htcall hput
    cases c with
    | putting x => exact absurd htcall (hputting x)
    | offering x =>
      have hin := (h.offering x htcall).resolve_right (by simpa [State.unresolved] using hput)
      exact List.ne_nil_of_mem hin
    | taking cell => simp [Waiter.asleep, hc, Call.on] at hfull
  have htakes : s.pendingTakes ≠ [] := by
    generalize hc : u.call = c at hucall htake
    cases c with
    | putting x => simp [Waiter.asleep, hc, Call.on] at hempty
    | offering x => simp [Waiter.asleep, hc, Call.on] at hempty
    | taking cell =>
      have hin := (h.taking cell hucall).resolve_right (by simpa [State.unresolved] using htake)
      exact List.ne_nil_of_mem hin
  exact h.apart.elim hputs htakes

/-! ## §4 Claims -/

/-- A channel never gets stuck exactly if it has no fixed buffer that can become full. -/
theorem never_stuck_iff [Inhabited V] (buf : Option (Policy × Int)) (xf : Option (Transducer S V)) :
    NeverStuck (chan buf xf) ↔ ¬ Fills buf (chan buf xf).xf := by
  constructor
  · rintro h ⟨n, rfl, vs, hvs⟩
    have hquiet : Quiet (chan (some (.fixed, n)) xf) { policy := .fixed, capacity := n } [] :=
      ⟨rfl, rfl, rfl, rfl, rfl, rfl, rfl⟩
    obtain ⟨s, b, hs, hfilled, hfull⟩ := h.fill vs hquiet (by simpa using hvs)
    exact not_neverStuck_of_full hfilled hfull default hs
  · intro hfills run hrun _
    have hstart : Tidy (chan buf xf) ∧ Roomy buf (chan buf xf).xf (chan buf xf) := by
      refine ⟨tidy_chan buf xf, fun _ h => by simp [chan, State.calls] at h, fun b hb hfixed => ?_⟩
      obtain ⟨p, rfl, rfl⟩ := Option.map_eq_some_iff.mp hb
      exact ⟨by rw [← hfixed], [], rfl, Nat.le_refl 0⟩
    refine Always.imp (fun s h => h.1.not_stuck h.2.putting)
      (invariant_always (I := fun s => Tidy s ∧ Roomy buf (chan buf xf).xf s) ?_ hstart hrun
        (.of_forall (C := fun _ _ => True) (fun _ _ => trivial) _ _))
    rintro s act s' ⟨htidy, hroomy⟩ - hstep
    have hmoves := moves_of_step hstep
    exact ⟨htidy.moves hmoves, hroomy.moves htidy hfills hmoves⟩

/-- The channel `merge` makes by default: a buffer of size 0. -/
theorem merge_stuck : ¬ NeverStuck (chan (S := Unit) (V := Nat) (some (.fixed, 0)) none) :=
  not_neverStuck_of_full (b := { policy := .fixed, capacity := 0 }) ⟨rfl, rfl, rfl, rfl, rfl, rfl,
    rfl⟩ rfl 0

end Fol.Async

/-
Fol.Async.Moves — what the operations of a channel can do.

Each put, and each put that is woken, does one of five things (`Puts`); each take one of five
(`Takes`). The invariants of a channel are proved from these, without unfolding the operations
again.
-/
import Fol.Async.Channel

namespace Fol.Async

variable {S V : Type}

/-! ## §1 Notifications -/

@[simp] theorem calls_wake (cv : Cv) (w : Nat) (waiting : List (Waiter V)) :
    (wake cv w waiting).map Waiter.call = waiting.map Waiter.call := by
  unfold wake
  dsimp only
  split
  · rfl
  · refine List.ext_getElem? fun j => ?_
    rw [List.getElem?_map, List.getElem?_map, List.getElem?_modify]
    cases waiting[j]? with
    | none => rfl
    | some t =>
      simp only [Option.map_some]
      split <;> rfl

@[simp] theorem wake_nil (cv : Cv) (w : Nat) : wake cv w ([] : List (Waiter V)) = [] := rfl

/-- The state with other marks on its waiting calls. -/
def Remarked (s s' : State S V) : Prop :=
  ∃ waiting, waiting.map Waiter.call = s.calls ∧ s' = { s with waiting }

theorem remarked_notify (s : State S V) (cv : Cv) (w : Nat) : Remarked s (notify s cv w) :=
  ⟨_, calls_wake cv w s.waiting, rfl⟩

theorem Remarked.trans {s s' s'' : State S V} (h : Remarked s s') (h' : Remarked s' s'') :
    Remarked s s'' := by
  obtain ⟨w, hw, rfl⟩ := h
  obtain ⟨w', hw', rfl⟩ := h'
  exact ⟨w', hw'.trans hw, rfl⟩

theorem remarked_broadcast (s : State S V) (cv : Cv) (n : Nat) (ws : List Nat) :
    Remarked s (broadcast s cv n ws) := by
  unfold broadcast
  induction n with
  | zero => exact ⟨s.waiting, rfl, rfl⟩
  | succ n ih =>
    rw [List.range_succ, List.foldl_append]
    exact ih.trans (remarked_notify _ _ _)

/-! ## §2 Buffers -/

theorem addAll_fixed {α : Type} {b : Buffer α} (hb : b.policy = .fixed) (xs : List α) :
    b.addAll xs = some { b with data := b.data ++ xs } := by
  induction xs generalizing b with
  | nil => simp [Buffer.addAll]
  | cons x xs ih =>
    have hadd : b.addBang x = some { b with data := b.data ++ [x] } := by simp [Buffer.addBang, hb]
    rw [Buffer.addAll, hadd, Option.bind_some, ih (b := { b with data := b.data ++ [x] }) hb]
    simp

/-- A fixed buffer gets all that the step function passes on. -/
theorem applyXfOrAdd_fixed {b : Buffer (Item V)} (hb : b.policy = .fixed) (xf : Option (StepFn S V))
    (x : Item V) : ∃ fine, applyXfOrAdd xf b x =
      ({ b with data := b.data ++ (passed xf x.value).map (Item.mk x.put) }, after xf x.value,
        fine) := by
  cases xf with
  | none => exact ⟨true, by simp [applyXfOrAdd, Buffer.addBang, hb, passed, after]⟩
  | some f =>
    unfold applyXfOrAdd
    dsimp only
    rw [addAll_fixed hb]
    exact ⟨_, rfl⟩

theorem passes_snoc (xf : Option (StepFn S V)) (vs : List V) (v : V) :
    passes xf (vs ++ [v]) = passes xf vs ++ passed (vs.foldl after xf) v := by
  induction vs generalizing xf with
  | nil => simp [passes]
  | cons u us ih => simp [passes, ih]

/-! ## §3 Moves -/

/-- What a put of this value does: it is refused, it hands the value to a taker, it adds it to the
buffer, it waits for room, or, without a buffer, it waits for a taker. -/
inductive Puts (s : State S V) (x : Item V) : State S V → Prop where
  | refused : (s.closed = false → s.pendingTakes = []) → Puts s x (putReturns s x false)
  | handed {cell rest} (w : Nat) : s.closed = false → s.pendingTakes = cell :: rest →
    Puts s x (putReturns (handOff s cell rest x w) x true)
  | added {b} (w : Nat) : s.closed = false → s.pendingTakes = [] → s.buf = some b →
      b.fullP = false →
    Puts s x (addTo s b x w)
  | waits {b} : s.closed = false → s.pendingTakes = [] → s.buf = some b → b.fullP = true →
    Puts s x (waits s (.putting x))
  | pends : s.closed = false → s.pendingTakes = [] → s.buf = none →
    Puts s x (pend s x)

/-- What a take does: a value leaves the buffer and a pending put is admitted, perhaps with an
error; the value of a pending put is taken; there is nothing to take; or the take waits for a
value. -/
inductive Takes (s : State S V) : State S V → Prop where
  | buffered {x b s₁ s₂} (w : Nat) : s.buf.bind Buffer.takeBang = some (x, b) →
    admitPut s b w = (s₁, true) → Remarked s₁ s₂ → Takes s (takeReturns s₂ x)
  | raised {x b s₁} (w : Nat) : s.buf.bind Buffer.takeBang = some (x, b) →
    admitPut s b w = (s₁, false) → Takes s s₁
  | fromPut {x rest} (w : Nat) : s.buf.bind Buffer.takeBang = none → s.pendingPuts = x :: rest →
    Takes s (takeFromPut s x rest w)
  | nothing : s.buf.bind Buffer.takeBang = none → s.pendingPuts = [] → Takes s s
  | registers : s.buf.bind Buffer.takeBang = none → s.pendingPuts = [] → s.closed = false →
    Takes s (register s)

/-- What a call that waited does when it goes on. -/
inductive Resumes (s : State S V) : Call V → State S V → Prop where
  | puts {x s'} : Puts s x s' → Resumes s (.putting x) s'
  | unbuffered {x} : s.buf = none → Resumes s (.putting x) s
  | returns {x} : (s.done x.put || s.closed) = true →
      Resumes s (.offering x) (putReturns s x !s.closed)
  | waits {x} : (s.done x.put || s.closed) = false → Resumes s (.offering x) (waits s (.offering x))
  | resolved {cell x} : s.cells cell = some x →
    Resumes s (.taking cell)
    { s with history := { s.history with taken := s.history.taken ++ [x] } }
  | takes {cell s'} : s.cells cell = none → Takes s s' → Resumes s (.taking cell) s'

inductive Moves (s : State S V) : Act V → State S V → Prop where
  | puts {v w s'} : Puts { s with sent := s.sent + 1 } ⟨s.sent, v⟩ s' → Moves s (.put v w) s'
  | offers {v w s'} : Puts { s with sent := s.sent + 1 } ⟨s.sent, v⟩ s' → Moves s (.offer v w) s'
  | takes {w s'} : Takes s s' → Moves s (.take w) s'
  | polls {w s'} : Takes s s' → Moves s (.poll w) s'
  | closes {ws s'} : Remarked { s with closed := true } s' → Moves s (.close ws) s'
  | resumes {i w t s'} :
      s.waiting[i]? = some t → Resumes { s with waiting := s.waiting.eraseIdx i } t.call s' →
    Moves s (.resume i w) s'

section

variable (s : State S V)

theorem puts_putBuffered {b : Buffer (Item V)} (hb : s.buf = some b) (x : Item V) (w : Nat) :
    Puts s x (putBuffered s b x w) := by
  unfold putBuffered
  cases hclosed : s.closed with
  | true =>
    simp only [if_true, ite_self]
    exact .refused fun hopen => absurd (hclosed.symm.trans hopen) (by simp)
  | false =>
    cases htakes : s.pendingTakes with
    | cons cell rest =>
      simp only [Bool.false_eq_true, if_false, ite_self]
      exact .handed w hclosed htakes
    | nil =>
      cases hfull : b.fullP with
      | true => exact .waits hclosed htakes hb hfull
      | false => exact .added w hclosed htakes hb hfull

theorem puts_putItem (x : Item V) (w : Nat) : Puts s x (putItem s x w) := by
  unfold putItem
  cases hclosed : s.closed with
  | true => exact .refused fun hopen => absurd (hclosed.symm.trans hopen) (by simp)
  | false =>
    cases hbuf : s.buf with
    | some b => exact puts_putBuffered s hbuf x w
    | none =>
      cases htakes : s.pendingTakes with
      | cons cell rest => exact .handed w hclosed htakes
      | nil => exact .pends hclosed htakes hbuf

theorem puts_offerItem (x : Item V) (w : Nat) : Puts s x (offerItem s x w) := by
  unfold offerItem
  cases hclosed : s.closed with
  | true => exact .refused fun hopen => absurd (hclosed.symm.trans hopen) (by simp)
  | false =>
    cases htakes : s.pendingTakes with
    | cons cell rest => exact .handed w hclosed htakes
    | nil =>
      cases hbuf : s.buf with
      | none => exact .refused fun _ => htakes
      | some b =>
        cases hfull : b.fullP with
        | true =>
          simp only [hfull, if_true]
          exact .refused fun _ => htakes
        | false =>
          simp only [hfull, Bool.false_eq_true, if_false]
          exact .added w hclosed htakes hbuf hfull

theorem takes_take (w : Nat) : Takes s (take s w) := by
  unfold take
  cases hbuf : s.buf.bind Buffer.takeBang with
  | some p =>
    obtain ⟨x, b⟩ := p
    dsimp only
    rcases hadmit : admitPut s b w with ⟨s₁, _ | _⟩
    · exact .raised w hbuf hadmit
    · exact .buffered w hbuf hadmit (remarked_notify _ _ _)
  | none =>
    cases hputs : s.pendingPuts with
    | cons x rest => exact .fromPut w hbuf hputs
    | nil =>
      cases hclosed : s.closed with
      | true => exact .nothing hbuf hputs
      | false => exact .registers hbuf hputs hclosed

theorem takes_pollBang (w : Nat) : Takes s (pollBang s w) := by
  unfold pollBang
  cases hbuf : s.buf.bind Buffer.takeBang with
  | some p =>
    obtain ⟨x, b⟩ := p
    dsimp only
    rcases hadmit : admitPut s b w with ⟨s₁, _ | _⟩
    · exact .raised w hbuf hadmit
    · exact .buffered w hbuf hadmit ⟨s₁.waiting, rfl, rfl⟩
  | none =>
    cases hputs : s.pendingPuts with
    | cons x rest => exact .fromPut w hbuf hputs
    | nil => exact .nothing hbuf hputs

theorem remarked_closeBang (ws : List Nat) :
    Remarked { s with closed := true } (closeBang s ws) := by
  unfold closeBang
  split
  case isTrue hclosed => exact ⟨s.waiting, rfl, by rw [← hclosed]⟩
  case isFalse => exact (remarked_broadcast _ _ _ _).trans (remarked_broadcast _ _ _ _)

theorem resumes_resume (w : Nat) (call : Call V) : Resumes s call (resume s w call) := by
  cases call with
  | putting x =>
    rw [resume]
    cases hbuf : s.buf with
    | some b => exact .puts (puts_putBuffered s hbuf x w)
    | none => exact .unbuffered hbuf
  | offering x =>
    show Resumes s _ (offeringResumes s x)
    unfold offeringResumes
    split
    case isTrue h => exact .returns h
    case isFalse h => exact .waits (Bool.eq_false_iff.mpr h)
  | taking cell =>
    show Resumes s _ (takingResumes s cell w)
    unfold takingResumes
    split
    case h_1 x hcell => exact .resolved hcell
    case h_2 hcell => exact .takes hcell (takes_take s w)

end

theorem moves_of_step {s s' : State S V} {act : Act V} (h : Steps s act s') : Moves s act s' := by
  unfold Steps at h
  cases act with
  | put v w =>
    cases h
    exact .puts (puts_putItem _ _ w)
  | take w =>
    cases h
    exact .takes (takes_take s w)
  | offer v w =>
    cases h
    exact .offers (puts_offerItem _ _ w)
  | poll w =>
    cases h
    exact .polls (takes_pollBang s w)
  | close ws =>
    cases h
    exact .closes (remarked_closeBang s ws)
  | resume i w =>
    obtain ⟨t, hi, rfl⟩ := Option.map_eq_some_iff.mp h
    exact .resumes hi (resumes_resume _ w t.call)

/-! ## §4 Waiting -/

/-- The same calls wait, in the same lists, with the same cells. -/
structure Still (s s' : State S V) : Prop where
  calls : s'.calls = s.calls
  pendingPuts : s'.pendingPuts = s.pendingPuts
  pendingTakes : s'.pendingTakes = s.pendingTakes
  done : s'.done = s.done
  cells : s'.cells = s.cells

section

variable (s : State S V) (b : Buffer (Item V)) (x : Item V) (w : Nat)

@[simp] theorem calls_notify (cv : Cv) :
    (notify s cv w).calls = s.calls := calls_wake cv w s.waiting

@[simp] theorem calls_waits (call : Call V) : (waits s call).calls = s.calls ++ [call] := by
  simp [waits, State.calls]

@[simp] theorem calls_pend : (pend s x).calls = s.calls ++ [.offering x] := calls_waits _ _

@[simp] theorem calls_register :
    (register s).calls = s.calls ++ [.taking s.nextCell] := calls_waits _ _

theorem still_addTo : Still s (addTo s b x w) := by
  unfold addTo
  dsimp only
  split
  · exact ⟨calls_wake _ _ _, rfl, rfl, rfl, rfl⟩
  · exact ⟨rfl, rfl, rfl, rfl, rfl⟩

@[simp] theorem buf_addTo : (addTo s b x w).buf = some (applyXfOrAdd s.xf b x).1 := by
  unfold addTo
  dsimp only
  split <;> rfl

theorem mem_calls_of_getElem? {i : Nat} {t : Waiter V} (h : s.waiting[i]? = some t) :
    t.call ∈ s.calls :=
  List.mem_map_of_mem (List.mem_of_getElem? h)

end

/-- Waiting calls stand in the lists of the channel until they are resolved; takes wait only while
there is nothing to take. -/
structure Tidy (s : State S V) : Prop where
  offering : ∀ x, .offering x ∈ s.calls → x ∈ s.pendingPuts ∨ s.done x.put = true
  taking : ∀ cell, .taking cell ∈ s.calls → cell ∈ s.pendingTakes ∨ (s.cells cell).isSome
  apart : s.pendingPuts = [] ∨ s.pendingTakes = []
  buffered : s.buf.isSome → s.pendingPuts = [] ∧ ∀ x, .offering x ∉ s.calls
  unbuffered : s.buf = none → ∀ x, .putting x ∉ s.calls
  drained : s.pendingTakes ≠ [] → s.buf.bind Buffer.takeBang = none

namespace Tidy

variable {s s' : State S V} {x : Item V}

theorem still (h : Tidy s) (hs : Still s s') (hbuf : s'.buf.isSome = s.buf.isSome)
    (hdrained : s.pendingTakes ≠ [] → s'.buf.bind Buffer.takeBang = none) : Tidy s' := by
  obtain ⟨hcalls, hputs, htakes, hdone, hcells⟩ := hs
  refine ⟨?_, ?_, ?_, ?_, fun hnone => ?_, ?_⟩
  · rw [hcalls, hputs, hdone]
    exact h.offering
  · rw [hcalls, htakes, hcells]
    exact h.taking
  · rw [hputs, htakes]
    exact h.apart
  · rw [hcalls, hputs, hbuf]
    exact h.buffered
  · rw [hcalls]
    refine h.unbuffered (Option.isSome_eq_false_iff.mp ?_ |> Option.isNone_iff_eq_none.mp)
    rw [← hbuf, hnone, Option.isSome_none]
  · rwa [htakes]

theorem erased (h : Tidy s) (i : Nat) : Tidy { s with waiting := s.waiting.eraseIdx i } := by
  have hsub (call : Call V) (hcall : call ∈ (s.waiting.eraseIdx i).map Waiter.call) :
    call ∈ s.calls := by
    obtain ⟨t, ht, rfl⟩ := List.mem_map.mp hcall
    exact List.mem_map_of_mem ((List.eraseIdx_sublist _ _).mem ht)
  exact ⟨fun y hy => h.offering y (hsub _ hy), fun c hc => h.taking c (hsub _ hc), h.apart,
    fun hb => ⟨(h.buffered hb).1, fun y hy => (h.buffered hb).2 y (hsub _ hy)⟩,
    fun hb y hy => h.unbuffered hb y (hsub _ hy), h.drained⟩

theorem handOff (h : Tidy s) {cell : Nat} {rest : List Nat} (htakes : s.pendingTakes = cell :: rest)
    (w : Nat) :
    Tidy (handOff s cell rest x w) := by
  have hputs : s.pendingPuts = [] := h.apart.resolve_right (by simp [htakes])
  have hcalls : (Async.handOff s cell rest x w).calls = s.calls := calls_wake _ _ _
  refine ⟨hcalls ▸ h.offering, fun c hc => ?_, .inl hputs, hcalls ▸ h.buffered,
    hcalls ▸ h.unbuffered, fun _ => h.drained (by simp [htakes])⟩
  show c ∈ rest ∨ (Function.update s.cells cell (some x) c).isSome
  rw [hcalls] at hc
  by_cases hcell : c = cell
  · subst hcell
    exact .inr (by simp)
  · rw [Function.update_of_ne hcell]
    have hin := h.taking c hc
    rw [htakes] at hin
    exact hin.imp_left fun hmem => (List.mem_cons.mp hmem).resolve_left hcell

theorem puts (h : Tidy s) (hs : Puts s x s') : Tidy s' := by
  cases hs with
  | refused _ => exact h.still ⟨rfl, rfl, rfl, rfl, rfl⟩ rfl h.drained
  | handed w hopen htakes =>
    have hoff := h.handOff (x := x) htakes w
    exact hoff.still ⟨rfl, rfl, rfl, rfl, rfl⟩ rfl hoff.drained
  | @added b w hopen htakes hbuf hfull =>
    exact h.still (still_addTo s b x w) (by simp [hbuf]) fun hne => absurd htakes hne
  | @waits b hopen htakes hbuf hfull =>
    have hbuffered := h.buffered (by simp [hbuf])
    refine ⟨fun y hy => ?_, fun c hc => ?_, .inr htakes, fun _ => ⟨hbuffered.1, fun y hy => ?_⟩,
      fun hnone => ?_, fun hne => absurd htakes hne⟩
    · exact h.offering y (by simpa using hy)
    · exact h.taking c (by simpa using hc)
    · exact hbuffered.2 y (by simpa using hy)
    · exact absurd (hbuf.symm.trans hnone) (by simp)
  | pends hopen htakes hbuf =>
    refine ⟨fun y hy => ?_, fun c hc => ?_, .inr htakes, fun hsome => ?_, fun _ y hy => ?_,
      fun hne => absurd htakes hne⟩
    · show y ∈ s.pendingPuts ++ [x] ∨ s.done y.put = true
      rw [calls_pend, List.mem_append, List.mem_singleton] at hy
      rcases hy with hold | hnew
      · exact (h.offering y hold).imp_left (List.mem_append_left _)
      · obtain rfl := Call.offering.inj hnew
        exact .inl (by simp)
    · exact h.taking c (by simpa using hc)
    · exact absurd ((congrArg _ hbuf).symm.trans hsome) (by simp)
    · exact h.unbuffered hbuf y (by simpa using hy)

/-- A buffered channel has no pending puts to admit. -/
theorem admitPut (h : Tidy s) {b : Buffer (Item V)}
    (hbuf : s.buf.bind Buffer.takeBang = some (x, b)) (w : Nat) :
    Async.admitPut s b w = ({ s with buf := some b }, true) := by
  have hsome : s.buf.isSome := by
    cases hb : s.buf with
    | none => simp [hb] at hbuf
    | some b => rfl
  rw [Async.admitPut, (h.buffered hsome).1]

theorem takes (h : Tidy s) (hs : Takes s s') : Tidy s' := by
  cases hs with
  | @buffered x b s₁ s₂ w hbuf hadmit hmarked =>
    obtain rfl : { s with buf := some b } = s₁ :=
      congrArg Prod.fst ((h.admitPut hbuf w).symm.trans hadmit)
    have hsome : s.buf.isSome := by
      cases hb : s.buf with
      | none => simp [hb] at hbuf
      | some b => rfl
    have htakes : s.pendingTakes = [] := by
      by_contra hne
      exact absurd (hbuf.symm.trans (h.drained hne)) (by simp)
    obtain ⟨waiting, hwaiting, rfl⟩ := hmarked
    exact h.still ⟨hwaiting, rfl, rfl, rfl, rfl⟩ hsome.symm fun hne => absurd htakes hne
  | raised w hbuf hadmit => exact absurd ((h.admitPut hbuf w).symm.trans hadmit) (by simp)
  | @fromPut y rest w hbuf hputs =>
    have hcalls : (takeFromPut s y rest w).calls = s.calls := calls_wake _ _ _
    have htakes : s.pendingTakes = [] := h.apart.resolve_left (by simp [hputs])
    have hnone : s.buf = none := by
      by_contra hne
      have hempty := (h.buffered (Option.isSome_iff_ne_none.mpr hne)).1
      exact absurd (hputs.symm.trans hempty) (by simp)
    refine ⟨fun z hz => ?_, hcalls ▸ h.taking, .inr htakes, fun hsome => ?_,
      fun _ => hcalls ▸ h.unbuffered hnone, fun hne => absurd htakes hne⟩
    · show z ∈ rest ∨ Function.update s.done y.put true z.put = true
      by_cases hput : z.put = y.put
      · exact .inr (by simp [hput])
      · rw [Function.update_of_ne hput]
        have hin := h.offering z (hcalls ▸ hz)
        rw [hputs] at hin
        refine hin.imp_left fun hmem => (List.mem_cons.mp hmem).resolve_left fun heq => ?_
        exact hput (congrArg Item.put heq)
    · exact absurd ((congrArg _ hnone).symm.trans hsome) (by simp)
  | nothing hbuf hputs => exact h
  | registers hbuf hputs hopen =>
    refine ⟨fun y hy => ?_, fun c hc => ?_, .inl hputs, fun hsome => ?_, fun hnone y hy => ?_,
      fun _ => hbuf⟩
    · exact h.offering y (by simpa using hy)
    · show c ∈ s.pendingTakes ++ [s.nextCell] ∨ (s.cells c).isSome
      rw [calls_register, List.mem_append, List.mem_singleton] at hc
      rcases hc with hold | hnew
      · exact (h.taking c hold).imp_left (List.mem_append_left _)
      · obtain rfl := Call.taking.inj hnew
        exact .inl (by simp)
    · refine ⟨hputs, fun y hy => (h.buffered hsome).2 y (by simpa using hy)⟩
    · exact h.unbuffered hnone y (by simpa using hy)

theorem resumes (h : Tidy s) {call : Call V} (hcall : ∀ x, call = .offering x →
    x ∈ s.pendingPuts ∨ s.done x.put = true) (hbuf : ∀ x, call = .offering x → s.buf = none)
    (hs : Resumes s call s') : Tidy s' := by
  cases hs with
  | puts hputs => exact h.puts hputs
  | unbuffered _ => exact h
  | returns _ => exact h.still ⟨rfl, rfl, rfl, rfl, rfl⟩ rfl h.drained
  | @waits x hwaits =>
    have hnone := hbuf x rfl
    refine ⟨fun y hy => ?_, fun c hc => ?_, h.apart, fun hsome => ?_, fun _ y hy => ?_, h.drained⟩
    · rw [calls_waits, List.mem_append, List.mem_singleton] at hy
      rcases hy with hold | hnew
      · exact h.offering y hold
      · obtain rfl := Call.offering.inj hnew
        exact hcall y rfl
    · exact h.taking c (by simpa using hc)
    · exact absurd ((congrArg _ hnone).symm.trans hsome) (by simp)
    · exact h.unbuffered hnone y (by simpa using hy)
  | resolved _ => exact h.still ⟨rfl, rfl, rfl, rfl, rfl⟩ rfl h.drained
  | takes _ htakes => exact h.takes htakes

theorem moves (h : Tidy s) {act : Act V} (hs : Moves s act s') : Tidy s' := by
  have hsent : Tidy { s with sent := s.sent + 1 } := h.still ⟨rfl, rfl, rfl, rfl, rfl⟩ rfl h.drained
  cases hs with
  | puts hputs => exact hsent.puts hputs
  | offers hputs => exact hsent.puts hputs
  | takes htakes => exact h.takes htakes
  | polls htakes => exact h.takes htakes
  | closes hmarked =>
    obtain ⟨waiting, hwaiting, rfl⟩ := hmarked
    exact h.still ⟨hwaiting, rfl, rfl, rfl, rfl⟩ rfl h.drained
  | @resumes i w t _ hi hresumes =>
    have hmem := mem_calls_of_getElem? s hi
    refine (h.erased i).resumes (fun x hx => h.offering x (hx ▸ hmem)) (fun x hx => ?_) hresumes
    by_contra hne
    exact (h.buffered (Option.isSome_iff_ne_none.mpr hne)).2 x (hx ▸ hmem)

end Tidy

theorem tidy_chan (buf : Option (Policy × Int)) (xf : Option (Transducer S V)) :
    Tidy (chan buf xf) := by
  refine ⟨fun _ h => ?_, fun _ h => ?_, .inl rfl, fun _ => ⟨rfl, fun _ h => ?_⟩, fun _ _ h => ?_,
    fun h => ?_⟩
  all_goals simp [chan, State.calls] at h

end Fol.Async

/-
Fol.Async.Transduced — channels with a transducer.

`transduce` is what the transducer makes of a list of values, its completion included. A channel
delivers that as long as each value goes through its step function: a value handed to a waiting take
does not, `close!` does not call the completion, and a reduced result does not close the channel.
-/
import Fol.Async.Kept

namespace Fol.Async

open Fol.Lib

variable {S V : Type}

/-! ## §1 Transduce -/

/-- The result is reduced. -/
def Stepped.stops (r : Stepped S V) : Bool :=
  match r.ending with
  | .reduced => true
  | _ => false

namespace Transducer

variable (xf : Transducer S V)

/-- What the transducer makes of these values from a state: it stops at a reduced result, and
completes once it has stopped or there are no more values. -/
def transduce (complete : Bool) : S → List V → List V
  | σ, [] => if complete then xf.completion σ else []
  | σ, v :: vs =>
    (xf.step σ v).passed ++
      if (xf.step σ v).stops then xf.completion (xf.step σ v).state
      else transduce complete (xf.step σ v).state vs

/-- One of these values gives a reduced result. -/
def endsEarly : S → List V → Bool
  | _, [] => false
  | σ, v :: vs => (xf.step σ v).stops || endsEarly (xf.step σ v).state vs

def stateAfter (σ : S) (vs : List V) : S := vs.foldl (fun σ v => (xf.step σ v).state) σ

theorem endsEarly_snoc (σ : S) (vs : List V) (v : V) : xf.endsEarly σ (vs ++ [v]) =
    (xf.endsEarly σ vs || (xf.step (xf.stateAfter σ vs) v).stops) := by
  induction vs generalizing σ with
  | nil => simp [endsEarly, stateAfter]
  | cons u us ih => simp [endsEarly, ih, Bool.or_assoc, stateAfter]

theorem foldl_after (σ : S) (vs : List V) :
    vs.foldl after (some ⟨xf, σ⟩) = some ⟨xf, xf.stateAfter σ vs⟩ := by
  induction vs generalizing σ with
  | nil => rfl
  | cons v vs ih => exact ih _

/-- A transducer that does not stop early passes on what its steps pass on, and its completion. -/
theorem transduce_eq {σ : S} {vs : List V} (h : xf.endsEarly σ vs = false) (complete : Bool) :
    xf.transduce complete σ vs =
      passes (some ⟨xf, σ⟩) vs ++ if complete then xf.completion (xf.stateAfter σ vs) else [] := by
  induction vs generalizing σ with
  | nil => rfl
  | cons v vs ih =>
    obtain ⟨hv, hvs⟩ := Bool.or_eq_false_iff.mp h
    rw [transduce, hv, ih hvs, passes, List.append_assoc]
    rfl

end Transducer

/-- The values accepted so far. -/
def State.acceptedValues (s : State S V) : List V := s.history.accepted.map Item.value

/-- What the takes got and what is in the buffer is what the transducer makes of the accepted
values, and a transducer that stops early closes the channel. -/
structure Transduced (xf : Transducer S V) (s : State S V) : Prop where
  delivered : (s.history.handed ++ s.buffered).map Item.value =
    xf.transduce s.closed xf.init s.acceptedValues
  early : xf.endsEarly xf.init s.acceptedValues = true → s.closed = true

/-! ## §2 Through -/

/-- A value that can enter now goes through the transducer, which does not stop, into a buffer that
keeps all it passes on. -/
def Through (xf : Transducer S V) (s : State S V) (v : V) : Prop :=
  s.closed = false → s.pendingTakes = [] ∧ ∀ b f, s.buf = some b → b.fullP = false → s.xf = some f →
    (xf.step f.state v).stops = false ∧
      (b.policy = .fixed ∨ (b.data.length + (xf.step f.state v).passed.length : Int) ≤ b.capacity)

/-- On this step. A channel is closed only when the completion has nothing to pass on. -/
def ThroughStep (xf : Transducer S V) (s : State S V) : Act V → Prop
  | .put v _ => Through xf s v
  | .offer v _ => Through xf s v
  | .close _ => s.closed = false → ∀ f, s.xf = some f → xf.completion f.state = []
  | .resume i _ => ∀ t x, s.waiting[i]? = some t → t.call = .putting x → Through xf s x.value
  | _ => True

section

variable {xf : Transducer S V} {s s' : State S V} {x : Item V}

theorem addAll_room {α : Type} {b : Buffer α} {xs : List α}
    (h : b.policy = .fixed ∨ (b.data.length + xs.length : Int) ≤ b.capacity) :
    b.addAll xs = some { b with data := b.data ++ xs } := by
  induction xs generalizing b with
  | nil => simp [Buffer.addAll]
  | cons x xs ih =>
    have hadd : b.addBang x = some { b with data := b.data ++ [x] } := by
      unfold Buffer.addBang
      rcases h with hfixed | hroom
      · simp [hfixed]
      · have hlt : (b.data.length : Int) < b.capacity := by
          simp only [List.length_cons] at hroom
          omega
        cases b.policy with
        | fixed => rfl
        | dropping => simp [hlt]
        | sliding => simp [Int.not_le.mpr hlt]
    rw [Buffer.addAll, hadd, Option.bind_some, ih (b := { b with data := b.data ++ [x] })]
    · simp
    · refine h.imp_right fun hroom => ?_
      simp only [List.length_cons, List.length_append, List.length_nil] at hroom ⊢
      omega

/-- What a channel whose values all went through keeps. -/
structure Followed (xf : Transducer S V) (s : State S V) : Prop where
  tidy : Tidy s
  buffered : s.buf.isSome
  running : s.xf = some ⟨xf, xf.stateAfter xf.init s.acceptedValues⟩
  going : xf.endsEarly xf.init s.acceptedValues = false
  delivered : (s.history.handed ++ s.buffered).map Item.value =
    passes (some ⟨xf, xf.init⟩) s.acceptedValues
  completed : s.closed = true → xf.completion (xf.stateAfter xf.init s.acceptedValues) = []

namespace Followed

theorem transduced (h : Followed xf s) : Transduced xf s := by
  refine ⟨?_, fun hearly => absurd (h.going.symm.trans hearly) (by simp)⟩
  rw [xf.transduce_eq h.going, h.delivered]
  cases hclosed : s.closed with
  | false => simp
  | true => simp [h.completed hclosed]

/-- What is accepted, delivered and buffered stays, and so do the buffer's step function and the
close. -/
theorem still (h : Followed xf s) (htidy : Tidy s') (hbuf : s'.buf.isSome) (hxf : s'.xf = s.xf)
    (haccepted : s'.history.accepted = s.history.accepted)
    (hdelivered : s'.history.handed ++ s'.buffered = s.history.handed ++ s.buffered)
    (hclosed : s'.closed = s.closed) : Followed xf s' := by
  have hvalues : s'.acceptedValues = s.acceptedValues := by
    rw [State.acceptedValues, haccepted, State.acceptedValues]
  refine ⟨htidy, hbuf, ?_, ?_, ?_, ?_⟩
  · rw [hxf, hvalues]
    exact h.running
  · rw [hvalues]
    exact h.going
  · rw [hdelivered, hvalues]
    exact h.delivered
  · rw [hclosed, hvalues]
    exact h.completed

theorem added (h : Followed xf s) (hthrough : Through xf s x.value) {b : Buffer (Item V)}
    (hopen : s.closed = false) (htakes : s.pendingTakes = []) (hbuf : s.buf = some b)
    (hfull : b.fullP = false)
    (w : Nat) : Followed xf (addTo s b x w) := by
  obtain ⟨hgoes, hroom⟩ := (hthrough hopen).2 b _ hbuf hfull h.running
  generalize hstep :
    xf.step (xf.stateAfter xf.init s.acceptedValues) x.value = stepped at hgoes hroom
  have hadd : b.addAll (stepped.passed.map (Item.mk x.put)) =
      some { b with data := b.data ++ stepped.passed.map (Item.mk x.put) } :=
    addAll_room (by simpa using hroom)
  obtain ⟨fine, happly⟩ : ∃ fine, applyXfOrAdd s.xf b x =
      ({ b with data := b.data ++ stepped.passed.map (Item.mk x.put) },
        some (StepFn.mk xf stepped.state), fine) := by
    unfold applyXfOrAdd
    rw [h.running]
    dsimp only
    rw [hstep, hadd]
    exact ⟨_, rfl⟩
  have htidy : Tidy (addTo s b x w) := h.tidy.still (still_addTo s b x w) (by simp [hbuf])
    fun hne => absurd htakes hne
  have haccepted : (addTo s b x w).acceptedValues = s.acceptedValues ++ [x.value] := by
    unfold addTo
    dsimp only
    split <;> simp [State.acceptedValues, putReturns, notify, accept]
  have hafter : xf.stateAfter xf.init (s.acceptedValues ++ [x.value]) = stepped.state := by
    rw [Transducer.stateAfter, List.foldl_append, ← hstep]
    rfl
  refine ⟨htidy, by simp, ?_, ?_, ?_, ?_⟩
  · rw [haccepted, hafter]
    unfold addTo
    dsimp only
    rw [happly]
    split <;> rfl
  · rw [haccepted, xf.endsEarly_snoc, h.going, hstep, hgoes]
    rfl
  · have hhanded : (addTo s b x w).history.handed = s.history.handed := by
      unfold addTo
      dsimp only
      split <;> rfl
    have hpassed : passed ((s.acceptedValues).foldl after (some ⟨xf, xf.init⟩)) x.value =
      stepped.passed := by
      rw [xf.foldl_after, ← hstep]
      rfl
    rw [hhanded, buffered_of_some (buf_addTo s b x w), happly, haccepted, passes_snoc,
      hpassed, ← h.delivered, buffered_of_some hbuf]
    have hvalues : (stepped.passed.map (Item.mk x.put)).map Item.value = stepped.passed := by
      rw [List.map_map]
      exact List.map_id _
    simp [hvalues]
  · have hclosed : (addTo s b x w).closed = s.closed := by
      unfold addTo
      dsimp only
      split <;> rfl
    rw [hclosed, hopen]
    simp

theorem puts (h : Followed xf s) (hthrough : Through xf s x.value) (hs : Puts s x s') :
    Followed xf s' := by
  have htidy := h.tidy.puts hs
  cases hs with
  | refused _ => exact h.still htidy h.buffered rfl rfl rfl rfl
  | handed w hopen htakes => exact absurd (htakes.symm.trans (hthrough hopen).1) (by simp)
  | added w hopen htakes hbuf hfull => exact h.added hthrough hopen htakes hbuf hfull w
  | waits => exact h.still htidy h.buffered rfl rfl rfl rfl
  | pends hopen htakes hbuf => exact absurd (hbuf ▸ h.buffered) (by simp)

theorem takes (h : Followed xf s) (hs : Takes s s') : Followed xf s' := by
  have htidy := h.tidy.takes hs
  cases hs with
  | @buffered x b s₁ s₂ w hbuf hadmit hmarked =>
    obtain rfl : { s with buf := some b } = s₁ :=
      congrArg Prod.fst ((h.tidy.admitPut hbuf w).symm.trans hadmit)
    obtain ⟨waiting, -, rfl⟩ := hmarked
    refine h.still htidy rfl rfl rfl ?_ rfl
    show (s.history.handed ++ [x]) ++ b.data = _
    rw [(buffered_of_takeBang hbuf).1, List.append_assoc]
    rfl
  | raised w hbuf hadmit => exact absurd ((h.tidy.admitPut hbuf w).symm.trans hadmit) (by simp)
  | fromPut w hbuf hputs => exact absurd (hputs.symm.trans (h.tidy.buffered h.buffered).1) (by simp)
  | nothing => exact h
  | registers => exact h.still htidy h.buffered rfl rfl rfl rfl

theorem erased (h : Followed xf s) (i : Nat) :
    Followed xf { s with waiting := s.waiting.eraseIdx i } :=
  h.still (h.tidy.erased i) h.buffered rfl rfl rfl rfl

theorem moves (h : Followed xf s) {act : Act V} (hthrough : ThroughStep xf s act)
    (hs : Moves s act s') :
    Followed xf s' := by
  have htidy := h.tidy.moves hs
  have hsent : Followed xf { s with sent := s.sent + 1 } :=
    h.still (h.tidy.still ⟨rfl, rfl, rfl, rfl, rfl⟩ rfl h.tidy.drained) h.buffered rfl rfl rfl rfl
  cases hs with
  | @puts v w _ hputs => exact hsent.puts (x := ⟨s.sent, v⟩) hthrough hputs
  | @offers v w _ hputs => exact hsent.puts (x := ⟨s.sent, v⟩) hthrough hputs
  | takes htakes => exact h.takes htakes
  | polls htakes => exact h.takes htakes
  | closes hmarked =>
    obtain ⟨waiting, -, rfl⟩ := hmarked
    refine ⟨htidy, h.buffered, h.running, h.going, h.delivered, fun _ => ?_⟩
    cases hclosed : s.closed with
    | true => exact h.completed hclosed
    | false => exact hthrough hclosed _ h.running
  | @resumes i w t _ hi hresumes =>
    have hmem := mem_calls_of_getElem? s hi
    have hputting := hthrough t
    generalize t.call = call at hmem hresumes hputting
    cases hresumes with
    | @puts x _ hputs => exact (h.erased i).puts (hputting x hi rfl) hputs
    | unbuffered _ => exact h.erased i
    | @returns x _ => exact absurd hmem ((h.tidy.buffered h.buffered).2 x)
    | @waits x _ => exact absurd hmem ((h.tidy.buffered h.buffered).2 x)
    | resolved _ => exact h.still htidy h.buffered rfl rfl rfl rfl
    | takes _ htakes => exact (h.erased i).takes htakes

end Followed

end

/-! ## §3 Claims -/

/-- A channel with a buffer and a transducer delivers what the transducer makes of the values it
accepts, in every run in which each value goes through it. -/
theorem transduced_of_through (policy : Policy) (capacity : Int) (xf : Transducer S V)
    {run : List (Act V × State S V)}
    (hrun : IsRun Steps (chan (some (policy, capacity)) (some xf)) run)
    (hthrough : EachStep (ThroughStep xf) (chan (some (policy, capacity)) (some xf)) run) :
    Always (Transduced xf) (chan (some (policy, capacity)) (some xf)) run := by
  have hstart : Followed xf (chan (some (policy, capacity)) (some xf)) :=
    ⟨tidy_chan _ _, rfl, rfl, rfl, rfl, fun h => by simp [chan] at h⟩
  refine Always.imp (fun s h => Followed.transduced h) (invariant_always ?_ hstart hrun hthrough)
  intro s act s' h hact hstep
  exact h.moves hact (moves_of_step hstep)

/-- `(map inc)`. -/
def mapInc : Transducer Unit Nat where
  init := ()
  step _ v := { state := (), passed := [v + 1] }

theorem mapInc_through : Always (Transduced mapInc) (chan (some (.fixed, 2)) (some mapInc))
    (trace step (chan (some (.fixed, 2)) (some mapInc)) [.put 1 0, .put 2 0, .take 0,
      .close []]) := by
  refine transduced_of_through .fixed 2 mapInc (trace_isRun _ _ _) ?_
  refine ⟨fun _ => ⟨rfl, fun b f hb _ _ => ⟨rfl, .inl ?_⟩⟩,
    fun _ => ⟨rfl, fun b f hb _ _ => ⟨rfl, .inl ?_⟩⟩, trivial, fun _ _ _ => rfl, trivial⟩
  all_goals
    obtain rfl := Option.some.inj hb
    rfl

/-- A take waits: the value goes to it as it is. -/
theorem mapInc_bypassed : ¬ ∀ run, IsRun Steps (chan (some (.fixed, 2)) (some mapInc)) run →
    Always (Transduced mapInc) (chan (some (.fixed, 2)) (some mapInc)) run := by
  intro h
  have hrun := h (trace step _ [.take 0, .put 1 0]) (trace_isRun _ _ _)
  exact absurd hrun.2.2.delivered (by decide)

end Fol.Async

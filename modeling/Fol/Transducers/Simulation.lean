/-
Fol.Transducers.Simulation — a reducing function that ends in `conj` does what a machine does:
it conjoins what the machine gives, and answers with a reduced accumulator where the machine
stops.

On completion the two part: the machine gives what it holds, and the reducing function does so
only if no value it passes on meets a machine that stops. Else it ends with a reduced wrapper
or in an error, because completion does not look at the answers.
-/
import Fol.Lib.Mealy
import Fol.Transducers.Transducers

namespace Fol.Transducers

open Fol.Lib

variable {V : Type}

/-! ## §1 Feeding -/

@[simp] theorem feed_nil (rf : RF V) (s : rf.State) (acc : Acc V) :
    feed rf s acc [] = some (s, acc) := rfl

theorem feed_cons_go {rf : RF V} {s s' : rf.State} {acc : Acc V} {item : V} {xs : List V}
    (items : List V) (h : rf.step s acc item = some (s', .val xs)) :
    feed rf s acc (item :: items) = feed rf s' (.val xs) items := by
  simp [feed, h, Acc.isReduced]

theorem feed_cons_stop {rf : RF V} {s s' : rf.State} {acc : Acc V} {item : V} {xs : List V}
    (items : List V) (h : rf.step s acc item = some (s', .reduced xs)) :
    feed rf s acc (item :: items) = some (s', .reduced xs) := by
  simp [feed, h, Acc.isReduced]

@[simp] theorem feed_one (rf : RF V) (s : rf.State) (acc : Acc V) (x : V) :
    feed rf s acc [x] = rf.step s acc x := by
  cases h : rf.step s acc x with
  | none => simp [feed, h]
  | some q => simp [feed, h]

/-! ## §2 Simulation -/

/-- The accumulator after this reply, from one that holds `xs`. -/
def answer {σ : Type} (xs : List V) (r : Reply σ V) : Acc V :=
  if r.stop then .reduced (xs ++ r.outs) else .val (xs ++ r.outs)

theorem answer_stop {σ : Type} (xs : List V) {r : Reply σ V} (h : r.stop = true) :
    answer xs r = .reduced (xs ++ r.outs) := by
  simp [answer, h]

theorem answer_go {σ : Type} (xs : List V) {r : Reply σ V} (h : r.stop = false) :
    answer xs r = .val (xs ++ r.outs) := by
  simp [answer, h]

structure Simulates (rf : RF V) (m : Mealy.{0, 0, 0} V V) (rel : rf.State → m.State → Prop) :
    Prop where
  init : rel rf.init m.init
  step : ∀ {p s}, rel p s → ∀ (xs : List V) (x : V),
    ∃ p', rf.step p (.val xs) x = some (p', answer xs (m.step s x)) ∧
      ((m.step s x).stop = false → rel p' (m.step s x).state)
  complete : ∀ {p s}, rel p s → m.cut s = false → ∀ xs : List V,
    rf.complete p (.val xs) = some (.val (xs ++ m.flush s))
  cut : ∀ {p s}, rel p s → m.cut s = true → ∀ xs ys : List V,
    rf.complete p (.val xs) ≠ some (.val ys)
  stepReduced : ∀ {p p' : rf.State} {xs : List V} {x : V} {acc : Acc V},
    rf.step p (.reduced xs) x = some (p', acc) → acc.isReduced = true
  completeReduced : ∀ {p : rf.State} {xs : List V} {acc : Acc V},
    rf.complete p (.reduced xs) = some acc → acc.isReduced = true

theorem simulates_conj : Simulates (completing (conj (V := V))) (Mealy.skip V) fun _ _ => True where
  init := trivial
  step _ xs x := ⟨(), rfl, fun _ => trivial⟩
  complete _ _ xs := by simp [completing, Mealy.skip]
  cut _ h := by simp [Mealy.skip] at h
  stepReduced h := by simp [completing, conj] at h
  completeReduced h := by
    simp only [completing, Option.some.injEq] at h
    subst h
    rfl

section

variable {rf : RF V} {m : Mealy.{0, 0, 0} V V} {rel : rf.State → m.State → Prop}

theorem feed_simulates (h : Simulates rf m rel) {p : rf.State} {s : m.State} (hp : rel p s)
    (xs items : List V) :
    ∃ p', feed rf p (.val xs) items = some (p', answer xs (m.run s items)) ∧
      ((m.run s items).stop = false → rel p' (m.run s items).state) := by
  induction items generalizing p s xs with
  | nil => exact ⟨p, by simp [answer], fun _ => hp⟩
  | cons item items ih =>
    obtain ⟨p', hstep, hrel⟩ := h.step hp xs item
    cases hstop : (m.step s item).stop with
    | true =>
      rw [answer_stop xs hstop] at hstep
      refine ⟨p', ?_, ?_⟩
      · rw [feed_cons_stop items hstep, m.run_cons, Reply.andThen_stop _ hstop,
          answer_stop xs hstop]
      · intro hgo
        rw [m.run_cons, Reply.andThen_stop _ hstop, hstop] at hgo
        cases hgo
    | false =>
      rw [answer_go xs hstop] at hstep
      obtain ⟨p'', hfeed, hrel'⟩ := ih (hrel hstop) (xs ++ (m.step s item).outs)
      refine ⟨p'', ?_, ?_⟩
      · rw [feed_cons_go items hstep, hfeed, m.run_cons, Reply.andThen_go _ hstop]
        simp [answer]
      · intro hgo
        rw [m.run_cons, Reply.andThen_go _ hstop] at hgo ⊢
        exact hrel' hgo

theorem feed_reduced (h : Simulates rf m rel) {p p' : rf.State} {xs items : List V} {acc : Acc V}
    (hfeed : feed rf p (.reduced xs) items = some (p', acc)) : acc.isReduced = true := by
  cases items with
  | nil =>
    simp only [feed_nil, Option.some.injEq, Prod.mk.injEq] at hfeed
    exact hfeed.2 ▸ rfl
  | cons item items =>
    cases hstep : rf.step p (.reduced xs) item with
    | none => simp [feed, hstep] at hfeed
    | some q =>
      have hred : q.2.isReduced = true := h.stepReduced hstep
      simp only [feed, hstep, hred, if_true, Option.some.injEq, Prod.mk.injEq] at hfeed
      exact hfeed.2 ▸ hred

end

/-! ## §3 Transducers -/

/-- `rf'` keeps variables of its own, `own`, beside the reducing function `rf`, and hands on to
it what the machine `m` gives. -/
structure Wraps (m : Mealy.{0, 0, 0} V V) (rf rf' : RF V) (own : rf'.State → m.State)
    (inner : rf'.State → rf.State) : Prop where
  own_init : own rf'.init = m.init
  inner_init : inner rf'.init = rf.init
  step : ∀ (p : rf'.State) (acc : Acc V) (x : V),
    (rf'.step p acc x).map (fun q => (own q.1, inner q.1, q.2)) =
      (feed rf (inner p) acc (m.step (own p) x).outs).map fun q =>
        ((m.step (own p) x).state, q.1,
          if (m.step (own p) x).stop then q.2.ensureReduced else q.2)
  complete : ∀ (p : rf'.State) (acc : Acc V),
    rf'.complete p acc =
      (feed rf (inner p) acc (m.flush (own p))).bind fun q => rf.complete q.1 q.2
  cut : ∀ s : m.State, m.cut s = false

namespace Wraps

variable {m n : Mealy.{0, 0, 0} V V} {rf rf' : RF V} {own : rf'.State → m.State}
  {inner : rf'.State → rf.State} {rel : rf.State → n.State → Prop}

/-- A step of the transducer, from the step of its machine and what `rf` makes of the outputs. -/
theorem step_eq (h : Wraps m rf rf' own inner) {p : rf'.State} {acc res : Acc V} {x : V}
    {s : rf.State} (hfeed : feed rf (inner p) acc (m.step (own p) x).outs = some (s, res)) :
    ∃ p', rf'.step p acc x =
        some (p', if (m.step (own p) x).stop then res.ensureReduced else res) ∧
      own p' = (m.step (own p) x).state ∧ inner p' = s := by
  have hstep := h.step p acc x
  rw [hfeed] at hstep
  cases hq : rf'.step p acc x with
  | none => simp [hq] at hstep
  | some q =>
    simp only [hq, Option.map_some, Option.some.injEq, Prod.mk.injEq] at hstep
    exact ⟨q.1, by rw [← hstep.2.2], hstep.1, hstep.2.1⟩

theorem simulates (h : Wraps m rf rf' own inner) (hn : Simulates rf n rel) :
    Simulates rf' (m.comp n) fun p s => own p = s.1 ∧ rel (inner p) s.2.1 ∧ s.2.2 = false where
  init := ⟨h.own_init, h.inner_init ▸ hn.init, rfl⟩
  step := by
    rintro p ⟨s, t, b⟩ ⟨(hown : own p = s), (hrel : rel (inner p) t), -⟩ xs x
    obtain ⟨p₀, hfeed, hrel'⟩ := feed_simulates hn hrel xs (m.step s x).outs
    rw [← hown] at hfeed hrel'
    obtain ⟨p', hstep, hown', hinner'⟩ := h.step_eq hfeed
    refine ⟨p', ?_, ?_⟩
    · rw [hstep, hown]
      cases hstop : (m.step s x).stop with
      | false => simp [Mealy.comp, answer, hstop]
      | true =>
        cases hq : (n.run t (m.step s x).outs).stop <;>
          simp [Mealy.comp, answer, hstop, hq, Acc.ensureReduced]
    · intro hgo
      simp only [Mealy.comp, Bool.or_eq_false_iff] at hgo
      exact ⟨by simpa [Mealy.comp, hown] using hown',
        by simpa [Mealy.comp, hinner', hown] using hrel' (by simpa [hown] using hgo.2), hgo.2⟩
  complete := by
    rintro p ⟨s, t, b⟩ ⟨(hown : own p = s), (hrel : rel (inner p) t), (hb : b = false)⟩ hcut xs
    simp only [Mealy.comp, Bool.or_eq_false_iff] at hcut
    obtain ⟨p₀, hfeed, hrel'⟩ := feed_simulates hn hrel xs (m.flush s)
    rw [h.complete, hown, hfeed, answer_go xs hcut.1.2]
    refine (hn.complete (hrel' hcut.1.2) hcut.2 _).trans ?_
    simp [Mealy.comp, Mealy.total, hb]
  cut := by
    rintro p ⟨s, t, b⟩ ⟨(hown : own p = s), (hrel : rel (inner p) t), -⟩ hcut xs ys
    obtain ⟨p₀, hfeed, hrel'⟩ := feed_simulates hn hrel xs (m.flush s)
    rw [h.complete, hown, hfeed]
    cases hq : (n.run t (m.flush s)).stop with
    | true =>
      rw [answer_stop xs hq]
      intro hval
      cases hn.completeReduced hval
    | false =>
      rw [answer_go xs hq]
      simp only [Mealy.comp, h.cut s, hq, Bool.or_false, Bool.false_or] at hcut
      exact hn.cut (hrel' hq) hcut _ ys
  stepReduced := by
    intro p p' xs x acc hstep
    have hmap := h.step p (.reduced xs) x
    rw [hstep] at hmap
    cases hfeed : feed rf (inner p) (.reduced xs) (m.step (own p) x).outs with
    | none => simp [hfeed] at hmap
    | some q =>
      have hred := feed_reduced hn hfeed
      simp only [hfeed, Option.map_some, Option.some.injEq, Prod.mk.injEq] at hmap
      rw [hmap.2.2]
      obtain ⟨q₁, q₂⟩ := q
      cases q₂ with
      | val ys => cases hred
      | reduced ys => cases (m.step (own p) x).stop <;> rfl
  completeReduced := by
    intro p xs acc hcomplete
    rw [h.complete] at hcomplete
    cases hfeed : feed rf (inner p) (.reduced xs) (m.flush (own p)) with
    | none => simp [hfeed] at hcomplete
    | some q =>
      have hred := feed_reduced hn hfeed
      rw [hfeed] at hcomplete
      obtain ⟨q₁, q₂⟩ := q
      cases q₂ with
      | val ys => cases hred
      | reduced ys => exact hn.completeReduced hcomplete

end Wraps

/-! ## §4 Reduction -/

section

variable {rf : RF V} {m : Mealy.{0, 0, 0} V V} {rel : rf.State → m.State → Prop}

/-- Stopped early: the accumulator is unwrapped and nothing is completed. -/
theorem transduceLoop_stop (h : Simulates rf m rel) {p : rf.State} {s : m.State} (hp : rel p s)
    (xs coll : List V) (hstop : (m.run s coll).stop = true) :
    transduceLoop rf p (.val xs) coll = some (.val (xs ++ (m.run s coll).outs)) := by
  induction coll generalizing p s xs with
  | nil => cases hstop
  | cons x coll ih =>
    obtain ⟨p', hstep, hrel⟩ := h.step hp xs x
    cases hx : (m.step s x).stop with
    | true =>
      rw [answer_stop xs hx] at hstep
      simp [transduceLoop, hstep, Acc.isReduced, Acc.unreduced, Mealy.run_cons,
        Reply.andThen_stop _ hx]
    | false =>
      rw [answer_go xs hx] at hstep
      rw [m.run_cons, Reply.andThen_go _ hx] at hstop ⊢
      have hrest := ih (hrel hx) (xs ++ (m.step s x).outs) hstop
      simpa [transduceLoop, hstep, Acc.isReduced] using hrest

/-- Not stopped: the reducing function is completed. -/
theorem transduceLoop_go (h : Simulates rf m rel) {p : rf.State} {s : m.State} (hp : rel p s)
    (xs coll : List V) (hstop : (m.run s coll).stop = false) :
    ∃ p', rel p' (m.run s coll).state ∧ transduceLoop rf p (.val xs) coll =
      rf.complete p' (.val (xs ++ (m.run s coll).outs)) := by
  induction coll generalizing p s xs with
  | nil => exact ⟨p, hp, by simp [transduceLoop]⟩
  | cons x coll ih =>
    obtain ⟨p', hstep, hrel⟩ := h.step hp xs x
    cases hx : (m.step s x).stop with
    | true =>
      rw [m.run_cons, Reply.andThen_stop _ hx, hx] at hstop
      cases hstop
    | false =>
      rw [answer_go xs hx] at hstep
      rw [m.run_cons, Reply.andThen_go _ hx] at hstop ⊢
      obtain ⟨p'', hp'', hrest⟩ := ih (hrel hx) (xs ++ (m.step s x).outs) hstop
      exact ⟨p'', hp'', by simpa [transduceLoop, hstep, Acc.isReduced] using hrest⟩

theorem transduceLoop_end (h : Simulates rf m rel) {p : rf.State} {s : m.State} (hp : rel p s)
    (xs coll : List V) (hstop : (m.run s coll).stop = false)
    (hcut : m.cut (m.run s coll).state = false) :
    transduceLoop rf p (.val xs) coll = some (.val (xs ++ m.total s coll)) := by
  obtain ⟨p', hp', hloop⟩ := transduceLoop_go h hp xs coll hstop
  rw [hloop, h.complete hp' hcut, List.append_assoc]
  rfl

theorem transduceLoop_cut (h : Simulates rf m rel) {p : rf.State} {s : m.State} (hp : rel p s)
    (xs coll ys : List V) (hstop : (m.run s coll).stop = false)
    (hcut : m.cut (m.run s coll).state = true) :
    transduceLoop rf p (.val xs) coll ≠ some (.val ys) := by
  obtain ⟨p', hp', hloop⟩ := transduceLoop_go h hp xs coll hstop
  rw [hloop]
  exact h.cut hp' hcut _ ys

end

end Fol.Transducers

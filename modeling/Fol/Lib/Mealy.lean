/-
Fol.Lib.Mealy — machines that read a list, may stop before its end, and have something
left to give when it ends.

A step answers with any number of outputs and may ask for no more input. At the end of
the input the machine is flushed: it gives what it still holds.
-/
import Mathlib.Tactic.TypeStar

namespace Fol.Lib

universe u v w

/-! ## §1 Machines -/

/-- What a machine does with its input: the state it reaches, what it gives, and whether it
wants no more. -/
structure Reply (σ : Type w) (β : Type v) where
  state : σ
  outs : List β
  stop : Bool

/-- Going on from the state reached, unless the machine stopped. -/
def Reply.andThen {σ : Type w} {β : Type v} (r : Reply σ β) (next : σ → Reply σ β) : Reply σ β :=
  if r.stop then r
  else ⟨(next r.state).state, r.outs ++ (next r.state).outs, (next r.state).stop⟩

/-- `flush` is what the machine still holds when the input ends; `cut` says that handing it
on meets a machine that stops. -/
structure Mealy (α : Type u) (β : Type v) where
  State : Type w
  init : State
  step : State → α → Reply State β
  flush : State → List β
  cut : State → Bool

variable {α : Type u} {β : Type v}

namespace Reply

variable {σ : Type w}

theorem andThen_stop {r : Reply σ β} (next : σ → Reply σ β) (h : r.stop = true) :
    r.andThen next = r := by
  simp [andThen, h]

theorem andThen_go {r : Reply σ β} (next : σ → Reply σ β) (h : r.stop = false) :
    r.andThen next =
      ⟨(next r.state).state, r.outs ++ (next r.state).outs, (next r.state).stop⟩ := by
  simp [andThen, h]

theorem andThen_assoc (r : Reply σ β) (f g : σ → Reply σ β) :
    (r.andThen f).andThen g = r.andThen fun s => (f s).andThen g := by
  cases hr : r.stop with
  | true => simp [andThen, hr]
  | false =>
    cases hf : (f r.state).stop with
    | true => simp [andThen, hr, hf]
    | false => simp [andThen, hr, hf]

end Reply

namespace Mealy

def run (m : Mealy.{u, v, w} α β) : m.State → List α → Reply m.State β
  | s, [] => ⟨s, [], false⟩
  | s, x :: xs => (m.step s x).andThen fun s' => m.run s' xs

/-- All that the machine gives, what it holds at the end included. -/
def total (m : Mealy.{u, v, w} α β) (s : m.State) (xs : List α) : List β :=
  (m.run s xs).outs ++ m.flush (m.run s xs).state

section

variable (m : Mealy.{u, v, w} α β)

@[simp] theorem run_nil (s : m.State) : m.run s [] = ⟨s, [], false⟩ := rfl

theorem run_cons (s : m.State) (x : α) (xs : List α) :
    m.run s (x :: xs) = (m.step s x).andThen fun s' => m.run s' xs := rfl

@[simp] theorem total_nil (s : m.State) : m.total s [] = m.flush s := rfl

theorem run_append (s : m.State) (xs ys : List α) :
    m.run s (xs ++ ys) = (m.run s xs).andThen fun s' => m.run s' ys := by
  induction xs generalizing s with
  | nil => simp [Reply.andThen]
  | cons x xs ih => simp [run_cons, Reply.andThen_assoc, ih]

theorem run_stop_eq_false (h : ∀ s x, (m.step s x).stop = false) (s : m.State) (xs : List α) :
    (m.run s xs).stop = false := by
  induction xs generalizing s with
  | nil => rfl
  | cons x xs ih => rw [run_cons, Reply.andThen_go _ (h s x)]; exact ih _

/-- Past a stop nothing is read. -/
theorem total_append_stop {s : m.State} {xs : List α} (ys : List α)
    (h : (m.run s xs).stop = true) : m.total s (xs ++ ys) = m.total s xs := by
  simp [total, run_append, Reply.andThen_stop _ h]

theorem total_append_go {s : m.State} {xs : List α} (ys : List α)
    (h : (m.run s xs).stop = false) :
    m.total s (xs ++ ys) = (m.run s xs).outs ++ m.total (m.run s xs).state ys := by
  simp [total, run_append, Reply.andThen_go _ h]

theorem total_cons_stop {s : m.State} {x : α} (xs : List α) (h : (m.step s x).stop = true) :
    m.total s (x :: xs) = (m.step s x).outs ++ m.flush (m.step s x).state := by
  simp [total, run_cons, Reply.andThen_stop _ h]

theorem total_cons_go {s : m.State} {x : α} (xs : List α) (h : (m.step s x).stop = false) :
    m.total s (x :: xs) = (m.step s x).outs ++ m.total (m.step s x).state xs := by
  simp [total, run_cons, Reply.andThen_go _ h]

end

/-! ## §2 Composition -/

/-- The machine that gives back its input. -/
def skip (α : Type u) : Mealy.{u, u, 0} α α where
  State := Unit
  init := ()
  step _ x := ⟨(), [x], false⟩
  flush _ := []
  cut _ := false

/-- The third part of the state says that the second machine has stopped: from then on only
what that machine holds is left to give. -/
def comp {γ : Type u} (m : Mealy.{u, v, w} α β) (n : Mealy.{v, u, w} β γ) : Mealy α γ where
  State := m.State × n.State × Bool
  init := (m.init, n.init, false)
  step p x :=
    let r := m.step p.1 x
    let q := n.run p.2.1 r.outs
    ⟨(r.state, q.state, q.stop), q.outs, r.stop || q.stop⟩
  flush p := if p.2.2 then n.flush p.2.1 else n.total p.2.1 (m.flush p.1)
  cut p :=
    let q := n.run p.2.1 (m.flush p.1)
    m.cut p.1 || q.stop || n.cut q.state

theorem skip_total (s : (skip α).State) (xs : List α) : (skip α).total s xs = xs := by
  induction xs with
  | nil => rfl
  | cons x xs ih =>
    have hstep : ((skip α).step s x).stop = false := rfl
    rw [total_cons_go _ _ hstep]
    exact congrArg (x :: ·) ih

theorem comp_total {γ : Type u} (m : Mealy.{u, v, w} α β) (n : Mealy.{v, u, w} β γ) (s : m.State)
    (t : n.State) (xs : List α) :
    (m.comp n).total (s, t, false) xs = n.total t (m.total s xs) := by
  induction xs generalizing s t with
  | nil => simp [comp]
  | cons x xs ih =>
    cases hq : (n.run t (m.step s x).outs).stop with
    | true =>
      -- the second machine stops: it reads none of what the first would give later
      have hpair : ((m.comp n).step (s, t, false) x).stop = true := by simp [comp, hq]
      have hflush : (m.comp n).flush ((m.comp n).step (s, t, false) x).state =
          n.flush (n.run t (m.step s x).outs).state := by simp [comp, hq]
      obtain ⟨ys, hys⟩ : ∃ ys, m.total s (x :: xs) = (m.step s x).outs ++ ys := by
        cases hr : (m.step s x).stop with
        | true => exact ⟨_, total_cons_stop m xs hr⟩
        | false => exact ⟨_, total_cons_go m xs hr⟩
      rw [total_cons_stop _ xs hpair, hflush, hys, total_append_stop n ys hq]
      rfl
    | false =>
      cases hr : (m.step s x).stop with
      | true =>
        have hpair : ((m.comp n).step (s, t, false) x).stop = true := by simp [comp, hr]
        have hflush : (m.comp n).flush ((m.comp n).step (s, t, false) x).state =
            n.total (n.run t (m.step s x).outs).state (m.flush (m.step s x).state) := by
          simp [comp, hq]
        rw [total_cons_stop _ xs hpair, hflush, total_cons_stop m xs hr, total_append_go n _ hq]
        rfl
      | false =>
        have hpair : ((m.comp n).step (s, t, false) x).stop = false := by simp [comp, hr, hq]
        have hstate : ((m.comp n).step (s, t, false) x).state =
            ((m.step s x).state, (n.run t (m.step s x).outs).state, false) := by
          simp [comp, hq]
        rw [total_cons_go _ xs hpair, hstate, ih, total_cons_go m xs hr, total_append_go n _ hq]
        rfl

/-! ## §3 Steady machines -/

/-- The machine that never stops. -/
def steady {σ : Type w} (init : σ) (next : σ → α → σ) (outs : σ → α → List β)
    (flush : σ → List β) : Mealy α β where
  State := σ
  init := init
  step s x := ⟨next s x, outs s x, false⟩
  flush := flush
  cut _ := false

section

variable {σ : Type w} (init : σ) (next : σ → α → σ) (outs : σ → α → List β) (flush : σ → List β)

/-- What `steady` gives, without the machine. -/
def steadyTotal (next : σ → α → σ) (outs : σ → α → List β) (flush : σ → List β) :
    σ → List α → List β
  | s, [] => flush s
  | s, x :: xs => outs s x ++ steadyTotal next outs flush (next s x) xs

theorem steady_total (s : (steady init next outs flush).State) (xs : List α) :
    (steady init next outs flush).total s xs = steadyTotal next outs flush s xs := by
  induction xs generalizing s with
  | nil => rfl
  | cons x xs ih =>
    have hstep : ((steady init next outs flush).step s x).stop = false := rfl
    rw [total_cons_go _ _ hstep, ih]
    rfl

end

/-- The machine that gives `f x` for each input `x`, and remembers nothing. -/
def each (f : α → List β) : Mealy α β :=
  steady () (fun _ _ => ()) (fun _ x => f x) fun _ => []

theorem each_total (f : α → List β) (s : (each f).State) (xs : List α) :
    (each f).total s xs = xs.flatMap f := by
  refine (steady_total _ _ _ _ s xs).trans ?_
  induction xs with
  | nil => rfl
  | cons x xs ih =>
    rw [List.flatMap_cons, ← ih]
    rfl

/-! ## §4 Machines that stop -/

/-- The machine that gives its inputs as long as they satisfy `p`, and then stops. -/
def whileP (p : α → Bool) : Mealy.{u, u, 0} α α where
  State := Unit
  init := ()
  step _ x := ⟨(), if p x then [x] else [], !p x⟩
  flush _ := []
  cut _ := false

/-- The machine that stops with its `n`-th input. -/
def first (α : Type u) (n : Nat) : Mealy.{u, u, 0} α α where
  State := Nat
  init := 0
  step i x := if i < n then ⟨i + 1, [x], decide (n ≤ i + 1)⟩ else ⟨i, [], true⟩
  flush _ := []
  cut _ := false

theorem whileP_total (p : α → Bool) (s : (whileP p).State) (xs : List α) :
    (whileP p).total s xs = xs.takeWhile p := by
  induction xs with
  | nil => rfl
  | cons x xs ih =>
    cases hx : p x with
    | true =>
      have hstep : ((whileP p).step s x).stop = false := by simp [whileP, hx]
      have houts : ((whileP p).step s x).outs = [x] := by simp [whileP, hx]
      rw [total_cons_go _ _ hstep, List.takeWhile_cons_of_pos hx, houts]
      exact congrArg (x :: ·) ih
    | false =>
      have hstep : ((whileP p).step s x).stop = true := by simp [whileP, hx]
      rw [total_cons_stop _ _ hstep]
      simp [whileP, hx]

theorem first_total (n i : Nat) (hi : i < n) (xs : List α) :
    (first α n).total i xs = xs.take (n - i) := by
  induction xs generalizing i with
  | nil => simp [first]
  | cons x xs ih =>
    by_cases hlast : n ≤ i + 1
    case pos =>
      have hone : n - i = 1 := by omega
      have hstep : ((first α n).step i x).stop = true := by simp [first, hi, hlast]
      rw [total_cons_stop (first α n) xs hstep, hone]
      simp [first, hi]
    case neg =>
      have hmore : n - i = (n - (i + 1)) + 1 := by omega
      have hstep : ((first α n).step i x).stop = false := by simp [first, hi]; omega
      have hstate : ((first α n).step i x).state = (i + 1 : Nat) := by simp [first, hi]
      have houts : ((first α n).step i x).outs = [x] := by simp [first, hi]
      rw [total_cons_go (first α n) xs hstep, hstate, houts, ih (i + 1) (by omega), hmore,
        List.take_succ_cons]
      rfl

theorem first_zero_total (xs : List α) : (first α 0).total (0 : Nat) xs = [] := by
  cases xs with
  | nil => simp [first]
  | cons x xs =>
    have hstep : ((first α 0).step (0 : Nat) x).stop = true := by simp [first]
    rw [total_cons_stop (first α 0) xs hstep]
    simp [first]

end Mealy

end Fol.Lib

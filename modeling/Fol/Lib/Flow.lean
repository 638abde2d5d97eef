/-
Fol.Lib.Flow — equations `v i = ⊔ sources i` over a chain, solved by iteration from below.

A source of `i` is a constant or the value of another index. A value is below the least
solution at `i` exactly if some constant that large reaches `i` through the sources.
-/
import Mathlib.Order.BoundedOrder.Basic
import Mathlib.Order.Lattice

namespace Fol.Lib

variable {ι α : Type}

/-! ## §1 Sources -/

/-- What flows into an index. -/
inductive Source (ι α : Type) where
  | const (a : α)
  | of (j : ι)
deriving DecidableEq

def Source.value (v : ι → α) : Source ι α → α
  | .const a => a
  | .of j => v j

section Order

variable [LinearOrder α]

/-- A constant of at least `a` reaches `i`. -/
inductive FlowsTo (flows : ι → List (Source ι α)) (a : α) : ι → Prop where
  | const {i : ι} {b : α} : .const b ∈ flows i → a ≤ b → FlowsTo flows a i
  | of {i j : ι} : .of j ∈ flows i → FlowsTo flows a j → FlowsTo flows a i

theorem FlowsTo.mono {flows flows' : ι → List (Source ι α)} {a : α} {i : ι}
    (h : FlowsTo flows a i) (hsub : ∀ i, flows i ⊆ flows' i) : FlowsTo flows' a i := by
  induction h with
  | const hmem hle => exact .const (hsub _ hmem) hle
  | of hmem _ ih => exact .of (hsub _ hmem) ih

theorem FlowsTo.le {flows : ι → List (Source ι α)} {a b : α} {i : ι} (h : FlowsTo flows b i)
    (hle : a ≤ b) :
    FlowsTo flows a i := by
  induction h with
  | const hmem hb => exact .const hmem (hle.trans hb)
  | of hmem _ ih => exact .of hmem ih

/-- What the source gave the index still reaches it, under other flows. -/
def StillReaches [OrderBot α] (flows flows' : ι → List (Source ι α)) (i : ι) : Source ι α → Prop
  | .const a => a = ⊥ ∨ FlowsTo flows' a i
  | .of j => ∀ a, a ≠ ⊥ → FlowsTo flows a j → FlowsTo flows' a i

section Changes

variable [OrderBot α] {flows flows' : ι → List (Source ι α)} {i : ι}

theorem stillReaches_iff : (∀ a, a ≠ ⊥ → FlowsTo flows a i → FlowsTo flows' a i) ↔
    ∀ s ∈ flows i, StillReaches flows flows' i s := by
  constructor
  · intro h s hs
    cases s with
    | const a => exact or_iff_not_imp_left.mpr fun hne => h a hne (.const hs le_rfl)
    | of j => exact fun a hne ha => h a hne (.of hs ha)
  · intro h a hne ha
    cases ha with
    | const hs hle =>
      rcases h _ hs with rfl | hb
      · exact absurd (le_bot_iff.mp hle) hne
      · exact hb.le hle
    | of hs ha => exact h _ hs a hne ha

end Changes

/-! ## §2 Bounds -/

variable {flows : ι → List (Source ι α)} {v w : ι → α} {a : α} {i : ι}

/-- A solution of the inequalities is above everything that reaches the index. -/
theorem le_of_flowsTo (hv : ∀ i, ∀ s ∈ flows i, s.value v ≤ v i) (h : FlowsTo flows a i) :
    a ≤ v i := by
  induction h with
  | const hmem hle => exact hle.trans (hv _ _ hmem)
  | of hmem _ ih => exact ih.trans (hv _ _ hmem)

/-- The values are below the least solution. -/
def Grounded [OrderBot α] (flows : ι → List (Source ι α)) (v : ι → α) : Prop :=
  ∀ i a, a ≤ v i → a = ⊥ ∨ FlowsTo flows a i

theorem grounded_bot [OrderBot α] : Grounded flows fun _ => ⊥ := by
  intro i a ha
  exact .inl (le_bot_iff.mp ha)

/-- One round of the iteration keeps the values below the least solution. -/
theorem Grounded.round [OrderBot α] (hv : Grounded flows v)
    (hw : ∀ i, w i ≤ v i ∨ ∃ s ∈ flows i, w i ≤ s.value v) : Grounded flows w := by
  intro i a ha
  rcases hw i with hle | ⟨s, hs, hle⟩
  · exact hv i a (ha.trans hle)
  · cases s with
    | const b => exact .inr (.const hs (ha.trans hle))
    | of j =>
      rcases hv j a (ha.trans hle) with hbot | hreach
      · exact .inl hbot
      · exact .inr (.of hs hreach)

/-- A grounded solution is the least one. -/
theorem Grounded.le_iff [OrderBot α] (hg : Grounded flows v)
    (hv : ∀ i, ∀ s ∈ flows i, s.value v ≤ v i) : a ≤ v i ↔ a = ⊥ ∨ FlowsTo flows a i := by
  constructor
  · exact hg i a
  · rintro (rfl | h)
    · exact bot_le
    · exact le_of_flowsTo hv h

/-! ## §3 Rounds -/

/-- A constant of at least `a` reaches `i` within a number of rounds: one for the constant
and one for every index on the way. -/
inductive FlowsIn (flows : ι → List (Source ι α)) (a : α) : Nat → ι → Prop where
  | const {n : Nat} {i : ι} {b : α} : .const b ∈ flows i → a ≤ b → FlowsIn flows a (n + 1) i
  | of {n : Nat} {i j : ι} : .of j ∈ flows i → FlowsIn flows a n j → FlowsIn flows a (n + 1) i

theorem FlowsIn.mono {flows flows' : ι → List (Source ι α)} {n : Nat} (h : FlowsIn flows a n i)
    (hsub : ∀ i, flows i ⊆ flows' i) : FlowsIn flows' a n i := by
  induction h with
  | const hmem hle => exact .const (hsub _ hmem) hle
  | of hmem _ ih => exact .of (hsub _ hmem) ih

theorem FlowsIn.succ {n : Nat} (h : FlowsIn flows a n i) : FlowsIn flows a (n + 1) i := by
  induction h with
  | const hmem hle => exact .const hmem hle
  | of hmem _ ih => exact .of hmem ih

section Bot

variable [OrderBot α] {n m : Nat}

/-- The values are those of the iteration after `n` rounds. -/
def AfterRounds (flows : ι → List (Source ι α)) (n : Nat) (v : ι → α) : Prop :=
  ∀ i a, a ≤ v i ↔ a = ⊥ ∨ FlowsIn flows a n i

theorem afterRounds_zero : AfterRounds flows 0 fun _ => ⊥ := by
  intro i a
  rw [le_bot_iff]
  exact ⟨.inl, fun h => h.resolve_right nofun⟩

theorem AfterRounds.round (hv : AfterRounds flows n v)
    (hsources : ∀ i, ∀ s ∈ flows i, s.value v ≤ w i)
    (hw : ∀ i, w i ≤ v i ∨ ∃ s ∈ flows i, w i ≤ s.value v) : AfterRounds flows (n + 1) w := by
  intro i a
  constructor
  · intro ha
    rcases hw i with hle | ⟨s, hs, hle⟩
    · exact ((hv i a).mp (ha.trans hle)).imp_right .succ
    · cases s with
      | const b => exact .inr (.const hs (ha.trans hle))
      | of j => exact ((hv j a).mp (ha.trans hle)).imp_right (.of hs)
  · rintro (rfl | h)
    · exact bot_le
    · cases h with
      | const hmem hle => exact hle.trans (hsources i _ hmem)
      | of hmem h => exact ((hv _ a).mpr (.inr h)).trans (hsources i _ hmem)

/-- One more round after `n` finds nothing new. -/
def SettledAfter (flows : ι → List (Source ι α)) (n : Nat) : Prop :=
  ∀ i a, FlowsIn flows a (n + 1) i → a = ⊥ ∨ FlowsIn flows a n i

theorem SettledAfter.congr {flows' : ι → List (Source ι α)}
    (h : ∀ i s, s ∈ flows i ↔ s ∈ flows' i) :
    SettledAfter flows n ↔ SettledAfter flows' n := by
  have hin (n : Nat) (i : ι) (a : α) : FlowsIn flows a n i ↔ FlowsIn flows' a n i :=
    ⟨fun ha => ha.mono fun i s => (h i s).mp, fun ha => ha.mono fun i s => (h i s).mpr⟩
  simp only [SettledAfter, hin]

theorem SettledAfter.succ (h : SettledAfter flows n) : SettledAfter flows (n + 1) := by
  intro i a ha
  cases ha with
  | const hmem hle => exact .inr (.const hmem hle)
  | of hmem ha => exact (h _ a ha).imp_right (.of hmem)

theorem SettledAfter.mono (h : SettledAfter flows n) (hle : n ≤ m) : SettledAfter flows m := by
  induction hle with
  | refl => exact h
  | step _ ih => exact ih.succ

theorem AfterRounds.settled_iff (hv : AfterRounds flows n v) (hw : AfterRounds flows (n + 1) w) :
    (∀ i, w i ≤ v i) ↔ SettledAfter flows n := by
  constructor
  · intro h i a ha
    exact (hv i a).mp (((hw i a).mpr (.inr ha)).trans (h i))
  · intro h i
    refine (hv i _).mpr ?_
    rcases (hw i (w i)).mp le_rfl with hbot | hflows
    · exact .inl hbot
    · exact h i _ hflows

end Bot

end Order

end Fol.Lib

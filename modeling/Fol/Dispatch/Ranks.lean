/-
Fol.Dispatch.Ranks — `pattern-more-specific-p` as an order, and the rank of a conjunction in it.

A signature keeps the arguments of a predicate as one list. `pattern-specificity-level` takes the
list of these lists for the conjuncts, so it never finds two of them.
-/
import Fol.Dispatch.Dispatchers
import Mathlib.Data.List.Forall2

namespace Fol.Dispatch

variable {F T E : Type}

/-! ## §1 Order -/

section Order

variable (N : Names F)

/-- No list of signatures is more specific than one before it. -/
def SpecificFirst (sigs : List (List (Sig F T E))) : Prop :=
  sigs.Pairwise fun sig₁ sig₂ => patternMoreSpecificP N sig₂ sig₁ = false

/-- Neither is more specific. -/
def Tied (sig₁ sig₂ : List (Sig F T E)) : Prop :=
  patternMoreSpecificP N sig₁ sig₂ = false ∧ patternMoreSpecificP N sig₂ sig₁ = false

variable {N} {sig₁ sig₂ sig₃ : List (Sig F T E)} {sigs sigs' : List (List (Sig F T E))}

theorem not_moreSpecific_iff :
    patternMoreSpecificP N sig₁ sig₂ = false ↔ weights N sig₁ ≤ weights N sig₂ := by
  rw [← Bool.not_eq_true, moreSpecific_iff, not_lt]

theorem tied_iff : Tied N sig₁ sig₂ ↔ weights N sig₁ = weights N sig₂ := by
  rw [Tied, not_moreSpecific_iff, not_moreSpecific_iff]
  exact ⟨fun h => le_antisymm h.1 h.2, fun h => ⟨h.le, h.ge⟩⟩

theorem moreSpecific_irrefl (sig : List (Sig F T E)) : patternMoreSpecificP N sig sig = false :=
  not_moreSpecific_iff.mpr le_rfl

theorem moreSpecific_trans (h₁₂ : patternMoreSpecificP N sig₁ sig₂ = true)
    (h₂₃ : patternMoreSpecificP N sig₂ sig₃ = true) : patternMoreSpecificP N sig₁ sig₃ = true := by
  rw [moreSpecific_iff] at *
  exact h₂₃.trans h₁₂

theorem Tied.trans (h₁₂ : Tied N sig₁ sig₂) (h₂₃ : Tied N sig₂ sig₃) : Tied N sig₁ sig₃ := by
  rw [tied_iff] at *
  exact h₁₂.trans h₂₃

theorem specificFirst_iff : SpecificFirst N sigs ↔ (sigs.map (weights N)).Pairwise (· ≥ ·) := by
  simp only [SpecificFirst, List.pairwise_map, not_moreSpecific_iff, ge_iff_le]

/-- Two lists of the same signatures that are in order differ in ties. -/
theorem SpecificFirst.tied (h : SpecificFirst N sigs) (h' : SpecificFirst N sigs')
    (hperm : sigs.Perm sigs') :
    List.Forall₂ (Tied N) sigs sigs' := by
  have hweights : sigs.map (weights N) = sigs'.map (weights N) :=
    List.Perm.eq_of_pairwise (fun _ _ _ _ hle hge => le_antisymm hge hle) (specificFirst_iff.mp h)
      (specificFirst_iff.mp h') (hperm.map _)
  rw [← List.forall₂_eq_eq_eq, List.forall₂_map_left_iff, List.forall₂_map_right_iff] at hweights
  exact hweights.imp fun _ _ => tied_iff.mpr

/-- The lists can be put in order. -/
theorem exists_specificFirst (sigs : List (List (Sig F T E))) :
    ∃ sorted, sorted.Perm sigs ∧ SpecificFirst N sorted := by
  refine ⟨sigs.mergeSort fun sig₁ sig₂ => !patternMoreSpecificP N sig₂ sig₁,
    List.mergeSort_perm _ _, ?_⟩
  have hsorted :
    (sigs.mergeSort fun sig₁ sig₂ => !patternMoreSpecificP N sig₂ sig₁).Pairwise fun sig₁ sig₂ =>
      (!patternMoreSpecificP N sig₂ sig₁) = true := List.pairwise_mergeSort
    (fun sig₁ sig₂ sig₃ h₁₂ h₂₃ => by
      simp only [Bool.not_eq_true', not_moreSpecific_iff] at *
      exact h₂₃.trans h₁₂)
    (fun sig₁ sig₂ => by
      rcases le_total (weights N sig₁) (weights N sig₂) with h | h
      · simp [not_moreSpecific_iff.mpr h]
      · simp [not_moreSpecific_iff.mpr h]) sigs
  simpa [SpecificFirst] using hsorted

/-- The comparison is a strict weak order; sorted by it, the signatures stand in one order but for
ties. -/
theorem specificity_strictWeakOrder (N : Names F) :
    IsStrictWeakOrder (List (Sig F T E)) (fun sig₁ sig₂ => patternMoreSpecificP N sig₁ sig₂ =
      true) ∧
      ∀ sigs : List (List (Sig F T E)), ∃ sorted, sorted.Perm sigs ∧ SpecificFirst N sorted ∧
        ∀ sorted', sorted'.Perm sigs → SpecificFirst N sorted' →
        List.Forall₂ (Tied N) sorted sorted' := by
  constructor
  · exact
      { irrefl := fun sig => by simp [moreSpecific_irrefl]
        trans := fun _ _ _ => moreSpecific_trans
        incomp_trans := fun sig₁ sig₂ sig₃ h₁₂ h₂₃ => by
          simp only [Bool.not_eq_true] at *
          exact Tied.trans h₁₂ h₂₃ }
  · intro sigs
    obtain ⟨sorted, hperm, hfirst⟩ := exists_specificFirst (N := N) sigs
    exact ⟨sorted, hperm, hfirst, fun sorted' hperm' hfirst' =>
      hfirst.tied hfirst' (hperm.trans hperm'.symm)⟩

end Order

/-! ## §2 Conjunctions -/

section Conjunctions

variable (N : Names F)

/-- `compute-pattern-signature` of a parameter list. -/
def computePatternSignature (params : List (Pattern F T E)) : List (Sig F T E) :=
  params.map (computeElementSignature N)

/-- `(and c1 ... cn)` with a type predicate and another predicate among the conjuncts. -/
structure IsTypedConjunction (fn : F) (conjuncts : List (Form F E)) : Prop where
  isAnd : N.isAnd fn = true
  typed : ∃ conj ∈ conjuncts, isTypePredicateFormP N conj = true
  other : ∃ conj ∈ conjuncts, isTypePredicateFormP N conj = false ∧ isCallForm conj = true

/-- The parameter with the conjunction ranks above the one with any type and below the one with any
other predicate. -/
structure RanksBetween (p : Pattern F T E) (fn : F) (conjuncts : List (Form F E)) : Prop where
  overType (t : T) :
    patternMoreSpecificP N (computePatternSignature N [.pred p fn conjuncts])
    (computePatternSignature N [.type p t]) = true
  overTypePredicate (pred : F) (args : List (Form F E)) (htype : N.typePredicateP pred = true) :
    patternMoreSpecificP N (computePatternSignature N [.pred p fn conjuncts])
      (computePatternSignature N [.pred p pred args]) = true
  underPredicate (pred : F) (args : List (Form F E)) (hother : N.typePredicateP pred = false)
      (hnot : ¬ IsTypedConjunction N pred args) :
    patternMoreSpecificP N (computePatternSignature N [.pred p pred args])
      (computePatternSignature N [.pred p fn conjuncts]) = true

variable {N} {p : Pattern F T E} {fn : F} {conjuncts : List (Form F E)}

/-- One parameter is compared by its level, unless it is destructured. -/
theorem moreSpecific_singleton {s₁ s₂ : Sig F T E} (hseq : patternSpecificityLevel N s₁ ≠ 1) :
    patternMoreSpecificP N [s₁] [s₂] = true ↔
    patternSpecificityLevel N s₂ < patternSpecificityLevel N s₁ := by
  rcases Nat.lt_trichotomy (patternSpecificityLevel N s₁) (patternSpecificityLevel N s₂) with hlt |
    heq | hgt
  · obtain ⟨-, hless, -⟩ := compared_level (N := N) [] [] hlt
    rw [hless]
    exact iff_of_false (by simp) (by omega)
  · rw [(moreSpecific_cons_of_tied heq hseq).1]
    exact iff_of_false (by simp [patternMoreSpecificP]) (by omega)
  · exact iff_of_true (compared_level (N := N) [] [] hgt).1 hgt

/-- The one list of arguments is no two conjuncts. -/
theorem level_pred (fn : F) (args : List (Form F E)) :
    patternSpecificityLevel (T := T) N (.pred fn args) = 4 := by
  simp [patternSpecificityLevel, detectCompositeLevel]

/-- Parameters with predicates are tied, whether these are conjunctions or not. -/
theorem predicates_tied {pred : F} (hpred : N.typePredicateP pred = false) (args : List (Form F E))
    (hfn : N.typePredicateP fn = false) (conjuncts : List (Form F E)) :
    Tied N (computePatternSignature (T := T) N [.pred p pred args])
    (computePatternSignature N [.pred p fn conjuncts]) := by
  simp only [Tied, computePatternSignature, List.map_cons, List.map_nil, computeElementSignature,
    hpred, hfn, ← Bool.not_eq_true]
  rw [moreSpecific_singleton (by simp [level_pred]), moreSpecific_singleton (by simp [level_pred])]
  simp [level_pred]

theorem predicate_over {s : Sig F T E} (hfn : N.typePredicateP fn = false)
    (hs : patternSpecificityLevel N s < 4) :
    patternMoreSpecificP N (computePatternSignature N [.pred p fn conjuncts]) [s] = true := by
  simp only [computePatternSignature, List.map_cons, List.map_nil, computeElementSignature, hfn]
  exact (moreSpecific_singleton (by simp [level_pred])).mpr (by simpa [level_pred] using hs)

theorem not_ranksBetween_of_predicate {pred : F} {args : List (Form F E)}
    (hpred : N.typePredicateP pred = false) (hnot : ¬ IsTypedConjunction N pred args)
    (hfn : N.typePredicateP fn = false) :
    ¬ RanksBetween N p fn conjuncts := by
  intro h
  have hless := h.underPredicate pred args hpred hnot
  rw [(predicates_tied hpred args hfn conjuncts).1] at hless
  cases hless

/-- No conjunction ranks between: it is above the types, and tied with the predicates. -/
theorem conjunction_never_between (p : Pattern F T E)
    (h : IsTypedConjunction N fn conjuncts) :
    ¬ RanksBetween N p fn conjuncts ∧
      (∀ t, patternMoreSpecificP N (computePatternSignature N [.pred p fn conjuncts])
        (computePatternSignature N [.type p t]) = true) ∧
      (∀ pred args, N.typePredicateP pred = true →
        patternMoreSpecificP N (computePatternSignature N [.pred p fn conjuncts])
          (computePatternSignature N [.pred p pred args]) = true) ∧
      ∀ pred args, N.typePredicateP pred = false →
        Tied N (computePatternSignature N [.pred p pred args])
        (computePatternSignature N [.pred p fn conjuncts]) := by
  have hfn := N.isAnd_untyped fn h.isAnd
  refine ⟨?_, fun t => ?_, fun pred args hpred => ?_,
    fun pred args hpred => predicates_tied hpred args hfn conjuncts⟩
  · -- `(and)` is a predicate without conjuncts
    have hnot : ¬ IsTypedConjunction N fn ([] : List (Form F E)) := fun hempty => by
      obtain ⟨conj, hmem, -⟩ := hempty.typed
      cases hmem
    exact not_ranksBetween_of_predicate hfn hnot hfn
  · exact predicate_over hfn (by simp [computeElementSignature, patternSpecificityLevel])
  · have hsig : computePatternSignature (T := T) N [.pred p pred args] = [.typePred pred args] := by
      simp [computePatternSignature, computeElementSignature, hpred]
    rw [hsig]
    exact predicate_over hfn (by simp [patternSpecificityLevel])

/-- `and`, `<integer>?` and `prime?`. -/
inductive Word where
  | conjunction
  | integer
  | prime
deriving DecidableEq

def wordNames : Names Word :=
  ⟨(· = .integer), (· = .conjunction), fun fn => by cases fn <;> decide⟩

/-- `(<integer>?) (prime?)`. -/
def integerPrime : List (Form Word Unit) := [.list [.symbol .integer], .list [.symbol .prime]]

theorem integerPrime_typed : IsTypedConjunction wordNames .conjunction integerPrime :=
  ⟨rfl, ⟨.list [.symbol .integer], by simp [integerPrime], rfl⟩,
    ⟨.list [.symbol .prime], by simp [integerPrime], rfl, rfl⟩⟩

theorem integerPrime_never_between :
    IsTypedConjunction wordNames .conjunction integerPrime ∧
      ¬ RanksBetween (T := Unit) wordNames (.symbol (.plain .prime)) .conjunction integerPrime :=
  ⟨integerPrime_typed,
    (conjunction_never_between (.symbol (.plain .prime)) integerPrime_typed).1⟩

/-- `(x (and (<integer>?) (prime?)))` beside `(x (prime?))`. -/
theorem not_integerPrime_between :
    ¬ RanksBetween (T := Unit) wordNames (.symbol (.plain .prime)) .conjunction integerPrime := by
  have hnot : ¬ IsTypedConjunction wordNames .prime ([] : List (Form Word Unit)) := fun h => by
    cases h.isAnd
  exact not_ranksBetween_of_predicate rfl hnot rfl

end Conjunctions

end Fol.Dispatch

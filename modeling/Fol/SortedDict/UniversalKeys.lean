/-
Fol.SortedDict.UniversalKeys — `%universal-comparator` of `compareops.lisp` as the order of
the keys of a sorted dict, against `%=`.

The comparator ranks the objects in nine kinds and compares inside of each. Complex numbers
are compared by their magnitudes, symbols by their name and the name of their package, and
whatever has the last rank is equal to everything of that rank.
-/
import Fol.Compareops
import Fol.SortedDict.Tree

namespace Fol.SortedDict.UniversalKeys

open Compareops
open Std (TransCmp OrientedCmp)

/-! ## §1 Equality -/

/-- `%=` on the objects that are no conses, numbers, characters, strings or symbols: the methods
on collections and persistent objects, and `eq`. -/
structure ObjectEquality where
  equal : Nat → Nat → Bool
  refl : ∀ i, equal i i = true

/-- `%=`. The `(or (eq a b) …)` of the method on conses only saves the walk. -/
@[grind =] def equals (O : ObjectEquality) (a b : LispObject) : Bool :=
  match a, b with
  | .nil, .nil => true
  | .t, .t => true
  | .char ca, .char cb => ca == cb
  | .real x, .real y => x.value == y.value
  | .complex x i, .complex y j => x.value == y.value && i.value == j.value
  | .real x, .complex y j => x.value == y.value && j.value == 0
  | .complex x i, .real y => x.value == y.value && i.value == 0
  | .keyword m, .keyword n => m == n
  | .symbol m g, .symbol n h => m == n && g == h
  | .string s1, .string s2 => s1 == s2
  | .cons a d, .cons b e => equals O a b && equals O d e
  | .object i, .object j => O.equal i j
  | _, _ => false

/-! ## §2 Laws -/

/-- `(make '<sorted-dict> nil)` with the two keys has one entry. -/
def merged (abs : LispReal → LispReal → Rat) (x y : LispObject) : Prop :=
  let assoc (d : BTreeDict LispObject Unit) (key : LispObject) :=
    sortedDictAssoc (universalComparator abs) (· == .nil) d key ()
  (assoc (assoc {} x) y).count = 1

/-- The comparator is antisymmetric and transitive, and takes for equal exactly what is `%=`, so
that no two keys are merged that are not. -/
structure Laws (abs : LispReal → LispReal → Rat) (O : ObjectEquality) (x y z : LispObject) :
    Prop where
  negated : universalComparator abs x y = (universalComparator abs y x).swap
  trans : (universalComparator abs x y).isLE → (universalComparator abs y z).isLE →
    (universalComparator abs x z).isLE
  zero : universalComparator abs x y = .eq ↔ equals O x y = true
  kept : merged abs x y → equals O x y = true

/-- A rational, as a part of a complex number. -/
def IsRational (r : LispReal) : Prop := r.type = .rational ∧ r.minusZero = false

/-- A complex number has rational parts, and is not a real. -/
def RationalParts : LispObject → Prop
  | .complex re im => IsRational re ∧ IsRational im ∧ im.value ≠ 0
  | _ => True

/-- No two complex numbers of one magnitude, no two symbols of one name and one name of their
packages, and of the last rank only what is `%=`. -/
def Separable (abs : LispReal → LispReal → Rat) (O : ObjectEquality) (x y : LispObject) : Prop :=
  match x, y with
  | .complex a b, .complex c d => abs a b = abs c d → a = c ∧ b = d
  | .symbol m g, .symbol n h => m = n → packageNameSafe g = packageNameSafe h → g = h
  | .cons a d, .cons b e => equals O (.cons a d) (.cons b e) = true
  | .object i, .object j => equals O (.object i) (.object j) = true
  | .cons _ _, .object _ => False
  | .object _, .cons _ _ => False
  | _, _ => True

/-! ## §3 Result -/

section Result

variable {abs : LispReal → LispReal → Rat} {O : ObjectEquality} {x y : LispObject}

theorem stringCompare_eq_iff (s1 s2 : String) : stringCompare s1 s2 = .eq ↔ s1 = s2 := by
  rw [stringCompare_eq, compare_eq_iff_eq]

theorem numberCompare_eq_iff (a b : Rat) : numberCompare a b = .eq ↔ a = b := by
  rw [numberCompare_eq, compare_eq_iff_eq]

/-- A rational is given by its value. -/
theorem IsRational.ext {r s : LispReal} (hr : IsRational r) (hs : IsRational s) :
    r.value = s.value ↔ r = s := by
  constructor
  · intro h
    cases r
    cases s
    simp_all [IsRational]
  · rintro rfl
    rfl

/-- Objects of different ranks are not `%=`. -/
theorem equals_of_ranks (hx : RationalParts x) (hy : RationalParts y)
    (h : typeRank x ≠ typeRank y) : equals O x y = false := by
  cases x <;> cases y <;> simp [typeRank, equals] at h ⊢
  · intro
    exact hy.2.2
  · intro
    exact hx.2.2

theorem comparator_of_ranks (h : typeRank x ≠ typeRank y) : universalComparator abs x y ≠ .eq := by
  unfold universalComparator
  rw [if_pos h]
  split
  · simp
  · simp

/-- Inside of a rank, the two equalities agree on what is separable. -/
theorem zero_iff_of_rank (hx : RationalParts x) (hy : RationalParts y)
    (h : typeRank x = typeRank y) :
    (universalComparator abs x y = .eq ↔ equals O x y = true) ↔ Separable abs O x y := by
  cases x <;> cases y <;> simp only [typeRank, reduceCtorEq, Nat.reduceEqDiff] at h
  case nil.nil => simp [universalComparator, equals, Separable]
  case t.t => simp [universalComparator, equals, Separable]
  case char.char ca cb =>
    have hcode : (if ca < cb then Ordering.lt else if cb < ca then .gt else .eq) = .eq ↔
      ca = cb := by
      rw [cond_eq_compare, compare_eq_iff_eq]
    simp [universalComparator, typeRank, equals, Separable, hcode]
  case real.real r s => simp [universalComparator, typeRank, equals, Separable,
    numberCompare_eq_iff]
  case complex.complex a b c d =>
    have hre := IsRational.ext hx.1 hy.1
    have him := IsRational.ext hx.2.1 hy.2.1
    simp only [universalComparator, typeRank, ne_eq, not_true_eq_false, if_false,
      numberCompare_eq_iff, equals, Separable, Bool.and_eq_true, beq_iff_eq, hre, him]
    exact ⟨fun hiff => hiff.mp, fun himp => ⟨himp, fun hab => by rw [hab.1, hab.2]⟩⟩
  case keyword.keyword m n =>
    simp [universalComparator, typeRank, equals, Separable, stringCompare_eq_iff]
  case symbol.symbol m g n h =>
    simp only [universalComparator, typeRank, ne_eq, not_true_eq_false, if_false,
      stringCompare_eq_iff, equals, Separable, Bool.and_eq_true, beq_iff_eq]
    by_cases hmn : m = n
    · simp only [hmn, if_true, stringCompare_eq_iff, true_and, forall_const]
      exact ⟨fun hiff => hiff.mp, fun himp => ⟨himp, fun hg => by rw [hg]⟩⟩
    · simp [hmn, stringCompare_eq_iff]
  case string.string s1 s2 =>
    simp [universalComparator, typeRank, equals, Separable, stringCompare_eq_iff]
  case cons.cons a d b e => simp [universalComparator, typeRank, Separable]
  case cons.object a d i => simp [universalComparator, typeRank, equals, Separable]
  case object.cons i a d => simp [universalComparator, typeRank, equals, Separable]
  case object.object i j => simp [universalComparator, typeRank, Separable]

theorem separable_of_ranks (h : typeRank x ≠ typeRank y) : Separable abs O x y := by
  cases x <;> cases y <;> simp [typeRank, Separable] at h ⊢

theorem zero_iff (hx : RationalParts x) (hy : RationalParts y) :
    (universalComparator abs x y = .eq ↔ equals O x y = true) ↔ Separable abs O x y := by
  by_cases h : typeRank x = typeRank y
  · exact zero_iff_of_rank hx hy h
  · refine iff_of_true ?_ (separable_of_ranks h)
    simp [comparator_of_ranks h, equals_of_ranks hx hy h]

/-- The second key takes the place of the first exactly where the comparator is 0. -/
theorem merged_iff : merged abs x y ↔ universalComparator abs x y = .eq := by
  have hswap : universalComparator abs y x = .eq ↔ universalComparator abs x y = .eq :=
    OrientedCmp.eq_comm
  unfold merged
  simp only [sortedDictAssoc, btreeAssocNode, bsearchKeys, List.length_singleton]
  rw [← hswap]
  cases hcmp : universalComparator abs y x <;>
    simp [bsearchLoop, hcmp, hit, insertAt, bTreeOrder, Ordering.isLE]

end Result

/-- `eq`. -/
def identity : ObjectEquality where
  equal i j := i == j
  refl i := by simp

end Fol.SortedDict.UniversalKeys

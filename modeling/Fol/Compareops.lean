/-
Fol.Compareops — the Lisp objects that serve as keys and priorities, EQUAL on them, and
`%universal-comparator` of `compareops.lisp`.

An object is what EQUAL sees of it, so that EQUAL is equality here: numbers by type and
value, conses and strings by contents, everything else by identity. A float is given by
its format and the rational it denotes; the implementation traps the operations that would
return a NaN or an infinity.
-/
import Mathlib.Algebra.Order.Ring.Rat
import Mathlib.Data.Nat.Cast.Order.Ring
import Mathlib.Data.String.Basic

namespace Fol.Compareops

open Std (TransCmp OrientedCmp)

/-! ## §1 Objects -/

/-- The types of real numbers; EQL tells them apart. -/
inductive RealType where
  | rational
  | singleFloat
  | doubleFloat
deriving DecidableEq

/-- A real number: its type, the value it denotes, and whether it is a minus zero. -/
structure LispReal where
  type : RealType := .rational
  value : Rat
  minusZero : Bool := false
deriving DecidableEq

/-- Where a symbol is at home: a package, or nowhere, which leaves its identity. -/
inductive SymbolHome where
  | package (name : String)
  | uninterned (address : Nat)
deriving DecidableEq

/-- A Lisp object up to EQUAL. -/
inductive LispObject where
  | nil
  | t
  | char (code : Nat)
  | real (r : LispReal)
  | complex (re im : LispReal)
  | keyword (name : String)
  | symbol (name : String) (home : SymbolHome)
  | string (chars : String)
  | cons (car cdr : LispObject)
  | object (address : Nat)
deriving DecidableEq

namespace LispObject

/-- An integer. -/
def int (n : Int) : LispObject := .real { value := n }

/-- A double float. -/
def double (q : Rat) : LispObject := .real { type := .doubleFloat, value := q }

end LispObject

/-! ## §2 Comparator -/

/-- `type-rank`. -/
def typeRank : LispObject → Nat
  | .nil => 0
  | .t => 1
  | .char _ => 2
  | .real _ => 3
  | .complex _ _ => 4
  | .keyword _ => 5
  | .symbol _ _ => 6
  | .string _ => 7
  | .cons _ _ => 8
  | .object _ => 8

/-- `%string-compare`. -/
def stringCompare (s1 s2 : String) : Ordering :=
  if s1 < s2 then .lt else if s2 < s1 then .gt else .eq

/-- `%package-name-safe`. -/
def packageNameSafe : SymbolHome → String
  | .package name => name
  | .uninterned _ => ""

/-- `(cond ((< a b) -1) ((> a b) 1) (t 0))`. -/
def numberCompare (a b : Rat) : Ordering := if a < b then .lt else if b < a then .gt else .eq

variable (abs : LispReal → LispReal → Rat)

/-- `%universal-comparator`; `abs` is the magnitude of a complex number. -/
def universalComparator (a b : LispObject) : Ordering :=
  if typeRank a ≠ typeRank b then
    if typeRank a < typeRank b then .lt else .gt
  else
    match a, b with
    | .char ca, .char cb => if ca < cb then .lt else if cb < ca then .gt else .eq
    | .real x, .real y => numberCompare x.value y.value
    | .complex x i, .complex y j => numberCompare (abs x i) (abs y j)
    | .keyword m, .keyword n => stringCompare m n
    | .symbol m g, .symbol n h =>
      if stringCompare m n = .eq then stringCompare (packageNameSafe g) (packageNameSafe h)
      else stringCompare m n
    | .string s1, .string s2 => stringCompare s1 s2
    | _, _ => .eq

/-! ## §3 Order -/

/-- The three-way test of the comparators is `compare`. -/
theorem cond_eq_compare {α : Type} [LinearOrder α] (a b : α) :
    (if a < b then Ordering.lt else if b < a then .gt else .eq) = compare a b := by
  rw [LinearOrder.compare_eq_compareOfLessAndEq, compareOfLessAndEq]
  rcases lt_trichotomy a b with h | h | h
  · simp [h]
  · simp [h]
  · simp [h, h.not_gt, h.ne']

theorem stringCompare_eq (s1 s2 : String) : stringCompare s1 s2 = compare s1 s2 :=
  cond_eq_compare s1 s2

theorem numberCompare_eq (a b : Rat) : numberCompare a b = compare a b := cond_eq_compare a b

/-- What the comparator compares, from the most significant: the rank, the code or value,
the text, the package. -/
structure SortKey where
  rank : Nat
  number : Rat := 0
  text : String := ""
  package : String := ""

def sortKey (x : LispObject) : SortKey :=
  match x with
  | .char code => { rank := typeRank x, number := code }
  | .real r => { rank := typeRank x, number := r.value }
  | .complex re im => { rank := typeRank x, number := abs re im }
  | .keyword name => { rank := typeRank x, text := name }
  | .symbol name home => { rank := typeRank x, text := name, package := packageNameSafe home }
  | .string chars => { rank := typeRank x, text := chars }
  | _ => { rank := typeRank x }

/-- The lexicographic order of the keys. -/
def keyCompare : SortKey → SortKey → Ordering :=
  compareLex (compareOn SortKey.rank) (compareLex (compareOn SortKey.number)
    (compareLex (compareOn SortKey.text) (compareOn SortKey.package)))

instance : TransCmp keyCompare :=
  inferInstanceAs (TransCmp (compareLex (compareOn SortKey.rank) (compareLex
    (compareOn SortKey.number) (compareLex (compareOn SortKey.text) (compareOn SortKey.package)))))

@[simp] theorem rank_sortKey (x : LispObject) : (sortKey abs x).rank = typeRank x := by
  cases x <;> rfl

/-- Among objects of one rank the rest of the key decides. -/
theorem universalComparator_same_rank {a b : LispObject} (h : typeRank a = typeRank b) :
    universalComparator abs a b = keyCompare (sortKey abs a) (sortKey abs b) := by
  cases a <;> cases b <;> simp only [typeRank, reduceCtorEq, Nat.reduceEqDiff] at h
  all_goals
    simp [universalComparator, typeRank, keyCompare, sortKey, compareLex, compareOn,
      stringCompare_eq, numberCompare_eq]
  case char.char ca cb =>
    rw [cond_eq_compare]
    rcases lt_trichotomy ca cb with hlt | heq | hgt
    · rw [compare_lt_iff_lt.mpr hlt, compare_lt_iff_lt.mpr (Nat.cast_lt.mpr hlt)]
    · rw [compare_eq_iff_eq.mpr heq, compare_eq_iff_eq.mpr (congrArg _ heq)]
    · rw [compare_gt_iff_gt.mpr hgt, compare_gt_iff_gt.mpr (Nat.cast_lt.mpr hgt)]
  case symbol.symbol m g n h =>
    by_cases hmn : m = n
    · simp [hmn]
    · rw [if_neg hmn]
      cases hc : compare m n with
      | eq => exact absurd (compare_eq_iff_eq.mp hc) hmn
      | lt => rfl
      | gt => rfl

theorem universalComparator_eq (a b : LispObject) :
    universalComparator abs a b = keyCompare (sortKey abs a) (sortKey abs b) := by
  by_cases h : typeRank a = typeRank b
  · exact universalComparator_same_rank abs h
  · unfold universalComparator
    rw [if_pos h, keyCompare, compareLex, compareOn, rank_sortKey, rank_sortKey]
    rcases Nat.lt_or_gt_of_ne h with hlt | hgt
    · rw [if_pos hlt, Nat.compare_eq_lt.mpr hlt]
      rfl
    · rw [if_neg (Nat.lt_asymm hgt), Nat.compare_eq_gt.mpr hgt]
      rfl

instance : TransCmp (universalComparator abs) where
  eq_swap {a b} := by
    rw [universalComparator_eq, universalComparator_eq]
    exact OrientedCmp.eq_swap
  isLE_trans {a b c} hab hbc := by
    rw [universalComparator_eq] at *
    exact TransCmp.isLE_trans hab hbc

end Fol.Compareops

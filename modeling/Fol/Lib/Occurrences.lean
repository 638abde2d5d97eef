/-
Fol.Lib.Occurrences — occurrences of one list in another, the first of them, and the replacement of
all of them in one pass.

  §1 Search — `search`, the position of the first occurrence.
  §2 Pass   — `onePass`, which replaces the leftmost occurrences that do not overlap.
  §3 Cuts   — `cut`, a list after some of its replacements, and where an occurrence in it can begin.
-/
import Mathlib.Data.List.Infix

namespace Fol.Lib

variable {α : Type} [DecidableEq α]

/-! ## §1 Search -/

/-- The first position at which `m` stands in the list. -/
@[grind =] def search (m : List α) : List α → Option Nat
  | [] => if m <+: [] then some 0 else none
  | c :: cs => if m <+: c :: cs then some 0 else (search m cs).map (· + 1)

variable {m s t : List α} {p : Nat}

theorem search_of_start (h : m <+: s) : search m s = some 0 := by
  cases s with
  | nil => rw [search, if_pos h]
  | cons c cs => rw [search, if_pos h]

theorem search_cons_of_not_start {c : α} {cs : List α} (h : ¬ m <+: c :: cs) :
    search m (c :: cs) = (search m cs).map (· + 1) := by
  rw [search, if_neg h]

/-- It stands there, and nowhere before. -/
theorem search_eq_some_iff : search m s = some p ↔
    m <+: s.drop p ∧ p ≤ s.length ∧ ∀ q < p, ¬ m <+: s.drop q := by
  induction s generalizing p with
  | nil =>
    rw [search]
    split
    case isTrue h =>
      obtain rfl : m = [] := List.prefix_nil.mp h
      simp only [Option.some.injEq, List.drop_nil, List.nil_prefix, List.length_nil, Nat.le_zero,
        true_and]
      constructor
      · rintro rfl
        simp
      · exact fun ⟨hp, _⟩ => hp.symm
    case isFalse h => simp [List.prefix_nil.not.mp h]
  | cons c cs ih =>
    by_cases h : m <+: c :: cs
    · rw [search_of_start h, Option.some.injEq]
      constructor
      · rintro rfl
        exact ⟨h, Nat.zero_le _, fun q hq => absurd hq (Nat.not_lt_zero q)⟩
      · rintro ⟨-, -, hfirst⟩
        by_contra hne
        exact hfirst 0 (by omega) h
    · rw [search_cons_of_not_start h]
      cases p with
      | zero => simp [h]
      | succ p =>
        simp only [Option.map_eq_some_iff, Nat.add_right_cancel_iff, exists_eq_right, ih,
          List.drop_succ_cons, List.length_cons, Nat.add_le_add_iff_right]
        refine and_congr_right fun _ => and_congr_right fun _ =>
          ⟨fun hfirst q hq => ?_, fun hfirst q hq => ?_⟩
        · cases q with
          | zero => exact h
          | succ q => exact hfirst q (by omega)
        · exact hfirst (q + 1) (by omega)

theorem search_eq_none_iff : search m s = none ↔ ¬ m <:+: s := by
  induction s with
  | nil =>
    rw [search]
    simp [List.prefix_nil, List.infix_nil]
  | cons c cs ih =>
    rw [List.infix_cons_iff]
    by_cases h : m <+: c :: cs
    · simp [search_of_start h, h]
    · simp [search_cons_of_not_start h, h, ih]

theorem search_fits (h : search m s = some p) : p + m.length ≤ s.length := by
  obtain ⟨hhere, hp, -⟩ := search_eq_some_iff.mp h
  have hlen := hhere.length_le
  rw [List.length_drop] at hlen
  omega

/-- The list around its first occurrence. -/
theorem search_split (h : search m s = some p) : s = s.take p ++ (m ++ s.drop (p + m.length)) := by
  obtain ⟨rest, hrest⟩ := (search_eq_some_iff.mp h).1
  have hdrop := congrArg (List.drop m.length) hrest
  rw [List.drop_left, List.drop_drop] at hdrop
  rw [← hdrop, hrest, List.take_append_drop]

/-! ## §2 Pass -/

/-- Replace the occurrences, after so many elements that are skipped. -/
@[grind =] def onePass (m r : List α) : Nat → List α → List α
  | _, [] => []
  | skip + 1, _ :: cs => onePass m r skip cs
  | 0, c :: cs => if m <+: c :: cs then r ++ onePass m r (m.length - 1) cs
      else c :: onePass m r 0 cs

variable {r : List α}

theorem pass_skip (skip : Nat) (s : List α) : onePass m r skip s = onePass m r 0 (s.drop skip) := by
  induction s generalizing skip with
  | nil => simp [onePass]
  | cons c cs ih =>
    cases skip with
    | zero => rfl
    | succ skip => rw [onePass, ih, List.drop_succ_cons]

theorem pass_of_none (h : search m s = none) : onePass m r 0 s = s := by
  induction s with
  | nil => rfl
  | cons c cs ih =>
    have hno : ¬ m <+: c :: cs := fun hpre => by simp [search_of_start hpre] at h
    rw [search_cons_of_not_start hno, Option.map_eq_none_iff] at h
    rw [onePass, if_neg hno, ih h]

theorem pass_of_search (hm : m ≠ []) (h : search m s = some p) :
    onePass m r 0 s = s.take p ++ (r ++ onePass m r 0 (s.drop (p + m.length))) := by
  induction s generalizing p with
  | nil =>
    have hfits := search_fits h
    rw [List.length_nil] at hfits
    exact absurd (List.length_eq_zero_iff.mp (by omega)) hm
  | cons c cs ih =>
    by_cases hpre : m <+: c :: cs
    · obtain rfl : 0 = p := by simpa [search_of_start hpre] using h
      obtain ⟨n, hn⟩ : ∃ n, m.length = n + 1 := ⟨m.length - 1, by
        have hpos := List.length_pos_iff.mpr hm
        omega⟩
      rw [onePass, if_pos hpre, pass_skip, hn]
      simp
    · rw [search_cons_of_not_start hpre] at h
      obtain ⟨q, hq, rfl⟩ := Option.map_eq_some_iff.mp h
      rw [onePass, if_neg hpre, ih hq]
      simp [Nat.add_right_comm]

/-! ## §3 Cuts -/

/-- The list after its first `i` replacements: the part they are in, and the rest. -/
def cut (m r : List α) : Nat → List α → Option (List α × List α)
  | 0, s => some ([], s)
  | i + 1, s => (search m s).bind fun p =>
    (cut m r i (s.drop (p + m.length))).map fun q => (s.take p ++ (r ++ q.1), q.2)

theorem cut_succ {i : Nat} {x rest : List α} (h : search m s = some p)
    (hcut : cut m r i (s.drop (p + m.length)) = some (x, rest)) :
    cut m r (i + 1) s = some (s.take p ++ (r ++ x), rest) := by
  rw [cut, h, Option.bind_some, hcut, Option.map_some]

/-- The part before a cut is that of the pass. -/
theorem pass_cut (hm : m ≠ []) {i : Nat} {x rest : List α} (h : cut m r i s = some (x, rest)) :
    onePass m r 0 s = x ++ onePass m r 0 rest := by
  induction i generalizing s x with
  | zero =>
    cases h
    rfl
  | succ i ih =>
    obtain ⟨p, hp, hcut⟩ := Option.bind_eq_some_iff.mp h
    obtain ⟨⟨y, rest'⟩, hy, heq⟩ := Option.map_eq_some_iff.mp hcut
    cases heq
    rw [pass_of_search hm hp, ih hy, List.append_assoc, List.append_assoc]

omit [DecidableEq α] in
/-- A start of a concatenation lies in its first part, or is this part and a start of the other. -/
theorem prefix_append_cases (h : m <+: s ++ t) : m <+: s ∨ ∃ m', m = s ++ m' ∧ m' <+: t := by
  rcases List.prefix_or_prefix_of_prefix h (List.prefix_append s t) with hin | ⟨m', rfl⟩
  · exact .inl hin
  · exact .inr ⟨m', rfl, (List.prefix_append_right_inj s).mp h⟩

/-- The first occurrence, when none begins in the first part. -/
theorem search_after (h : ∀ q < s.length, ¬ m <+: (s ++ t).drop q) :
    search m (s ++ t) = (search m t).map (· + s.length) := by
  cases ht : search m t with
  | none =>
    refine search_eq_none_iff.mpr fun hin => ?_
    obtain ⟨a, b, hab⟩ := hin
    have hpre : m <+: (s ++ t).drop a.length := by
      rw [← hab, List.append_assoc, List.drop_left]
      exact List.prefix_append _ _
    rcases Nat.lt_or_ge a.length s.length with hlt | hge
    · exact h _ hlt hpre
    · rw [List.drop_append, List.drop_eq_nil_of_le hge, List.nil_append] at hpre
      exact search_eq_none_iff.mp ht (hpre.isInfix.trans (List.drop_suffix _ _).isInfix)
  | some p =>
    obtain ⟨hhere, hp, hfirst⟩ := search_eq_some_iff.mp ht
    rw [Option.map_some]
    refine search_eq_some_iff.mpr ⟨?_, by rw [List.length_append]; omega, fun q hq hpre => ?_⟩
    · rwa [List.drop_append, List.drop_eq_nil_of_le (by omega), List.nil_append, Nat.add_sub_cancel]
    · rcases Nat.lt_or_ge q s.length with hlt | hge
      · exact h q hlt hpre
      · rw [List.drop_append, List.drop_eq_nil_of_le hge, List.nil_append] at hpre
        exact hfirst _ (by omega) hpre

end Fol.Lib

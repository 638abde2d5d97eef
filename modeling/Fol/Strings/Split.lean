/-
Fol.Strings.Split — `split`, `split-lines`, and `join` of a separator and strings.

`split` returns a vector of Common Lisp. `join` takes the elements of a list, and of a collection
from `collection-seq`; the method of `collection-seq` for everything else answers NIL.
-/
import Fol.Strings.Replace

namespace Fol.Strings

open Lib

/-! ## §1 Model -/

/-- The loop of `split`; `rest` is the string from `start` on. -/
@[grind =] def splitLoop (pattern : Text) : Nat → Text → Option (List Text)
  | 0, _ => none
  | fuel + 1, rest =>
    match search pattern rest with
    | some pos =>
        (splitLoop pattern fuel (rest.drop (pos + pattern.length))).map (rest.take pos :: ·)
    | none => some [rest]

/-- `split` ends with these parts. -/
def Splits (s pattern : Text) (parts : List Text) : Prop :=
  ∃ n, ∀ fuel ≥ n, splitLoop pattern fuel s = some parts

/-- The loop of `split-lines`; `line` is the string from `start` to `i`. -/
@[grind =] def linesLoop (line : Text) : Text → List Text
  | [] => [line]
  | '\r' :: '\n' :: rest => line :: linesLoop [] rest
  | '\n' :: rest => line :: linesLoop [] rest
  | c :: rest => linesLoop (line ++ [c]) rest

def splitLines (s : Text) : List Text := linesLoop [] s

/-- The second argument of `join`: a list, a collection, or anything else. -/
inductive Joinable where
  | list (elements : List Text)
  | collection (collectionSeq : List Text)
  | vector (elements : List Text)

def Joinable.seq : Joinable → List Text
  | .list elements => elements
  | .collection collectionSeq => collectionSeq
  | .vector _ => []

/-- `str` of the first string and of the others, a separator in front of each. -/
def joined (separator : Text) : List Text → Text
  | [] => []
  | x :: xs => x ++ xs.flatMap (separator ++ ·)

/-- `join` of a string and strings. -/
def join (separator : Text) (arg : Joinable) : Text := joined separator arg.seq

/-! ## §2 Parts -/

variable {p s t : Text} {parts : List Text} {fuel pos : Nat}

theorem joined_cons_cons (x y : Text) (ys : List Text) :
    joined p (x :: y :: ys) = x ++ (p ++ joined p (y :: ys)) := by
  simp [joined]

theorem joined_cons {xs : List Text} (x : Text) (h : xs ≠ []) :
    joined p (x :: xs) = x ++ (p ++ joined p xs) := by
  cases xs with
  | nil => exact absurd rfl h
  | cons y ys => exact joined_cons_cons x y ys

theorem splitLoop_ne_nil (h : splitLoop p fuel s = some parts) : parts ≠ [] := by
  cases fuel with
  | zero => cases h
  | succ fuel =>
    rw [splitLoop] at h
    split at h
    · obtain ⟨_, -, rfl⟩ := Option.map_eq_some_iff.mp h
      simp
    · cases h
      simp

/-- The parts and the separators between them tile the string. -/
theorem joined_splitLoop (h : splitLoop p fuel s = some parts) : joined p parts = s := by
  induction fuel generalizing s parts with
  | zero => cases h
  | succ fuel ih =>
    rw [splitLoop] at h
    split at h
    · next hpos =>
      obtain ⟨rest, hrest, rfl⟩ := Option.map_eq_some_iff.mp h
      rw [joined_cons _ (splitLoop_ne_nil hrest), ih hrest]
      exact (search_split hpos).symm
    · cases h
      simp [joined]

/-- A part ends where the pattern is found first. -/
theorem not_infix_of_splitLoop (hp : p ≠ []) (h : splitLoop p fuel s = some parts) :
    ∀ x ∈ parts, ¬ p <:+: x := by
  induction fuel generalizing s parts with
  | zero => cases h
  | succ fuel ih =>
    rw [splitLoop] at h
    split at h
    · next pos hpos =>
      obtain ⟨rest, hrest, rfl⟩ := Option.map_eq_some_iff.mp h
      intro x hx hin
      rcases List.mem_cons.mp hx with rfl | hx
      · have hlen := hin.length_le
        obtain ⟨a, b, hab⟩ := hin
        have hlt : a.length < pos := by
          have := congrArg List.length hab
          have := List.length_pos_iff.mpr hp
          simp only [List.length_append, List.length_take] at *
          omega
        refine (search_eq_some_iff.mp hpos).2.2 _ hlt ?_
        rw [← List.take_append_drop pos s, ← hab, List.append_assoc, List.append_assoc,
          List.drop_left]
        exact List.prefix_append _ _
      · exact ih hrest x hx hin
    · next hnone =>
      cases h
      intro x hx
      rw [List.mem_singleton.mp hx]
      exact search_eq_none_iff.mp hnone

/-- Every match takes the pattern off the string. -/
theorem splitLoop_isSome (hp : p ≠ []) (h : s.length < fuel) :
    ∃ parts, splitLoop p fuel s = some parts := by
  induction fuel generalizing s with
  | zero => cases h
  | succ fuel ih =>
    rw [splitLoop]
    split
    · next pos hpos =>
      have hfits := search_fits hpos
      have hlen := List.length_pos_iff.mpr hp
      obtain ⟨rest, hrest⟩ := ih (s := s.drop (pos + p.length)) (by rw [List.length_drop]; omega)
      exact ⟨_, congrArg (Option.map _) hrest⟩
    · exact ⟨_, rfl⟩

theorem splitLoop_nil (fuel : Nat) (s : Text) : splitLoop [] fuel s = none := by
  induction fuel generalizing s with
  | zero => rfl
  | succ fuel ih => simp [splitLoop, search_of_start, ih]

/-! ## §3 Separators -/

/-- In the joined string the pattern stands only where it was put between two parts. -/
def OnlySeparators (p : Text) (parts : List Text) : Prop :=
  ∀ q, p <+: (joined p parts).drop q →
    ∃ before after, before ≠ [] ∧ after ≠ [] ∧ parts = before ++ after ∧
    q = (joined p before).length

theorem length_joined_cons_ge (x : Text) (xs : List Text) :
    x.length ≤ (joined p (x :: xs)).length := by
  simp [joined]

/-- Splitting undoes joining. -/
theorem splitLoop_joined (hp : p ≠ []) (hne : parts ≠ []) (h : OnlySeparators p parts)
    (hfuel : (joined p parts).length < fuel) : splitLoop p fuel (joined p parts) = some parts := by
  induction parts generalizing fuel with
  | nil => exact absurd rfl hne
  | cons x xs ih =>
    cases fuel with
    | zero => cases hfuel
    | succ fuel =>
      cases xs with
      | nil =>
        have hnone : search p (joined p [x]) = none := by
          refine search_eq_none_iff.mpr ?_
          rintro ⟨a, b, hab⟩
          obtain ⟨before, after, hb, ha, hsplit, -⟩ := h a.length (by
            rw [← hab, List.append_assoc, List.drop_left]
            exact List.prefix_append _ _)
          have := congrArg List.length hsplit
          have := List.length_pos_iff.mpr hb
          have := List.length_pos_iff.mpr ha
          simp only [List.length_append, List.length_singleton] at *
          omega
        rw [splitLoop, hnone]
        simp [joined]
      | cons y ys =>
        rw [joined_cons_cons] at hfuel ⊢
        have hfirst : search p (x ++ (p ++ joined p (y :: ys))) = some x.length := by
          refine search_eq_some_iff.mpr ⟨by simp, by simp, fun q hq hpre => ?_⟩
          obtain ⟨before, after, hb, -, hsplit, rfl⟩ := h q (by rwa [joined_cons_cons])
          cases before with
          | nil => exact hb rfl
          | cons z zs =>
            obtain ⟨rfl, -⟩ := List.cons.inj hsplit
            have := length_joined_cons_ge (p := p) x zs
            omega
        have hrest : OnlySeparators p (y :: ys) := by
          intro q hpre
          have hlen := List.length_pos_iff.mpr hp
          obtain ⟨before, after, hb, ha, hsplit, hq⟩ := h (x.length + (p.length + q)) (by
            rw [joined_cons_cons, ← List.drop_drop, List.drop_left, ← List.drop_drop,
              List.drop_left]
            exact hpre)
          cases before with
          | nil => exact absurd rfl hb
          | cons z zs =>
            obtain ⟨rfl, htail⟩ := List.cons.inj hsplit
            cases zs with
            | nil =>
              simp only [joined, List.flatMap_nil, List.append_nil] at hq
              omega
            | cons u us =>
              refine ⟨u :: us, after, by simp, ha, htail, ?_⟩
              rw [joined_cons_cons, List.length_append, List.length_append] at hq
              omega
        have hlen := List.length_pos_iff.mpr hp
        rw [List.length_append, List.length_append] at hfuel
        rw [splitLoop, hfirst]
        simp only [← List.drop_drop, List.drop_left, List.take_left]
        rw [ih (by simp) hrest (by omega)]
        rfl

/-! ## §4 Lines -/

theorem onlySeparators_of_not_mem {c : Char} (h : ∀ x ∈ parts, c ∉ x) :
    OnlySeparators [c] parts := by
  induction parts with
  | nil =>
    intro q hpre
    simp [joined] at hpre
  | cons x xs ih =>
    have hin : ∀ {q}, [c] <+: x.drop q → False := fun hpre =>
      h x List.mem_cons_self (List.mem_of_mem_drop (hpre.subset List.mem_cons_self))
    intro q hpre
    cases xs with
    | nil =>
      simp only [joined, List.flatMap_nil, List.append_nil] at hpre
      exact (hin hpre).elim
    | cons y ys =>
      rw [joined_cons_cons] at hpre
      rcases Nat.lt_trichotomy q x.length with hlt | rfl | hgt
      · rw [List.drop_append_of_le_length hlt.le] at hpre
        have hdrop : x.drop q ≠ [] := by simpa using hlt
        exact (hin (List.prefix_of_prefix_length_le hpre (List.prefix_append _ _)
          (List.length_pos_iff.mpr hdrop))).elim
      · exact ⟨[x], y :: ys, by simp, by simp, rfl, by simp [joined]⟩
      · obtain ⟨k, rfl⟩ := Nat.exists_eq_add_of_lt hgt
        have hdrop :
        (x ++ ([c] ++ joined [c] (y :: ys))).drop (x.length + k + 1) =
        (joined [c] (y :: ys)).drop k := by
          rw [Nat.add_assoc, ← List.drop_drop, List.drop_left]
          rfl
        rw [hdrop] at hpre
        obtain ⟨before, after, hb, ha, hsplit, rfl⟩ :=
          ih (fun z hz => h z (List.mem_cons_of_mem _ hz)) k hpre
        refine ⟨x :: before, after, by simp, ha, by simp [hsplit], ?_⟩
        rw [joined_cons x hb]
        simp [Nat.add_comm, Nat.add_left_comm]

/-- The string with a line feed in the place of every pair. -/
def lineFeeds (s : Text) : Text := onePass ['\r', '\n'] ['\n'] 0 s

theorem linesLoop_ne_nil (line s : Text) : linesLoop line s ≠ [] := by
  fun_induction linesLoop line s with
  | case4 line c rest _ _ ih => exact ih
  | _ => simp

theorem joined_linesLoop (line s : Text) :
    joined ['\n'] (linesLoop line s) = line ++ lineFeeds s := by
  fun_induction linesLoop line s with
  | case1 line => simp [joined, lineFeeds, onePass]
  | case2 line rest ih =>
    rw [joined_cons _ (linesLoop_ne_nil _ _), ih]
    simp [lineFeeds, onePass]
  | case3 line rest ih =>
    rw [joined_cons _ (linesLoop_ne_nil _ _), ih]
    simp [lineFeeds, onePass]
  | case4 line c rest hpair hfeed ih =>
    have hno : ¬ ['\r', '\n'] <+: c :: rest := by
      rintro ⟨t, ht⟩
      obtain ⟨rfl, rfl⟩ := List.cons.inj ht
      exact hpair t rfl rfl
    rw [ih, lineFeeds, lineFeeds, onePass, if_neg hno]
    simp

theorem not_mem_linesLoop {line s : Text} (hline : '\n' ∉ line) :
    ∀ x ∈ linesLoop line s, '\n' ∉ x := by
  fun_induction linesLoop line s with
  | case1 line => simpa using hline
  | case2 line rest ih => simpa using ⟨hline, ih (by simp)⟩
  | case3 line rest ih => simpa using ⟨hline, ih (by simp)⟩
  | case4 line c rest hpair hfeed ih =>
      exact ih (by simpa [hline] using fun h : '\n' = c => hfeed h.symm)

theorem splitLines_eq (s : Text) : Splits (lineFeeds s) ['\n'] (splitLines s) := by
  have hjoined := joined_linesLoop [] s
  rw [List.nil_append] at hjoined
  refine ⟨(lineFeeds s).length + 1, fun fuel hfuel => ?_⟩
  rw [← hjoined] at hfuel ⊢
  exact splitLoop_joined (by simp) (linesLoop_ne_nil _ _)
    (onlySeparators_of_not_mem (not_mem_linesLoop (by simp))) hfuel

/-! ## §5 Laws -/

theorem splitLoop_succ (h : splitLoop p fuel s = some parts) :
    splitLoop p (fuel + 1) s = some parts := by
  induction fuel generalizing s parts with
  | zero => cases h
  | succ fuel ih =>
    rw [splitLoop] at h ⊢
    split at h
    · obtain ⟨rest, hrest, rfl⟩ := Option.map_eq_some_iff.mp h
      rw [ih hrest]
      rfl
    · exact h

theorem splits_of_splitLoop (h : splitLoop p fuel s = some parts) : Splits s p parts :=
  ⟨fuel, fun _ hle => Nat.le_induction h (fun _ _ => splitLoop_succ) _ hle⟩

theorem Splits.splitLoop (h : Splits s p parts) : ∃ fuel, splitLoop p fuel s = some parts :=
  h.imp fun n hn => hn n le_rfl

/-- The laws of `split` at a string and a pattern; `arg` makes an argument of `join` from the
parts. -/
structure Laws (arg : List Text → Joinable) (s p : Text) : Prop where
  terminates : ∃ parts, Splits s p parts
  joins : p ≠ [] → ∀ parts, Splits s p parts → join p (arg parts) = s ∧ ∀ x ∈ parts, ¬ p <:+: x
  splits : p ≠ [] → ∀ parts ≠ [], OnlySeparators p parts → join p (.list parts) = s →
    Splits s p parts
  lines : Splits (lineFeeds s) ['\n'] (splitLines s)

theorem Laws.pattern_ne_nil {arg : List Text → Joinable} (h : Laws arg s p) : p ≠ [] := by
  rintro rfl
  obtain ⟨parts, hparts⟩ := h.terminates
  obtain ⟨fuel, hfuel⟩ := hparts.splitLoop
  rw [splitLoop_nil] at hfuel
  cases hfuel

theorem exists_splits (hp : p ≠ []) (s : Text) : ∃ parts, Splits s p parts :=
  (splitLoop_isSome hp (Nat.lt_succ_self s.length)).imp fun _ => splits_of_splitLoop

/-- Only the argument of `join` is open. -/
theorem laws_of_join {arg : List Text → Joinable} (hp : p ≠ [])
    (h : ∀ parts, Splits s p parts → join p (arg parts) = s) :
    Laws arg s p where
  terminates := exists_splits hp s
  joins _ parts hparts := by
    obtain ⟨fuel, hfuel⟩ := hparts.splitLoop
    exact ⟨h parts hparts, not_infix_of_splitLoop hp hfuel⟩
  splits _ parts hne honly hjoin := by
    obtain rfl : joined p parts = s := hjoin
    exact splits_of_splitLoop (splitLoop_joined hp hne honly (Nat.lt_succ_self _))
  lines := splitLines_eq s

/-- With the vector that `split` returns the laws hold of the empty string alone, with the list of
its parts of every string; and with the empty pattern of none. -/
theorem laws_iff (s p : Text) :
    (Laws .vector s p ↔ p ≠ [] ∧ s = []) ∧ (Laws .list s p ↔ p ≠ []) := by
  refine ⟨⟨fun h => ⟨h.pattern_ne_nil, ?_⟩, ?_⟩, Laws.pattern_ne_nil,
    fun hp => laws_of_join hp fun parts hparts => ?_⟩
  · obtain ⟨parts, hparts⟩ := h.terminates
    exact (h.joins h.pattern_ne_nil parts hparts).1.symm
  · rintro ⟨hp, rfl⟩
    exact laws_of_join hp fun _ _ => rfl
  · obtain ⟨fuel, hfuel⟩ := hparts.splitLoop
    exact joined_splitLoop hfuel

/-- `(join "," (split "a,b" ","))` is the empty string. -/
theorem laws_fails : ¬ Laws .vector ['a', ',', 'b'] [','] := by
  intro h
  have hsplits : Splits ['a', ',', 'b'] [','] [['a'], ['b']] :=
    splits_of_splitLoop (show splitLoop [','] 2 ['a', ',', 'b'] = some [['a'], ['b']] by decide)
  cases (h.joins (by simp) _ hsplits).1

end Fol.Strings

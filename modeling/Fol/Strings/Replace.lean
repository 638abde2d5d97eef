/-
Fol.Strings.Replace — `replace` on strings and `str-replace`.

Both replace the first occurrence of the match and search again, from the start of the rewritten
string, until there is nothing to replace. Text that was put in is searched too, and so is what
it makes with the text around it.
-/
import Fol.Lib.Occurrences

namespace Fol.Strings

open Lib

/-! ## §1 Model -/

/-- A string, as the vector of characters it is. -/
abbrev Text := List Char

/-- The second argument; a scanner is anything else that `cl-ppcre` takes for a regex. -/
inductive Match (ρ : Type) where
  | character (c : Char)
  | string (m : Text)
  | scanner (x : ρ)

/-- The `loop`, with `result` as its variable. -/
@[grind =] def replaceLoop (m replacement : Text) : Nat → Text → Option Text
  | 0, _ => none
  | fuel + 1, result =>
    match search m result with
    | some pos =>
        replaceLoop m replacement fuel
        (result.take pos ++ replacement ++ result.drop (pos + m.length))
    | none => some result

/-- The character form: `write-string` for the character, `write-char` for any other. -/
def replaceCharacter (c : Char) (replacement s : Text) : Text :=
  s.flatMap fun c' => if c' = c then replacement else [c']

section Functions

variable {ρ : Type} (regexReplaceAll : Match ρ → Text → Text → Text)

def invalidArguments : String :=
  "Invalid arguments to replace: ~S. Expected (dict ordered-coll) or (string match replacement &key use-regex)."

/-- `(replace s match replacement :use-regex useRegex)` on a string `s`. -/
def replace (fuel : Nat) (s : Text) (mtch : Match ρ) (replacement : Text) (useRegex : Bool) :
    Option (Except String Text) :=
  match mtch with
  | .character c =>
    some (.ok (if useRegex then regexReplaceAll (.string [c]) s replacement
      else replaceCharacter c replacement s))
  | .string m =>
    if useRegex then some (.ok (regexReplaceAll (.string m) s replacement))
    else (replaceLoop m replacement fuel s).map .ok
  | .scanner _ => some (.error invalidArguments)

/-- `(str-replace s match replacement)`. -/
def strReplace (fuel : Nat) (s : Text) (mtch : Match ρ) (replacement : Text) : Option Text :=
  match mtch with
  | .string m => replaceLoop m replacement fuel s
  | .character c => some (regexReplaceAll (.character c) s replacement)
  | .scanner x => some (regexReplaceAll (.scanner x) s replacement)

end Functions

/-! ## §2 Results -/

variable {m r s t : Text} {fuel pos : Nat}

theorem replaceLoop_of_none (h : search m s = none) : replaceLoop m r (fuel + 1) s = some s := by
  rw [replaceLoop, h]

theorem replaceLoop_of_search (h : search m s = some pos) :
    replaceLoop m r (fuel + 1) s =
    replaceLoop m r fuel (s.take pos ++ r ++ s.drop (pos + m.length)) := by
  rw [replaceLoop, h]

/-- It stops only where it finds nothing. -/
theorem not_infix_of_replaceLoop (h : replaceLoop m r fuel s = some t) : ¬ m <:+: t := by
  induction fuel generalizing s with
  | zero => simp [replaceLoop] at h
  | succ fuel ih =>
    cases hs : search m s with
    | some pos =>
      rw [replaceLoop_of_search hs] at h
      exact ih h
    | none =>
      rw [replaceLoop_of_none hs, Option.some.injEq] at h
      rw [← h]
      exact search_eq_none_iff.mp hs

/-- With the match inside the replacement there is always one more to replace. -/
theorem replaceLoop_never (hr : m <:+: r) (hs : m <:+: s) : replaceLoop m r fuel s = none := by
  induction fuel generalizing s with
  | zero => rfl
  | succ fuel ih =>
    cases hpos : search m s with
    | some pos =>
      rw [replaceLoop_of_search hpos]
      refine ih (hr.trans ?_)
      exact (List.suffix_append _ _).isInfix.trans (List.prefix_append _ _).isInfix
    | none => exact absurd hs (search_eq_none_iff.mp hpos)

/-- The character form is the pass. -/
theorem replaceCharacter_eq_pass (c : Char) (r s : Text) :
    replaceCharacter c r s = onePass [c] r 0 s := by
  induction s with
  | nil => rfl
  | cons c' cs ih =>
    rw [replaceCharacter] at ih ⊢
    rw [List.flatMap_cons, ih, onePass]
    by_cases h : c = c'
    · simp [h, List.prefix_cons_iff]
    · rw [if_neg (Ne.symm h), if_neg (by simpa [List.prefix_cons_iff] using h)]
      rfl

/-! ## §3 Undisturbed -/

/-- After each replacement of the pass, no occurrence begins in the text that has been rewritten. -/
def Undisturbed (m r s : Text) : Prop :=
  ∀ i x rest, cut m r i s = some (x, rest) → ∀ j < x.length, ¬ m <+: (x ++ rest).drop j

/-- No proper part at the start of the match is at its end too. -/
def Unbordered (m : Text) : Prop := ∀ i < m.length, 0 < i → ¬ m.take i <:+ m

instance (m : Text) : Decidable (Unbordered m) := by
  unfold Unbordered
  exact inferInstance

/-- After rewritten text in which no occurrence begins, the loop does with the rest what the pass
does. -/
theorem replaceLoop_eq_pass (hm : m ≠ []) {x : Text}
    (h : ∀ i y rest, cut m r i s = some (y, rest) → ∀ j < (x ++ y).length,
      ¬ m <+: (x ++ y ++ rest).drop j) :
    ∃ fuel, replaceLoop m r fuel (x ++ s) = some (x ++ onePass m r 0 s) := by
  induction hn : s.length using Nat.strong_induction_on generalizing s x with
  | h n ih =>
    have hsearch : search m (x ++ s) = (search m s).map (· + x.length) :=
      search_after (by simpa using h 0 [] s rfl)
    cases hs : search m s with
    | none =>
      refine ⟨1, ?_⟩
      rw [replaceLoop_of_none (by rw [hsearch, hs]; rfl), pass_of_none hs]
    | some p =>
      have hfits := search_fits hs
      have hpos := List.length_pos_iff.mpr hm
      obtain ⟨fuel, hfuel⟩ := ih (s.drop (p + m.length)).length (by rw [List.length_drop]; omega)
        (s := s.drop (p + m.length)) (x := x ++ (s.take p ++ r)) (fun i y rest hcut => by
          simpa using h (i + 1) _ rest (cut_succ hs hcut)) rfl
      refine ⟨fuel + 1, ?_⟩
      have hfound : search m (x ++ s) = some (p + x.length) := by rw [hsearch, hs]; rfl
      rw [replaceLoop_of_search hfound, pass_of_search hm hs]
      have htake : (x ++ s).take (p + x.length) = x ++ s.take p := by
        rw [Nat.add_comm, List.take_append]
        simp
      have hdrop : (x ++ s).drop (p + x.length + m.length) = s.drop (p + m.length) := by
        rw [List.drop_append, List.drop_eq_nil_of_le (by omega), List.nil_append]
        congr 1
        omega
      rw [htake, hdrop]
      simpa only [List.append_assoc] using hfuel

/-- An occurrence that begins in rewritten text is in the result of the pass, unless it ends in the
next occurrence of the string, and then the match has a border. -/
theorem Unbordered.undisturbed (hb : Unbordered m) (hm : m ≠ []) (h : ¬ m <:+: onePass m r 0 s) :
    Undisturbed m r s := by
  intro i x rest hcut j hj hpre
  rw [pass_cut hm hcut] at h
  have hinside : ∀ y z, onePass m r 0 rest = y ++ z → ¬ m <+: x.drop j ++ y := by
    intro y z hyz hin
    refine h (hin.isInfix.trans ?_)
    rw [hyz, ← List.append_assoc, ← List.drop_append_of_le_length hj.le]
    exact ((List.drop_suffix j (x ++ y)).isInfix).trans (List.prefix_append _ _).isInfix
  rw [List.drop_append_of_le_length hj.le] at hpre
  cases hs : search m rest with
  | none => exact hinside rest [] (by rw [pass_of_none hs, List.append_nil]) hpre
  | some p =>
    have hbefore := hinside _ _ (pass_of_search hm hs)
    rw [search_split hs, ← List.append_assoc] at hpre
    obtain hin | ⟨m', hm', hover⟩ := prefix_append_cases hpre
    · exact hbefore hin
    -- the match ends in `m'`, where the next occurrence begins
    have hlt : m'.length < m.length := by
      rw [hm', List.length_append, List.length_append, List.length_drop]
      omega
    have hne : m' ≠ [] := by
      rintro rfl
      rw [List.append_nil] at hm'
      exact hbefore ⟨[], by rw [List.append_nil, ← hm']⟩
    have htake : m.take m'.length = m' :=
      (List.prefix_iff_eq_take.mp
        (List.prefix_of_prefix_length_le hover (List.prefix_append _ _) hlt.le)).symm
    refine hb m'.length hlt (List.length_pos_iff.mpr hne) ?_
    rw [htake]
    exact ⟨_, hm'.symm⟩

/-! ## §4 Pass -/

section Pass

variable {ρ : Type} (regexReplaceAll : Match ρ → Text → Text → Text)

/-- Both functions return the pass, and the character form returns what `replace` returns. -/
def Replaces (m r s : Text) : Prop :=
  (∃ fuel, replace regexReplaceAll fuel s (.string m) r false = some (.ok (onePass m r 0 s))) ∧
    (∃ fuel, strReplace regexReplaceAll fuel s (.string m) r = some (onePass m r 0 s)) ∧
    ∀ c, m = [c] → ∃ fuel, replace regexReplaceAll fuel s (.string m) r false =
      replace regexReplaceAll fuel s (.character c) r false

variable {regexReplaceAll}

theorem replaces_iff :
    Replaces regexReplaceAll m r s ↔ ∃ fuel, replaceLoop m r fuel s = some (onePass m r 0 s) := by
  constructor
  · exact fun h => h.2.1
  · rintro ⟨fuel, h⟩
    refine ⟨⟨fuel, by simp [replace, h]⟩, ⟨fuel, h⟩, ?_⟩
    rintro c rfl
    exact ⟨fuel, by simp [replace, h, replaceCharacter_eq_pass]⟩

/-- What both return has no occurrence. -/
theorem Replaces.no_occurrence (h : Replaces regexReplaceAll m r s) : ¬ m <:+: onePass m r 0 s := by
  obtain ⟨fuel, hfuel⟩ := replaces_iff.mp h
  exact not_infix_of_replaceLoop hfuel

theorem Undisturbed.replaces (hm : m ≠ []) (h : Undisturbed m r s) :
    Replaces regexReplaceAll m r s :=
  replaces_iff.mpr (replaceLoop_eq_pass (x := []) hm h)

/-- A string is replaced in one pass if no occurrence ever begins in rewritten text, and only if the
result has none; for a match without a border, exactly then. -/
theorem replace_pass_iff (hm : m ≠ []) :
    (Undisturbed m r s → Replaces regexReplaceAll m r s) ∧
      (Replaces regexReplaceAll m r s → ¬ m <:+: onePass m r 0 s) ∧
      (Unbordered m → (Replaces regexReplaceAll m r s ↔ Undisturbed m r s)) := by
  refine ⟨Undisturbed.replaces hm, Replaces.no_occurrence,
    fun hb => ⟨fun h => ?_, Undisturbed.replaces hm⟩⟩
  exact hb.undisturbed hm h.no_occurrence

/-- `(replace "hello world" "world" "")` is `"hello "`. -/
theorem replace_pass_world :
    Replaces (fun _ s _ => s : Match Unit → Text → Text → Text) "world".toList []
    "hello world".toList :=
  (replace_pass_iff (by decide)).1 (Unbordered.undisturbed (by decide) (by decide) (by decide))

/-- `(replace "a" "a" "aa")` does not return. -/
theorem not_replaces_doubled :
    ¬ Replaces (fun _ s _ => s : Match Unit → Text → Text → Text) ['a'] ['a', 'a'] ['a'] := by
  intro h
  obtain ⟨fuel, hfuel⟩ := replaces_iff.mp h
  have hnever : replaceLoop ['a'] ['a', 'a'] fuel ['a'] = none :=
    replaceLoop_never (List.prefix_append ['a'] ['a']).isInfix (List.infix_refl ['a'])
  rw [hnever] at hfuel
  cases hfuel

end Pass

end Fol.Strings

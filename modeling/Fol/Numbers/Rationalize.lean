/-
Fol.Numbers.Rationalize — `scheme-rationalize` of arithmetic-functions.lisp.

`simplest` walks down the continued fractions of the two ends of an interval. Before it is called an
interval that has an integer is answered with the floor of its upper end, which is the largest
integer in it.
-/
import Mathlib.Data.Rat.Floor

namespace Fol.Numbers

/-! ## §1 Search -/

/-- `(/ 1 x)`. -/
def reciprocal (x : ℚ) : Option ℚ := if x = 0 then none else some x⁻¹

/-- `simplest`; `none` is an error, or the fuel is used up. -/
def simplest : Nat → ℚ → ℚ → Option ℚ
  | 0, _, _ => none
  | fuel + 1, x, y =>
    let fx := ⌊x⌋
    let fy := ⌊y⌋
    if fx ≥ x then some fx
    else if fx = fy then do
      let lower ← reciprocal (y - fy)
      let upper ← reciprocal (x - fx)
      let r ← simplest fuel lower upper
      return fx + (← reciprocal r)
    else some (fx + 1)

/-- `scheme-rationalize`. -/
def schemeRationalize : Nat → ℚ → ℚ → Option ℚ
  | 0, _, _ => none
  | fuel + 1, x, e =>
    let e := |e|
    let lower := x - e
    let upper := x + e
    if x < 0 then (schemeRationalize fuel (-x) e).map (-·)
    else if lower ≤ 0 ∧ 0 ≤ upper then some 0
    else if upper ≥ ⌊upper⌋ ∧ (⌊upper⌋ : ℚ) ≥ lower then some ⌊upper⌋
    else simplest fuel lower upper

/-- With enough fuel the answer is `r`. -/
def Gives (x e r : ℚ) : Prop := ∃ n, ∀ fuel ≥ n, schemeRationalize fuel x e = some r

/-- No other rational in the interval has numerator and denominator as small. -/
structure Simplest (x e r : ℚ) : Prop where
  near : |x - r| ≤ |e|
  least : ∀ s : ℚ, |x - s| ≤ |e| → |s.num| ≤ |r.num| → s.den ≤ r.den → s = r

/-- The search ends in the simplest rational, and in its negation for `-x`. -/
def Rationalizes (x e : ℚ) : Prop := ∃ r, Gives x e r ∧ Simplest x e r ∧ Gives (-x) e (-r)

/-! ## §2 Reciprocals -/

theorem num_den_add_inv {n : ℤ} {t : ℚ} (ht : 0 < t) :
    (n + t⁻¹).num = n * t.num + t.den ∧ ((n + t⁻¹).den : ℤ) = t.num := by
  have hnum : 0 < t.num := Rat.num_pos.mpr ht
  have hcop : Nat.Coprime (n * t.num + t.den).natAbs t.num.natAbs := by
    have hgcd : Int.gcd (n * t.num + t.den) t.num = 1 := by
      rw [Int.gcd_mul_right_add_left, Int.gcd_comm]
      exact t.reduced
    exact hgcd
  have heq : (n : ℚ) + t⁻¹ = ((n * t.num + t.den : ℤ) : ℚ) / (t.num : ℤ) := by
    have hne : (t.num : ℚ) ≠ 0 := by exact_mod_cast hnum.ne'
    have hinv : t⁻¹ = (t.den : ℚ) / t.num := by rw [← inv_div, Rat.num_div_den]
    rw [hinv]
    push_cast
    rw [add_div, mul_div_cancel_right₀ _ hne]
  rw [heq]
  exact ⟨Rat.num_div_eq_of_coprime hnum hcop, Rat.den_div_eq_of_coprime hnum hcop⟩

/-- A rational above a natural number has a numerator above it. -/
theorem lt_num {n : ℤ} (hn : 0 ≤ n) {s : ℚ} (h : (n : ℚ) < s) : n < s.num := by
  have hden : (1 : ℤ) ≤ s.den := by exact_mod_cast s.pos
  have hlt : n * s.den < s.num := by
    rw [← Rat.num_div_den s, lt_div_iff₀ (by exact_mod_cast s.pos)] at h
    exact_mod_cast h
  exact lt_of_le_of_lt (le_mul_of_one_le_right hn hden) hlt

/-! ## §3 Minimality -/

theorem reciprocal_of_pos {x : ℚ} (h : 0 < x) : reciprocal x = some x⁻¹ := if_neg h.ne'

/-- The denominators of the ends get smaller with every reciprocal. -/
theorem den_inv_fract_lt {x : ℚ} {n : ℤ} (hlow : (n : ℚ) < x) (hhigh : x < n + 1) :
    ((x - n)⁻¹).den < x.den := by
  have hden := (num_den_add_inv (n := 0) (sub_pos.mpr hlow)).2
  have hlt : (x - n).num < (x - n).den := Rat.num_lt_denom_iff.mpr (by linarith)
  rw [Rat.sub_intCast_den] at hlt
  rw [Int.cast_zero, zero_add] at hden
  omega

/-- The answer is in the interval, and its numerator and denominator are the least in it. -/
theorem simplest_spec {fuel : Nat} {x y : ℚ} (hx : 0 < x) (hxy : x ≤ y)
    (hfuel : x.den + y.den < fuel) :
    ∃ r, simplest fuel x y = some r ∧ x ≤ r ∧ r ≤ y ∧ ∀ s, x ≤ s → s ≤ y → r.num ≤ s.num ∧
    r.den ≤ s.den := by
  induction fuel generalizing x y with
  | zero => omega
  | succ fuel ih =>
    have hfloor : (⌊x⌋ : ℚ) ≤ x := Int.floor_le x
    have hnonneg : 0 ≤ ⌊x⌋ := Int.floor_nonneg.mpr hx.le
    -- an integer that is the first one from `x` on
    have hinteger : ∀ m : ℤ, x ≤ m → (m : ℚ) < x + 1 → (m : ℚ) ≤ y →
        x ≤ m ∧ (m : ℚ) ≤ y ∧ ∀ s, x ≤ s → s ≤ y → (m : ℚ).num ≤ s.num ∧ (m : ℚ).den ≤ s.den := by
      intro m hm hlt hmy
      have hpos : 0 < m := by exact_mod_cast hx.trans_le hm
      refine ⟨hm, hmy, fun s hs _ => ⟨?_, s.pos⟩⟩
      have hbelow : ((m - 1 : ℤ) : ℚ) < s := by
        push_cast
        linarith
      have hnum := lt_num (by omega) hbelow
      rw [Rat.num_intCast]
      omega
    rw [simplest]
    split
    · next hint => exact ⟨_, rfl, hinteger _ hint (by linarith) (hfloor.trans hxy)⟩
    · next hint =>
      have hlow : (⌊x⌋ : ℚ) < x := not_le.mp hint
      have hhigh := Int.lt_floor_add_one x
      split
      · next hsame =>
        have hlowy : (⌊y⌋ : ℚ) < y := by
          rw [← hsame]
          exact hlow.trans_le hxy
        have hhighy := Int.lt_floor_add_one y
        have hdenx := den_inv_fract_lt hlow hhigh
        have hdeny := den_inv_fract_lt hlowy hhighy
        have hposx : 0 < x - ⌊x⌋ := sub_pos.mpr hlow
        have hposy : 0 < y - ⌊y⌋ := sub_pos.mpr hlowy
        have hle : (y - ⌊y⌋)⁻¹ ≤ (x - ⌊x⌋)⁻¹ := inv_anti₀ hposx (by rw [hsame]; linarith)
        obtain ⟨r, hr, hrlow, hrhigh, hleast⟩ := ih (inv_pos.mpr hposy) hle (by omega)
        have hrpos : 0 < r := (inv_pos.mpr hposy).trans_le hrlow
        rw [reciprocal_of_pos hposx, reciprocal_of_pos hposy]
        refine ⟨⌊x⌋ + r⁻¹, ?_, ?_, ?_, fun s hxs hsy => ?_⟩
        · simp only [Option.bind_eq_bind, Option.bind_some, hr, reciprocal_of_pos hrpos]
          rfl
        · have := inv_anti₀ hrpos hrhigh
          rw [inv_inv] at this
          linarith
        · have := inv_anti₀ (inv_pos.mpr hposy) hrlow
          rw [inv_inv, ← hsame] at this
          linarith
        · have hspos : 0 < s - ⌊x⌋ := by linarith
          obtain ⟨hnum, hden⟩ := hleast (s - ⌊x⌋)⁻¹ (inv_anti₀ hspos (by rw [← hsame]; linarith))
            (inv_anti₀ hposx (by linarith))
          obtain ⟨hrnum, hrden⟩ := num_den_add_inv (n := ⌊x⌋) hrpos
          obtain ⟨hsnum, hsden⟩ := num_den_add_inv (n := ⌊x⌋) (inv_pos.mpr hspos)
          rw [inv_inv, add_sub_cancel] at hsnum hsden
          constructor
          · rw [hrnum, hsnum]
            have := mul_le_mul_of_nonneg_left hnum hnonneg
            omega
          · omega
      · next hdiff =>
        have hlt : ⌊x⌋ < ⌊y⌋ := lt_of_le_of_ne (Int.floor_le_floor hxy) hdiff
        have hy : ((⌊x⌋ + 1 : ℤ) : ℚ) ≤ y := (Int.cast_le.mpr hlt).trans (Int.floor_le y)
        push_cast at hy
        have := hinteger (⌊x⌋ + 1) (by push_cast; exact hhigh.le) (by push_cast; linarith)
          (by push_cast; exact hy)
        push_cast at this
        exact ⟨_, rfl, this⟩

/-! ## §4 Result -/

theorem near_iff {x e s : ℚ} : |x - s| ≤ |e| ↔ x - |e| ≤ s ∧ s ≤ x + |e| := by
  rw [abs_le]
  constructor <;> rintro ⟨h₁, h₂⟩ <;> constructor <;> linarith

theorem Gives.unique {x e r r' : ℚ} (h : Gives x e r) (h' : Gives x e r') : r = r' := by
  obtain ⟨n, hn⟩ := h
  obtain ⟨n', hn'⟩ := h'
  exact Option.some.inj ((hn _ (Nat.le_max_left n n')).symm.trans (hn' _ (Nat.le_max_right n n')))

theorem schemeRationalize_abs (fuel : Nat) (x e : ℚ) :
    schemeRationalize fuel x |e| = schemeRationalize fuel x e := by
  cases fuel with
  | zero => rfl
  | succ fuel => simp [schemeRationalize]

theorem Gives.neg {x e r : ℚ} (hx : 0 < x) (h : Gives x e r) : Gives (-x) e (-r) := by
  obtain ⟨n, hn⟩ := h
  refine ⟨n + 1, fun fuel hfuel => ?_⟩
  cases fuel with
  | zero => omega
  | succ fuel =>
    rw [schemeRationalize, if_pos (neg_lt_zero.mpr hx), neg_neg, schemeRationalize_abs,
      hn fuel (by omega)]
    rfl

/-- An answer of the branches for numbers that are not negative. -/
theorem gives_succ {x e r : ℚ} (hx : 0 ≤ x) {n : Nat} (h : ∀ fuel ≥ n,
    (if x - |e| ≤ 0 ∧ 0 ≤ x + |e| then some 0
      else if x + |e| ≥ ⌊x + |e|⌋ ∧ (⌊x + |e|⌋ : ℚ) ≥ x - |e| then some (⌊x + |e|⌋ : ℚ)
      else simplest fuel (x - |e|) (x + |e|)) = some r) : Gives x e r := by
  refine ⟨n + 1, fun fuel hfuel => ?_⟩
  cases fuel with
  | zero => omega
  | succ fuel =>
    rw [schemeRationalize, if_neg (not_lt.mpr hx)]
    exact h fuel (by omega)

theorem Simplest.neg {x e r : ℚ} (h : Simplest x e r) : Simplest (-x) e (-r) := by
  have hneg : ∀ a b : ℚ, |-a - -b| = |a - b| := fun a b => by
    rw [← abs_neg, neg_sub_neg, neg_sub, abs_sub_comm]
  refine ⟨(hneg x r).trans_le h.near, fun s hs hnum hden => ?_⟩
  rw [← h.least (-s) (by rwa [← hneg, neg_neg]) (by simpa using hnum) hden, neg_neg]

/-- The search from a number that is not negative. -/
theorem gives_of_nonneg {x e : ℚ} (hx : 0 ≤ x) : ∃ r, Gives x e r ∧ Gives (-x) e (-r) ∧
    (Simplest x e r ↔ |x| ≤ |e| ∨ ⌊|x| + |e|⌋ ≤ ⌈|x| - |e|⌉) := by
  have he := abs_nonneg e
  rw [abs_of_nonneg hx]
  by_cases hzero : x ≤ |e|
  · have hgives : Gives x e 0 :=
      gives_succ hx (n := 0) fun _ _ => if_pos ⟨sub_nonpos.mpr hzero, add_nonneg hx he⟩
    refine ⟨0, hgives, ?_, iff_of_true ⟨near_iff.mpr ⟨by linarith, by linarith⟩, ?_⟩ (.inl hzero)⟩
    · rcases hx.eq_or_lt with rfl | hpos
      · simpa using hgives
      · exact hgives.neg hpos
    · intro s _ hnum _
      exact Rat.num_eq_zero.mp (abs_nonpos_iff.mp hnum)
  have hpos : 0 < x := he.trans_lt (not_le.mp hzero)
  have hlower : 0 < x - |e| := sub_pos.mpr (not_le.mp hzero)
  have hne : ¬ (x - |e| ≤ 0 ∧ 0 ≤ x + |e|) := fun h => hlower.not_ge h.1
  have hfloor := Int.floor_le (x + |e|)
  by_cases hint : x - |e| ≤ ⌊x + |e|⌋
  · have hgives : Gives x e ⌊x + |e|⌋ := by
      refine gives_succ hx (n := 0) fun fuel _ => ?_
      rw [if_neg hne, if_pos ⟨hfloor, hint⟩]
    refine ⟨_, hgives, hgives.neg hpos, ?_⟩
    have hceil : ⌈x - |e|⌉ ≤ ⌊x + |e|⌋ := Int.ceil_le.mpr hint
    have hone : 0 < ⌈x - |e|⌉ := Int.ceil_pos.mpr hlower
    constructor
    · intro h
      -- the first integer of the interval is as simple
      have hfirst :=
        h.least (⌈x - |e|⌉ : ℤ) (near_iff.mpr ⟨Int.le_ceil _, (Int.cast_le.mpr hceil).trans hfloor⟩)
        (by simpa [abs_of_pos hone, abs_of_pos (hone.trans_le hceil)] using hceil) le_rfl
      exact .inr (Int.cast_inj.mp hfirst).ge
    · intro h
      have hsame : ⌊x + |e|⌋ = ⌈x - |e|⌉ := le_antisymm (h.resolve_left hzero) hceil
      refine ⟨near_iff.mpr ⟨hint, hfloor⟩, fun s hs hnum hden => ?_⟩
      obtain ⟨hlow, -⟩ := near_iff.mp hs
      have hinteger : (s.num : ℚ) = s := (Rat.den_eq_one_iff s).mp (le_antisymm hden s.pos)
      rw [← hinteger] at hlow ⊢
      have hsnum : ⌈x - |e|⌉ ≤ s.num := Int.ceil_le.mpr hlow
      rw [Rat.num_intCast, hsame, abs_of_pos (hone.trans_le hsnum), abs_of_pos hone] at hnum
      rw [hsame, le_antisymm hnum hsnum]
  · have hnone : ⌊x + |e|⌋ ≤ ⌈x - |e|⌉ := by
      exact_mod_cast ((not_le.mp hint).trans_le (Int.le_ceil _)).le
    have hle : x - |e| ≤ x + |e| := by linarith
    obtain ⟨r, -, hlow, hhigh, hleast⟩ := simplest_spec hlower hle (Nat.lt_succ_self _)
    have hgives : Gives x e r := by
      refine gives_succ hx (n := (x - |e|).den + (x + |e|).den + 1) fun fuel hfuel => ?_
      rw [if_neg hne, if_neg fun h => hint h.2]
      obtain ⟨r', hr', hlow', hhigh', hleast'⟩ := simplest_spec hlower hle (by omega : _ < fuel)
      have hnum := le_antisymm (hleast r' hlow' hhigh').1 (hleast' r hlow hhigh).1
      have hden := le_antisymm (hleast r' hlow' hhigh').2 (hleast' r hlow hhigh).2
      rw [hr', Rat.ext hnum hden]
    refine ⟨r, hgives, hgives.neg hpos,
      iff_of_true ⟨near_iff.mpr ⟨hlow, hhigh⟩, fun s hs hnum hden => ?_⟩ (.inr hnone)⟩
    obtain ⟨hslow, hshigh⟩ := near_iff.mp hs
    have hspos : 0 < s.num := Rat.num_pos.mpr (hlower.trans_le hslow)
    have hrpos : 0 < r.num := Rat.num_pos.mpr (hlower.trans_le hlow)
    obtain ⟨hrnum, hrden⟩ := hleast s hslow hshigh
    rw [abs_of_pos hspos, abs_of_pos hrpos] at hnum
    exact Rat.ext (le_antisymm hnum hrnum) (le_antisymm hden hrden)

/-- The rational is the simplest one when zero is in the interval or the interval has no two
integers, and only then. -/
theorem rationalizes_iff (x e : ℚ) : Rationalizes x e ↔ |x| ≤ |e| ∨ ⌊|x| + |e|⌋ ≤ ⌈|x| - |e|⌉ := by
  obtain ⟨r, hr, hneg, hiff⟩ : ∃ r, Gives x e r ∧ Gives (-x) e (-r) ∧
      (Simplest x e r ↔ |x| ≤ |e| ∨ ⌊|x| + |e|⌋ ≤ ⌈|x| - |e|⌉) := by
    rcases le_or_gt 0 x with hx | hx
    · exact gives_of_nonneg hx
    · obtain ⟨r, hr, hneg, hiff⟩ := gives_of_nonneg (e := e) (neg_nonneg.mpr hx.le)
      rw [abs_neg] at hiff
      rw [neg_neg] at hneg
      refine ⟨-r, hneg, by rwa [neg_neg], .trans ⟨fun h => ?_, fun h => ?_⟩ hiff⟩
      · simpa using h.neg
      · simpa using h.neg
  rw [← hiff]
  constructor
  · rintro ⟨r', hr', hsimplest, -⟩
    rwa [hr.unique hr']
  · exact fun h => ⟨r, hr, h, hneg⟩

/-- Between 1 and 3 the answer is 3. -/
theorem rationalizes_fails : ¬ Rationalizes 2 1 := by
  rintro ⟨r, hgives, hsimplest, -⟩
  have hr : Gives 2 1 3 := ⟨1, fun fuel hfuel => by
    cases fuel with
    | zero => omega
    | succ fuel => norm_num [schemeRationalize]⟩
  rw [← hr.unique hgives] at hsimplest
  have := hsimplest.least 1 (by norm_num) (by simp) le_rfl
  norm_num at this

end Fol.Numbers

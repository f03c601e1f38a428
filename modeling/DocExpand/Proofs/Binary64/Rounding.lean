/-
  DocExpand.Proofs.Binary64.Rounding — how far a rounded quotient lies from the exact one.

  `value` is the magnitude of a float as a rational. Rounding is off by at most half a
  unit of the result's last place (`ofRatio_error`), and it answers for every quotient
  below the largest float and half its unit (`ofRatio_isSome`). From one upwards that is
  a relative error of one part in `2 ^ 53` (`value_mul_le`).
-/

import DocExpand.Binary64.Basic
import Mathlib.Tactic.Linarith
import Mathlib.Tactic.Positivity
import Mathlib.Tactic.Ring
import Mathlib.Tactic.FieldSimp
import Mathlib.Tactic.NormNum
import Mathlib.Data.Rat.Defs
import Mathlib.Algebra.Order.Field.Rat
import Mathlib.Algebra.Order.Field.Power

namespace DocExpand.Binary64

/-- The magnitude. -/
def value (x : Binary64) : ℚ := x.mantissa * (2 : ℚ) ^ x.exponent

theorem two_zpow_pos (e : Int) : (0 : ℚ) < 2 ^ e := by positivity

theorem value_nonneg (x : Binary64) : 0 ≤ x.value := by unfold value; positivity

theorem two_zpow_toNat {e : Int} (h : 0 ≤ e) : ((2 ^ e.toNat : Nat) : ℚ) = 2 ^ e := by
  obtain ⟨n, rfl⟩ := Int.eq_ofNat_of_zero_le h
  simp

theorem ratio_pos (x : Binary64) : 0 < x.ratio.2 := by
  unfold ratio
  split
  · exact Nat.one_pos
  · exact Nat.two_pow_pos _

theorem ratio_eq (x : Binary64) : (x.ratio.1 : ℚ) / x.ratio.2 = x.value := by
  unfold ratio value
  split
  · rename_i h
    simp only [Nat.cast_mul, two_zpow_toNat h, Nat.cast_one, div_one]
  · rename_i h
    rw [two_zpow_toNat (by omega : 0 ≤ -x.exponent), zpow_neg, div_inv_eq_mul]

/-! ## Scaling by a power of two -/

theorem scaled_pos (num : Nat) {den : Nat} (hd : 0 < den) (e : Int) : 0 < (scaled num den e).2 := by
  unfold scaled
  split
  · exact Nat.mul_pos hd (Nat.two_pow_pos _)
  · exact hd

theorem scaled_eq (num den : Nat) (e : Int) :
    ((scaled num den e).1 : ℚ) / (scaled num den e).2 = (num : ℚ) / den / 2 ^ e := by
  unfold scaled
  split
  · rename_i h
    simp only [Nat.cast_mul, two_zpow_toNat h, div_div]
  · rename_i h
    simp only [Nat.cast_mul, two_zpow_toNat (by omega : 0 ≤ -e), zpow_neg]
    rw [mul_div_right_comm, ← div_eq_mul_inv]

/-! ## The rounded natural -/

theorem roundHalfEven_le {num den : Nat} : 2 * (roundHalfEven num den * den) ≤ 2 * num + den := by
  have hn := Nat.div_add_mod num den
  simp only [roundHalfEven]
  split
  · nlinarith [Nat.zero_le (num % den)]
  split
  · nlinarith [Nat.zero_le (num % den)]
  · rcases Nat.mod_two_eq_zero_or_one (num / den) with h | h <;> rw [h] <;> nlinarith [Nat.zero_le (num % den)]

theorem le_roundHalfEven {num den : Nat} (hd : 0 < den) : 2 * num ≤ 2 * (roundHalfEven num den * den) + den := by
  have hn := Nat.div_add_mod num den
  have hm := Nat.mod_lt num hd
  simp only [roundHalfEven]
  split
  · nlinarith
  split
  · nlinarith
  · rcases Nat.mod_two_eq_zero_or_one (num / den) with h | h <;> rw [h] <;> nlinarith

theorem roundHalfEven_error (num : Nat) {den : Nat} (hd : 0 < den) : |(roundHalfEven num den : ℚ) - num / den| ≤ 1 / 2 := by
  have hd' : (0 : ℚ) < den := by exact_mod_cast hd
  have hu : (2 : ℚ) * (roundHalfEven num den * den) ≤ 2 * num + den := by exact_mod_cast roundHalfEven_le
  have hl : (2 : ℚ) * num ≤ 2 * (roundHalfEven num den * den) + den := by exact_mod_cast le_roundHalfEven hd
  have hq : (num : ℚ) = num / den * den := by field_simp
  rw [abs_le]
  constructor
  · by_contra h
    have := mul_lt_mul_of_pos_right (not_le.mp h) hd'
    nlinarith
  · by_contra h
    have := mul_lt_mul_of_pos_right (not_le.mp h) hd'
    nlinarith

/-! ## The exponent -/

/-- Two to the difference of the logarithms, against the quotient. -/
theorem log2_quotient {num den : Nat} (hn : 0 < num) (hd : 0 < den) :
    (2 : ℚ) ^ ((num.log2 : Int) - den.log2 - 1) < (num : ℚ) / den ∧
      (num : ℚ) / den < 2 ^ ((num.log2 : Int) - den.log2 + 1) := by
  have hd' : (0 : ℚ) < den := by exact_mod_cast hd
  have n1 : (2 : ℚ) ^ (num.log2 : Int) ≤ num := by
    rw [zpow_natCast]; exact_mod_cast Nat.log2_self_le (by omega)
  have n2 : (num : ℚ) < 2 ^ ((num.log2 : Int) + 1) := by
    have := Nat.lt_log2_self (n := num)
    exact_mod_cast this
  have d1 : (2 : ℚ) ^ (den.log2 : Int) ≤ den := by
    rw [zpow_natCast]; exact_mod_cast Nat.log2_self_le (by omega)
  have d2 : (den : ℚ) < 2 ^ ((den.log2 : Int) + 1) := by
    have := Nat.lt_log2_self (n := den)
    exact_mod_cast this
  constructor
  · rw [lt_div_iff₀ hd']
    calc (2 : ℚ) ^ ((num.log2 : Int) - den.log2 - 1) * den
        < 2 ^ ((num.log2 : Int) - den.log2 - 1) * 2 ^ ((den.log2 : Int) + 1) :=
          mul_lt_mul_of_pos_left d2 (two_zpow_pos _)
      _ = 2 ^ (num.log2 : Int) := by rw [← zpow_add₀ (by norm_num)]; congr 1; omega
      _ ≤ num := n1
  · rw [div_lt_iff₀ hd']
    calc (num : ℚ) < 2 ^ ((num.log2 : Int) + 1) := n2
      _ = 2 ^ ((num.log2 : Int) - den.log2 + 1) * 2 ^ (den.log2 : Int) := by
          rw [← zpow_add₀ (by norm_num)]; congr 1; omega
      _ ≤ 2 ^ ((num.log2 : Int) - den.log2 + 1) * den := mul_le_mul_of_nonneg_left d1 (two_zpow_pos _).le

/-- A quotient below a natural has a floor below it. -/
theorem div_lt_iff_cast {n d k : Nat} (hd : 0 < d) : n / d < k ↔ (n : ℚ) / d < k := by
  have hd' : (0 : ℚ) < d := by exact_mod_cast hd
  rw [Nat.div_lt_iff_lt_mul hd, div_lt_iff₀ hd']
  exact_mod_cast Iff.rfl

/-- The quotient has 53 bits above the exponent, or fewer at the smallest. -/
theorem exponentFor_spec {num den : Nat} {e : Int} (he : exponentFor num den = e) (hn : 0 < num) (hd : 0 < den) :
    -1074 ≤ e ∧ (num : ℚ) / den < 2 ^ 53 * 2 ^ e ∧ (e = -1074 ∨ (2 : ℚ) ^ 52 * 2 ^ e ≤ (num : ℚ) / den) := by
  obtain ⟨lo, hi⟩ := log2_quotient hn hd
  let g : Int := (num.log2 : Int) - den.log2 - 52
  have hg : (2 : ℚ) ^ ((num.log2 : Int) - den.log2 + 1) = 2 ^ 53 * 2 ^ g := by
    rw [← zpow_natCast, ← zpow_add₀ (by norm_num)]; congr 1; simp only [g]; push_cast; omega
  have hg' : (2 : ℚ) ^ ((num.log2 : Int) - den.log2 - 1) = 2 ^ 52 * 2 ^ (g - 1) := by
    rw [← zpow_natCast, ← zpow_add₀ (by norm_num)]; congr 1; simp only [g]; push_cast; omega
  have hs := scaled_eq num den g
  -- the guess is right, or one too high
  have hbest : ∃ b : Int, e = max b (-1074) ∧ (num : ℚ) / den < 2 ^ 53 * 2 ^ b ∧ (2 : ℚ) ^ 52 * 2 ^ b ≤ (num : ℚ) / den := by
    have hgp := two_zpow_pos g
    by_cases hlow : (scaled num den g).1 / (scaled num den g).2 < 2 ^ 52
    · refine ⟨g - 1, ?_, ?_, ?_⟩
      · rw [← he]
        show max (if (scaled num den g).1 / (scaled num den g).2 < 2 ^ 52 then g - 1 else g) (-1074) = _
        rw [if_pos hlow]
      · rw [div_lt_iff_cast (scaled_pos num hd g), hs, div_lt_iff₀ hgp] at hlow
        rw [zpow_sub_one₀ (by norm_num)]
        push_cast at hlow
        linarith
      · linarith
    · refine ⟨g, ?_, ?_, ?_⟩
      · rw [← he]
        show max (if (scaled num den g).1 / (scaled num den g).2 < 2 ^ 52 then g - 1 else g) (-1074) = _
        rw [if_neg hlow]
      · linarith
      · rw [div_lt_iff_cast (scaled_pos num hd g), hs, not_lt, le_div_iff₀ hgp] at hlow
        push_cast at hlow
        linarith
  obtain ⟨b, hb, hlt, hle⟩ := hbest
  by_cases h : -1074 ≤ b
  · rw [show e = b by omega]
    exact ⟨h, hlt, Or.inr hle⟩
  · rw [show e = -1074 by omega]
    refine ⟨le_refl _, hlt.trans ?_, Or.inl rfl⟩
    exact mul_lt_mul_of_pos_left (zpow_lt_zpow_right₀ (by norm_num) (by omega)) (by norm_num)

/-! ## Rounding a quotient -/

/-- The largest float and half a unit of its last place: from here on rounding overflows. -/
def overflow : ℚ := (2 ^ 54 - 1) * 2 ^ (970 : Int)

/-- Below the overflow no exponent is too large. -/
theorem exponent_le_of_lt_overflow {e : Int} {q : ℚ} (hle : e = -1074 ∨ 2 ^ 52 * 2 ^ e ≤ q) (hov : q < overflow) :
    e ≤ 971 := by
  by_contra hgt
  have h971 : e ≠ -1074 := by omega
  have h1 := hle.resolve_left h971
  have h2 : (2 : ℚ) ^ (970 : Int) * 2 * 2 ≤ 2 ^ e := by
    rw [← zpow_add_one₀ (by norm_num), ← zpow_add_one₀ (by norm_num)]
    exact zpow_le_zpow_right₀ (by norm_num) (by omega)
  have h3 := two_zpow_pos 970
  unfold overflow at hov
  generalize (2 : ℚ) ^ (970 : Int) = t at hov h2 h3
  linarith

/-- What `ofRatio` rounds to, before the question whether it is finite. -/
theorem ofRatio_eq (negative : Bool) {num den : Nat} (hn : 0 < num) (hd : 0 < den) :
    ∃ (m : Nat) (e : Int), ofRatio negative num den = ofParts? negative m e ∧
      |m * 2 ^ e - (num : ℚ) / den| ≤ 2 ^ e / 2 ∧ m < 2 ^ 53 ∧ -1074 ≤ e ∧ (2 ^ 52 ≤ m ∨ e = -1074) ∧
      ((num : ℚ) / den < overflow → e ≤ 971) := by
  generalize he : exponentFor num den = e
  obtain ⟨hmin, hlt, hle⟩ := exponentFor_spec he hn hd
  generalize hq : (num : ℚ) / den = q at hlt hle ⊢
  have hp := two_zpow_pos e
  have hr := roundHalfEven_error (scaled num den e).1 (scaled_pos num hd e)
  rw [scaled_eq, hq] at hr
  generalize hm : roundHalfEven (scaled num den e).1 (scaled num den e).2 = m at hr
  have hdef : ofRatio negative num den =
      if m = 2 ^ 53 then ofParts? negative (2 ^ 52) (e + 1) else ofParts? negative m e := by
    simp only [ofRatio, he, hm, Nat.pos_iff_ne_zero.mp hn, if_false]
  have herr : |m * 2 ^ e - q| ≤ 2 ^ e / 2 := by
    have : m * 2 ^ e - q = (m - q / 2 ^ e) * 2 ^ e := by field_simp
    rw [this, abs_mul, abs_of_pos hp]
    linarith [mul_le_mul_of_nonneg_right hr hp.le]
  rw [abs_le] at hr
  have hm53 : m ≤ 2 ^ 53 := by
    have h1 : q / 2 ^ e < 2 ^ 53 := by rw [div_lt_iff₀ hp]; exact hlt
    have h2 : (m : ℚ) < 2 ^ 53 + 1 := by linarith
    have h3 : m < 2 ^ 53 + 1 := by exact_mod_cast h2
    omega
  have hm52 : 2 ^ 52 ≤ m ∨ e = -1074 := by
    rcases hle with h | h
    · exact Or.inr h
    · left
      have h1 : (2 : ℚ) ^ 52 ≤ q / 2 ^ e := by rw [le_div_iff₀ hp]; exact h
      have h2 : (2 : ℚ) ^ 52 < m + 1 := by linarith
      have h3 : 2 ^ 52 < m + 1 := by exact_mod_cast h2
      omega
  have hbig : q < overflow → e ≤ 971 := exponent_le_of_lt_overflow hle
  by_cases hc : m = 2 ^ 53
  · refine ⟨2 ^ 52, e + 1, by rw [hdef, if_pos hc], ?_, by norm_num, by omega, Or.inl (le_refl _), ?_⟩
    · have hv : ((2 ^ 52 : Nat) : ℚ) * 2 ^ (e + 1) = m * 2 ^ e := by
        rw [hc, zpow_add_one₀ (by norm_num)]; push_cast; ring
      rw [hv, zpow_add_one₀ (by norm_num)]
      linarith
    · intro hov
      have h971 := hbig hov
      by_contra hgt
      have heq : e = 971 := by omega
      subst heq
      have hm' : (m : ℚ) = 2 ^ 53 := by rw [hc]; norm_num
      have h2 : (2 : ℚ) ^ (971 : Int) = 2 ^ (970 : Int) * 2 := by
        rw [← zpow_add_one₀ (by norm_num)]; rfl
      unfold overflow at hov
      rw [hm', abs_le, h2] at herr
      linarith
  · exact ⟨m, e, by rw [hdef, if_neg hc], herr, by omega, hmin, hm52, hbig⟩

/-- Half a unit of the last place. -/
theorem ofRatio_error {negative : Bool} {num den : Nat} {y : Binary64} (h : ofRatio negative num den = some y)
    (hd : 0 < den) : |y.value - (num : ℚ) / den| ≤ 2 ^ y.exponent / 2 := by
  by_cases hn : num = 0
  · subst hn
    simp only [ofRatio, if_true, Option.some.injEq] at h
    subst h
    simp only [value, zero, Nat.cast_zero, zero_mul, zero_div, sub_zero, abs_zero]
    positivity
  · obtain ⟨m, e, hdef, herr, -⟩ := ofRatio_eq negative (Nat.pos_of_ne_zero hn) hd
    rw [hdef] at h
    unfold ofParts? at h
    split at h
    · cases h; exact herr
    · cases h

theorem ofRatio_isSome (negative : Bool) (num : Nat) {den : Nat} (hd : 0 < den) (hq : (num : ℚ) / den < overflow) :
    ∃ y, ofRatio negative num den = some y := by
  by_cases hn : num = 0
  · exact ⟨zero negative, by simp [ofRatio, hn]⟩
  · obtain ⟨m, e, hdef, -, h53, hmin, h52, hmax⟩ := ofRatio_eq negative (Nat.pos_of_ne_zero hn) hd
    have hc : Canonical m e := ⟨h53, hmin, hmax hq, h52⟩
    exact ⟨⟨negative, m, e, hc⟩, by rw [hdef, ofParts?, dif_pos hc]⟩

/-! ## Quotients from one upwards -/

/-- Such a quotient is not rounded to one of the floats at the smallest exponent with fewer bits. -/
theorem unit_le {negative : Bool} {num den : Nat} {y : Binary64} (h : ofRatio negative num den = some y)
    (hd : 0 < den) (h1 : 1 ≤ (num : ℚ) / den) : 2 ^ 52 * (2 : ℚ) ^ y.exponent ≤ y.value := by
  have herr := ofRatio_error h hd
  have hp := two_zpow_pos y.exponent
  rcases y.canonical.2.2.2 with hm | he
  · have : (2 : ℚ) ^ 52 ≤ y.mantissa := by exact_mod_cast hm
    exact mul_le_mul_of_nonneg_right this hp.le
  · exfalso
    have hm : (y.mantissa : ℚ) < 2 ^ 53 := by exact_mod_cast y.canonical.1
    have hv : y.value ≤ 2 ^ 53 * 2 ^ y.exponent := mul_le_mul_of_nonneg_right hm.le hp.le
    have hsmall : (2 : ℚ) ^ y.exponent ≤ 2 ^ (-60 : Int) := by
      rw [he]; exact zpow_le_zpow_right₀ (by norm_num) (by norm_num)
    rw [abs_le] at herr
    norm_num at hsmall hv
    linarith

/-- Rounding up is by one part in `2 ^ 53` at most. -/
theorem value_mul_le {negative : Bool} {num den : Nat} {y : Binary64} (h : ofRatio negative num den = some y)
    (hd : 0 < den) (h1 : 1 ≤ (num : ℚ) / den) : y.value * (2 ^ 53 - 1) ≤ (num : ℚ) / den * 2 ^ 53 := by
  have herr := ofRatio_error h hd
  have hu := unit_le h hd h1
  rw [abs_le] at herr
  linarith

theorem half_le_value {negative : Bool} {num den : Nat} {y : Binary64} (h : ofRatio negative num den = some y)
    (hd : 0 < den) (h1 : 1 ≤ (num : ℚ) / den) : 1 / 2 ≤ y.value := by
  have herr := ofRatio_error h hd
  have hu := unit_le h hd h1
  have hp := two_zpow_pos y.exponent
  rw [abs_le] at herr
  linarith

theorem isZero_iff (x : Binary64) : x.isZero = true ↔ x.value = 0 := by
  simp [isZero, value, (two_zpow_pos x.exponent).ne']

end DocExpand.Binary64

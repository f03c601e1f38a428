/-
  DocExpand.Proofs.Binary64.Shortest — the digits that a float is written with.

  They are at most seventeen and stand for a decimal that exceeds the float by no more
  than a unit of its last place (`shortest_near`): digits that read back do so by half a
  unit, and seventeen digits are finer than the floats are.
-/

import DocExpand.Binary64.Decimal
import DocExpand.Proofs.Binary64.Rounding
import Mathlib.Data.Nat.Cast.Order.Field

namespace DocExpand.Binary64

theorem ten_zpow_pos (e : Int) : (0 : ℚ) < 10 ^ e := by positivity

theorem ten_zpow_toNat {e : Int} (h : 0 ≤ e) : ((10 ^ e.toNat : Nat) : ℚ) = 10 ^ e := by
  obtain ⟨n, rfl⟩ := Int.eq_ofNat_of_zero_le h
  simp

/-- The magnitude that a decimal stands for. -/
def Decimal.value (d : Decimal) : ℚ := d.digits * (10 : ℚ) ^ d.exponent

/-! ## Counting digits -/

theorem lt_pow_digitCount (n : Nat) : n < 10 ^ digitCount n :=
  (Nat.length_toDigits_le_iff (by decide) Nat.length_toDigits_pos).mp (le_refl _)

theorem pow_digitCount_le {n : Nat} (hn : 0 < n) : 10 ^ (digitCount n - 1) ≤ n := by
  unfold digitCount
  by_cases h : (Nat.toDigits 10 n).length - 1 = 0
  · rw [h]; exact hn
  · by_contra hlt
    have := (Nat.length_toDigits_le_iff (b := 10) (by decide) (by omega)).mpr (not_le.mp hlt)
    omega

theorem digitCount_pos (n : Nat) : 0 < digitCount n := Nat.length_toDigits_pos

/-! ## The place of the point -/

theorem mantissa_pos {x : Binary64} (h : x.isZero = false) : 0 < x.mantissa := by
  simp only [isZero, beq_eq_false_iff_ne] at h
  omega

/-- No float but zero is as small as `10 ^ -400`. -/
theorem value_ge {x : Binary64} (h : x.isZero = false) : 1 ≤ x.value * 10 ^ (400 : Int) := by
  have hm : (1 : ℚ) ≤ x.mantissa := by exact_mod_cast mantissa_pos h
  have he : (2 : ℚ) ^ (-1200 : Int) ≤ 2 ^ x.exponent :=
    zpow_le_zpow_right₀ (by norm_num) (by have := x.canonical.2.1; omega)
  have h10 : (2 : ℚ) ^ (1200 : Int) ≤ 10 ^ (400 : Int) := by
    have : (2 : ℚ) ^ (1200 : Int) = ((2 : ℚ) ^ (3 : Int)) ^ (400 : Int) := by rw [← zpow_mul]; norm_num
    rw [this]
    exact zpow_le_zpow_left₀ (by norm_num) (by positivity) (by norm_num)
  have hone : (2 : ℚ) ^ (-1200 : Int) * 2 ^ (1200 : Int) = 1 := by
    rw [← zpow_add₀ (by norm_num)]; norm_num
  unfold value
  calc (1 : ℚ) = 1 * (2 ^ (-1200 : Int) * 2 ^ (1200 : Int)) := by rw [hone, one_mul]
    _ ≤ x.mantissa * (2 ^ x.exponent * 10 ^ (400 : Int)) := by
        refine mul_le_mul hm (mul_le_mul he h10 (by positivity) (by positivity)) (by positivity) (by positivity)
    _ = x.mantissa * 2 ^ x.exponent * 10 ^ (400 : Int) := by ring

/-- The magnitude lies between two powers of ten beside the point's place. -/
theorem pointPlace_spec {x : Binary64} (h : x.isZero = false) :
    (10 : ℚ) ^ (x.pointPlace - 1) ≤ x.value ∧ x.value < 10 ^ x.pointPlace := by
  have hden : (0 : ℚ) < x.ratio.2 := by exact_mod_cast x.ratio_pos
  have hv : x.value * 10 ^ (400 : Int) = ((x.ratio.1 * 10 ^ 400 : Nat) : ℚ) / x.ratio.2 := by
    rw [← ratio_eq, div_mul_eq_mul_div]
    congr 1
    rw [Nat.cast_mul, Nat.cast_pow, ← zpow_natCast]
    rfl
  obtain ⟨n, hn⟩ : ∃ n, n = x.ratio.1 * 10 ^ 400 / x.ratio.2 := ⟨_, rfl⟩
  have hplace : x.pointPlace = (digitCount n : Int) - 400 := by
    unfold pointPlace
    split
    rename_i num den hr
    rw [hn, hr]
  have hpos : 0 < n := by
    have hge := value_ge h
    rw [hv, le_div_iff₀ hden, one_mul] at hge
    rw [hn]
    exact Nat.div_pos (by exact_mod_cast hge) x.ratio_pos
  have hlow : (n : ℚ) ≤ x.value * 10 ^ (400 : Int) := by
    rw [hv, le_div_iff₀ hden, hn]
    exact_mod_cast Nat.div_mul_le_self _ _
  have hhigh : x.value * 10 ^ (400 : Int) < (n : ℚ) + 1 := by
    rw [hv, div_lt_iff₀ hden]
    have := Nat.lt_div_mul_add (a := x.ratio.1 * 10 ^ 400) x.ratio_pos
    have h' : x.ratio.1 * 10 ^ 400 < (n + 1) * x.ratio.2 := by rw [hn, Nat.add_mul, Nat.one_mul]; exact this
    exact_mod_cast h'
  have hsplit : ∀ e : Int, (10 : ℚ) ^ (e - 400) * 10 ^ (400 : Int) = 10 ^ e := by
    intro e; rw [← zpow_add₀ (by norm_num)]; congr 1; omega
  have hp := ten_zpow_pos 400
  have hc := digitCount_pos n
  constructor
  · rw [hplace, show (digitCount n : Int) - 400 - 1 = ((digitCount n - 1 : Nat) : Int) - 400 by omega]
    refine le_of_mul_le_mul_right ?_ hp
    rw [hsplit, zpow_natCast]
    refine le_trans ?_ hlow
    exact_mod_cast pow_digitCount_le hpos
  · rw [hplace]
    refine lt_of_mul_lt_mul_right ?_ hp.le
    rw [hsplit, zpow_natCast]
    refine lt_of_lt_of_le hhigh ?_
    exact_mod_cast lt_pow_digitCount n

/-! ## Neighbours on a decimal grid -/

/-- The quotient that `neighbours` divides. -/
def gridRatio (x : Binary64) (e : Int) : Nat × Nat :=
  if 0 ≤ e then (x.ratio.1, x.ratio.2 * 10 ^ e.toNat) else (x.ratio.1 * 10 ^ (-e).toNat, x.ratio.2)

theorem gridRatio_pos (x : Binary64) (e : Int) : 0 < (x.gridRatio e).2 := by
  unfold gridRatio
  split
  · exact Nat.mul_pos x.ratio_pos (Nat.pow_pos (by decide))
  · exact x.ratio_pos

theorem gridRatio_eq (x : Binary64) (e : Int) :
    ((x.gridRatio e).1 : ℚ) / (x.gridRatio e).2 = x.value / 10 ^ e := by
  rw [← ratio_eq]
  unfold gridRatio
  split
  · rename_i h
    simp only [Nat.cast_mul, ten_zpow_toNat h, div_div]
  · rename_i h
    simp only [Nat.cast_mul, ten_zpow_toNat (by omega : 0 ≤ -e), zpow_neg]
    rw [mul_div_right_comm, ← div_eq_mul_inv]

theorem div_le_roundHalfEven (n d : Nat) : n / d ≤ roundHalfEven n d := by
  simp only [roundHalfEven]
  split
  · exact le_refl _
  split <;> omega

theorem roundHalfEven_le_succ (n d : Nat) : roundHalfEven n d ≤ n / d + 1 := by
  simp only [roundHalfEven]
  split
  · omega
  split
  · exact le_refl _
  · omega

/-- A neighbour is the floor of the quotient or the next; the first is the nearest. -/
theorem mem_neighbours {x : Binary64} {e : Int} {d : Decimal} (h : d ∈ x.neighbours e) :
    d.exponent = e ∧ d.digits ≤ (x.gridRatio e).1 / (x.gridRatio e).2 + 1 := by
  have hn := roundHalfEven_le_succ (x.gridRatio e).1 (x.gridRatio e).2
  have hdef : x.neighbours e =
      if (x.gridRatio e).1 % (x.gridRatio e).2 = 0 then [⟨(x.gridRatio e).1 / (x.gridRatio e).2, e⟩]
      else [⟨roundHalfEven (x.gridRatio e).1 (x.gridRatio e).2, e⟩,
        ⟨if roundHalfEven (x.gridRatio e).1 (x.gridRatio e).2 = (x.gridRatio e).1 / (x.gridRatio e).2
          then (x.gridRatio e).1 / (x.gridRatio e).2 + 1 else (x.gridRatio e).1 / (x.gridRatio e).2, e⟩] := rfl
  rw [hdef] at h
  split at h
  · simp only [List.mem_singleton] at h
    subst h
    exact ⟨rfl, Nat.le_succ _⟩
  · simp only [List.mem_cons, List.not_mem_nil, or_false] at h
    rcases h with rfl | rfl
    · exact ⟨rfl, hn⟩
    · refine ⟨rfl, ?_⟩
      dsimp only
      split
      · exact le_refl _
      · exact Nat.le_succ _

theorem nearest_neighbour (x : Binary64) (e : Int) :
    ∃ n, (x.neighbours e).headD ⟨0, 0⟩ = ⟨n, e⟩ ∧ (x.gridRatio e).1 / (x.gridRatio e).2 ≤ n ∧
      (n : ℚ) - x.value / 10 ^ e ≤ 1 / 2 := by
  have hr := roundHalfEven_error (x.gridRatio e).1 (x.gridRatio_pos e)
  rw [gridRatio_eq, abs_le] at hr
  have hfloor : (((x.gridRatio e).1 / (x.gridRatio e).2 : Nat) : ℚ) ≤ x.value / 10 ^ e := by
    rw [← gridRatio_eq]; exact Nat.cast_div_le
  by_cases hz : (x.gridRatio e).1 % (x.gridRatio e).2 = 0
  · refine ⟨(x.gridRatio e).1 / (x.gridRatio e).2, ?_, le_refl _, by linarith⟩
    show List.headD (if (x.gridRatio e).1 % (x.gridRatio e).2 = 0 then _ else _) _ = _
    rw [if_pos hz]; rfl
  · refine ⟨roundHalfEven (x.gridRatio e).1 (x.gridRatio e).2, ?_, div_le_roundHalfEven _ _, hr.2⟩
    show List.headD (if (x.gridRatio e).1 % (x.gridRatio e).2 = 0 then _ else _) _ = _
    rw [if_neg hz]; rfl

/-! ## The shortest digits -/

/-- Digits to write a float with: at most seventeen, and no more than a unit too high. -/
structure Near (x : Binary64) (d : Decimal) : Prop where
  positive : 0 < d.digits
  short : d.digits ≤ 10 ^ 17
  value_le : d.value ≤ x.value + 2 ^ x.exponent

/-- Digits that read back are within half a unit. -/
theorem readsBack_spec {x : Binary64} {d : Decimal} (hx : x.isZero = false) (h : x.readsBack d = true) :
    0 < d.digits ∧ d.value ≤ x.value + 2 ^ x.exponent := by
  have hz : ∀ b, zero b ≠ x := by
    intro b hb
    rw [← hb] at hx
    cases hx
  simp only [readsBack, beq_iff_eq] at h
  unfold ofDecimal at h
  split at h
  · exact absurd (Option.some.inj h) (hz _)
  · rename_i hpos
    refine ⟨Nat.pos_of_ne_zero hpos, ?_⟩
    have hp := two_zpow_pos x.exponent
    dsimp only at h
    split at h
    · cases h
    split at h
    · exact absurd (Option.some.inj h) (hz _)
    split at h
    · rename_i he
      have herr := ofRatio_error h Nat.one_pos
      rw [Nat.cast_mul, ten_zpow_toNat he, Nat.cast_one, div_one, abs_le] at herr
      unfold Decimal.value
      linarith
    · rename_i he
      have herr := ofRatio_error h (Nat.pow_pos (by decide))
      rw [ten_zpow_toNat (by omega : 0 ≤ -d.exponent), zpow_neg, div_inv_eq_mul, abs_le] at herr
      unfold Decimal.value
      linarith

theorem trim_value (d : Decimal) (fuel : Nat) : (d.trim fuel).value = d.value := by
  induction fuel generalizing d with
  | zero => rfl
  | succ fuel ih =>
    unfold Decimal.trim
    split
    · rename_i h
      rw [ih]
      have hd : d.digits = 10 * (d.digits / 10) := by omega
      have : (d.digits : ℚ) = 10 * (d.digits / 10 : Nat) := by exact_mod_cast hd
      unfold Decimal.value
      rw [this, zpow_add_one₀ (by norm_num)]
      ring
    · rfl

theorem trim_digits (d : Decimal) (fuel : Nat) (h : 0 < d.digits) :
    0 < (d.trim fuel).digits ∧ (d.trim fuel).digits ≤ d.digits := by
  induction fuel generalizing d with
  | zero => exact ⟨h, le_refl _⟩
  | succ fuel ih =>
    unfold Decimal.trim
    split
    · rename_i hd
      have hlt : d.digits / 10 ≤ d.digits := Nat.div_le_self _ _
      obtain ⟨hp, hle⟩ := ih ⟨d.digits / 10, d.exponent + 1⟩ (by show 0 < d.digits / 10; omega)
      exact ⟨hp, hle.trans hlt⟩
    · exact ⟨h, le_refl _⟩

theorem Near.trim {x : Binary64} {d : Decimal} (h : Near x d) (fuel : Nat) : Near x (d.trim fuel) where
  positive := (trim_digits d fuel h.positive).1
  short := (trim_digits d fuel h.positive).2.trans h.short
  value_le := by rw [trim_value]; exact h.value_le

/-- On the grid of `size` digits the float is below `10 ^ size`. -/
theorem grid_lt {x : Binary64} (hx : x.isZero = false) (size : Nat) :
    (x.gridRatio (x.pointPlace - size)).1 / (x.gridRatio (x.pointPlace - size)).2 < 10 ^ size := by
  rw [div_lt_iff_cast (gridRatio_pos _ _), gridRatio_eq, div_lt_iff₀ (ten_zpow_pos _)]
  refine lt_of_lt_of_eq (pointPlace_spec hx).2 ?_
  push_cast
  rw [← zpow_natCast, ← zpow_add₀ (by norm_num)]
  congr 1
  omega

theorem decimalOfSize_near {x : Binary64} {size : Nat} {d : Decimal} (hx : x.isZero = false) (hs : size ≤ 17)
    (h : x.decimalOfSize? size = some d) : Near x d := by
  obtain ⟨hpos, hle⟩ := readsBack_spec hx (List.find?_some h)
  refine ⟨hpos, ?_, hle⟩
  have hmem := (mem_neighbours (List.mem_of_find?_eq_some h)).2
  have hlt := grid_lt hx size
  have hpow : 10 ^ size ≤ 10 ^ 17 := Nat.pow_le_pow_right (by decide) hs
  omega

/-- Seventeen digits are finer than the floats. -/
theorem seventeen_near {x : Binary64} (hx : x.isZero = false) :
    Near x ((x.neighbours (x.pointPlace - 17)).headD ⟨0, 0⟩) := by
  obtain ⟨n, hn, hfloor, hhalf⟩ := nearest_neighbour x (x.pointPlace - 17)
  rw [hn]
  obtain ⟨hlow, -⟩ := pointPlace_spec hx
  have hp := ten_zpow_pos (x.pointPlace - 17)
  have hsplit : (10 : ℚ) ^ (x.pointPlace - 1) = 10 ^ 16 * 10 ^ (x.pointPlace - 17) := by
    rw [← zpow_natCast, ← zpow_add₀ (by norm_num)]; congr 1; omega
  rw [hsplit] at hlow
  refine ⟨?_, ?_, ?_⟩
  · refine lt_of_lt_of_le ?_ hfloor
    refine Nat.div_pos ?_ (gridRatio_pos _ _)
    have hq : 1 ≤ x.value / 10 ^ (x.pointPlace - 17) := by rw [le_div_iff₀ hp]; linarith
    have hd : (0 : ℚ) < (x.gridRatio (x.pointPlace - 17)).2 := by exact_mod_cast gridRatio_pos _ _
    rw [← gridRatio_eq, le_div_iff₀ hd, one_mul] at hq
    exact_mod_cast hq
  · show n ≤ 10 ^ 17
    have hlt := grid_lt hx 17
    have hq : x.value / 10 ^ (x.pointPlace - 17) < 10 ^ 17 := by
      rw [div_lt_iff_cast (gridRatio_pos _ _)] at hlt
      rw [← gridRatio_eq]
      exact_mod_cast hlt
    have hn' : (n : ℚ) < 10 ^ 17 + 1 := by linarith
    have hn'' : n < 10 ^ 17 + 1 := by exact_mod_cast hn'
    omega
  · have hm : (x.mantissa : ℚ) ≤ 2 ^ 53 := by exact_mod_cast x.canonical.1.le
    have hv : x.value ≤ 2 ^ 53 * 2 ^ x.exponent := mul_le_mul_of_nonneg_right hm (two_zpow_pos _).le
    have hu := two_zpow_pos x.exponent
    have hq : (n : ℚ) * 10 ^ (x.pointPlace - 17) ≤ x.value + 10 ^ (x.pointPlace - 17) / 2 := by
      have := mul_le_mul_of_nonneg_right hhalf hp.le
      rw [sub_mul, div_mul_cancel₀ _ hp.ne'] at this
      linarith
    unfold Decimal.value
    dsimp only
    linarith

theorem shortest_near {x : Binary64} (hx : x.isZero = false) : Near x x.shortest := by
  simp only [shortest, hx, Bool.false_eq_true, if_false]
  apply Near.trim
  cases hf : ((List.range 16).map (· + 1)).findSome? x.decimalOfSize? with
  | none =>
    rw [Option.getD_none]
    exact seventeen_near hx
  | some d =>
    rw [Option.getD_some]
    obtain ⟨size, hmem, hd⟩ := List.exists_of_findSome?_eq_some hf
    simp only [List.mem_map, List.mem_range] at hmem
    obtain ⟨k, hk, rfl⟩ := hmem
    exact decimalOfSize_near hx (by omega) hd

end DocExpand.Binary64

/-
  DocExpand.Proofs.Json.Numerals — the numeral that a number is written as is read.

  `Numeral.chars` spells a numeral, and `ofWord?` takes such a spelling apart again
  (`ofWord?_chars`). Integers come back as they were (`int_reads`). A float is written
  with a numeral that reading does not refuse (`float_numeral`): its digits stand for a
  decimal next to the float, and three roundings of that stay below the overflow, except
  perhaps for the three largest floats, which are looked at one by one.
-/

import DocExpand.Json.Token
import DocExpand.Json.Writer
import DocExpand.Proofs.Binary64.Shortest

namespace DocExpand.Json

namespace Numeral

/-! ## Spelling -/

def fractionChars : Option (List Char) → List Char
  | none => []
  | some ds => '.' :: ds

def exponentChars : Option (Bool × List Char) → List Char
  | none => []
  | some (true, ds) => 'e' :: '-' :: ds
  | some (false, ds) => 'e' :: '+' :: ds

def signChars (negative : Bool) : List Char := if negative then ['-'] else []

def chars (n : Numeral) : List Char :=
  signChars n.negative ++ (n.whole ++ (fractionChars n.fraction ++ exponentChars n.exponent))

/-- Digits, at least one. -/
def IsDigits (ds : List Char) : Prop := ds ≠ [] ∧ ∀ c ∈ ds, c.isDigit = true

/-- No zero in front of another digit. -/
def NoLead (ds : List Char) : Prop := ∀ c cs, ds ≠ '0' :: c :: cs

structure Spelt (n : Numeral) : Prop where
  whole : IsDigits n.whole
  noLead : NoLead n.whole
  fraction : ∀ ds, n.fraction = some ds → IsDigits ds
  exponent : ∀ s ds, n.exponent = some (s, ds) → IsDigits ds

/-- What follows a run of digits does not go on with one. -/
def Stops (cs : List Char) : Prop := ∀ c rest, cs = c :: rest → c.isDigit = false

theorem stops_nil : Stops [] := by intro c rest h; cases h

theorem stops_cons {c : Char} {cs : List Char} (h : c.isDigit = false) : Stops (c :: cs) := by
  intro c' rest e; cases e; exact h

theorem span_digits {ds rest : List Char} (hd : ∀ c ∈ ds, c.isDigit = true) (hr : Stops rest) :
    (ds ++ rest).takeWhile Char.isDigit = ds ∧ (ds ++ rest).dropWhile Char.isDigit = rest := by
  induction ds with
  | nil =>
    cases rest with
    | nil => exact ⟨rfl, rfl⟩
    | cons c rest => simp [hr c rest rfl]
  | cons c ds ih =>
    obtain ⟨ht, hw⟩ := ih fun x hx => hd x (List.mem_cons_of_mem _ hx)
    simp [hd c List.mem_cons_self, ht, hw]

theorem digits?_append {ds rest : List Char} (hd : IsDigits ds) (hr : Stops rest) :
    digits? (ds ++ rest) = some (ds, rest) := by
  obtain ⟨ht, hw⟩ := span_digits hd.2 hr
  unfold digits?
  rw [ht, hw]
  cases ds with
  | nil => exact absurd rfl hd.1
  | cons c ds => rfl

theorem whole?_append {ds rest : List Char} (hd : IsDigits ds) (hz : NoLead ds) (hr : Stops rest) :
    whole? (ds ++ rest) = some (ds, rest) := by
  unfold whole?
  rw [digits?_append hd hr]
  dsimp only [Option.bind_eq_bind, Option.bind_some]
  split
  · exact absurd rfl (hz _ _)
  · rfl

theorem exponentChars_stops (x : Option (Bool × List Char)) : Stops (exponentChars x) := by
  rcases x with _ | ⟨_ | _, ds⟩
  · exact stops_nil
  · exact stops_cons (by decide)
  · exact stops_cons (by decide)

theorem tail_stops (f : Option (List Char)) (x : Option (Bool × List Char)) :
    Stops (fractionChars f ++ exponentChars x) := by
  cases f with
  | none => exact exponentChars_stops x
  | some ds => exact stops_cons (by decide)

theorem fraction?_append {f : Option (List Char)} (x : Option (Bool × List Char))
    (hf : ∀ ds, f = some ds → IsDigits ds) :
    fraction? (fractionChars f ++ exponentChars x) = some (f, exponentChars x) := by
  cases f with
  | none =>
    rcases x with _ | ⟨_ | _, ds⟩
    · rfl
    · rfl
    · rfl
  | some ds =>
    show (digits? (ds ++ exponentChars x)).map (fun p => (some p.1, p.2)) = _
    rw [digits?_append (hf ds rfl) (exponentChars_stops x)]
    rfl

theorem exponent?_chars {x : Option (Bool × List Char)} (hx : ∀ s ds, x = some (s, ds) → IsDigits ds) :
    exponent? (exponentChars x) = some (x, []) := by
  have hrun : ∀ s ds, x = some (s, ds) → digits? ds = some (ds, []) := by
    intro s ds h
    have := digits?_append (hx s ds h) stops_nil
    rwa [List.append_nil] at this
  rcases x with _ | ⟨_ | _, ds⟩
  · rfl
  · show (digits? ds).map (fun p => (some (false, p.1), p.2)) = _
    rw [hrun false ds rfl]; rfl
  · show (digits? ds).map (fun p => (some (true, p.1), p.2)) = _
    rw [hrun true ds rfl]; rfl

theorem ofWord?_chars {n : Numeral} (h : n.Spelt) : ofWord? n.chars = some n := by
  have hrest : ((whole? (n.whole ++ (fractionChars n.fraction ++ exponentChars n.exponent))).bind fun x =>
      (fraction? x.2).bind fun y => (exponent? y.2).bind fun z =>
        if z.2.isEmpty then some (⟨n.negative, x.1, y.1, z.1⟩ : Numeral) else none) = some n := by
    rw [whole?_append h.whole h.noLead (tail_stops _ _)]
    simp only [Option.bind_some]
    rw [fraction?_append _ h.fraction]
    simp only [Option.bind_some]
    rw [exponent?_chars h.exponent]
    rfl
  obtain ⟨negative, whole, fraction, exponent⟩ := n
  cases negative with
  | true => exact hrest
  | false =>
    obtain ⟨hne, hdig⟩ := h.whole
    rcases whole with _ | ⟨c, cs⟩
    · exact absurd rfl hne
    · have hc : c ≠ '-' := by
        rintro rfl
        exact absurd (hdig '-' List.mem_cons_self) (by decide)
      show ofWord? (c :: (cs ++ (fractionChars fraction ++ exponentChars exponent))) = _
      unfold ofWord?
      split
      rename_i neg rest hs
      split at hs
      · rename_i heq
        simp only [List.cons.injEq] at heq
        exact absurd heq.1 hc
      · cases hs; exact hrest

/-! ## The number that a numeral stands for -/

/-- All digits of the numeral, as one natural. -/
def significand (n : Numeral) : Nat := Nat.ofDigitChars 10 (n.whole ++ n.fraction.getD []) 0

/-- The power of ten that the significand is multiplied by. -/
def scaleOf (n : Numeral) : Int := exponentOf n.exponent - (n.fraction.getD []).length

theorem le_ofDigitChars (ds : List Char) (init : Nat) : init ≤ Nat.ofDigitChars 10 ds init := by
  rw [Nat.ofDigitChars_eq_ofDigitChars_zero]
  have : 1 ≤ 10 ^ ds.length := Nat.one_le_pow _ _ (by decide)
  nlinarith

/-- Digits that fit in 64 bits are all taken. -/
theorem accumulate_eq {ds : List Char} {init : Nat} (h : Nat.ofDigitChars 10 ds init < 2 ^ 64) :
    accumulate init ds = (Nat.ofDigitChars 10 ds init, []) := by
  induction ds generalizing init with
  | nil => rfl
  | cons c cs ih =>
    have hnext : init * 10 + digit c = 10 * init + (c.toNat - '0'.toNat) := by unfold digit; omega
    rw [Nat.ofDigitChars_cons] at h ⊢
    have hlt := lt_of_le_of_lt (le_ofDigitChars cs _) h
    unfold accumulate
    dsimp only
    rw [hnext, if_pos hlt]
    exact ih h

theorem natOf_eq (ds : List Char) : natOf ds = Nat.ofDigitChars 10 ds 0 := by
  unfold natOf Nat.ofDigitChars
  congr 1
  funext n c
  rw [Nat.mul_comm]
  rfl

theorem toNumber?_eq {n : Numeral} (h : n.significand < 2 ^ 64) :
    n.toNumber? =
      let asFloat := (approximate n.negative n.significand n.scaleOf).map Number.float
      if n.fraction.isNone && n.exponent.isNone then
        (integer? n.negative (Nat.ofDigitChars 10 n.whole 0)).or asFloat
      else asFloat := by
  unfold significand at h
  rw [Nat.ofDigitChars_append] at h
  have hwhole := accumulate_eq (lt_of_le_of_lt (le_ofDigitChars _ _) h)
  have hall := accumulate_eq h
  unfold toNumber? significand scaleOf
  rw [hwhole]
  dsimp only
  rw [hall, Nat.ofDigitChars_append]
  have hscale : (([] : List Char).length : Int) - ((n.fraction.getD []).length - ([] : List Char).length : Nat) +
      exponentOf n.exponent = exponentOf n.exponent - (n.fraction.getD []).length := by
    simp only [List.length_nil, Nat.sub_zero, Nat.cast_zero]; omega
  simp only [hscale, List.isEmpty_nil, Bool.and_true]
  generalize (approximate n.negative _ _).map Number.float = asFloat
  generalize integer? n.negative _ = whole
  generalize (n.fraction.isNone && n.exponent.isNone) = plain
  cases plain with
  | false => rfl
  | true => cases whole <;> rfl

theorem toNumber?_integer {negative : Bool} {ds : List Char} {i : Number} (h : Nat.ofDigitChars 10 ds 0 < 2 ^ 64)
    (hi : integer? negative (Nat.ofDigitChars 10 ds 0) = some i) :
    toNumber? ⟨negative, ds, none, none⟩ = some i := by
  have hs : significand ⟨negative, ds, none, none⟩ < 2 ^ 64 := by
    unfold significand
    rw [Option.getD_none, List.append_nil]
    exact h
  rw [toNumber?_eq hs]
  dsimp only
  rw [hi]
  rfl

theorem toNumber?_isSome {n : Numeral} (h : n.significand < 2 ^ 64)
    (ha : (approximate n.negative n.significand n.scaleOf).isSome) : n.toNumber?.isSome := by
  rw [toNumber?_eq h]
  obtain ⟨x, hx⟩ := Option.isSome_iff_exists.mp ha
  rw [hx]
  dsimp only
  split
  · cases integer? n.negative (Nat.ofDigitChars 10 n.whole 0) <;> rfl
  · rfl

/-! ## Reading a float in three roundings -/

open Binary64 (overflow)

theorem overflow_eq : overflow = (((2 ^ 54 - 1) * 2 ^ 970 : Nat) : ℚ) := by
  have h : ∀ k : Nat, (2 ^ 54 - 1) * (2 : ℚ) ^ (k : Int) = (((2 ^ 54 - 1) * 2 ^ k : Nat) : ℚ) := by
    intro k
    rw [zpow_natCast]
    push_cast
    norm_num
  exact h 970

theorem ten_zpow_natCast (k : Nat) : (10 : ℚ) ^ (k : Int) = ((10 ^ k : Nat) : ℚ) := by
  rw [zpow_natCast]; push_cast; rfl

theorem overflow_le : overflow ≤ 10 ^ (309 : Int) := by
  have h : (2 ^ 54 - 1) * 2 ^ 970 ≤ 10 ^ 309 := by decide +kernel
  rw [overflow_eq]
  exact (Nat.cast_le.mpr h).trans_eq (ten_zpow_natCast 309).symm

theorem lt_overflow : (10 : ℚ) ^ (308 : Int) < overflow := by
  have h : 10 ^ 308 < (2 ^ 54 - 1) * 2 ^ 970 := by decide +kernel
  rw [overflow_eq]
  exact (ten_zpow_natCast 308).trans_lt (Nat.cast_lt.mpr h)

theorem small_lt_overflow {q : ℚ} (h : q ≤ 10 ^ 30) : q < overflow := by
  have h' : (10 : ℚ) ^ (30 : Int) ≤ 10 ^ (308 : Int) := zpow_le_zpow_right₀ (by norm_num) (by norm_num)
  have h30 : (10 : ℚ) ^ (30 : Int) = 10 ^ 30 := by norm_cast
  exact lt_of_le_of_lt (by rw [h30] at h'; exact h.trans h') lt_overflow

/-- A power of ten below the overflow is rounded to a float near it. -/
theorem tenTo_spec {e : Nat} (h : (10 : ℚ) ^ (e : Int) < overflow) :
    ∃ g, tenTo e = some g ∧ 1 / 2 ≤ g.value ∧ g.value * (2 ^ 53 - 1) ≤ (10 : ℚ) ^ (e : Int) * 2 ^ 53 := by
  have he : e ≤ 308 := by
    by_contra hgt
    have : (10 : ℚ) ^ (309 : Int) ≤ 10 ^ (e : Int) := zpow_le_zpow_right₀ (by norm_num) (by omega)
    linarith [overflow_le]
  have hdef : tenTo e = Binary64.ofRatio false (10 ^ e) 1 := by
    unfold tenTo Binary64.ofDecimal
    have hc : Binary64.digitCount 1 = 1 := rfl
    dsimp only
    rw [if_neg (by decide), hc, if_neg (by omega), if_neg (by omega), if_pos (by omega), Int.toNat_natCast, Nat.one_mul]
  have hq : ((10 ^ e : Nat) : ℚ) / (1 : Nat) = 10 ^ (e : Int) := by
    rw [Nat.cast_one, div_one, zpow_natCast]; norm_cast
  have hone : (1 : ℚ) ≤ 10 ^ (e : Int) := by rw [zpow_natCast]; exact one_le_pow₀ (by norm_num)
  obtain ⟨g, hg⟩ := Binary64.ofRatio_isSome false (10 ^ e) Nat.one_pos (by rw [hq]; exact h)
  have h1 : 1 ≤ ((10 ^ e : Nat) : ℚ) / (1 : Nat) := by rw [hq]; exact hone
  refine ⟨g, hdef.trans hg, Binary64.half_le_value hg Nat.one_pos h1, ?_⟩
  rw [← hq]
  exact Binary64.value_mul_le hg Nat.one_pos h1

theorem mul_isSome {f g : Binary64} (h : f.value * g.value < overflow) : (f.mul g).isSome := by
  unfold Binary64.mul
  obtain ⟨y, hy⟩ := Binary64.ofRatio_isSome (f.negative != g.negative) (f.ratio.1 * g.ratio.1)
    (Nat.mul_pos f.ratio_pos g.ratio_pos) (by
      push_cast
      rw [mul_div_mul_comm, Binary64.ratio_eq, Binary64.ratio_eq]
      exact h)
  exact Option.isSome_iff_exists.mpr ⟨y, hy⟩

/-- A quotient by a float from a half upwards is at most twice as large, and so is its rounding. -/
theorem div_spec {f g : Binary64} (hg : 1 / 2 ≤ g.value) (hf : f.value ≤ 10 ^ 25) :
    ∃ y, f.div g = some y ∧ y.value ≤ 4 * f.value + 1 := by
  have hz : g.isZero = false := by
    cases h : g.isZero with
    | false => rfl
    | true => rw [(Binary64.isZero_iff g).mp h] at hg; norm_num at hg
  have hpos : 0 < g.value := by linarith
  have hden : 0 < f.ratio.2 * g.ratio.1 := by
    refine Nat.mul_pos f.ratio_pos (Nat.pos_of_ne_zero fun h0 => ?_)
    rw [← Binary64.ratio_eq, h0] at hpos
    simp at hpos
  have hq : ((f.ratio.1 * g.ratio.2 : Nat) : ℚ) / (f.ratio.2 * g.ratio.1 : Nat) = f.value / g.value := by
    push_cast
    rw [mul_div_mul_comm, Binary64.ratio_eq, ← Binary64.ratio_eq g, div_eq_mul_inv f.value, inv_div]
  have hle : f.value / g.value ≤ 2 * f.value := by
    rw [div_le_iff₀ hpos]
    nlinarith [f.value_nonneg]
  obtain ⟨y, hy⟩ := Binary64.ofRatio_isSome (f.negative != g.negative) _ hden
    (by rw [hq]; exact small_lt_overflow (by linarith))
  refine ⟨y, by unfold Binary64.div; rw [hz]; exact hy, ?_⟩
  have herr := Binary64.ofRatio_error hy hden
  rw [hq, abs_le] at herr
  have hup := Binary64.two_zpow_pos y.exponent
  rcases y.canonical.2.2.2 with hm | he
  · have hm' : (2 : ℚ) ^ 52 ≤ y.mantissa := by exact_mod_cast hm
    have hv : 2 ^ 52 * (2 : ℚ) ^ y.exponent ≤ y.value := mul_le_mul_of_nonneg_right hm' hup.le
    linarith
  · have hsmall : (2 : ℚ) ^ y.exponent ≤ 1 := by
      rw [he]; exact zpow_le_one_of_nonpos₀ (by norm_num) (by norm_num)
    linarith [f.value_nonneg]

/-- A product by a power of ten is read when twice the error of a rounding leaves it below the overflow. -/
theorem approximate_isSome {negative : Bool} {s : Nat} {e : Int} (hs : 0 < s) (hs' : s < 2 ^ 64)
    (h : (s : ℚ) * 10 ^ e * (2 ^ 53 * 2 ^ 53) < overflow * ((2 ^ 53 - 1) * (2 ^ 53 - 1))) :
    (approximate negative s e).isSome := by
  have hs1 : (1 : ℚ) ≤ s := by exact_mod_cast hs
  have hs2 : (s : ℚ) < 2 * 10 ^ 19 := lt_trans (b := 2 ^ 64) (by exact_mod_cast hs') (by norm_num)
  have hov := lt_trans (Binary64.ten_zpow_pos 308) lt_overflow
  have hten := Binary64.ten_zpow_pos e
  have hlt : (10 : ℚ) ^ e < overflow := by nlinarith [mul_le_mul_of_nonneg_right hs1 hten.le]
  have hq : ((s : Nat) : ℚ) / (1 : Nat) = s := by rw [Nat.cast_one, div_one]
  obtain ⟨f, hf⟩ := Binary64.ofRatio_isSome negative s Nat.one_pos
    (by rw [hq]; exact small_lt_overflow (by linarith))
  have hfv := Binary64.value_mul_le hf Nat.one_pos (by rw [hq]; exact hs1)
  have hfl := Binary64.half_le_value hf Nat.one_pos (by rw [hq]; exact hs1)
  rw [hq] at hfv
  have hfsmall : f.value ≤ 10 ^ 20 := by linarith
  have hfz : f.isZero = false := by
    cases hz : f.isZero with
    | false => rfl
    | true => rw [(Binary64.isZero_iff f).mp hz] at hfl; norm_num at hfl
  unfold approximate Binary64.ofNat
  rw [hf, Option.bind_some]
  unfold scale
  rw [if_neg (by simp [hfz])]
  split
  · exfalso
    have : (10 : ℚ) ^ (309 : Int) ≤ 10 ^ e := zpow_le_zpow_right₀ (by norm_num) (by omega)
    linarith [overflow_le]
  split
  · rename_i h0
    have hcast : ((e.toNat : Nat) : Int) = e := Int.toNat_of_nonneg h0
    obtain ⟨g, hg, hgl, hgv⟩ := tenTo_spec (e := e.toNat) (by rw [hcast]; exact hlt)
    rw [hg, Option.bind_some]
    rw [hcast] at hgv
    apply mul_isSome
    have hprod := mul_le_mul hfv hgv (by nlinarith) (by positivity)
    nlinarith
  have h308 : ∀ k : Nat, k ≤ 308 → (10 : ℚ) ^ (k : Int) < overflow := fun k hk =>
    lt_of_le_of_lt (zpow_le_zpow_right₀ (by norm_num) (by omega)) lt_overflow
  split
  · obtain ⟨g, hg, hgl, -⟩ := tenTo_spec (h308 (-e).toNat (by omega))
    rw [hg, Option.bind_some]
    obtain ⟨y, hy, -⟩ := div_spec hgl (f := f) (by linarith)
    rw [hy]; rfl
  · obtain ⟨g, hg, hgl, -⟩ := tenTo_spec (h308 308 (le_refl _))
    obtain ⟨y, hy, hyv⟩ := div_spec hgl (f := f) (by linarith)
    rw [hg, Option.bind_some, hy]
    simp only [Option.bind_eq_bind, Option.bind_some]
    split
    · rfl
    split
    · obtain ⟨g', hg', hgl', -⟩ := tenTo_spec (h308 (-(e + 308)).toNat (by omega))
      rw [hg', Option.bind_some]
      obtain ⟨y', hy', -⟩ := div_spec hgl' (f := y) (by linarith)
      rw [hy']; rfl
    · rfl

/-! ## The numeral of an integer -/

theorem isDigits_toDigits (n : Nat) : IsDigits (Nat.toDigits 10 n) :=
  ⟨Nat.toDigits_ne_nil, fun _ hc => Nat.isDigit_of_mem_toDigits (by decide) (by decide) hc⟩

/-- Only zero is written with a leading zero. -/
theorem toDigits_head {n : Nat} (hn : 0 < n) : ∀ cs, Nat.toDigits 10 n ≠ '0' :: cs := by
  induction n using Nat.strongRecOn with
  | ind n ih =>
    intro cs h
    by_cases hlt : n < 10
    · rw [Nat.toDigits_of_lt_base hlt] at h
      simp only [List.cons.injEq] at h
      exact absurd (Nat.digitChar_eq_zero.mp h.1) (by omega)
    · rw [Nat.toDigits_of_base_le (by decide) (by omega)] at h
      cases hd : Nat.toDigits 10 (n / 10) with
      | nil => exact Nat.toDigits_ne_nil hd
      | cons c rest =>
        rw [hd] at h
        simp only [List.cons_append, List.cons.injEq] at h
        obtain ⟨rfl, -⟩ := h
        exact ih (n / 10) (by omega) (by omega) rest hd

theorem noLead_toDigits (n : Nat) : NoLead (Nat.toDigits 10 n) := by
  intro c cs h
  rcases Nat.eq_zero_or_pos n with rfl | hn
  · simp at h
  · exact toDigits_head hn _ h

def ofInteger : Int → Numeral
  | .ofNat n => ⟨false, Nat.toDigits 10 n, none, none⟩
  | .negSucc n => ⟨true, Nat.toDigits 10 (n + 1), none, none⟩

theorem ofInteger_spelt (i : Int) : (ofInteger i).Spelt := by
  cases i with
  | ofNat n => exact ⟨isDigits_toDigits n, noLead_toDigits n, nofun, nofun⟩
  | negSucc n => exact ⟨isDigits_toDigits _, noLead_toDigits _, nofun, nofun⟩

theorem ofInteger_chars (i : Int) : (ofInteger i).chars = Number.integerText i := by
  cases i <;> simp [ofInteger, chars, signChars, fractionChars, exponentChars, Number.integerText]

theorem ofInt?_eq (i : Int) (h : -2 ^ 63 ≤ i ∧ i < 2 ^ 64) : Number.ofInt? i = some (.int i h) := dif_pos h

theorem ofInteger_toNumber? (i : Int) (h : -2 ^ 63 ≤ i ∧ i < 2 ^ 64) :
    (ofInteger i).toNumber? = some (.int i h) := by
  cases i with
  | ofNat n =>
    have hn : n < 2 ^ 64 := by have := h.2; simp only [Int.ofNat_eq_natCast] at this; omega
    apply toNumber?_integer
    · rw [Nat.ofDigitChars_ten_toDigits]; exact hn
    · rw [Nat.ofDigitChars_ten_toDigits]
      unfold integer?
      rw [if_neg Bool.false_ne_true, ← Int.ofNat_eq_natCast]
      exact ofInt?_eq (Int.ofNat n) h
  | negSucc n =>
    have hn : n + 1 < 2 ^ 64 := by have := h.1; omega
    apply toNumber?_integer
    · rw [Nat.ofDigitChars_ten_toDigits]; exact hn
    · rw [Nat.ofDigitChars_ten_toDigits]
      unfold integer?
      rw [if_pos rfl, if_neg (Nat.succ_ne_zero n), Int.neg_ofNat_succ]
      exact ofInt?_eq (Int.negSucc n) h

/-! ## The numeral of a float -/

/-- A numeral spells `cs` and has the digits `d` with `k` zeros behind them. -/
structure Spells (n : Numeral) (cs : List Char) (d : Nat) (e : Int) (k : Nat) : Prop where
  spelt : n.Spelt
  positive : n.negative = false
  chars : n.chars = cs
  significand : n.significand = 10 ^ k * d
  scale : n.scaleOf = e - k

theorem exponentText_spells (e : Int) :
    ∃ x, exponentChars (some x) = 'e' :: Binary64.exponentText floatLayout e ∧ IsDigits x.2 ∧ exponentOf (some x) = e := by
  by_cases h : 0 ≤ e
  · refine ⟨(false, Nat.toDigits 10 e.toNat), ?_, isDigits_toDigits _, ?_⟩
    · simp [exponentChars, Binary64.exponentText, h, floatLayout]
    · simp only [exponentOf, natOf_eq, Nat.ofDigitChars_ten_toDigits]; omega
  · refine ⟨(true, Nat.toDigits 10 (-e).toNat), ?_, isDigits_toDigits _, ?_⟩
    · simp [exponentChars, Binary64.exponentText, h]
    · simp only [exponentOf, natOf_eq, Nat.ofDigitChars_ten_toDigits]; omega

section LayOut

variable {ds : List Char} (hd : IsDigits ds) (hz : ∀ cs, ds ≠ '0' :: cs)

include hd hz

theorem whole_spells (z : Nat) : Spells ⟨false, ds ++ List.replicate z '0', some ['0'], none⟩
    (ds ++ List.replicate z '0' ++ ['.', '0']) (Nat.ofDigitChars 10 ds 0) z (z + 1) where
  spelt := by
    refine ⟨⟨by simp [hd.1], fun c hc => ?_⟩, fun c cs h => ?_, fun f h => ?_, nofun⟩
    · rcases List.mem_append.mp hc with hc | hc
      · exact hd.2 c hc
      · rw [List.eq_of_mem_replicate hc]; rfl
    · rcases ds with _ | ⟨a, as⟩
      · exact hd.1 rfl
      · simp only [List.cons_append, List.cons.injEq] at h
        exact hz as (by rw [h.1])
    · cases h
      exact ⟨nofun, fun c hc => by rw [List.mem_singleton.mp hc]; rfl⟩
  positive := rfl
  chars := by simp [Numeral.chars, signChars, fractionChars, exponentChars]
  significand := by
    simp only [Numeral.significand, Option.getD_some, Nat.ofDigitChars_append, Nat.ofDigitChars_replicate_zero,
      Nat.ofDigitChars_cons, Nat.ofDigitChars_nil, Nat.sub_self, Nat.add_zero]
    rw [Nat.pow_succ]
    ring
  scale := by simp [scaleOf, exponentOf]

theorem split_spells {p : Nat} (hp : 0 < p) (hlt : p < ds.length) : Spells ⟨false, ds.take p, some (ds.drop p), none⟩
    (ds.take p ++ '.' :: ds.drop p) (Nat.ofDigitChars 10 ds 0) (p - ds.length) 0 where
  spelt := by
    refine ⟨⟨?_, fun c hc => hd.2 c (List.mem_of_mem_take hc)⟩, fun c cs h => ?_, fun f h => ?_, nofun⟩
    · intro h
      have := congrArg List.length h
      simp only [List.length_take, List.length_nil] at this
      omega
    · rcases ds with _ | ⟨a, as⟩
      · exact hd.1 rfl
      · obtain ⟨q, rfl⟩ : ∃ q, p = q + 1 := ⟨p - 1, by omega⟩
        simp only [List.take_succ_cons, List.cons.injEq] at h
        exact hz as (by rw [h.1])
    · cases h
      refine ⟨?_, fun c hc => hd.2 c (List.mem_of_mem_drop hc)⟩
      intro h
      have := congrArg List.length h
      simp only [List.length_drop, List.length_nil] at this
      omega
  positive := rfl
  chars := by simp [Numeral.chars, signChars, fractionChars, exponentChars]
  significand := by simp [Numeral.significand]
  scale := by simp only [scaleOf, exponentOf, Option.getD_some, List.length_drop]; omega

omit hz in
theorem zeros_spells (z : Nat) : Spells ⟨false, ['0'], some (List.replicate z '0' ++ ds), none⟩
    ('0' :: '.' :: List.replicate z '0' ++ ds) (Nat.ofDigitChars 10 ds 0) (-z - ds.length) 0 where
  spelt := by
    refine ⟨⟨nofun, fun c hc => by rw [List.mem_singleton.mp hc]; rfl⟩, nofun, fun f h => ?_, nofun⟩
    cases h
    refine ⟨by simp [hd.1], fun c hc => ?_⟩
    rcases List.mem_append.mp hc with hc | hc
    · rw [List.eq_of_mem_replicate hc]; rfl
    · exact hd.2 c hc
  positive := rfl
  chars := by simp [Numeral.chars, signChars, fractionChars, exponentChars]
  significand := by simp [Numeral.significand, Nat.ofDigitChars_append, Nat.ofDigitChars_cons]
  scale := by simp only [scaleOf, exponentOf, Option.getD_some, List.length_append, List.length_replicate]; omega

omit hz in
theorem pointed_spells (e : Int) : ∃ n, Spells n (Binary64.pointed ds ++ 'e' :: Binary64.exponentText floatLayout e)
    (Nat.ofDigitChars 10 ds 0) (e - (ds.length - 1 : Nat)) 0 := by
  obtain ⟨⟨s, xs⟩, hchars, hxd, hx⟩ := exponentText_spells e
  have hexp : ∀ t ys, some (s, xs) = some (t, ys) → IsDigits ys := by
    intro t ys h; cases h; exact hxd
  match ds, hd with
  | [], hd => exact absurd rfl hd.1
  | [c], hd =>
    refine ⟨⟨false, [c], none, some (s, xs)⟩, ⟨hd, nofun, nofun, hexp⟩, rfl, ?_, ?_, ?_⟩
    · simp [Numeral.chars, signChars, fractionChars, hchars, Binary64.pointed]
    · simp [Numeral.significand]
    · simp [scaleOf, hx]
  | c :: c' :: cs, hd =>
    refine ⟨⟨false, [c], some (c' :: cs), some (s, xs)⟩, ⟨⟨nofun, fun a ha => ?_⟩, nofun, fun f h => ?_, hexp⟩,
      rfl, ?_, ?_, ?_⟩
    · exact hd.2 a (by rw [List.mem_singleton.mp ha]; exact List.mem_cons_self)
    · cases h
      exact ⟨nofun, fun a ha => hd.2 a (List.mem_cons_of_mem _ ha)⟩
    · simp [Numeral.chars, signChars, fractionChars, hchars, Binary64.pointed]
    · simp [Numeral.significand]
    · simp [scaleOf, hx]

/-- The layout of a float spells its digits, with at most sixteen places and a closing zero. -/
theorem layOut_spells (place : Int) : ∃ n k, Spells n (Binary64.layOut floatLayout ds place)
    (Nat.ofDigitChars 10 ds 0) (place - ds.length) k ∧ (k = 0 ∨ ds.length + k ≤ 17) := by
  unfold Binary64.layOut
  dsimp only
  have hlen : 0 < ds.length := List.length_pos_iff.mpr hd.1
  split
  · rename_i hrange
    have hhigh : place ≤ 16 := hrange.2
    split
    · rename_i hsize
      have h := whole_spells hd hz (place - ds.length).toNat
      rw [Int.toNat_of_nonneg (by omega)] at h
      exact ⟨_, _, h, Or.inr (by omega)⟩
    split
    · have h := split_spells hd hz (p := place.toNat) (by omega) (by omega)
      rw [Int.toNat_of_nonneg (by omega)] at h
      exact ⟨_, _, h, Or.inl rfl⟩
    · have h := zeros_spells hd (-place).toNat
      rw [Int.toNat_of_nonneg (by omega), neg_neg] at h
      exact ⟨_, _, h, Or.inl rfl⟩
  · obtain ⟨n, h⟩ := pointed_spells hd (place - 1)
    rw [show place - 1 - (ds.length - 1 : Nat) = place - ds.length by omega] at h
    exact ⟨n, 0, h, Or.inl rfl⟩

end LayOut

/-! ## Numbers are read back -/

theorem signed_spelt {n : Numeral} (h : n.Spelt) (negative : Bool) : Spelt { n with negative } :=
  ⟨h.whole, h.noLead, h.fraction, h.exponent⟩

theorem signed_chars {n : Numeral} (h : n.negative = false) (negative : Bool) :
    chars { n with negative } = if negative then '-' :: n.chars else n.chars := by
  cases negative <;> simp [chars, signChars, h]

/-- The three largest magnitudes, whose decimals come closest to the overflow. -/
def Top (x : Binary64) : Prop := x.exponent = 971 ∧ 2 ^ 53 - 3 ≤ x.mantissa

/-- Below them, a decimal at most a unit higher is read. -/
theorem near_lt_overflow {x : Binary64} (h : ¬ Top x) {q : ℚ} (hq : q ≤ x.value + 2 ^ x.exponent) :
    q * (2 ^ 53 * 2 ^ 53) < overflow * ((2 ^ 53 - 1) * (2 ^ 53 - 1)) := by
  have h971 : (2 : ℚ) ^ (971 : Int) = 2 ^ (970 : Int) * 2 := by rw [← zpow_add_one₀ (by norm_num)]; rfl
  have h970 : x.exponent ≠ 971 → (2 : ℚ) ^ x.exponent ≤ 2 ^ (970 : Int) := fun he =>
    zpow_le_zpow_right₀ (by norm_num) (by have := x.canonical.2.2.1; omega)
  have hu := Binary64.two_zpow_pos 970
  have hx := Binary64.two_zpow_pos x.exponent
  unfold overflow
  generalize (2 : ℚ) ^ (970 : Int) = t at h971 h970 hu ⊢
  have hbound : q ≤ (2 ^ 54 - 6) * t := by
    unfold Binary64.value at hq
    by_cases he : x.exponent = 971
    · have hm : x.mantissa + 1 ≤ 2 ^ 53 - 3 := by
        have hlt : ¬ 2 ^ 53 - 3 ≤ x.mantissa := fun hm => h ⟨he, hm⟩
        omega
      have hm' : (x.mantissa : ℚ) + 1 ≤ 2 ^ 53 - 3 := by
        have : ((x.mantissa + 1 : Nat) : ℚ) ≤ ((2 ^ 53 - 3 : Nat) : ℚ) := Nat.cast_le.mpr hm
        norm_num at this ⊢
        linarith
      rw [he, h971] at hq
      linarith [mul_le_mul_of_nonneg_right hm' hu.le]
    · have hm : (x.mantissa : ℚ) ≤ 2 ^ 53 := by exact_mod_cast x.canonical.1.le
      linarith [mul_le_mul_of_nonneg_right hm hx.le, h970 he]
  clear h971
  linarith

theorem top_reads {x : Binary64} (h : Top x) : (Lexer.scalarOfWord? (x.render floatLayout)).isSome := by
  have third : ∀ b, (Lexer.scalarOfWord? (Binary64.render floatLayout ⟨b, 2 ^ 53 - 3, 971, by decide⟩)).isSome := by
    decide +kernel
  have second : ∀ b, (Lexer.scalarOfWord? (Binary64.render floatLayout ⟨b, 2 ^ 53 - 2, 971, by decide⟩)).isSome := by
    decide +kernel
  have first : ∀ b, (Lexer.scalarOfWord? (Binary64.render floatLayout ⟨b, 2 ^ 53 - 1, 971, by decide⟩)).isSome := by
    decide +kernel
  obtain ⟨negative, mantissa, exponent, canonical⟩ := x
  obtain ⟨he, hm⟩ := h
  dsimp only at he hm
  have hlt := canonical.1
  subst he
  obtain rfl | rfl | rfl : mantissa = 2 ^ 53 - 3 ∨ mantissa = 2 ^ 53 - 2 ∨ mantissa = 2 ^ 53 - 1 := by omega
  · exact third negative
  · exact second negative
  · exact first negative

/-- Numeral text is taken for a number and nothing else. -/
theorem scalarOfWord?_chars {n : Numeral} (h : n.Spelt) :
    Lexer.scalarOfWord? n.chars = n.toNumber?.map .num := by
  obtain ⟨hne, hdig⟩ := h.whole
  have hhead : ∀ c cs, n.chars = c :: cs → c.isDigit = true ∨ c = '-' := by
    intro c cs hc
    cases hn : n.negative with
    | true =>
      simp only [chars, signChars, hn, if_true, List.cons_append, List.cons.injEq] at hc
      exact Or.inr hc.1.symm
    | false =>
      cases hw : n.whole with
      | nil => exact absurd hw hne
      | cons a as =>
        simp only [chars, signChars, hn, hw, Bool.false_eq_true, if_false, List.nil_append, List.cons_append,
          List.cons.injEq] at hc
        exact Or.inl (hc.1 ▸ hdig a (by rw [hw]; exact List.mem_cons_self))
  have hword : ∀ c cs, c.isDigit = false → c ≠ '-' → n.chars ≠ c :: cs := by
    intro c cs hd hm e
    rcases hhead c cs e with h | h
    · rw [hd] at h; cases h
    · exact hm h
  unfold Lexer.scalarOfWord?
  rw [if_neg (hword _ _ rfl (by decide)), if_neg (hword _ _ rfl (by decide)), if_neg (hword _ _ rfl (by decide)),
    ofWord?_chars h, Option.bind_some]

theorem int_reads (i : Int) (h : -2 ^ 63 ≤ i ∧ i < 2 ^ 64) :
    Lexer.scalarOfWord? (Number.integerText i) = some (.num (.int i h)) := by
  rw [← ofInteger_chars, scalarOfWord?_chars (ofInteger_spelt i), ofInteger_toNumber? i h]
  rfl

theorem float_numeral {x : Binary64} (hx : x.isZero = false) :
    ∃ n : Numeral, n.Spelt ∧ x.render floatLayout = n.chars ∧ n.negative = x.negative ∧ 0 < n.significand ∧
      n.significand < 2 ^ 64 ∧ (n.significand : ℚ) * 10 ^ n.scaleOf ≤ x.value + 2 ^ x.exponent := by
  have hnear := Binary64.shortest_near hx
  have hdigits := isDigits_toDigits x.shortest.digits
  obtain ⟨n, k, hn, hk⟩ := layOut_spells hdigits (toDigits_head hnear.positive)
    ((Nat.toDigits 10 x.shortest.digits).length + x.shortest.exponent)
  have hsig := hn.significand
  rw [Nat.ofDigitChars_ten_toDigits] at hsig
  have hscale : n.scaleOf = x.shortest.exponent - k := by rw [hn.scale]; omega
  refine ⟨{ n with negative := x.negative }, signed_spelt hn.spelt _, ?_, rfl, ?_, ?_, ?_⟩
  · rw [signed_chars hn.positive, hn.chars]
    unfold Binary64.render
    rw [hx]
    rfl
  · show 0 < n.significand
    rw [hsig]
    exact Nat.mul_pos (Nat.pow_pos (by decide)) hnear.positive
  · show n.significand < 2 ^ 64
    rw [hsig]
    have hlt := Binary64.lt_pow_digitCount x.shortest.digits
    rcases hk with rfl | hk
    · have := hnear.short
      omega
    · have hpow : 10 ^ (k + Binary64.digitCount x.shortest.digits) ≤ 10 ^ 17 :=
        Nat.pow_le_pow_right (by decide) (by unfold Binary64.digitCount; omega)
      rw [Nat.pow_add] at hpow
      have hmul := Nat.mul_lt_mul_of_pos_left hlt (Nat.pow_pos (n := k) (by decide : 0 < 10))
      omega
  · show (n.significand : ℚ) * 10 ^ n.scaleOf ≤ _
    refine le_trans (le_of_eq ?_) hnear.value_le
    rw [hsig, hscale, Nat.cast_mul, Nat.cast_pow, zpow_sub₀ (by norm_num), zpow_natCast]
    unfold Binary64.Decimal.value
    push_cast
    field_simp

theorem zero_numeral (negative : Bool) : ∃ n : Numeral, n.Spelt ∧ (Binary64.zero negative).render floatLayout = n.chars ∧
    n.toNumber? = some (.float (Binary64.zero negative)) := by
  have hdigits : IsDigits ['0'] := ⟨nofun, fun c hc => by rw [List.mem_singleton.mp hc]; rfl⟩
  refine ⟨⟨negative, ['0'], some ['0'], none⟩, ⟨hdigits, nofun, fun ds h => by cases h; exact hdigits, nofun⟩, ?_, ?_⟩
  · cases negative <;> rfl
  · cases negative <;> decide +kernel

/-- Every number is written as a numeral, and the numeral is read as a number. -/
theorem number_numeral (x : Number) :
    ∃ n : Numeral, n.Spelt ∧ x.render floatLayout = n.chars ∧ ∃ v, n.toNumber? = some v := by
  cases x with
  | int i h => exact ⟨ofInteger i, ofInteger_spelt i, (ofInteger_chars i).symm, _, ofInteger_toNumber? i h⟩
  | float x =>
    cases hx : x.isZero with
    | true =>
      have hzero : x = Binary64.zero x.negative := by
        obtain ⟨negative, mantissa, exponent, canonical⟩ := x
        have hm : mantissa = 0 := by simpa [Binary64.isZero] using hx
        subst hm
        have he : exponent = -1074 := canonical.2.2.2.resolve_left (by decide)
        subst he
        rfl
      obtain ⟨n, hs, hr, hv⟩ := zero_numeral x.negative
      rw [hzero]
      exact ⟨n, hs, hr, _, hv⟩
    | false =>
      obtain ⟨n, hs, hr, -, hpos, hlt, hv⟩ := float_numeral hx
      refine ⟨n, hs, hr, Option.isSome_iff_exists.mp ?_⟩
      by_cases ht : Top x
      · have htop := top_reads ht
        rwa [hr, scalarOfWord?_chars hs, Option.isSome_map] at htop
      · exact toNumber?_isSome hlt (approximate_isSome hpos hlt (near_lt_overflow ht hv))

theorem number_reads (x : Number) : ∃ v, Lexer.scalarOfWord? (x.render floatLayout) = some (.num v) := by
  obtain ⟨n, hs, hr, v, hv⟩ := number_numeral x
  exact ⟨v, by rw [hr, scalarOfWord?_chars hs, hv]; rfl⟩

theorem isWordChar_of_isDigit {c : Char} (h : c.isDigit = true) : Lexer.isWordChar c = true := by
  simp [Lexer.isWordChar, Char.isAlphanum, h]

/-- A numeral is one word. -/
theorem chars_word {n : Numeral} (h : n.Spelt) : n.chars ≠ [] ∧ ∀ c ∈ n.chars, Lexer.isWordChar c = true := by
  refine ⟨fun e => ?_, fun c hc => ?_⟩
  · simp only [chars, List.append_eq_nil_iff] at e
    exact h.whole.1 e.2.1
  simp only [chars, List.mem_append] at hc
  rcases hc with hc | hc | hc | hc
  · unfold signChars at hc
    split at hc
    · rw [List.mem_singleton.mp hc]; rfl
    · cases hc
  · exact isWordChar_of_isDigit (h.whole.2 c hc)
  · cases hf : n.fraction with
    | none => rw [hf] at hc; cases hc
    | some ds =>
      rw [hf] at hc
      rcases List.mem_cons.mp hc with rfl | hc
      · rfl
      · exact isWordChar_of_isDigit ((h.fraction ds hf).2 c hc)
  · rcases he : n.exponent with _ | ⟨s, ds⟩
    · rw [he] at hc; cases hc
    · have hds := (h.exponent s ds he).2
      rw [he] at hc
      cases s with
      | true =>
        simp only [exponentChars, List.mem_cons] at hc
        rcases hc with rfl | rfl | hc
        · rfl
        · rfl
        · exact isWordChar_of_isDigit (hds c hc)
      | false =>
        simp only [exponentChars, List.mem_cons] at hc
        rcases hc with rfl | rfl | hc
        · rfl
        · rfl
        · exact isWordChar_of_isDigit (hds c hc)

theorem number_word (x : Number) :
    x.render floatLayout ≠ [] ∧ ∀ c ∈ x.render floatLayout, Lexer.isWordChar c = true := by
  obtain ⟨n, hs, hr, -⟩ := number_numeral x
  rw [hr]
  exact chars_word hs

end Numeral

end DocExpand.Json

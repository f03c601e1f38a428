/-
  DocExpand.Proofs.Base64 — base64 text gives its bytes back.

  The other side of `encode` has its alphabet in a table and is strict: groups of four digits, of
  which the last may end in padding, and no bit set that belongs to no byte (`WellFormed`). It
  takes such text only (`wellFormed_of_decode`) and gets the bytes back that were encoded
  (`decode_encode`); three bytes or a part of them take four characters (`length_encode`).
-/

import DocExpand.Base64

namespace DocExpand.Base64

/-- The digits in the order of their values. -/
def alphabet : List Char := "ABCDEFGHIJKLMNOPQRSTUVWXYZabcdefghijklmnopqrstuvwxyz0123456789+/".toList

def value? (c : Char) : Option Nat := alphabet.idxOf? c

/-- Four digits, again and again; at the end two or three digits and padding, where the last digit has no bit that the
    bytes do not use. -/
inductive WellFormed : List Char → Prop
  | nil : WellFormed []
  | one {a b : Char} {x : Nat} : a ∈ alphabet → value? b = some x → 16 ∣ x → WellFormed [a, b, '=', '=']
  | two {a b c : Char} {x : Nat} : a ∈ alphabet → b ∈ alphabet → value? c = some x → 4 ∣ x → WellFormed [a, b, c, '=']
  | group {a b c d : Char} {rest : List Char} : a ∈ alphabet → b ∈ alphabet → c ∈ alphabet → d ∈ alphabet →
    WellFormed rest → WellFormed (a :: b :: c :: d :: rest)

/-- The lowest byte of a number. -/
def byte (n : Nat) : UInt8 := UInt8.ofNat (n % 256)

def twoBytes (n : Nat) : List UInt8 := [byte (n / 256), byte n]

def threeBytes (n : Nat) : List UInt8 := byte (n / 65536) :: twoBytes n

/-- The bytes of a well-formed text. -/
def decode : List Char → Option (List UInt8)
  | [] => some []
  | a :: b :: c :: d :: rest =>
    match value? a, value? b, value? c, value? d with
    | some w, some x, some y, some z => (decode rest).map (threeBytes (w * 262144 + x * 4096 + y * 64 + z) ++ ·)
    | some w, some x, some y, none =>
      if d = '=' ∧ rest = [] ∧ y % 4 = 0 then some (twoBytes ((w * 4096 + x * 64 + y) / 4)) else none
    | some w, some x, none, none =>
      if c = '=' ∧ d = '=' ∧ rest = [] ∧ x % 16 = 0 then some [byte ((w * 64 + x) / 16)] else none
    | _, _, _, _ => none
  | _ => none

/-! ## Digits -/

variable {n : Nat}

theorem value?_digit (h : n < 64) : value? (digit n) = some n := by
  revert n
  decide +kernel

theorem mem_of_value? {c : Char} (h : value? c = some n) : c ∈ alphabet := by
  refine Classical.byContradiction fun hc => ?_
  rw [value?, List.idxOf?_eq_none_iff.mpr hc] at h
  cases h

theorem value?_padding : value? '=' = none := by decide +kernel

theorem byte_of_mod {a : UInt8} (h : n % 256 = a.toNat) : byte n = a := by
  rw [byte, h, UInt8.ofNat_toNat]

/-! ## Groups -/

/-- Four digits are a number of 24 bits. -/
theorem decode_group (h : n < 16777216) (rest : List Char) :
    decode (digit (n / 262144) :: digit (n / 4096 % 64) :: digit (n / 64 % 64) :: digit (n % 64) :: rest) =
      (decode rest).map (threeBytes n ++ ·) := by
  have hsum : n / 262144 * 262144 + n / 4096 % 64 * 4096 + n / 64 % 64 * 64 + n % 64 = n := by omega
  rw [decode, value?_digit (by omega), value?_digit (by omega), value?_digit (by omega), value?_digit (by omega)]
  simp only [hsum]

theorem decode_two (h : n < 262144) (hn : n % 4 = 0) :
    decode [digit (n / 4096), digit (n / 64 % 64), digit (n % 64), '='] = some (twoBytes (n / 4)) := by
  have hsum : n / 4096 * 4096 + n / 64 % 64 * 64 + n % 64 = n := by omega
  have hlast : n % 64 % 4 = 0 := by omega
  rw [decode, value?_digit (by omega), value?_digit (by omega), value?_digit (by omega), value?_padding]
  simp only [hsum, hlast, and_self, if_true]

theorem decode_one (h : n < 4096) (hn : n % 16 = 0) :
    decode [digit (n / 64), digit (n % 64), '=', '='] = some [byte (n / 16)] := by
  have hsum : n / 64 * 64 + n % 64 = n := by omega
  have hlast : n % 64 % 16 = 0 := by omega
  rw [decode, value?_digit (by omega), value?_digit (by omega), value?_padding]
  simp only [hsum, hlast, and_self, if_true]

/-! ## Texts -/

theorem decode_encode (bytes : List UInt8) : decode (encode bytes) = some bytes := by
  fun_induction encode bytes with
  | case1 => rfl
  | case2 a n =>
    have ha := a.toNat_lt
    rw [decode_one (by omega) (by omega), byte_of_mod (a := a) (by omega)]
  | case3 a b n =>
    have ha := a.toNat_lt
    have hb := b.toNat_lt
    rw [decode_two (by omega) (by omega), twoBytes, byte_of_mod (a := a) (by omega), byte_of_mod (a := b) (by omega)]
  | case4 a b c rest n ih =>
    have ha := a.toNat_lt
    have hb := b.toNat_lt
    have hc := c.toNat_lt
    rw [decode_group (by omega), ih, Option.map_some, threeBytes, twoBytes, byte_of_mod (a := a) (by omega),
      byte_of_mod (a := b) (by omega), byte_of_mod (a := c) (by omega)]
    rfl

/-- Nothing but well-formed text has bytes. -/
theorem wellFormed_of_decode {cs : List Char} {bytes : List UInt8} (h : decode cs = some bytes) : WellFormed cs := by
  fun_induction decode cs generalizing bytes with
  | case1 => exact .nil
  | case2 a b c d rest w x y z hd hc hb ha ih =>
    obtain ⟨tail, htail, -⟩ := Option.map_eq_some_iff.mp h
    exact .group (mem_of_value? ha) (mem_of_value? hb) (mem_of_value? hc) (mem_of_value? hd) (ih htail)
  | case3 a b c d rest w x y hd hc hb ha hpad =>
    obtain ⟨rfl, rfl, hy⟩ := hpad
    exact .two (mem_of_value? ha) (mem_of_value? hb) hc (Nat.dvd_of_mod_eq_zero hy)
  | case5 a b c d rest w x hd hc hb ha hpad =>
    obtain ⟨rfl, rfl, rfl, hx⟩ := hpad
    exact .one (mem_of_value? ha) hb (Nat.dvd_of_mod_eq_zero hx)
  | case4 | case6 | case7 | case8 => cases h

theorem length_encode (bytes : List UInt8) : (encode bytes).length = 4 * ((bytes.length + 2) / 3) := by
  fun_induction encode bytes with
  | case1 => rfl
  | case2 | case3 => simp
  | case4 a b c rest n ih =>
    simp only [List.length_cons]
    omega

end DocExpand.Base64

/-
  DocExpand.Proofs.Locator.Standard — pointers as RFC 6901 has them, and as they are read.

  The standard writes a pointer as tokens, each after a slash, in which a tilde stands in `~0` and
  `~1` only, and enters an array by `0` or by digits that do not open with `0`. Its pointers into a
  document are the pointers of the places of the document, and no others (`addresses_iff_walk`).

  Reading is laxer. Any text that opens with a slash is a pointer, with a stray tilde as it
  stands, and an array takes every numeral, so that `/1`, `/01` and `/+1` name one item.
  `ofPointer?_exact` says by how much: a pointer leads where the standard's spelling of its normal
  form leads, and it is a pointer of the standard if its tildes are escapes and it enters arrays
  by positions as the standard writes them.
-/

import DocExpand.Proofs.Json.Numerals
import DocExpand.Proofs.Locator.Normal
import DocExpand.Proofs.Locator.Pointer

namespace DocExpand

namespace Standard

/-! ## The standard -/

/-- A token: no slash, and a tilde only in front of `0` or `1`. -/
inductive Token : List Char → Prop
  | nil : Token []
  | unescaped {c : Char} {token : List Char} (hslash : c ≠ '/') (htilde : c ≠ '~') (rest : Token token) :
      Token (c :: token)
  | escaped {c : Char} {token : List Char} (hc : c = '0' ∨ c = '1') (rest : Token token) :
      Token ('~' :: c :: token)

/-- The token of an item of an array: `0`, or digits that do not open with `0`. -/
def Position (token : List Char) : Prop := Json.Numeral.IsDigits token ∧ Json.Numeral.NoLead token

/-- A pointer is its tokens, each after a slash. -/
def Spelt (p : String) (tokens : List (List Char)) : Prop :=
  p.toList = tokens.flatMap (fun token => '/' :: token) ∧ ∀ token ∈ tokens, Token token

def WellFormed (p : String) : Prop := ∃ tokens, Spelt p tokens

/-- The evaluation of tokens against a document, from the root on. -/
inductive Evaluates : List (List Char) → Json → Json → Prop
  | done (d : Json) : Evaluates [] d d
  | member {token : List Char} {tokens : List (List Char)} {ms : Members Json} {c n : Json}
      (hc : Members.get? (String.ofList (decode token)) ms = some c) (rest : Evaluates tokens c n) :
      Evaluates (token :: tokens) (.obj ms) n
  | item {token : List Char} {tokens : List (List Char)} {items : List Json} {c n : Json}
      (htoken : Position token) (hc : items[Nat.ofDigitChars 10 token 0]? = some c) (rest : Evaluates tokens c n) :
      Evaluates (token :: tokens) (.arr items) n

/-- The node of a document that a pointer addresses. -/
def Addresses (p : String) (d n : Json) : Prop := ∃ tokens, Spelt p tokens ∧ Evaluates tokens d n

/-! ## Tokens -/

open Segment (escape unescape)

variable {token : List Char} {c : Char} {n : Nat}

theorem token_escape (text : List Char) : Token (text.flatMap escape) := by
  induction text with
  | nil => exact .nil
  | cons c text ih =>
    rw [List.flatMap_cons]
    unfold escape
    split
    · exact .escaped (.inl rfl) ih
    · split
      · exact .escaped (.inr rfl) ih
      · rename_i htilde hslash
        exact .unescaped hslash htilde ih

/-- A token is the escaped form of its text. -/
theorem Token.escape_unescape (h : Token token) : (unescape token).flatMap escape = token := by
  induction h with
  | nil => rfl
  | unescaped hslash htilde _ ih =>
    rw [Segment.unescape_cons htilde, List.flatMap_cons, ih, escape, if_neg htilde, if_neg hslash]
    rfl
  | escaped hc _ ih =>
    rcases hc with rfl | rfl
    · exact congrArg ('~' :: '0' :: ·) ih
    · exact congrArg ('~' :: '1' :: ·) ih

theorem Spelt.decode_eq {p : String} {tokens : List (List Char)} (h : Spelt p tokens) :
    p = Locator.pointer (tokens.map fun token => .key (String.ofList (decode token))) := by
  rw [← String.toList_inj, h.1, Locator.pointer, String.toList_ofList, List.flatMap_map]
  refine List.flatMap_congr fun token htoken => ?_
  rw [Segment.escaped, Segment.text, String.toList_ofList, decode_eq_unescape, (h.2 token htoken).escape_unescape]

theorem spelt_pointer (l : Locator) : Spelt l.pointer (l.map Segment.escaped) := by
  constructor
  · rw [Locator.pointer, String.toList_ofList, List.flatMap_map]
  · intro token htoken
    obtain ⟨s, -, rfl⟩ := List.mem_map.mp htoken
    exact token_escape _

/-- The pointers of the standard are the pointers of locators. -/
theorem wellFormed_iff {p : String} : WellFormed p ↔ ∃ l : Locator, l.pointer = p :=
  ⟨fun ⟨_, h⟩ => ⟨_, h.decode_eq.symm⟩, fun ⟨l, h⟩ => h ▸ ⟨_, spelt_pointer l⟩⟩

/-! ## Positions -/

theorem exists_digitChar (h : c.isDigit = true) : ∃ k < 10, k.digitChar = c := by
  obtain ⟨hlo, hhi⟩ := Char.isDigit_iff_toNat.mp h
  change 48 ≤ c.toNat at hlo
  change c.toNat ≤ 57 at hhi
  have hk : c.toNat - 48 < 10 := by omega
  refine ⟨c.toNat - 48, hk, Char.toNat_inj.mp ?_⟩
  rw [Nat.toNat_digitChar_of_lt_ten hk]
  omega

/-- Digits behind the numeral of a number that is not zero make a numeral. -/
theorem toDigits_append {ds : List Char} {a : Nat} (ha : 0 < a) (hd : ∀ c ∈ ds, c.isDigit = true) :
    Nat.toDigits 10 a ++ ds = Nat.toDigits 10 (Nat.ofDigitChars 10 ds a) := by
  induction ds generalizing a with
  | nil => rw [List.append_nil, Nat.ofDigitChars_nil]
  | cons c ds ih =>
    obtain ⟨k, hk, rfl⟩ := exists_digitChar (hd c (List.mem_cons_self ..))
    have hstep : Nat.toDigits 10 a ++ [k.digitChar] = Nat.toDigits 10 (10 * a + k) := by
      rw [← Nat.toDigits_of_lt_base hk, Nat.toDigits_append_toDigits (by decide) ha hk]
    rw [Nat.ofDigitChars_cons_digitChar_of_lt_ten hk, ← ih (by omega) fun c hc => hd c (List.mem_cons_of_mem _ hc),
      ← hstep, List.append_assoc, List.singleton_append]

/-- A position is the numeral of its value. -/
theorem Position.toDigits_value (h : Position token) : Nat.toDigits 10 (Nat.ofDigitChars 10 token 0) = token := by
  obtain ⟨⟨hne, hdigits⟩, hlead⟩ := h
  cases token with
  | nil => exact absurd rfl hne
  | cons c ds =>
    obtain ⟨k, hk, rfl⟩ := exists_digitChar (hdigits c (List.mem_cons_self ..))
    rw [Nat.ofDigitChars_cons_digitChar_of_lt_ten hk, Nat.mul_zero, Nat.zero_add]
    rcases Nat.eq_zero_or_pos k with rfl | hpos
    · cases ds with
      | nil => rfl
      | cons d ds => exact absurd rfl (hlead d ds)
    · rw [← toDigits_append hpos fun c hc => hdigits c (List.mem_cons_of_mem _ hc), Nat.toDigits_of_lt_base hk,
        List.singleton_append]

theorem position_toDigits (n : Nat) : Position (Nat.toDigits 10 n) :=
  ⟨Json.Numeral.isDigits_toDigits n, Json.Numeral.noLead_toDigits n⟩

theorem escaped_index (n : Nat) : (Segment.index n).escaped = Nat.toDigits 10 n := by
  have hplain : ∀ c ∈ Nat.toDigits 10 n, escape c = [c] := by
    intro c hc
    have hdigit := Nat.isDigit_of_mem_toDigits (by decide) (by decide) hc
    have htilde : c ≠ '~' := by rintro rfl; cases hdigit
    have hslash : c ≠ '/' := by rintro rfl; cases hdigit
    rw [escape, if_neg htilde, if_neg hslash]
  rw [Segment.escaped, Segment.text, Nat.toList_repr, List.flatMap_congr hplain, List.flatMap_singleton']

/-! ## Evaluation -/

variable {p : String} {tokens : List (List Char)} {q l : Locator} {d m : Json}

/-- The place of a document is addressed by its pointer. -/
theorem evaluates_of_walk (h : Locator.walk q d = some m) : Evaluates (q.map Segment.escaped) d m := by
  induction q generalizing d with
  | nil =>
    cases h
    exact .done _
  | cons s q ih =>
    obtain ⟨c, hc, hw⟩ := Option.bind_eq_some_iff.mp h
    cases d with
    | null | bool _ | num _ | str _ => cases s <;> cases hc
    | obj ms =>
      cases s with
      | index n => cases hc
      | key k =>
        refine .member ?_ (ih hw)
        rw [decode_eq_unescape, Segment.escaped, Segment.unescape_escape, Segment.text, String.ofList_toList]
        exact hc
    | arr items =>
      cases s with
      | key k => cases hc
      | index n =>
        rw [List.map_cons, escaped_index]
        refine .item (position_toDigits n) ?_ (ih hw)
        rw [Nat.ofDigitChars_ten_toDigits]
        exact hc

/-- Tokens that lead to a node are the escaped steps of its place. -/
theorem Evaluates.exists_walk (h : Evaluates tokens d m) (ht : ∀ token ∈ tokens, Token token) :
    ∃ q, Locator.walk q d = some m ∧ q.map Segment.escaped = tokens := by
  induction h with
  | done d => exact ⟨[], rfl, rfl⟩
  | @member token tokens ms c n hc _ ih =>
    obtain ⟨q, hw, hq⟩ := ih fun t h => ht t (List.mem_cons_of_mem _ h)
    refine ⟨.key (String.ofList (decode token)) :: q, ?_, ?_⟩
    · rw [Locator.walk_cons, Json.step?, hc, Option.bind_some, hw]
    · rw [List.map_cons, hq, Segment.escaped, Segment.text, String.toList_ofList, decode_eq_unescape,
        (ht token (List.mem_cons_self ..)).escape_unescape]
  | @item token tokens items c n htoken hc _ ih =>
    obtain ⟨q, hw, hq⟩ := ih fun t h => ht t (List.mem_cons_of_mem _ h)
    refine ⟨.index (Nat.ofDigitChars 10 token 0) :: q, ?_, ?_⟩
    · rw [Locator.walk_cons, Json.step?, hc, Option.bind_some, hw]
    · rw [List.map_cons, hq, escaped_index, htoken.toDigits_value]

/-- The pointers of the standard into a document are the pointers of its places. -/
theorem addresses_iff_walk : Addresses p d m ↔ ∃ q, Locator.walk q d = some m ∧ q.pointer = p := by
  constructor
  · rintro ⟨tokens, hspelt, heval⟩
    obtain ⟨q, hw, rfl⟩ := heval.exists_walk hspelt.2
    refine ⟨q, hw, String.toList_inj.mp ?_⟩
    rw [hspelt.1, (spelt_pointer q).1]
  · rintro ⟨q, hw, rfl⟩
    exact ⟨_, spelt_pointer q, evaluates_of_walk hw⟩

end Standard

namespace Locator

open Standard

variable {p q : String} {k l x : Locator} {s : Segment} {d c n : Json} {items : List Json}

/-! ## Reading -/

/-- Refused is only a text that neither is empty nor opens with a slash. -/
theorem ofPointer?_eq_none_iff : ofPointer? p = none ↔ p ≠ "" ∧ p.toList.head? ≠ some '/' := by
  rw [ofPointer?, ← String.toList_inj.ne]
  cases p.toList with
  | nil => simp [ofPointerChars?]
  | cons c cs =>
    by_cases hc : c = '/'
    · simp [ofPointerChars?, hc]
    · simp [ofPointerChars?, hc]

/-- A pointer is read as keys. -/
theorem named_of_ofPointer? (h : ofPointer? p = some l) : l.named = l := by
  rw [ofPointer?] at h
  unfold ofPointerChars? at h
  split at h
  · cases h
    rfl
  · cases h
    rw [named, List.map_map]
    rfl
  · cases h

/-- What was read is written as it was exactly if it is a pointer of the standard. -/
theorem pointer_eq_iff_wellFormed (h : ofPointer? p = some l) : l.pointer = p ↔ WellFormed p := by
  refine ⟨fun hp => wellFormed_iff.mpr ⟨l, hp⟩, fun hp => ?_⟩
  obtain ⟨k, rfl⟩ := wellFormed_iff.mp hp
  rw [ofPointer?_pointer] at h
  rw [← Option.some.inj h, pointer_named]

/-! ## Leading to a node -/

/-- Every array on the way is entered by a position. -/
def Plain (l : Locator) (d : Json) : Prop :=
  ∀ a s b items, l = a ++ s :: b → resolve a d = some (.arr items) → Position s.text.toList

theorem plain_cons (h : d.child? s = some c) :
    Plain (s :: l) d ↔ (∀ items, d = .arr items → Position s.text.toList) ∧ Plain l c := by
  constructor
  · intro hl
    refine ⟨fun items hd => hl [] s l items rfl (congrArg some hd), fun a t b items hab ha => ?_⟩
    refine hl (s :: a) t b items (by rw [hab, List.cons_append]) ?_
    rw [resolve_cons, h, Option.bind_some, ha]
  · rintro ⟨hs, hl⟩ a t b items hab ha
    cases a with
    | nil =>
      obtain ⟨rfl, -⟩ := List.cons.inj hab
      exact hs items (Option.some.inj ha)
    | cons u a =>
      obtain ⟨rfl, htail⟩ := List.cons.inj hab
      rw [resolve_cons, h, Option.bind_some] at ha
      exact hl a t b items htail ha

end Locator

namespace Json

open Standard

variable {s : Segment} {d c : Json}

/-- A step read back from its text is the step. -/
theorem normalStep_named (h : d.step? s = some c) : d.normalStep s.named = s := by
  cases d with
  | null | bool _ | num _ | str _ => cases s <;> cases h
  | obj ms =>
    cases s with
    | key k => rfl
    | index n => cases h
  | arr items =>
    cases s with
    | key k => cases h
    | index n =>
      rw [normalStep, Segment.index?_named]
      rfl

/-- A step in its normal form has the text that it had, except where a numeral for an array is no position. -/
theorem text_normalStep (h : d.child? s = some c) :
    (d.normalStep s).text = s.text ↔ ∀ items, d = .arr items → Position s.text.toList := by
  cases d with
  | null | bool _ | num _ | str _ => cases h
  | obj ms => exact ⟨fun _ _ h => (nomatch h), fun _ => rfl⟩
  | arr items =>
    obtain ⟨i, hi, -⟩ := Option.bind_eq_some_iff.mp h
    have hnormal : ((arr items).normalStep s).text = i.repr := by
      rw [normalStep, hi]
      rfl
    rw [hnormal]
    constructor
    · rintro htext _ -
      rw [← htext, Nat.toList_repr]
      exact position_toDigits i
    · intro hpos
      have hread : Segment.numeral? s.text.toList = some i := (Segment.index?_named s).trans hi
      have hvalue := (hpos items rfl).toDigits_value
      rw [← hvalue, ← Nat.toList_repr, Segment.numeral?_repr, Option.some.injEq] at hread
      rw [← String.toList_inj, Nat.toList_repr, ← hread, hvalue]

end Json

namespace Locator

open Standard

variable {p q : String} {k l x : Locator} {d c n m : Json}

theorem named_normal_iff (h : resolve l d = some n) : (normal l d).named = l.named ↔ Plain l d := by
  induction l generalizing d with
  | nil => exact ⟨fun _ a s b _ hab => absurd hab.symm (by simp), fun _ => rfl⟩
  | cons s l ih =>
    obtain ⟨c, hc, hr⟩ := Option.bind_eq_some_iff.mp h
    rw [plain_cons hc, ← Json.text_normalStep hc, ← ih hr, normal_cons, hc, Option.elim_some, named, named,
      List.map_cons, List.map_cons, List.cons.injEq, Segment.named, Segment.named, Segment.key.injEq]
    rfl

/-- A place read back from its pointer is the place. -/
theorem normal_named (h : walk x d = some n) : normal x.named d = x := by
  induction x generalizing d with
  | nil => rfl
  | cons s x ih =>
    obtain ⟨c, hc, hw⟩ := Option.bind_eq_some_iff.mp h
    show normal (s.named :: named x) d = s :: x
    rw [normal_cons, Json.normalStep_named hc, Json.child?_named, Json.child?_of_step? hc, Option.elim_some, ih hw]

/-! ## What the standard addresses -/

/-- A locator leads where the pointer of its normal form does by the standard. -/
theorem resolve_iff_addresses (l : Locator) (d n : Json) :
    resolve l d = some n ↔ Addresses (normal l d).pointer d n := by
  rw [addresses_iff_walk]
  constructor
  · intro hr
    exact ⟨normal l d, (walk_normal l d).trans hr, rfl⟩
  · rintro ⟨x, hw, hx⟩
    rw [← resolve_normal, ← resolve_named, ← pointer_eq_iff.mp hx, resolve_named]
    exact resolve_of_walk hw

theorem addresses_iff_normal (h : ofPointer? p = some l) :
    Addresses p d n ↔ resolve l d = some n ∧ (normal l d).pointer = p := by
  constructor
  · intro ha
    obtain ⟨x, hw, rfl⟩ := addresses_iff_walk.mp ha
    rw [ofPointer?_pointer] at h
    cases h
    rw [resolve_named, normal_named hw]
    exact ⟨resolve_of_walk hw, rfl⟩
  · rintro ⟨hr, rfl⟩
    exact (resolve_iff_addresses l d n).mp hr

theorem addresses_iff_plain (h : ofPointer? p = some l) :
    Addresses p d n ↔ WellFormed p ∧ resolve l d = some n ∧ Plain l d := by
  rw [addresses_iff_normal h]
  constructor
  · rintro ⟨hr, hp⟩
    have hwell : WellFormed p := wellFormed_iff.mpr ⟨_, hp⟩
    refine ⟨hwell, hr, (named_normal_iff hr).mp ?_⟩
    rw [← pointer_eq_iff, hp, (pointer_eq_iff_wellFormed h).mpr hwell]
  · rintro ⟨hwell, hr, hplain⟩
    refine ⟨hr, ?_⟩
    rw [pointer_eq_iff.mpr ((named_normal_iff hr).mpr hplain), (pointer_eq_iff_wellFormed h).mpr hwell]

/-- Refused is only what neither is empty nor opens with a slash, so every pointer of the standard is read. What was
    read is written by the standard, as `p` if `p` is a pointer of the standard. It leads to the node that the standard
    addresses by the pointer of the normal form; by `p` itself the standard addresses it if `p` is well formed and
    enters arrays by positions; and of all the pointers that lead to that place this is the only one of the standard. -/
theorem ofPointer?_exact (p : String) :
    (ofPointer? p = none ↔ p ≠ "" ∧ p.toList.head? ≠ some '/') ∧
      (WellFormed p → ofPointer? p ≠ none) ∧
      ∀ l, ofPointer? p = some l →
        WellFormed l.pointer ∧ ofPointer? l.pointer = some l ∧ (l.pointer = p ↔ WellFormed p) ∧
        ∀ d n,
          (resolve l d = some n ↔ Addresses (normal l d).pointer d n) ∧
          (Addresses p d n ↔ WellFormed p ∧ resolve l d = some n ∧ Plain l d) ∧
          ∀ q k, ofPointer? q = some k → resolve k d = some n → normal k d = normal l d →
            (Addresses q d n ↔ q = (normal l d).pointer) := by
  refine ⟨ofPointer?_eq_none_iff, fun hp => ?_, fun l hl => ?_⟩
  · obtain ⟨k, rfl⟩ := wellFormed_iff.mp hp
    rw [ofPointer?_pointer]
    exact Option.some_ne_none _
  · have hread : ofPointer? l.pointer = some l := by rw [ofPointer?_pointer, named_of_ofPointer? hl]
    refine ⟨wellFormed_iff.mpr ⟨l, rfl⟩, hread, pointer_eq_iff_wellFormed hl, fun d n => ?_⟩
    refine ⟨resolve_iff_addresses l d n, addresses_iff_plain hl, fun q k hq hr hsame => ?_⟩
    rw [addresses_iff_normal hq, and_iff_right hr, hsame, eq_comm]

/-- A tilde for a key, beneath an item. -/
def tilded : Json := .arr [.null, .obj [("~", .bool true)]]

theorem ofPointer?_exact_tilded :
    let l : Locator := [.key "01", .key "~"]
    ofPointer? "/01/~" = some l ∧ resolve l tilded = some (.bool true) ∧ l.pointer = "/01/~0" ∧
      ¬ WellFormed "/01/~" ∧ WellFormed "/01/~0" ∧ ¬ Addresses "/01/~0" tilded (.bool true) ∧
      Addresses "/1/~0" tilded (.bool true) := by
  intro l
  have hread : ofPointer? "/01/~" = some l := by decide +kernel
  have hresolve : resolve l tilded = some (.bool true) := by decide +kernel
  have hpointer : l.pointer = "/01/~0" := by decide +kernel
  have hnormal : (normal l tilded).pointer = "/1/~0" := by decide +kernel
  obtain ⟨-, -, hstray⟩ := ofPointer?_exact "/01/~"
  obtain ⟨hwell, hback, hspelt, hnodes⟩ := hstray l hread
  rw [hpointer] at hwell hback hspelt
  refine ⟨hread, hresolve, hpointer, fun h => absurd (hspelt.mpr h) (by decide), hwell, fun h => ?_, ?_⟩
  · obtain ⟨-, -, hescaped⟩ := ofPointer?_exact "/01/~0"
    obtain ⟨-, -, -, hnodes⟩ := hescaped l hback
    obtain ⟨-, -, hplain⟩ := (hnodes tilded (.bool true)).2.1.mp h
    exact (hplain [] (.key "01") [.key "~"] _ rfl rfl).2 '1' [] rfl
  · rw [← hnormal]
    exact (hnodes tilded (.bool true)).1.mp hresolve

end Locator

end DocExpand

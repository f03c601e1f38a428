/-
  DocExpand.Proofs.Locator.Pointer — what the pointer of a locator tells.

  An escaped step holds no slash, so a pointer falls apart into the steps it was made of, and
  unescaping gives their texts back. Both go once over the text, which comes to the same as
  one replacement after the other (`encode_eq_escape`, `decode_eq_unescape`). What is lost is the sort of a step: a position comes back
  as the key of its numeral (`ofPointer?_pointer`). That makes no difference to where a locator
  leads (`resolve_named`), and inside one document, where objects are entered by keys and arrays
  by positions, two places never have one pointer (`eq_of_named`). Hence an import that is held
  under the pointer of one object is never found for another one (`pointer_faithful`).
-/

import DocExpand.Imports
import DocExpand.Proofs.Locator.Walk

namespace DocExpand

namespace Segment

variable {s t : Segment} {c : Char} {cs : List Char}

/-! ## Escaping -/

theorem unescape_cons (h : c ≠ '~') (cs : List Char) : unescape (c :: cs) = c :: unescape cs := by
  simp [unescape, h]

/-- Escaping is undone exactly, whatever the text holds. -/
theorem unescape_escape (cs : List Char) : unescape (cs.flatMap escape) = cs := by
  induction cs with
  | nil => rfl
  | cons c cs ih =>
    rw [List.flatMap_cons]
    by_cases htilde : c = '~'
    · subst htilde
      show '~' :: unescape (cs.flatMap escape) = _
      rw [ih]
    · by_cases hslash : c = '/'
      · subst hslash
        show '/' :: unescape (cs.flatMap escape) = _
        rw [ih]
      · have hplain : escape c = [c] := by simp [escape, htilde, hslash]
        rw [hplain, List.singleton_append, unescape_cons htilde, ih]

theorem slash_not_mem_escape (c : Char) : '/' ∉ escape c := by
  unfold escape
  split
  · decide
  · split
    · decide
    · rename_i hslash
      simpa using Ne.symm hslash

theorem slash_not_mem_escaped (s : Segment) : '/' ∉ s.escaped := by
  intro h
  obtain ⟨c, -, hc⟩ := List.mem_flatMap.mp h
  exact slash_not_mem_escape c hc

/-! ## Keys in place of positions -/

/-- The step as a key: a position becomes its numeral. -/
def named (s : Segment) : Segment := .key s.text

/-- The numeral of a position is read as the position. -/
theorem numeral?_repr (n : Nat) : numeral? n.repr.toList = some n := by
  rw [Nat.repr_eq_ofList_toDigits, String.toList_ofList]
  have hdigits : ∀ c ∈ Nat.toDigits 10 n, c.isDigit = true :=
    fun c hc => Nat.isDigit_of_mem_toDigits (by decide) (by decide) hc
  have hvalue : (Nat.toDigits 10 n).foldl (fun n c => n * 10 + (c.toNat - '0'.toNat)) 0 = n := by
    have hread := @Nat.ofDigitChars_ten_toDigits n
    rw [Nat.ofDigitChars] at hread
    simpa only [Nat.mul_comm] using hread
  unfold numeral?
  split
  · rename_i ds hplus
    -- a digit is no plus sign
    have hdigit := hdigits '+' (hplus ▸ List.mem_cons_self ..)
    cases hdigit
  · rw [if_pos ⟨Nat.toDigits_ne_nil, List.all_eq_true.mpr hdigits⟩, hvalue]

theorem index?_named (s : Segment) : s.named.index? = s.index? := by
  cases s with
  | key k => rfl
  | index n => exact numeral?_repr n

end Segment

namespace Json

variable {c c' d : Json} {s t : Segment}

theorem child?_named (d : Json) (s : Segment) : d.child? s.named = d.child? s := by
  cases d with
  | null | bool _ | num _ | str _ => rfl
  | obj ms => rfl
  | arr items => rw [child?, child?, Segment.index?_named]

/-- Two steps of one text out of one node are one step. -/
theorem step_inj (hs : d.step? s = some c) (ht : d.step? t = some c') (h : s.text = t.text) : s = t := by
  cases d with
  | null | bool _ | num _ | str _ => cases s <;> cases hs
  | obj ms =>
    cases s with
    | index m => cases hs
    | key k =>
      cases t with
      | index n => cases ht
      | key l => exact congrArg Segment.key h
  | arr items =>
    cases s with
    | key k => cases hs
    | index m =>
      cases t with
      | key l => cases ht
      | index n =>
        -- one numeral is not read as two positions
        have hread := Segment.index?_named (.index m)
        rw [Segment.named, h, ← Segment.named, Segment.index?_named] at hread
        exact congrArg Segment.index (Option.some.inj hread).symm

end Json

namespace Locator

variable {p q : Locator} {d n m : Json} {a b : List Char}

/-! ## Taking a pointer apart -/

theorem parts_slash (cs : List Char) : parts ('/' :: cs) = [] :: parts cs := by
  rw [parts]

theorem parts_cons {c : Char} {cs part : List Char} {rest : List (List Char)} (h : c ≠ '/') (hcs : parts cs = part :: rest) :
    parts (c :: cs) = (c :: part) :: rest := by
  unfold parts
  split
  · exact absurd rfl h
  · rename_i hparts
    rw [hcs] at hparts
    cases hparts
    rfl
  · rename_i hparts
    rw [hcs] at hparts
    cases hparts

/-- Up to the first slash everything is one part. -/
theorem parts_append (h : '/' ∉ a) (b : List Char) : parts (a ++ '/' :: b) = a :: parts b := by
  induction a with
  | nil => exact parts_slash b
  | cons c a ih =>
    have hc : c ≠ '/' := fun he => h (he ▸ List.mem_cons_self ..)
    exact parts_cons hc (ih fun hm => h (List.mem_cons_of_mem _ hm))

theorem parts_of_not_mem (h : '/' ∉ a) : parts a = [a] := by
  induction a with
  | nil => rfl
  | cons c a ih =>
    have hc : c ≠ '/' := fun he => h (he ▸ List.mem_cons_self ..)
    exact parts_cons hc (ih fun hm => h (List.mem_cons_of_mem _ hm))

/-- Behind its first slash a pointer is its escaped steps between slashes. -/
theorem parts_pointer (s : Segment) (p : Locator) :
    parts (s.escaped ++ p.flatMap fun t => '/' :: t.escaped) = s.escaped :: p.map Segment.escaped := by
  induction p generalizing s with
  | nil =>
    show parts (s.escaped ++ []) = [s.escaped]
    rw [List.append_nil]
    exact parts_of_not_mem s.slash_not_mem_escaped
  | cons t p ih =>
    rw [List.flatMap_cons, List.cons_append, parts_append s.slash_not_mem_escaped, ih, List.map_cons]

/-! ## Reading a pointer -/

/-- The locator by keys alone. -/
def named (p : Locator) : Locator := p.map Segment.named

theorem ofPointer?_pointer (p : Locator) : ofPointer? p.pointer = some p.named := by
  rw [ofPointer?, pointer, String.toList_ofList]
  cases p with
  | nil => rfl
  | cons s p =>
    have hread : ∀ t : Segment, Segment.key (String.ofList (Segment.unescape t.escaped)) = t.named := by
      intro t
      rw [Segment.escaped, Segment.unescape_escape, String.ofList_toList]
      rfl
    show some ((parts (s.escaped ++ p.flatMap fun t => '/' :: t.escaped)).map _) = _
    rw [parts_pointer, List.map_cons, List.map_map, hread]
    exact congrArg (fun rest => some (s.named :: rest)) (List.map_congr_left fun t _ => hread t)

theorem pointer_named (p : Locator) : p.named.pointer = p.pointer := by
  unfold pointer named
  rw [List.flatMap_map]
  rfl

theorem pointer_eq_iff : p.pointer = q.pointer ↔ p.named = q.named := by
  constructor
  · intro h
    have hp := ofPointer?_pointer p
    rw [h, ofPointer?_pointer q] at hp
    exact (Option.some.inj hp).symm
  · intro h
    rw [← pointer_named p, h, pointer_named q]

/-! ## Where the pointer leads -/

theorem resolve_named (p : Locator) (d : Json) : resolve p.named d = resolve p d := by
  induction p generalizing d with
  | nil => rfl
  | cons s p ih =>
    show resolve (s.named :: named p) d = _
    rw [resolve_cons, resolve_cons, Json.child?_named]
    exact Option.bind_congr fun c _ => ih c

/-- Two places of one document are told apart by their keys alone. -/
theorem eq_of_named (hp : walk p d = some n) (hq : walk q d = some m) (h : p.named = q.named) : p = q := by
  induction p generalizing q d with
  | nil =>
    cases q with
    | nil => rfl
    | cons t q => cases h
  | cons s p ih =>
    cases q with
    | nil => cases h
    | cons t q =>
      obtain ⟨hst, hrest⟩ := List.cons.inj h
      obtain ⟨c, hc, hp⟩ := Option.bind_eq_some_iff.mp hp
      obtain ⟨c', hc', hq⟩ := Option.bind_eq_some_iff.mp hq
      have hsame : s = t := Json.step_inj hc hc' (Segment.key.inj hst)
      subst hsame
      cases hc.symm.trans hc'
      rw [ih hp hq hrest]

end Locator

/-! ## Escapes as replacements -/

namespace Standard

open Segment (escape unescape)

variable {cs : List Char} {c mark : Char}

/-- The text with a tilde and `mark` for every `c`. -/
def mask (c mark : Char) (text : List Char) : List Char := text.flatMap fun e => if e = c then ['~', mark] else [e]

/-- The text with `c` for every tilde and `mark`. -/
def substitute (mark c : Char) : List Char → List Char
  | [] => []
  | [e] => [e]
  | e :: f :: cs => if e = '~' ∧ f = mark then c :: substitute mark c cs else e :: substitute mark c (f :: cs)

/-- The token of a text: first every tilde becomes `~0`, then every slash `~1`. -/
def encode (text : List Char) : List Char := mask '/' '1' (mask '~' '0' text)

/-- The text of a token: first every `~1` becomes a slash, then every `~0` a tilde. -/
def decode (token : List Char) : List Char := substitute '0' '~' (substitute '1' '/' token)

/-- The first replacement brings no slash, so that the two are one, character by character. -/
theorem encode_eq_escape (text : List Char) : encode text = text.flatMap escape := by
  rw [encode, mask, mask, List.flatMap_assoc]
  refine List.flatMap_congr fun e _ => ?_
  by_cases htilde : e = '~'
  · subst htilde
    rfl
  · rw [if_neg htilde, List.flatMap_singleton, escape, if_neg htilde]

theorem substitute_cons (h : c ≠ '~' ∨ cs.head? ≠ some mark) (r : Char) :
    substitute mark r (c :: cs) = c :: substitute mark r cs := by
  cases cs with
  | nil => rfl
  | cons f cs =>
    rw [substitute, if_neg]
    rintro ⟨rfl, rfl⟩
    exact h.elim (· rfl) (· rfl)

theorem substitute_mark (mark r : Char) (cs : List Char) :
    substitute mark r ('~' :: mark :: cs) = r :: substitute mark r cs := if_pos ⟨rfl, rfl⟩

/-- Putting in slashes brings no `0` behind a tilde. -/
theorem head?_substitute (h : cs.head? ≠ some '0') : (substitute '1' '/' cs).head? ≠ some '0' := by
  match cs with
  | [] | [_] => exact h
  | e :: f :: cs =>
    rw [substitute]
    split
    · simp
    · exact h

/-- The two substitutions are one reading from the left, whatever the text. -/
theorem decode_eq_unescape (cs : List Char) : decode cs = unescape cs := by
  fun_induction unescape cs with
  | case1 cs ih =>
    rw [decode, substitute_cons (.inr (by simp)), substitute_cons (c := '0') (.inl (by decide)), substitute_mark]
    exact congrArg ('~' :: ·) ih
  | case2 cs ih =>
    rw [decode, substitute_mark, substitute_cons (.inl (by decide))]
    exact congrArg ('/' :: ·) ih
  | case3 c cs h0 h1 ih =>
    have behind {mark : Char} (h : ∀ rest, c = '~' → cs = mark :: rest → False) : c ≠ '~' ∨ cs.head? ≠ some mark := by
      refine not_and_or.mp fun ⟨hc, hhead⟩ => ?_
      obtain ⟨rest, rfl⟩ := List.head?_eq_some_iff.mp hhead
      exact h rest hc rfl
    rw [decode, substitute_cons (behind h1), substitute_cons ((behind h0).imp_right head?_substitute)]
    exact congrArg (c :: ·) ih
  | case4 => rfl

end Standard

/-! ## Imports held under pointers -/

namespace Imports

variable {entries : Members ByteArray} {host : Locator} {argument : Json}

theorem ofEntries_pointer (h : argument.text? = .none) : ofEntries entries host argument = Members.get? host.pointer entries := by
  rw [ofEntries, h]
  rfl

end Imports

namespace Locator

/-- A pointer reads as its locator with positions as keys, which leads to the same node in every document; and the
    pointers of two places of one document differ, so that an import held under the one is not found for the other. -/
theorem pointer_faithful (p q : Locator) :
    ofPointer? p.pointer = some p.named ∧ (∀ d, resolve p.named d = resolve p d) ∧
      (p.pointer = q.pointer ↔ p.named = q.named) ∧
      ∀ d n m, walk p d = some n → walk q d = some m → p ≠ q →
        p.pointer ≠ q.pointer ∧
          ∀ argument, Json.text? argument = none → ∀ bytes entries,
            Imports.ofEntries (Members.insert p.pointer bytes entries) p argument = some bytes ∧
              Imports.ofEntries (Members.insert p.pointer bytes entries) q argument =
                Imports.ofEntries entries q argument := by
  refine ⟨ofPointer?_pointer p, resolve_named p, pointer_eq_iff, fun d n m hp hq hne => ?_⟩
  have hpointers : p.pointer ≠ q.pointer := fun h => hne (eq_of_named hp hq (pointer_eq_iff.mp h))
  refine ⟨hpointers, fun argument harg bytes entries => ⟨?_, ?_⟩⟩
  · rw [Imports.ofEntries_pointer harg, Members.get?_insert_self]
  · rw [Imports.ofEntries_pointer harg, Imports.ofEntries_pointer harg, Members.get?_insert_of_ne hpointers]

/-- Keys that hold what a pointer is written with: a slash, and the escape of a slash. -/
def slashed : Json := .arr [.obj [("a/b", .obj []), ("a~1b", .obj [])]]

theorem pointer_faithful_slashed :
    let p := root.item 0 |>.child "a/b"
    let q := root.item 0 |>.child "a~1b"
    walk p slashed = some (.obj []) ∧ walk q slashed = some (.obj []) ∧ p.pointer = "/0/a~1b" ∧ q.pointer = "/0/a~01b" ∧
      ofPointer? "/0/a~01b" = some [.key "0", .key "a~1b"] ∧
      ∀ bytes, Imports.ofEntries (Members.insert "/0/a~1b" bytes []) q (.bool true) = none := by
  intro p q
  have hp : walk p slashed = some (.obj []) := by decide
  have hq : walk q slashed = some (.obj []) := by decide
  have hpointer : p.pointer = "/0/a~1b" := by decide +kernel
  have hqpointer : q.pointer = "/0/a~01b" := by decide +kernel
  obtain ⟨-, -, -, hapart⟩ := pointer_faithful p q
  obtain ⟨-, himports⟩ := hapart slashed _ _ hp hq (by decide)
  obtain ⟨hread, -⟩ := pointer_faithful q p
  refine ⟨hp, hq, hpointer, hqpointer, ?_, fun bytes => ?_⟩
  · rw [← hqpointer]
    exact hread
  · rw [← hpointer]
    exact (himports (.bool true) rfl bytes []).2

end Locator

end DocExpand

/-
  DocExpand.Proofs.Json.Text — the text of a tree reads back.

  The text of a tree scans to its tokens (`lexes_write`): strings one character at a time,
  words up to the character that closes them. The tokens read to the tree with every
  number as its text reads (`reads_tokens`), provided no more than the allowed arrays and
  objects are open at once. So a document's bytes decode exactly when it nests within the
  limit (`decode_encode`), and what they decode to nests no deeper.
-/

import DocExpand.Json.Reader
import DocExpand.Json.Writer
import DocExpand.Proofs.Json.Numerals

namespace DocExpand

/-! ## What is read -/

/-- The number that a number's text reads as. -/
def Number.reread (x : Number) : Number :=
  match Json.Lexer.scalarOfWord? (x.render Json.floatLayout) with
  | some (.num v) => v
  | _ => x

theorem Number.render_reads (x : Number) :
    Json.Lexer.scalarOfWord? (x.render Json.floatLayout) = some (.num x.reread) := by
  obtain ⟨v, hv⟩ := Json.Numeral.number_reads x
  rw [reread, hv]

theorem Number.reread_int (i : Int) (h : -2 ^ 63 ≤ i ∧ i < 2 ^ 64) : (int i h).reread = .int i h := by
  rw [reread, render, Json.Numeral.int_reads i h]

namespace Json

mutual

/-- The tree with every number as its text reads, and of equal keys the last. -/
def reread : Json → Json
  | null => .null
  | bool b => .bool b
  | num x => .num x.reread
  | str s => .str s
  | arr items => .arr (rereadItems items)
  | obj members => .obj (Members.ofPairs (rereadMembers members))

def rereadItems : List Json → List Json
  | [] => []
  | item :: rest => item.reread :: rereadItems rest

def rereadMembers : List (String × Json) → List (String × Json)
  | [] => []
  | (key, value) :: rest => (key, value.reread) :: rereadMembers rest

end

mutual

/-- The tokens of a tree's text, in front of `rest`. -/
def tokens : Json → List Token → List Token
  | null, rest => .scalar .null :: rest
  | bool b, rest => .scalar (.bool b) :: rest
  | num x, rest => .scalar (.num x.reread) :: rest
  | str s, rest => .text s :: rest
  | arr [], rest => .arrOpen :: .arrClose :: rest
  | arr (item :: items), rest => .arrOpen :: tokens item (tokensOfItems items rest)
  | obj [], rest => .objOpen :: .objClose :: rest
  | obj ((key, value) :: members), rest =>
    .objOpen :: .text key :: .colon :: tokens value (tokensOfMembers members rest)

def tokensOfItems : List Json → List Token → List Token
  | [], rest => .arrClose :: rest
  | item :: items, rest => .comma :: tokens item (tokensOfItems items rest)

def tokensOfMembers : List (String × Json) → List Token → List Token
  | [], rest => .objClose :: rest
  | (key, value) :: members, rest => .comma :: .text key :: .colon :: tokens value (tokensOfMembers members rest)

end

theorem reread_kind (j : Json) : j.reread.kind = j.kind := by cases j <;> rfl

/-! ## Scanning -/

namespace Lexer

/-- The tokens of a scan that goes on with `cs`. -/
def scan (l : Lexer) (cs : List Char) : Option (List Token) := (run l cs).bind finish

theorem scan_cons (l : Lexer) (c : Char) (cs : List Char) : l.scan (c :: cs) = (l.step c).bind (·.scan cs) := by
  simp only [scan, run, List.foldlM_cons]
  cases l.step c <;> rfl

theorem step_between (rev : List Token) (c : Char) : step ⟨rev, .between⟩ c = start ⟨rev, .between⟩ c := rfl

theorem step_word (rev : List Token) (done : List Char) (c : Char) :
    step ⟨rev, .word done⟩ c =
      if isWordChar c then some ⟨rev, .word (c :: done)⟩ else (closeWord ⟨rev, .word done⟩ done).bind (·.start c) := rfl

theorem step_text (rev : List Token) (done : List Char) (c : Char) :
    step ⟨rev, .text done⟩ c =
      if c = '"' then some ⟨.text (String.ofList done.reverse) :: rev, .between⟩
      else if c = '\\' then some ⟨rev, .escape done⟩
      else if c.toNat < 0x20 then none
      else some ⟨rev, .text (c :: done)⟩ := rfl

theorem step_unit (rev : List Token) (done : List Char) (count value : Nat) (c : Char) :
    step ⟨rev, .unit done count value⟩ c = (hexValue? c).bind fun d =>
      if count < 3 then some ⟨rev, .unit done (count + 1) (value * 16 + d)⟩
      else closeUnit ⟨rev, .unit done count value⟩ done (value * 16 + d) := rfl

/-- Between tokens, `cs` scans to `ts`. -/
def Lexes (cs : List Char) (ts : List Token) : Prop :=
  ∀ rev, scan ⟨rev, .between⟩ cs = some (rev.reverse ++ ts)

/-- A word ends here. -/
def Closing (cs : List Char) : Prop := ∀ c rest, cs = c :: rest → isWordChar c = false

theorem lexes_nil : Lexes [] [] := fun rev => by simp [scan, run, finish]

theorem closing_nil : Closing [] := fun _ _ h => nomatch h

theorem closing_cons {c : Char} {cs : List Char} (h : isWordChar c = false) : Closing (c :: cs) := by
  intro c' rest e
  cases e
  exact h

/-- A character that is a token of its own. -/
theorem lexes_mark {c : Char} {t : Token} {cs : List Char} {ts : List Token}
    (hc : ∀ l : Lexer, l.start c = some (l.emit t)) (h : Lexes cs ts) : Lexes (c :: cs) (t :: ts) := by
  intro rev
  rw [scan_cons, step_between, hc, Option.bind_some]
  exact (h (t :: rev)).trans (by simp)

theorem start_word {c : Char} (h : isWordChar c = true) (l : Lexer) : l.start c = some (l.within (.word [c])) := by
  unfold start
  split
  all_goals first | exact absurd h (by decide) | skip
  by_cases hb : isBlank c = true
  · simp only [isBlank, Bool.or_eq_true, beq_iff_eq] at hb
    rcases hb with ((rfl | rfl) | rfl) | rfl <;> exact absurd h (by decide)
  · rw [if_neg hb, if_pos h]

theorem scan_word {rev : List Token} {word : List Char} {j : Json} {cs : List Char} {ts : List Token}
    (hj : scalarOfWord? word = some j) (hc : Closing cs) (h : Lexes cs ts) :
    ∀ {done rest : List Char}, word = done.reverse ++ rest → (∀ c ∈ rest, isWordChar c = true) →
      scan ⟨rev, .word done⟩ (rest ++ cs) = some (rev.reverse ++ .scalar j :: ts) := by
  intro done rest
  induction rest generalizing done with
  | nil =>
    intro hw _
    rw [List.append_nil] at hw
    have hclose : closeWord ⟨rev, .word done⟩ done = some ⟨.scalar j :: rev, .between⟩ := by
      rw [closeWord, ← hw, hj]
      rfl
    rw [List.nil_append]
    cases cs with
    | nil =>
      have hts : ts = [] := by simpa [scan, run, finish] using h []
      simp [scan, run, finish, hclose, hts]
    | cons c cs =>
      have hrest := h (.scalar j :: rev)
      rw [scan_cons, step_between] at hrest
      rw [scan_cons, step_word, hc c cs rfl, if_neg (by decide), hclose, Option.bind_some, hrest]
      simp
  | cons c rest ih =>
    intro hw hr
    rw [List.cons_append, scan_cons, step_word, if_pos (hr c (List.mem_cons_self ..)), Option.bind_some]
    exact ih (by rw [hw]; simp) (fun c' hc' => hr c' (List.mem_cons_of_mem _ hc'))

/-- A word up to the character that ends it. -/
theorem lexes_word {word : List Char} {j : Json} {cs : List Char} {ts : List Token}
    (hj : scalarOfWord? word = some j) (hne : word ≠ []) (hw : ∀ c ∈ word, isWordChar c = true) (hc : Closing cs)
    (h : Lexes cs ts) : Lexes (word ++ cs) (.scalar j :: ts) := by
  intro rev
  cases word with
  | nil => exact absurd rfl hne
  | cons c rest =>
    rw [List.cons_append, scan_cons, step_between, start_word (hw c (List.mem_cons_self ..)), Option.bind_some]
    exact scan_word hj hc h rfl (fun c' hc' => hw c' (List.mem_cons_of_mem _ hc'))

/-! ## Strings -/

theorem hexValue?_hexDigit : ∀ d < 16, hexValue? (hexDigit d) = some d := by decide

/-- One character of a string, as it is written. -/
theorem scan_escape (rev : List Token) (done : List Char) (c : Char) (cs : List Char) :
    scan ⟨rev, .text done⟩ (escape c ++ cs) = scan ⟨rev, .text (c :: done)⟩ cs := by
  unfold escape
  split
  all_goals first | rfl | skip
  split
  · rename_i h
    have hn : c.toNat / 16 * 16 + c.toNat % 16 = c.toNat := Nat.div_add_mod' ..
    have hunit : closeUnit ⟨rev, .unit done 3 (c.toNat / 16)⟩ done c.toNat = some ⟨rev, .text (c :: done)⟩ := by
      rw [closeUnit, if_neg (by omega), if_neg (by omega), Char.ofNat_toNat]
      rfl
    have hhigh := hexValue?_hexDigit (c.toNat / 16) (by omega)
    have hlow := hexValue?_hexDigit (c.toNat % 16) (by omega)
    have hstart : ∀ rest, scan ⟨rev, .text done⟩ ('\\' :: 'u' :: '0' :: '0' :: rest) =
        scan ⟨rev, .unit done 2 0⟩ rest := fun _ => rfl
    rw [List.cons_append, List.cons_append, List.cons_append, List.cons_append, List.cons_append, List.cons_append,
      List.nil_append, hstart, scan_cons, step_unit, hhigh, Option.bind_some, if_pos (by decide), Option.bind_some,
      scan_cons, step_unit, hlow, Option.bind_some, if_neg (by decide), Nat.zero_mul, Nat.zero_add, hn, hunit]
    rfl
  · rename_i hquote hslash _ _ _ _ _ h
    rw [List.singleton_append, scan_cons, step_text, if_neg (fun e => hquote e), if_neg (fun e => hslash e), if_neg h]
    rfl

theorem scan_text (rev : List Token) (s : List Char) (cs : List Char) :
    ∀ done, scan ⟨rev, .text done⟩ (s.flatMap escape ++ '"' :: cs) =
      scan ⟨.text (String.ofList (done.reverse ++ s)) :: rev, .between⟩ cs := by
  induction s with
  | nil =>
    intro done
    rw [List.flatMap_nil, List.nil_append, scan_cons, step_text, if_pos rfl, Option.bind_some, List.append_nil]
  | cons c s ih =>
    intro done
    rw [List.flatMap_cons, List.append_assoc, scan_escape, ih (c :: done)]
    simp

theorem lexes_quoted (s : String) {cs : List Char} {ts : List Token} (h : Lexes cs ts) :
    Lexes (quoted s cs) (.text s :: ts) := by
  intro rev
  have hs : String.ofList (([] : List Char).reverse ++ s.toList) = s := by simp
  rw [quoted, List.cons_append, scan_cons]
  change scan ⟨rev, .text []⟩ _ = _
  rw [scan_text, hs, h]
  simp

end Lexer

section

open Lexer

theorem closing_writeItems (items : List Json) (cs : List Char) : Closing (writeItems items cs) := by
  cases items <;> exact closing_cons rfl

theorem closing_writeMembers (members : List (String × Json)) (cs : List Char) :
    Closing (writeMembers members cs) := by
  rcases members with _ | ⟨⟨key, value⟩, members⟩ <;> exact closing_cons rfl

mutual

/-- The text of a tree scans to its tokens. -/
theorem lexes_write : ∀ (j : Json) {cs : List Char} {ts : List Token}, Closing cs → Lexes cs ts →
    Lexes (write j cs) (tokens j ts)
  | null, _, _, hc, h =>
    @lexes_word ['n', 'u', 'l', 'l'] .null _ _ rfl (by simp) (List.all_eq_true.mp rfl) hc h
  | bool true, _, _, hc, h =>
    @lexes_word ['t', 'r', 'u', 'e'] (.bool true) _ _ rfl (by simp) (List.all_eq_true.mp rfl) hc h
  | bool false, _, _, hc, h =>
    @lexes_word ['f', 'a', 'l', 's', 'e'] (.bool false) _ _ rfl (by simp) (List.all_eq_true.mp rfl) hc h
  | num x, _, _, hc, h => by
    rw [write, tokens]
    exact lexes_word x.render_reads (Numeral.number_word x).1 (Numeral.number_word x).2 hc h
  | str s, _, _, _, h => by
    rw [write, tokens]
    exact lexes_quoted s h
  | arr [], _, _, _, h => lexes_mark (fun _ => rfl) (lexes_mark (fun _ => rfl) h)
  | arr (item :: items), _, _, _, h =>
    lexes_mark (fun _ => rfl) (lexes_write item (closing_writeItems items _) (lexes_writeItems items h))
  | obj [], _, _, _, h => lexes_mark (fun _ => rfl) (lexes_mark (fun _ => rfl) h)
  | obj ((key, value) :: members), _, _, _, h =>
    lexes_mark (fun _ => rfl) (lexes_quoted key (lexes_mark (fun _ => rfl)
      (lexes_write value (closing_writeMembers members _) (lexes_writeMembers members h))))

theorem lexes_writeItems : ∀ (items : List Json) {cs : List Char} {ts : List Token}, Lexes cs ts →
    Lexes (writeItems items cs) (tokensOfItems items ts)
  | [], _, _, h => lexes_mark (fun _ => rfl) h
  | item :: items, _, _, h =>
    lexes_mark (fun _ => rfl) (lexes_write item (closing_writeItems items _) (lexes_writeItems items h))

theorem lexes_writeMembers : ∀ (members : List (String × Json)) {cs : List Char} {ts : List Token}, Lexes cs ts →
    Lexes (writeMembers members cs) (tokensOfMembers members ts)
  | [], _, _, h => lexes_mark (fun _ => rfl) h
  | (key, value) :: members, _, _, h =>
    lexes_mark (fun _ => rfl) (lexes_quoted key (lexes_mark (fun _ => rfl)
      (lexes_write value (closing_writeMembers members _) (lexes_writeMembers members h))))

end

theorem tokens_of_write (j : Json) : Token.ofChars? (write j []) = some (tokens j []) :=
  lexes_write j closing_nil lexes_nil []

end

/-! ## Reading -/

namespace Reading

/-- The tree that a reading gives when it goes on with `ts`. -/
def read (limit : Nat) (r : Reading) (ts : List Token) : Option Json := (ts.foldlM (step limit) r).bind finish

theorem read_cons (limit : Nat) (r : Reading) (t : Token) (ts : List Token) :
    r.read limit (t :: ts) = (r.step limit t).bind (·.read limit ts) := by
  simp only [read, List.foldlM_cons]
  cases r.step limit t <;> rfl

theorem step_value (limit : Nat) (frames : List Frame) (t : Token) :
    step limit ⟨frames, .value⟩ t = begin? limit frames t := by
  cases t <;> rfl

/-- An array opens if one more may be open. -/
theorem read_arrOpen (limit : Nat) (frames : List Frame) (ts : List Token) :
    read limit ⟨frames, .value⟩ (.arrOpen :: ts) =
      if frames.length < limit then read limit ⟨frames, .valueOrClose⟩ ts else none := by
  rw [read_cons, step_value, begin?]
  split <;> rfl

theorem read_objOpen (limit : Nat) (frames : List Frame) (ts : List Token) :
    read limit ⟨frames, .value⟩ (.objOpen :: ts) =
      if frames.length < limit then read limit ⟨frames, .keyOrClose⟩ ts else none := by
  rw [read_cons, step_value, begin?]
  split <;> rfl

theorem read_first_key (limit : Nat) (frames : List Frame) (key : String) (ts : List Token) :
    read limit ⟨frames, .keyOrClose⟩ (.text key :: .colon :: ts) = read limit ⟨.member [] key :: frames, .value⟩ ts := rfl

theorem read_next_item (limit : Nat) (rev : List Json) (value : Json) (frames : List Frame) (ts : List Token) :
    read limit ⟨.items rev :: frames, .after value⟩ (.comma :: ts) =
      read limit ⟨.items (value :: rev) :: frames, .value⟩ ts := rfl

theorem read_next_key (limit : Nat) (done : Members Json) (key next : String) (value : Json) (frames : List Frame)
    (ts : List Token) :
    read limit ⟨.member done key :: frames, .after value⟩ (.comma :: .text next :: .colon :: ts) =
      read limit ⟨.member (Members.insert key value done) next :: frames, .value⟩ ts := rfl

/-- An opening bracket is followed by the first item. -/
theorem read_first_item (limit : Nat) (frames : List Frame) (j : Json) (ts : List Token) :
    read limit ⟨frames, .valueOrClose⟩ (tokens j ts) = read limit ⟨.items [] :: frames, .value⟩ (tokens j ts) := by
  rcases j with _ | _ | _ | _ | ⟨_ | ⟨item, items⟩⟩ | ⟨_ | ⟨⟨key, value⟩, members⟩⟩ <;>
    rw [tokens, read_cons, read_cons] <;> rfl

end Reading

open Reading

mutual

/-- The tokens of a tree read to the tree reread, unless it is too deep. -/
theorem reads_tokens (limit : Nat) : ∀ (j : Json) (frames : List Frame) (ts : List Token), frames.length ≤ limit →
    read limit ⟨frames, .value⟩ (tokens j ts) =
      if frames.length + j.nesting ≤ limit then read limit ⟨frames, .after j.reread⟩ ts else none
  | null, frames, ts, hf => by rw [tokens, read_cons, if_pos (by simpa [nesting] using hf)]; rfl
  | bool b, frames, ts, hf => by rw [tokens, read_cons, if_pos (by simpa [nesting] using hf)]; rfl
  | num x, frames, ts, hf => by rw [tokens, read_cons, if_pos (by simpa [nesting] using hf)]; rfl
  | str s, frames, ts, hf => by rw [tokens, read_cons, if_pos (by simpa [nesting] using hf)]; rfl
  | arr [], frames, ts, _ => by
    rw [tokens, read_arrOpen, read_cons]
    rfl
  | arr (item :: items), frames, ts, _ => by
    rw [tokens, read_arrOpen, read_first_item]
    by_cases h : frames.length < limit
    · rw [if_pos h, reads_tokens limit item (.items [] :: frames) _ h, reads_tokensOfItems limit items _ _ _ _ h,
        ← ite_and]
      exact if_congr (by simp [nesting, nestingItems]; omega) rfl rfl
    · rw [if_neg h, if_neg (by simp [nesting]; omega)]
  | obj [], frames, ts, _ => by
    rw [tokens, read_objOpen, read_cons]
    rfl
  | obj ((key, value) :: members), frames, ts, _ => by
    rw [tokens, read_objOpen, read_first_key]
    by_cases h : frames.length < limit
    · rw [if_pos h, reads_tokens limit value (.member [] key :: frames) _ h,
        reads_tokensOfMembers limit members _ _ _ _ _ h, ← ite_and]
      exact if_congr (by simp [nesting, nestingMembers]; omega) rfl rfl
    · rw [if_neg h, if_neg (by simp [nesting]; omega)]

theorem reads_tokensOfItems (limit : Nat) : ∀ (items : List Json) (value : Json) (rev : List Json)
    (frames : List Frame) (ts : List Token), frames.length + 1 ≤ limit →
    read limit ⟨.items rev :: frames, .after value⟩ (tokensOfItems items ts) =
      if frames.length + 1 + nestingItems items ≤ limit then
        read limit ⟨frames, .after (.arr (rev.reverse ++ value :: rereadItems items))⟩ ts else none
  | [], value, rev, frames, ts, hf => by
    rw [tokensOfItems, read_cons, if_pos (by simpa [nestingItems] using hf), rereadItems, ← List.reverse_cons]
    rfl
  | item :: items, value, rev, frames, ts, hf => by
    rw [tokensOfItems, read_next_item, reads_tokens limit item (.items (value :: rev) :: frames) _ hf,
      reads_tokensOfItems limit items _ _ _ _ hf, ← ite_and]
    exact if_congr (by simp [nestingItems]; omega) (by simp [rereadItems]) rfl

theorem reads_tokensOfMembers (limit : Nat) : ∀ (members : List (String × Json)) (key : String) (value : Json)
    (done : Members Json) (frames : List Frame) (ts : List Token), frames.length + 1 ≤ limit →
    read limit ⟨.member done key :: frames, .after value⟩ (tokensOfMembers members ts) =
      if frames.length + 1 + nestingMembers members ≤ limit then
        read limit ⟨frames, .after (.obj ((rereadMembers members).foldl (fun ms (k, v) => Members.insert k v ms)
          (Members.insert key value done)))⟩ ts else none
  | [], key, value, done, frames, ts, hf => by
    rw [tokensOfMembers, read_cons, if_pos (by simpa [nestingMembers] using hf)]
    rfl
  | (key', value') :: members, key, value, done, frames, ts, hf => by
    rw [tokensOfMembers, read_next_key, reads_tokens limit value' (.member _ key' :: frames) _ hf,
      reads_tokensOfMembers limit members _ _ _ _ _ hf, ← ite_and]
    exact if_congr (by simp [nestingMembers]; omega) rfl rfl

end

theorem ofTokens?_tokens (limit : Nat) (j : Json) :
    ofTokens? limit (tokens j []) = if j.nesting ≤ limit then some j.reread else none := by
  have h := reads_tokens limit j [] [] (Nat.zero_le _)
  rw [List.length_nil, Nat.zero_add] at h
  exact h

/-! ## Bytes -/

theorem fromUTF8?_toUTF8 (s : String) : String.fromUTF8? s.toUTF8 = some s := by
  unfold String.fromUTF8?
  rw [dif_pos (by simpa using s.isValidUTF8)]
  rfl

theorem encode_bytes (j : Json) : j.encode.data.toList = (j.write []).flatMap String.utf8EncodeChar := by
  simp [encode, render, List.utf8Encode]

/-- The bytes of a document decode exactly when it nests within the limit. -/
theorem decode_encode (j : Json) : decode j.encode = if j.nesting ≤ nestingLimit then some j.reread else none := by
  rw [decode, encode, fromUTF8?_toUTF8, Option.bind_some, ofText?, render, String.toList_ofList, ofChars?,
    tokens_of_write, Option.bind_some, ofTokens?_tokens]

theorem decode_encode_isSome (j : Json) : (decode j.encode).isSome = decide (j.nesting ≤ nestingLimit) := by
  rw [decode_encode]
  by_cases h : j.nesting ≤ nestingLimit
  · simp [h]
  · simp [h]

/-! ## Nesting -/

theorem nestingMembers_insert_le (key : String) (value : Json) (ms : Members Json) :
    nestingMembers (Members.insert key value ms) ≤ max value.nesting (nestingMembers ms) := by
  fun_induction Members.insert key value ms with
  | case1 => exact Nat.le_refl _
  | case2 k v rest _ ih => simp only [nestingMembers]; omega
  | case3 => simp only [nestingMembers]; omega
  | case4 => simp only [nestingMembers]; omega

theorem nestingMembers_foldl_insert_le (pairs : List (String × Json)) (ms : Members Json) :
    nestingMembers (pairs.foldl (fun ms (k, v) => Members.insert k v ms) ms) ≤
      max (nestingMembers pairs) (nestingMembers ms) := by
  induction pairs generalizing ms with
  | nil => exact Nat.le_max_right ..
  | cons pair rest ih =>
    obtain ⟨key, value⟩ := pair
    have hi := ih (Members.insert key value ms)
    have hm := nestingMembers_insert_le key value ms
    simp only [List.foldl_cons, nestingMembers] at hi ⊢
    omega

mutual

theorem reread_nesting_le : ∀ j : Json, j.reread.nesting ≤ j.nesting
  | null | bool _ | num _ | str _ => Nat.le_refl _
  | arr items => Nat.add_le_add_right (rereadItems_nesting_le items) 1
  | obj members => by
    have hf : nestingMembers (Members.ofPairs (rereadMembers members)) ≤ max (nestingMembers (rereadMembers members)) 0 :=
      nestingMembers_foldl_insert_le (rereadMembers members) []
    have hm := rereadMembers_nesting_le members
    simp only [reread, nesting]
    omega

theorem rereadItems_nesting_le : ∀ items : List Json, nestingItems (rereadItems items) ≤ nestingItems items
  | [] => Nat.le_refl _
  | item :: rest => by
    have hi := reread_nesting_le item
    have hr := rereadItems_nesting_le rest
    simp only [rereadItems, nestingItems]
    omega

theorem rereadMembers_nesting_le : ∀ members : List (String × Json),
    nestingMembers (rereadMembers members) ≤ nestingMembers members
  | [] => Nat.le_refl _
  | (_, value) :: rest => by
    have hv := reread_nesting_le value
    have hr := rereadMembers_nesting_le rest
    simp only [rereadMembers, nestingMembers]
    omega

end

end Json

end DocExpand

/-
  DocExpand.Json.Reader — trees from tokens, and from text and bytes.

  A reading keeps the open arrays and objects on a stack of frames and says what may come
  next. No more than `limit` arrays and objects may be open at once. Of a repeated key
  the last value stays. `decode` is the strict reading of bytes: valid UTF-8, one value,
  nothing after it.
-/

import DocExpand.Json.Token

namespace DocExpand.Json

/-- An array or object whose next value is being read. -/
inductive Frame where
  /-- The items so far, reversed. -/
  | items (rev : List Json)
  | member (done : Members Json) (key : String)
  deriving DecidableEq

inductive Expect where
  | value
  | valueOrClose
  | keyOrClose
  | key (done : Members Json)
  | colon (done : Members Json) (key : String)
  /-- A value is complete. -/
  | after (value : Json)
  deriving DecidableEq

structure Reading where
  frames : List Frame
  expect : Expect
  deriving DecidableEq

namespace Reading

def init : Reading := ⟨[], .value⟩

/-- A token where a value must begin. -/
def begin? (limit : Nat) (frames : List Frame) : Token → Option Reading
  | .text s => some ⟨frames, .after (.str s)⟩
  | .scalar j => some ⟨frames, .after j⟩
  | .arrOpen => if frames.length < limit then some ⟨frames, .valueOrClose⟩ else none
  | .objOpen => if frames.length < limit then some ⟨frames, .keyOrClose⟩ else none
  | _ => none

/-- A token after a complete value: the array or object goes on or ends. -/
def continue? (value : Json) : List Frame → Token → Option Reading
  | .items rev :: frames, .comma => some ⟨.items (value :: rev) :: frames, .value⟩
  | .items rev :: frames, .arrClose => some ⟨frames, .after (.arr (value :: rev).reverse)⟩
  | .member done key :: frames, .comma => some ⟨frames, .key (Members.insert key value done)⟩
  | .member done key :: frames, .objClose => some ⟨frames, .after (.obj (Members.insert key value done))⟩
  | _, _ => none

def step (limit : Nat) (r : Reading) (t : Token) : Option Reading :=
  match r.expect, t with
  | .value, t => begin? limit r.frames t
  | .valueOrClose, .arrClose => some ⟨r.frames, .after (.arr [])⟩
  | .valueOrClose, t => begin? limit (.items [] :: r.frames) t
  | .keyOrClose, .objClose => some ⟨r.frames, .after (.obj [])⟩
  | .keyOrClose, .text k => some ⟨r.frames, .colon [] k⟩
  | .key done, .text k => some ⟨r.frames, .colon done k⟩
  | .colon done k, .colon => some ⟨.member done k :: r.frames, .value⟩
  | .after v, t => continue? v r.frames t
  | _, _ => none

def finish (r : Reading) : Option Json :=
  match r.frames, r.expect with
  | [], .after v => some v
  | _, _ => none

end Reading

def ofTokens? (limit : Nat) (ts : List Token) : Option Json :=
  (ts.foldlM (Reading.step limit) Reading.init).bind Reading.finish

def ofChars? (limit : Nat) (cs : List Char) : Option Json := (Token.ofChars? cs).bind (ofTokens? limit)

def ofText? (limit : Nat) (text : String) : Option Json := ofChars? limit text.toList

/-- How deep the arrays and objects of a document may nest. -/
def nestingLimit : Nat := 127

/-- A tree from the bytes of a document. -/
def decode (bytes : ByteArray) : Option Json := (String.fromUTF8? bytes).bind (ofText? nestingLimit)

end DocExpand.Json

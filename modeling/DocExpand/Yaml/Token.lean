/-
  DocExpand.Yaml.Token — the tokens of YAML text.

  Indentation is made of tokens too: where a block sequence or mapping opens and where it
  closes. A key that only its colon shows has its token put in front of it afterwards.
-/

namespace DocExpand.Yaml

/-- How a scalar is written: unquoted, in quotes, or as a block. -/
inductive Form where
  | plain
  | quoted
  | literal
  | folded
  deriving DecidableEq, Repr

/-- A tag in full. Escapes can spell bytes that are no UTF-8 text. -/
abbrev Tag := List UInt8

/-- A tag as written: a handle, which a directive may define, and what follows it. -/
structure TagName where
  handle : String
  suffix : Tag
  deriving DecidableEq, Repr

inductive Token where
  | version (major minor : Nat)
  | tagHandle (handle : String) (lead : Tag)
  | documentStart
  | documentEnd
  | blockSequence
  | blockMapping
  | blockClose
  | sequenceOpen
  | sequenceClose
  | mappingOpen
  | mappingClose
  /-- The dash of a block sequence. -/
  | dash
  | comma
  | key
  | value
  | alias (name : String)
  | anchor (name : String)
  | tag (name : TagName)
  | scalar (text : String) (form : Form)
  deriving DecidableEq, Repr

end DocExpand.Yaml

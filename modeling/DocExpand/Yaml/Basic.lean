/-
  DocExpand.Yaml.Basic — the values of a YAML document and the JSON tree of one.

  Keys may be any value, and a value may carry tags. `toJson` drops tags, turns numbers
  that JSON lacks into null and leaves out members whose key is not a string.
-/

import DocExpand.Json.Basic
import DocExpand.Yaml.Number

namespace DocExpand

inductive Yaml where
  | null
  | bool (value : Bool)
  | num (value : Yaml.Num)
  | str (value : String)
  | seq (items : List Yaml)
  | map (members : List (Yaml × Yaml))
  | tagged (tag : String) (value : Yaml)
  deriving Inhabited

namespace Yaml

def untagged : Yaml → Yaml
  | tagged _ value => value.untagged
  | value => value

/-- The text of a string, seen through tags. -/
def text? : Yaml → Option String
  | str s => some s
  | tagged _ value => value.text?
  | _ => none

/-- A tag without one leading exclamation mark, unless it is nothing else. -/
def bareTag (tag : String) : List Char :=
  match tag.toList with
  | '!' :: c :: cs => c :: cs
  | cs => cs

mutual

/-- Equal as keys: mappings in any order, tags with or without the exclamation mark. -/
def same : Yaml → Yaml → Bool
  | null, null => true
  | bool a, bool b => a == b
  | num a, num b => a.same b
  | str a, str b => a == b
  | seq as, seq bs => sameItems as bs
  | map as, map bs => as.length == bs.length && sameMembers as bs
  | tagged s a, tagged t b => bareTag s == bareTag t && a.same b
  | _, _ => false

def sameItems : List Yaml → List Yaml → Bool
  | [], [] => true
  | a :: as, b :: bs => a.same b && sameItems as bs
  | _, _ => false

/-- Every member of the first is a member of the second. -/
def sameMembers : List (Yaml × Yaml) → List (Yaml × Yaml) → Bool
  | [], _ => true
  | (k, a) :: as, bs => bs.any (fun (l, b) => k.same l && a.same b) && sameMembers as bs

end

/-- A member added at the end, or the value of an equal key replaced. -/
def insert (key value : Yaml) : List (Yaml × Yaml) → List (Yaml × Yaml)
  | [] => [(key, value)]
  | (k, v) :: rest => if k.same key then (k, value) :: rest else (k, v) :: insert key value rest

/-- A number without a JSON spelling becomes null. -/
def Num.toJson (n : Num) : Json := (n.toNumber?.map Json.num).getD .null

mutual

def toJson : Yaml → Json
  | null => .null
  | bool b => .bool b
  | num n => n.toJson
  | str s => .str s
  | seq items => .arr (itemsToJson items)
  | map members => .obj (membersToJson members [])
  | tagged _ value => value.toJson

def itemsToJson : List Yaml → List Json
  | [] => []
  | item :: rest => item.toJson :: itemsToJson rest

/-- Members with a string for a key, in turn; the last of equal names stays. -/
def membersToJson : List (Yaml × Yaml) → Members Json → Members Json
  | [], done => done
  | (key, value) :: rest, done =>
    match key.text? with
    | some name => membersToJson rest (Members.insert name value.toJson done)
    | none => membersToJson rest done

end

mutual

/-- The value of the same shape as a tree. -/
def ofJson : Json → Yaml
  | .null => .null
  | .bool b => .bool b
  | .num n => .num (.ofNumber n)
  | .str s => .str s
  | .arr items => .seq (itemsOfJson items)
  | .obj members => .map (membersOfJson members)

def itemsOfJson : List Json → List Yaml
  | [] => []
  | item :: rest => ofJson item :: itemsOfJson rest

def membersOfJson : List (String × Json) → List (Yaml × Yaml)
  | [] => []
  | (key, value) :: rest => (.str key, ofJson value) :: membersOfJson rest

end

end Yaml

end DocExpand

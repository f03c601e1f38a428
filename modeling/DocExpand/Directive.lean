/-
  DocExpand.Directive — the closed catalogue of directives and their identifiers.

  A directive pairs the kind it produces with a verb and a phase. Its identifier under a
  domain is `domain.Kind.Verb`. A key has the shape of a directive (`isShaped`) when it
  is the domain, a kind and a word that opens with a capital and has only letters and
  digits; such a key is never plain data, whether or not it names a directive.
-/

import DocExpand.Json.Basic

namespace DocExpand

/-- Precedence among invocations at one depth: branching, look-ups, imports, strings; the
    last is free. -/
inductive Phase where
  | a
  | b
  | c
  | d
  | e
  deriving DecidableEq, Repr, Inhabited

namespace Phase

def rank : Phase → Nat
  | a => 0
  | b => 1
  | c => 2
  | d => 3
  | e => 4

end Phase

inductive Verb where
  | choose
  | lookup
  | load
  | join
  | asJson
  | asYaml
  | asBase64
  deriving DecidableEq, Repr, Inhabited

namespace Verb

/-- The verb as identifiers spell it. -/
def name : Verb → String
  | choose => "If"
  | lookup => "Lookup"
  | load => "LoadJSON"
  | join => "Join"
  | asJson => "AsJSON"
  | asYaml => "AsYAML"
  | asBase64 => "AsBASE64"

end Verb

structure Directive where
  produces : Kind
  phase : Phase
  verb : Verb
  deriving DecidableEq, Repr, Inhabited

namespace Directive

def registry : List Directive := [
  ⟨.null, .a, .choose⟩,
  ⟨.boolean, .b, .lookup⟩, ⟨.string, .b, .lookup⟩, ⟨.number, .b, .lookup⟩, ⟨.array, .b, .lookup⟩,
  ⟨.object, .b, .lookup⟩,
  ⟨.object, .c, .load⟩, ⟨.array, .c, .load⟩,
  ⟨.string, .d, .join⟩, ⟨.string, .d, .asJson⟩, ⟨.string, .d, .asYaml⟩, ⟨.string, .d, .asBase64⟩]

def identifier (d : Directive) (domain : String) : String :=
  domain ++ "." ++ d.produces.name ++ "." ++ d.verb.name

/-- `rest` when the characters are `lead ++ rest`. -/
def after? : List Char → List Char → Option (List Char)
  | [], cs => some cs
  | l :: lead, c :: cs => if l = c then after? lead cs else none
  | _ :: _, [] => none

/-- The kind and verb parts of a key under a domain; the kind ends at the first dot. -/
def split? (key domain : String) : Option (String × String) := do
  let rest ← after? (domain.toList ++ ['.']) key.toList
  let kind := rest.takeWhile (· ≠ '.')
  let verb ← after? ['.'] (rest.dropWhile (· ≠ '.'))
  some (String.ofList kind, String.ofList verb)

/-- The directive whose identifier under `domain` is `key`. -/
def parse? (key domain : String) : Option Directive := do
  let (kindName, verbName) ← split? key domain
  let kind ← Kind.ofName? kindName
  registry.find? fun d => d.produces = kind ∧ d.verb.name = verbName

def isVerbWord : List Char → Bool
  | [] => false
  | c :: cs => c.isUpper && (c :: cs).all Char.isAlphanum

def isShaped (key domain : String) : Bool :=
  match split? key domain with
  | some (kindName, verbName) => (Kind.ofName? kindName).isSome && isVerbWord verbName.toList
  | none => false

end Directive

end DocExpand

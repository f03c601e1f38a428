/-
  DocExpand.Engine.Scan — the invocations of a document, outermost first.

  An object holds an invocation when one of its keys is shaped like a directive; a shaped
  key that names no directive is a fault, and so is a second shaped key. The members of
  an object are scanned in key order. The arms of a choice are not scanned: only the
  chosen one will stay.
-/

import DocExpand.Engine.Invocation

namespace DocExpand.Engine

/-- The place beside `host` under its key with the suffix, if the document has it. -/
def argumentSibling? (e : Engine) (doc : Json) (host : Locator) : Option Locator := do
  let key ← host.getLast?.bind Segment.key?
  let sibling := host.dropLast ++ [.key (key ++ e.config.argsSuffix)]
  if (Locator.resolve sibling doc).isSome then some sibling else none

/-- The invocation of a directive by a member of the object at `host`. -/
def bind (e : Engine) (doc : Json) (host : Locator) (directive : Directive) (key : String) (argument : Json) :
    Invocation :=
  let branch := host ++ [.key key]
  let sibling := if argument = .bool true then e.argumentSibling? doc host else none
  { directive, branch
    input := sibling.getD branch
    payload := if directive.verb = .load then e.imports host argument else none }

/-- The directive that an object invokes, with its key and argument. -/
def invoked (e : Engine) (host : Locator) :
    List (String × Json) → Except Error (Option (Directive × String × Json))
  | members => go none members
where
  go (found : Option (Directive × String × Json)) :
      List (String × Json) → Except Error (Option (Directive × String × Json))
    | [] => .ok found
    | (key, argument) :: rest =>
      if Directive.isShaped key e.config.domain then
        match Directive.parse? key e.config.domain, found with
        | none, _ => .error (.unknownDirective key host)
        | some _, some (_, first, _) => .error (.duplicateDirective host first key)
        | some d, none => go (some (d, key, argument)) rest
      else go found rest

def isArm (key : String) : Bool := key == "then" || key == "else"

mutual

/-- The invocations of the node at `at_` and of everything beneath it. -/
def scanNode (e : Engine) (doc : Json) (at_ : Locator) : Json → Except Error (List Invocation)
  | .obj members => do
    let found ← e.invoked at_ members
    let own := found.toList.map fun (d, key, argument) => e.bind doc at_ d key argument
    let below ← scanMembers e doc at_ (found.any fun (d, _) => d.verb == .choose) members
    return own ++ below
  | .arr items => scanItems e doc at_ 0 items
  | _ => return []

def scanItems (e : Engine) (doc : Json) (at_ : Locator) (position : Nat) :
    List Json → Except Error (List Invocation)
  | [] => return []
  | item :: rest => do
    let here ← scanNode e doc (at_ ++ [.index position]) item
    let later ← scanItems e doc at_ (position + 1) rest
    return here ++ later

/-- With `skipArms` the arms of a choice are passed over. -/
def scanMembers (e : Engine) (doc : Json) (at_ : Locator) (skipArms : Bool) :
    List (String × Json) → Except Error (List Invocation)
  | [] => return []
  | (key, value) :: rest => do
    let here ← if skipArms && isArm key then pure [] else scanNode e doc (at_ ++ [.key key]) value
    let later ← scanMembers e doc at_ skipArms rest
    return here ++ later

end

def scan (e : Engine) (doc : Json) : Except Error (List Invocation) := e.scanNode doc Locator.root doc

end DocExpand.Engine

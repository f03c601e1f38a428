/-
  DocExpand.Yaml.Node — the nodes of a YAML document.

  An anchor is a slot number: how many different anchor names the document had before
  it. An alias refers to a slot, and a slot means the last node in the document that has
  it, so an anchor that is defined again can share its slot with a later one.
-/

import DocExpand.Yaml.Token

namespace DocExpand.Yaml

/-- What may stand in front of a node: the slot of its anchor, and its tag. -/
structure Properties where
  anchor : Option Nat := none
  tag : Option Tag := none
  deriving DecidableEq, Inhabited

inductive Node where
  | alias (slot : Nat)
  | scalar (properties : Properties) (text : String) (form : Form)
  | seq (properties : Properties) (items : List Node)
  | map (properties : Properties) (members : List (Node × Node))
  deriving Inhabited

namespace Node

/-- A scalar without characters. -/
def void (properties : Properties) : Node := .scalar properties "" .plain

def anchor? : Node → Option Nat
  | .alias _ => none
  | .scalar p _ _ => p.anchor
  | .seq p _ => p.anchor
  | .map p _ => p.anchor

mutual

/-- The slots of a node and everything beneath it, outermost first. -/
def slots : Node → List (Nat × Node)
  | .seq p items => p.anchor.toList.map (·, .seq p items) ++ slotsOfItems items
  | .map p members => p.anchor.toList.map (·, .map p members) ++ slotsOfMembers members
  | node => node.anchor?.toList.map (·, node)

def slotsOfItems : List Node → List (Nat × Node)
  | [] => []
  | item :: rest => item.slots ++ slotsOfItems rest

def slotsOfMembers : List (Node × Node) → List (Nat × Node)
  | [] => []
  | (key, value) :: rest => key.slots ++ value.slots ++ slotsOfMembers rest

end

mutual

/-- How many starts, ends, scalars and aliases the node is made of. -/
def size : Node → Nat
  | .seq _ items => sizeOfItems items + 2
  | .map _ members => sizeOfMembers members + 2
  | _ => 1

def sizeOfItems : List Node → Nat
  | [] => 0
  | item :: rest => item.size + sizeOfItems rest

def sizeOfMembers : List (Node × Node) → Nat
  | [] => 0
  | (key, value) :: rest => key.size + value.size + sizeOfMembers rest

end

end Node

end DocExpand.Yaml

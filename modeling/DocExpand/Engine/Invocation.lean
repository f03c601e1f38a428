/-
  DocExpand.Engine.Invocation — an invocation found in a document, and the engine that
  acts on it.

  The branch is the place of the directive's key, the host is the object around it. The
  input is where the argument stands: the branch itself, or an argument sibling, a
  member beside the host under the host's key with the suffix for arguments.
-/

import DocExpand.Config
import DocExpand.Directive
import DocExpand.Imports
import DocExpand.Locator.Node

namespace DocExpand

structure Invocation where
  directive : Directive
  branch : Locator
  input : Locator
  payload : Option ByteArray := none
  deriving DecidableEq

namespace Invocation

/-- The place of the argument where it is not the branch. -/
def argumentSibling? (i : Invocation) : Option Locator := if i.input = i.branch then none else some i.input

def depth (i : Invocation) : Nat := i.branch.depth

def host (i : Invocation) : Locator := i.branch.dropLast

end Invocation

/-- A configuration and a source of imports. -/
structure Engine where
  config : Config
  imports : Imports

namespace Engine

def parameter? (e : Engine) (name : String) : Option Json :=
  (Members.get? name e.config.parameters).map Yaml.toJson

end Engine

end DocExpand

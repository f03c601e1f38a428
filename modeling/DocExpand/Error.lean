/-
  DocExpand.Error — why an operation is refused, and the text that says so.

  Every constructor is a cause. A failed invocation wraps its cause with the directive's
  identifier and place (`invocation`); `rootCause` takes such wrappers off. Where a reader
  of JSON, YAML or files refuses something, the cause carries what it refused, and the text
  has the reader's own report on that (`Reports`).
-/

import DocExpand.Json.Basic
import DocExpand.Locator.Basic

namespace DocExpand

-- the comparison of the core library, whatever else is imported
attribute [scoped instance (high)] ByteArray.instDecidableEq

/-- Why an import cannot be combined with the object that asks for it. -/
inductive MergeFault where
  | arrayAtRoot
  | missingTarget
  | targetNotObject (target : Locator) (found : Kind)
  | importNotObject (found : Kind)
  | importNotArray (found : Kind)
  | unexpectedKeys (keys : List String)
  | cannotProduce (kind : Kind)
  deriving DecidableEq

/-- Why a document would not stay well-formed. -/
inductive IntegrityFault where
  | encodedValue (bytes : ByteArray)
  | scalarRoot (found : Kind)
  /-- The text of the document does not read back. -/
  | undecodable (text : ByteArray)
  | rootDeletion
  | missingRootArm (arm : String)
  deriving DecidableEq

inductive ConfigFault where
  | yaml (text : String)
  | domain (domain : String)
  | passes
  | argsSuffix
  deriving DecidableEq

inductive Error where
  | decode (bytes : ByteArray)
  | importDecode (bytes : ByteArray)
  | type (place expected found : String)
  | merge (fault : MergeFault)
  | encode (text : ByteArray)
  | integrity (fault : IntegrityFault)
  | unknownDirective (key : String) (place : Locator)
  | duplicateDirective (place : Locator) (first second : String)
  | branchNotFound (place : Locator)
  | importNotFound (place : Locator)
  | undefinedParameter (name : String)
  | passLimitExceeded (limit : Nat)
  | invocation (identifier : String) (place : Locator) (source : Error)
  /-- The invocations of a tree have no order. It is no answer to any document: only a tree with a key twice in one
      object can have such invocations. -/
  | unordered
  | configNotFound (path : String)
  | configInvalid (fault : ConfigFault)
  /-- A directory, or a file whose content is no text. -/
  | io (path : String) (content : Option ByteArray)
  deriving DecidableEq

/-- What the readers say of what they refuse. -/
structure Reports where
  json : ByteArray → String
  yaml : String → String
  io : Option ByteArray → String

namespace MergeFault

def message : MergeFault → String
  | .arrayAtRoot => "cannot insert array in place of root object"
  | .missingTarget => "old data is empty"
  | .targetNotObject target found => "old data at '" ++ target.display ++ "' is " ++ found.name ++ ", not an object"
  | .importNotObject found => "imported data is " ++ found.name ++ ", not an object"
  | .importNotArray found => "imported data is " ++ found.name ++ ", not an array"
  | .unexpectedKeys keys => "unexpected keys, cannot replace with array: " ++ ", ".intercalate keys
  | .cannotProduce kind => "LoadJSON cannot produce " ++ kind.name

end MergeFault

namespace IntegrityFault

def message (r : Reports) : IntegrityFault → String
  | .encodedValue bytes => "written value is not valid JSON: " ++ r.json bytes
  | .scalarRoot found => "document root must be an Object or Array, found " ++ found.name
  | .undecodable text => "document does not decode: " ++ r.json text
  | .rootDeletion => "cannot delete the document root"
  | .missingRootArm arm => "root-level If has no '" ++ arm ++ "' branch to replace the document with"

end IntegrityFault

namespace ConfigFault

def message (r : Reports) : ConfigFault → String
  | .yaml text => r.yaml text
  | .domain given => "domain '" ++ given ++ "' must be non-empty and must not contain '.'"
  | .passes => "max_passes must be at least 1"
  | .argsSuffix => "args_suffix cannot be empty"

end ConfigFault

namespace Error

def message (r : Reports) : Error → String
  | .decode bytes => "[M001] Decode error: " ++ r.json bytes
  | .importDecode bytes => "[M001] Decode error: cannot decode imported data: " ++ r.json bytes
  | .type place expected found => "[M002] Type error at '" ++ place ++ "': expected " ++ expected ++ ", found " ++ found
  | .merge fault => "[M003] Merge error: " ++ fault.message
  | .encode text => "[M004] Encode error: cannot decode JSON for YAML conversion: " ++ r.json text
  | .integrity fault => "[M005] Integrity error: " ++ fault.message r
  | .unknownDirective key place => "[M006] Unknown macro '" ++ key ++ "' at '" ++ place.display ++ "'"
  | .duplicateDirective place first second =>
    "[M007] Object at '" ++ place.display ++ "' holds more than one macro: " ++ first ++ ", " ++ second
  | .branchNotFound place => "[M008] Branch '" ++ place.display ++ "' not found in document"
  | .importNotFound place => "[M009] No import payload for '" ++ place.display ++ "'"
  | .undefinedParameter name =>
    "[M010] Undefined parameter '" ++ name ++ "'. Define it in the parameters: section of the engine config"
  | .passLimitExceeded limit => "[M011] Macro expansion did not settle after " ++ limit.repr ++ " passes"
  | .invocation identifier place source =>
    "[M012] " ++ identifier ++ " at '" ++ place.display ++ "' failed: " ++ source.message r
  | .unordered => "the invocations have no order"
  | .configNotFound path => "[C001] Config file not found: " ++ path
  | .configInvalid fault => "[C002] Invalid config: " ++ fault.message r
  | .io path content => "[C003] Failed to read '" ++ path ++ "': " ++ r.io content

/-- The cause beneath any wrapping by invocations. -/
def rootCause : Error → Error
  | .invocation _ _ source => source.rootCause
  | e => e

end Error

end DocExpand

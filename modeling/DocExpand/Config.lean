/-
  DocExpand.Config — what an expansion is told: the domain of its directives, the merge
  policy, the pass limit, the suffix of argument siblings, and the parameters that
  look-ups can name.
-/

import DocExpand.Error
import DocExpand.Json.Merge
import DocExpand.Yaml.Basic

namespace DocExpand

structure Config where
  domain : String := "kubegen"
  mergePolicy : MergePolicy := .keepExisting
  maxPasses : Nat := 32
  argsSuffix : String := "_args"
  parameters : Members Yaml := []

namespace Config

/-- The first fault of a configuration, if it has one. -/
def fault? (c : Config) : Option ConfigFault :=
  if c.domain.isEmpty || c.domain.toList.contains '.' then some (.domain c.domain)
  else if c.maxPasses = 0 then some .passes
  else if c.argsSuffix.isEmpty then some .argsSuffix
  else none

def validate (c : Config) : Except Error Config :=
  match c.fault? with
  | some fault => .error (.configInvalid fault)
  | none => .ok c

def jsonParameters (c : Config) : Members Json := c.parameters.map fun (name, value) => (name, value.toJson)

end Config

end DocExpand

/-
  DocExpand.Engine.Expand — passes over a document until no invocation is left.

  Applying an invocation carries out its verb and then removes its argument sibling, both
  or neither; a failure names the directive and its place. A pass applies the scheduled
  invocations of one scan and stops at the first failure. Expansion repeats passes until
  one finds nothing; when the limit is reached it scans once more.
-/

import DocExpand.Engine.Scan
import DocExpand.Engine.Schedule
import DocExpand.Engine.Verbs

namespace DocExpand.Engine

/-- An error with the invocation that met it. -/
def wrap (e : Engine) (i : Invocation) (source : Error) : Error :=
  .invocation (i.directive.identifier e.config.domain) i.branch source

def removeSibling (i : Invocation) : Edit Unit := do
  match i.argumentSibling? with
  | some sibling => if (Locator.resolve sibling (← get)).isSome then Edit.delete sibling
  | none => pure ()

/-- The verb and the removal of the argument sibling, both or neither. -/
def perform (e : Engine) (i : Invocation) : Edit Unit :=
  Edit.atomically do
    e.act i
    removeSibling i

def apply (e : Engine) (i : Invocation) : Edit Unit := ExceptT.adapt (e.wrap i) (e.perform i)

/-- One after the other, to the first failure. -/
def execute (e : Engine) : List Invocation → Edit Unit
  | [] => pure ()
  | i :: rest => do
    e.apply i
    execute e rest

/-- The invocations of the document, in the order of a pass. -/
def pending (e : Engine) : Edit (List Invocation) := do
  let found ← e.scan (← get)
  match Invocation.schedule found with
  | some ordered => pure ordered
  | none => throw .unordered

/-- The number of invocations applied. -/
def runPass (e : Engine) : Edit Nat := do
  let ordered ← e.pending
  e.execute ordered
  pure ordered.length

/-- Passes while `left` of them remain, after `done` that found something. -/
def expandFrom (e : Engine) (done : Nat) : Nat → Edit Nat
  | 0 => do
    let found ← e.scan (← get)
    if found.isEmpty then pure done else throw (.passLimitExceeded e.config.maxPasses)
  | left + 1 => do
    let count ← e.runPass
    if count = 0 then pure done else expandFrom e (done + 1) left

/-- Expands the document; the number of passes that found something. -/
def expand (e : Engine) : Edit Nat := e.expandFrom 0 e.config.maxPasses

/-- A document that an engine can start from. -/
def accept (doc : Json) : Except Error Json := (Edit.validate.runOn doc).1.map fun _ => doc

def acceptBytes (bytes : ByteArray) : Except Error Json := do
  let value ← Value.ofBytes bytes
  accept value.content

end DocExpand.Engine

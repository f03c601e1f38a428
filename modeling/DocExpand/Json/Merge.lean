/-
  DocExpand.Json.Merge — one object laid over another.

  Members that both objects have are merged when both are objects; otherwise the policy
  says which value stays. Members that only one has are kept.
-/

import DocExpand.Json.Basic

namespace DocExpand

/-- Whose value stays where two objects disagree. -/
inductive MergePolicy where
  | keepExisting
  | overwrite
  deriving DecidableEq, Repr, Inhabited

namespace MergePolicy

def name : MergePolicy → String
  | keepExisting => "keep_existing"
  | overwrite => "overwrite"

def ofName? (name : String) : Option MergePolicy := [keepExisting, overwrite].find? (·.name == name)

end MergePolicy

namespace Json

mutual

/-- The value that stays where both sides have one. -/
def mergeNode (policy : MergePolicy) (old : Json) : Json → Json
  | obj incoming =>
    match old with
    | obj existing => .obj (mergeMembers policy existing incoming)
    | old => if policy = .overwrite then .obj incoming else old
  | new => if policy = .overwrite then new else old

/-- `incoming` laid over `existing`, member by member. -/
def mergeMembers (policy : MergePolicy) (existing : Members Json) : List (String × Json) → Members Json
  | [] => existing
  | (key, new) :: rest =>
    let value := match Members.get? key existing with
      | some old => mergeNode policy old new
      | none => new
    mergeMembers policy (Members.insert key value existing) rest

end

end Json

end DocExpand

/-
  DocExpand.Imports — where imported documents come from: a function from the object
  that asks and the argument it gives to the bytes of the import, if there are any.
-/

import DocExpand.Json.Basic
import DocExpand.Locator.Basic

namespace DocExpand

abbrev Imports := Locator → Json → Option ByteArray

namespace Imports

def none : Imports := fun _ _ => .none

/-- Imports held by name. A string argument names its import; for any other argument the
    pointer of the asking object does. -/
def ofEntries (entries : Members ByteArray) : Imports := fun host argument =>
  Members.get? (argument.text?.getD host.pointer) entries

end Imports

end DocExpand

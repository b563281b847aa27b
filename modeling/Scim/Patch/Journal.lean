import Scim.Log.Entry
import Scim.Patch.Request

/-!
# Journal of a run

The log entries of a run: one when an operation begins, and one when it fails. They carry the number
of the operation, its change and its path.
-/

namespace Scim

def Operation.logger : Log.Logger := Log.Logger.ofModule ⟨.ofList [], []⟩ "SCIM_PATCH"

/-- The fields that tell which operation an entry is about. -/
def Operation.logFields (op : Operation) (index : Nat) : List (Text × Json) :=
  Object.single "operationIndex" ((Number.nearest? index).map .num) ++
    Object.single "op" (some (.str op.change.name)) ++
    Object.single "path" (op.pathText?.map .str)

namespace Event

/-- The line that a step of a run writes at a time. -/
def line (c : Log.Config) (millis : Int) : Event → Option Log.Line
  | applying index op =>
    (Operation.logger.child (op.logFields index)).write c millis .debug "Applying patch operation"
      [] none
  | failed index op error =>
    (Operation.logger.child (op.logFields index)).write c millis .warn "Patch operation failed"
      [] (some error.message)

end Event

def Request.journal (c : Log.Config) (millis : Int) (options : Option Json) (r : Request)
    (resource : Object) : List Log.Line :=
  (r.traceWith options resource).filterMap (Event.line c millis)

end Scim

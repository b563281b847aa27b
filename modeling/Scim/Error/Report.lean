import Scim.Error
import Scim.Json.Object
import Scim.Schema

/-!
# Error reports

What a client is told of a failure: the status of the response, the detail and the keyword. The body
of the response carries the error schema.
-/

namespace Scim

structure Report where
  status : Number
  detail : Text
  /-- An empty keyword is kept but not told. -/
  keyword : Option Text
  deriving DecidableEq, Inhabited

namespace Report

def badRequestStatus : Number := (Number.nearest? 400).getD .zero

def badRequest (detail : Text) (keyword : Option Text) : Report :=
  ⟨badRequestStatus, detail, keyword⟩

def body (r : Report) : Json :=
  .ofMembers (Object.single "schemas" (some (.arr [.str Schema.errorMessage])) ++
    Object.single "status" (some (.str r.status.text)) ++
    Object.single "scimType" ((r.keyword.filter fun k => !k.isEmpty).map .str) ++
    Object.single "detail" (some (.str r.detail)))

end Report

def Error.report? (e : Error) : Option Report :=
  e.keyword?.map fun k => .badRequest e.message (some k.name)

end Scim

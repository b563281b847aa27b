import Scim.Json.Field
import Scim.Schema

/-!
# Schema roots

Where the attributes of a schema live in a resource: in the object stored under the URN of the
schema, or at the top level if the schema is a core one. A schema is core if its URN is among the
given ones or is the first entry of the resource's `schemas`.
-/

namespace Scim.Schema

/-- The attribute that lists the schemas of a resource. -/
def listName : Text := "schemas"

/-- Whether the attributes of a schema live at the top level of the document. -/
def isCore (core : List Text) (doc : Object) (urn : Text) : Bool :=
  core.any (fun c => c.lower == urn.lower) ||
    match doc.field? listName with
    | some (.arr (.str first :: _)) => first.lower == urn.lower
    | _ => false

def extension? (doc : Object) (urn : Text) : Option (Text × Object) := do
  let key ← doc.findKey? urn
  let members ← (← doc.get? key).object?
  return (key, members)

/-- The object that holds the attributes of a schema, with the names that lead to it. -/
def root? (core : List Text) (doc : Object) (urn : Text) : Option (List Text × Object) :=
  match extension? doc urn with
  | some (key, members) => some ([key], members)
  | none => if isCore core doc urn then some ([], doc) else none

/-- The root of an optional schema; without a schema it is the document. -/
def rootOf? (core : List Text) (doc : Object) : Option Text → Option (List Text × Object)
  | none => some ([], doc)
  | some urn => root? core doc urn

end Scim.Schema

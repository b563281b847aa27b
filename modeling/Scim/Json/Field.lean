import Scim.Json.Object
import Scim.Json.Same
import Scim.Text.LowerCase

/-!
# Fields

A field is a member found by name without regard to letter case: the exact name if it is stored,
else the first name that is equal in lower case. Writing keeps the stored spelling. `merge` and
`replace` are the two ways of writing a value over a field; both descend through objects.
-/

namespace Scim

namespace Json

mutual

/-- Null, or an array that holds nothing but such values: no value at all. -/
def isUnassigned : Json → Bool
  | .null => true
  | .arr items => allUnassigned items
  | _ => false
termination_by structural v => v

def allUnassigned : List Json → Bool
  | [] => true
  | v :: rest => v.isUnassigned && allUnassigned rest
termination_by structural vs => vs

end

end Json

namespace Object

/-- The stored spelling of a name. -/
def findKey? (o : Object) (name : Text) : Option Text :=
  if o.hasKey name then some name
  else o.keys.find? fun key => key.lower == name.lower

def field? (o : Object) (name : Text) : Option Json := (o.findKey? name).bind o.get?

def setField (o : Object) (name : Text) (value : Json) : Object :=
  o.assign ((o.findKey? name).getD name) value

def hasField (o : Object) (name : Text) : Bool := (o.findKey? name).isSome

def removeField (o : Object) (name : Text) : Object :=
  match o.findKey? name with
  | some key => o.erase key
  | none => o

/-- The items followed by those of `new` that equal none before them. -/
def appendNew (items : List Json) (new : List Json) : List Json :=
  new.foldl (fun items v => if items.any fun w => w.same v then items else items ++ [v]) items

mutual

/-- Merges a value into a field. Null and the empty array leave it as it is, objects merge member by
member, arrays gain the items they lack, and anything else overwrites. -/
def merge (o : Object) (name : Text) (value : Json) : Object :=
  match value with
  | .null => o
  | .arr items =>
    if items.isEmpty then o
    else match o.field? name with
      | some (.arr old) => o.setField name (.arr (appendNew old items))
      | _ => o.setField name (.arr items)
  | .obj ⟨members, unlocked⟩ =>
    match o.field? name with
    | some (.obj old) => o.setField name (.obj (mergeMembers old members))
    | _ => o.setField name (.obj ⟨members, unlocked⟩)
  | value => o.setField name value
termination_by structural value

def mergeMembers (o : Object) (members : List (Text × Json)) : Object :=
  match members with
  | [] => o
  | (key, value) :: rest => mergeMembers (merge o key value) rest
termination_by structural members

end

mutual

/-- Replaces a field. A value that is no value removes it, objects are replaced member by member,
and anything else overwrites. -/
def replace (o : Object) (name : Text) (value : Json) : Object :=
  if value.isUnassigned then o.removeField name
  else match value with
    | .obj ⟨members, unlocked⟩ =>
      match o.field? name with
      | some (.obj old) => o.setField name (.obj (replaceMembers old members))
      | _ => o.setField name (.obj ⟨members, unlocked⟩)
    | value => o.setField name value
termination_by structural value

def replaceMembers (o : Object) (members : List (Text × Json)) : Object :=
  match members with
  | [] => o
  | (key, value) :: rest => replaceMembers (replace o key value) rest
termination_by structural members

end

end Object

end Scim

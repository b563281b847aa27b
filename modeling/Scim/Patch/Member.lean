import Scim.Patch.Operation

/-!
# Members

The members that a removal lists in its value, either as an array or as an object with such an array
in its field `members`.
-/

namespace Scim

/-- A member of a group. The reference may be null, which differs from leaving it out. -/
structure Member where
  value : Option Text
  ref : Option (Option Text)
  type : Option Text
  display : Option Text
  deriving DecidableEq, Inhabited

namespace Member

def toJson (m : Member) : Json :=
  .ofMembers (Object.single "value" (m.value.map .str) ++
    Object.single "$ref" (m.ref.map fun r => (r.map .str).getD .null) ++
    Object.single "type" (m.type.map .str) ++ Object.single "display" (m.display.map .str))

def text? (o : Object) (name : Text) : Option (Option Text) :=
  match o.get? name with
  | none => some none
  | some (.str t) => some (some t)
  | some _ => none

/-- An optional text or null in a field of this name. -/
def nullableText? (o : Object) (name : Text) : Option (Option (Option Text)) :=
  match o.get? name with
  | some .null => some (some none)
  | _ => (text? o name).map (·.map some)

/-- The names of the fields; there are no others. -/
def fieldNames : List Text := ["value", "$ref", "type", "display"]

def ofJson? (v : Json) : Option Member := do
  let o ← v.object?
  let value ← text? o "value"
  let ref ← nullableText? o "$ref"
  let type ← text? o "type"
  let display ← text? o "display"
  if o.keys.all fieldNames.contains then some ⟨value, ref, type, display⟩ else none

end Member

namespace Operation

/-- The list that the value of a removal holds. -/
def listed? : Json → Option (List Json)
  | .arr items => some items
  | .obj o => (Object.field? o membersName).bind Json.items?
  | _ => none

def members (op : Operation) : Except Error (List Member) :=
  if op.change ≠ .remove then .error .membersOfOtherChange
  else match given? op.value with
    | none => .ok []
    | some v =>
      match listed? v with
      | none => .error .memberListMissing
      | some items =>
        match items.mapM Member.ofJson? with
        | some ms => .ok ms
        | none => .error .invalidMember

/-- The value that lists the members; `nested` puts the list into a field. -/
def memberValue (nested : Bool) (ms : List Member) : Json :=
  let items := Json.arr (ms.map Member.toJson)
  if nested then .ofMembers [(membersName, items)] else items

/-- The removal with its members replaced by the given ones; none if there are none, and the
operation stands as it is. -/
def withMembers? (op : Operation) (ms : List (Option Member)) (nested : Bool) :
    Except Error (Option Operation) :=
  if op.change ≠ .remove then .error .withMembersOfOtherChange
  else match ms.reduceOption with
    | [] => .ok none
    | ms =>
      (make .remove (some ⟨op.path.bind (·.schemaUrn), [⟨membersName, none⟩]⟩)
        (some (memberValue nested ms))).map some

end Operation

end Scim

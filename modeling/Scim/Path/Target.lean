import Scim.Error
import Scim.Path.Resolve

/-!
# Writing along a path

A path to write to addresses one place: a whole object, a field that may not exist yet, or those
values of a multi-valued attribute that a filter on the first element selects. Objects that are
missing on the way can be created; they stay in the document even if the path turns out to be unfit
after that. One that an assignment to the reserved name does not store is no part of the document,
and what is written inside it is lost: its target has no location.
-/

namespace Scim

/-- A place to write to; `container` leads through named members to the object it is in. -/
inductive Target where
  | root (container : List Text)
  | field (container : List Text) (name : Text)
  /-- The items of a field that satisfy a filter; there are none if the field is absent. The names
  after the first element of the path are the sub-attributes. -/
  | selection (container : List Text) (name : Text) (filter : Filter) (items : Option (List Json))
    (subAttributes : List Text)
  deriving Inhabited

namespace Target

def container : Target → List Text
  | root container | field container _ | selection container .. => container

/-- The location of the object of a target, if the document has it. -/
def location? (t : Target) (doc : Object) : Option Location :=
  let location := t.container.map Step.key
  ((Json.obj doc).at? location).map fun _ => location

end Target

namespace Object

/-- The name under which a field is stored, or will be. -/
def storedName (o : Object) (name : Text) : Text := (o.findKey? name).getD name

/-- The document with an empty object in a field of the object at `container`, and the way to it. -/
def createObject (doc : Object) (container : List Text) (name : Text) : List Text × Object :=
  (container ++ [(doc.objectAt container).storedName name],
    doc.modifyAt (·.setField name (.obj empty)) container)

end Object

namespace Path

def matchingIndexes (core : List Text) (filter : Filter) (items : List Json) : List Nat :=
  (items.zipIdx.filter fun i => filter.holds core i.1).map (·.2)

/-- The object that a schema's attributes are written to. -/
def targetRoot (core : List Text) (urn : Option Text) (doc : Object) (create : Bool) :
    Except Error (Option (List Text)) × Object :=
  match urn with
  | none => (.ok (some []), doc)
  | some urn =>
    match Schema.root? core doc urn with
    | some (keys, _) => (.ok (some keys), doc)
    | none =>
      match (doc.field? urn).getD .null with
      | .null =>
        if create then
          let (keys, doc) := doc.createObject [] urn
          (.ok (some keys), doc)
        else (.ok none, doc)
      | _ => (.error (.extensionNotObject urn), doc)

/-- The object inside which the last of the elements is a field, from the object at `container`. -/
def targetContainer (path : Path) (create : Bool) (elements : List PathElement)
    (container : List Text) (doc : Object) : Except Error (Option (List Text)) × Object :=
  match elements with
  | [] => (.ok (some container), doc)
  | [_] => (.ok (some container), doc)
  | e :: rest =>
    match ((doc.objectAt container).field? e.name).getD .null with
    | .obj _ =>
      targetContainer path create rest
        (container ++ [(doc.objectAt container).storedName e.name]) doc
    | .null =>
      if create then
        let (keys, doc) := doc.createObject container e.name
        targetContainer path create rest keys doc
      else (.ok none, doc)
    | _ => (.error (.notComplex path e.name), doc)
termination_by structural elements

/-- The target of a path whose first element has a filter. -/
def targetSelection (container : List Text) (name : Text) (filter : Filter)
    (subAttributes : List Text) (doc : Object) : Except Error Target :=
  match ((doc.objectAt container).field? name).getD .null with
  | .arr items => .ok (.selection container name filter (some items) subAttributes)
  | .null => .ok (.selection container name filter none subAttributes)
  | _ => .error (.selectorOnSingleValue name)

/-- The place that a path addresses for writing, and the document with the objects created on the
way. Without `create` there may be no such place. -/
def target (core : List Text) (p : Path) (doc : Object) (create : Bool) :
    Except Error (Option Target) × Object :=
  match targetRoot core p.schemaUrn doc create with
  | (.error e, doc) => (.error e, doc)
  | (.ok none, doc) => (.ok none, doc)
  | (.ok (some container), doc) =>
    match p.elements with
    | [] => (.ok (some (.root container)), doc)
    | first :: rest =>
      if rest.any fun e => e.selector.isSome then (.error (.lateSelector p), doc)
      else match first.selector with
        | some filter =>
          ((targetSelection container first.name filter (rest.map (·.name)) doc).map some, doc)
        | none =>
          match targetContainer p create (first :: rest) container doc with
          | (.ok (some container), doc) =>
            (.ok (some (.field container ((first :: rest).getLast (by simp)).name)), doc)
          | (.ok none, doc) => (.ok none, doc)
          | (.error e, doc) => (.error e, doc)

end Path

end Scim

import Scim.Filter.Compare
import Scim.Schema.Root

/-!
# Evaluation

Whether a filter holds for a value. A path is followed through objects and through the items of
arrays, and a condition holds if one of the values it leads to satisfies it. For a value that is no
object, the path `value` leads to the value itself.
-/

namespace Scim

/-- What the path of a condition leads to from a value that is no object. -/
def Path.ofScalar (p : Path) (v : Json) : List Json :=
  match p.schemaUrn, p.elements, v with
  | none, [e], .bool _ | none, [e], .num _ | none, [e], .str _ =>
    if e.name.lower == "value" then [v] else []
  | _, _, _ => []

mutual

def Filter.holds (core : List Text) (f : Filter) (v : Json) : Bool :=
  match f with
  | .compare op path l => op.holds l (path.candidates core v)
  | .present path => (path.candidates core v).any fun w => !w.isUnassigned
  | .logical .and first second rest =>
    first.holds core v && second.holds core v && Filter.allHold core rest v
  | .logical .or first second rest =>
    first.holds core v || second.holds core v || Filter.anyHolds core rest v
  | .not filter => !filter.holds core v
  | .complex path filter => (path.candidates core v).any fun w => filter.holds core w
termination_by structural f

def Filter.allHold (core : List Text) (fs : List Filter) (v : Json) : Bool :=
  match fs with
  | [] => true
  | f :: rest => f.holds core v && Filter.allHold core rest v
termination_by structural fs

def Filter.anyHolds (core : List Text) (fs : List Filter) (v : Json) : Bool :=
  match fs with
  | [] => false
  | f :: rest => f.holds core v || Filter.anyHolds core rest v
termination_by structural fs

/-- The values that a path leads to, arrays replaced by their items and nulls left out. -/
def Path.candidates (core : List Text) (p : Path) (v : Json) : List Json :=
  match p with
  | ⟨urn, elements⟩ =>
    match v with
    | .obj doc =>
      match Schema.rootOf? core doc urn with
      | some (_, root) =>
        ((Path.follow core elements [.obj root]).flatMap Json.flatten).filter fun w => !w.isNull
      | none => []
    | v => Path.ofScalar ⟨urn, elements⟩ v
termination_by structural p

def Path.follow (core : List Text) (elements : List PathElement) (values : List Json) : List Json :=
  match elements with
  | [] => values
  | e :: rest =>
    Path.follow core rest ((values.flatMap Json.flatten).flatMap fun v => e.valuesIn core v)
termination_by structural elements

/-- The values that one element leads to from a value: the field of an object, or the items of the
field that the element's filter selects. -/
def PathElement.valuesIn (core : List Text) (e : PathElement) (v : Json) : List Json :=
  match e with
  | ⟨name, selector⟩ =>
    match v.object?.bind (Object.field? · name), selector with
    | none, _ => []
    | some field, none => [field]
    | some field, some filter => field.flatten.filter fun w => filter.holds core w
termination_by structural e

end

end Scim

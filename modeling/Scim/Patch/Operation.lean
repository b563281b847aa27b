import Scim.Error
import Scim.Filter.Build
import Scim.Json.Field

/-!
# Patch operations

An operation adds, replaces or removes what its path addresses; without a path it acts on the whole
resource. `Operation.make` lets through only operations that make sense by themselves: whether they
fit a resource shows when they are applied.
-/

namespace Scim

namespace Json

mutual

/-- Whether some object inside a value has a member of the reserved name. -/
def hasReservedKey : Json → Bool
  | .arr items => anyReservedKey items
  | .obj ⟨members, _⟩ => memberReservedKey members
  | _ => false
termination_by structural v => v

def anyReservedKey : List Json → Bool
  | [] => false
  | v :: rest => v.hasReservedKey || anyReservedKey rest
termination_by structural vs => vs

def memberReservedKey : List (Text × Json) → Bool
  | [] => false
  | (key, v) :: rest => key == reservedName || v.hasReservedKey || memberReservedKey rest
termination_by structural ms => ms

end

theorem anyReservedKey_eq_any (items : List Json) :
    anyReservedKey items = items.any hasReservedKey := by
  induction items with
  | nil => rfl
  | cons v rest ih => rw [anyReservedKey, ih, List.any_cons]

theorem memberReservedKey_eq_any (ms : List (Text × Json)) :
    memberReservedKey ms = ms.any fun m => m.1 == reservedName || m.2.hasReservedKey := by
  induction ms with
  | nil => rfl
  | cons m rest ih => rw [memberReservedKey, ih, List.any_cons]

end Json

structure Operation where
  change : Change
  path : Option Path
  value : Option Json
  deriving Inhabited

namespace Operation

/-- The attribute whose values a removal may list. -/
def membersName : Text := "members"

/-- A value that is there and not null. -/
def given? : Option Json → Option Json
  | none | some .null => none
  | some v => some v

/-- Whether a value says nothing: it is missing, null or an object without members. -/
def isVoid : Option Json → Bool
  | none | some .null | some (.obj ⟨[], _⟩) => true
  | _ => false

/-- Whether a removal at this path may list the values to remove. -/
def takesMembers (p : Path) : Bool :=
  match p.elements with
  | [⟨name, none⟩] => name.lower == membersName
  | _ => false

/-- Only the first element of a path may have a filter. -/
def checkSelectors (p : Path) : Except Error Unit :=
  match p.elements with
  | first :: rest =>
    if rest.any fun e => e.selector.isSome then
      .error (if first.selector.isNone then .selectorOnSubAttribute p else .repeatedSelector p)
    else .ok ()
  | [] => .ok ()

/-- A removal needs a path, and any other change a value. -/
def checkValue (change : Change) (path : Option Path) (value : Option Json) : Except Error Unit :=
  match change with
  | .remove =>
    match path with
    | none => .error .removeWithoutPath
    | some p =>
      if (given? value).isSome && !takesMembers p then .error (.unexpectedRemoveValue p) else .ok ()
  | change => if isVoid value then .error (.valueMissing change) else .ok ()

/-- A filter that an addition can make true: one attribute equal to a value that is not null. -/
def isAssignment : Filter → Bool
  | .compare .eq ⟨none, [⟨_, none⟩]⟩ l => l != .null
  | _ => false

/-- A filter on the first element is followed by at most one element; that of an addition by one,
and it must say what a new value would be. -/
def checkSelection (change : Change) (p : Path) (value : Option Json) : Except Error Unit :=
  match p.elements with
  | ⟨_, some filter⟩ :: _ =>
    if 2 < p.elements.length || (change = .add && p.elements.length ≠ 2) then
      .error (.selectorPosition change p)
    else if change ≠ .add then .ok ()
    else if !isAssignment filter then .error (.addSelectorForm p)
    else match value with
      | some (.arr _) => .error (.addArrayValue p)
      | _ => .ok ()
  | _ => .ok ()

def check (change : Change) (path : Option Path) (value : Option Json) : Except Error Unit := do
  if value.any Json.hasReservedKey then throw .reservedKey
  if let some p := path then checkSelectors p
  checkValue change path value
  if let some p := path then checkSelection change p value

def make (change : Change) (path : Option Path) (value : Option Json) : Except Error Operation := do
  let path := path.filter fun p => !p.isRoot
  check change path value
  return ⟨change, path, value⟩

/-- The same with the path as text. -/
def ofText (o : ParserOptions) (change : Change) (path : Option Text) (value : Option Json) :
    Except Error Operation := do
  match path with
  | some t => make change (some (← Path.ofText o t)) value
  | none => make change none value

def pathText? (op : Operation) : Option Text := op.path.map Path.render

/-- Whether the operation removes the members that its value lists. -/
def removesByValue (op : Operation) : Bool := op.change = .remove && (given? op.value).isSome

def toJson (op : Operation) : Json :=
  .ofMembers (Object.single "op" (some (.str op.change.name)) ++
    Object.single "path" (op.pathText?.map .str) ++ Object.single "value" op.value)

end Operation

end Scim

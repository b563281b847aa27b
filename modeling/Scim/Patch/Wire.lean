import Scim.Patch.Operation

/-!
# The wire form

Operations and requests as they are sent. The names of fields and of the change may be written in
any letter case; of a field that is given twice the last counts. All issues of a message are
reported together, and only then are its operations made, one after the other.
-/

namespace Scim

open Shape

namespace Wire

/-- The last member that has this name in some letter case. -/
def member? (o : Object) (name : Text) : Option Json :=
  (o.members.reverse.find? fun m => m.1.lower == name.lower).map (·.2)

/-- The check of one field, found in any letter case. -/
def field {α : Type} (o : Object) (name : Text) (check : Option Json → Checked α) : Checked α :=
  .under name (check (member? o name))

def changeNames : Text := Text.join " | " (Change.all.map fun c => "'" ++ c.name ++ "'")

/-- The name of a change in any letter case. -/
def changeOf : Json → Checked Change
  | .str t =>
    match Change.ofName? t.lower with
    | some c => .ok c
    | none =>
      .fail ("Invalid enum value. Expected " ++ changeNames ++ ", received '" ++ t.lower ++ "'")
  | v => mismatch changeNames v

/-- An operation as it is sent, its path still a text. -/
structure Draft where
  change : Change
  path : Option Text
  value : Option Json
  deriving Inhabited

def Draft.check (v : Json) : Checked Draft := do
  let o ← object v
  let (change, path) ← Checked.both (field o "op" (required changeOf))
    (field o "path" (optional nullableString))
  return ⟨change, path.join, member? o "value"⟩

/-- A list of URNs that has the one of patch messages in it. -/
def schemas (v : Json) : Checked (List Text) := do
  let urns ← arrayOf string v
  if urns.any fun urn => urn.lower == Schema.patchMessage.lower then return urns
  else .fail ("Must contain '" ++ Schema.patchMessage ++ "'")

def drafts (v : Json) : Checked (List Draft) := do
  let o ← object v
  let (_, drafts) ← Checked.both (field o "schemas" (optional schemas))
    (field o "Operations" (required (arrayOf Draft.check)))
  return drafts

end Wire

namespace Operation

def ofDraft (o : ParserOptions) (d : Wire.Draft) : Except Error Operation :=
  ofText o d.change d.path d.value

/-- The operation that a value writes; none stands for a missing value. -/
def ofJson (o : ParserOptions) (v : Option Json) : Except Error Operation := do
  if v.any Json.hasReservedKey then throw .reservedKey
  let d ← (required Wire.Draft.check v).mapError .malformedOperation
  ofDraft o d

end Operation

structure Request where
  operations : List Operation
  deriving Inhabited

namespace Request

/-- The request that a value writes; none stands for a missing value. -/
def ofJson (o : ParserOptions) (v : Option Json) : Except Error Request := do
  if v.any Json.hasReservedKey then throw .reservedKey
  let drafts ← (required Wire.drafts v).mapError .malformedRequest
  return ⟨← drafts.mapM (Operation.ofDraft o)⟩

def toJson (r : Request) : Json :=
  .ofMembers [("schemas", .arr [.str Schema.patchMessage]),
    ("Operations", .arr (r.operations.map Operation.toJson))]

end Request

end Scim

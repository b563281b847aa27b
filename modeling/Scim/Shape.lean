import Scim.Json.Object

/-!
# Shapes

Checking that a document has the shape an option value or a message must have. A check gives either
the value it read or every issue that it found; an issue says where it is and what is wrong there.
-/

namespace Scim

/-- Something wrong at one place of a document; the path leads to it from the root. -/
structure Issue where
  path : List Text
  text : Text
  deriving DecidableEq, Inhabited

namespace Issue

/-- The path with points; the root has a name of its own. -/
def place (i : Issue) : Text :=
  if (Text.join "." i.path).isEmpty then "(root)" else Text.join "." i.path

def format (i : Issue) : Text := i.place ++ ": " ++ i.text

def formatAll (issues : List Issue) : Text := Text.join "; " (issues.map format)

end Issue

/-- A value read from a document, or all that is wrong with it. -/
abbrev Checked (α : Type) := Except (List Issue) α

namespace Checked

def fail {α : Type} (text : Text) : Checked α := .error [⟨[], text⟩]

/-- The result of a check made one step below the present place. -/
def under {α : Type} (step : Text) : Checked α → Checked α
  | .ok a => .ok a
  | .error issues => .error (issues.map fun i => { i with path := step :: i.path })

/-- Two results; the issues of both are kept, in order. -/
def both {α β : Type} : Checked α → Checked β → Checked (α × β)
  | .ok a, .ok b => .ok (a, b)
  | .error i, .ok _ => .error i
  | .ok _, .error j => .error j
  | .error i, .error j => .error (i ++ j)

/-- The results of a check on each item, the first item being at `index`. -/
def each {α : Type} (check : Json → Checked α) (index : Nat) : List Json → Checked (List α)
  | [] => .ok []
  | v :: rest =>
    (both (under (Text.ofNat index) (check v)) (each check (index + 1) rest)).map fun r =>
      r.1 :: r.2

end Checked

namespace Json

def typeName : Json → Text
  | .null => "null"
  | .bool _ => "boolean"
  | .num _ => "number"
  | .str _ => "string"
  | .arr _ => "array"
  | .obj _ => "object"

end Json

namespace Shape

def mismatch {α : Type} (type : Text) (v : Json) : Checked α :=
  .fail ("Expected " ++ type ++ ", received " ++ v.typeName)

def required {α : Type} (check : Json → Checked α) : Option Json → Checked α
  | none => .fail "Required"
  | some v => check v

def optional {α : Type} (check : Json → Checked α) : Option Json → Checked (Option α)
  | none => .ok none
  | some v => (check v).map some

/-- A field that has a value where it is left out. -/
def withDefault {α : Type} (a : α) (check : Json → Checked α) : Option Json → Checked α
  | none => .ok a
  | some v => check v

def string : Json → Checked Text
  | .str t => .ok t
  | v => mismatch "string" v

def nullableString : Json → Checked (Option Text)
  | .null => .ok none
  | v => (string v).map some

def boolean : Json → Checked Bool
  | .bool b => .ok b
  | v => mismatch "boolean" v

def object : Json → Checked Object
  | .obj members => .ok members
  | v => mismatch "object" v

def arrayOf {α : Type} (check : Json → Checked α) : Json → Checked (List α)
  | .arr items => .each check 0 items
  | v => mismatch "array" v

def field {α : Type} (o : Object) (name : Text) (check : Option Json → Checked α) : Checked α :=
  .under name (check (o.get? name))

end Shape

end Scim

import Scim.Number.Shortest
import Scim.Text.Quoted

/-!
# Documents

A JSON value with the members of its objects in the order they are kept. `Json.render` writes it
without white space.
-/

namespace Scim

/-- Named values in order. A record that is `unlocked` takes new members of every name; this is no
part of what it shows. -/
structure Record (α : Type) where
  members : List (Text × α)
  unlocked : Bool
  deriving Inhabited

inductive Json where
  | null
  | bool (value : Bool)
  | num (value : Number)
  | str (value : Text)
  | arr (items : List Json)
  | obj (object : Record Json)
  deriving Inhabited

abbrev Object := Record Json

namespace Json

/-- The items of an array or the members of an object, with commas between. -/
def commaJoin (ts : List Text) : Text := Text.join "," ts

mutual

def render : Json → Text
  | .null => "null"
  | .bool true => "true"
  | .bool false => "false"
  | .num x => x.text
  | .str t => Quoted.encode t
  | .arr items => "[" ++ commaJoin (renderItems items) ++ "]"
  | .obj ⟨members, _⟩ => "\x7b" ++ commaJoin (renderMembers members) ++ "\x7d"
termination_by structural v => v

def renderItems : List Json → List Text
  | [] => []
  | v :: rest => v.render :: renderItems rest
termination_by structural vs => vs

def renderMembers : List (Text × Json) → List Text
  | [] => []
  | (k, v) :: rest => (Quoted.encode k ++ ":" ++ v.render) :: renderMembers rest
termination_by structural ms => ms

end

def ofMembers (members : List (Text × Json)) : Json := .obj ⟨members, false⟩

def object? : Json → Option Object
  | .obj o => some o
  | _ => none

def items? : Json → Option (List Json)
  | .arr items => some items
  | _ => none

def text? : Json → Option Text
  | .str t => some t
  | _ => none

def isObject (v : Json) : Bool := v.object?.isSome

def isNull : Json → Bool
  | .null => true
  | _ => false

/-- The parts of a value by name: the members of an object, and the items of an array or the units
of a text under their indexes. -/
def parts : Json → List (Text × Json)
  | .obj o => o.members
  | .arr items => items.zipIdx.map fun i => (Text.ofNat i.2, i.1)
  | .str t => t.zipIdx.map fun i => (Text.ofNat i.2, .str [i.1])
  | _ => []

/-- A value that says no: null, false, zero or the empty text. -/
def isNegative : Json → Bool
  | .null | .bool false | .str [] => true
  | .num x => x == .zero
  | _ => false

/-- The items of an array; any other value stands for itself. -/
def flatten : Json → List Json
  | .arr items => items
  | v => [v]

end Json

end Scim

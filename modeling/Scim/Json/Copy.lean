import Scim.Json

/-!
# Copies

A copy of a value shows what the value shows. Its objects are locked, whether those of the value are
or not.
-/

namespace Scim.Json

mutual

def copy : Json → Json
  | .arr items => .arr (copyItems items)
  | .obj ⟨members, _⟩ => .ofMembers (copyMembers members)
  | v => v
termination_by structural v => v

def copyItems : List Json → List Json
  | [] => []
  | v :: rest => v.copy :: copyItems rest
termination_by structural vs => vs

def copyMembers : List (Text × Json) → List (Text × Json)
  | [] => []
  | (key, v) :: rest => (key, v.copy) :: copyMembers rest
termination_by structural ms => ms

end

end Scim.Json

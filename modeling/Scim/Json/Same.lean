import Scim.Json.Object

/-!
# The same value

Two documents are the same when they differ at most in the order of object members.
-/

namespace Scim.Json

mutual

def same : Json → Json → Bool
  | .null, .null => true
  | .bool a, .bool b => a == b
  | .num a, .num b => a == b
  | .str a, .str b => a == b
  | .arr as, .arr bs => sameItems as bs
  | .obj ⟨as, _⟩, .obj b => as.length == b.members.length && sameMembers as b
  | _, _ => false
termination_by structural a => a

/-- The same items in the same order. -/
def sameItems : List Json → List Json → Bool
  | [], [] => true
  | a :: as, b :: bs => same a b && sameItems as bs
  | _, _ => false
termination_by structural as => as

/-- Every member is in the object `o` with the same value. -/
def sameMembers : List (Text × Json) → Object → Bool
  | [], _ => true
  | (key, a) :: as, o =>
    (match o.get? key with
      | some b => same a b
      | none => false) && sameMembers as o
termination_by structural as => as

end

end Scim.Json

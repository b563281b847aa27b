import Scim.Json

/-!
# Values inside a line

A value as a part of a line of text. In contrast to its rendering, a text stands without quotes, an
array without brackets, and an object only as the fact that there is one.
-/

namespace Scim

namespace Json

mutual

/-- A value inside a line of text. The items of an array stand between commas, with nothing for
null; an object is not looked into. -/
def inLine : Json → Text
  | .null => "null"
  | .bool true => "true"
  | .bool false => "false"
  | .num x => x.text
  | .str t => t
  | .arr items => commaJoin (itemsInLine items)
  | .obj _ => "[object Object]"
termination_by structural v => v

def itemsInLine : List Json → List Text
  | [] => []
  | .null :: rest => [] :: itemsInLine rest
  | v :: rest => v.inLine :: itemsInLine rest
termination_by structural vs => vs

end

end Json

end Scim

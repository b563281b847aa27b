import Scim.Filter
import Scim.Number.Shortest
import Scim.Text.Quoted

/-!
# Written filters and paths

The canonical text of a filter or path: one space around operators, parentheses around every
connective, and a colon after the schema URN even where no attribute follows.
-/

namespace Scim

def Literal.render : Literal → Text
  | .null => "null"
  | .bool true => "true"
  | .bool false => "false"
  | .num x => x.text
  | .str t => Quoted.encode t

mutual

def Filter.render : Filter → Text
  | .compare op path value => path.render ++ " " ++ op.name ++ " " ++ value.render
  | .present path => path.render ++ " pr"
  | .logical op first second rest =>
    "(" ++ Text.join (" " ++ op.name ++ " ")
      (first.render :: second.render :: Filter.renderAll rest) ++ ")"
  | .not filter => "not (" ++ filter.render ++ ")"
  | .complex path filter => path.render ++ "[" ++ filter.render ++ "]"
termination_by structural f => f

def Filter.renderAll : List Filter → List Text
  | [] => []
  | f :: rest => f.render :: Filter.renderAll rest
termination_by structural fs => fs

def Path.render : Path → Text
  | ⟨urn, elements⟩ =>
    (match urn with
      | some urn => urn ++ ":"
      | none => []) ++ Text.join "." (Path.renderElements elements)
termination_by structural p => p

def Path.renderElements : List PathElement → List Text
  | [] => []
  | e :: rest => e.render :: Path.renderElements rest
termination_by structural es => es

def PathElement.render : PathElement → Text
  | ⟨name, none⟩ => name
  | ⟨name, some selector⟩ => name ++ "[" ++ selector.render ++ "]"
termination_by structural e => e

end

end Scim

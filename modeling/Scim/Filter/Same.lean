import Scim.Filter
import Scim.Text.LowerCase

/-!
# The same filter

Two filters or paths are the same when they have one shape and differ at most in the letter case of
attribute names and schema URNs. Compared values must be equal.
-/

namespace Scim

/-- Both URNs are absent, or both are there and differ at most in letter case. -/
def sameUrn : Option Text → Option Text → Bool
  | none, none => true
  | some a, some b => a.sameLetters b
  | _, _ => false

mutual

def Filter.same : Filter → Filter → Bool
  | .compare op p v, .compare op' p' v' => op == op' && p.same p' && v == v'
  | .present p, .present p' => p.same p'
  | .logical op f g fs, .logical op' f' g' fs' =>
    op == op' && f.same f' && g.same g' && Filter.sameAll fs fs'
  | .not f, .not f' => f.same f'
  | .complex p f, .complex p' f' => p.same p' && f.same f'
  | _, _ => false
termination_by structural f => f

def Filter.sameAll : List Filter → List Filter → Bool
  | [], [] => true
  | f :: fs, f' :: fs' => f.same f' && Filter.sameAll fs fs'
  | _, _ => false
termination_by structural fs => fs

def Path.same : Path → Path → Bool
  | ⟨urn, es⟩, p => sameUrn urn p.schemaUrn && Path.sameElements es p.elements
termination_by structural p => p

def Path.sameElements : List PathElement → List PathElement → Bool
  | [], [] => true
  | e :: es, e' :: es' => e.same e' && Path.sameElements es es'
  | _, _ => false
termination_by structural es => es

def PathElement.same : PathElement → PathElement → Bool
  | ⟨name, none⟩, e => name.sameLetters e.name && e.selector.isNone
  | ⟨name, some f⟩, e =>
    name.sameLetters e.name &&
      (match e.selector with
        | some f' => f.same f'
        | none => false)
termination_by structural e => e

end

end Scim

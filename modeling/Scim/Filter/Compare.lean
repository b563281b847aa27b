import Scim.Filter
import Scim.Instant
import Scim.Json.Field

/-!
# Comparisons

When a value of a resource satisfies a comparison with a literal. Texts that both name an instant
compare as instants, other texts without regard to letter case; equality and order each make that
choice by themselves. Values of different types never satisfy a comparison, and only null equals what
is unassigned.
-/

namespace Scim

namespace Text

/-- Whether two texts are equal: as instants if both are, else in lower case. -/
def equal (a b : Text) : Bool :=
  match Instant.compareTexts? a b with
  | some order => order == .eq
  | none => a.lower == b.lower

/-- The order of two texts: as instants if both are, else in lower case. -/
def order (a b : Text) : Ordering :=
  match Instant.compareTexts? a b with
  | some order => order
  | none => Instant.compareText a.lower b.lower

end Text

namespace Literal

/-- Whether a value equals the literal; none for values of different types. -/
def equals? (value : Json) (l : Literal) : Option Bool :=
  match value, l with
  | .str a, .str b => some (Text.equal a b)
  | .num a, .num b => some (a == b)
  | .bool a, .bool b => some (a == b)
  | _, _ => none

/-- How a value is ordered with respect to the literal; booleans are never ordered. -/
def order? (value : Json) (l : Literal) : Option Ordering :=
  match value, l with
  | .str a, .str b => some (Text.order a b)
  | .num a, .num b =>
    some (if a.value < b.value then .lt else if b.value < a.value then .gt else .eq)
  | _, _ => none

end Literal

namespace Comparison

/-- Whether a text contains, starts with or ends with another, as the operator says. -/
def ofTexts (op : Comparison) (text search : Text) : Bool :=
  match op with
  | .sw => search.isPrefixOf text
  | .ew => search.isSuffixOf text
  | _ => Text.includes search text

def accepts (op : Comparison) (order : Ordering) : Bool :=
  match op with
  | .gt => order == .gt
  | .ge => order != .lt
  | .lt => order == .lt
  | .le => order != .gt
  | _ => false

def holdsFor (op : Comparison) (l : Literal) (value : Json) : Bool :=
  match op with
  | .eq => l.equals? value == some true
  | .ne => l.equals? value == some false
  | .co | .sw | .ew =>
    match value, l with
    | .str a, .str b => op.ofTexts a.lower b.lower
    | _, _ => l.equals? value == some true
  | op => (l.order? value).any op.accepts

def holds (op : Comparison) (l : Literal) (values : List Json) : Bool :=
  match op, l with
  | .eq, .null => values.all Json.isUnassigned
  | .ne, .null => values.any fun v => !v.isUnassigned
  | op, l => values.any (op.holdsFor l)

end Comparison

end Scim

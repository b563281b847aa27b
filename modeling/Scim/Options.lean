import Scim.Schema
import Scim.Text.Blank
import Scim.Text.Letter

/-!
# Options

What a caller may choose: further characters for attribute names, whether members may be removed by
value, and which schemas keep their attributes at the top level of a resource.
-/

namespace Scim

structure ParserOptions where
  /-- Units accepted in attribute names beside letters, numbers and `- _ $`. -/
  extended : List CodeUnit
  deriving DecidableEq, Inhabited

structure PatchOptions where
  removeByValue : Bool
  /-- The URNs whose attributes live at the top level. -/
  coreUrns : List Text
  deriving DecidableEq, Inhabited

structure Config where
  parser : ParserOptions
  patch : PatchOptions
  deriving DecidableEq, Inhabited

namespace ParserOptions

def default : ParserOptions := ⟨[]⟩

def isNameUnit (o : ParserOptions) (c : CodeUnit) : Bool :=
  c.isLetterOrNumber || c == CodeUnit.minus || c == 0x5F || c == 0x24 || o.extended.contains c

/-- A character of an attribute name. No further unit is a character beyond the basic plane. -/
def isNamePoint (o : ParserOptions) (n : Nat) : Bool :=
  if n < 0x10000 then o.isNameUnit (UInt16.ofNat n) else inRanges CodePoint.letterRanges n

/-- A unit of a word in a filter: of a keyword, or of an attribute path with its schema URN. -/
def isWordUnit (o : ParserOptions) (c : CodeUnit) : Bool :=
  o.isNameUnit c || c == CodeUnit.dot || c == CodeUnit.colon

end ParserOptions

def PatchOptions.default : PatchOptions := ⟨true, [Schema.user, Schema.group]⟩

end Scim

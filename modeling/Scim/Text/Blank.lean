import Scim.Text

/-!
# White space

The units that separate tokens and that trimming removes: the ASCII and Unicode spaces, the line
ends, and the byte order mark.
-/

namespace Scim

def CodeUnit.isBlank (c : CodeUnit) : Bool :=
  (0x09 ≤ c && c ≤ 0x0D) || c == 0x20 || c == 0xA0 || c == 0x1680 || (0x2000 ≤ c && c ≤ 0x200A) ||
    c == 0x2028 || c == 0x2029 || c == 0x202F || c == 0x205F || c == 0x3000 || c == 0xFEFF

namespace Text

def trimLeft (t : Text) : Text := t.dropWhile CodeUnit.isBlank

def trimRight (t : Text) : Text := (t.reverse.dropWhile CodeUnit.isBlank).reverse

def trim (t : Text) : Text := t.trimLeft.trimRight

end Text

end Scim

import Scim.Error
import Scim.Options

/-!
# Checked options

Option values as they are written in documents, with a default for every field that is left out and
for a document that is missing as a whole. Unknown fields are ignored.
-/

namespace Scim

open Shape

def Shape.singleUnit (v : Json) : Checked CodeUnit := do
  match ← string v with
  | [c] => return c
  | _ => .fail "Each extended character must be a single character"

def Shape.nonEmptyString (v : Json) : Checked Text := do
  let t ← string v
  if t.isEmpty then .fail "String must contain at least 1 character(s)" else return t

def ParserOptions.check (v : Json) : Checked ParserOptions := do
  let o ← object v
  let extended ← field o "extendedAttributeNameCharacters" (withDefault [] (arrayOf singleUnit))
  return ⟨extended⟩

def PatchOptions.check (v : Json) : Checked PatchOptions := do
  let o ← object v
  let (removeByValue, coreUrns) ← Checked.both
    (field o "allowMemberRemoveByValue" (withDefault PatchOptions.default.removeByValue boolean))
    (field o "coreSchemaUrns"
      (withDefault PatchOptions.default.coreUrns (arrayOf nonEmptyString)))
  return ⟨removeByValue, coreUrns⟩

def Config.check (v : Json) : Checked Config := do
  let o ← object v
  let (parser, patch) ← Checked.both
    (field o "parser" (withDefault ParserOptions.default ParserOptions.check))
    (field o "patch" (withDefault PatchOptions.default PatchOptions.check))
  return ⟨parser, patch⟩

/-! ### As errors -/

/-- The option values that a document gives; none stands for a missing document. -/
def ParserOptions.read (v : Option Json) : Except Error ParserOptions :=
  (Shape.withDefault .default ParserOptions.check v).mapError (.invalidOptions .parser)

/-- The options that a single call is given: a value that says no stands for a missing document. -/
def ParserOptions.ofCall (v : Option Json) : Except Error ParserOptions :=
  ParserOptions.read (v.filter fun v => !v.isNegative)

def PatchOptions.read (v : Option Json) : Except Error PatchOptions :=
  (Shape.withDefault .default PatchOptions.check v).mapError (.invalidOptions .patch)

def Config.read (v : Option Json) : Except Error Config :=
  (Shape.withDefault ⟨.default, .default⟩ Config.check v).mapError (.invalidOptions .config)

end Scim

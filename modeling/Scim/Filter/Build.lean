import Scim.Filter.Parse
import Scim.Instant
import Scim.Path.Parse

/-!
# Building filters and paths

The checked ways to make a filter or a path: from text, or from smaller ones. Where a part is given
as text, it is read with the options by default, and after the checks on the parts before it.
-/

namespace Scim

/-- A path as text or as a tree. -/
inductive PathInput where
  | text (text : Text)
  | tree (path : Path)
  deriving Inhabited

/-- A filter as text or as a tree. -/
inductive FilterInput where
  | text (text : Text)
  | tree (filter : Filter)
  deriving Inhabited

def Filter.ofText (o : ParserOptions) (t : Text) : Except Error Filter :=
  (Filter.parse o t).mapError .filterSyntax

def FilterInput.read (o : ParserOptions) : FilterInput → Except Error Filter
  | text t => Filter.ofText o t
  | tree f => .ok f

namespace Path

def ofText (o : ParserOptions) (t : Text) : Except Error Path :=
  (parse o t).mapError .pathSyntax

/-- The path of a text that is a plain attribute name. -/
def ofTopLevelText (o : ParserOptions) (t : Text) : Except Error Path := do
  let p ← ofText o t
  match p with
  | ⟨none, [⟨_, none⟩]⟩ => return p
  | _ => .error (.notTopLevel t)

/-- The units that an attribute name cannot have: white space and the marks of paths and filters. -/
def isReservedUnit (c : CodeUnit) : Bool :=
  c.isBlank || [CodeUnit.dot, CodeUnit.openBracket, CodeUnit.closeBracket, CodeUnit.colon,
    CodeUnit.quote, CodeUnit.openParen, CodeUnit.closeParen].contains c

def extend (p : Path) (name : Text) (selector : Option FilterInput) : Except Error Path :=
  if name.isEmpty || name.any isReservedUnit then .error (.invalidAttributeName name)
  else match selector with
    | none => .ok (p.push ⟨name, none⟩)
    | some f => (f.read .default).map fun f => p.push ⟨name, some f⟩

/-- A path that a condition can be put on: it names an attribute and selects nothing. -/
def asCondition (p : Path) : Except Error Path :=
  if p.elements.isEmpty then .error .attributePathMissing
  else if p.elements.any fun e => e.selector.isSome then .error .selectorInAttributePath
  else .ok p

end Path

namespace PathInput

def read (o : ParserOptions) : PathInput → Except Error Path
  | text t => Path.ofText o t
  | tree p => .ok p

def readCondition (p : PathInput) : Except Error Path := do (← p.read .default).asCondition

end PathInput

namespace Filter

def compared (op : Comparison) (p : PathInput) (l : Literal) : Except Error Filter := do
  return .compare op (← p.readCondition) l

def comparedToInstant (op : Comparison) (p : PathInput) (millis : Number) :
    Except Error Filter := do
  let p ← p.readCondition
  return .compare op p (.str (← Instant.formatNumber millis))

def presence (p : PathInput) : Except Error Filter := do return .present (← p.readCondition)

def negation (f : FilterInput) : Except Error Filter := do return .not (← f.read .default)

/-- A filter on the values of a multi-valued attribute. -/
def having (p : PathInput) (f : FilterInput) : Except Error Filter := do
  let p ← p.readCondition
  return .complex p (← f.read .default)

def joined (op : Connective) (fs : List FilterInput) : Except Error Filter := do
  match join? op (← fs.mapM (·.read .default)) with
  | some f => return f
  | none => .error (.tooFewFilters op)

end Filter

end Scim

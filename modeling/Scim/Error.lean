import Scim.Filter.Render
import Scim.Shape
import Scim.Syntax.Fault

/-!
# Errors

Every way in which a request can fail, as its cause. `Error.message` words it, `Error.keyword?` is
the protocol's keyword for it, and `Error.kind` tells a bad request from the misuse of an operation
and from a value out of range.
-/

namespace Scim

inductive Change where
  | add | replace | remove
  deriving DecidableEq, Inhabited

namespace Change

def all : List Change := [.add, .replace, .remove]

def name : Change → Text
  | .add => "add"
  | .replace => "replace"
  | .remove => "remove"

def ofName? (name : Text) : Option Change := all.find? fun c => c.name == name

theorem ofName?_name (c : Change) : ofName? c.name = some c := by cases c <;> decide

end Change

inductive OptionKind where
  | parser | patch | config
  deriving DecidableEq, Inhabited

inductive Error where
  | filterSyntax (fault : SyntaxFault)
  | pathSyntax (fault : SyntaxFault)
  /-- A path that is more than one plain attribute name. -/
  | notTopLevel (text : Text)
  | attributePathMissing
  | selectorInAttributePath
  | invalidAttributeName (name : Text)
  | tooFewFilters (op : Connective)
  | invalidOptions (kind : OptionKind) (issues : List Issue)
  | malformedOperation (issues : List Issue)
  | malformedRequest (issues : List Issue)
  | reservedKey
  /-- A value filter after an element that has none. -/
  | selectorOnSubAttribute (path : Path)
  | repeatedSelector (path : Path)
  | removeWithoutPath
  /-- A removal with a value that cannot be a list of members. -/
  | unexpectedRemoveValue (path : Path)
  | valueMissing (change : Change)
  | selectorPosition (change : Change) (path : Path)
  /-- An addition whose value filter does not determine a new value. -/
  | addSelectorForm (path : Path)
  | addArrayValue (path : Path)
  /-- An addition whose selection is no attribute compared for equality and a sub-attribute. -/
  | addSelection (path : Option Path)
  | objectRequired (change : Change)
  | coreSchemaRemoval (urn : Text)
  | removeByValueDisabled (path : Option Path)
  | memberListMissing
  | invalidMember
  | memberWithoutValue
  /-- The members to remove are asked for of another operation than a removal. -/
  | membersOfOtherChange
  /-- The members to remove are given to another operation than a removal. -/
  | withMembersOfOtherChange
  /-- A value filter after the first element of a path to write to. -/
  | lateSelector (path : Path)
  | selectorOnSingleValue (name : Text)
  | notComplex (path : Path) (name : Text)
  | extensionNotObject (urn : Text)
  | invalidTime

namespace Error

def message : Error → Text
  | filterSyntax fault => fault.message
  | pathSyntax fault => fault.message
  | notTopLevel text => "'" ++ text ++ "' is not a top-level attribute name"
  | attributePathMissing => "A filter requires an attribute path"
  | selectorInAttributePath =>
    "Use hasComplexValue() to filter on the values of a multi-valued attribute"
  | invalidAttributeName name => "Invalid attribute name '" ++ name ++ "'"
  | tooFewFilters op => "A logical '" ++ op.name ++ "' filter requires at least two filters"
  | invalidOptions kind issues =>
    (match kind with
      | .parser => "Invalid parser options: "
      | .patch => "Invalid patch options: "
      | .config => "Invalid SCIM configuration: ") ++ Issue.formatAll issues
  | malformedOperation issues => "Invalid patch operation: " ++ Issue.formatAll issues
  | malformedRequest issues => "Invalid patch request: " ++ Issue.formatAll issues
  | reservedKey => "The attribute name '" ++ reservedName ++ "' is not allowed."
  | selectorOnSubAttribute path =>
    "Path cannot target sub-attributes with a value selection filter: '" ++ path.render ++ "'"
  | repeatedSelector path =>
    "The path '" ++ path.render ++ "' is only allowed to contain a single value selection filter."
  | removeWithoutPath => "A path must be specified for remove operations."
  | unexpectedRemoveValue path =>
    "Cannot create the operation since it has a value, but an invalid '" ++ path.render ++ "' path."
  | valueMissing change =>
    "A non-empty value must be provided for '" ++ change.name ++ "' operations."
  | selectorPosition change path =>
    "The '" ++ change.name ++ "' operation path '" ++ path.render ++
      "' contains a value selection filter and needs to be 'attribute[filter].subAttribute'."
  | addSelectorForm path =>
    "The add operation path '" ++ path.render ++
      "' may only use a value selection filter of the form 'attribute eq value'."
  | addArrayValue path =>
    "The add operation with path '" ++ path.render ++ "' cannot set the 'value' field to an array."
  | addSelection path =>
    "The add operation path '" ++ (path.map Path.render).getD [] ++
      "' needs to be 'attribute[filter].subAttribute'."
  | objectRequired change =>
    "The value of a '" ++ change.name ++
      "' operation without an attribute path must be a JSON object."
  | coreSchemaRemoval urn => "The core schema '" ++ urn ++ "' cannot be removed."
  | removeByValueDisabled path =>
    "A remove operation on '" ++ (path.map Path.render).getD [] ++
      "' must use a value selection filter instead of a value."
  | memberListMissing => "Could not extract a Member object list from the patch operation."
  | invalidMember => "The provided JSON contained an invalid Member representation."
  | memberWithoutValue =>
    "The remove operation was formatted incorrectly because it did not contain a Member object " ++
      "with a 'value' subfield set."
  | membersOfOtherChange => "Fetching members is only supported for 'remove' operations."
  | withMembersOfOtherChange =>
    "The 'withRemoveMembers()' method may only be used for remove operations."
  | lateSelector path =>
    "Value selection filters are only supported on the first element of the path '" ++
      path.render ++ "'"
  | selectorOnSingleValue name =>
    "The operation could not be processed because a value selection filter was provided for the " ++
      "single-valued attribute '" ++ name ++ "'."
  | notComplex path name =>
    "The path '" ++ path.render ++ "' does not resolve to a single target because '" ++ name ++
      "' is not a complex attribute"
  | extensionNotObject urn => "The schema extension '" ++ urn ++ "' is not a JSON object"
  | invalidTime => "Invalid time value"

/-- The protocol's keyword for what is wrong with a request. -/
inductive Keyword where
  | invalidFilter | invalidPath | invalidValue | invalidSyntax | noTarget
  deriving DecidableEq, Inhabited

def Keyword.name : Keyword → Text
  | invalidFilter => "invalidFilter"
  | invalidPath => "invalidPath"
  | invalidValue => "invalidValue"
  | invalidSyntax => "invalidSyntax"
  | noTarget => "noTarget"

/-- What sort of failure an error is. -/
inductive Kind where
  | request (keyword : Keyword)
  /-- An operation is used in a way that its own kind does not allow. -/
  | state
  | range
  deriving DecidableEq, Inhabited

def kind : Error → Kind
  | filterSyntax _ | attributePathMissing | selectorInAttributePath => .request .invalidFilter
  | pathSyntax _ | notTopLevel _ | invalidAttributeName _ | selectorOnSubAttribute _
  | repeatedSelector _ | unexpectedRemoveValue _ | selectorPosition .. | addSelectorForm _
  | addSelection _ | coreSchemaRemoval _ | lateSelector _ | selectorOnSingleValue _ | notComplex ..
  | extensionNotObject _ => .request .invalidPath
  | invalidOptions .. | reservedKey | valueMissing _ | addArrayValue _ | objectRequired _
  | removeByValueDisabled _ | memberListMissing | invalidMember | memberWithoutValue =>
    .request .invalidValue
  | malformedOperation _ | malformedRequest _ => .request .invalidSyntax
  | removeWithoutPath => .request .noTarget
  | membersOfOtherChange | withMembersOfOtherChange => .state
  | tooFewFilters _ | invalidTime => .range

def keyword? (e : Error) : Option Keyword :=
  match e.kind with
  | .request keyword => some keyword
  | _ => none

def position? : Error → Option Nat
  | filterSyntax fault | pathSyntax fault => some fault.position
  | _ => none

end Error

end Scim

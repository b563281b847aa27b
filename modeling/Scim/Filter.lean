import Scim.Number
import Scim.Text

/-!
# Filters and attribute paths

The syntax trees. A filter compares, combines and negates conditions on attribute paths; a path is
an optional schema URN and a list of attribute names, each of which may carry a filter that selects
among its values. A connective joins two or more filters by its shape.
-/

namespace Scim

inductive Comparison where
  | eq | ne | co | sw | ew | gt | ge | lt | le
  deriving DecidableEq, Inhabited

inductive Connective where
  | and | or
  deriving DecidableEq, Inhabited

inductive Literal where
  | null
  | bool (value : Bool)
  | num (value : Number)
  | str (value : Text)
  deriving DecidableEq, Inhabited

mutual

inductive Filter where
  | compare (op : Comparison) (path : Path) (value : Literal)
  | present (path : Path)
  | logical (op : Connective) (first second : Filter) (rest : List Filter)
  | not (filter : Filter)
  /-- Some value of the attribute satisfies the filter. -/
  | complex (path : Path) (filter : Filter)

structure Path where
  schemaUrn : Option Text
  elements : List PathElement

structure PathElement where
  name : Text
  selector : Option Filter

end

instance : Inhabited Path := ⟨⟨none, []⟩⟩

instance : Inhabited Filter := ⟨.present default⟩

instance : Inhabited PathElement := ⟨⟨[], none⟩⟩

namespace Comparison

def all : List Comparison := [.eq, .ne, .co, .sw, .ew, .gt, .ge, .lt, .le]

def name : Comparison → Text
  | .eq => "eq"
  | .ne => "ne"
  | .co => "co"
  | .sw => "sw"
  | .ew => "ew"
  | .gt => "gt"
  | .ge => "ge"
  | .lt => "lt"
  | .le => "le"

def ofName? (name : Text) : Option Comparison := all.find? fun op => op.name == name

theorem ofName?_name (op : Comparison) : ofName? op.name = some op := by cases op <;> decide

end Comparison

namespace Connective

def name : Connective → Text
  | .and => "and"
  | .or => "or"

end Connective

namespace Filter

/-- The filters joined by a connective; a single one stands for itself. -/
def chain (op : Connective) (first : Filter) : List Filter → Filter
  | [] => first
  | second :: rest => .logical op first second rest

/-- The filters joined by a connective, which takes at least two. -/
def join? (op : Connective) : List Filter → Option Filter
  | first :: second :: rest => some (.logical op first second rest)
  | _ => none

end Filter

namespace Path

def root : Path := ⟨none, []⟩

def ofName (name : Text) : Path := ⟨none, [⟨name, none⟩]⟩

def isRoot (p : Path) : Bool := p.schemaUrn.isNone && p.elements.isEmpty

/-- The path without its last element; a root is its own parent. -/
def parent (p : Path) : Path := { p with elements := p.elements.dropLast }

def push (p : Path) (e : PathElement) : Path := { p with elements := p.elements ++ [e] }

end Path

end Scim

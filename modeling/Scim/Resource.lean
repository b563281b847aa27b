import Scim.Patch.Request

/-!
# Resources

A resource without a schema, read and changed by paths. It keeps the options that it was made with.
-/

namespace Scim

structure Resource where
  node : Object
  parser : ParserOptions
  patch : PatchOptions
  deriving Inhabited

namespace Resource

/-- What the places hold that a path addresses, one value for each. -/
def found (r : Resource) (p : PathInput) : Except Error (List Json) := do
  return (← p.read r.parser).values r.patch.coreUrns r.node

def value? (r : Resource) (p : PathInput) : Except Error (Option Json) := do
  return (← r.found p).head?

/-- All values at a path, arrays replaced by their items and nulls left out. -/
def values (r : Resource) (p : PathInput) : Except Error (List Json) := do
  return ((← r.found p).flatMap Json.flatten).filter fun v => !v.isNull

def text? (r : Resource) (p : PathInput) : Except Error (Option Text) := do
  return (← r.value? p).bind Json.text?

def texts (r : Resource) (p : PathInput) : Except Error (List Text) := do
  return (← r.values p).filterMap Json.text?

def instant? (r : Resource) (p : PathInput) : Except Error (Option Int) := do
  return ((← r.text? p).bind Instant.read?).map Instant.millis

def schemaUrns (r : Resource) : List Text :=
  match r.node.field? Schema.listName with
  | some (.arr urns) => urns.filterMap Json.text?
  | _ => []

/-- The result of a change, and the resource after it. -/
abbrev Changed (α : Type) := Except Error α × Resource

def applyOperation (r : Resource) (op : Operation) : Changed Unit :=
  let outcome := op.apply r.patch r.node
  (outcome.result, { r with node := outcome.resource })

def change (r : Resource) (c : Change) (p : PathInput) (value : Option Json) : Changed Unit :=
  match (do Operation.make c (some (← p.read r.parser)) value) with
  | .ok op => r.applyOperation op
  | .error e => (.error e, r)

/-- Removes everything at a path; true if there was an assigned value. -/
def removeValues (r : Resource) (p : PathInput) : Changed Bool :=
  match p.read r.parser with
  | .error e => (.error e, r)
  | .ok path =>
    let (result, changed) := r.change .remove (.tree path) none
    (result.map fun _ => path.hasValue r.patch.coreUrns r.node, changed)

/-- Replaces the value at a path; null removes it. -/
def replaceValue (r : Resource) (p : PathInput) (value : Json) : Changed Unit :=
  if value.isNull then
    let (result, changed) := r.removeValues p
    (result.map fun _ => (), changed)
  else r.change .replace p (some value)

/-- Adds values to the multi-valued attribute at a path. -/
def addValues (r : Resource) (p : PathInput) (values : List Json) : Changed Unit :=
  if values.isEmpty then (.ok (), r) else r.change .add p (some (.arr values))

def container : Container Resource where
  get r := r.node
  set r node := { r with node }

end Resource

end Scim

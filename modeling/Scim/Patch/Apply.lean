import Scim.Options
import Scim.Patch.Member
import Scim.Path.Target

/-!
# Applying operations

Operations change a resource one after the other. A failing operation ends the run: what it and the
operations before it changed stays changed. After every operation, a failing one included, the list
of schemas is brought in step with the extension objects that it may have touched: an extension with
some assigned value is listed, and any other is dropped together with its URN.
-/

namespace Scim

/-- How a change ended, and the resource after it. -/
structure Outcome where
  result : Except Error Unit
  resource : Object
  deriving Inhabited

namespace Outcome

def done (resource : Object) : Outcome := ⟨.ok (), resource⟩

def failed (e : Error) (resource : Object) : Outcome := ⟨.error e, resource⟩

/-- Goes on with the resource unless the change failed. -/
def andThen (o : Outcome) (next : Object → Outcome) : Outcome :=
  match o.result with
  | .ok _ => next o.resource
  | .error _ => o

@[simp] theorem andThen_done (resource : Object) (next : Object → Outcome) :
    (done resource).andThen next = next resource := rfl

@[simp] theorem andThen_failed (e : Error) (resource : Object) (next : Object → Outcome) :
    (failed e resource).andThen next = failed e resource := rfl

/-- What holds after a change and is kept by the next holds after both. -/
theorem andThen_resource {p : Object → Prop} {o : Outcome} {next : Object → Outcome}
    (h : p o.resource) (hnext : ∀ resource, p resource → p (next resource).resource) :
    p (o.andThen next).resource := by
  unfold andThen
  split
  · exact hnext _ h
  · exact h

end Outcome

namespace Operation

/-! ### Adding and replacing -/

/-- The way a value is written over a field: `Object.merge` or `Object.replace`. -/
abbrev Write := Object → Text → Json → Object

def writeAll (write : Write) (members : List (Text × Json)) (o : Object) : Object :=
  members.foldl (fun o m => write o m.1 m.2) o

/-- Writes members into the resource. An object under the URN of a core schema stands for its own
members. -/
def writeTopLevel (core : List Text) (write : Write) (members : List (Text × Json))
    (resource : Object) : Object :=
  members.foldl (fun resource m =>
    match m.2 with
    | .obj inner =>
      if m.1.isUrn && Schema.isCore core resource m.1 then writeAll write inner.members resource
      else write resource m.1 m.2
    | _ => write resource m.1 m.2) resource

/-- Writes members into the object at `container`. -/
def writeMembers (core : List Text) (write : Write) (container : List Text)
    (members : List (Text × Json)) (resource : Object) : Object :=
  if container.isEmpty then writeTopLevel core write members resource
  else resource.modifyAt (writeAll write members) container

/-- Writes a value over a whole object, of which it must be one. -/
def writeRoot (core : List Text) (change : Change) (write : Write) (container : List Text)
    (value : Json) (resource : Object) : Outcome :=
  match value with
  | .obj o => .done (writeMembers core write container o.members resource)
  | _ => .failed (.objectRequired change) resource

/-- A new value of a multi-valued attribute: the sub-attribute with its value, and what the filter
asks for. -/
def newElement (subAttribute : Text) (value : Json) (name : Text) (literal : Json) : Object :=
  let element := Object.empty.insert subAttribute value
  if element.hasField name then element else element.assign name literal

def literalJson : Literal → Json
  | .null => .null
  | .bool b => .bool b
  | .num x => .num x
  | .str t => .str t

/-- Sets a sub-attribute of the items that satisfy a filter and are objects. -/
def setInSelection (core : List Text) (filter : Filter) (subAttribute : Text) (value : Json)
    (items : List Json) : List Json :=
  items.map fun v =>
    match v with
    | .obj o => if filter.holds core v then .obj (Object.setField o subAttribute value) else v
    | v => v

/-- Adds a sub-attribute to the selected items, or a new item if there are none. -/
def addToSelection (core : List Text) (path : Option Path) (container : List Text) (name : Text)
    (filter : Filter) (items : Option (List Json)) (subAttributes : List Text) (value : Json)
    (resource : Object) : Outcome :=
  let write (items : List Json) : Outcome :=
    .done (resource.modifyAt (·.setField name (.arr items)) container)
  match filter, subAttributes with
  | .compare .eq condition literal, subAttribute :: _ =>
    let old := items.getD []
    if old.any fun v => filter.holds core v then
      write (setInSelection core filter subAttribute value old)
    else match condition.elements with
      | e :: _ =>
        write (old ++ [.obj (newElement subAttribute value e.name (literalJson literal))])
      | [] => .failed (.addSelection path) resource
  | _, _ => .failed (.addSelection path) resource

/-- The place that the operation writes to; without a path it is the resource. -/
def target (core : List Text) (op : Operation) (resource : Object) (create : Bool) :
    Except Error (Option Target) × Object :=
  match op.path with
  | some p => p.target core resource create
  | none => (.ok (some (.root [])), resource)

def applyAdd (core : List Text) (op : Operation) (resource : Object) : Outcome :=
  match given? op.value with
  | none => .failed (.valueMissing op.change) resource
  | some (.arr []) => .done resource
  | some value =>
    match op.target core resource true with
    | (.error e, resource) => .failed e resource
    | (.ok none, resource) => .done resource
    | (.ok (some (.root container)), resource) =>
      writeRoot core op.change Object.merge container value resource
    | (.ok (some (.field container name)), resource) =>
      .done (resource.modifyAt (·.merge name value) container)
    | (.ok (some (.selection container name filter items subAttributes)), resource) =>
      addToSelection core op.path container name filter items subAttributes value resource

/-- Replaces the selected items, or a sub-attribute of those that are objects. -/
def replaceSelection (core : List Text) (filter : Filter) (subAttribute : Option Text)
    (value : Json) (items : List Json) : List Json :=
  items.map fun v =>
    if filter.holds core v then
      match subAttribute, v with
      | none, _ => value
      | some name, .obj o => .obj (Object.replace o name value)
      | some _, v => v
    else v

def applyReplace (core : List Text) (op : Operation) (resource : Object) : Outcome :=
  match given? op.value with
  | none => .failed (.valueMissing op.change) resource
  | some value =>
    match op.target core resource (!value.isUnassigned) with
    | (.error e, resource) => .failed e resource
    | (.ok none, resource) => .done resource
    | (.ok (some (.root container)), resource) =>
      writeRoot core op.change Object.replace container value resource
    | (.ok (some (.field container name)), resource) =>
      .done (resource.modifyAt (·.replace name value) container)
    | (.ok (some (.selection _ _ _ none _)), resource) => .done resource
    | (.ok (some (.selection container name filter (some items) subAttributes)), resource) =>
      let new := replaceSelection core filter subAttributes.head? value items
      .done (resource.modifyAt (·.setField name (.arr new)) container)

/-! ### Removing -/

/-- Removes the fields that the elements lead to from an object. -/
def removeFields (core : List Text) (elements : List PathElement) (o : Object) : Object :=
  match elements with
  | [] => o
  | e :: rest =>
    match o.findKey? e.name with
    | none => o
    | some key =>
      let inside (v : Json) : Json :=
        match v with
        | .obj inner => .obj (removeFields core rest inner)
        | v => v
      match o.get? key with
      | none => o
      | some (.arr items) =>
        if rest.isEmpty then if e.selector.isNone then o.erase key else o
        else o.overwrite key (.arr (items.map fun v => if e.selects core v then inside v else v))
      | some v =>
        if !e.admits core v then o
        else if rest.isEmpty then o.erase key
        else o.overwrite key (inside v)
termination_by structural elements

/-- Removes the selected items and, if none is left, the attribute; or a sub-attribute of those that
are objects. -/
def removeSelection (core : List Text) (name : Text) (filter : Filter) (items : List Json)
    (subAttribute : Option Text) (o : Object) : Object :=
  match subAttribute with
  | some sub =>
    o.setField name (.arr (items.map fun v =>
      match v with
      | .obj inner => if filter.holds core v then .obj (Object.removeField inner sub) else v
      | v => v))
  | none =>
    let left := items.filter fun v => !filter.holds core v
    if left.isEmpty && !items.isEmpty then o.removeField name else o.setField name (.arr left)

def removePath (core : List Text) (p : Path) (resource : Object) : Outcome :=
  match p.elements with
  | [] =>
    match p.schemaUrn with
    | none => .failed .removeWithoutPath resource
    | some urn =>
      if resource.hasField urn then .done (resource.removeField urn)
      else if Schema.isCore core resource urn then .failed (.coreSchemaRemoval urn) resource
      else .done resource
  | first :: _ =>
    if first.selector.isNone then
      match Schema.rootOf? core resource p.schemaUrn with
      | none => .done resource
      | some (container, _) => .done (resource.modifyAt (removeFields core p.elements) container)
    else match p.target core resource false with
      | (.error e, resource) => .failed e resource
      | (.ok (some (.selection container name filter (some items) subAttributes)), resource) =>
        .done (resource.modifyAt
          (removeSelection core name filter items subAttributes.head?) container)
      | (.ok _, resource) => .done resource

/-- The path to the values of an attribute whose `value` is the given text. -/
def memberPath (urn : Option Text) (name id : Text) : Path :=
  ⟨urn, [⟨name, some (.compare .eq (.ofName "value") (.str id))⟩]⟩

/-- The identifiers of the members, which all must have one. -/
def memberIds (ms : List Member) : Except Error (List Text) :=
  match ms.mapM Member.value with
  | some ids => .ok ids
  | none => .error .memberWithoutValue

/-- Removes the values with these identifiers from an attribute, one after the other. -/
def removeMembers (core : List Text) (urn : Option Text) (name : Text) (ids : List Text)
    (resource : Object) : Outcome :=
  ids.foldl (fun o id => o.andThen (removePath core (memberPath urn name id))) (.done resource)

def applyRemove (options : PatchOptions) (op : Operation) (resource : Object) : Outcome :=
  match op.path with
  | none => .failed .removeWithoutPath resource
  | some p =>
    if !op.removesByValue then removePath options.coreUrns p resource
    else if !options.removeByValue then .failed (.removeByValueDisabled op.path) resource
    else match op.members.bind memberIds, p.elements with
      | .error e, _ => .failed e resource
      | .ok _, [] => .failed .removeWithoutPath resource
      | .ok ids, first :: _ =>
        removeMembers options.coreUrns p.schemaUrn first.name ids resource

/-! ### The list of schemas -/

/-- The URNs of the schemas under which the operation may have written. -/
def touchedUrns (op : Operation) : List Text :=
  match op.path, op.value with
  | some p, _ => p.schemaUrn.toList
  | none, some (.obj o) => (Object.keys o).filter Text.isUrn
  | none, _ => []

/-- Whether a value is a text that differs from `urn` at most in letter case. -/
def isUrnItem (urn : Text) : Json → Bool
  | .str t => t.lower == urn.lower
  | _ => false

def isAssigned : Option Json → Bool
  | some (.obj o) => (Object.values o).any fun v => !v.isUnassigned
  | _ => false

/-- Brings the list of schemas in step with the extension under one URN. -/
def updateSchema (core : List Text) (resource : Object) (urn : Text) : Object :=
  if Schema.isCore core resource urn then resource
  else
    let listKey := resource.storedName Schema.listName
    match isAssigned (resource.field? urn), resource.field? Schema.listName with
    | true, some (.arr urns) =>
      if urns.any (isUrnItem urn) then resource
      else resource.overwrite listKey (.arr (urns ++ [.str (resource.storedName urn)]))
    | true, none => resource.setField Schema.listName (.arr [.str (resource.storedName urn)])
    | true, some _ => resource
    | false, some (.arr urns) =>
      if urns.any (isUrnItem urn) then
        (resource.removeField urn).overwrite listKey (.arr (urns.filter fun v => !isUrnItem urn v))
      else resource.removeField urn
    | false, _ => resource.removeField urn

def updateSchemas (core : List Text) (op : Operation) (resource : Object) : Object :=
  op.touchedUrns.foldl (updateSchema core) resource

/-! ### Running -/

def applyChange (options : PatchOptions) (op : Operation) (resource : Object) : Outcome :=
  match op.change with
  | .add => applyAdd options.coreUrns op resource
  | .replace => applyReplace options.coreUrns op resource
  | .remove => applyRemove options op resource

def apply (options : PatchOptions) (op : Operation) (resource : Object) : Outcome :=
  let outcome := op.applyChange options resource
  { outcome with resource := op.updateSchemas options.coreUrns outcome.resource }

/-- Applies operations in order, up to the first that fails. -/
def applyAll (options : PatchOptions) : List Operation → Object → Outcome
  | [], resource => .done resource
  | op :: rest, resource => (op.apply options resource).andThen (applyAll options rest)

theorem applyAll_append (options : PatchOptions) (ops ops' : List Operation) (resource : Object) :
    applyAll options (ops ++ ops') resource =
      (applyAll options ops resource).andThen (applyAll options ops') := by
  induction ops generalizing resource with
  | nil => rfl
  | cons op rest ih =>
    simp only [List.cons_append, applyAll]
    unfold Outcome.andThen
    split
    · simp [ih, Outcome.andThen]
    · rename_i h
      simp [h]

end Operation

end Scim

import Scim.Filter.Evaluate
import Scim.Json.Location

/-!
# Reading along a path

The places of a document that a path addresses, in document order. Arrays are followed into each of
their items, and a filter on an element selects among the items of an array, or keeps or drops a
single value.
-/

namespace Scim

/-- A place in a document. -/
inductive Place where
  /-- The whole document or a whole extension object. -/
  | root (location : Location)
  /-- A stored member of the object at a location. -/
  | field (container : Location) (name : Text)
  /-- An item of the array at a location. -/
  | element (array : Location) (index : Nat)
  deriving DecidableEq, Inhabited

structure Found where
  place : Place
  value : Json
  deriving Inhabited

namespace PathElement

/-- Whether a value that is no array passes the element's filter. -/
def admits (core : List Text) (e : PathElement) (v : Json) : Bool :=
  match e.selector with
  | none => true
  | some filter => !v.isNull && filter.holds core v

/-- Whether an item of an array passes the element's filter. -/
def selects (core : List Text) (e : PathElement) (item : Json) : Bool :=
  match e.selector with
  | none => true
  | some filter => filter.holds core item

end PathElement

namespace Path

/-- The places that the elements lead to from the object `o` at `location`. -/
def resolveFrom (core : List Text) (elements : List PathElement) (location : Location)
    (o : Object) : List Found :=
  match elements with
  | [] => []
  | e :: rest =>
    match o.findKey? e.name with
    | none => []
    | some key =>
      let inside (step : Location) (v : Json) : List Found :=
        match v with
        | .obj inner => resolveFrom core rest (location ++ step) inner
        | _ => []
      match o.get? key with
      | none => []
      | some (.arr items) =>
        if rest.isEmpty && e.selector.isNone then [⟨.field location key, .arr items⟩]
        else (items.zipIdx.filter fun i => e.selects core i.1).flatMap fun i =>
          if rest.isEmpty then [⟨.element (location ++ [.key key]) i.2, i.1⟩]
          else inside [.key key, .index i.2] i.1
      | some v =>
        if !e.admits core v then []
        else if rest.isEmpty then [⟨.field location key, v⟩]
        else inside [.key key] v
termination_by structural elements

def resolve (core : List Text) (p : Path) (doc : Object) : List Found :=
  match Schema.rootOf? core doc p.schemaUrn with
  | none => []
  | some (keys, root) =>
    if p.elements.isEmpty then [⟨.root (keys.map .key), .obj root⟩]
    else resolveFrom core p.elements (keys.map .key) root

def values (core : List Text) (p : Path) (doc : Object) : List Json :=
  (p.resolve core doc).map Found.value

def hasValue (core : List Text) (p : Path) (doc : Object) : Bool :=
  (p.values core doc).any fun v => !v.isUnassigned

end Path

end Scim

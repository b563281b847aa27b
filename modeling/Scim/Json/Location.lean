import Scim.Json.Object

/-!
# Locations

A location leads from a document to one of its values, by member names and array indexes. Objects
inside objects are also reached by names alone: `objectAt` and `modifyAt` go through members that
are objects, read nothing and change nothing where there is no such member. Only a change inside a
missing object of the reserved name is an assignment of what it makes out of the empty object, for
which see `Object.assign`.
-/

namespace Scim

inductive Step where
  | key (name : Text)
  | index (n : Nat)
  deriving DecidableEq, Inhabited

abbrev Location := List Step

def Json.at? : Json → Location → Option Json
  | v, [] => some v
  | .obj o, .key name :: rest => (Object.get? o name).bind (·.at? rest)
  | .arr items, .index n :: rest => items[n]?.bind (·.at? rest)
  | _, _ :: _ => none
termination_by structural _ location => location

namespace Json

theorem at?_nil (v : Json) : v.at? [] = some v := by cases v <;> rfl

theorem at?_append (v : Json) (l l' : Location) : v.at? (l ++ l') = (v.at? l).bind (·.at? l') := by
  induction l generalizing v with
  | nil => rw [List.nil_append, at?_nil, Option.bind_some]
  | cons step rest ih => cases v <;> cases step <;> simp [at?, ih, Option.bind_assoc]

end Json

namespace Object

/-- The object reached through the named members. -/
def objectAt : Object → List Text → Object
  | o, [] => o
  | o, key :: rest =>
    match o.get? key with
    | some (.obj inner) => objectAt inner rest
    | _ => empty

def modifyAt (change : Object → Object) : Object → List Text → Object
  | o, [] => change o
  | o, key :: rest =>
    match o.get? key with
    | some (.obj inner) => o.overwrite key (.obj (modifyAt change inner rest))
    | none => if key = reservedName then o.assign key (.obj (modifyAt change empty rest)) else o
    | some _ => o

@[simp] theorem objectAt_nil (o : Object) : o.objectAt [] = o := rfl

@[simp] theorem modifyAt_nil (change : Object → Object) (o : Object) :
    o.modifyAt change [] = change o := rfl

theorem objectAt_append (o : Object) (keys keys' : List Text) :
    o.objectAt (keys ++ keys') = (o.objectAt keys).objectAt keys' := by
  induction keys generalizing o with
  | nil => rfl
  | cons key rest ih =>
    simp only [List.cons_append, objectAt]
    split
    · exact ih _
    · cases keys' <;> simp [objectAt, empty]

end Object

end Scim

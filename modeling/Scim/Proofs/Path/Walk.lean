import Scim.Proofs.Json.Unambiguous
import Scim.Proofs.Path.Candidates
import Scim.Proofs.Path.Target

/-!
# One way for writing and reading

Writing along a path without filters goes through objects only, and creates those that are missing.
Reading the same path afterwards goes the same way (`Walk`): each name leads to the member that the
write has found or created. So reading ends in the object that the write has changed
(`Walk.follow`), and before the write it found what that object then held (`walk_of_target`), which
is nothing if the object is new.

The names of the elements are not the reserved one: under that an object is not created.
-/

namespace Scim

open Object

namespace Object

variable {o inner last : Object} {key : Text} {keys : List Text}

/-! ### Members that are there -/

/-- The named members are there, each of them an object, and the last of them is `last`. -/
inductive LeadsTo : Object → List Text → Object → Prop
  | here (o : Object) : LeadsTo o [] o
  | member {o inner last : Object} {key : Text} {keys : List Text}
    (hget : o.get? key = some (.obj inner)) (h : LeadsTo inner keys last) :
    LeadsTo o (key :: keys) last

theorem LeadsTo.objectAt (h : o.LeadsTo keys last) : o.objectAt keys = last := by
  induction h with
  | here => rfl
  | member hget _ ih =>
    rw [objectAt_cons, hget]
    exact ih

theorem LeadsTo.append (h : o.LeadsTo keys last) (hget : last.get? key = some (.obj inner)) :
    o.LeadsTo (keys ++ [key]) inner := by
  induction h with
  | here => exact .member hget (.here inner)
  | member hget' _ ih => exact .member hget' (ih hget)

theorem modifyAt_of_get? (hget : o.get? key = some (.obj inner)) (f : Object → Object)
    (keys : List Text) :
    o.modifyAt f (key :: keys) = o.overwrite key (.obj (inner.modifyAt f keys)) := by
  rw [modifyAt_cons, hget]

theorem get?_overwrite_self (hget : o.get? key = some (.obj inner)) (v : Json) :
    (o.overwrite key v).get? key = some v := by
  rw [get?_overwrite, if_pos rfl, hget]
  rfl

theorem modifyAt_append (f : Object → Object) (o : Object) (keys keys' : List Text) :
    o.modifyAt f (keys ++ keys') = o.modifyAt (·.modifyAt f keys') keys := by
  induction keys generalizing o with
  | nil => rfl
  | cons key rest ih =>
    rw [List.cons_append, modifyAt_cons, modifyAt_cons]
    simp only [ih]

theorem LeadsTo.modifyAt (h : o.LeadsTo keys last) (f : Object → Object) :
    (o.modifyAt f keys).LeadsTo keys (f last) := by
  induction h with
  | here => exact .here _
  | member hget _ ih =>
    rw [modifyAt_of_get? hget]
    exact .member (get?_overwrite_self hget _) ih

/-- Only what a change makes of the object at hand matters. -/
theorem LeadsTo.modifyAt_congr (h : o.LeadsTo keys last) {f g : Object → Object}
    (hfg : f last = g last) : o.modifyAt f keys = o.modifyAt g keys := by
  induction h with
  | here => exact hfg
  | member hget _ ih => rw [modifyAt_of_get? hget, modifyAt_of_get? hget, ih hfg]

theorem LeadsTo.modifyAt_modifyAt (h : o.LeadsTo keys last) (f g : Object → Object) :
    (o.modifyAt f keys).modifyAt g keys = o.modifyAt (g ∘ f) keys := by
  induction h with
  | here => rfl
  | member hget _ ih =>
    rw [modifyAt_of_get? hget, modifyAt_of_get? (get?_overwrite_self hget _), ih,
      modifyAt_of_get? hget, overwrite_overwrite]

/-- An object that is created under a name is found under it. -/
theorem LeadsTo.createObject (h : o.LeadsTo keys last) {name : Text} (hname : last.Takes name) :
    ∃ key, (last.setField name (.obj empty)).findKey? name = some key ∧
      (last.setField name (.obj empty)).get? key = some (.obj empty) ∧
      o.createObject keys name =
        (keys ++ [key], o.modifyAt (·.setField name (.obj empty)) keys) := by
  obtain ⟨key, hkey, hget⟩ := get?_of_field? (field?_setField_of_takes hname (.obj empty))
  have hstored : last.storedName name = key := by
    rw [← storedName_setField last name (.obj empty), storedName_of_findKey? hkey]
  refine ⟨key, hkey, hget, ?_⟩
  rw [Object.createObject, h.objectAt, hstored]

end Object

namespace Path

variable {core : List Text} {elements rest : List PathElement} {e e' : PathElement}
  {o o' inner last doc doc' : Object} {key name : Text} {keys container c : List Text} {v : Json}
  {path : Path} {create : Bool}

theorem leadsTo_of_rootOf? {urn : Option Text}
    (h : Schema.rootOf? core doc urn = some (container, o)) : doc.LeadsTo container o := by
  rcases rootOf?_cases h with ⟨rfl, rfl⟩ | ⟨u, key, -, rfl, -, hget⟩
  · exact .here _
  · exact .member hget (.here _)

/-! ### The way of a path -/

/-- The elements but the last lead through members that are objects to the object in which the last
one names a field; the keys are the names of the members as they are stored. -/
inductive Walk : List PathElement → Object → List Text → Object → Text → Prop
  | last (e : PathElement) (o : Object) : Walk [e] o [] o e.name
  | enter {e e' : PathElement} {rest : List PathElement} {o inner last : Object} {key name : Text}
    {keys : List Text} (hkey : o.findKey? e.name = some key)
    (hget : o.get? key = some (.obj inner)) (h : Walk (e' :: rest) inner keys last name) :
    Walk (e :: e' :: rest) o (key :: keys) last name

namespace Walk

theorem name_eq (h : Walk elements o keys last name) (hne : elements ≠ []) :
    name = (elements.getLast hne).name := by
  induction h with
  | last => rfl
  | enter _ _ _ ih => rw [List.getLast_cons (List.cons_ne_nil _ _), ih]

theorem modifyAt (h : Walk elements o keys last name) (f : Object → Object) :
    Walk elements (o.modifyAt f keys) keys (f last) name := by
  induction h with
  | last => exact .last _ _
  | enter hkey hget _ ih =>
    rw [modifyAt_of_get? hget]
    exact .enter ((findKey?_congr keys_overwrite _).trans hkey) (get?_overwrite_self hget _) ih

/-- Reading goes the same way. -/
theorem follow (h : Walk elements o keys last name) (hes : ∀ e ∈ elements, e.selector = none)
    (core : List Text) : Path.follow core elements [.obj o] = (last.field? name).toList := by
  induction h with
  | last e o =>
    obtain ⟨name, selector⟩ := e
    obtain rfl : selector = none := hes _ (List.mem_singleton_self _)
    rw [follow_field]
    exact List.flatMap_singleton' _
  | @enter e e' rest o inner last key name keys hkey hget h ih =>
    obtain ⟨hsel, hrest⟩ := List.forall_mem_cons.mp hes
    obtain ⟨n, selector⟩ := e
    obtain rfl : selector = none := hsel
    have hfield : o.field? n = some (.obj inner) := field?_of_get? hkey hget
    rw [follow_field, hfield, ← ih hrest]
    exact List.flatMap_singleton ..

/-- A change at the end of a way is one of the field that the way starts with. -/
theorem changes (h : Walk (e :: rest) o keys last name) {f : Object → Object}
    (hf : Changes [name] last (f last)) : Changes [e.name] o (o.modifyAt f keys) := by
  cases h with
  | last => exact hf
  | enter hkey hget =>
    rw [modifyAt_of_get? hget]
    exact .overwrite (by simp [(findKey?_eq_some hkey).2])

/-- With an assigned value at its end a way starts with one. -/
theorem assigned (h : Walk (e :: rest) o keys last name) (hv : last.field? name = some v)
    (hassigned : v.isUnassigned = false) :
    ∃ w, o.field? e.name = some w ∧ w.isUnassigned = false := by
  cases h with
  | last => exact ⟨v, hv, hassigned⟩
  | enter hkey hget =>
    exact ⟨_, field?_of_get? hkey hget, rfl⟩

end Walk

/-- Nothing is found inside an empty object, or inside nothing. -/
theorem follow_of_null {w : Option Json} (hw : w.getD .null = .null) (e : PathElement)
    (rest : List PathElement) :
    w.toList.flatMap (fun v => follow core (e :: rest) [v]) = [] := by
  cases w with
  | none => rfl
  | some v =>
    obtain rfl : v = .null := hw
    rw [Option.toList_some, List.flatMap_singleton, follow_inside]
    rfl

/-- A walk that goes on from a member goes on from the object that the member is in. -/
theorem Walk.of_member (e : PathElement) (hat : doc.LeadsTo container o)
    (hkey : o.findKey? e.name = some key)
    (hget : o.get? key = some (.obj inner)) (hwalk : Walk (e' :: rest) o' keys last name)
    (h : ∀ f, doc'.modifyAt f c =
      doc.modifyAt (fun _ => o'.modifyAt f keys) (container ++ [key])) :
    Walk (e :: e' :: rest) (o.overwrite key (.obj o')) (key :: keys) last name ∧
    ∀ f, doc'.modifyAt f c =
      doc.modifyAt (fun _ => (o.overwrite key (.obj o')).modifyAt f (key :: keys)) container := by
  have hget' := get?_overwrite_self hget (.obj o')
  refine ⟨.enter ((findKey?_congr keys_overwrite _).trans hkey) hget' hwalk, fun f => ?_⟩
  rw [h, modifyAt_append]
  refine hat.modifyAt_congr ?_
  rw [modifyAt_of_get? hget, modifyAt_of_get? hget', overwrite_overwrite, modifyAt_nil]

/-- A walk to write ends in an object to which the path leads then, and has led before as far as
there is something in it. What it has created is in the field that the path starts with. -/
theorem walk_of_targetContainer (hes : ∀ e ∈ elements, e.selector = none)
    (hnames : ∀ e ∈ elements, e.name ≠ reservedName) (hne : elements ≠ [])
    (hat : doc.LeadsTo container o)
    (h : targetContainer path create elements container doc = (.ok (some c), doc')) :
    ∃ keys o' last name, Walk elements o' keys last name ∧
      (∀ f, doc'.modifyAt f c = doc.modifyAt (fun _ => o'.modifyAt f keys) container) ∧
      follow core elements [.obj o] = (last.field? name).toList ∧
      ∀ e ∈ elements.head?, Changes [e.name] o o' := by
  induction elements generalizing doc container o with
  | nil => exact absurd rfl hne
  | cons e rest ih =>
    obtain ⟨hsel, hrest⟩ := List.forall_mem_cons.mp hes
    obtain ⟨n, selector⟩ := e
    obtain rfl : selector = none := hsel
    cases rest with
    | nil =>
      cases h
      exact ⟨[], o, o, n, .last _ o, fun f => hat.modifyAt_congr rfl,
        (Walk.last _ o).follow hes core, fun _ _ => .refl o⟩
    | cons e' rest =>
      have hnames' := (List.forall_mem_cons.mp hnames).2
      have hnext := List.cons_ne_nil e' rest
      rw [targetContainer_cons, hat.objectAt] at h
      rw [follow_field]
      cases hv : (o.field? n).getD .null with
      | obj inner =>
        rw [hv] at h
        have hfield : o.field? n = some (.obj inner) := field?_of_getD hv (by simp)
        obtain ⟨key, hkey, hget⟩ := get?_of_field? hfield
        rw [storedName_of_findKey? hkey] at h
        obtain ⟨keys, o', last, name, hwalk, hmod, hfollow, -⟩ :=
          ih hrest hnames' hnext (hat.append hget) h
        obtain ⟨hwalk', hmod'⟩ := Walk.of_member ⟨n, none⟩ hat hkey hget hwalk hmod
        refine ⟨_, _, last, name, hwalk', hmod', ?_, ?_⟩
        · rw [hfield, ← hfollow]
          exact List.flatMap_singleton ..
        · rintro _ ⟨⟩
          exact .overwrite (by simp [(findKey?_eq_some hkey).2])
      | null =>
        rw [hv] at h
        have hcreate : create = true := by
          by_contra hnot
          dsimp only at h
          rw [if_neg hnot] at h
          cases h
        subst hcreate
        -- the new object is there, and nothing is in it
        obtain ⟨key, hkey, hget, hnew⟩ :=
          hat.createObject (takes_of_ne (hnames _ (List.mem_cons_self ..)))
        dsimp only at h
        rw [if_pos rfl, hnew] at h
        have hat' := hat.modifyAt (·.setField n (.obj empty))
        obtain ⟨keys, o', last, name, hwalk, hmod, hfollow, -⟩ :=
          ih hrest hnames' hnext (hat'.append hget) h
        obtain ⟨hwalk', hmod'⟩ := Walk.of_member ⟨n, none⟩ hat' hkey hget hwalk hmod
        refine ⟨_, _, last, name, hwalk', fun f => ?_, ?_, ?_⟩
        · rw [hmod', hat.modifyAt_modifyAt]
          rfl
        · obtain ⟨n', selector⟩ := e'
          obtain rfl : selector = none := hrest _ (List.mem_cons_self ..)
          rw [follow_of_null hv, ← hfollow, follow_field]
          rfl
        · rintro _ ⟨⟩
          exact .trans (.setField (by simp)) (.overwrite (by simp [(findKey?_eq_some hkey).2]))
      | _ =>
        rw [hv] at h
        cases h

end Path

end Scim

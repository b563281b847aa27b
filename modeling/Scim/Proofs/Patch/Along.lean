import Scim.Proofs.Json.Same
import Scim.Proofs.Patch.Unambiguous
import Scim.Proofs.Path.Walk

/-!
# A write along a path, level by level

To write along a path without filters is to find the object in which the last element names a field,
to create what is missing on the way, and to change that object in the document. The same is done by
descent (`changeIn`): the object in the field of the first element is changed by the rest of the path
and put back (`changeFound_targetContainer`). In this form the write is one of a single field, and
writing twice is writing once if that is so of the change at the end (`changeIn_changeIn`).

Under the reserved name a new object may not be stored. The place that is found then is no part of
the document (`Lost`), and a change there shows nowhere, as long as it makes no object that unlocks
the one it is assigned to (`KeepsLocked`).
-/

namespace Scim

open Object

namespace Object

variable {o doc inner : Object} {name : Text} {v : Json} {container keys : List Text}
  {change : Object → Object}

/-! ### Locked objects -/

/-- The object does not unlock one to whose reserved name it is assigned. -/
def Locked (o : Object) : Prop := unlocks (.obj o) = false

theorem locked_iff : o.Locked ↔ o.unlocked = false ∧ reservedName ∉ o.keys := by
  unfold Locked unlocks
  rw [Bool.or_eq_false_iff, ← hasKey_iff_mem_keys, Bool.not_eq_true]

theorem locked_empty : empty.Locked := rfl

theorem Locked.of_keys {o' : Object} (h : o.Locked) (hunlocked : o'.unlocked = o.unlocked)
    (hkeys : ∀ k ∈ o'.keys, k ∈ o.keys) : o'.Locked := by
  rw [locked_iff] at h ⊢
  exact ⟨hunlocked.trans h.1, fun hmem => h.2 (hkeys _ hmem)⟩

theorem Locked.overwrite (h : o.Locked) (key : Text) (v : Json) : (o.overwrite key v).Locked :=
  h.of_keys rfl fun _ hk => by rwa [keys_overwrite] at hk

theorem Locked.setField_of_takes (h : o.Locked) (htakes : o.Takes name) (v : Json) :
    (o.setField name v).Locked := by
  cases hkey : o.findKey? name with
  | some key =>
    rw [setField_of_findKey? hkey]
    exact h.overwrite key v
  | none =>
    obtain ⟨hlocked, hkeys⟩ := locked_iff.mp h
    have hname : name ≠ reservedName := by
      rcases htakes with hname | hfield | hunlocked
      · exact hname
      · simp [hasField, hkey] at hfield
      · simp [hlocked] at hunlocked
    rw [Object.setField_of_takes hkey htakes, locked_iff]
    refine ⟨hlocked, fun hmem => ?_⟩
    rcases List.mem_cons.mp ((keys_add o name v).mem_iff.mp hmem) with heq | hmem
    · exact hname heq.symm
    · exact hkeys hmem

theorem Locked.setField (h : o.Locked) (name : Text) (hv : unlocks v = false) :
    (o.setField name v).Locked := by
  by_cases htakes : o.Takes name
  · exact h.setField_of_takes htakes v
  · rwa [setField_of_not_takes htakes hv]

theorem Locked.removeField (h : o.Locked) (name : Text) : (o.removeField name).Locked := by
  unfold Object.removeField
  split
  · exact h.of_keys rfl fun _ hk => (mem_keys_erase hk).1
  · exact h

/-- The change makes no object that unlocks another. -/
def KeepsLocked (change : Object → Object) : Prop := ∀ o, o.Locked → (change o).Locked

/-- Nor does it further down. -/
theorem KeepsLocked.modifyAt (h : KeepsLocked change) (name : Text) :
    KeepsLocked (·.modifyAt change [name]) := by
  intro o ho
  dsimp only
  rw [modifyAt_cons]
  split
  · exact ho.overwrite name _
  · split_ifs with hname
    · rename_i hget
      subst hname
      have hkey : o.hasKey reservedName = false := get?_eq_none_iff.mp hget
      unfold assign
      rw [if_neg (by simp [hkey]), if_pos (by simp [(locked_iff.mp ho).1]), locked_iff]
      exact ⟨h empty locked_empty, (locked_iff.mp ho).2⟩
    · exact ho
  · exact ho

/-! ### Places that are no part of the document -/

/-- No change at this place shows in the document. -/
structure Lost (doc : Object) (container : List Text) : Prop where
  empty : doc.objectAt container = empty
  same {change : Object → Object} (h : KeepsLocked change) : doc.modifyAt change container = doc

theorem Lost.createObject (h : doc.Lost container) (name : Text) :
    doc.createObject container name = (container ++ [name], doc) ∧
      doc.Lost (container ++ [name]) := by
  refine ⟨?_, ?_, fun {change} hchange => ?_⟩
  · unfold Object.createObject
    rw [h.empty, h.same fun o ho => ho.setField name rfl]
    rfl
  · rw [objectAt_append, h.empty, objectAt_empty]
  · rw [modifyAt_append]
    exact h.same (hchange.modifyAt name)

theorem LeadsTo.modifyAt_self (hdoc : (Json.obj doc).WellFormed) (h : doc.LeadsTo keys o) :
    doc.modifyAt (fun _ => o) keys = doc := by
  induction h with
  | here => rfl
  | member hget _ ih =>
    rw [modifyAt_of_get? hget, ih (Json.Throughout.get? hdoc hget)]
    exact overwrite_self hdoc.nodup hget

theorem LeadsTo.leads (h : doc.LeadsTo keys o) : doc.Leads keys := by
  induction h with
  | here => trivial
  | @member o inner last key keys hget _ ih =>
    refine ⟨storedName_of_findKey? (findKey?_self (mem_keys_iff.mpr (by rw [hget]; rfl))), ?_⟩
    rw [objectAt_cons, hget]
    exact ih

/-- An object that is not stored is lost. -/
theorem LeadsTo.createObject_lost (hdoc : (Json.obj doc).WellFormed) (h : doc.LeadsTo keys o)
    (hname : ¬ o.Takes name) :
    doc.createObject keys name = (keys ++ [name], doc) ∧ doc.Lost (keys ++ [name]) := by
  have hget : o.get? name = none :=
    get?_eq_none_iff.mpr (hasKey_of_findKey?_none (field?_eq_none_iff.mp (field?_of_not_takes hname)))
  have hstored : o.storedName name = name :=
    storedName_of_findKey?_none (field?_eq_none_iff.mp (field?_of_not_takes hname))
  have hsame : ∀ change : Object → Object, change o = o → doc.modifyAt change keys = doc := by
    intro change hchange
    rw [h.modifyAt_congr (g := fun _ => o) hchange, h.modifyAt_self hdoc]
  refine ⟨?_, ?_, fun {change} hchange => ?_⟩
  · unfold Object.createObject
    rw [h.objectAt, hstored, hsame _ (setField_of_not_takes hname rfl)]
  · rw [objectAt_append, h.objectAt, objectAt_cons, hget]
  · rw [modifyAt_append]
    refine hsame _ ?_
    rw [modifyAt_cons, hget]
    dsimp only
    split_ifs
    · have hset := setField_of_not_takes hname (hchange empty locked_empty)
      rwa [setField_eq, hstored] at hset
    · rfl

end Object

namespace Path

variable {path : Path} {create : Bool} {change : Object → Object} {elements rest : List PathElement}
  {e e' : PathElement} {o o' r doc inner : Object} {container c : List Text}

/-! ### By descent -/

/-- The object `o` after a change of the object in which the last element names a field; objects
that are missing on the way are created, or there is nothing to change. -/
def changeIn (path : Path) (create : Bool) (change : Object → Object)
    (elements : List PathElement) (o : Object) : Except Error Object :=
  match elements with
  | [] => .ok (change o)
  | [_] => .ok (change o)
  | e :: rest =>
    match (o.field? e.name).getD .null with
    | .obj inner =>
      (changeIn path create change rest inner).map fun inner => o.setField e.name (.obj inner)
    | .null =>
      if create then
        (changeIn path create change rest empty).map fun inner => o.setField e.name (.obj inner)
      else .ok o
    | _ => .error (.notComplex path e.name)
termination_by structural elements

theorem changeIn_cons (path : Path) (create : Bool) (change : Object → Object) (e e' : PathElement)
    (rest : List PathElement) (o : Object) :
    changeIn path create change (e :: e' :: rest) o =
      match (o.field? e.name).getD .null with
      | .obj inner => (changeIn path create change (e' :: rest) inner).map fun inner =>
          o.setField e.name (.obj inner)
      | .null =>
        if create then (changeIn path create change (e' :: rest) empty).map fun inner =>
          o.setField e.name (.obj inner)
        else .ok o
      | _ => .error (.notComplex path e.name) := rfl

/-- What a step of the descent does: the object in the field is changed or made, or nothing is. -/
theorem changeIn_cons_eq_ok (h : changeIn path create change (e :: e' :: rest) o = .ok o') :
    (∃ inner r, o.field? e.name = some (.obj inner) ∧
      changeIn path create change (e' :: rest) inner = .ok r ∧
      o' = o.setField e.name (.obj r)) ∨
    (o.field? e.name).getD .null = .null ∧
      ((create = true ∧ ∃ r, changeIn path create change (e' :: rest) empty = .ok r ∧
        o' = o.setField e.name (.obj r)) ∨ create = false ∧ o' = o) := by
  rw [changeIn_cons] at h
  split at h
  · rename_i inner hfield
    refine .inl ?_
    cases hr : changeIn path create change (e' :: rest) inner with
    | error => rw [hr] at h; cases h
    | ok r =>
      rw [hr] at h
      exact ⟨inner, r, field?_of_getD hfield (by simp), hr, (Except.ok.inj h).symm⟩
  · rename_i hnull
    refine .inr ⟨hnull, ?_⟩
    split_ifs at h with hcreate
    · refine .inl ⟨hcreate, ?_⟩
      cases hr : changeIn path create change (e' :: rest) empty with
      | error => rw [hr] at h; cases h
      | ok r =>
        rw [hr] at h
        exact ⟨r, rfl, (Except.ok.inj h).symm⟩
    · exact .inr ⟨by simpa using hcreate, (Except.ok.inj h).symm⟩
  · cases h

/-- From an empty object on everything is created. -/
theorem changeIn_empty (path : Path) (hchange : KeepsLocked change) (elements : List PathElement) :
    ∃ r, changeIn path true change elements empty = .ok r ∧ r.Locked := by
  induction elements with
  | nil => exact ⟨_, rfl, hchange empty locked_empty⟩
  | cons e rest ih =>
    cases rest with
    | nil => exact ⟨_, rfl, hchange empty locked_empty⟩
    | cons e' rest =>
      obtain ⟨r, hr, hlocked⟩ := ih
      refine ⟨empty.setField e.name (.obj r), ?_, locked_empty.setField e.name hlocked⟩
      rw [changeIn_cons, hr]
      rfl

/-! ### Finding the place and descending -/

/-- A change in the object that was found, if one was found. -/
def changeFound (change : Object → Object) : Except Error (Option (List Text)) × Object → Outcome
  | (.ok (some c), doc) => .done (doc.modifyAt change c)
  | (.ok none, doc) => .done doc
  | (.error e, doc) => .failed e doc

/-- What an object has become, put in its place. -/
def putBack (doc : Object) (container : List Text) : Except Error Object → Outcome
  | .ok o => .done (doc.modifyAt (fun _ => o) container)
  | .error e => .failed e doc

theorem targetContainer_lost (h : doc.Lost container) (path : Path) (elements : List PathElement) :
    ∃ c, targetContainer path true elements container doc = (.ok (some c), doc) ∧ doc.Lost c := by
  induction elements generalizing container with
  | nil => exact ⟨container, rfl, h⟩
  | cons e rest ih =>
    cases rest with
    | nil => exact ⟨container, rfl, h⟩
    | cons e' rest =>
      obtain ⟨hcreate, hlost⟩ := h.createObject e.name
      rw [targetContainer_cons, h.empty]
      show ∃ c, targetContainer path true (e' :: rest) _ _ = _ ∧ _
      rw [hcreate]
      exact ih hlost

/-- What the object in a field has become is put back into that field. -/
theorem putBack_member {key name : Text} (hat : doc.LeadsTo container o)
    (hkey : o.findKey? name = some key) (hget : o.get? key = some (.obj inner))
    (result : Except Error Object) :
    putBack doc (container ++ [key]) result =
      putBack doc container (result.map fun r => o.setField name (.obj r)) := by
  cases result with
  | error => rfl
  | ok r =>
    refine congrArg Outcome.done ?_
    rw [modifyAt_append]
    refine hat.modifyAt_congr ?_
    rw [modifyAt_of_get? hget]
    exact (setField_of_findKey? hkey _).symm

/-- The change of the object that is found is the descent, put back where it has started. -/
theorem changeFound_targetContainer (hchange : KeepsLocked change) (hne : elements ≠ [])
    (hdoc : (Json.obj doc).WellFormed) (hat : doc.LeadsTo container o) :
    changeFound change (targetContainer path create elements container doc) =
      putBack doc container (changeIn path create change elements o) := by
  induction elements generalizing doc container o with
  | nil => exact absurd rfl hne
  | cons e rest ih =>
    cases rest with
    | nil => exact congrArg Outcome.done (hat.modifyAt_congr rfl)
    | cons e' rest =>
      have hnext := List.cons_ne_nil e' rest
      rw [targetContainer_cons, changeIn_cons, hat.objectAt]
      cases hv : (o.field? e.name).getD .null with
      | obj inner =>
        have hfield : o.field? e.name = some (.obj inner) := field?_of_getD hv (by simp)
        obtain ⟨key, hkey, hget⟩ := get?_of_field? hfield
        dsimp only
        rw [storedName_of_findKey? hkey, ih hnext hdoc (hat.append hget)]
        exact putBack_member hat hkey hget _
      | null =>
        dsimp only
        by_cases hcreate : create
        · subst hcreate
          obtain ⟨r, hr, hlocked⟩ := changeIn_empty path hchange (e' :: rest)
          rw [if_pos rfl, if_pos rfl, hr]
          show _ = Outcome.done (doc.modifyAt (fun _ => o.setField e.name (.obj r)) container)
          by_cases htakes : o.Takes e.name
          · obtain ⟨key, hkey, hget, hnew⟩ := hat.createObject htakes
            have hdoc' : (Json.obj (doc.modifyAt (·.setField e.name (.obj empty))
                container)).WellFormed :=
              Json.AllObjects.modifyAt hdoc hat.leads fun _ h => h.setField e.name .empty
            have hat' := hat.modifyAt (·.setField e.name (.obj empty))
            rw [hnew, ih hnext hdoc' (hat'.append hget), hr]
            refine congrArg Outcome.done ?_
            rw [modifyAt_append, hat.modifyAt_modifyAt]
            refine hat.modifyAt_congr ?_
            show (o.setField e.name (.obj empty)).modifyAt (fun _ => r) [key] = _
            rw [modifyAt_of_get? hget, modifyAt_nil, ← setField_of_findKey? hkey,
              setField_setField_of_takes htakes]
          · -- the new object is lost, and so is what is made of it
            obtain ⟨hnew, hlost⟩ := hat.createObject_lost hdoc htakes
            obtain ⟨c, hc, hlost⟩ := targetContainer_lost hlost path (e' :: rest)
            rw [hnew, hc]
            refine congrArg Outcome.done ?_
            rw [hlost.same hchange, setField_of_not_takes htakes hlocked, hat.modifyAt_self hdoc]
        · rw [if_neg hcreate, if_neg hcreate]
          exact congrArg Outcome.done (hat.modifyAt_self hdoc).symm
      | _ => rfl

/-! ### A second descent -/

/-- The object in which the last element names a field, as far as the way there is a way through
objects; else it is empty. -/
def endOf (elements : List PathElement) (o : Object) : Object :=
  match elements with
  | [] => o
  | [_] => o
  | e :: rest =>
    match o.field? e.name with
    | some (.obj inner) => endOf rest inner
    | _ => empty
termination_by structural elements

theorem endOf_cons (e e' : PathElement) (rest : List PathElement) (o : Object) :
    endOf (e :: e' :: rest) o =
      match o.field? e.name with
      | some (.obj inner) => endOf (e' :: rest) inner
      | _ => empty := rfl

theorem endOf_of_null (h : (o.field? e.name).getD .null = .null) :
    endOf (e :: e' :: rest) o = empty := by
  rw [endOf_cons]
  split
  · rename_i inner hfield
    rw [hfield] at h
    cases h
  · rfl

theorem endOf_empty (elements : List PathElement) : endOf elements empty = empty := by
  rcases elements with _ | ⟨e, _ | ⟨e', rest⟩⟩ <;> rfl

theorem allObjects_endOf {P : Object → Prop} [Stable P] (ho : (Json.obj o).AllObjects P)
    (elements : List PathElement) : (Json.obj (endOf elements o)).AllObjects P := by
  induction elements generalizing o with
  | nil => exact ho
  | cons e rest ih =>
    cases rest with
    | nil => exact ho
    | cons e' rest =>
      rw [endOf_cons]
      split
      · rename_i inner hfield
        exact ih (Json.Throughout.field? ho hfield)
      · exact .empty

/-- A descent whose change at the end would change nothing the second time changes nothing the
second time. -/
theorem changeIn_changeIn (hchange : KeepsLocked change)
    (htwice : change (change (endOf elements o)) = change (endOf elements o))
    (h : changeIn path create change elements o = .ok o') :
    changeIn path create change elements o' = .ok o' := by
  induction elements generalizing o o' with
  | nil =>
    cases h
    exact congrArg Except.ok htwice
  | cons e rest ih =>
    cases rest with
    | nil =>
      cases h
      exact congrArg Except.ok htwice
    | cons e' rest =>
      have hset : ∀ r, o.Takes e.name → changeIn path create change (e' :: rest) r = .ok r →
          changeIn path create change (e :: e' :: rest) (o.setField e.name (.obj r)) =
            .ok (o.setField e.name (.obj r)) := by
        intro r htakes hr
        rw [changeIn_cons, field?_setField_of_takes htakes]
        dsimp only [Option.getD_some]
        rw [hr]
        exact congrArg Except.ok (setField_setField_of_takes htakes _ _)
      rcases changeIn_cons_eq_ok h with
        ⟨inner, r, hfield, hr, rfl⟩ | ⟨hnull, ⟨rfl, r, hr, rfl⟩ | ⟨rfl, rfl⟩⟩
      · rw [endOf_cons, hfield] at htwice
        exact hset r (takes_of_field? hfield) (ih htwice hr)
      · have hend : change (change empty) = change empty := by rwa [endOf_of_null hnull] at htwice
        by_cases htakes : o.Takes e.name
        · exact hset r htakes (ih (by rwa [endOf_empty]) hr)
        · obtain ⟨r', hr', hlocked⟩ := changeIn_empty path hchange (e' :: rest)
          obtain rfl : r' = r := Except.ok.inj (hr'.symm.trans hr)
          rw [setField_of_not_takes htakes hlocked] at h ⊢
          exact h
      · exact h

/-! ### What a descent changes -/

theorem changeIn_changes (hlast : rest = [] → Changes [e.name] o (change o))
    (h : changeIn path create change (e :: rest) o = .ok o') : Changes [e.name] o o' := by
  cases rest with
  | nil =>
    cases h
    exact hlast rfl
  | cons e' rest =>
    rcases changeIn_cons_eq_ok h with
      ⟨inner, r, -, -, rfl⟩ | ⟨-, ⟨-, r, -, rfl⟩ | ⟨-, rfl⟩⟩
    · exact .setField (by simp)
    · exact .setField (by simp)
    · exact .refl _

/-- Whether an object has a member that is assigned. -/
theorem isAssigned_of_field? {name : Text} {v : Json} (h : o.field? name = some v)
    (hv : v.isUnassigned = false) : Operation.isAssigned (some (.obj o)) = true := by
  obtain ⟨key, -, hget⟩ := get?_of_field? h
  refine List.any_eq_true.mpr ⟨v, List.mem_map_of_mem (mem_of_get? hget), ?_⟩
  rw [hv]
  rfl

/-- Under the reserved name an empty object stores nothing. -/
theorem ne_reservedName_of_isAssigned {name : Text} {v : Json}
    (h : Operation.isAssigned (some (.obj (empty.setField name v))) = true) :
    name ≠ reservedName := by
  rintro rfl
  have hkept : (empty.setField reservedName v).members = [] := members_assign_reservedName rfl rfl
  simp [Operation.isAssigned, Object.values, hkept] at h

/-- If what is made of nothing holds an assigned value, so does what is made of any object. -/
theorem isAssigned_changeIn
    (hlast : Operation.isAssigned (some (.obj (change empty))) = true →
      ∀ o, Operation.isAssigned (some (.obj (change o))) = true)
    (hr : changeIn path true change elements empty = .ok r)
    (hassigned : Operation.isAssigned (some (.obj r)) = true)
    (h : changeIn path true change elements o = .ok o') :
    Operation.isAssigned (some (.obj o')) = true := by
  rcases elements with _ | ⟨e, _ | ⟨e', rest⟩⟩
  · cases hr
    cases h
    exact hlast hassigned o
  · cases hr
    cases h
    exact hlast hassigned o
  · obtain ⟨s, rfl⟩ : ∃ s, r = empty.setField e.name (.obj s) := by
      rcases changeIn_cons_eq_ok hr with ⟨_, _, hfield, -⟩ | ⟨-, ⟨-, s, -, hs⟩ | ⟨hcreate, -⟩⟩
      · cases hfield
      · exact ⟨s, hs⟩
      · cases hcreate
    have hname := ne_reservedName_of_isAssigned hassigned
    have hfield : ∀ w, Operation.isAssigned (some (.obj (o.setField e.name (.obj w)))) = true :=
      fun w => isAssigned_of_field? (field?_setField_of_takes (takes_of_ne hname) _) rfl
    rcases changeIn_cons_eq_ok h with ⟨_, w, -, -, rfl⟩ | ⟨-, ⟨-, w, -, rfl⟩ | ⟨hcreate, -⟩⟩
    · exact hfield w
    · exact hfield w
    · cases hcreate

end Path

end Scim

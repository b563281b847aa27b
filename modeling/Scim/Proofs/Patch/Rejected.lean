import Scim.Proofs.Patch.Failure
import Scim.Proofs.Patch.Settled

/-!
# Data that a failing operation leaves

Whatever holds data in a resource is still there after an accepted operation has failed, but for the
URN of the operation's schema, which the list of schemas may gain or lose (`apply_rejected`). What
goes is empty: an object that was created on the way (`Path.Rooted`), and in the end the extension
without an assigned value that bookkeeping drops.

Two more things can go. Listed members are removed one after the other, and none is put back if a
later removal fails, as one does where the object that they are in has a second field of their name:
that is how such removals are meant, and the theorem leaves these fields out (`apply_rejected_lost`).
And bookkeeping drops what is no object but stored under the URN of a schema that is not core,
although only an empty extension is to be dropped: a defect (`apply_rejected_text`), of whose outcome
the theorem says nothing.
-/

namespace Scim

open Object

/-- Whether a value is assigned and, if it is an object, holds an assigned value. -/
def Json.holdsData : Json → Bool
  | .obj o => (Object.values o).any fun v => !v.isUnassigned
  | v => !v.isUnassigned

namespace Operation

variable {core : List Text} {doc doc' : Object} {op : Operation} {key u : Text} {v : Json} {e : Error}
  {options : PatchOptions} {change : Change} {path : Option Path} {value : Option Json}

/-! ### Bookkeeping -/

/-- The items of a list of schemas with the URN added at the end, or without the URN. -/
inductive Relisted (u : Text) (items : List Json) : List Json → Prop
  | gained {t : Text} (ht : t.lower = u.lower) : Relisted u items (items ++ [.str t])
  | lost : Relisted u items (items.filter fun v => !isUrnItem u v)

/-- Under a key there is what there was, or a list of schemas that has gained or lost a URN. -/
inductive Survives (u : Text) (listKey key : Text) (v : Json) (doc : Object) : Prop
  | same (hget : doc.get? key = some v)
  | relisted {items items' : List Json} (hkey : key = listKey) (hv : v = .arr items)
    (hget : doc.get? key = some (.arr items')) (hitems : Relisted u items items')

theorem survives_overwrite {listKey : Text} {items items' : List Json}
    (hlist : v = .arr items ∨ key ≠ listKey) (hget : doc.get? key = some v)
    (hitems : Relisted u items items') :
    Survives u listKey key v (doc.overwrite listKey (.arr items')) := by
  by_cases hkey : key = listKey
  · obtain rfl := hlist.resolve_right (not_not_intro hkey)
    refine .relisted hkey rfl ?_ hitems
    rw [get?_overwrite, if_pos hkey, hget]
    rfl
  · refine .same ?_
    rw [get?_overwrite, if_neg hkey, hget]

/-- Bookkeeping drops nothing but the field of the schema, and that only if it is not assigned. -/
theorem survives_updateSchema (hget : doc.get? key = some v)
    (hkept : key = doc.storedName u → Schema.isCore core doc u = true ∨
      isAssigned (doc.field? u) = true) :
    Survives u (doc.storedName Schema.listName) key v (updateSchema core doc u) := by
  have hlist : ∀ items, doc.field? Schema.listName = some (.arr items) →
      v = .arr items ∨ key ≠ doc.storedName Schema.listName := by
    intro items hfield
    refine (ne_or_eq key _).symm.imp_left fun hkey => ?_
    rw [field?_eq, ← hkey, hget] at hfield
    exact Option.some.inj hfield
  unfold updateSchema
  split_ifs with hcore
  · exact .same hget
  dsimp only
  cases hassigned : isAssigned (doc.field? u) with
  | true =>
    cases hfield : doc.field? Schema.listName with
    | none =>
      refine .same ?_
      have hne : key ≠ doc.storedName Schema.listName := by
        rintro rfl
        rw [← field?_eq, hfield] at hget
        cases hget
      have hkeeps : Keeps (· != doc.storedName Schema.listName) doc (doc.setField Schema.listName
          (.arr [.str (doc.storedName u)])) := .setField (by simp)
      rw [hkeeps.get? (by simpa using hne), hget]
    | some w =>
      cases w with
      | arr items =>
        dsimp only
        split_ifs
        · exact .same hget
        · exact survives_overwrite (hlist items hfield) hget (.gained (doc.lower_storedName u))
      | _ => exact .same hget
  | false =>
    have hne : key ≠ doc.storedName u := by simpa [hcore, hassigned] using hkept
    have hkeeps : Keeps (· != doc.storedName u) doc (doc.removeField u) := .removeField (by simp)
    have hget' : (doc.removeField u).get? key = some v := by
      rw [hkeeps.get? (by simpa using hne), hget]
    cases hfield : doc.field? Schema.listName with
    | none => exact .same hget'
    | some w =>
      cases w with
      | arr items =>
        dsimp only
        split_ifs
        · exact survives_overwrite (hlist items hfield) hget' .lost
        · exact .same hget'
      | _ => exact .same hget'

/-! ### The change -/

/-- The object that the members to remove are in has only one field of their name. -/
def MembersOnce (core : List Text) (op : Operation) (doc : Object) : Prop :=
  ∀ c root, Schema.rootOf? core doc op.schemaUrn? = some (c, root) → root.Unambiguous membersName

/-- If members are removed from one field only, a failing change leaves an empty object at most. -/
theorem rooted_of_failed (hmake : make change path value = .ok op)
    (hone : op.removesByValue → op.MembersOnce options.coreUrns doc)
    (h : op.applyChange options doc = .failed e doc') :
    Path.Rooted options.coreUrns op.schemaUrn? doc doc' := by
  have hlate := selector_of_make hmake
  unfold applyChange at h
  cases hchange : op.change with
  | add =>
    rw [hchange] at h
    exact applyAdd_failed hlate h
  | replace =>
    rw [hchange] at h
    exact applyReplace_failed hlate h
  | remove =>
    rw [hchange] at h
    rcases applyRemove_failed_cases hlate (takesMembers_of_make hmake) h with
      rfl | ⟨hvalue, name, ids, hname, hfail⟩
    · exact .same
    · have hdoc : doc' = doc := by
        refine removeMembers_failed hfail (by rw [hname]; decide) fun c root hroot => ?_
        intro k hk k' hk'
        rw [hname]
        exact hone hvalue c root hroot k hk k' hk'
      rw [hdoc]
      exact .same

/-- A change has left a value under its key, and bookkeeping has nothing to drop there. -/
structure Lasts (core : List Text) (urn : Option Text) (key : Text) (v : Json)
    (doc doc' : Object) : Prop where
  get : doc'.get? key = some v
  list : key = doc'.storedName Schema.listName → key = doc.storedName Schema.listName
  kept : ∀ u, urn = some u → key = doc'.storedName u →
    Schema.isCore core doc' u = true ∨ isAssigned (doc'.field? u) = true

/-- The empty object of a schema is no place where there was data. -/
theorem lasts_of_rooted {urn : Option Text} (h : Path.Rooted core urn doc doc')
    (hget : doc.get? key = some v) (hdata : v.holdsData = true)
    (hobject : ∀ u, urn = some u → key = doc.storedName u → Schema.isCore core doc u = false →
      v.isObject = true) : Lasts core urn key v doc doc' := by
  cases h with
  | same =>
    refine ⟨hget, id, fun u hu hkey => or_iff_not_imp_left.mpr fun hcore => ?_⟩
    have hobj := hobject u hu hkey (by simpa using hcore)
    rw [field?_eq, ← hkey, hget]
    cases v with
    | obj o => exact hdata
    | _ => cases hobj
  | @new u hurn hroot =>
    obtain ⟨hfield, hcore⟩ := root?_eq_none_iff.mp hroot
    have hne : key ≠ doc.storedName u := by
      intro hkey
      have hobj := hobject u hurn hkey hcore
      cases v with
      | obj o => exact hfield o (by rw [field?_eq, ← hkey, hget])
      | _ => cases hobj
    have hkeeps : Keeps (· != doc.storedName u) doc (doc.setField u (.obj empty)) :=
      .setField (by simp)
    refine ⟨by rw [hkeeps.get? (by simpa using hne), hget], fun hkey => ?_, ?_⟩
    · have hmem := doc.storedName_setField_mem u Schema.listName (.obj empty)
      rw [← hkey, List.mem_pair] at hmem
      exact hmem.resolve_left hne
    · intro u' hu' hkey
      obtain rfl : u = u' := Option.some.inj (hurn.symm.trans hu')
      rw [storedName_setField] at hkey
      exact absurd hkey hne

/-- What an operation does not name it leaves in any case. -/
theorem lasts_of_changes (h : Changes op.namesOf doc doc')
    (hout : key.lower ∉ op.namesOf.map Text.lower) (hget : doc.get? key = some v) :
    Lasts core op.schemaUrn? key v doc doc' := by
  refine ⟨by rw [h.keeps.get? (outside_eq_true_iff.mpr hout), hget], fun hkey => ?_, ?_⟩
  · have hlower : key.lower = Schema.listName.lower := by rw [hkey, lower_storedName]
    rw [hkey, storedName, storedName, h.findKey? (hlower ▸ hout)]
  · intro u hu hkey
    refine absurd ?_ hout
    rw [hkey, lower_storedName]
    obtain ⟨p, hp, hurn⟩ := Option.bind_eq_some_iff.mp hu
    refine List.mem_map_of_mem (topNames_subset hp (List.mem_append_left _ ?_))
    rw [hurn]
    exact List.mem_singleton_self u

/-- An accepted operation that fails destroys no data. Under every key that holds some there is the
same value afterwards, or the list of schemas with the URN of the operation's schema added or left
out; except what is stored under the URN of a schema that is not core without being an object, and,
if members are removed from two fields, the fields that the removal names. -/
theorem apply_rejected (options : PatchOptions) (doc : Object) {change : Change}
    {path : Option Path} {value : Option Json} {op : Operation} {e : Error}
    (hmake : make change path value = .ok op) (hfail : (op.apply options doc).result = .error e)
    {key : Text} {v : Json} (hget : doc.get? key = some v) (hdata : v.holdsData = true)
    (hobject : ∀ u, op.schemaUrn? = some u → key = doc.storedName u →
      Schema.isCore options.coreUrns doc u = false → v.isObject = true)
    (hmembers : op.removesByValue = true → key.lower ∈ op.namesOf.map Text.lower →
      op.MembersOnce options.coreUrns doc) :
    (op.apply options doc).resource.get? key = some v ∨
    ∃ u items items', op.schemaUrn? = some u ∧ key = doc.storedName Schema.listName ∧
      v = .arr items ∧ (op.apply options doc).resource.get? key = some (.arr items') ∧
      Relisted u items items' := by
  obtain ⟨doc', hchange, hresource⟩ := exists_of_apply_failed hmake hfail
  have hlasts : Lasts options.coreUrns op.schemaUrn? key v doc doc' := by
    by_cases hone : op.removesByValue → op.MembersOnce options.coreUrns doc
    · exact lasts_of_rooted (rooted_of_failed hmake hone hchange) hget hdata hobject
    · obtain ⟨hvalue, hnot⟩ := Classical.not_imp.mp hone
      refine lasts_of_changes ?_ (fun hmem => hnot (hmembers hvalue hmem)) hget
      have hchanges := applyChange_changes options op doc
      rwa [hchange] at hchanges
  rw [hresource]
  cases hurn : op.schemaUrn? with
  | none => exact .inl hlasts.get
  | some u =>
    cases survives_updateSchema hlasts.get (hlasts.kept u hurn) with
    | same hsame => exact .inl hsame
    | relisted hkey hv hnew hitems =>
      exact .inr ⟨u, _, _, rfl, hlasts.list hkey, hv, hnew, hitems⟩

/-- An extension with a manager that is no list to select from. -/
def managed : Object :=
  ⟨[("schemas", .arr [.str "urn:a:b"]), ("urn:x:y", .ofMembers [("manager", .str "m")])], false⟩

def addToManager : Operation :=
  ⟨.add, some ⟨some "urn:x:y", [⟨"manager", some (.compare .eq (.ofName "value") (.str "m"))⟩,
    ⟨"displayName", none⟩]⟩, some (.str "Boss")⟩

/-- The extension stays, and is listed although the operation fails. -/
theorem apply_rejected_managed :
    make .add addToManager.path addToManager.value = .ok addToManager ∧
    (addToManager.apply .default managed).result = .error (.selectorOnSingleValue "manager") ∧
    Json.holdsData (.ofMembers [("manager", .str "m")]) = true ∧
    managed.get? "urn:x:y" = some (.ofMembers [("manager", .str "m")]) ∧
    (addToManager.apply .default managed).resource.get? "urn:x:y" =
      some (.ofMembers [("manager", .str "m")]) ∧
    (addToManager.apply .default managed).resource.get? "schemas" =
      some (.arr [.str "urn:a:b", .str "urn:x:y"]) := by
  have hmake : make .add addToManager.path addToManager.value = .ok addToManager := rfl
  have hfail : (addToManager.apply .default managed).result =
      .error (.selectorOnSingleValue "manager") := rfl
  have hget : managed.get? "urn:x:y" = some (.ofMembers [("manager", .str "m")]) := rfl
  refine ⟨hmake, hfail, rfl, hget, ?_, rfl⟩
  have hleft := apply_rejected .default managed hmake hfail hget rfl (fun _ _ _ _ => rfl) nofun
  rcases hleft with hsame | ⟨u, items, items', -, -, hv, -⟩
  · exact hsame
  · cases hv

/-- The members stay removed when a later removal fails, here because a second field has their name
in other letters. This is by design: a listed removal is one removal for each member, and nothing is
rolled back. -/
theorem apply_rejected_lost :
    make .remove removeTwo.path removeTwo.value = .ok removeTwo ∧
    (removeTwo.apply .default twoFields).result = .error (.selectorOnSingleValue "members") ∧
    twoFields.get? "members" = some (.arr [.ofMembers [("value", .str "1")]]) ∧
    Json.holdsData (.arr [.ofMembers [("value", .str "1")]]) = true ∧
    (removeTwo.apply .default twoFields).resource.get? "members" = none :=
  ⟨rfl, rfl, rfl, rfl, rfl⟩

def textExtension : Object := ⟨[("urn:x:y", .str "text")], false⟩

def addToText : Operation :=
  ⟨.add, some (.ofAttribute "urn:x:y" "a"), some (.bool true)⟩

/-- A text goes from under the URN of a schema that is not core when the addition to it fails. This
is a defect: bookkeeping is there to drop an empty extension, and takes whatever is no object for
one. -/
theorem apply_rejected_text :
    make .add addToText.path addToText.value = .ok addToText ∧
    (addToText.apply .default textExtension).result = .error (.extensionNotObject "urn:x:y") ∧
    textExtension.get? "urn:x:y" = some (.str "text") ∧ Json.holdsData (.str "text") = true ∧
    (addToText.apply .default textExtension).resource.get? "urn:x:y" = none :=
  ⟨rfl, rfl, rfl, rfl, rfl⟩

end Operation

end Scim

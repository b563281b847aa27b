import Scim.Proofs.Patch.Listing

/-!
# What bookkeeping leaves of one schema

After bookkeeping a schema is core, or its object holds an assigned value and is listed as far as it
can be, or there is nothing of it at all (`settles_updateSchema`). So bookkeeping for the second time
changes nothing (`updateSchema_updateSchema`), and the root of the schema is the one that it was, or
there is none: no schema gets a root by bookkeeping, and none gets another one.

The URN may be any text here, even the name of the list itself.
-/

namespace Scim

open Object

namespace Operation

open Schema

variable {core : List Text} {doc root : Object} {u : Text} {container : List Text}

/-- The list of schemas has the schema in it, or is none to be added to. -/
def Enlisted (u : Text) (doc : Object) : Prop :=
  ∃ v, doc.field? listName = some v ∧ ∀ items, v = .arr items → items.any (isUrnItem u)

/-- What bookkeeping makes of a schema. -/
inductive Settles (core : List Text) (u : Text) (doc : Object) : Object → Prop
  | core (hcore : isCore core doc u = true) : Settles core u doc doc
  | kept {doc' : Object} (hcore : isCore core doc u = false)
    (hassigned : isAssigned (doc.field? u) = true) (hkey : doc'.findKey? u = doc.findKey? u)
    (hfield : doc'.field? u = doc.field? u) (hlist : Enlisted u doc') : Settles core u doc doc'
  | dropped {doc' : Object} (hcore : isCore core doc u = false)
    (hassigned : isAssigned (doc.field? u) = false) (hkey : doc'.findKey? u = none)
    (hcore' : isCore core doc' u = false) (hlist : (listed doc').any (isUrnItem u) = false) :
    Settles core u doc doc'

theorem enlisted_relist (stored : Text) (hstored : stored.lower = u.lower) (list : Option Json) :
    ∃ v, (Verdict.enlist stored).relist u list = some v ∧
      ∀ items, v = .arr items → items.any (isUrnItem u) := by
  have hitem : ∀ items : List Json,
      ((Verdict.enlist stored).relistItems u items).any (isUrnItem u) := by
    intro items
    rw [Verdict.relistItems, List.any_append]
    cases items.any (isUrnItem u) with
    | true => rfl
    | false => simp [Verdict.entry, isUrnItem, hstored]
  rcases list with _ | v
  · refine ⟨_, rfl, ?_⟩
    rintro _ ⟨⟩
    exact hitem []
  · cases v with
    | arr items =>
      refine ⟨_, rfl, ?_⟩
      rintro _ ⟨⟩
      exact hitem items
    | _ => exact ⟨_, rfl, by rintro _ ⟨⟩⟩

theorem settles_assigned (hdoc : doc.Distinct) (hcore : isCore core doc u = false)
    (hassigned : isAssigned (doc.field? u) = true) :
    Settles core u doc (updateSchema core doc u) := by
  rw [updateSchema_of_assigned (.of_map _ hdoc) (by simp [hcore]) hassigned]
  obtain ⟨v, hv, hitems⟩ := enlisted_relist _ (doc.lower_storedName u) (doc.field? listName)
  have hlist : Enlisted u (doc.putField listName
      ((Verdict.enlist (doc.storedName u)).relist u (doc.field? listName))) := by
    refine ⟨v, ?_, hitems⟩
    rw [field?_putField (by decide) (fun hnone => absurd (hv.symm.trans hnone) (by simp)), hv]
  by_cases hu : u.lower = listName.lower
  · -- the list is the object of the schema, and stays
    obtain ⟨o, ho⟩ : ∃ o, doc.field? u = some (.obj o) := by
      unfold isAssigned at hassigned
      split at hassigned
      · exact ⟨_, ‹_›⟩
      · cases hassigned
    have hobj : doc.field? listName = some (.obj o) := by
      rw [(hdoc.unambiguous u).field?_congr hu.symm, ho]
    have hsame : doc.putField listName
        ((Verdict.enlist (doc.storedName u)).relist u (doc.field? listName)) = doc := by
      rw [hobj]
      exact setField_self (.of_map _ hdoc) hobj
    rw [hsame] at hlist ⊢
    exact .kept hcore hassigned rfl rfl hlist
  · have hchange : AgreeOn u doc (doc.putField listName
        ((Verdict.enlist (doc.storedName u)).relist u (doc.field? listName))) :=
      (Local.putField listName _).agreeOn hu doc
    exact .kept hcore hassigned hchange.findKey? hchange.field? hlist

theorem settles_unassigned (hdoc : doc.Distinct) (hcore : isCore core doc u = false)
    (hassigned : isAssigned (doc.field? u) = false) :
    Settles core u doc (updateSchema core doc u) := by
  have hgone : (doc.removeField u).findKey? u = none := hdoc.findKey?_removeField
  suffices h : (updateSchema core doc u).findKey? u = none ∧
      (listed (updateSchema core doc u)).any (isUrnItem u) = false by
    refine .dropped hcore hassigned h.1 ?_ h.2
    rw [isCore_eq, Bool.or_eq_false_iff] at hcore ⊢
    refine ⟨hcore.1, ?_⟩
    cases hitems : listed (updateSchema core doc u) with
    | nil => rfl
    | cons v rest => simpa [hitems] using (List.any_eq_false.mp h.2) v (by simp [hitems])
  by_cases hu : u.lower = listName.lower
  · -- the list itself is dropped
    have hnone : ∀ o : Object, o.keys = (doc.removeField u).keys →
        o.findKey? u = none ∧ (listed o).any (isUrnItem u) = false := by
      intro o hkeys
      have hkey : o.findKey? u = none := by rw [findKey?_congr hkeys, hgone]
      have hlist : o.field? listName = none := by
        rw [field?_eq_none_iff, findKey?_eq_none_iff, ← hu]
        exact findKey?_eq_none_iff.mp hkey
      exact ⟨hkey, by simp [listed, hlist]⟩
    unfold updateSchema
    rw [hcore, if_neg (by simp), hassigned]
    rcases doc.field? listName with _ | v
    · exact hnone _ rfl
    · cases v with
      | arr items =>
        dsimp only
        split_ifs
        · exact hnone _ keys_overwrite
        · exact hnone _ rfl
      | _ => exact hnone _ rfl
  · rw [updateSchema_of_unassigned (.of_map _ hdoc) hu (by simp [hcore]) hassigned]
    have hagree : AgreeOn u (doc.removeField u) ((doc.removeField u).putField listName
        (Verdict.drop.relist u (doc.field? listName))) := (Local.putField listName _).agreeOn hu _
    refine ⟨by rw [hagree.findKey?, hgone], ?_⟩
    have hkept : (doc.removeField u).field? listName = doc.field? listName :=
      ((Local.removeField u).agreeOn (Ne.symm hu) doc).field?
    unfold listed
    rw [field?_putField (by decide) fun h => by rw [hkept]; exact Verdict.relist_eq_none h]
    rcases doc.field? listName with _ | v
    · rfl
    · cases v <;> simp [Verdict.relist, Verdict.relistItems]

theorem settles_updateSchema (core : List Text) (hdoc : doc.Distinct) (u : Text) :
    Settles core u doc (updateSchema core doc u) := by
  cases hcore : isCore core doc u with
  | true =>
    rw [show updateSchema core doc u = doc from if_pos hcore]
    exact .core hcore
  | false =>
    cases hassigned : isAssigned (doc.field? u) with
    | true => exact settles_assigned hdoc hcore hassigned
    | false => exact settles_unassigned hdoc hcore hassigned

/-! ### A second time -/

theorem updateSchema_of_enlisted (hassigned : isAssigned (doc.field? u) = true)
    (hlist : Enlisted u doc) : updateSchema core doc u = doc := by
  obtain ⟨v, hv, hitems⟩ := hlist
  unfold updateSchema
  rw [hassigned, hv]
  split_ifs with hcore
  · rfl
  · cases v with
    | arr items => simp [hitems items rfl]
    | _ => rfl

theorem updateSchema_of_gone (hkey : doc.findKey? u = none)
    (hlist : (listed doc).any (isUrnItem u) = false) : updateSchema core doc u = doc := by
  have hremove : doc.removeField u = doc := by
    unfold removeField
    rw [hkey]
  have hfield : doc.field? u = none := field?_eq_none_iff.mpr hkey
  unfold updateSchema
  rw [hfield, hremove]
  split_ifs with hcore
  · rfl
  cases hread : doc.field? listName with
  | none => rfl
  | some v =>
    cases v with
    | arr items =>
      rw [listed_of_field? hread] at hlist
      exact if_neg (by rw [hlist]; decide)
    | _ => rfl

/-- Bookkeeping has nothing left to do the second time. -/
theorem updateSchema_updateSchema (core : List Text) (hdoc : doc.Distinct) (u : Text) :
    updateSchema core (updateSchema core doc u) u = updateSchema core doc u := by
  have h := settles_updateSchema core hdoc u
  generalize updateSchema core doc u = doc' at h
  cases h with
  | core hcore => exact if_pos hcore
  | kept hcore hassigned hkey hfield hlist =>
    exact updateSchema_of_enlisted (hfield ▸ hassigned) hlist
  | dropped hcore hassigned hkey hcore' hlist => exact updateSchema_of_gone hkey hlist

/-! ### The root -/

theorem root?_eq_none_iff : root? core doc u = none ↔
    (∀ o, doc.field? u ≠ some (.obj o)) ∧ isCore core doc u = false := by
  unfold root?
  rw [← Path.extension?_eq_none_iff]
  cases extension? doc u <;> simp

/-- The root of a core schema without an object of its own is the resource. -/
theorem root?_eq_here_iff : root? core doc u = some ([], root) ↔
    extension? doc u = none ∧ isCore core doc u = true ∧ doc = root := by
  unfold root?
  cases extension? doc u <;> simp

/-- Nothing is left of a schema. -/
structure Gone (core : List Text) (u : Text) (doc : Object) : Prop where
  field : doc.field? u = none
  root : root? core doc u = none

theorem gone_of_findKey? (hkey : doc.findKey? u = none) (hcore : isCore core doc u = false) :
    Gone core u doc := by
  have hfield := field?_eq_none_iff.mpr hkey
  exact ⟨hfield, root?_eq_none_iff.mpr ⟨by simp [hfield], hcore⟩⟩

/-- The root of a schema stays, or nothing is left of the schema. -/
theorem root?_updateSchema (hdoc : doc.Distinct)
    (hroot : root? core doc u = some (container, root)) :
    root? core (updateSchema core doc u) u = some (container, root) ∨
      Gone core u (updateSchema core doc u) := by
  have h := settles_updateSchema core hdoc u
  generalize updateSchema core doc u = doc' at h
  cases h with
  | core hcore => exact .inl hroot
  | kept hcore hassigned hkey hfield hlist =>
    unfold root? at hroot
    split at hroot
    · rename_i key members hext
      cases hroot
      left
      have hext' : extension? doc' u = some (key, root) := by
        rw [Path.extension?_eq_some_iff] at hext ⊢
        refine ⟨hkey.trans hext.1, ?_⟩
        simpa [field?, hkey, hext.1, hext.2] using hfield
      unfold root?
      rw [hext']
    · rw [hcore, if_neg (by simp)] at hroot
      cases hroot
  | dropped hcore hassigned hkey hcore' hlist => exact .inr (gone_of_findKey? hkey hcore')

/-- The root of a core schema stays, and so does one with an assigned value. -/
theorem root?_updateSchema_of_assigned (hdoc : doc.Distinct)
    (hroot : root? core doc u = some (container, root))
    (h : isCore core doc u = true ∨ isAssigned (doc.field? u) = true) :
    root? core (updateSchema core doc u) u = some (container, root) := by
  rcases root?_updateSchema hdoc hroot with hsame | hgone
  · exact hsame
  have hsettles := settles_updateSchema core hdoc u
  generalize updateSchema core doc u = doc' at hgone hsettles
  cases hsettles with
  | core hcore => exact hroot
  | kept hcore hassigned hkey hfield hlist =>
    rw [← hfield, hgone.field] at hassigned
    cases hassigned
  | dropped hcore hassigned hkey hcore' hlist => simp [hcore, hassigned] at h

/-- Where there is no root, bookkeeping leaves nothing of the schema. -/
theorem gone_updateSchema (hdoc : doc.Distinct) (hroot : root? core doc u = none) :
    Gone core u (updateSchema core doc u) := by
  obtain ⟨hobj, hnot⟩ := root?_eq_none_iff.mp hroot
  have h := settles_updateSchema core hdoc u
  generalize updateSchema core doc u = doc' at h
  cases h with
  | core hcore =>
    rw [hnot] at hcore
    cases hcore
  | kept hcore hassigned hkey hfield hlist =>
    unfold isAssigned at hassigned
    split at hassigned
    · exact absurd ‹_› (hobj _)
    · cases hassigned
  | dropped hcore hassigned hkey hcore' hlist => exact gone_of_findKey? hkey hcore'

end Operation

end Scim

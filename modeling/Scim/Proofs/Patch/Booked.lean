import Scim.Proofs.Patch.Repeated
import Scim.Proofs.Path.Written

/-!
# Bookkeeping of all schemas of an operation

An operation may have written under several schemas, and under one of them in several letter cases.
Bookkeeping deals with one after the other, in a single list which it reads for what is core, and
which it makes if it is missing. What it does about one schema (`booked_updateSchema`) holds to the
end, since the steps for other schemas do not touch it, and one for the same schema again finds
nothing to do (`Booked.updateSchema`). So every schema that was not core is `Booked` at the end, and
bookkeeping as a whole has nothing left to do the second time (`updateSchemas_books`).
-/

namespace Scim

open Object

/-- The list of schemas has no URN for a name. -/
theorem Schema.lower_ne_listName_of_isUrnName {urn : Text} (h : urn.IsUrnName) :
    urn.lower ≠ listName.lower := by
  rcases h with h | h
  · rw [h]
    decide
  · obtain ⟨_, _, rfl, -⟩ := Text.lower_take_four_iff.mp h
    exact lower_ne_listName_of_mem (by simp)

namespace Operation

open Schema

variable {core urns names : List Text} {doc doc' doc'' : Object} {u w : Text}

/-- Names are distinct, and the list of schemas is an array if it is there. -/
structure Listable (doc : Object) : Prop where
  distinct : doc.Distinct
  list : ListIsArray doc

/-! ### One schema -/

/-- The letter case of a URN makes no difference. -/
theorem updateSchema_congr (core : List Text) (hdoc : doc.Distinct) (h : w.lower = u.lower) :
    updateSchema core doc w = updateSchema core doc u := by
  have hkey : doc.findKey? w = doc.findKey? u := (hdoc.unambiguous u).findKey?_congr h
  have hfield : doc.field? w = doc.field? u := (hdoc.unambiguous u).field?_congr h
  have hremove : doc.removeField w = doc.removeField u := by
    unfold removeField
    rw [hkey]
  unfold updateSchema
  rw [isCore_congr h, hfield, isUrnItem_congr h, hremove]
  cases hread : doc.findKey? u with
  | some key => rw [storedName_of_findKey? (hkey.trans hread), storedName_of_findKey? hread]
  | none =>
    -- the stored name is not asked for
    rw [field?_eq_none_iff.mpr hread]
    rcases doc.field? listName with _ | v
    · rfl
    · cases v <;> rfl

namespace Listable

variable (core) (h : Listable doc) (hu : u.lower ≠ listName.lower)
include h hu

theorem listed_updateSchema :
    listed (Operation.updateSchema core doc u) =
      (verdict core doc u).relistItems u (listed doc) := by
  have hfield := field?_updateSchema core (.of_map _ h.distinct) hu
  rcases field?_of_listIsArray h.list with ⟨hnone, hempty⟩ | hitems
  · rw [hnone] at hfield
    rw [hempty, listed, hfield]
    cases verdict core doc u <;> rfl
  · rw [hitems] at hfield
    exact listed_of_field? hfield

theorem updateSchema : Listable (Operation.updateSchema core doc u) := by
  refine ⟨distinct_updateSchema core h.distinct u, fun v hv => ?_⟩
  rw [field?_updateSchema core (.of_map _ h.distinct) hu] at hv
  rcases field?_of_listIsArray h.list with ⟨hnone, -⟩ | hitems
  · rw [hnone] at hv
    generalize verdict core doc u = verdict at hv
    cases verdict with
    | enlist stored => exact ⟨_, (Option.some.inj hv).symm⟩
    | _ => cases hv
  · rw [hitems] at hv
    exact ⟨_, (Option.some.inj hv).symm⟩

end Listable

/-- What is core stays so. -/
theorem isCore_updateSchema_of_isCore (hdoc : doc.Distinct) (hw : w.lower ≠ listName.lower)
    (h : isCore core doc u = true) : isCore core (updateSchema core doc w) u = true := by
  by_cases hne : u.lower = w.lower
  · rwa [show updateSchema core doc w = doc from if_pos (isCore_congr hne ▸ h)]
  · exact (isCore_updateSchema core (.of_map _ hdoc) hw hne).trans h

theorem any_relistItems_other {v : Verdict} (hv : v.On w) (hne : u.lower ≠ w.lower)
    (items : List Json) : (v.relistItems w items).any (isUrnItem u) = items.any (isUrnItem u) := by
  cases v with
  | leave => rfl
  | enlist stored => exact any_append_stored (hv stored rfl) hne items _
  | drop => exact any_filter_other hne.symm items

/-- Items that are not the URN stay as they are. -/
theorem filter_relistItems {v : Verdict} {keep : Json → Bool} (hv : v.On w)
    (hkeep : ∀ v, isUrnItem w v → keep v = false) (items : List Json) :
    (v.relistItems w items).filter keep = items.filter keep := by
  cases v with
  | leave => rfl
  | enlist stored =>
    have hstored : keep (.str stored) = false := hkeep _ (by simp [isUrnItem, hv stored rfl])
    cases hany : items.any (isUrnItem w) <;>
      simp [Verdict.relistItems, Verdict.entry, hany, hstored]
  | drop =>
    rw [Verdict.relistItems, List.filter_filter]
    refine List.filter_congr fun v _ => ?_
    cases hitem : isUrnItem w v with
    | true => rw [hkeep v hitem, Bool.false_and]
    | false => rw [Bool.not_false, Bool.and_true]

/-- A step changes the list, and drops the field if it is to be dropped. -/
theorem keeps_updateSchema (hdoc : doc.Distinct) (hu : u.lower ≠ listName.lower)
    (h : isCore core doc u = false → isAssigned (doc.field? u) = false →
      u.lower ∈ names.map Text.lower) :
    Keeps (outside (listName :: names)) doc (updateSchema core doc u) := by
  have hput : ∀ (o : Object) (x : Option Json),
      Keeps (outside (listName :: names)) o (o.putField listName x) := by
    intro o x
    cases x with
    | none => exact .refl o
    | some v => exact .setField (Changes.outside_storedName o (by simp))
  rw [updateSchema_eq core (.of_map _ hdoc) hu]
  refine .trans ?_ (hput _ _)
  unfold verdict
  split_ifs with hcore hassigned
  · exact .refl doc
  · exact .refl doc
  · have hmem := h (by simpa using hcore) (by simpa using hassigned)
    exact .removeField (Changes.outside_storedName doc (List.mem_cons_of_mem _ hmem))

/-! ### What is left of a schema -/

/-- What bookkeeping makes of a schema: it is listed if and only if its object held an assigned
value. The object is there as it was then; otherwise no name equal to the URN is left. -/
structure Booked (u : Text) (doc doc' : Object) : Prop where
  listed : (listed doc').any (isUrnItem u) = isAssigned (doc.field? u)
  kept : isAssigned (doc.field? u) = true → doc'.field? u = doc.field? u
  gone : isAssigned (doc.field? u) = false → ∀ key ∈ doc'.keys, key.lower ≠ u.lower

theorem booked_updateSchema (hdoc : Listable doc) (hu : u.lower ≠ listName.lower)
    (hcore : isCore core doc u = false) : Booked u doc (updateSchema core doc u) := by
  have hlist := (hdoc.updateSchema core hu).list
  have h := settles_updateSchema core hdoc.distinct u
  generalize updateSchema core doc u = doc' at h hlist
  cases h with
  | core h => exact absurd (h.symm.trans hcore) (by simp)
  | kept _ hassigned _ hfield henlisted =>
    obtain ⟨v, hv, hany⟩ := henlisted
    obtain ⟨items, rfl⟩ := hlist v hv
    refine ⟨?_, fun _ => hfield, by simp [hassigned]⟩
    rw [listed_of_field? hv, hany items rfl, hassigned]
  | dropped _ hassigned hkey _ hany =>
    exact ⟨hany.trans hassigned.symm, by simp [hassigned], fun _ => findKey?_eq_none_iff.mp hkey⟩

namespace Booked

theorem congr (h : Booked u doc' doc'') (hfield : doc'.field? u = doc.field? u) :
    Booked u doc doc'' where
  listed := hfield ▸ h.listed
  kept := hfield ▸ h.kept
  gone := hfield ▸ h.gone

/-- Nothing is left to be done. -/
theorem updateSchema_eq (h : Booked u doc doc') (hdoc' : ListIsArray doc') :
    Operation.updateSchema core doc' u = doc' := by
  cases hassigned : isAssigned (doc.field? u) with
  | false =>
    exact updateSchema_of_gone (findKey?_eq_none_iff.mpr (h.gone hassigned))
      (h.listed.trans hassigned)
  | true =>
    have hany := h.listed.trans hassigned
    refine updateSchema_of_enlisted (h.kept hassigned ▸ hassigned) ?_
    rcases field?_of_listIsArray hdoc' with ⟨-, hempty⟩ | hitems
    · rw [hempty] at hany
      cases hany
    · refine ⟨_, hitems, ?_⟩
      rintro _ ⟨⟩
      exact hany

/-- Every later step leaves the schema as it is. -/
theorem updateSchema (h : Booked u doc doc') (hdoc' : Listable doc')
    (hu : u.lower ≠ listName.lower) (hw : w.lower ≠ listName.lower) :
    Booked u doc (Operation.updateSchema core doc' w) := by
  by_cases hne : u.lower = w.lower
  · rwa [updateSchema_congr core hdoc'.distinct hne.symm, h.updateSchema_eq hdoc'.list]
  · have hagree : AgreeOn u doc' (Operation.updateSchema core doc' w) :=
      updateSchema_other core (.of_map _ hdoc'.distinct) hw hu hne
    refine ⟨?_, fun hassigned => hagree.field?.trans (h.kept hassigned), fun hassigned => ?_⟩
    · rw [hdoc'.listed_updateSchema core hw, any_relistItems_other (verdict_on core doc' w) hne,
        h.listed]
    · have hgone := findKey?_eq_none_iff.mpr (h.gone hassigned)
      exact findKey?_eq_none_iff.mp (hagree.findKey?.trans hgone)

end Booked

/-! ### All schemas -/

theorem foldl_updateSchema_of_done (h : ∀ u ∈ urns, updateSchema core doc u = doc) :
    urns.foldl (updateSchema core) doc = doc := by
  induction urns with
  | nil => rfl
  | cons u rest ih =>
    obtain ⟨hu, hrest⟩ := List.forall_mem_cons.mp h
    rw [List.foldl_cons, hu, ih hrest]

section Fold

variable (core) (hdoc : Listable doc) (hurns : ∀ w ∈ urns, w.lower ≠ listName.lower)
include hdoc hurns

theorem listable_foldl : Listable (urns.foldl (updateSchema core) doc) := by
  induction urns generalizing doc with
  | nil => exact hdoc
  | cons w rest ih =>
    obtain ⟨hw, hrest⟩ := List.forall_mem_cons.mp hurns
    exact ih (hdoc.updateSchema core hw) hrest

theorem isCore_foldl_of_isCore (h : isCore core doc u = true) :
    isCore core (urns.foldl (updateSchema core) doc) u = true := by
  induction urns generalizing doc with
  | nil => exact h
  | cons w rest ih =>
    obtain ⟨hw, hrest⟩ := List.forall_mem_cons.mp hurns
    exact ih (hdoc.updateSchema core hw) hrest (isCore_updateSchema_of_isCore hdoc.distinct hw h)

theorem filter_listed_foldl {keep : Json → Bool}
    (hkeep : ∀ w ∈ urns, ∀ v, isUrnItem w v → keep v = false) :
    (listed (urns.foldl (updateSchema core) doc)).filter keep = (listed doc).filter keep := by
  induction urns generalizing doc with
  | nil => rfl
  | cons w rest ih =>
    obtain ⟨hw, hrest⟩ := List.forall_mem_cons.mp hurns
    obtain ⟨hkeepw, hkeeprest⟩ := List.forall_mem_cons.mp hkeep
    rw [List.foldl_cons, ih (hdoc.updateSchema core hw) hrest hkeeprest,
      hdoc.listed_updateSchema core hw, filter_relistItems (verdict_on core doc w) hkeepw]

/-- The fields that are dropped at some step are those that could be dropped at the first. -/
theorem keeps_foldl (h : ∀ w ∈ urns, isCore core doc w = false →
      isAssigned (doc.field? w) = false → w.lower ∈ names.map Text.lower) :
    Keeps (outside (listName :: names)) doc (urns.foldl (updateSchema core) doc) := by
  induction urns generalizing doc with
  | nil => exact .refl doc
  | cons w rest ih =>
    obtain ⟨hw, hrest⟩ := List.forall_mem_cons.mp hurns
    obtain ⟨hdrop, hlater⟩ := List.forall_mem_cons.mp h
    refine (keeps_updateSchema hdoc.distinct hw hdrop).trans
      (ih (hdoc.updateSchema core hw) hrest fun u hu hcore hassigned => ?_)
    have hcore' : isCore core doc u = false := by
      refine Bool.eq_false_iff.mpr fun hc => ?_
      rw [isCore_updateSchema_of_isCore hdoc.distinct hw hc] at hcore
      cases hcore
    by_cases hne : u.lower = w.lower
    · -- what the step for the same schema keeps is assigned
      rw [updateSchema_congr core hdoc.distinct hne.symm] at hassigned
      have hbooked := booked_updateSchema hdoc (hrest u hu) hcore'
      refine hlater u hu hcore' (Bool.eq_false_iff.mpr fun hc => ?_)
      rw [hbooked.kept hc, hc] at hassigned
      cases hassigned
    · have hagree := updateSchema_other core (.of_map _ hdoc.distinct) hw (hrest u hu) hne
      exact hlater u hu hcore' (hagree.field? ▸ hassigned)

theorem Booked.foldl (h : Booked u doc' doc) (hu : u.lower ≠ listName.lower) :
    Booked u doc' (urns.foldl (Operation.updateSchema core) doc) := by
  induction urns generalizing doc with
  | nil => exact h
  | cons w rest ih =>
    obtain ⟨hw, hrest⟩ := List.forall_mem_cons.mp hurns
    exact ih (hdoc.updateSchema core hw) hrest (h.updateSchema hdoc hu hw)

theorem booked_foldl (hu : u ∈ urns) (hcore : isCore core doc u = false) :
    Booked u doc (urns.foldl (updateSchema core) doc) := by
  induction urns generalizing doc with
  | nil => cases hu
  | cons w rest ih =>
    have hulist := hurns u hu
    obtain ⟨hw, hrest⟩ := List.forall_mem_cons.mp hurns
    have hdoc' := hdoc.updateSchema core hw
    rw [List.foldl_cons]
    by_cases hne : u.lower = w.lower
    · -- from the first step for the schema on
      have hbooked : Booked u doc (updateSchema core doc w) := by
        rw [updateSchema_congr core hdoc.distinct hne.symm]
        exact booked_updateSchema hdoc hulist hcore
      exact hbooked.foldl core hdoc' hrest hulist
    · have hmem : u ∈ rest := (List.mem_cons.mp hu).resolve_left fun heq => hne (heq ▸ rfl)
      have hagree := updateSchema_other core (.of_map _ hdoc.distinct) hw hulist hne
      have hcore' := (isCore_updateSchema core (.of_map _ hdoc.distinct) hw hne).trans hcore
      exact (ih hdoc' hrest hmem hcore').congr hagree.field?

/-- Bookkeeping has nothing left to do about any of the schemas. -/
theorem foldl_updateSchema_settled : urns.foldl (updateSchema core)
    (urns.foldl (updateSchema core) doc) = urns.foldl (updateSchema core) doc := by
  refine foldl_updateSchema_of_done fun u hu => ?_
  cases hcore : isCore core doc u with
  | true => exact if_pos (isCore_foldl_of_isCore core hdoc hurns hcore)
  | false =>
    have hlist := (listable_foldl core hdoc hurns).list
    exact (booked_foldl core hdoc hurns hu hcore).updateSchema_eq hlist

end Fold

/-! ### The schemas of an operation -/

variable {op : Operation}

/-- No operation takes the list of schemas for a schema. -/
theorem lower_ne_listName_of_touched
    (hpath : ∀ p ∈ op.path, ∃ o t, Path.ofText o t = .ok p) :
    ∀ u ∈ op.touchedUrns, u.lower ≠ listName.lower := by
  intro u hu
  unfold touchedUrns at hu
  split at hu
  · rename_i p hp
    obtain ⟨o, t, hread⟩ := hpath p hp
    exact lower_ne_listName_of_isUrnName (Path.isUrnName_of_ofText hread (Option.mem_toList.mp hu))
  · exact lower_ne_listName (List.mem_filter.mp hu).2
  · cases hu

/-- The extensions that bookkeeping drops: they are touched and not core, and hold nothing. -/
def droppedUrns (core : List Text) (op : Operation) (doc : Object) : List Text :=
  op.touchedUrns.filter fun u => !isCore core doc u && !isAssigned (doc.field? u)

/-- Bookkeeping after an operation, whether that has succeeded or not: of the schemas it may have
written under, those that are not core are listed if they hold something and dropped otherwise. The
other items of the list are as they were, and so are all fields but the list and what is dropped. A
second time changes nothing. -/
theorem updateSchemas_books (core : List Text) (op : Operation) (doc : Object)
    (hdoc : doc.Distinct) (hlist : ListIsArray doc)
    (hpath : ∀ p ∈ op.path, ∃ o t, Path.ofText o t = .ok p) :
    (∀ u ∈ op.touchedUrns, isCore core doc u = false →
      Booked u doc (op.updateSchemas core doc)) ∧
    ((listed (op.updateSchemas core doc)).filter fun v => !op.touchedUrns.any (isUrnItem · v)) =
      ((listed doc).filter fun v => !op.touchedUrns.any (isUrnItem · v)) ∧
    Keeps (outside (listName :: op.droppedUrns core doc)) doc (op.updateSchemas core doc) ∧
    op.updateSchemas core (op.updateSchemas core doc) = op.updateSchemas core doc := by
  have hready : Listable doc := ⟨hdoc, hlist⟩
  have hurns := lower_ne_listName_of_touched hpath
  refine ⟨fun u hu hcore => booked_foldl core hready hurns hu hcore, ?_, ?_, ?_⟩
  · refine filter_listed_foldl core hready hurns fun u hu v hv => ?_
    exact congrArg not (List.any_eq_true.mpr ⟨u, hu, hv⟩)
  · refine keeps_foldl core hready hurns fun u hu hcore hassigned => ?_
    exact List.mem_map_of_mem (List.mem_filter.mpr ⟨hu, by simp [hcore, hassigned]⟩)
  · exact foldl_updateSchema_settled core hready hurns

/-- A resource with an extension that holds nothing but is listed, and another that is not. -/
def halfListed : Object :=
  ⟨[("schemas", .arr [.str "urn:c:c", .str "URN:X:A", .bool true, .str "other", .str "other"]),
    ("urn:x:a", .ofMembers [("n", .null)]), ("Urn:X:B", .ofMembers [("k", .bool true)]),
    ("userName", .str "u")], false⟩

def bothListed : Object :=
  ⟨[("schemas", .arr [.str "urn:c:c", .bool true, .str "other", .str "other", .str "Urn:X:B"]),
    ("Urn:X:B", .ofMembers [("k", .bool true)]), ("userName", .str "u")], false⟩

/-- An addition under one schema in two letter cases, under one that holds nothing and under one
that is core. -/
def twoCases : Operation :=
  ⟨.add, none, some (.ofMembers [("urn:x:b", .ofMembers [("k", .bool true)]),
    ("urn:x:a", .ofMembers []), ("URN:X:B", .ofMembers []), ("URN:C:C", .ofMembers [])])⟩

/-- The removal of `urn:x:a:n`. -/
def removalOfNull : Operation := ⟨.remove, some (.ofAttribute "urn:x:a" "n"), none⟩

theorem updateSchemas_books_halfListed :
    halfListed.Distinct ∧ ListIsArray halfListed ∧
    Path.ofText .default "urn:x:a:n" = .ok (.ofAttribute "urn:x:a" "n") ∧
    twoCases.touchedUrns = ["urn:x:b", "urn:x:a", "URN:X:B", "URN:C:C"] ∧
    twoCases.updateSchemas [] halfListed = bothListed ∧
    Booked "URN:X:B" halfListed bothListed ∧
    twoCases.updateSchemas [] bothListed = bothListed ∧
    Booked "urn:x:a" halfListed (removalOfNull.updateSchemas [] halfListed) := by
  have hdoc : halfListed.Distinct := by decide
  have hlist : ListIsArray halfListed := fun v hv => ⟨_, (Option.some.inj hv).symm⟩
  have hread : Path.ofText .default "urn:x:a:n" = .ok (.ofAttribute "urn:x:a" "n") := by
    have hwritten : Path.Written .default ("urn:x:a" ++ CodeUnit.colon :: "n")
        (.ofAttribute "urn:x:a" "n") :=
      .qualified (by decide) (by decide) (by decide) (.single (.plain (by decide)))
    exact Path.ofText_eq_ok_iff.mpr (Path.parse_eq_ok_iff.mpr hwritten)
  have hafter : twoCases.updateSchemas [] halfListed = bothListed := rfl
  obtain ⟨hbooked, -, -, hagain⟩ := updateSchemas_books [] twoCases halfListed hdoc hlist nofun
  obtain ⟨hremoved, -⟩ := updateSchemas_books [] removalOfNull halfListed hdoc hlist
    fun p hp => ⟨_, _, Option.some.inj hp ▸ hread⟩
  rw [hafter] at hbooked hagain
  exact ⟨hdoc, hlist, hread, rfl, hafter, hbooked _ (by decide) rfl, hagain,
    hremoved _ (by decide) rfl⟩

end Operation

end Scim

import Scim.Proofs.Patch.Members
import Scim.Proofs.Patch.Removal

/-!
# Listed members at once

A removal of listed members goes through the members once for each identifier, and each time over
what the last one has left. All in all that is one filter (`removeMembers_eq`): to drop some items
and then others is to drop them together (`dropItems_dropItems`), and an attribute that has gone
with its last item is no different from one that has yet to lose it. So neither the order of the
identifiers matters nor how often one is listed.
-/

namespace Scim

open Object

namespace Object

variable {o : Object} {name key : Text} {items : List Json}

/-! ### Dropping items -/

/-- An object without the selected items of an array; the array goes with its last item. -/
def dropItems (selected : Json → Bool) (name : Text) (o : Object) : Object :=
  match o.field? name with
  | some (.arr items) =>
    if (items.filter (!selected ·)).isEmpty && !items.isEmpty then o.removeField name
    else o.setField name (.arr (items.filter (!selected ·)))
  | _ => o

theorem erase_overwrite (o : Object) (key : Text) (value : Json) :
    (o.overwrite key value).erase key = o.erase key := by
  have hmap : ((o.members.filter (·.1 != key)).map fun m => if m.1 = key then (m.1, value) else m) =
      o.members.filter (·.1 != key) :=
    (List.map_congr_left fun m hm => if_neg (by simpa using (List.mem_filter.mp hm).2)).trans
      (List.map_id _)
  have hmembers := (filter_overwrite (· != key) o key value).trans hmap
  unfold erase
  rw [hmembers]
  rfl

theorem dropItems_of_none (h : ∀ items, o.field? name ≠ some (.arr items))
    (selected : Json → Bool) : o.dropItems selected name = o := by
  unfold dropItems
  split
  · exact absurd ‹_› (h _)
  · rfl

theorem dropItems_of_findKey? (hkey : o.findKey? name = some key)
    (hget : o.get? key = some (.arr items)) (selected : Json → Bool) :
    o.dropItems selected name =
      if items.filter (!selected ·) = [] ∧ ∃ v ∈ items, selected v = true then o.erase key
      else o.overwrite key (.arr (items.filter (!selected ·))) := by
  have hfield : o.field? name = some (.arr items) := field?_of_get? hkey hget
  unfold dropItems
  rw [hfield]
  dsimp only
  rw [setField_of_findKey? hkey, removeField, hkey]
  exact if_congr Operation.none_left_iff rfl rfl

theorem Distinct.dropItems (h : o.Distinct) (selected : Json → Bool) (name : Text) :
    (o.dropItems selected name).Distinct := by
  unfold Object.dropItems
  split
  · split_ifs
    · exact h.removeField
    · exact h.setField
  · exact h

/-- To drop nothing is to do nothing. -/
theorem dropItems_false (h : o.Distinct) (name : Text) : o.dropItems (fun _ => false) name = o := by
  unfold dropItems
  split
  · rename_i items hfield
    have hall : items.filter (fun _ => !false) = items := List.filter_eq_self.mpr fun _ _ => rfl
    rw [hall, Bool.and_not_self, if_neg (by simp)]
    exact setField_self (.of_map _ h) hfield
  · rfl

/-- To drop some items and then others is to drop all of them. -/
theorem dropItems_dropItems (h : o.Distinct) (selected also : Json → Bool) (name : Text) :
    (o.dropItems selected name).dropItems also name =
      o.dropItems (fun v => selected v || also v) name := by
  by_cases hlist : ∃ items, o.field? name = some (.arr items)
  · obtain ⟨items, hfield⟩ := hlist
    obtain ⟨key, hkey, hget⟩ := get?_of_field? hfield
    let left := items.filter (!selected ·)
    have hboth : items.filter (fun v => !(selected v || also v)) = left.filter (!also ·) := by
      rw [List.filter_filter]
      exact List.filter_congr fun v _ => by rw [Bool.not_or, Bool.and_comm]
    rw [dropItems_of_findKey? hkey hget, dropItems_of_findKey? hkey hget, hboth]
    by_cases hgone : left = [] ∧ ∃ v ∈ items, selected v = true
    · -- nothing is left for the second
      obtain ⟨hnil, v, hv, hselected⟩ := hgone
      have hnone : ∀ items, (o.erase key).field? name ≠ some (.arr items) := by
        rw [field?_eq_none_iff.mpr ((h.unambiguous name).findKey?_erase hkey)]
        nofun
      rw [if_pos ⟨hnil, v, hv, hselected⟩, dropItems_of_none hnone, if_pos]
      exact ⟨by rw [hnil]; rfl, v, hv, by rw [hselected]; rfl⟩
    · have hkey' : (o.overwrite key (.arr left)).findKey? name = some key :=
        (findKey?_congr keys_overwrite name).trans hkey
      have hget' : (o.overwrite key (.arr left)).get? key = some (.arr left) := by
        rw [get?_overwrite, if_pos rfl, hget]
        rfl
      rw [if_neg hgone, dropItems_of_findKey? hkey' hget', erase_overwrite, overwrite_overwrite]
      refine if_congr (and_congr_right fun hnil => ?_) rfl rfl
      constructor
      · rintro ⟨v, hv, halso⟩
        exact ⟨v, (List.mem_filter.mp hv).1, by rw [halso, Bool.or_true]⟩
      · rintro ⟨v, hv, -⟩
        -- if the first leaves nothing, it has dropped nothing, so that there was nothing
        obtain ⟨w, hw⟩ : ∃ w, w ∈ left := by
          by_contra hempty
          have hleft : left = [] := List.eq_nil_iff_forall_not_mem.mpr (not_exists.mp hempty)
          have hselected : selected v = true := by
            simpa using List.filter_eq_nil_iff.mp hleft v hv
          exact hgone ⟨hleft, v, hv, hselected⟩
        exact ⟨w, hw, by simpa using List.filter_eq_nil_iff.mp hnil w hw⟩
  · have hnone : ∀ items, o.field? name ≠ some (.arr items) := fun items h => hlist ⟨items, h⟩
    rw [dropItems_of_none hnone, dropItems_of_none hnone, dropItems_of_none hnone]

theorem dropItems_congr (h : o.Distinct) {name' : Text} (hname : name'.lower = name.lower)
    (selected : Json → Bool) : o.dropItems selected name' = o.dropItems selected name := by
  have hfield := (h.unambiguous name).field?_congr hname
  by_cases hlist : ∃ items, o.field? name = some (.arr items)
  · obtain ⟨items, hitems⟩ := hlist
    obtain ⟨key, hkey, hget⟩ := get?_of_field? hitems
    have hkey' : o.findKey? name' = some key :=
      ((h.unambiguous name).findKey?_congr hname).trans hkey
    rw [dropItems_of_findKey? hkey hget, dropItems_of_findKey? hkey' hget]
  · have hnone : ∀ items, o.field? name ≠ some (.arr items) := fun items h => hlist ⟨items, h⟩
    rw [dropItems_of_none hnone, dropItems_of_none (by rwa [hfield])]

end Object

namespace Operation

variable {core : List Text} {doc o after : Object} {name id : Text} {ids ids' : List Text}
  {items : Option (List Json)} {options : PatchOptions} {p p' : Path} {v v' : Json}
  {op op' : Operation}

/-! ### One identifier after the other -/

/-- The items with one of the identifiers for a value. -/
def identifies (core : List Text) (ids : List Text) (item : Json) : Bool :=
  ids.any fun id => (memberFilter id).holds core item

theorem removePath_member (hdoc : doc.Distinct) (name id : Text) :
    removePath core (memberPath none name id) doc =
      match removeFrom core [⟨name, some (memberFilter id)⟩] doc with
      | .ok o => .done o
      | .error e => .failed e doc :=
  removePath_plain (.items name (memberFilter id)) hdoc

/-- A removal by value succeeds where there are members, or nothing. -/
theorem removePath_memberPath_eq_done (hdoc : doc.Distinct) (hlist : Lists doc name items)
    (id : Text) : removePath core (memberPath none name id) doc =
      .done (doc.dropItems ((memberFilter id).holds core) name) := by
  rw [removePath_member hdoc]
  cases items with
  | none => rw [dropItems_of_none hlist.not_items, removeFrom_of_lists_none hlist]
  | some old =>
    rw [removeFrom_of_items hlist.field?]
    unfold Object.dropItems
    rw [hlist.field?]
    rfl

theorem lists_of_removePath (hdoc : doc.Distinct)
    (h : removePath core (memberPath none name id) doc = .done o) :
    ∃ items, Lists doc name items := by
  rw [removePath_member hdoc] at h
  cases hfrom : removeFrom core [⟨name, some (memberFilter id)⟩] doc with
  | error e =>
    rw [hfrom] at h
    cases h
  | ok o' =>
    rcases removeFrom_selector_eq_ok hfrom with ⟨hnone, -⟩ | ⟨items, hitems, -⟩
    · exact ⟨none, hnone⟩
    · exact ⟨some items, .inr ⟨items, rfl, hitems⟩⟩

/-- Members stay members until they are gone. -/
theorem lists_dropItems (hdoc : doc.Distinct) (hlist : Lists doc name items)
    (selected : Json → Bool) : ∃ items, Lists (doc.dropItems selected name) name items := by
  cases items with
  | none =>
    rw [dropItems_of_none hlist.not_items]
    exact ⟨none, hlist⟩
  | some old =>
    unfold Object.dropItems
    rw [hlist.field?]
    dsimp only
    split_ifs
    · refine ⟨none, .inl ⟨rfl, ?_⟩⟩
      rw [field?_eq_none_iff.mpr hdoc.findKey?_removeField]
      rfl
    · exact ⟨_, .inr ⟨_, rfl, field?_setField_of_field? hlist.field? _⟩⟩

/-- Removals of one value after the other are one removal of all of them. -/
theorem removeMembers_eq (hdoc : doc.Distinct) (hlist : Lists doc name items) (ids : List Text) :
    removeMembers core none name ids doc = .done (doc.dropItems (identifies core ids) name) := by
  induction ids generalizing doc items with
  | nil => exact congrArg Outcome.done (dropItems_false hdoc name).symm
  | cons id rest ih =>
    obtain ⟨items', hlist'⟩ := lists_dropItems hdoc hlist ((memberFilter id).holds core)
    rw [removeMembers_cons, removePath_memberPath_eq_done hdoc hlist, Outcome.andThen_done,
      ih (hdoc.dropItems _ _) hlist', dropItems_dropItems hdoc]
    rfl

/-- A removal of values that succeeds has nothing to remove, or members to remove from. -/
theorem lists_of_removeMembers (hdoc : doc.Distinct)
    (h : removeMembers core none name ids doc = .done o) :
    ids = [] ∧ o = doc ∨ ∃ items, Lists doc name items := by
  cases ids with
  | nil => exact .inl ⟨rfl, (Outcome.mk.inj h).2.symm⟩
  | cons id rest =>
    refine .inr ?_
    rw [removeMembers_cons] at h
    cases hresult : (removePath core (memberPath none name id) doc).result with
    | error e =>
      rw [Outcome.andThen, hresult] at h
      have hfail : removePath core (memberPath none name id) doc = .done o := h
      rw [hfail] at hresult
      cases hresult
    | ok _ => exact lists_of_removePath hdoc (congrArg (Outcome.mk · _) hresult)

/-! ### The identifiers that a value lists -/

/-- The identifiers that the value of a removal lists, in a bare array of members or in an object
with such an array in its field for members. -/
inductive ListsIds : Json → List Text → Prop
  | bare {items : List Json} {ms : List Member} {ids : List Text}
    (hmembers : items.mapM Member.ofJson? = some ms) (hids : ms.mapM Member.value = some ids) :
    ListsIds (.arr items) ids
  | nested {o : Object} {items : List Json} {ids : List Text}
    (hfield : Object.field? o membersName = some (.arr items)) (hbare : ListsIds (.arr items) ids) :
    ListsIds (.obj o) ids

theorem listsIds_arr_iff {items : List Json} : ListsIds (.arr items) ids ↔
    ∃ ms, items.mapM Member.ofJson? = some ms ∧ ms.mapM Member.value = some ids := by
  constructor
  · rintro (⟨hmembers, hids⟩ | _)
    exact ⟨_, hmembers, hids⟩
  · rintro ⟨ms, hmembers, hids⟩
    exact .bare hmembers hids

theorem listsIds_iff :
    ListsIds v ids ↔ ∃ items, listed? v = some items ∧ ListsIds (.arr items) ids := by
  cases v with
  | arr items => exact ⟨fun h => ⟨items, rfl, h⟩, fun ⟨_, hitems, h⟩ => Option.some.inj hitems ▸ h⟩
  | obj o =>
    constructor
    · rintro (_ | ⟨hfield, hbare⟩)
      refine ⟨_, ?_, hbare⟩
      show (Object.field? o membersName).bind Json.items? = _
      rw [hfield]
      rfl
    · rintro ⟨items, hitems, hbare⟩
      refine .nested ?_ hbare
      obtain ⟨w, hw, hitems⟩ := Option.bind_eq_some_iff.mp hitems
      cases w with
      | arr _ =>
        cases hitems
        exact hw
      | _ => cases hitems
  | _ => exact ⟨nofun, nofun⟩

theorem memberIds_eq_ok_iff {path : Option Path} (hv : given? (some v) = some v) :
    (members ⟨.remove, path, some v⟩).bind memberIds = .ok ids ↔ ListsIds v ids := by
  rw [listsIds_iff]
  unfold members
  dsimp only
  rw [if_neg (by simp), hv]
  dsimp only
  cases listed? v with
  | none => exact ⟨nofun, nofun⟩
  | some items =>
    simp only [Option.some.injEq, exists_eq_left', listsIds_arr_iff]
    cases items.mapM Member.ofJson? with
    | none => exact ⟨nofun, nofun⟩
    | some ms =>
      simp only [Option.some.injEq, exists_eq_left']
      show memberIds ms = _ ↔ _
      unfold memberIds
      cases ms.mapM Member.value <;> simp

theorem ListsIds.given (h : ListsIds v ids) : given? (some v) = some v := by
  cases h <;> rfl

/-- A removal of listed members succeeds where it is allowed and the removal of each value does. -/
theorem apply_members (hop : make .remove (some p) (some v) = .ok op) (hurn : p.schemaUrn = none)
    (hv : given? (some v) = some v) : ∃ name : Text, name.lower = membersName.lower ∧
      ∀ options doc after, op.apply options doc = .done after ↔ options.removeByValue = true ∧
        ∃ ids, ListsIds v ids ∧ removeMembers options.coreUrns none name ids doc = .done after := by
  obtain ⟨urn, elements⟩ := p
  obtain rfl : urn = none := hurn
  cases elements with
  | nil =>
    obtain ⟨rfl, hcheck⟩ := make_eq_ok_iff.mp hop
    cases (check_eq_ok_iff.mp hcheck).2.2.1
  | cons e rest =>
    obtain ⟨rfl, -⟩ := eq_of_make (List.cons_ne_nil _ _) hop
    have hlist : removesByValue ⟨.remove, some ⟨none, e :: rest⟩, some v⟩ = true := by
      simp [removesByValue, hv]
    have hmembers := takesMembers_of_make hop hlist _ rfl
    have hname : e.name.lower = membersName := by
      unfold takesMembers at hmembers
      split at hmembers
      · rename_i hes
        cases hes
        simpa using hmembers
      · cases hmembers
    refine ⟨e.name, hname, fun options doc after => ?_⟩
    have hids : ∀ ids, (members ⟨.remove, some ⟨none, e :: rest⟩, some v⟩).bind memberIds = .ok ids ↔
        ListsIds v ids := fun ids => memberIds_eq_ok_iff hv
    simp only [← hids]
    rw [apply_eq_applyChange options rfl]
    unfold applyChange applyRemove
    dsimp only
    rw [hlist, Bool.not_true, if_neg (by simp)]
    cases options.removeByValue with
    | false => exact iff_of_false (by rintro ⟨⟩) (by rintro ⟨⟨⟩, -⟩)
    | true =>
      rw [Bool.not_true, if_neg (by simp)]
      cases (members ⟨.remove, some ⟨none, e :: rest⟩, some v⟩).bind memberIds with
      | error err => exact iff_of_false (by rintro ⟨⟩) (by rintro ⟨-, ids, ⟨⟩, -⟩)
      | ok ids => simp

/-! ### All at once -/

theorem identifies_congr (h : ∀ id, id ∈ ids' ↔ id ∈ ids) :
    identifies core ids' = identifies core ids := by
  funext item
  rw [Bool.eq_iff_iff, identifies, identifies, List.any_eq_true, List.any_eq_true]
  simp only [h]

/-- The removal of the members with one identifier. -/
def memberRemoval (id : Text) : Operation := ⟨.remove, some (memberPath none membersName id), none⟩

theorem make_memberRemoval (id : Text) :
    make .remove (some (memberPath none membersName id)) none = .ok (memberRemoval id) := rfl

theorem applyAll_memberRemovals (options : PatchOptions) (ids : List Text) (doc : Object) :
    applyAll options (ids.map memberRemoval) doc =
      removeMembers options.coreUrns none membersName ids doc := by
  induction ids generalizing doc with
  | nil => rfl
  | cons id rest ih =>
    have hone : (memberRemoval id).apply options doc =
        removePath options.coreUrns (memberPath none membersName id) doc :=
      apply_removal (List.cons_ne_nil _ _) (make_memberRemoval id) rfl options doc
    rw [List.map_cons, applyAll, hone, removeMembers_cons]
    exact congrArg _ (funext ih)

/-- The removal of listed members is one filter of the members, in which neither the order of the
identifiers matters nor how often or in which form they are listed, and it is the same as the removals
by the single identifiers one after the other. -/
theorem removal_of_members (options : PatchOptions) (doc after : Object)
    (hdoc : (Json.obj doc).Unambiguous) (p : Path) (hurn : p.schemaUrn = none) (v : Json)
    (hv : given? (some v) = some v) (op : Operation) (hop : make .remove (some p) (some v) = .ok op)
    (happly : op.apply options doc = .done after) :
    ∃ ids, ListsIds v ids ∧
      (∀ key items, doc.findKey? membersName = some key → doc.get? key = some (.arr items) →
        ∃ left, left = items.filter (fun item =>
            !ids.any fun id => (memberFilter id).holds options.coreUrns item) ∧
          after = if left = [] ∧ ∃ item ∈ items, ∃ id ∈ ids,
              (memberFilter id).holds options.coreUrns item = true
            then doc.erase key else doc.overwrite key (.arr left)) ∧
      ((∀ items, doc.field? membersName ≠ some (.arr items)) → after = doc) ∧
      (∀ p' v' op' ids', p'.schemaUrn = none → make .remove (some p') (some v') = .ok op' →
        ListsIds v' ids' → (∀ id, id ∈ ids' ↔ id ∈ ids) → op'.apply options doc = .done after) ∧
      (∀ id ∈ ids,
        make .remove (some (memberPath none membersName id)) none = .ok (memberRemoval id)) ∧
      applyAll options (ids.map memberRemoval) doc = .done after := by
  obtain ⟨name, hname, hiff⟩ := apply_members hop hurn hv
  obtain ⟨hallowed, ids, hids, hremove⟩ := (hiff options doc after).mp happly
  -- whatever the spelling of the attribute and the order of the identifiers
  have hafter : after = doc.dropItems (identifies options.coreUrns ids) membersName := by
    rcases lists_of_removeMembers hdoc.distinct hremove with ⟨rfl, rfl⟩ | ⟨items, hlist⟩
    · exact (dropItems_false hdoc.distinct _).symm
    · rw [removeMembers_eq hdoc.distinct hlist] at hremove
      rw [← (Outcome.mk.inj hremove).2, dropItems_congr hdoc.distinct hname]
  have hrun : ∀ name' ids', name'.lower = membersName.lower → (∀ id, id ∈ ids' ↔ id ∈ ids) →
      removeMembers options.coreUrns none name' ids' doc = .done after := by
    intro name' ids' hname' hsame
    rcases lists_of_removeMembers hdoc.distinct hremove with ⟨rfl, rfl⟩ | ⟨items, hlist⟩
    · obtain rfl : ids' = [] := List.eq_nil_iff_forall_not_mem.mpr fun id => by simp [hsame id]
      rfl
    · rw [removeMembers_eq hdoc.distinct (hlist.congr hdoc.distinct (hname'.trans hname.symm)),
        identifies_congr hsame, dropItems_congr hdoc.distinct hname', hafter]
  refine ⟨ids, hids, fun key items hkey hget => ⟨_, rfl, ?_⟩, fun hnone => ?_, ?_,
    fun id _ => rfl, ?_⟩
  · rw [hafter, dropItems_of_findKey? hkey hget]
    refine if_congr (and_congr_right fun _ => ?_) rfl rfl
    simp [identifies]
  · rw [hafter, dropItems_of_none hnone]
  · intro p' v' op' ids' hurn' hop' hids' hsame
    obtain ⟨name', hname', hiff'⟩ := apply_members hop' hurn' hids'.given
    exact (hiff' options doc after).mpr ⟨hallowed, ids', hids', hrun name' ids' hname' hsame⟩
  · rw [applyAll_memberRemovals]
    exact hrun membersName ids rfl fun _ => Iff.rfl

/-- Members of which one is a bare text and one has a time for an identifier. -/
def guests : Object :=
  ⟨[("Members", .arr [.ofMembers [("value", .str "A")], .str "b", .ofMembers [("value", .str "d")],
    .ofMembers [("Value", .str "2024-05-01T12:00:00Z")]])], false⟩

/-- A list that names one member twice, and another at the same time in another time zone. -/
def uninvited : Json :=
  .arr [.ofMembers [("value", .str "2024-05-01T14:00:00+02:00")], .ofMembers [("value", .str "a")],
    .ofMembers [("value", .str "2024-05-01T14:00:00+02:00")]]

/-- The same members in another order and in an object. -/
def uninvitedNested : Json :=
  .ofMembers [("Members", .arr [.ofMembers [("value", .str "a")],
    .ofMembers [("value", .str "2024-05-01T14:00:00+02:00")]])]

theorem removal_of_members_guests :
    (Json.obj guests).Unambiguous ∧ (Path.ofName "members").schemaUrn = none ∧
    given? (some uninvited) = some uninvited ∧
    make .remove (some (.ofName "members")) (some uninvited) =
      .ok ⟨.remove, some (.ofName "members"), some uninvited⟩ ∧
    make .remove (some (.ofName "MEMBERS")) (some uninvitedNested) =
      .ok ⟨.remove, some (.ofName "MEMBERS"), some uninvitedNested⟩ ∧
    apply .default ⟨.remove, some (.ofName "members"), some uninvited⟩ guests =
      .done ⟨[("Members", .arr [.str "b", .ofMembers [("value", .str "d")]])], false⟩ ∧
    apply .default ⟨.remove, some (.ofName "MEMBERS"), some uninvitedNested⟩ guests =
      .done ⟨[("Members", .arr [.str "b", .ofMembers [("value", .str "d")]])], false⟩ := by
  have hguests : (Json.obj guests).Unambiguous := Json.throughout_of_everywhere _ (by decide)
  have hmake : make .remove (some (.ofName "members")) (some uninvited) =
      .ok ⟨.remove, some (.ofName "members"), some uninvited⟩ := rfl
  have hmake' : make .remove (some (.ofName "MEMBERS")) (some uninvitedNested) =
      .ok ⟨.remove, some (.ofName "MEMBERS"), some uninvitedNested⟩ := rfl
  have happly : apply .default ⟨.remove, some (.ofName "members"), some uninvited⟩ guests =
      .done ⟨[("Members", .arr [.str "b", .ofMembers [("value", .str "d")]])], false⟩ := rfl
  obtain ⟨ids, hids, -, -, hother, -⟩ := removal_of_members .default guests _ hguests
    (.ofName "members") rfl uninvited rfl _ hmake happly
  obtain rfl : ids = ["2024-05-01T14:00:00+02:00", "a", "2024-05-01T14:00:00+02:00"] := by
    obtain ⟨ms, hms, hvalues⟩ := listsIds_arr_iff.mp hids
    cases hms
    cases hvalues
    rfl
  have hids' : ListsIds uninvitedNested ["a", "2024-05-01T14:00:00+02:00"] :=
    .nested rfl (.bare rfl rfl)
  exact ⟨hguests, rfl, rfl, hmake, hmake', happly,
    hother _ _ _ _ rfl hmake' hids' fun id => by simp; tauto⟩

end Operation

end Scim

import Scim.Proofs.Patch.Changes

/-!
# Removing listed members

A removal of listed members is one removal after the other, each of the values with one identifier.
Whether such a removal fits a resource does not depend on the identifier
(`removePath_memberPath_cases`), so that a run of them can fail at its first step, when nothing has
changed, or at a later one, if what an earlier one left does not fit. That does not happen if the
object that holds the members has one field of their name (`removeMembers_failed`): the field stays
a list until it is gone.
-/

namespace Scim

open Object

namespace Object

variable {o o' : Object} {name key : Text} {value : Json} {names : List Text}

/-! ### One field of a name -/

/-- At most one field has the name, and it holds a list. -/
structure HoldsList (name : Text) (o : Object) : Prop where
  unambiguous : o.Unambiguous name
  list : o.field? name = none ∨ ∃ items, o.field? name = some (.arr items)

theorem HoldsList.congr (h : o.HoldsList name) {name' : Text} (hname : name'.lower = name.lower) :
    o.HoldsList name' := by
  refine ⟨fun k hk k' hk' => hname ▸ h.unambiguous k hk k' hk', ?_⟩
  rw [h.unambiguous.field?_congr hname]
  exact h.list

theorem HoldsList.erase (h : o.HoldsList name) (hkey : o.findKey? name = some key) :
    (o.erase key).HoldsList name :=
  ⟨h.unambiguous.mono fun _ hk => (mem_keys_erase hk).1,
    .inl (field?_eq_none_iff.mpr (h.unambiguous.findKey?_erase hkey))⟩

theorem HoldsList.setField (h : o.HoldsList name) (hkey : o.findKey? name = some key)
    (items : List Json) : (o.setField name (.arr items)).HoldsList name := by
  rw [setField_of_findKey? hkey]
  refine ⟨h.unambiguous.mono fun k hk => by rwa [keys_overwrite] at hk, ?_⟩
  rw [← storedName_of_findKey? hkey, field?_overwrite]
  rcases h.list with hnone | ⟨old, hold⟩
  · exact .inl (by rw [hnone]; rfl)
  · exact .inr ⟨items, by rw [hold]; rfl⟩

end Object

namespace Operation

variable {core : List Text} {doc doc' : Object} {urn : Option Text} {name : Text} {e : Error}
  {ids container : List Text} {root : Object}

/-! ### One identifier -/

/-- The filter on the value of a member. -/
def memberFilter (id : Text) : Filter := .compare .eq (.ofName "value") (.str id)

theorem removePath_memberPath (core : List Text) (urn : Option Text) (name : Text) (doc : Object)
    (id : Text) :
    removePath core (memberPath urn name id) doc =
      match (memberPath urn name id).target core doc false with
      | (.error e, resource) => .failed e resource
      | (.ok (some (.selection container name filter (some items) subAttributes)), resource) =>
        .done (resource.modifyAt
          (removeSelection core name filter items subAttributes.head?) container)
      | (.ok _, resource) => .done resource := rfl

/-- Whether a removal by value fits a resource does not depend on the value. -/
theorem removePath_memberPath_cases (core : List Text) (urn : Option Text) (name : Text)
    (doc : Object) :
    (∃ e, (∀ id, removePath core (memberPath urn name id) doc = .failed e doc) ∧
      ∀ c root, Schema.rootOf? core doc urn = some (c, root) → ¬ root.HoldsList name) ∨
    (∀ id, removePath core (memberPath urn name id) doc = .done doc) ∨
    ∃ c root items, Schema.rootOf? core doc urn = some (c, root) ∧
      root.field? name = some (.arr items) ∧
      ∀ id, removePath core (memberPath urn name id) doc =
        .done (doc.modifyAt (removeSelection core name (memberFilter id) items none) c) := by
  have hpath := removePath_memberPath core urn name doc
  rcases Path.targetRoot_cases core urn doc false with
    ⟨c, root, hroot, heq⟩ | ⟨r, heq, hr⟩ | ⟨u, hu, -, hcreate, -⟩
  · have hat : doc.objectAt c = root := (Path.startsIn_of_rootOf? hroot).2
    have htarget : ∀ id, (memberPath urn name id).target core doc false =
        ((Path.targetSelection c name (memberFilter id) [] doc).map some, doc) := by
      intro id
      unfold Path.target memberPath
      simp only [heq]
      rfl
    simp only [hpath, htarget, Path.targetSelection, hat]
    cases hfield : root.field? name with
    | none => exact .inr (.inl fun _ => rfl)
    | some v =>
      cases v with
      | arr items => exact .inr (.inr ⟨c, root, items, hroot, hfield, fun _ => rfl⟩)
      | null => exact .inr (.inl fun _ => rfl)
      | _ =>
        refine .inl ⟨_, fun _ => rfl, fun c' root' hroot' h => ?_⟩
        obtain ⟨rfl, rfl⟩ := Prod.mk.inj (Option.some.inj (hroot.symm.trans hroot'))
        have hlist := h.list
        rw [hfield] at hlist
        rcases hlist with h | ⟨_, h⟩ <;> cases h
  · have htarget : ∀ id, (memberPath urn name id).target core doc false =
        (r.map fun _ => none, doc) := by
      intro id
      unfold Path.target memberPath
      simp only [heq]
      rcases r with e | _ | c
      · rfl
      · rfl
      · exact absurd rfl (hr c)
    simp only [hpath, htarget]
    rcases r with e | _
    · refine .inl ⟨e, fun _ => rfl, fun c root hroot => ?_⟩
      rw [Path.targetRoot_of_rootOf? hroot] at heq
      cases heq
    · exact .inr (.inl fun _ => rfl)
  · cases hcreate

/-- A list stays a list until it is gone. -/
theorem holdsList_removeSelection {root : Object} (h : root.HoldsList name) {items : List Json}
    (hfield : root.field? name = some (.arr items)) (core : List Text) (filter : Filter) :
    (removeSelection core name filter items none root).HoldsList name := by
  obtain ⟨key, hkey, -⟩ := Option.bind_eq_some_iff.mp hfield
  unfold removeSelection
  dsimp only
  split_ifs
  · unfold removeField
    rw [hkey]
    exact h.erase hkey
  · exact h.setField hkey _

/-- The root of a schema that is an object of its own is there after a change inside it. -/
theorem rootOf?_modifyAt_extension {key : Text}
    (h : Schema.rootOf? core doc urn = some ([key], root)) (change : Object → Object) :
    doc.modifyAt change [key] = doc.overwrite key (.obj (change root)) ∧
    Schema.rootOf? core (doc.modifyAt change [key]) urn = some ([key], change root) := by
  rcases Path.rootOf?_cases h with ⟨hnil, -⟩ | ⟨u, key', rfl, hcontainer, hkey, hget⟩
  · cases hnil
  obtain rfl : key = key' := by simpa using hcontainer
  have hdoc : doc.modifyAt change [key] = doc.overwrite key (.obj (change root)) := by
    unfold modifyAt
    rw [hget]
    rfl
  have hext : Schema.extension? (doc.overwrite key (.obj (change root))) u =
      some (key, change root) := by
    rw [Path.extension?_eq_some_iff, findKey?_congr keys_overwrite, get?_overwrite, if_pos rfl,
      hget]
    exact ⟨hkey, rfl⟩
  refine ⟨hdoc, ?_⟩
  show Schema.root? core _ u = _
  unfold Schema.root?
  rw [hdoc, hext]

/-- The root of a core schema at the top level stays there when a list becomes shorter or goes. -/
theorem rootOf?_removeSelection {items : List Json}
    (hroot : Schema.rootOf? core doc urn = some ([], doc)) (h : doc.HoldsList name)
    (hname : name.lower ≠ Schema.listName.lower)
    (hfield : doc.field? name = some (.arr items)) (filter : Filter) :
    Schema.rootOf? core (removeSelection core name filter items none doc) urn =
      some ([], removeSelection core name filter items none doc) := by
  cases urn with
  | none => rfl
  | some u =>
    change Schema.root? core doc u = _ at hroot
    change Schema.root? core _ u = _
    unfold Schema.root? at hroot ⊢
    split at hroot
    · cases hroot
    rename_i hext
    split_ifs at hroot with hcore
    have hchange : Changes [name] doc (removeSelection core name filter items none doc) :=
      removeSelection_changes ..
    have hcore' : Schema.isCore core (removeSelection core name filter items none doc) u :=
      (Path.isCore_of_changes hchange (by simpa [eq_comm] using hname) core u).trans hcore
    have hext' : Schema.extension? (removeSelection core name filter items none doc) u = none := by
      rw [Path.extension?_eq_none_iff] at hext ⊢
      by_cases hu : u.lower = name.lower
      · have hlist := ((holdsList_removeSelection h hfield core filter).congr hu).list
        intro o ho
        rw [ho] at hlist
        rcases hlist with h | ⟨_, h⟩ <;> cases h
      · rwa [hchange.field? (by simpa using hu)]
    rw [hext']
    exact if_pos hcore'

/-- The root of a schema holds a list of members, or none. -/
def HoldsMembers (core : List Text) (urn : Option Text) (name : Text) (doc : Object) : Prop :=
  ∃ c root, Schema.rootOf? core doc urn = some (c, root) ∧ root.HoldsList name

theorem HoldsMembers.removePath (h : HoldsMembers core urn name doc)
    (hname : name.lower ≠ Schema.listName.lower) (id : Text) :
    ∃ doc', removePath core (memberPath urn name id) doc = .done doc' ∧
      HoldsMembers core urn name doc' := by
  obtain ⟨c, root, hroot, hlist⟩ := h
  rcases removePath_memberPath_cases core urn name doc with
    ⟨e, -, hnot⟩ | hsame | ⟨c', root', items, hroot', hfield, hdone⟩
  · exact absurd hlist (hnot c root hroot)
  · exact ⟨doc, hsame id, c, root, hroot, hlist⟩
  · refine ⟨_, hdone id, ?_⟩
    obtain ⟨rfl, rfl⟩ := Prod.mk.inj (Option.some.inj (hroot.symm.trans hroot'))
    have hlist' := holdsList_removeSelection hlist hfield core (memberFilter id)
    rcases Path.rootOf?_cases hroot with ⟨rfl, rfl⟩ | ⟨u, key, -, rfl, -, -⟩
    · exact ⟨[], _, rootOf?_removeSelection hroot hlist hname hfield _, hlist'⟩
    · exact ⟨[key], _, (rootOf?_modifyAt_extension hroot _).2, hlist'⟩

/-! ### One after the other -/

theorem removeMembers_done (h : HoldsMembers core urn name doc)
    (hname : name.lower ≠ Schema.listName.lower) (ids : List Text) :
    ∃ doc', removeMembers core urn name ids doc = .done doc' := by
  induction ids generalizing doc with
  | nil => exact ⟨doc, rfl⟩
  | cons id rest ih =>
    obtain ⟨doc', hstep, h'⟩ := h.removePath hname id
    rw [removeMembers_cons, hstep, Outcome.andThen_done]
    exact ih h'

/-- If the members have one field, their removal fails before it has changed anything. -/
theorem removeMembers_failed (h : removeMembers core urn name ids doc = .failed e doc')
    (hname : name.lower ≠ Schema.listName.lower)
    (hone : ∀ c root, Schema.rootOf? core doc urn = some (c, root) → root.Unambiguous name) :
    doc' = doc := by
  rcases removePath_memberPath_cases core urn name doc with
    ⟨e', hfail, -⟩ | hsame | ⟨c, root, items, hroot, hfield, -⟩
  · -- The first removal fails already.
    cases ids with
    | nil => cases h
    | cons id rest =>
      rw [removeMembers_cons, hfail, Outcome.andThen_failed] at h
      cases h
      rfl
  · -- There is nothing to remove from, for no identifier.
    have hdone : removeMembers core urn name ids doc = .done doc := by
      clear h
      induction ids with
      | nil => rfl
      | cons id rest ih => rw [removeMembers_cons, hsame, Outcome.andThen_done, ih]
    rw [hdone] at h
    cases h
  · -- A list stays one, so that no removal fails.
    have hlist : root.HoldsList name := ⟨hone c root hroot, .inr ⟨items, hfield⟩⟩
    obtain ⟨done, hdone⟩ := removeMembers_done ⟨c, root, hroot, hlist⟩ hname ids
    rw [hdone] at h
    cases h

/-- Inside the object of an extension the removal changes nothing but that object. -/
theorem removeMembers_extension {key : Text} (name : Text) (ids : List Text)
    (hroot : Schema.rootOf? core doc urn = some ([key], root)) :
    Keeps (· != key) doc (removeMembers core urn name ids doc).resource ∧
    (removeMembers core urn name ids doc).resource.keys = doc.keys := by
  induction ids generalizing doc root with
  | nil => exact ⟨.refl doc, rfl⟩
  | cons id rest ih =>
    rw [removeMembers_cons]
    rcases removePath_memberPath_cases core urn name doc with
      ⟨e', hfail, -⟩ | hsame | ⟨c, root', items, hroot', -, hdone⟩
    · rw [hfail, Outcome.andThen_failed]
      exact ⟨.refl doc, rfl⟩
    · rw [hsame, Outcome.andThen_done]
      exact ih hroot
    · obtain ⟨rfl, rfl⟩ := Prod.mk.inj (Option.some.inj (hroot.symm.trans hroot'))
      obtain ⟨hdoc, hroot''⟩ := rootOf?_modifyAt_extension hroot
        (removeSelection core name (memberFilter id) items none)
      rw [hdone, Outcome.andThen_done]
      obtain ⟨hkeeps, hkeys⟩ := ih hroot''
      refine ⟨.trans ?_ hkeeps, hkeys.trans ?_⟩
      · exact .modifyAt (by simp)
      · rw [hdoc, keys_overwrite]

end Operation

end Scim

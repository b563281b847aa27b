import Scim.Proofs.Patch.Changes
import Scim.Proofs.Path.Word

/-!
# The list of schemas along a run

A resource is `Bookkept` if every extension in it holds an assigned value and is listed. A run of
operations that leave the list itself alone keeps it so, whether it succeeds or not, but for two
kinds of extensions (`bookkept_applyAll`): those that an operation writes like an attribute, which
nothing looks at after it (`applyAll_unlisted`), and the first in the list, once an operation has
written under it (`applyAll_emptied_first`).

The reason for the second is that a schema counts as core if it is the first in the list, even if
bookkeeping has put it there (`Schema.isCore`), and such a schema is left alone from then on. The
first in the list stays where it is, so what is core once stays core; the invariant rests on that.
-/

namespace Scim

open Object Operation

namespace Schema

variable {core exempt touched : List Text} {doc doc' : Object} {urn key : Text} {items : List Json}

/-! ### The list -/

/-- The items of the list of schemas. -/
def listed (doc : Object) : List Json :=
  match doc.field? listName with
  | some (.arr items) => items
  | _ => []

/-- The list of schemas is an array if it is there. -/
def ListIsArray (doc : Object) : Prop := ∀ v ∈ doc.field? listName, ∃ items, v = .arr items

theorem listed_of_field? (h : doc.field? listName = some (.arr items)) : listed doc = items := by
  rw [listed, h]

theorem listIsArray_of_field? (h : doc.field? listName = some (.arr items)) : ListIsArray doc := by
  intro v hv
  exact ⟨items, (Option.some.inj (h.symm.trans hv)).symm⟩

theorem field?_of_listIsArray (h : ListIsArray doc) :
    (doc.field? listName = none ∧ listed doc = []) ∨
      doc.field? listName = some (.arr (listed doc)) := by
  unfold listed
  cases hlist : doc.field? listName with
  | none => exact .inl ⟨rfl, rfl⟩
  | some v =>
    obtain ⟨items, rfl⟩ := h v hlist
    exact .inr rfl

theorem isCore_eq (core : List Text) (doc : Object) (urn : Text) :
    isCore core doc urn =
      (core.any (fun c => c.lower == urn.lower) || (listed doc).head?.any (isUrnItem urn)) := by
  unfold isCore listed
  congr 1
  rcases doc.field? listName with _ | v
  · rfl
  cases v with
  | arr items =>
    rcases items with _ | ⟨v, rest⟩
    · rfl
    · cases v <;> rfl
  | _ => rfl

theorem isUrnItem_congr (h : key.lower = urn.lower) : isUrnItem key = isUrnItem urn := by
  funext v
  cases v <;> simp [isUrnItem, h]

theorem lower_ne_listName_of_mem (h : CodeUnit.colon ∈ key) : key.lower ≠ listName.lower := by
  intro hlower
  obtain ⟨-, hmap⟩ := Text.map_asciiLower_of_lower (s := listName) hlower (by decide)
  have hcolon : CodeUnit.colon.asciiLower ∈ listName := hmap ▸ List.mem_map_of_mem h
  exact absurd hcolon (by decide)

/-- The name of the list is no URN. -/
theorem lower_ne_listName (h : key.isUrn) : key.lower ≠ listName.lower :=
  lower_ne_listName_of_mem (Text.colon_mem_of_isUrn h)

/-! ### The invariant -/

/-- The extension under a key holds an assigned value and is listed. -/
structure InStep (doc : Object) (key : Text) : Prop where
  assigned : isAssigned (doc.get? key)
  listed : (listed doc).any (isUrnItem key)

/-- The names of a resource are distinct, its list of schemas is an array if it is there, and its
extensions are in step with the list, but for those of the exempt names and for one that counts as
core by the list and is touched. -/
structure Bookkept (core exempt touched : List Text) (doc : Object) : Prop where
  distinct : doc.Distinct
  list : ListIsArray doc
  inStep : ∀ key ∈ doc.keys, key.isUrn → key.lower ∉ core.map Text.lower →
    key.lower ∉ exempt.map Text.lower →
    (isCore core doc key → key.lower ∉ touched.map Text.lower) → InStep doc key

namespace Bookkept

theorem mono {exempt' touched' : List Text} (h : Bookkept core exempt touched doc)
    (hexempt : ∀ n ∈ exempt, n ∈ exempt') (htouched : ∀ n ∈ touched, n ∈ touched') :
    Bookkept core exempt' touched' doc := by
  have hmap : ∀ {names names' : List Text}, (∀ n ∈ names, n ∈ names') → ∀ {key : Text},
      key.lower ∉ names'.map Text.lower → key.lower ∉ names.map Text.lower := by
    intro names names' hsub key hnot hmem
    obtain ⟨n, hn, hlower⟩ := List.mem_map.mp hmem
    exact hnot (hlower ▸ List.mem_map_of_mem (hsub n hn))
  exact ⟨h.distinct, h.list, fun key hkey hurn hconf hname hcore =>
    h.inStep key hkey hurn hconf (hmap hexempt hname) fun hc => hmap htouched (hcore hc)⟩

/-- One schema less is exempt if it is in step after a change that leaves the others alone. -/
theorem update (h : Bookkept core (urn :: exempt) touched doc)
    (hurn : urn.lower ∈ touched.map Text.lower) (hchange : Changes [urn, listName] doc doc')
    (hlist : ListIsArray doc')
    (hlisted : ∀ key, key.lower ≠ urn.lower → (listed doc).any (isUrnItem key) →
      (listed doc').any (isUrnItem key))
    (hcore : ∀ key, isCore core doc key → isCore core doc' key)
    (hself : ∀ key ∈ doc'.keys, key.lower = urn.lower → isCore core doc' key = false →
      InStep doc' key) :
    Bookkept core exempt touched doc' := by
  refine ⟨hchange.distinct h.distinct, hlist, fun key hkey hisUrn hconf hexempt hleft => ?_⟩
  by_cases hname : key.lower = urn.lower
  · exact hself key hkey hname (Bool.eq_false_iff.mpr fun hc => hleft hc (hname ▸ hurn))
  have hget : doc'.get? key = doc.get? key :=
    hchange.keeps.get? (outside_eq_true_iff.mpr (by simp [hname, lower_ne_listName hisUrn]))
  have hin : InStep doc key := by
    refine h.inStep key ?_ hisUrn hconf (by simp [hname, hexempt]) fun hc => hleft (hcore key hc)
    rwa [mem_keys_iff, ← hget, ← mem_keys_iff]
  exact ⟨hget ▸ hin.assigned, hlisted key hname hin.listed⟩

/-- An extension with an assigned value, listed at the end of the list unless it is in it. -/
theorem update_listed (new : List Json) (h : Bookkept core (urn :: exempt) touched doc)
    (hmem : urn.lower ∈ touched.map Text.lower) (hchange : Changes [listName] doc doc')
    (hurn : urn.lower ≠ listName.lower) (hassigned : isAssigned (doc.field? urn))
    (hlist : doc'.field? listName = some (.arr (listed doc ++ new)))
    (hnew : (listed doc ++ new).any (isUrnItem urn)) : Bookkept core exempt touched doc' := by
  have hlisted := listed_of_field? hlist
  refine h.update hmem (hchange.mono (by simp)) (listIsArray_of_field? hlist) ?_ ?_ ?_
  · intro key _ hkey
    rw [hlisted, List.any_append, hkey, Bool.true_or]
  · intro key hkey
    rw [isCore_eq] at hkey ⊢
    rw [hlisted, List.head?_append]
    cases hhead : (listed doc).head? with
    | none => simpa [hhead] using Or.inl hkey
    | some v => simpa [hhead] using hkey
  · intro key hkey hname _
    have hget : doc'.get? key = doc.get? key :=
      hchange.keeps.get? (outside_eq_true_iff.mpr (by simpa [hname] using hurn))
    rw [mem_keys_iff, hget, ← mem_keys_iff] at hkey
    refine ⟨?_, by rw [hlisted, isUrnItem_congr hname, hnew]⟩
    rw [field?, (h.distinct.unambiguous urn).findKey? hkey hname] at hassigned
    rwa [hget]

/-- An extension without an assigned value, dropped together with its URN. -/
theorem update_dropped (h : Bookkept core (urn :: exempt) touched doc)
    (hmem : urn.lower ∈ touched.map Text.lower) (hchange : Changes [urn, listName] doc doc')
    (hlist : ListIsArray doc')
    (hcore : isCore core doc urn = false) (hgone : doc'.findKey? urn = none)
    (hlisted : listed doc' = (listed doc).filter fun v => !isUrnItem urn v) :
    Bookkept core exempt touched doc' := by
  refine h.update hmem hchange hlist ?_ ?_ ?_
  · intro key hname hkey
    obtain ⟨v, hv, hitem⟩ := List.any_eq_true.mp hkey
    refine List.any_eq_true.mpr ⟨v, hlisted ▸ List.mem_filter.mpr ⟨hv, ?_⟩, hitem⟩
    cases v <;> simp_all [isUrnItem]
  · intro key hkey
    rw [isCore_eq, Bool.or_eq_false_iff] at hcore
    rw [isCore_eq] at hkey ⊢
    rw [hlisted]
    cases hitems : listed doc with
    | nil => simpa [hitems] using hkey
    | cons v rest =>
      rw [hitems] at hcore hkey
      rw [List.filter_cons, if_pos (by simpa using hcore.2)]
      exact hkey
  · intro key hkey hname _
    exact absurd hname (findKey?_eq_none_iff.mp hgone key hkey)

theorem updateSchema (h : Bookkept core (urn :: exempt) touched doc)
    (hmem : urn.lower ∈ touched.map Text.lower) (hurn : urn.lower ≠ listName.lower) :
    Bookkept core exempt touched (Operation.updateSchema core doc urn) := by
  unfold Operation.updateSchema
  by_cases hcore : isCore core doc urn
  · rw [if_pos hcore]
    refine h.update hmem (.refl doc) h.list (fun _ _ => id) (fun _ => id) fun key _ hname hnot => ?_
    rw [isCore_congr hname, hcore] at hnot
    cases hnot
  rw [if_neg hcore]
  have hcore : isCore core doc urn = false := by simpa using hcore
  have hdrop : Changes [urn] doc (doc.removeField urn) := .removeField (by simp)
  have hkeeps : listName.lower ∉ [urn].map Text.lower := by simpa [eq_comm] using hurn
  have hkept : (doc.removeField urn).field? listName = doc.field? listName := hdrop.field? hkeeps
  have hgone : (doc.removeField urn).findKey? urn = none := h.distinct.findKey?_removeField
  rcases field?_of_listIsArray h.list with ⟨hlist, hempty⟩ | hlist <;>
    cases hassigned : isAssigned (doc.field? urn) <;> simp only [hlist]
  · -- nothing to list, and no list
    refine h.update_dropped hmem (hdrop.mono (by simp)) ?_ hcore hgone ?_
    · unfold ListIsArray
      rw [hkept]
      exact h.list
    · unfold listed
      rw [hkept, hlist]
      rfl
  · -- the first to be listed
    refine h.update_listed [.str (doc.storedName urn)] hmem (.setField (by simp)) hurn hassigned
      ?_ ?_
    · rw [hempty]
      exact field?_setField (by decide)
    · simp [isUrnItem, lower_storedName]
  · -- no longer to be listed
    split_ifs with hany
    · have hkey : (doc.removeField urn).storedName listName = doc.storedName listName :=
        congrArg (·.getD listName) (hdrop.findKey? hkeeps)
      have hlist' : ((doc.removeField urn).overwrite (doc.storedName listName)
          (.arr ((listed doc).filter fun v => !isUrnItem urn v))).field? listName =
          some (.arr ((listed doc).filter fun v => !isUrnItem urn v)) := by
        rw [← hkey, field?_overwrite, hkept, hlist]
        rfl
      refine h.update_dropped hmem ((hdrop.mono (by simp)).trans (.overwrite ?_))
        (listIsArray_of_field? hlist') hcore ?_ (listed_of_field? hlist')
      · simp [lower_storedName]
      · rw [findKey?_congr keys_overwrite, hgone]
    · refine h.update_dropped hmem (hdrop.mono (by simp)) ?_ hcore hgone ?_
      · unfold ListIsArray
        rw [hkept]
        exact h.list
      · rw [listed_of_field? (hkept.trans hlist), List.filter_eq_self.mpr]
        simpa using hany
  · -- to be listed
    split_ifs with hany
    · exact h.update_listed [] hmem (.refl doc) hurn hassigned (by rw [List.append_nil, hlist])
        (by rwa [List.append_nil])
    · refine h.update_listed [.str (doc.storedName urn)] hmem (.overwrite ?_) hurn hassigned ?_ ?_
      · simp [lower_storedName]
      · rw [field?_overwrite, hlist]
        rfl
      · simp [isUrnItem, lower_storedName]

theorem foldl_updateSchema {urns : List Text} (h : Bookkept core (urns ++ exempt) touched doc)
    (hmem : ∀ u ∈ urns, u ∈ touched) (hurns : ∀ u ∈ urns, u.lower ≠ listName.lower) :
    Bookkept core exempt touched (urns.foldl (Operation.updateSchema core) doc) := by
  induction urns generalizing doc with
  | nil => exact h
  | cons u rest ih =>
    have hstep := h.updateSchema (List.mem_map_of_mem (hmem u (by simp))) (hurns u (by simp))
    exact ih hstep (fun u' hu' => hmem u' (by simp [hu'])) fun u' hu' => hurns u' (by simp [hu'])

end Bookkept

end Schema

namespace Operation

open Schema

variable {exempt touched : List Text} {doc : Object} {op : Operation} {ops : List Operation}
  {options : PatchOptions}

/-! ### One operation -/

/-- The operation by itself does not change the list of schemas, and takes it for no schema. -/
structure SparesList (options : PatchOptions) (op : Operation) (doc : Object) : Prop where
  list : (op.applyChange options doc).resource.field? listName = doc.field? listName
  urns : ∀ u ∈ op.touchedUrns, u.lower ≠ listName.lower

theorem mem_touchedUrns_of_mem_namesOf {n : Text} (hn : n ∈ op.namesOf) :
    n ∈ op.touchedUrns ++ op.attributeNames := by
  rcases List.mem_append.mp hn with h | h
  · exact List.mem_append_right _ h
  unfold touchedUrns
  cases hpath : op.path with
  | some p =>
    rw [hpath] at h
    exact List.mem_append_left _ h
  | none =>
    rw [hpath] at h
    by_cases hurn : n.isUrn
    · refine List.mem_append_left _ ?_
      cases hvalue : op.value with
      | none => simp [hvalue, memberNames] at h
      | some v =>
        cases v with
        | obj o =>
          rw [hvalue] at h
          exact List.mem_filter.mpr ⟨h, hurn⟩
        | _ => simp [hvalue, memberNames] at h
    · refine List.mem_append_right _ ?_
      unfold attributeNames
      rw [hpath]
      exact List.mem_append_left _ (List.mem_filter.mpr ⟨h, by simpa using hurn⟩)

/-- Before the list is brought in step, the schemas that the operation may have written under are
out of step at most. -/
theorem bookkept_applyChange (h : Bookkept options.coreUrns exempt touched doc)
    (hspare : op.SparesList options doc) :
    Bookkept options.coreUrns (op.touchedUrns ++ (op.attributeNames ++ exempt)) touched
      (op.applyChange options doc).resource := by
  have hchange := applyChange_changes options op doc
  have hlisted : listed (op.applyChange options doc).resource = listed doc := by
    unfold listed
    rw [hspare.list]
  refine ⟨hchange.distinct h.distinct, fun v hv => h.list v (hspare.list ▸ hv), ?_⟩
  intro key hkey hurn hconf hexempt hleft
  have hnames : key.lower ∉ op.namesOf.map Text.lower := by
    intro hmem
    obtain ⟨n, hn, hlower⟩ := List.mem_map.mp hmem
    rw [← List.append_assoc, List.map_append] at hexempt
    exact hexempt (List.mem_append_left _
      (hlower ▸ List.mem_map_of_mem (mem_touchedUrns_of_mem_namesOf hn)))
  have hget : (op.applyChange options doc).resource.get? key = doc.get? key :=
    hchange.keeps.get? (outside_eq_true_iff.mpr hnames)
  have hin : InStep doc key := by
    refine h.inStep key ?_ hurn hconf (by simp_all) ?_
    · rwa [mem_keys_iff, ← hget, ← mem_keys_iff]
    · rwa [isCore_eq, ← hlisted, ← isCore_eq]
  exact ⟨hget ▸ hin.assigned, hlisted ▸ hin.listed⟩

theorem bookkept_apply (h : Bookkept options.coreUrns exempt touched doc)
    (hspare : op.SparesList options doc) :
    Bookkept options.coreUrns (op.attributeNames ++ exempt) (op.touchedUrns ++ touched)
      (op.apply options doc).resource := by
  refine Bookkept.foldl_updateSchema ?_ (fun u => List.mem_append_left _) hspare.urns
  exact (bookkept_applyChange h hspare).mono (fun _ => id) fun _ => List.mem_append_right _

/-! ### A run -/

/-- No operation of a run changes the list of schemas by itself. -/
def SpareList (options : PatchOptions) : List Operation → Object → Prop
  | [], _ => True
  | op :: rest, doc =>
    op.SparesList options doc ∧ SpareList options rest (op.apply options doc).resource

/-- What a run leaves is bookkept again, but for the extensions that an operation names like an
attribute, and for the first in the list if an operation has written under it. -/
theorem bookkept_applyAll (options : PatchOptions) (ops : List Operation) (doc : Object)
    (h : Bookkept options.coreUrns exempt touched doc) (hspare : SpareList options ops doc) :
    Bookkept options.coreUrns (ops.flatMap attributeNames ++ exempt)
      (ops.flatMap touchedUrns ++ touched) (applyAll options ops doc).resource := by
  induction ops generalizing exempt touched doc with
  | nil => exact h
  | cons op rest ih =>
    have hop := bookkept_apply h hspare.1
    have hsub : ∀ (f : Operation → List Text) (names : List Text),
        ∀ n ∈ rest.flatMap f ++ (f op ++ names), n ∈ (op :: rest).flatMap f ++ names := by
      intro f names n hn
      simp only [List.mem_append, List.flatMap_cons] at hn ⊢
      tauto
    unfold applyAll Outcome.andThen
    split
    · exact (ih _ hop hspare.2).mono (hsub _ _) (hsub _ _)
    · exact hop.mono (fun n hn => hsub _ _ n (List.mem_append_right _ hn))
        fun n hn => hsub _ _ n (List.mem_append_right _ hn)

/-- A resource with two extensions. -/
def twice : Object :=
  ⟨[("schemas", .arr [.str "urn:a:b", .str "urn:x:y"]), ("urn:a:b", .ofMembers [("a", .bool true)]),
    ("urn:x:y", .ofMembers [("a", .bool true)])], false⟩

def removal : Operation := ⟨.remove, some (.ofAttribute "urn:x:y" "a"), none⟩

theorem bookkept_applyAll_twice :
    Bookkept PatchOptions.default.coreUrns [] [] twice ∧ SpareList .default [removal] twice ∧
    (applyAll .default [removal] twice).resource.keys = ["schemas", "urn:a:b"] ∧
    Bookkept PatchOptions.default.coreUrns ["a"] ["urn:x:y"]
      (applyAll .default [removal] twice).resource := by
  have htwice : Bookkept PatchOptions.default.coreUrns [] [] twice := by
    refine ⟨by decide, fun v hv => ⟨_, (Option.some.inj hv).symm⟩, fun key hkey hurn _ _ _ => ?_⟩
    have hkeys : key = "schemas" ∨ key = "urn:a:b" ∨ key = "urn:x:y" := by
      simpa [keys, twice] using hkey
    rcases hkeys with rfl | rfl | rfl
    · exact absurd hurn (by decide)
    · exact ⟨rfl, rfl⟩
    · exact ⟨rfl, rfl⟩
  have hspare : SpareList .default [removal] twice := ⟨⟨rfl, by decide⟩, trivial⟩
  exact ⟨htwice, hspare, by decide, bookkept_applyAll .default [removal] twice htwice hspare⟩

/-! ### Extensions out of step -/

def addition : Operation := ⟨.add, some (.ofAttribute "urn:x:y" "a"), some (.bool true)⟩

/-- The schema that bookkeeping lists first counts as core from then on, and is left empty. -/
theorem applyAll_emptied_first :
    (Operation.make .add addition.path addition.value = .ok addition ∧
      Operation.make .remove removal.path removal.value = .ok removal) ∧
    Bookkept PatchOptions.default.coreUrns [] [] empty ∧
    SpareList .default [addition, removal] empty ∧
    applyAll .default [addition, removal] empty =
      .done ⟨[("urn:x:y", .obj empty), ("schemas", .arr [.str "urn:x:y"])], false⟩ ∧
    ¬ Bookkept PatchOptions.default.coreUrns [] []
      (applyAll .default [addition, removal] empty).resource := by
  refine ⟨⟨rfl, rfl⟩, ⟨by decide, nofun, nofun⟩, ⟨⟨rfl, by decide⟩, ⟨rfl, by decide⟩, trivial⟩,
    rfl, fun h => ?_⟩
  have hin := h.inStep "urn:x:y" (by decide) (by decide) (by decide) (by decide) fun _ => by decide
  exact absurd hin.assigned (by decide)

/-- An addition at the path of a core schema, of members under the URN of another one. -/
def additionToUser : Operation :=
  ⟨.add, some ⟨some Schema.user, []⟩,
    some (.ofMembers [("urn:x:y", .ofMembers [("a", .bool true)])])⟩

/-- At the path of a core schema a URN in the value is written to the top level like an attribute,
where bookkeeping does not look for it: the extension is not listed. -/
theorem applyAll_unlisted :
    Operation.make .add additionToUser.path additionToUser.value = .ok additionToUser ∧
    Bookkept PatchOptions.default.coreUrns [] [] empty ∧ SpareList .default [additionToUser] empty ∧
    applyAll .default [additionToUser] empty =
      .done ⟨[("urn:x:y", .ofMembers [("a", .bool true)])], false⟩ ∧
    ¬ Bookkept PatchOptions.default.coreUrns [] []
      (applyAll .default [additionToUser] empty).resource := by
  refine ⟨rfl, ⟨by decide, nofun, nofun⟩, ⟨⟨rfl, by decide⟩, trivial⟩, rfl, fun h => ?_⟩
  have hin := h.inStep "urn:x:y" (by decide) (by decide) (by decide) (by decide) fun _ => by decide
  exact absurd hin.listed (by decide)

end Operation

end Scim

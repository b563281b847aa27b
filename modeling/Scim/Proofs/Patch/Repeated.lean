import Scim.Proofs.Patch.Along
import Scim.Proofs.Patch.Idempotent

/-!
# The same change under a schema again

What a path writes is written in the object that holds the attributes of its schema; for an
extension that has none such an object is made (`changeFromRoot`). Bookkeeping follows, which leaves
that object where it is or drops it. Where it stays, the same change starts from what it has left
there; where it was dropped, the change makes a new object, and bookkeeping drops that as well: a
change that makes nothing assigned of an empty object has nothing to keep it (`Repeatable`).

So a change that is the same done twice is so together with its bookkeeping
(`changeFromRoot_twice`), unless its first time puts an object under the URN of a core schema.
-/

namespace Scim

open Object

namespace Object

variable {o : Object} {key name : Text} {v : Json}

theorem erase_add (h : o.hasKey key = false) : (o.add key v).erase key = o := by
  have hother : (o.add key v).members.filter (fun m => m.1 != key) =
      o.members.filter fun m => m.1 != key := Keeps.add (p := (· != key)) (by simp)
  have hsame : o.members.filter (fun m => m.1 != key) = o.members := by
    refine List.filter_eq_self.mpr fun m hm => ?_
    have hall := List.any_eq_false.mp h m hm
    simpa using hall
  unfold erase
  rw [hother, hsame]
  rfl

/-- What was set in a new field is gone with the field. -/
theorem removeField_setField (hkey : o.findKey? name = none) (h : o.Takes name) (v : Json) :
    (o.setField name v).removeField name = o := by
  have hadded : (o.add name v).findKey? name = some name :=
    findKey?_self ((keys_add o name v).mem_iff.mpr (List.mem_cons_self ..))
  rw [setField_of_takes hkey h]
  unfold removeField
  rw [hadded]
  exact erase_add (hasKey_of_findKey?_none hkey)

end Object

namespace Operation

open Schema

variable {core container : List Text} {create : Bool} {name u : Text} {urn : Option Text}
  {act : Object → Except Error Object} {doc d o o' r root : Object}

/-! ### Bookkeeping once nothing is left -/

theorem distinct_updateSchema (core : List Text) (hdoc : doc.Distinct) (u : Text) :
    (updateSchema core doc u).Distinct := by
  unfold updateSchema
  split_ifs
  · exact hdoc
  dsimp only
  split
  · split_ifs
    · exact hdoc
    · exact hdoc.overwrite
  · exact hdoc.setField
  · exact hdoc
  · split_ifs
    · exact hdoc.removeField.overwrite
    · exact hdoc.removeField
  · exact hdoc.removeField

theorem unassigned_of_gone (hdoc : doc.Distinct) (hgone : Gone core u (updateSchema core doc u)) :
    isAssigned (doc.field? u) = false ∧
      (listed (updateSchema core doc u)).any (isUrnItem u) = false := by
  have h := settles_updateSchema core hdoc u
  generalize updateSchema core doc u = doc' at h hgone
  cases h with
  | core hcore =>
    rw [(root?_eq_none_iff.mp hgone.root).2] at hcore
    cases hcore
  | kept _ hassigned _ hfield _ =>
    rw [← hfield, hgone.field] at hassigned
    cases hassigned
  | dropped _ hassigned _ _ hlist => exact ⟨hassigned, hlist⟩

/-- Nothing is left of a new object that was not stored or holds nothing assigned. -/
theorem updateSchema_setField (hdoc : doc.Distinct) (hgone : Gone core u doc)
    (hlist : (listed doc).any (isUrnItem u) = false) (hr : r.Locked)
    (hdrop : ¬ doc.Takes u ∨ isAssigned (some (.obj r)) = false) :
    updateSchema core (doc.setField u (.obj r)) u = doc := by
  have hkey := field?_eq_none_iff.mp hgone.field
  by_cases htakes : doc.Takes u
  · have hassigned : isAssigned (some (.obj r)) = false := hdrop.resolve_left fun h => h htakes
    have hfield : (doc.setField u (.obj r)).field? u = some (.obj r) :=
      field?_setField_of_takes htakes _
    have hremove : (doc.setField u (.obj r)).removeField u = doc :=
      removeField_setField hkey htakes _
    obtain ⟨-, hcore⟩ := root?_eq_none_iff.mp hgone.root
    have hcores := hcore
    rw [isCore_eq, Bool.or_eq_false_iff] at hcores
    by_cases hu : u.lower = listName.lower
    · -- the new object is in the place of the list, which lists nothing then
      have hlisted : (doc.setField u (.obj r)).field? listName = some (.obj r) := by
        have hset : (doc.setField u (.obj r)).Distinct := hdoc.setField
        rw [(hset.unambiguous u).field?_congr hu.symm, hfield]
      have hcore' : isCore core (doc.setField u (.obj r)) u = false := by
        rw [isCore_eq, hcores.1, Bool.false_or, listed, hlisted]
        rfl
      unfold updateSchema
      rw [hcore', hfield, hassigned, hremove, hlisted, if_neg (by simp)]
    · have hchange : Changes [u] doc (doc.setField u (.obj r)) := .setField (by simp)
      have hnot : listName.lower ∉ [u].map Text.lower := by simpa [eq_comm] using hu
      unfold updateSchema
      rw [Path.isCore_of_changes hchange hnot, hcore, hfield, hassigned, hremove,
        hchange.field? hnot, if_neg (by simp)]
      cases hread : doc.field? listName with
      | none => rfl
      | some v =>
        cases v with
        | arr items =>
          rw [listed_of_field? hread] at hlist
          exact if_neg (by simp [hlist])
        | _ => rfl
  · rw [setField_of_not_takes htakes hr]
    exact updateSchema_of_gone hkey hlist

/-- A name that is not taken is not taken after bookkeeping either. -/
theorem not_takes_updateSchema (hdoc : doc.Distinct) (hcore : isCore core doc u = false)
    (h : ¬ doc.Takes u) : ¬ (updateSchema core doc u).Takes u := by
  have hkey := field?_eq_none_iff.mp (field?_of_not_takes h)
  obtain ⟨rfl, -, hlocked⟩ : u = reservedName ∧ ¬ doc.hasField u = true ∧
      ¬ doc.unlocked = true := by simpa [Takes] using h
  have hremove : doc.removeField reservedName = doc := by
    unfold removeField
    rw [hkey]
  have hunassigned : isAssigned (doc.field? reservedName) = false := by
    rw [field?_of_not_takes h]
    rfl
  have hagree : AgreeOn reservedName doc (updateSchema core doc reservedName) := by
    rw [updateSchema_of_unassigned (.of_map _ hdoc) (by decide) (by simp [hcore]) hunassigned,
      hremove]
    exact (Local.putField listName _).agreeOn (by decide) doc
  simp [Takes, hasField, hagree.findKey?, hkey, hagree.unlocked rfl, hlocked]

/-! ### A change of the root -/

/-- A change of the object that holds the attributes of the schema. An extension that has none may
get one. -/
def changeFromRoot (core : List Text) (urn : Option Text) (create : Bool)
    (act : Object → Except Error Object) (doc : Object) : Outcome :=
  match rootOf? core doc urn, urn with
  | some (container, root), _ => Path.putBack doc container (act root)
  | none, some u =>
    match (doc.field? u).getD .null with
    | .null =>
      if create then
        Path.putBack doc [] ((act empty).map fun root => doc.setField u (.obj root))
      else .done doc
    | _ => .failed (.extensionNotObject u) doc
  | none, none => .done doc

/-- A change of one field. What it makes of an empty object does not unlock another, and if it puts
something assigned there, it does so anywhere. -/
structure Repeatable (create : Bool) (name : Text) (act : Object → Except Error Object) : Prop where
  changes {o o' : Object} (h : act o = .ok o') : Changes [name] o o'
  new (h : create = true) : ∃ r, act empty = .ok r ∧ r.Locked
  assigned {r o o' : Object} (h : create = true) (hr : act empty = .ok r)
    (hassigned : isAssigned (some (.obj r)) = true) (ho : act o = .ok o') :
    isAssigned (some (.obj o')) = true

theorem field?_of_rootOf? {key : Text} (h : rootOf? core doc (some u) = some ([key], root)) :
    doc.field? u = some (.obj root) := by
  rcases Path.rootOf?_cases h with ⟨hnil, -⟩ | ⟨_, key', ⟨⟩, -, hkey, hget⟩
  · cases hnil
  · exact field?_of_get? hkey hget

theorem rootOf?_of_field? (core : List Text) (h : doc.field? u = some (.obj root)) :
    ∃ key, rootOf? core doc (some u) = some ([key], root) := by
  obtain ⟨key, hkey, hget⟩ := get?_of_field? h
  refine ⟨key, ?_⟩
  show root? core doc u = _
  unfold root?
  rw [Path.extension?_eq_some_iff.mpr ⟨hkey, hget⟩]

theorem changeFromRoot_of_rootOf? (hroot : rootOf? core doc urn = some (container, root)) :
    changeFromRoot core urn create act doc = Path.putBack doc container (act root) := by
  unfold changeFromRoot
  rw [hroot]

theorem changeFromRoot_of_gone (hgone : Gone core u doc) :
    changeFromRoot core (some u) create act doc =
      if create then Path.putBack doc [] ((act empty).map fun root => doc.setField u (.obj root))
      else .done doc := by
  have hroot : rootOf? core doc (some u) = none := hgone.root
  unfold changeFromRoot
  rw [hroot]
  dsimp only
  rw [hgone.field]
  rfl

/-- Where nothing was left, bookkeeping leaves nothing again. -/
theorem changeFromRoot_again_of_gone (hdoc : doc.Distinct) (hgone : Gone core u doc)
    (hlist : (listed doc).any (isUrnItem u) = false)
    (hnew : create = true → ∃ r, act empty = .ok r ∧ r.Locked ∧
      (¬ doc.Takes u ∨ isAssigned (some (.obj r)) = false)) :
    ∃ d, changeFromRoot core (some u) create act doc = .done d ∧ updateSchema core d u = doc := by
  rw [changeFromRoot_of_gone hgone]
  split_ifs with hcreate
  · obtain ⟨r, hr, hlocked, hdrop⟩ := hnew hcreate
    rw [hr]
    exact ⟨_, rfl, updateSchema_setField hdoc hgone hlist hlocked hdrop⟩
  · exact ⟨doc, rfl, updateSchema_of_gone (field?_eq_none_iff.mp hgone.field) hlist⟩

/-- The same change again, after bookkeeping and before more of it, makes no difference. -/
def Stays (core : List Text) (urn : Option Text) (create : Bool)
    (act : Object → Except Error Object) (d : Object) : Prop :=
  ∃ d', changeFromRoot core urn create act (urn.toList.foldl (updateSchema core) d) = .done d' ∧
    urn.toList.foldl (updateSchema core) d' = urn.toList.foldl (updateSchema core) d

/-- Where the root is settled, it stays so, or is dropped again. -/
theorem stays_of_rootOf? (hdoc : doc.Distinct)
    (hroot : rootOf? core doc (some u) = some (container, root)) (hsame : act root = .ok root)
    (hnew : create = true → isAssigned (doc.field? u) = false →
      ∃ r, act empty = .ok r ∧ r.Locked ∧ isAssigned (some (.obj r)) = false) :
    Stays core (some u) create act doc := by
  have hdistinct := distinct_updateSchema core hdoc u
  rcases root?_updateSchema hdoc hroot with hkept | hgone
  · have hroot' : rootOf? core (updateSchema core doc u) (some u) = some (container, root) := hkept
    refine ⟨updateSchema core doc u, ?_, updateSchema_updateSchema core hdoc u⟩
    show changeFromRoot core (some u) create act (updateSchema core doc u) = _
    rw [changeFromRoot_of_rootOf? hroot', hsame]
    exact congrArg Outcome.done (modifyAt_root_self hroot' hdistinct)
  · obtain ⟨hassigned, hlist⟩ := unassigned_of_gone hdoc hgone
    refine changeFromRoot_again_of_gone hdistinct hgone hlist fun hcreate => ?_
    obtain ⟨r, hr, hlocked, hdrop⟩ := hnew hcreate hassigned
    exact ⟨r, hr, hlocked, .inr hdrop⟩

/-- The resource stays the root of a core schema that has got no object of its own. -/
theorem stays_of_isCore (hact : Repeatable create name act) (hname : name.lower ≠ listName.lower)
    (hcore : isCore core doc u = true) (hchanged : act doc = .ok o) (hsame : act o = .ok o)
    (hext : extension? (updateSchema core o u) u = none) : Stays core (some u) create act o := by
  have hchange := hact.changes hchanged
  have hcore' : isCore core o u = true := by
    rw [Path.isCore_of_changes hchange (by simpa [eq_comm] using hname), hcore]
  have hkept : updateSchema core o u = o := if_pos hcore'
  rw [hkept] at hext
  have hroot : rootOf? core o (some u) = some ([], o) := root?_eq_here_iff.mpr ⟨hext, hcore', rfl⟩
  refine ⟨o, ?_, rfl⟩
  show changeFromRoot core (some u) create act (updateSchema core o u) = _
  rw [hkept, changeFromRoot_of_rootOf? hroot, hsame]
  rfl

/-- The object of an extension stays its root, or is dropped and then made and dropped again. -/
theorem stays_of_extension (hact : Repeatable create name act) (hdoc : doc.Distinct) {key : Text}
    (hroot : rootOf? core doc (some u) = some ([key], root)) (hchanged : act root = .ok o)
    (hsame : act o = .ok o) : Stays core (some u) create act (doc.modifyAt (fun _ => o) [key]) := by
  obtain ⟨hdoc', hroot'⟩ := rootOf?_modifyAt_extension hroot fun _ => o
  refine stays_of_rootOf? ?_ hroot' hsame fun hcreate hassigned => ?_
  · rw [hdoc']
    exact hdoc.overwrite
  · obtain ⟨r, hr, hlocked⟩ := hact.new hcreate
    refine ⟨r, hr, hlocked, ?_⟩
    rw [field?_of_rootOf? hroot'] at hassigned
    by_contra hnot
    rw [hact.assigned hcreate hr (by simpa using hnot) hchanged] at hassigned
    cases hassigned

/-- So does a new object, and where none is made nothing is left either time. -/
theorem stays_of_new (hact : Repeatable create name act) (hdoc : doc.Distinct)
    (hnone : root? core doc u = none) (hnew : ∀ r, create = true → act empty = .ok r → act r = .ok r)
    (h : changeFromRoot core (some u) create act doc = .done d) :
    Stays core (some u) create act d := by
  have hgone := gone_updateSchema hdoc hnone
  obtain ⟨-, hlist⟩ := unassigned_of_gone hdoc hgone
  have hdistinct := distinct_updateSchema core hdoc u
  have hstart : rootOf? core doc (some u) = none := hnone
  unfold changeFromRoot at h
  rw [hstart] at h
  dsimp only at h
  split at h
  · split_ifs at h with hcreate
    · obtain ⟨r, hr, hlocked⟩ := hact.new hcreate
      rw [hr] at h
      obtain rfl : doc.setField u (.obj r) = d := (Outcome.mk.inj h).2
      by_cases htakes : doc.Takes u
      · have hfield : (doc.setField u (.obj r)).field? u = some (.obj r) :=
          field?_setField_of_takes htakes _
        obtain ⟨key, hroot⟩ := rootOf?_of_field? core hfield
        refine stays_of_rootOf? hdoc.setField hroot (hnew r hcreate hr)
          fun _ hassigned => ⟨r, hr, hlocked, ?_⟩
        rwa [hfield] at hassigned
      · -- nothing was stored, neither this time nor the next
        rw [setField_of_not_takes htakes hlocked]
        obtain ⟨-, hcore⟩ := root?_eq_none_iff.mp hnone
        exact changeFromRoot_again_of_gone hdistinct hgone hlist fun _ =>
          ⟨r, hr, hlocked, .inl (not_takes_updateSchema hdoc hcore htakes)⟩
    · obtain rfl : doc = d := (Outcome.mk.inj h).2
      exact changeFromRoot_again_of_gone hdistinct hgone hlist fun hc => absurd hc hcreate
  · cases h

/-- With its bookkeeping a change from the root that is the same done twice changes nothing the
second time. -/
theorem changeFromRoot_twice (hact : Repeatable create name act) (hdoc : doc.Distinct)
    (hname : ∀ u ∈ urn, name.lower ≠ listName.lower)
    (hroot : ∀ c root o, rootOf? core doc urn = some (c, root) → act root = .ok o → act o = .ok o)
    (hnew : ∀ r, create = true → rootOf? core doc urn = none → act empty = .ok r → act r = .ok r)
    (h : changeFromRoot core urn create act doc = .done d)
    (hshadow : ∀ u ∈ urn, isCore core doc u = true → extension? doc u = none →
      extension? (urn.toList.foldl (updateSchema core) d) u = none) :
    Stays core urn create act d := by
  cases hstart : rootOf? core doc urn with
  | some start =>
    obtain ⟨container, root⟩ := start
    rw [changeFromRoot_of_rootOf? hstart] at h
    cases hchanged : act root with
    | error e =>
      rw [hchanged] at h
      cases h
    | ok root' =>
      rw [hchanged] at h
      obtain rfl := (Outcome.mk.inj h).2
      have hsame := hroot container root root' hstart hchanged
      cases urn with
      | none =>
        cases hstart
        refine ⟨root', ?_, rfl⟩
        show Path.putBack root' [] (act root') = _
        rw [hsame]
        rfl
      | some u =>
        rcases Path.rootOf?_cases hstart with ⟨rfl, rfl⟩ | ⟨_, key, ⟨⟩, rfl, -, -⟩
        · obtain ⟨hext, hcore, -⟩ := root?_eq_here_iff.mp hstart
          exact stays_of_isCore hact (hname u rfl) hcore hchanged hsame (hshadow u rfl hcore hext)
        · exact stays_of_extension hact hdoc hstart hchanged hsame
  | none =>
    cases urn with
    | none => cases hstart
    | some u =>
      exact stays_of_new hact hdoc hstart (fun r hcreate hr => hnew r hcreate hstart hr) h

/-! ### An operation with a path -/

/-- An operation that is such a change from the root, and has succeeded, changes nothing when it is
applied to its result. -/
theorem apply_twice_of_root {options : PatchOptions} {op : Operation} {p : Path} {after : Object}
    (hpath : op.path = some p) (hop : ∀ v ∈ op.value, v.Unambiguous)
    (hdoc : (Json.obj doc).Unambiguous)
    (hchange : ∀ doc : Object, (Json.obj doc).WellFormed → op.applyChange options doc =
      changeFromRoot options.coreUrns p.schemaUrn create act doc)
    (hact : Repeatable create name act) (hname : ∀ u ∈ p.schemaUrn, name.lower ≠ listName.lower)
    (hroot : ∀ c root o, rootOf? options.coreUrns doc p.schemaUrn = some (c, root) →
      act root = .ok o → act o = .ok o)
    (hnew : ∀ r, create = true → rootOf? options.coreUrns doc p.schemaUrn = none →
      act empty = .ok r → act r = .ok r)
    (happly : op.apply options doc = .done after)
    (hshadow : ∀ u ∈ p.schemaUrn, isCore options.coreUrns doc u = true →
      extension? doc u = none → extension? after u = none) :
    op.apply options after = .done after := by
  have hafter : (Json.obj after).Unambiguous := by
    have hkept := apply_unambiguous options hop hdoc
    rwa [happly] at hkept
  have happlied : ∀ doc : Object, (Json.obj doc).WellFormed → op.apply options doc =
      ⟨(changeFromRoot options.coreUrns p.schemaUrn create act doc).result,
        p.schemaUrn.toList.foldl (updateSchema options.coreUrns)
          (changeFromRoot options.coreUrns p.schemaUrn create act doc).resource⟩ := by
    intro doc hdoc
    unfold apply updateSchemas touchedUrns
    rw [hchange doc hdoc, hpath]
  rw [happlied doc hdoc.wellFormed] at happly
  obtain ⟨hresult, rfl⟩ := Outcome.mk.inj happly
  have hdone : changeFromRoot options.coreUrns p.schemaUrn create act doc =
      .done (changeFromRoot options.coreUrns p.schemaUrn create act doc).resource :=
    congrArg (Outcome.mk · _) hresult
  obtain ⟨d, hagain, hsame⟩ :=
    changeFromRoot_twice hact hdoc.distinct hname hroot hnew hdone hshadow
  rw [happlied _ hafter.wellFormed, hagain]
  exact congrArg Outcome.done hsame

end Operation

end Scim

import Scim.Proofs.Patch.Members
import Scim.Proofs.Patch.Removal
import Scim.Proofs.Patch.Settled
import Scim.Resource

/-!
# A removal for the second time

What an accepted removal addresses is gone after it, and the same removal changes nothing when it is
applied again (`removal_idempotent`). In the object that the path starts at, this is
`removeFrom_settled`. What remains is that the path still starts there: a removal makes no object of
a field that holds none, so that the root of a core schema stays at the top level, and bookkeeping
afterwards leaves the root where it is or leaves nothing of the schema (`rootOf?_settled`). In the
second case the path leads nowhere, and there is nothing for a removal to refuse either.
-/

namespace Scim

open Object

namespace Operation

open Schema

variable {core container : List Text} {doc o o' root root' : Object} {p : Path} {u name : Text}
  {urn : Option Text} {e : PathElement} {elements rest : List PathElement} {x : Object}

/-! ### The field that a removal changes -/

theorem removeFrom_changes (h : removeFrom core (e :: rest) o = .ok o') : Changes [e.name] o o' := by
  unfold removeFrom at h
  split at h
  · rename_i name f rest' heq
    cases heq
    split at h
    · cases h
      exact removeSelection_changes ..
    · cases h
      exact .refl o
    · cases h
  · cases h
    exact removeFields_changes ..

/-- What a filter has selected from is no object. -/
theorem field?_removeSelection (ho : o.Distinct) {items : List Json}
    (hfield : o.field? name = some (.arr items)) (f : Filter) (sub : Option Text) :
    (removeSelection core name f items sub o).field? name ≠ some (.obj x) := by
  have hset : ∀ items', (o.setField name (.arr items')).field? name ≠ some (.obj x) := by
    intro items'
    rw [field?_setField_of_field? hfield]
    nofun
  cases sub with
  | some sub => exact hset _
  | none =>
    rw [removeSelection_whole]
    split_ifs
    · rw [field?_eq_none_iff.mpr ho.findKey?_removeField]
      nofun
    · exact hset _

/-- A field that holds an object after a removal held one before it. -/
theorem object_of_removeFrom (hes : Removable (e :: rest)) (ho : o.Distinct)
    (h : removeFrom core (e :: rest) o = .ok o') (hx : o'.field? e.name = some (.obj x)) :
    ∃ y, o.field? e.name = some (.obj y) := by
  obtain ⟨name, selector⟩ := e
  cases selector with
  | some f =>
    rcases removeFrom_selector_eq_ok h with ⟨-, rfl⟩ | ⟨items, hfield, rfl⟩
    · exact ⟨x, hx⟩
    · exact absurd hx (field?_removeSelection ho hfield f _)
  | none =>
    cases h
    cases rest with
    | nil =>
      rw [removeFields_last, field?_eq_none_iff.mpr ho.findKey?_removeField] at hx
      cases hx
    | cons e' rest' =>
      cases hkey : o.findKey? name with
      | none =>
        rw [removeFields_absent core _ hkey] at hx
        exact ⟨x, hx⟩
      | some key =>
        obtain ⟨v, hv, hfield⟩ := get?_of_findKey? hkey
        rw [removeFields_inside core (List.cons_ne_nil _ _) hkey hv, ← storedName_of_findKey? hkey,
          field?_overwrite, hfield] at hx
        cases v with
        | obj y => exact ⟨y, hfield⟩
        | _ => cases hx

/-! ### The root that a path starts at -/

/-- After a removal the root is what the removal has made of it, or there is none. -/
theorem rootOf?_removeFrom (hes : Removable elements) (hdoc : doc.Distinct)
    (hroot : rootOf? core doc urn = some (container, root))
    (h : removeFrom core elements root = .ok root') :
    rootOf? core (doc.modifyAt (fun _ => root') container) urn = some (container, root') ∨
      rootOf? core (doc.modifyAt (fun _ => root') container) urn = none := by
  rcases Path.rootOf?_cases hroot with ⟨rfl, rfl⟩ | ⟨u, key, -, rfl, -, -⟩
  · cases urn with
    | none => exact .inl rfl
    | some u =>
      obtain ⟨e, rest, rfl⟩ := List.exists_cons_of_ne_nil hes.ne_nil
      have hchange := removeFrom_changes h
      have hext : extension? root u = none := (root?_eq_here_iff.mp hroot).1
      have hext' : extension? root' u = none := by
        rw [Path.extension?_eq_none_iff] at hext ⊢
        intro x hx
        by_cases hname : u.lower = e.name.lower
        · have hlower := (hchange.distinct hdoc).unambiguous u
          rw [← hlower.field?_congr hname.symm] at hx
          obtain ⟨y, hy⟩ := object_of_removeFrom hes hdoc h hx
          rw [(hdoc.unambiguous u).field?_congr hname.symm] at hy
          exact hext y hy
        · rw [hchange.field? (by simpa using hname)] at hx
          exact hext x hx
      show root? core root' u = some ([], root') ∨ root? core root' u = none
      unfold root?
      rw [hext']
      dsimp only
      split_ifs
      · exact .inl rfl
      · exact .inr rfl
  · exact .inl (rootOf?_modifyAt_extension hroot _).2

/-- After bookkeeping the root is still the same, or nothing is left of the schema. -/
theorem rootOf?_settled (hdoc : doc.Distinct)
    (hroot : rootOf? core doc urn = some (container, root) ∨ rootOf? core doc urn = none) :
    rootOf? core (urn.toList.foldl (updateSchema core) doc) urn = some (container, root) ∨
      ∃ u, urn = some u ∧ Gone core u (urn.toList.foldl (updateSchema core) doc) := by
  cases urn with
  | none =>
    rcases hroot with hroot | hroot
    · exact .inl hroot
    · cases hroot
  | some u =>
    rcases hroot with hroot | hroot
    · exact (root?_updateSchema hdoc hroot).imp_right fun hgone => ⟨u, rfl, hgone⟩
    · exact .inr ⟨u, rfl, gone_updateSchema hdoc hroot⟩

/-! ### Removing along a path -/

/-- Without a root there is nothing to remove, and only a value in its place is refused. -/
theorem removePath_of_root?_none (hes : p.elements ≠ []) (hurn : p.schemaUrn = some u)
    (hroot : root? core doc u = none) :
    removePath core p doc = .done doc ∨
      doc.field? u ≠ none ∧ ∃ e, removePath core p doc = .failed e doc := by
  obtain ⟨urn, elements⟩ := p
  obtain rfl : urn = some u := hurn
  obtain ⟨e, rest, rfl⟩ := List.exists_cons_of_ne_nil hes
  have hroot' : rootOf? core doc (some u) = none := hroot
  unfold removePath
  dsimp only
  split_ifs
  · rw [hroot']
    exact .inl rfl
  · unfold Path.target Path.targetRoot
    dsimp only
    rw [hroot]
    cases hfield : doc.field? u with
    | none => exact .inl rfl
    | some v =>
      cases v with
      | null => exact .inl rfl
      | _ => exact .inr ⟨by simp, _, rfl⟩

/-- Once a removal is bookkept, its path leads nowhere, and it changes nothing any more. -/
theorem removePath_settled (hdoc : (Json.obj doc).Unambiguous) (hes : Removable p.elements)
    (h : removePath core p doc = .done o) :
    p.resolve core (p.schemaUrn.toList.foldl (updateSchema core) o) = [] ∧
    removePath core p (p.schemaUrn.toList.foldl (updateSchema core) o) =
      .done (p.schemaUrn.toList.foldl (updateSchema core) o) := by
  have ho : (Json.obj o).Unambiguous := by
    have hkept := removePath_kept core p hdoc
    rwa [h] at hkept
  have hne := hes.ne_nil
  have hgone : ∀ u, p.schemaUrn = some u → ∀ d : Object, Gone core u d →
      p.resolve core d = [] ∧ removePath core p d = .done d := by
    intro u hu d hd
    have hnone : rootOf? core d p.schemaUrn = none := by
      rw [hu]
      exact hd.root
    refine ⟨by rw [Path.resolve, hnone], ?_⟩
    rcases removePath_of_root?_none hne hu hd.root with hdone | ⟨hfield, -⟩
    · exact hdone
    · exact absurd hd.field hfield
  cases hroot : rootOf? core doc p.schemaUrn with
  | none =>
    obtain ⟨u, hu⟩ : ∃ u, p.schemaUrn = some u := by
      cases hurn : p.schemaUrn with
      | none =>
        rw [hurn] at hroot
        cases hroot
      | some u => exact ⟨u, rfl⟩
    have hnone : root? core doc u = none := by rwa [hu] at hroot
    obtain rfl : doc = o := by
      rcases removePath_of_root?_none hne hu hnone with hdone | ⟨-, e, hfail⟩
      · exact (Outcome.mk.inj (hdone.symm.trans h)).2
      · cases hfail.symm.trans h
    refine hgone u hu _ ?_
    rw [hu]
    exact gone_updateSchema hdoc.distinct hnone
  | some start =>
    obtain ⟨container, root⟩ := start
    have hunamb : (Json.obj root).Unambiguous := Path.allObjects_of_rootOf? hdoc hroot
    rw [removePath_of_rootOf? hes hdoc.distinct hroot] at h
    cases hfrom : removeFrom core p.elements root with
    | error e =>
      rw [hfrom] at h
      cases h
    | ok root' =>
      rw [hfrom] at h
      obtain rfl := (Outcome.mk.inj h).2
      rcases rootOf?_settled ho.distinct (rootOf?_removeFrom hes hdoc.distinct hroot hfrom) with
        hstart | ⟨u, hu, hd⟩
      · obtain ⟨hfound, hagain⟩ := removeFrom_settled hes hunamb hfrom (container.map .key)
        have hsettled : (Json.obj (p.schemaUrn.toList.foldl (updateSchema core) _)).Unambiguous :=
          foldl_updateSchema_kept core p.schemaUrn.toList ho
        have hdistinct := hsettled.distinct
        refine ⟨?_, ?_⟩
        · rw [Path.resolve, hstart]
          dsimp only
          rw [if_neg (by simpa using hne), hfound]
        · rw [removePath_of_rootOf? hes hdistinct hstart, hagain]
          exact congrArg Outcome.done (modifyAt_root_self hstart hdistinct)
      · exact hgone u hu _ hd

/-! ### A removal -/

variable {options : PatchOptions} {value : Option Json} {op : Operation}

/-- Bookkeeping for the second time changes nothing. -/
theorem foldl_updateSchema_twice (core : List Text) (hdoc : doc.Distinct) (urn : Option Text) :
    urn.toList.foldl (updateSchema core) (urn.toList.foldl (updateSchema core) doc) =
      urn.toList.foldl (updateSchema core) doc := by
  cases urn with
  | none => rfl
  | some u => exact updateSchema_updateSchema core hdoc u

theorem apply_removal_settled (hdoc : (Json.obj doc).Unambiguous) (hne : p.elements ≠ [])
    (h : make .remove (some p) value = .ok op) (hvalue : given? value = none)
    (happly : op.apply options doc = .done o) :
    p.resolve options.coreUrns o = [] ∧ op.apply options o = .done o := by
  have heq := apply_removal hne h hvalue options
  have hkept : (Json.obj (removePath options.coreUrns p doc).resource).Unambiguous :=
    removePath_kept options.coreUrns p hdoc
  rw [heq] at happly
  obtain ⟨hresult, rfl⟩ := Outcome.mk.inj happly
  have hdone : removePath options.coreUrns p doc =
      .done (removePath options.coreUrns p doc).resource :=
    congrArg (Outcome.mk · _) hresult
  obtain ⟨hfound, hagain⟩ := removePath_settled hdoc (removable_of_make hne h) hdone
  refine ⟨hfound, ?_⟩
  rw [heq, hagain]
  exact congrArg Outcome.done (foldl_updateSchema_twice _ hkept.distinct _)

theorem removeValues_eq {parser : ParserOptions} {input : PathInput}
    (hread : input.read parser = .ok p) (options : PatchOptions) (doc : Object) :
    Resource.removeValues ⟨doc, parser, options⟩ input =
      match make .remove (some p) none with
      | .ok op => ((op.apply options doc).result.map fun _ => p.hasValue options.coreUrns doc,
          ⟨(op.apply options doc).resource, parser, options⟩)
      | .error e => (.error e, ⟨doc, parser, options⟩) := by
  have hchange : Resource.change ⟨doc, parser, options⟩ .remove (.tree p) none =
      match make .remove (some p) none with
      | .ok op => Resource.applyOperation ⟨doc, parser, options⟩ op
      | .error e => (.error e, ⟨doc, parser, options⟩) := rfl
  unfold Resource.removeValues
  dsimp only
  rw [hread]
  dsimp only
  rw [hchange]
  cases make .remove (some p) none <;> rfl

/-- An accepted removal that succeeds leaves nothing of what it addresses, and succeeds a second
time without changing anything; so does the removal of all values of a resource at a path, which
then finds none. -/
theorem removal_idempotent (options : PatchOptions) (doc : Object)
    (hdoc : (Json.obj doc).Unambiguous) (p : Path) (hne : p.elements ≠ []) :
    (∀ value op after, make .remove (some p) value = .ok op → given? value = none →
      op.apply options doc = .done after →
        p.resolve options.coreUrns after = [] ∧ op.apply options after = .done after) ∧
    ∀ parser input existed changed, PathInput.read parser input = .ok p →
      Resource.removeValues ⟨doc, parser, options⟩ input = (.ok existed, changed) →
        p.hasValue options.coreUrns changed.node = false ∧
        changed.removeValues input = (.ok false, changed) := by
  refine ⟨fun value op after hop hvalue happly =>
    apply_removal_settled hdoc hne hop hvalue happly, ?_⟩
  intro parser input existed changed hread hremove
  rw [removeValues_eq hread] at hremove
  cases hmake : make .remove (some p) none with
  | error e =>
    rw [hmake] at hremove
    cases hremove
  | ok op =>
    rw [hmake] at hremove
    obtain ⟨hresult, rfl⟩ := Prod.mk.inj hremove
    have hdone : op.apply options doc = .done (op.apply options doc).resource := by
      cases hcase : (op.apply options doc).result with
      | error e =>
        rw [hcase] at hresult
        cases hresult
      | ok _ => exact congrArg (Outcome.mk · _) hcase
    obtain ⟨hfound, hagain⟩ := apply_removal_settled hdoc hne hmake rfl hdone
    have hnone : p.hasValue options.coreUrns (op.apply options doc).resource = false := by
      rw [Path.hasValue, Path.values, hfound]
      rfl
    refine ⟨hnone, ?_⟩
    rw [removeValues_eq hread, hmake]
    dsimp only
    rw [hagain, hnone]
    rfl

/-- An extension with nothing in it but a list of codes. -/
def coded : Object :=
  ⟨[("schemas", .arr [.str "urn:a:b", .str "URN:X:Y"]),
    ("urn:x:y", .ofMembers [("Codes", .arr [.ofMembers [("kind", .str "A")], .str "c", .null])])],
    false⟩

/-- All codes but those of one kind. -/
def otherCodes : Path :=
  ⟨some "urn:X:y", [⟨"codes", some (.not (.compare .eq (.ofName "kind") (.str "b")))⟩]⟩

/-- With the codes the extension is gone, and its URN from the list. -/
theorem removal_idempotent_coded :
    (Json.obj coded).Unambiguous ∧ otherCodes.elements ≠ [] ∧
    make .remove (some otherCodes) none = .ok ⟨.remove, some otherCodes, none⟩ ∧
    (otherCodes.resolve PatchOptions.default.coreUrns coded).length = 3 ∧
    apply .default ⟨.remove, some otherCodes, none⟩ coded =
      .done ⟨[("schemas", .arr [.str "urn:a:b"])], false⟩ ∧
    apply .default ⟨.remove, some otherCodes, none⟩
      ⟨[("schemas", .arr [.str "urn:a:b"])], false⟩ =
        .done ⟨[("schemas", .arr [.str "urn:a:b"])], false⟩ ∧
    Resource.removeValues ⟨coded, .default, .default⟩ (.tree otherCodes) =
      (.ok true, ⟨⟨[("schemas", .arr [.str "urn:a:b"])], false⟩, .default, .default⟩) ∧
    Resource.removeValues ⟨⟨[("schemas", .arr [.str "urn:a:b"])], false⟩, .default, .default⟩
      (.tree otherCodes) =
        (.ok false, ⟨⟨[("schemas", .arr [.str "urn:a:b"])], false⟩, .default, .default⟩) := by
  have hcoded : (Json.obj coded).Unambiguous := Json.throughout_of_everywhere _ (by decide)
  have hmake : make .remove (some otherCodes) none = .ok ⟨.remove, some otherCodes, none⟩ := rfl
  have happly : apply .default ⟨.remove, some otherCodes, none⟩ coded =
      .done ⟨[("schemas", .arr [.str "urn:a:b"])], false⟩ := rfl
  have hremove : Resource.removeValues ⟨coded, .default, .default⟩ (.tree otherCodes) =
      (.ok true, ⟨⟨[("schemas", .arr [.str "urn:a:b"])], false⟩, .default, .default⟩) := rfl
  obtain ⟨hop, hresource⟩ := removal_idempotent .default coded hcoded otherCodes (by decide)
  exact ⟨hcoded, by decide, hmake, by decide, happly, (hop none _ _ hmake rfl happly).2, hremove,
    (hresource .default (.tree otherCodes) true _ rfl hremove).2⟩

end Operation

end Scim

import Scim.Proofs.Patch.Accepted
import Scim.Proofs.Patch.Changes

/-!
# Three ways to address an attribute of a schema

An attribute of a schema is written by its qualified name, by a value at the path of the schema, or
without a path by a value under the URN. The first two are the same (`run_schemaPath`). The third
is the same as well (`run_addressing`) unless the schema is a core one and the resource has an
object under its URN nevertheless: then it writes to the top level, and the other two into that
object.
-/

namespace Scim

open Object

namespace Object

variable {name : Text} {value : Json}

/-! ### Writing a member of a new object -/

theorem setField_empty (hname : name ≠ reservedName) (value : Json) :
    empty.setField name value = ⟨[(name, value)], false⟩ := by
  show empty.assign name value = _
  unfold assign
  rw [if_neg (by simp [empty, hasKey]), if_neg (by simp [hname])]
  unfold add Members.add
  split <;> rfl

theorem merge_empty (h : value.isUnassigned = false) (hname : name ≠ reservedName) :
    empty.merge name value = ⟨[(name, value)], false⟩ := by
  have hset := setField_empty hname
  cases value with
  | null => cases h
  | arr items =>
    cases items with
    | nil => cases h
    | cons v rest => exact hset _
  | _ => exact hset _

theorem replace_empty (h : value.isUnassigned = false) (hname : name ≠ reservedName) :
    empty.replace name value = ⟨[(name, value)], false⟩ := by
  have hset := setField_empty hname
  unfold replace
  rw [h]
  cases value with
  | obj o => exact hset _
  | _ => exact hset _

end Object

namespace Operation

variable {core : List Text} {options : PatchOptions} {doc doc' : Object} {op : Operation}
  {change : Change} {path : Option Path} {value : Json} {container : List Text} {u n : Text}

/-! ### Making and applying -/

/-- An operation made and applied at once. -/
def run (options : PatchOptions) (change : Change) (path : Option Path) (value : Json)
    (doc : Object) : Except Error Outcome :=
  (make change path (some value)).map (·.apply options doc)

/-- A value that is assigned and, if it is an object, has members. -/
structure IsContent (value : Json) : Prop where
  assigned : value.isUnassigned = false
  void : isVoid (some value) = false

/-- The way in which a change writes. -/
def writer : Change → Write
  | .replace => Object.replace
  | _ => Object.merge

/-- An addition or a replacement at a path without filters is accepted unless its value has a
reserved name inside. -/
theorem run_eq (hchange : change ≠ .remove) (hpath : ∀ p ∈ path, p.isRoot = false)
    (hsel : ∀ p ∈ path, ∀ e ∈ p.elements, e.selector = none) (hvoid : isVoid (some value) = false) :
    run options change path value doc =
      if value.hasReservedKey then .error .reservedKey
      else .ok ((⟨change, path, some value⟩ : Operation).apply options doc) := by
  have hfilter : path.filter (!·.isRoot) = path := by
    cases path with
    | none => rfl
    | some p => simp [hpath p rfl]
  unfold run
  rw [make_eq, hfilter]
  split_ifs with hreserved
  · have hany : (some value).any Json.hasReservedKey = true := by simpa using hreserved
    rw [check_of_hasReservedKey hany]
    rfl
  · have hform : ∀ p ∈ path, ∀ x ∈ p.form, x = none := by
      intro p hp
      simpa [Path.form] using hsel p hp
    have hcheck : check change path (some value) = .ok () := by
      refine check_eq_ok_iff.mpr ⟨by simpa using hreserved, fun p hp => ?_, ?_, fun p hp => ?_⟩
      · exact checkSelectors_eq_ok_iff.mpr fun x hx => hform p hp x (List.mem_of_mem_tail hx)
      · cases change with
        | remove => exact absurd rfl hchange
        | _ => simp [checkValue, hvoid]
      · refine checkSelection_eq_ok_iff.mpr fun b rest hes => ?_
        cases hform p hp (some b) (by rw [hes]; exact List.mem_cons_self ..)
    rw [hcheck]
    rfl

theorem given?_of_content (h : IsContent value) : given? (some value) = some value := by
  cases value <;> first | rfl | cases h.void

theorem applyChange_field (hchange : op.change ≠ .remove) (hvalue : op.value = some value)
    (hcontent : IsContent value)
    (htarget : op.target options.coreUrns doc true = (.ok (some (.field container n)), doc')) :
    op.applyChange options doc =
      .done (doc'.modifyAt (writer op.change · n value) container) := by
  unfold applyChange
  cases hkind : op.change with
  | add =>
    simp only [applyAdd, hvalue, given?_of_content hcontent, htarget]
    cases value with
    | arr items =>
      cases items with
      | nil => cases hcontent.assigned
      | cons v rest => rfl
    | _ => rfl
  | replace =>
    simp only [applyReplace, hvalue, given?_of_content hcontent, hcontent.assigned, Bool.not_false,
      htarget]
    rfl
  | remove => exact absurd hkind hchange

theorem applyChange_root {o : Object} (hchange : op.change ≠ .remove)
    (hvalue : op.value = some (.obj o)) (hcontent : IsContent (.obj o))
    (htarget : op.target options.coreUrns doc true = (.ok (some (.root container)), doc')) :
    op.applyChange options doc =
      .done (writeMembers options.coreUrns (writer op.change) container o.members doc') := by
  unfold applyChange
  cases hkind : op.change with
  | add =>
    simp only [applyAdd, hvalue, given?_of_content hcontent, htarget]
    rfl
  | replace =>
    simp only [applyReplace, hvalue, given?_of_content hcontent, hcontent.assigned, Bool.not_false,
      htarget]
    rfl
  | remove => exact absurd hkind hchange

/-! ### The places -/

/-- A value under a name. -/
def under (n : Text) (value : Json) : Json := .ofMembers [(n, value)]

theorem ne_reservedName_of_isUrn (hu : u.isUrn) : u ≠ reservedName := by
  rintro rfl
  exact absurd hu (by decide)

theorem isContent_under (n : Text) (value : Json) : IsContent (under n value) := ⟨rfl, rfl⟩

theorem hasReservedKey_under (hn : n ≠ reservedName) :
    (under n value).hasReservedKey = value.hasReservedKey := by
  simp [under, Json.ofMembers, Json.hasReservedKey, Json.memberReservedKey, hn]

theorem tame_writer (change : Change) : Tame (writer change) := by
  cases change with
  | replace => exact tame_replace
  | _ => exact tame_merge

/-- A member of a new object: written at once, or added to an empty object. -/
theorem writer_empty (change : Change) (h : IsContent value) (hn : n ≠ reservedName) :
    writer change empty n value = ⟨[(n, value)], false⟩ := by
  unfold writer
  split
  · exact replace_empty h.assigned hn
  · exact merge_empty h.assigned hn

/-- Writing an object with one member over an object writes the member. -/
theorem writer_object (change : Change) {root : Object} (h : doc.field? u = some (.obj root)) :
    writer change doc u (under n value) = doc.setField u (.obj (writer change root n value)) := by
  unfold writer
  split <;> simp [under, Json.ofMembers, Object.replace, Object.merge, Json.isUnassigned, h,
    replaceMembers, mergeMembers]

theorem writer_absent (change : Change) (h : doc.field? u = none) :
    writer change doc u (under n value) = doc.setField u (under n value) := by
  unfold writer
  split <;> simp [under, Json.ofMembers, Object.replace, Object.merge, Json.isUnassigned, h]

/-- A member with a plain name is written in the same way everywhere. -/
theorem writeMembers_singleton (core : List Text) (write : Write) (hn : n.isUrn = false) :
    writeMembers core write container [(n, value)] doc =
      doc.modifyAt (write · n value) container := by
  unfold writeMembers
  cases container with
  | nil =>
    simp only [List.isEmpty_nil, if_true, writeTopLevel, List.foldl_cons, List.foldl_nil, hn,
      Bool.false_and, Bool.false_eq_true, if_false]
    split <;> rfl
  | cons key rest => rfl

/-- Where the attributes of a schema go that is an object or missing: into the object, to the top
level, or into a new object. -/
inductive Place (core : List Text) (u : Text) (doc : Object) : List Text → Object → Prop
  | extension {key : Text} {root : Object} (hkey : doc.findKey? u = some key)
    (hroot : doc.field? u = some (.obj root)) : Place core u doc [key] doc
  | top (habsent : doc.field? u = none) (hcore : Schema.isCore core doc u = true) :
    Place core u doc [] doc
  | new (habsent : doc.field? u = none) (hcore : Schema.isCore core doc u = false) :
    Place core u doc [u] (doc.setField u (.obj empty))

theorem exists_place (core : List Text) (hfield : ∀ w ∈ doc.field? u, w.isObject) :
    ∃ c doc', Path.targetRoot core (some u) doc true = (.ok (some c), doc') ∧
      Place core u doc c doc' := by
  cases hext : Schema.extension? doc u with
  | some found =>
    obtain ⟨key, root⟩ := found
    obtain ⟨hkey, hget⟩ := Path.extension?_eq_some_iff.mp hext
    have hroot : doc.field? u = some (.obj root) := field?_of_get? hkey hget
    exact ⟨[key], doc, by simp [Path.targetRoot, Schema.root?, hext], .extension hkey hroot⟩
  | none =>
    have habsent : doc.field? u = none := by
      cases hw : doc.field? u with
      | none => rfl
      | some w =>
        have hobj := hfield w hw
        cases w with
        | obj o => exact absurd hw (Path.extension?_eq_none_iff.mp hext o)
        | _ => cases hobj
    cases hcore : Schema.isCore core doc u with
    | true =>
      exact ⟨[], doc, by simp [Path.targetRoot, Schema.root?, hext, hcore], .top habsent hcore⟩
    | false =>
      have hname : doc.storedName u = u :=
        storedName_of_findKey?_none (field?_eq_none_iff.mp habsent)
      refine ⟨[u], _, ?_, .new habsent hcore⟩
      simp [Path.targetRoot, Schema.root?, hext, hcore, habsent, createObject, hname]

theorem writeTopLevel_under {write : Write} (hu : u.isUrn) :
    writeTopLevel core write [(u, under n value)] doc =
      if Schema.isCore core doc u then write doc n value else write doc u (under n value) := by
  simp only [writeTopLevel, under, Json.ofMembers, List.foldl_cons, List.foldl_nil, hu,
    Bool.true_and]
  rfl

/-- Writing under the URN reaches the same place, but for a core schema with an object. -/
theorem writeTopLevel_place {c : List Text} (change : Change) (h : Place core u doc c doc')
    (hu : u.isUrn) (hn : n ≠ reservedName) (hv : IsContent value)
    (hcore : (doc.field? u).isSome → Schema.isCore core doc u = false) :
    writeTopLevel core (writer change) [(u, under n value)] doc =
      doc'.modifyAt (writer change · n value) c := by
  rw [writeTopLevel_under hu]
  cases h with
  | extension hkey hroot =>
    rename_i key root
    have hget : doc.get? key = some (.obj root) := by rwa [field?, hkey] at hroot
    rw [hcore (by simp [hroot]), if_neg (by simp), writer_object change hroot,
      setField_of_findKey? hkey]
    simp [modifyAt, hget]
  | top habsent hcore => rw [if_pos hcore, modifyAt_nil]
  | new habsent hnot =>
    -- The object is added at once here, and there added empty and then overwritten in its place.
    have hname : doc.storedName u = u :=
      storedName_of_findKey?_none (field?_eq_none_iff.mp habsent)
    have hkey : doc.hasKey u = false := by
      rw [← get?_eq_none_iff, ← hname, ← field?_eq]
      exact habsent
    have hset : ∀ v, doc.setField u v = doc.add u v := by
      intro v
      rw [setField_eq, hname, assign, if_neg (by simp [hkey]),
        if_neg (by simp [ne_reservedName_of_isUrn hu])]
    have hget : (doc.add u (.obj empty)).get? u = some (.obj empty) := by
      rw [get?_add hkey, if_pos rfl]
    rw [hnot, if_neg (by simp), writer_absent change habsent, hset, hset]
    simp [modifyAt, hget, overwrite_add hkey, writer_empty change hv hn, under, Json.ofMembers]

/-! ### The three ways -/

/-- A value with a reserved name inside is refused, and any other written at the place and the list
of schemas brought in step. -/
def written (options : PatchOptions) (change : Change) (u n : Text) (value : Json)
    (c : List Text) (doc : Object) : Except Error Outcome :=
  if value.hasReservedKey then .error .reservedKey
  else .ok (.done (updateSchema options.coreUrns (doc.modifyAt (writer change · n value) c) u))

variable {c : List Text}

theorem run_ofAttribute (hchange : change ≠ .remove) (hv : IsContent value)
    (hroot : Path.targetRoot options.coreUrns (some u) doc true = (.ok (some c), doc')) :
    run options change (some (.ofAttribute u n)) value doc =
      written options change u n value c doc' := by
  have hwrite : applyChange options ⟨change, some (.ofAttribute u n), some value⟩ doc =
      .done (doc'.modifyAt (writer change · n value) c) := by
    refine applyChange_field hchange rfl hv ?_
    simp only [target, Path.target, Path.ofAttribute, hroot]
    rfl
  rw [run_eq hchange (by simp [Path.ofAttribute, Path.isRoot]) (by simp [Path.ofAttribute]) hv.void,
    apply, hwrite]
  rfl

theorem run_schemaPath (hchange : change ≠ .remove) (hn : n.isUrn = false)
    (hname : n ≠ reservedName)
    (hroot : Path.targetRoot options.coreUrns (some u) doc true = (.ok (some c), doc')) :
    run options change (some ⟨some u, []⟩) (under n value) doc =
      written options change u n value c doc' := by
  have hwrite : applyChange options ⟨change, some ⟨some u, []⟩, some (under n value)⟩ doc =
      .done (doc'.modifyAt (writer change · n value) c) := by
    rw [← writeMembers_singleton options.coreUrns _ hn]
    refine applyChange_root hchange rfl (isContent_under n value) ?_
    simp only [target, Path.target, hroot]
  rw [run_eq hchange (by simp [Path.isRoot]) (by simp) (isContent_under n value).void,
    hasReservedKey_under hname, apply, hwrite]
  rfl

/-- Without a path an object under the URN is written to the top level, as an attribute of a core
schema or as a value of the extension. -/
theorem applyChange_underUrn (hchange : change ≠ .remove) :
    applyChange options ⟨change, none, some (under u (under n value))⟩ doc =
      .done (writeTopLevel options.coreUrns (writer change) [(u, under n value)] doc) := by
  have htarget : target options.coreUrns ⟨change, none, some (under u (under n value))⟩ doc true =
      (.ok (some (.root [])), doc) := rfl
  rw [applyChange_root hchange rfl (isContent_under u _) htarget]
  rfl

theorem run_underUrn (hchange : change ≠ .remove) (hu : u.isUrn) (hname : n ≠ reservedName)
    (hv : IsContent value) (hplace : Place options.coreUrns u doc c doc')
    (hcore : (doc.field? u).isSome → Schema.isCore options.coreUrns doc u = false) :
    run options change none (under u (under n value)) doc =
      written options change u n value c doc' := by
  have hu' := ne_reservedName_of_isUrn hu
  have hwrite : applyChange options ⟨change, none, some (under u (under n value))⟩ doc =
      .done (doc'.modifyAt (writer change · n value) c) := by
    rw [applyChange_underUrn hchange]
    exact congrArg Outcome.done (writeTopLevel_place change hplace hu hname hv hcore)
  have hurns : touchedUrns ⟨change, none, some (under u (under n value))⟩ = [u] :=
    List.filter_cons_of_pos hu
  rw [run_eq hchange (by simp) (by simp) (isContent_under u _).void, hasReservedKey_under hu',
    hasReservedKey_under hname, apply, hwrite, updateSchemas, hurns]
  rfl

/-- An object under the URN of a core schema stands for its members, even if there is an object
under that URN. -/
theorem run_underUrn_of_isCore (hchange : change ≠ .remove) (hu : u.isUrn)
    (hname : n ≠ reservedName) (hv : IsContent value)
    (hcore : Schema.isCore options.coreUrns doc u) (hlist : n.lower ≠ Schema.listName.lower) :
    run options change none (under u (under n value)) doc =
      run options change (some (.ofName n)) value doc := by
  have hu' := ne_reservedName_of_isUrn hu
  have hnested : applyChange options ⟨change, none, some (under u (under n value))⟩ doc =
      .done (writer change doc n value) := by
    rw [applyChange_underUrn hchange, writeTopLevel_under hu, if_pos hcore]
  have hplain : applyChange options ⟨change, some (.ofName n), some value⟩ doc =
      .done (writer change doc n value) := by
    have htarget : target options.coreUrns ⟨change, some (.ofName n), some value⟩ doc true =
        (.ok (some (.field [] n)), doc) := rfl
    rw [applyChange_field hchange rfl hv htarget]
    rfl
  have hurns : touchedUrns ⟨change, none, some (under u (under n value))⟩ = [u] :=
    List.filter_cons_of_pos hu
  -- What is core stays core, and nothing is left to do for it.
  have hcore' : Schema.isCore options.coreUrns (writer change doc n value) u :=
    (Path.isCore_of_changes (tame_writer change doc n value) (by simpa [eq_comm] using hlist)
      options.coreUrns u).trans hcore
  rw [run_eq hchange (by simp) (by simp) (isContent_under u _).void, hasReservedKey_under hu',
    hasReservedKey_under hname, run_eq hchange (by simp [Path.ofName, Path.isRoot])
    (by simp [Path.ofName]) hv.void, apply, apply, hnested, hplain, updateSchemas, hurns]
  have hsame : updateSchema options.coreUrns (writer change doc n value) u =
      writer change doc n value := if_pos hcore'
  simp only [List.foldl_cons, List.foldl_nil, Outcome.done, hsame]
  rfl

/-- The three ways to write an attribute of a schema agree, unless the schema is a core one and the
resource has an object under its URN. In that case a value under the URN is written to the top
level, and the others go into the object. What is accepted succeeds. -/
theorem run_addressing (options : PatchOptions) (change : Change) (u n : Text) (value : Json)
    (doc : Object) (hchange : change ≠ .remove) (hu : u.isUrn) (hn : n.isUrn = false)
    (hname : n ≠ reservedName) (hv : IsContent value) (hfield : ∀ w ∈ doc.field? u, w.isObject) :
    run options change (some ⟨some u, []⟩) (under n value) doc =
      run options change (some (.ofAttribute u n)) value doc ∧
    (((doc.field? u).isSome → Schema.isCore options.coreUrns doc u = false) →
      run options change none (under u (under n value)) doc =
        run options change (some (.ofAttribute u n)) value doc) ∧
    (Schema.isCore options.coreUrns doc u → n.lower ≠ Schema.listName.lower →
      run options change none (under u (under n value)) doc =
        run options change (some (.ofName n)) value doc) ∧
    (value.hasReservedKey = false →
      ∃ after, run options change (some (.ofAttribute u n)) value doc = .ok (.done after)) := by
  obtain ⟨c, doc', hroot, hplace⟩ := exists_place options.coreUrns hfield
  have hattribute : run options change (some (.ofAttribute u n)) value doc =
      written options change u n value c doc' := run_ofAttribute hchange hv hroot
  have hschema : run options change (some ⟨some u, []⟩) (under n value) doc =
      written options change u n value c doc' := run_schemaPath hchange hn hname hroot
  refine ⟨hschema.trans hattribute.symm, fun hcore => ?_,
    run_underUrn_of_isCore hchange hu hname hv, fun hreserved => ?_⟩
  · exact (run_underUrn hchange hu hname hv hplace hcore).trans hattribute.symm
  · rw [hattribute, written, hreserved]
    exact ⟨_, rfl⟩

/-- A resource with an extension that it does not list. -/
def unlisted : Object := ⟨[("urn:x:y", under "a" (.bool true))], false⟩

theorem run_addressing_unlisted :
    Operation.run .default .add (some ⟨some "urn:x:y", []⟩) (under "b" (.bool true)) unlisted =
      Operation.run .default .add (some (.ofAttribute "urn:x:y" "b")) (.bool true) unlisted ∧
    Operation.run .default .add none (under "urn:x:y" (under "b" (.bool true))) unlisted =
      Operation.run .default .add (some (.ofAttribute "urn:x:y" "b")) (.bool true) unlisted ∧
    Operation.run .default .add (some (.ofAttribute "urn:x:y" "b")) (.bool true) unlisted =
      .ok (.done ⟨[("urn:x:y", .ofMembers [("a", .bool true), ("b", .bool true)]),
        ("schemas", .arr [.str "urn:x:y"])], false⟩) := by
  have hfield : ∀ w ∈ unlisted.field? "urn:x:y", w.isObject := by
    rintro _ ⟨⟩
    rfl
  obtain ⟨hschema, hnested, -⟩ := run_addressing .default .add "urn:x:y" "b" (.bool true) unlisted
    (by decide) (by decide) (by decide) (by decide) ⟨rfl, rfl⟩ hfield
  exact ⟨hschema, hnested fun _ => rfl, rfl⟩

/-- A resource whose first schema has an object of its own. -/
def listedFirst : Object :=
  ⟨[("schemas", .arr [.str "urn:x:y"]), ("urn:x:y", under "a" (.bool true))], false⟩

/-- A new attribute at the top level, and inside the object of the schema. -/
def besideSchema : Object := listedFirst.add "b" (.bool true)

def insideSchema : Object :=
  listedFirst.overwrite "urn:x:y" (.ofMembers [("a", .bool true), ("b", .bool true)])

/-- The first schema of a list counts as core, and a value under its URN is written to the top level
although the schema has an object. -/
theorem run_underUrn_listedFirst :
    (listedFirst.Distinct ∧ ∀ w ∈ listedFirst.field? "urn:x:y", w.isObject) ∧
    Operation.run .default .add none (under "urn:x:y" (under "b" (.bool true))) listedFirst =
      .ok (.done besideSchema) ∧
    Operation.run .default .add (some (.ofAttribute "urn:x:y" "b")) (.bool true) listedFirst =
      .ok (.done insideSchema) ∧
    (Json.obj besideSchema).same (.obj insideSchema) = false := by
  refine ⟨⟨by decide, ?_⟩, rfl, rfl, rfl⟩
  rintro _ ⟨⟩
  rfl

end Operation

end Scim

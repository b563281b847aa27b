import Scim.Proofs.Patch.Addressing
import Scim.Proofs.Patch.Members
import Scim.Proofs.Patch.Settled
import Scim.Proofs.Path.Walk

/-!
# What was written is read

A value that an addition or a replacement writes along a path without filters is what the path then
leads to (`values_of_write`). The path leads on from its root as writing has gone (`Path.Walk`), and
the root is the one that was written to: the object of an extension is still there, as bookkeeping
drops none that holds an assigned value, and the root of a core schema is still the resource.

The last is so unless the write puts an object under the URN of the core schema itself, which is
where its attributes are read from then (`values_of_write_shadowed`); hence the conditions of
`Lasting`.
-/

namespace Scim

open Object

/-- Whether a value is a truth value, a number or a text. -/
def Json.isPrimitive : Json → Bool
  | .bool _ | .num _ | .str _ => true
  | _ => false

namespace Path

variable {p : Path}

/-! ### Where a path without filters leads to be written -/

theorem targetRoot_create (core : List Text) (urn : Option Text) (doc : Object) :
    (targetRoot core urn doc true).1 ≠ .ok none := by
  unfold targetRoot
  cases urn with
  | none => simp
  | some u =>
    dsimp only
    split
    · simp
    · split <;> simp

/-- A place to write is found, or there is an error. -/
theorem targetFrom_plain (hes : ∀ e ∈ p.elements, e.selector = none) (hne : p.elements ≠ [])
    (container : List Text) (doc : Object) :
    (∃ c doc', p.targetFrom true container doc =
        (.ok (some (.field c (p.elements.getLast hne).name)), doc') ∧
      targetContainer p true p.elements container doc = (.ok (some c), doc')) ∨
    ∃ e doc', p.targetFrom true container doc = (.error e, doc') := by
  obtain ⟨urn, elements⟩ := p
  obtain ⟨first, rest, rfl⟩ := List.exists_cons_of_ne_nil hne
  obtain ⟨hfirst, hrest⟩ := List.forall_mem_cons.mp hes
  have hlate : ¬ (rest.any fun e => e.selector.isSome) := by simpa using hrest
  unfold targetFrom
  dsimp only
  rw [if_neg hlate, hfirst]
  dsimp only
  have hsome := targetContainer_create ⟨urn, first :: rest⟩ (first :: rest) container doc
  generalize targetContainer ⟨urn, first :: rest⟩ true (first :: rest) container doc = reached
    at hsome ⊢
  obtain ⟨r, doc'⟩ := reached
  rcases r with e | _ | c
  · exact .inr ⟨e, doc', rfl⟩
  · exact absurd rfl hsome
  · exact .inl ⟨c, doc', rfl, rfl⟩

theorem target_create (hes : ∀ e ∈ p.elements, e.selector = none) (hne : p.elements ≠ [])
    (core : List Text) (doc : Object) : (p.target core doc true).1 ≠ .ok none := by
  have hfrom : ∀ container d, (p.targetFrom true container d).1 ≠ .ok none := by
    intro container d
    rcases targetFrom_plain hes hne container d with
      ⟨c, d', hc, -⟩ | ⟨e, d', he⟩
    · simp [hc]
    · simp [he]
  have hroot := targetRoot_create core p.schemaUrn doc
  unfold target
  generalize targetRoot core p.schemaUrn doc true = reached at hroot ⊢
  obtain ⟨r, d⟩ := reached
  rcases r with e | _ | c
  · simp
  · exact absurd rfl hroot
  · exact hfrom c d

end Path

namespace Operation

open Schema

variable {core container c : List Text} {options : PatchOptions} {change : Change} {p : Path}
  {doc doc' o root last : Object} {name : Text} {keys : List Text} {v : Json} {urn : Option Text}

/-! ### What one write leaves -/

/-- A primitive value, or any value in a free field, is set. -/
theorem writer_eq_setField (change : Change) (hassigned : v.isUnassigned = false)
    (h : v.isPrimitive = true ∨ o.field? name = none) :
    writer change o name v = o.setField name v := by
  have hreplace : o.replace name v = o.setField name v := by
    unfold Object.replace
    rw [hassigned]
    cases v with
    | obj inner =>
      rcases h with h | h
      · cases h
      · rw [h]
        rfl
    | _ => rfl
  have hmerge : o.merge name v = o.setField name v := by
    cases v with
    | null => cases hassigned
    | arr items =>
      cases items with
      | nil => cases hassigned
      | cons v rest =>
        rcases h with h | h
        · cases h
        · unfold Object.merge
          rw [h]
          rfl
    | obj inner =>
      rcases h with h | h
      · cases h
      · unfold Object.merge
        rw [h]
    | _ => rfl
  cases change with
  | replace => exact hreplace
  | _ => exact hmerge

/-- Such a write leaves the value in its field, and the other fields as they are. -/
theorem writer_sets (change : Change) (hname : name ≠ reservedName)
    (hassigned : v.isUnassigned = false) (h : v.isPrimitive = true ∨ o.field? name = none) :
    Changes [name] o (writer change o name v) ∧ (writer change o name v).field? name = some v := by
  rw [writer_eq_setField change hassigned h]
  exact ⟨.setField (by simp), field?_setField_of_takes (takes_of_ne hname) v⟩

/-! ### The place of a write -/

/-- The conditions under which a value stays where its path leads: no name on the way is one that
takes no member, the list of schemas is left alone, and no object gets to be stored under the URN of
a core schema. -/
structure Lasting (core : List Text) (doc : Object) (p : Path) (v : Json) : Prop where
  names : ∀ e ∈ p.elements, e.name ≠ reservedName
  list : ∀ u ∈ p.schemaUrn, ∀ e ∈ p.elements.head?, e.name.lower ≠ listName.lower
  urn : ∀ u ∈ p.schemaUrn, root? core doc u = none → u ≠ reservedName ∨ doc.hasField u
  root : ∀ u ∈ p.schemaUrn, isCore core doc u = true → extension? doc u = none →
    ∀ e ∈ p.elements.head?, e.name.lower = u.lower → p.elements.tail = [] ∧ v.object? = none

/-- A write along a path changes the field of an object which the path leads to from its root: what
it leads to is the root of its schema, in the resource `start` in which the root is created if it was
missing. -/
structure Reached (core : List Text) (doc : Object) (p : Path) (c : List Text) (name : Text)
    (doc' start root : Object) (container : List Text) (o : Object) (keys : List Text)
    (last : Object) : Prop where
  atRoot : rootOf? core start p.schemaUrn = some (container, root)
  walk : Path.Walk p.elements o keys last name
  modifyAt : ∀ f, doc'.modifyAt f c = start.modifyAt (fun _ => o.modifyAt f keys) container
  free : p.resolve core doc = [] → last.field? name = none
  created : start = doc ∨ ∃ key, container = [key]
  changes : ∀ e ∈ p.elements.head?, Changes [e.name] root o

theorem reached_of_target (hes : ∀ e ∈ p.elements, e.selector = none) (hne : p.elements ≠ [])
    (hlast : Lasting core doc p v) {r : Option Target}
    (htarget : p.target core doc true = (.ok r, doc')) :
    ∃ c name start root container o keys last, r = some (.field c name) ∧
      Reached core doc p c name doc' start root container o keys last := by
  have hfrom : ∀ start root container, rootOf? core start p.schemaUrn = some (container, root) →
      (p.resolve core doc = [] → Path.follow core p.elements [.obj root] = []) →
      (start = doc ∨ ∃ key, container = [key]) →
      p.targetFrom true container start = (.ok r, doc') →
      ∃ c name start root container o keys last, r = some (.field c name) ∧
        Reached core doc p c name doc' start root container o keys last := by
    intro start root container hroot hfree hcreated hplace
    rcases Path.targetFrom_plain hes hne container start with
      ⟨c, d, hc, hreach⟩ | ⟨e, d, he⟩
    · rw [hc] at hplace
      cases hplace
      obtain ⟨keys, o, last, name, hwalk, hmodify, hfollow, hchanges⟩ :=
        Path.walk_of_targetContainer hes hlast.names hne (Path.leadsTo_of_rootOf? hroot) hreach
      obtain rfl := hwalk.name_eq hne
      refine ⟨c, _, start, root, container, o, keys, last, rfl, hroot, hwalk, hmodify, ?_, hcreated,
        hchanges⟩
      intro hempty
      have hnil := hfollow.symm.trans (hfree hempty)
      exact Option.toList_eq_nil_iff.mp hnil
    · rw [he] at hplace
      cases hplace
  rcases Path.target_cases core p doc true with
    ⟨container, root, hroot, heq⟩ | ⟨r', heq, hr⟩ | ⟨u, hu, hnone, -, heq⟩
  · refine hfrom doc root container hroot (fun hempty => ?_) (.inl rfl) (heq.symm.trans htarget)
    rw [Path.resolve, hroot] at hempty
    dsimp only at hempty
    rw [if_neg (by simpa using hne)] at hempty
    rw [← Path.map_value_resolveFrom hes hne (container.map .key), hempty]
    rfl
  · have hsome := Path.target_create hes hne core doc
    rw [htarget] at hsome
    obtain rfl : r' = .ok r := congrArg Prod.fst (heq.symm.trans htarget)
    cases r with
    | none => exact absurd rfl hsome
    | some t => exact absurd rfl (hr t)
  · -- the new object is there, and nothing is in it
    obtain ⟨key, hkey, hget, hnew⟩ := (LeadsTo.here doc).createObject
      ((hlast.urn u hu hnone).imp_right .inl)
    rw [hnew] at heq
    have hext : extension? (doc.setField u (.obj empty)) u = some (key, empty) :=
      Path.extension?_eq_some_iff.mpr ⟨hkey, hget⟩
    have hroot : rootOf? core (doc.setField u (.obj empty)) p.schemaUrn = some ([key], empty) := by
      rw [hu]
      show root? core _ u = _
      unfold root?
      rw [hext]
    refine hfrom _ empty [key] hroot (fun _ => ?_) (.inr ⟨key, rfl⟩) (heq.symm.trans htarget)
    obtain ⟨⟨n, selector⟩, rest, hp⟩ := List.exists_cons_of_ne_nil hne
    rw [hp] at hes ⊢
    obtain rfl : selector = none := hes _ (List.mem_cons_self ..)
    rw [Path.follow_field]
    rfl

/-! ### The root afterwards -/

section Root

variable {start : Object} {f : Object → Object}

/-- The root of the schema is what the write has made of it. -/
theorem Reached.rootOf? (h : Reached core doc p c name doc' start root container o keys last)
    (hne : p.elements ≠ []) (hdoc : doc.Distinct) (hlast : Lasting core doc p v)
    (hf : Changes [name] last (f last)) (hv : (f last).field? name = some v) :
    Schema.rootOf? core (doc'.modifyAt f c) p.schemaUrn = some (container, o.modifyAt f keys) := by
  rw [h.modifyAt]
  rcases Path.rootOf?_cases h.atRoot with ⟨rfl, rfl⟩ | ⟨u, key, -, rfl, -, -⟩
  · obtain rfl : root = doc := by
      rcases h.created with hsame | ⟨key, hkey⟩
      · exact hsame
      · cases hkey
    cases hurn : p.schemaUrn with
    | none => rfl
    | some u =>
      obtain ⟨e, rest, hp⟩ := List.exists_cons_of_ne_nil hne
      have hhead : e ∈ p.elements.head? := by rw [hp]; rfl
      have hwalk := h.walk
      have hroot := h.atRoot
      rw [hp] at hwalk
      rw [hurn] at hroot
      have hchange : Changes [e.name] root (o.modifyAt f keys) :=
        (h.changes e hhead).trans (hwalk.changes hf)
      obtain ⟨hext, hcore, -⟩ := root?_eq_here_iff.mp hroot
      have hcore' : isCore core (o.modifyAt f keys) u = true := by
        rw [Path.isCore_of_changes hchange ?_, hcore]
        simpa [eq_comm] using hlast.list u hurn e hhead
      have hext' : extension? (o.modifyAt f keys) u = none := by
        rw [Path.extension?_eq_none_iff] at hext ⊢
        by_cases hname : e.name.lower = u.lower
        · -- the only element names a value that is no object
          obtain ⟨htail, hobject⟩ := hlast.root u hurn hcore
            (Path.extension?_eq_none_iff.mpr hext) e hhead hname
          obtain rfl : rest = [] := by rwa [hp] at htail
          cases hwalk with
          | last =>
            intro x hx
            have hunamb : Unambiguous u (f o) := (hchange.distinct hdoc).unambiguous u
            rw [modifyAt_nil, ← hunamb.field?_congr hname, hv] at hx
            cases hx
            cases hobject
        · rwa [hchange.field? (by simpa [eq_comm] using hname)]
      exact root?_eq_here_iff.mpr ⟨hext', hcore', rfl⟩
  · exact (rootOf?_modifyAt_extension h.atRoot _).2

/-- Bookkeeping keeps the root: it is that of a core schema, or holds an assigned value. -/
theorem rootOf?_bookkept {e : PathElement} (hdoc : doc.Distinct)
    (hroot : Schema.rootOf? core doc urn = some (container, root)) {w : Json}
    (hw : root.field? e.name = some w) (hassigned : w.isUnassigned = false) :
    Schema.rootOf? core (urn.toList.foldl (updateSchema core) doc) urn =
      some (container, root) := by
  cases urn with
  | none => exact hroot
  | some u =>
    refine root?_updateSchema_of_assigned hdoc hroot ?_
    rcases Path.rootOf?_cases hroot with ⟨rfl, -⟩ | ⟨u', key, hu, rfl, hkey, hget⟩
    · exact .inl (root?_eq_here_iff.mp hroot).2.1
    · right
      cases hu
      have hfield : doc.field? u = some (.obj root) := field?_of_get? hkey hget
      obtain ⟨key', -, hget'⟩ := get?_of_field? hw
      rw [hfield]
      show (Object.values root).any (fun v => !v.isUnassigned) = true
      refine List.any_eq_true.mpr ⟨w, List.mem_map_of_mem (mem_of_get? hget'), ?_⟩
      simp [hassigned]

/-- After the write and bookkeeping the path leads to the value. -/
theorem Reached.values (h : Reached core doc p c name doc' start root container o keys last)
    (hes : ∀ e ∈ p.elements, e.selector = none) (hne : p.elements ≠ []) (hdoc : doc.Distinct)
    (hdoc' : (doc'.modifyAt f c).Distinct) (hlast : Lasting core doc p v)
    (hf : Changes [name] last (f last)) (hv : (f last).field? name = some v)
    (hassigned : v.isUnassigned = false) :
    p.values core (p.schemaUrn.toList.foldl (updateSchema core) (doc'.modifyAt f c)) = [v] := by
  have hwalk := h.walk.modifyAt f
  obtain ⟨w, hw, hwassigned⟩ : ∃ w,
      (o.modifyAt f keys).field? (p.elements.head hne).name = some w ∧ w.isUnassigned = false := by
    rw [← List.cons_head_tail hne] at hwalk
    exact hwalk.assigned hv hassigned
  have hroot := h.rootOf? hne hdoc hlast hf hv
  rw [Path.values, Path.resolve, rootOf?_bookkept hdoc' hroot hw hwassigned]
  dsimp only
  rw [if_neg (by simpa using hne), Path.map_value_resolveFrom hes hne, hwalk.follow hes, hv]
  rfl

end Root

/-! ### The value afterwards -/

theorem applyChange_failed_target {e : Error} (hchange : change ≠ .remove) (hcontent : IsContent v)
    (htarget : p.target options.coreUrns doc true = (.error e, doc')) :
    applyChange options ⟨change, some p, some v⟩ doc = .failed e doc' := by
  have htarget' : target options.coreUrns ⟨change, some p, some v⟩ doc true = (.error e, doc') :=
    htarget
  unfold applyChange
  cases change with
  | add =>
    simp only [applyAdd, given?_of_content hcontent, htarget']
    cases v with
    | arr items =>
      cases items with
      | nil => cases hcontent.assigned
      | cons w rest => rfl
    | _ => rfl
  | replace =>
    simp only [applyReplace, given?_of_content hcontent, hcontent.assigned, Bool.not_false, htarget']
  | remove => exact absurd rfl hchange

/-- A value that an accepted addition or replacement along a path without filters has written is the
one that the path leads to, if it is a primitive one or the path led nowhere before. -/
theorem values_of_write (options : PatchOptions) (doc : Object) (hdoc : (Json.obj doc).Unambiguous)
    (change : Change) (hchange : change ≠ .remove) (p : Path) (hne : p.elements ≠ [])
    (hes : ∀ e ∈ p.elements, e.selector = none) (v : Json) (op : Operation)
    (hmake : make change (some p) (some v) = .ok op) (hlast : Lasting options.coreUrns doc p v)
    (after : Object) (happly : op.apply options doc = .done after)
    (hv : v.isPrimitive = true ∨
      v.isUnassigned = false ∧ p.resolve options.coreUrns doc = []) :
    p.values options.coreUrns after = [v] := by
  obtain ⟨rfl, -⟩ := eq_of_make hne hmake
  have hassigned : v.isUnassigned = false := by
    rcases hv with hv | hv
    · cases v <;> first | rfl | cases hv
    · exact hv.1
  have hcontent : IsContent v := ⟨hassigned, isVoid_of_make hchange hmake⟩
  cases htarget : p.target options.coreUrns doc true with
  | mk r doc' =>
  cases r with
  | error e =>
    have hfail := applyChange_failed_target hchange hcontent htarget
    have hresult := congrArg Outcome.result happly
    unfold apply at hresult
    rw [hfail] at hresult
    cases hresult
  | ok r =>
    obtain ⟨c, name, start, root, container, o, keys, last, rfl, hreached⟩ :=
      reached_of_target hes hne hlast htarget
    have hdone : applyChange options ⟨change, some p, some v⟩ doc =
        .done (doc'.modifyAt (writer change · name v) c) :=
      applyChange_field hchange rfl hcontent htarget
    have hafter : p.schemaUrn.toList.foldl (updateSchema options.coreUrns)
        (doc'.modifyAt (writer change · name v) c) = after := by
      have hresource := congrArg Outcome.resource happly
      unfold apply at hresource
      rw [hdone] at hresource
      exact hresource
    have hname : name ≠ reservedName := by
      rw [hreached.walk.name_eq hne]
      exact hlast.names _ (List.getLast_mem hne)
    obtain ⟨hchanges, hfield⟩ :=
      writer_sets change hname hassigned (hv.imp id fun h => hreached.free h.2)
    have hdistinct : (doc'.modifyAt (writer change · name v) c).Distinct := by
      have hchanged := (applyChange_changes options ⟨change, some p, some v⟩ doc).distinct
      rw [hdone] at hchanged
      exact hchanged hdoc.distinct
    rw [← hafter]
    exact hreached.values hes hne hdoc.distinct hdistinct hlast hchanges hfield hassigned

/-- A resource with a core schema, and nothing yet under the URN of an extension. -/
def unextended : Object :=
  ⟨[("schemas", .arr [.str "urn:a:b"]), ("URN:X:Y", .null)], false⟩

def nickNames : Path := ⟨some "urn:x:y", [⟨"name", none⟩, ⟨"nick", none⟩]⟩

/-- The objects on the way are created, and the extension is listed. -/
theorem values_of_write_unextended :
    (Json.obj unextended).Unambiguous ∧ Change.add ≠ .remove ∧ nickNames.elements ≠ [] ∧
    (∀ e ∈ nickNames.elements, e.selector = none) ∧
    make .add (some nickNames) (some (.arr [.str "a", .null])) =
      .ok ⟨.add, some nickNames, some (.arr [.str "a", .null])⟩ ∧
    Lasting PatchOptions.default.coreUrns unextended nickNames (.arr [.str "a", .null]) ∧
    apply .default ⟨.add, some nickNames, some (.arr [.str "a", .null])⟩ unextended =
      .done ⟨[("schemas", .arr [.str "urn:a:b", .str "URN:X:Y"]),
        ("URN:X:Y", .ofMembers [("name", .ofMembers [("nick", .arr [.str "a", .null])])])], false⟩ ∧
    nickNames.resolve PatchOptions.default.coreUrns unextended = [] ∧
    nickNames.values PatchOptions.default.coreUrns
      ⟨[("schemas", .arr [.str "urn:a:b", .str "URN:X:Y"]),
        ("URN:X:Y", .ofMembers [("name", .ofMembers [("nick", .arr [.str "a", .null])])])], false⟩ =
      [.arr [.str "a", .null]] := by
  have hdoc : (Json.obj unextended).Unambiguous := Json.throughout_of_everywhere _ (by decide)
  have hes : ∀ e ∈ nickNames.elements, e.selector = none := by simp [nickNames]
  have hmake : make .add (some nickNames) (some (.arr [.str "a", .null])) =
      .ok ⟨.add, some nickNames, some (.arr [.str "a", .null])⟩ := rfl
  have hlast : Lasting PatchOptions.default.coreUrns unextended nickNames
      (.arr [.str "a", .null]) := by
    refine ⟨by decide, ?_, ?_, ?_⟩
    · rintro _ ⟨⟩ _ ⟨⟩
      decide
    · rintro _ ⟨⟩ -
      exact .inl (by decide)
    · rintro _ ⟨⟩ hcore
      exact absurd hcore (by decide)
  have happly : apply .default ⟨.add, some nickNames, some (.arr [.str "a", .null])⟩ unextended =
      .done ⟨[("schemas", .arr [.str "urn:a:b", .str "URN:X:Y"]),
        ("URN:X:Y", .ofMembers [("name", .ofMembers [("nick", .arr [.str "a", .null])])])],
        false⟩ := rfl
  have hempty : nickNames.resolve PatchOptions.default.coreUrns unextended = [] := rfl
  have hne : nickNames.elements ≠ [] := by decide
  exact ⟨hdoc, by decide, hne, hes, hmake, hlast, happly, hempty,
    values_of_write .default unextended hdoc .add (by decide) nickNames hne hes _ _ hmake hlast _
      happly (.inr ⟨rfl, hempty⟩)⟩

/-- A resource whose first schema has a URN that can also be the name of an attribute. -/
def shadowed : Object := ⟨[("schemas", .arr [.str "urn"])], false⟩

def underUrn : Path := ⟨some "urn", [⟨"urn", none⟩, ⟨"b", none⟩]⟩

/-- An object that is written under the URN of a core schema is where its attributes are read from. -/
theorem values_of_write_shadowed :
    (Json.obj shadowed).Unambiguous ∧ underUrn.elements ≠ [] ∧
    (∀ e ∈ underUrn.elements, e.selector = none) ∧
    (∀ e ∈ underUrn.elements, e.name ≠ reservedName) ∧
    (∀ e ∈ underUrn.elements.head?, e.name.lower ≠ listName.lower) ∧
    make .replace (some underUrn) (some (.bool true)) =
      .ok ⟨.replace, some underUrn, some (.bool true)⟩ ∧
    apply .default ⟨.replace, some underUrn, some (.bool true)⟩ shadowed =
      .done ⟨[("schemas", .arr [.str "urn"]), ("urn", .ofMembers [("b", .bool true)])], false⟩ ∧
    underUrn.values PatchOptions.default.coreUrns
      ⟨[("schemas", .arr [.str "urn"]), ("urn", .ofMembers [("b", .bool true)])], false⟩ ≠
        [.bool true] := by
  have hnone : underUrn.values PatchOptions.default.coreUrns
      ⟨[("schemas", .arr [.str "urn"]), ("urn", .ofMembers [("b", .bool true)])], false⟩ = [] := rfl
  refine ⟨Json.throughout_of_everywhere _ (by decide), by decide, by simp [underUrn],
    by decide, ?_, rfl, rfl, ?_⟩
  · rintro _ ⟨⟩
    decide
  · rw [hnone]
    exact (List.cons_ne_nil _ _).symm

end Operation

end Scim

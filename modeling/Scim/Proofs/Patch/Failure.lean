import Scim.Proofs.Patch.Accepted
import Scim.Proofs.Patch.Members

/-!
# Failing operations

An accepted operation that fails changes nothing but the object of its schema, if it is not a core
one (`apply_failed`): it may have created that object, and bookkeeping, which is done after a
failure too, may remove the object or list the schema. So a run that stops at such an operation
leaves what the operations before it made (`applyAll_failed`).

Members to remove are the exception (`Operation.SettlesMembers`): they are removed one after the
other, and a later removal may meet a second field of their name.
-/

namespace Scim

open Object

namespace Operation

variable {core names : List Text} {doc doc' : Object} {op : Operation} {urn : Option Text}
  {name : Text} {container : List Text} {e : Error}

/-! ### Adding and replacing -/

/-- The schema that the path of an operation addresses. -/
def schemaUrn? (op : Operation) : Option Text := op.path.bind (·.schemaUrn)

theorem writeRoot_failed {change : Change} {write : Write} {value : Json}
    (h : writeRoot core change write container value doc = .failed e doc') : doc' = doc := by
  unfold writeRoot at h
  split at h <;> cases h
  rfl

theorem addToSelection_failed {path : Option Path} {filter : Filter} {items : Option (List Json)}
    {subs : List Text} {value : Json}
    (h : addToSelection core path container name filter items subs value doc = .failed e doc') :
    doc' = doc := by
  unfold addToSelection at h
  split at h
  · dsimp only at h
    split_ifs at h
    · cases h
    · split at h <;> cases h
      rfl
  · cases h
    rfl

theorem target_failed (hlate : ∀ p ∈ op.path, ∀ e ∈ p.elements.tail, e.selector = none)
    {create : Bool} (h : op.target core doc create = (.error e, doc')) : doc' = doc := by
  unfold target at h
  split at h
  · rename_i p hp
    exact Path.target_error (hlate p hp) h
  · cases h

/-- On the way to a place that is no field no more is created than a root. -/
theorem target_whole {t : Target} {create : Bool}
    (h : op.target core doc create = (.ok (some t), doc')) (ht : ∀ c name, t ≠ .field c name) :
    Path.Rooted core op.schemaUrn? doc doc' := by
  unfold target at h
  unfold schemaUrn?
  split at h
  · rename_i p hp
    rw [hp]
    exact Path.target_whole h ht
  · cases h
    exact .same

theorem applyAdd_failed (hlate : ∀ p ∈ op.path, ∀ e ∈ p.elements.tail, e.selector = none)
    (h : op.applyAdd core doc = .failed e doc') : Path.Rooted core op.schemaUrn? doc doc' := by
  unfold applyAdd at h
  split at h
  · cases h
    exact .same
  · cases h
  split at h
  · rename_i htarget
    cases h
    rw [target_failed hlate htarget]
    exact .same
  · cases h
  · rename_i htarget
    rw [writeRoot_failed h]
    exact target_whole htarget nofun
  · cases h
  · rename_i htarget
    rw [addToSelection_failed h]
    exact target_whole htarget nofun

theorem applyReplace_failed (hlate : ∀ p ∈ op.path, ∀ e ∈ p.elements.tail, e.selector = none)
    (h : op.applyReplace core doc = .failed e doc') : Path.Rooted core op.schemaUrn? doc doc' := by
  unfold applyReplace at h
  split at h
  · cases h
    exact .same
  split at h
  · rename_i htarget
    cases h
    rw [target_failed hlate htarget]
    exact .same
  · cases h
  · rename_i htarget
    rw [writeRoot_failed h]
    exact target_whole htarget nofun
  · cases h
  · cases h
  · cases h

/-! ### Removing -/

theorem removePath_failed {p : Path} (hlate : ∀ e ∈ p.elements.tail, e.selector = none)
    (h : removePath core p doc = .failed e doc') : doc' = doc := by
  unfold removePath at h
  split at h
  · split at h
    · cases h
      rfl
    · split_ifs at h <;> cases h
      rfl
  · split_ifs at h
    · split at h <;> cases h
    · split at h
      · rename_i htarget
        cases h
        exact Path.target_error hlate htarget
      · cases h
      · cases h

/-- The members that the operation removes by value are in the only field of their name, unless they
are in the object of an extension, which may change in any way. -/
def SettlesMembers (core : List Text) (op : Operation) (doc : Object) : Prop :=
  op.removesByValue → ∀ c root, Schema.rootOf? core doc op.schemaUrn? = some (c, root) →
    (c = [] ∨ ∃ u ∈ op.schemaUrn?, u.lower ∈ core.map Text.lower) → root.Unambiguous membersName

/-- What a failing operation may have changed: nothing, or the field of a schema that is not among
the core ones. -/
inductive Confined (core : List Text) (urn : Option Text) (doc : Object) : Object → Prop
  | same : Confined core urn doc doc
  | field {u : Text} {doc' : Object} (hurn : urn = some u) (hcore : u.lower ∉ core.map Text.lower)
    (hkeeps : Keeps (· != doc.storedName u) doc doc')
    (hname : doc'.storedName u = doc.storedName u)
    (hlist : doc'.storedName Schema.listName ∈ [doc.storedName u, doc.storedName Schema.listName]) :
    Confined core urn doc doc'

theorem not_mem_of_root?_eq_none {u : Text} (h : Schema.root? core doc u = none) :
    u.lower ∉ core.map Text.lower := by
  intro hmem
  unfold Schema.root? at h
  split at h
  · cases h
  · rw [Schema.isCore_of_mem hmem] at h
    cases h

theorem Confined.of_rooted (h : Path.Rooted core urn doc doc') : Confined core urn doc doc' := by
  cases h with
  | same => exact .same
  | new hurn hroot =>
    exact .field hurn (not_mem_of_root?_eq_none hroot) (.setField (by simp))
      (doc.storedName_setField ..) (doc.storedName_setField_mem ..)

theorem removeMembers_confined {ids : List Text} (hname : name.lower = membersName.lower)
    (hone : ∀ c root, Schema.rootOf? core doc urn = some (c, root) →
      (c = [] ∨ ∃ u ∈ urn, u.lower ∈ core.map Text.lower) → root.Unambiguous membersName)
    (h : removeMembers core urn name ids doc = .failed e doc') : Confined core urn doc doc' := by
  have hlist : name.lower ≠ Schema.listName.lower := by
    rw [hname]
    decide
  -- Only the object of a schema that is not a core one may be left half done.
  by_cases hext : ∃ u key root, urn = some u ∧ u.lower ∉ core.map Text.lower ∧
      doc.findKey? u = some key ∧ Schema.rootOf? core doc urn = some ([key], root)
  · obtain ⟨u, key, root, hurn, hcore, hkey, hroot⟩ := hext
    obtain ⟨hkeeps, hkeys⟩ := removeMembers_extension name ids hroot
    rw [h] at hkeeps hkeys
    refine .field hurn hcore ?_ (storedName_congr hkeys u) ?_
    · rwa [storedName_of_findKey? hkey]
    · exact List.mem_cons_of_mem _ (List.mem_singleton.mpr (storedName_congr hkeys _))
  · have hdoc : doc' = doc := by
      refine removeMembers_failed h hlist fun c root hroot => ?_
      have hmembers : root.Unambiguous membersName := by
        refine hone c root hroot ?_
        rcases Path.rootOf?_cases hroot with ⟨hnil, -⟩ | ⟨u, key, hurn, rfl, hkey, -⟩
        · exact .inl hnil
        · refine .inr ⟨u, hurn, ?_⟩
          by_contra hcore
          exact hext ⟨u, key, root, hurn, hcore, hkey, hroot⟩
      intro k hk k' hk'
      rw [hname]
      exact hmembers k hk k' hk'
    rw [hdoc]
    exact .same

/-- A removal that fails has changed nothing, or it has removed some of the members it lists. -/
theorem applyRemove_failed_cases {options : PatchOptions}
    (hlate : ∀ p ∈ op.path, ∀ e ∈ p.elements.tail, e.selector = none)
    (htakes : op.removesByValue → ∀ p ∈ op.path, takesMembers p)
    (h : op.applyRemove options doc = .failed e doc') :
    doc' = doc ∨ op.removesByValue ∧ ∃ name ids, name.lower = membersName.lower ∧
      removeMembers options.coreUrns op.schemaUrn? name ids doc = .failed e doc' := by
  unfold applyRemove at h
  split at h
  · cases h
    exact .inl rfl
  · rename_i p hp
    split_ifs at h with hvalue hby
    · exact .inl (removePath_failed (hlate p hp) h)
    · cases h
      exact .inl rfl
    · split at h
      · cases h
        exact .inl rfl
      · cases h
        exact .inl rfl
      · rename_i ids first rest hids hes
        have hvalue : op.removesByValue := by simpa using hvalue
        have hurn : op.schemaUrn? = p.schemaUrn := by rw [schemaUrn?, hp, Option.bind_some]
        have hname : first.name.lower = membersName.lower := by
          have htakes := htakes hvalue p hp
          rw [takesMembers, hes] at htakes
          split at htakes
          · rename_i heq
            cases heq
            exact eq_of_beq htakes
          · cases htakes
        exact .inr ⟨hvalue, first.name, ids, hname, hurn ▸ h⟩

theorem applyRemove_failed {options : PatchOptions}
    (hlate : ∀ p ∈ op.path, ∀ e ∈ p.elements.tail, e.selector = none)
    (htakes : op.removesByValue → ∀ p ∈ op.path, takesMembers p)
    (hone : op.SettlesMembers options.coreUrns doc)
    (h : op.applyRemove options doc = .failed e doc') :
    Confined options.coreUrns op.schemaUrn? doc doc' := by
  rcases applyRemove_failed_cases hlate htakes h with rfl | ⟨hvalue, name, ids, hname, hfail⟩
  · exact .same
  · exact removeMembers_confined hname (hone hvalue) hfail

/-! ### All of it -/

theorem applyChange_failed {options : PatchOptions} {change : Change} {path : Option Path}
    {value : Option Json} (hmake : make change path value = .ok op)
    (hone : op.SettlesMembers options.coreUrns doc)
    (h : op.applyChange options doc = .failed e doc') :
    Confined options.coreUrns op.schemaUrn? doc doc' := by
  have hlate := selector_of_make hmake
  unfold applyChange at h
  cases hchange : op.change with
  | add =>
    rw [hchange] at h
    exact .of_rooted (applyAdd_failed hlate h)
  | replace =>
    rw [hchange] at h
    exact .of_rooted (applyReplace_failed hlate h)
  | remove =>
    rw [hchange] at h
    exact applyRemove_failed hlate (takesMembers_of_make hmake) hone h

/-- Whether a text is neither the stored name of a schema nor that of the list of schemas. -/
def isApart (doc : Object) (u : Text) (k : Text) : Bool :=
  k != doc.storedName u && k != doc.storedName Schema.listName

theorem updateSchema_keeps (core : List Text) (doc : Object) (u : Text) :
    Keeps (isApart doc u) doc (updateSchema core doc u) := by
  have hurn : isApart doc u (doc.storedName u) = false := by simp [isApart]
  have hlist : isApart doc u (doc.storedName Schema.listName) = false := by simp [isApart]
  unfold updateSchema
  dsimp only
  split_ifs
  · exact .refl doc
  · split
    · split_ifs
      · exact .refl doc
      · exact .overwrite hlist
    · exact .setField hlist
    · exact .refl doc
    · split_ifs
      · exact .trans (.removeField hurn) (.overwrite hlist)
      · exact .removeField hurn
    · exact .removeField hurn

/-- Without a path an object is written in any case, so that a failing operation concerns no schema
but the one of its path. -/
theorem touchedUrns_of_failed {options : PatchOptions} {change : Change} {path : Option Path}
    {value : Option Json} (hmake : make change path value = .ok op)
    (h : op.applyChange options doc = .failed e doc') : op.touchedUrns = op.schemaUrn?.toList := by
  unfold touchedUrns schemaUrn?
  split
  · rename_i p hpath
    rw [hpath, Option.bind_some]
  · rename_i o hpath hvalue
    have hchange : op.change ≠ .remove := by
      intro hremove
      obtain ⟨hop, hcheck⟩ := make_eq_ok_iff.mp hmake
      have hcheck := (check_eq_ok_iff.mp hcheck).2.2.1
      rw [hpath, show change = .remove by rw [← hremove, hop]] at hcheck
      cases hcheck
    unfold applyChange at h
    -- Writing at the top level does not fail.
    cases hkind : op.change with
    | add => simp [hkind, applyAdd, hvalue, given?, target, hpath, writeRoot] at h; cases h
    | replace => simp [hkind, applyReplace, hvalue, given?, target, hpath, writeRoot] at h; cases h
    | remove => exact absurd hkind hchange
  · rename_i hpath _
    rw [hpath]
    rfl

/-- After a failing change the schema of the path is bookkept, and no other. -/
theorem exists_of_apply_failed {options : PatchOptions} {change : Change} {path : Option Path}
    {value : Option Json} (hmake : make change path value = .ok op)
    (h : (op.apply options doc).result = .error e) :
    ∃ doc', op.applyChange options doc = .failed e doc' ∧ (op.apply options doc).resource =
      op.schemaUrn?.toList.foldl (updateSchema options.coreUrns) doc' := by
  have hfail : op.applyChange options doc = .failed e (op.applyChange options doc).resource :=
    congrArg (Outcome.mk · _) h
  refine ⟨_, hfail, ?_⟩
  unfold apply updateSchemas
  rw [touchedUrns_of_failed hmake hfail]

/-- What is left of a failing operation: nothing if its path names no schema, or a core one; and
otherwise no more than the field of the schema and the list of schemas show. -/
theorem apply_failed {options : PatchOptions} {change : Change} {path : Option Path}
    {value : Option Json} (hmake : make change path value = .ok op)
    (hone : op.SettlesMembers options.coreUrns doc)
    (h : (op.apply options doc).result = .error e) :
    (op.schemaUrn? = none → (op.apply options doc).resource = doc) ∧
    ∀ u, op.schemaUrn? = some u → Keeps (isApart doc u) doc (op.apply options doc).resource ∧
      (u.lower ∈ options.coreUrns.map Text.lower → (op.apply options doc).resource = doc) := by
  obtain ⟨doc', hfail, hresource⟩ := exists_of_apply_failed hmake h
  have hconfined := applyChange_failed hmake hone hfail
  rw [hresource]
  constructor
  · intro hnone
    rw [hnone] at hconfined ⊢
    cases hconfined with
    | same => rfl
    | field hurn => cases hurn
  intro u hu
  rw [hu] at hconfined ⊢
  change Keeps (isApart doc u) doc (updateSchema options.coreUrns doc' u) ∧
    (_ → updateSchema options.coreUrns doc' u = doc)
  cases hconfined with
  | same =>
    -- Bookkeeping runs after a failure too, but leaves a core schema alone.
    refine ⟨updateSchema_keeps .., fun hcore => ?_⟩
    exact if_pos (Schema.isCore_of_mem hcore doc)
  | field hurn hcore hkeeps hname hlist =>
    cases hurn
    refine ⟨.trans (hkeeps.mono ?_) ((updateSchema_keeps _ doc' u).mono ?_),
      fun h => absurd h hcore⟩
    · intro k hk
      exact (Bool.and_eq_true_iff.mp hk).1
    · intro k hk
      unfold isApart at hk ⊢
      rw [hname]
      simp only [List.mem_cons, List.not_mem_nil, or_false] at hlist
      rcases hlist with h | h <;> rw [h] <;> simp_all

/-- A run stops at its first failing operation, and that leaves what the operations before it have
made, but for the schema of its path if that is not a core one. -/
theorem applyAll_failed {options : PatchOptions} {change : Change} {path : Option Path}
    {value : Option Json} {before : List Operation} (after : List Operation) {start : Object}
    (hbefore : applyAll options before start = .done doc) (hmake : make change path value = .ok op)
    (hone : op.SettlesMembers options.coreUrns doc)
    (h : (op.apply options doc).result = .error e) :
    (applyAll options (before ++ op :: after) start).result = .error e ∧
    (op.schemaUrn? = none → (applyAll options (before ++ op :: after) start).resource = doc) ∧
    ∀ u, op.schemaUrn? = some u →
      Keeps (isApart doc u) doc (applyAll options (before ++ op :: after) start).resource ∧
      (u.lower ∈ options.coreUrns.map Text.lower →
        (applyAll options (before ++ op :: after) start).resource = doc) := by
  have hstop : applyAll options (before ++ op :: after) start = op.apply options doc := by
    rw [applyAll_append, hbefore, Outcome.andThen_done, applyAll, Outcome.andThen, h]
  rw [hstop]
  exact ⟨h, apply_failed hmake hone h⟩

/-- A removal of two members by value. -/
def removeTwo : Operation :=
  ⟨.remove, some (.ofName "members"),
    some (.arr [.ofMembers [("value", .str "1")], .ofMembers [("value", .str "2")]])⟩

def addText : Operation := ⟨.add, some (.ofName "members"), some (.str "x")⟩

def textMembers : Object := ⟨[("members", .str "x")], false⟩

/-- Where the members are no list, nothing is removed. -/
theorem applyAll_failed_textMembers :
    applyAll .default [addText] empty = .done textMembers ∧
    make .remove removeTwo.path removeTwo.value = .ok removeTwo ∧
    removeTwo.SettlesMembers PatchOptions.default.coreUrns textMembers ∧
    (removeTwo.apply .default textMembers).result = .error (.selectorOnSingleValue "members") ∧
    (applyAll .default ([addText] ++ removeTwo :: [addText]) empty).resource = textMembers := by
  have hbefore : applyAll .default [addText] empty = .done textMembers := rfl
  have hmake : make .remove removeTwo.path removeTwo.value = .ok removeTwo := rfl
  have hone : removeTwo.SettlesMembers PatchOptions.default.coreUrns textMembers := by
    rintro - c root ⟨⟩ - k hk k' hk' - -
    have hkeys : ∀ k ∈ textMembers.keys, k = "members" := by simp [textMembers, keys]
    rw [hkeys k hk, hkeys k' hk']
  have hfail : (removeTwo.apply .default textMembers).result =
      .error (.selectorOnSingleValue "members") := rfl
  exact ⟨hbefore, hmake, hone, hfail, (applyAll_failed [addText] hbefore hmake hone hfail).2.1 rfl⟩

def twoFields : Object :=
  ⟨[("members", .arr [.ofMembers [("value", .str "1")]]), ("Members", .str "x")], false⟩

/-- Where a second field has the name in other letters, the first member is gone when the second
removal fails. -/
theorem applyAll_twoFields :
    make .remove removeTwo.path removeTwo.value = .ok removeTwo ∧ removeTwo.schemaUrn? = none ∧
    applyAll .default [removeTwo] twoFields =
      .failed (.selectorOnSingleValue "members") ⟨[("Members", .str "x")], false⟩ ∧
    (applyAll .default [removeTwo] twoFields).resource ≠ twoFields :=
  ⟨rfl, rfl, rfl, fun h => absurd (congrArg keys h) (by decide)⟩

end Operation

end Scim

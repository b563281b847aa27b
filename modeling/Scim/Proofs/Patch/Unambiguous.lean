import Scim.Proofs.Json.Unambiguous
import Scim.Proofs.Patch.Changes

/-!
# What operations keep of all objects

However operations end, names stay unique up to letter case, in every object of the document
(`unambiguous_applyAll`), as long as they are in the values written; and so does every property of
objects that is stable under writing (`apply_kept`). Each operation goes the way of
`Path.target`: the place found is reached by stored names (`Target.FoundIn`), what was created on the
way is empty, and the writing itself is that of fields. The one object made of scratch is the new
value of a multi-valued attribute, which gets what the filter asks for only if its name is not that
of the sub-attribute.
-/

namespace Scim

open Object

variable {P : Object → Prop}

/-- The items that a target selects from. -/
def Target.items? : Target → Option (List Json)
  | selection _ _ _ items _ => items
  | _ => none

/-- A place in a document whose objects satisfy `P`, reached by stored names. -/
structure Target.FoundIn (P : Object → Prop) (doc : Object) (t : Target) : Prop where
  kept : (Json.obj doc).AllObjects P
  leads : doc.Leads t.container
  items : ∀ items ∈ t.items?, (Json.arr items).AllObjects P

variable [Stable P]

/-- A change of the object that a target is in. -/
theorem Target.FoundIn.modifyAt {doc : Object} {t : Target} {change : Object → Object}
    (h : t.FoundIn P doc)
    (hchange : ∀ o, (Json.obj o).AllObjects P → (Json.obj (change o)).AllObjects P) :
    (Json.obj (doc.modifyAt change t.container)).AllObjects P :=
  h.kept.modifyAt h.leads hchange

/-! ### Finding the place -/

namespace Path

variable {core container : List Text} {doc : Object} {urn : Option Text}

theorem leads_of_rootOf? {root : Object}
    (h : Schema.rootOf? core doc urn = some (container, root)) : doc.Leads container := by
  rcases rootOf?_cases h with ⟨rfl, -⟩ | ⟨u, key, -, rfl, hkey, -⟩
  · trivial
  · exact ⟨storedName_of_findKey? (findKey?_self (findKey?_eq_some hkey).1), trivial⟩

theorem allObjects_of_rootOf? {root : Object} (h : (Json.obj doc).AllObjects P)
    (hroot : Schema.rootOf? core doc urn = some (container, root)) :
    (Json.obj root).AllObjects P := by
  rw [← (startsIn_of_rootOf? hroot).2]
  exact h.objectAt container

theorem targetContainer_kept (path : Path) (create : Bool) (elements : List PathElement)
    (h : (Json.obj doc).AllObjects P) (hlead : doc.Leads container) :
    (Json.obj (targetContainer path create elements container doc).2).AllObjects P ∧
    ∀ c, (targetContainer path create elements container doc).1 = .ok (some c) →
      (targetContainer path create elements container doc).2.Leads c := by
  induction elements generalizing container doc with
  | nil =>
    refine ⟨h, ?_⟩
    rintro _ ⟨⟩
    exact hlead
  | cons e rest ih =>
    cases rest with
    | nil =>
      refine ⟨h, ?_⟩
      rintro _ ⟨⟩
      exact hlead
    | cons e' rest =>
      unfold targetContainer
      split
      · exact ih h (hlead.append e.name)
      · split_ifs
        · exact ih (h.createObject hlead e.name) (leads_createObject hlead e.name)
        · exact ⟨h, nofun⟩
      · exact ⟨h, nofun⟩

theorem targetSelection_foundIn {name : Text} {filter : Filter} {subs : List Text} {t : Target}
    (h : (Json.obj doc).AllObjects P) (hlead : doc.Leads container)
    (ht : targetSelection container name filter subs doc = .ok t) : t.FoundIn P doc := by
  refine ⟨h, (targetSelection_eq_ok ht).1 ▸ hlead, fun items hitems => ?_⟩
  unfold targetSelection at ht
  split at ht
  · rename_i old hfield
    cases ht
    cases hitems
    exact Json.Throughout.field? (h.objectAt container) (field?_of_getD hfield (by simp))
  · cases ht
    cases hitems
  · cases ht

theorem targetFrom_kept (p : Path) (create : Bool) (h : (Json.obj doc).AllObjects P)
    (hlead : doc.Leads container) :
    (Json.obj (p.targetFrom create container doc).2).AllObjects P ∧
    ∀ t, (p.targetFrom create container doc).1 = .ok (some t) →
      t.FoundIn P (p.targetFrom create container doc).2 := by
  unfold targetFrom
  cases p.elements with
  | nil =>
    refine ⟨h, ?_⟩
    rintro _ ⟨⟩
    exact ⟨h, hlead, nofun⟩
  | cons first rest =>
    dsimp only
    split_ifs
    · exact ⟨h, nofun⟩
    cases first.selector with
    | some filter =>
      refine ⟨h, fun t ht => ?_⟩
      cases hread : targetSelection container first.name filter (rest.map (·.name)) doc with
      | error e => simp [hread, Except.map] at ht
      | ok t' =>
        obtain rfl : t' = t := by simpa [hread, Except.map] using ht
        exact targetSelection_foundIn h hlead hread
    | none =>
      obtain ⟨hdoc, hok⟩ := targetContainer_kept p create (first :: rest) h hlead
      cases hwalk : targetContainer p create (first :: rest) container doc with
      | mk r doc' =>
        rw [hwalk] at hdoc hok
        rcases r with e | _ | c
        · exact ⟨hdoc, nofun⟩
        · exact ⟨hdoc, nofun⟩
        refine ⟨hdoc, ?_⟩
        rintro _ ⟨⟩
        exact ⟨hdoc, hok c rfl, nofun⟩

theorem target_kept (core : List Text) (p : Path) (create : Bool)
    (h : (Json.obj doc).AllObjects P) :
    (Json.obj (p.target core doc create).2).AllObjects P ∧
    ∀ t, (p.target core doc create).1 = .ok (some t) → t.FoundIn P (p.target core doc create).2 := by
  rcases target_cases core p doc create with
    ⟨c, root, hroot, heq⟩ | ⟨r, heq, hr⟩ | ⟨u, -, -, -, heq⟩ <;> rw [heq]
  · exact p.targetFrom_kept create h (leads_of_rootOf? hroot)
  · exact ⟨h, fun t ht => absurd ht (hr t)⟩
  · exact p.targetFrom_kept create (h.createObject doc.leads_nil u)
      (leads_createObject doc.leads_nil u)

end Path

namespace Operation

variable {core container : List Text} {doc : Object} {op : Operation} {write : Write}
  {members : List (Text × Json)} {value : Json} {items : List Json} {t : Target}

/-! ### Writing -/

/-- A way of writing that keeps `P`. -/
def Clean (P : Object → Prop) (write : Write) : Prop :=
  ∀ {o : Object} {value : Json} (name : Text), (Json.obj o).AllObjects P → value.AllObjects P →
    (Json.obj (write o name value)).AllObjects P

omit [Stable P] in
theorem writeAll_kept (hwrite : Clean P write) (hm : ∀ m ∈ members, m.2.AllObjects P)
    (h : (Json.obj doc).AllObjects P) : (Json.obj (writeAll write members doc)).AllObjects P := by
  induction members generalizing doc with
  | nil => exact h
  | cons m rest ih =>
    obtain ⟨hv, hrest⟩ := List.forall_mem_cons.mp hm
    exact ih hrest (hwrite m.1 h hv)

theorem writeTopLevel_kept (hwrite : Clean P write) (hm : ∀ m ∈ members, m.2.AllObjects P)
    (h : (Json.obj doc).AllObjects P) :
    (Json.obj (writeTopLevel core write members doc)).AllObjects P := by
  induction members generalizing doc with
  | nil => exact h
  | cons m rest ih =>
    obtain ⟨hv, hrest⟩ := List.forall_mem_cons.mp hm
    refine ih hrest ?_
    dsimp only
    split
    · rename_i inner hobj
      have hinner : (Json.obj inner).AllObjects P := hobj ▸ hv
      split_ifs
      · exact writeAll_kept hwrite (fun _ => hinner.member) h
      · exact hwrite m.1 h hv
    · exact hwrite m.1 h hv

theorem writeRoot_kept (hwrite : Clean P write) (change : Change) (hv : value.AllObjects P)
    (h : (Target.root container).FoundIn P doc) :
    (Json.obj (writeRoot core change write container value doc).resource).AllObjects P := by
  unfold writeRoot
  split
  · rename_i inner
    show (Json.obj (writeMembers core write container inner.members doc)).AllObjects P
    unfold writeMembers
    split_ifs
    · exact writeTopLevel_kept hwrite (fun _ => hv.member) h.kept
    · exact h.modifyAt fun o ho => writeAll_kept hwrite (fun _ => hv.member) ho
  · exact h.kept

/-! ### Values of a multi-valued attribute -/

theorem setInSelection_kept (core : List Text) (filter : Filter) (sub : Text)
    (hv : value.AllObjects P) (h : (Json.arr items).AllObjects P) :
    (Json.arr (setInSelection core filter sub value items)).AllObjects P := by
  refine h.map fun v hold => ?_
  split
  · split_ifs
    · exact hold.setField sub hv
    · exact hold
  · exact hold

theorem replaceSelection_kept (core : List Text) (filter : Filter) (sub : Option Text)
    (hv : value.AllObjects P) (h : (Json.arr items).AllObjects P) :
    (Json.arr (replaceSelection core filter sub value items)).AllObjects P := by
  refine h.map fun v hold => ?_
  split_ifs
  · split
    · exact hv
    · exact hold.replace _ hv
    · exact hold
  · exact hold

theorem newElement_kept (sub name : Text) (literal : Literal) (hv : value.AllObjects P) :
    (Json.obj (newElement sub value name (literalJson literal))).AllObjects P := by
  have helement : (Json.obj (empty.insert sub value)).AllObjects P :=
    Json.AllObjects.empty.add rfl hv
  have hliteral : (literalJson literal).AllObjects P := by
    cases literal <;> exact Json.allObjects_scalar rfl rfl
  unfold newElement
  dsimp only
  split_ifs with hfield
  · exact helement
  · refine helement.assign (storedName_of_findKey?_none ?_) hliteral
    simpa [hasField] using hfield

theorem addToSelection_kept {name : Text} {filter : Filter} {selected : Option (List Json)}
    {subs : List Text} (path : Option Path) (hv : value.AllObjects P)
    (h : (Target.selection container name filter selected subs).FoundIn P doc) :
    (Json.obj (addToSelection core path container name filter selected subs value
      doc).resource).AllObjects P := by
  have hold : (Json.arr (selected.getD [])).AllObjects P := by
    cases selected with
    | none => exact Json.AllObjects.nil
    | some items => exact h.items items rfl
  have hwrite : ∀ items, (Json.arr items).AllObjects P →
      (Json.obj (doc.modifyAt (·.setField name (.arr items)) container)).AllObjects P :=
    fun items hitems => h.modifyAt fun o ho => ho.setField name hitems
  unfold addToSelection
  split
  · rename_i condition literal sub rest
    dsimp only
    split_ifs
    · exact hwrite _ (setInSelection_kept core _ sub hv hold)
    · split
      · rename_i e rest _
        exact hwrite _ (hold.concat (newElement_kept sub e.name literal hv))
      · exact h.kept
  · exact h.kept

/-! ### Adding and replacing -/

theorem target_kept (op : Operation) (core : List Text) (create : Bool)
    (h : (Json.obj doc).AllObjects P) :
    (Json.obj (op.target core doc create).2).AllObjects P ∧
    ∀ t, (op.target core doc create).1 = .ok (some t) →
      t.FoundIn P (op.target core doc create).2 := by
  unfold target
  cases op.path with
  | none =>
    refine ⟨h, ?_⟩
    rintro _ ⟨⟩
    exact ⟨h, trivial, nofun⟩
  | some p => exact p.target_kept core create h

theorem applyAdd_kept (core : List Text) (hop : ∀ v ∈ op.value, v.AllObjects P)
    (h : (Json.obj doc).AllObjects P) : (Json.obj (op.applyAdd core doc).resource).AllObjects P := by
  unfold applyAdd
  obtain ⟨hdoc, hok⟩ := op.target_kept core true h
  split
  · exact h
  · exact h
  rename_i value _ hgiven
  have hv := hop value (given?_eq_some hgiven)
  cases htarget : op.target core doc true with
  | mk r found =>
    rw [htarget] at hdoc hok
    rcases r with e | _ | t
    · exact hdoc
    · exact hdoc
    have hfound := hok t rfl
    cases t with
    | root container => exact writeRoot_kept Json.AllObjects.merge op.change hv hfound
    | field container name => exact hfound.modifyAt fun o ho => ho.merge name hv
    | selection container name filter items subs =>
      exact addToSelection_kept op.path hv hfound

theorem applyReplace_kept (core : List Text) (hop : ∀ v ∈ op.value, v.AllObjects P)
    (h : (Json.obj doc).AllObjects P) :
    (Json.obj (op.applyReplace core doc).resource).AllObjects P := by
  unfold applyReplace
  split
  · exact h
  rename_i value hgiven
  have hv := hop value (given?_eq_some hgiven)
  obtain ⟨hdoc, hok⟩ := op.target_kept core (!value.isUnassigned) h
  cases htarget : op.target core doc (!value.isUnassigned) with
  | mk r found =>
    rw [htarget] at hdoc hok
    rcases r with e | _ | t
    · exact hdoc
    · exact hdoc
    have hfound := hok t rfl
    cases t with
    | root container => exact writeRoot_kept Json.AllObjects.replace op.change hv hfound
    | field container name => exact hfound.modifyAt fun o ho => ho.replace name hv
    | selection container name filter items subs =>
      cases items with
      | none => exact hdoc
      | some items =>
        have hnew := replaceSelection_kept core filter subs.head? hv
          (hfound.items items rfl)
        exact hfound.modifyAt fun o ho => ho.setField name hnew

/-! ### Removing -/

theorem removeFields_kept (core : List Text) (elements : List PathElement) {o : Object}
    (h : (Json.obj o).AllObjects P) : (Json.obj (removeFields core elements o)).AllObjects P := by
  induction elements generalizing o with
  | nil => exact h
  | cons e rest ih =>
    have hinside := fun (v : Json) (hv : v.AllObjects P) => hv.inside fun _ => ih
    unfold removeFields
    cases o.findKey? e.name with
    | none => exact h
    | some key =>
      dsimp only
      split
      · exact h
      · rename_i items hget
        split_ifs
        · exact h.erase key
        · exact h
        · refine h.overwrite key (Json.AllObjects.map (Json.Throughout.get? h hget) fun v hv => ?_)
          split_ifs
          · exact hinside v hv
          · exact hv
      · rename_i v _ hget
        split_ifs
        · exact h
        · exact h.erase key
        · exact h.overwrite key (hinside v (Json.Throughout.get? h hget))

theorem removeSelection_kept (name : Text) (filter : Filter) (sub : Option Text)
    (hitems : (Json.arr items).AllObjects P) {o : Object} (h : (Json.obj o).AllObjects P) :
    (Json.obj (removeSelection core name filter items sub o)).AllObjects P := by
  unfold removeSelection
  split
  · refine h.setField name (hitems.map fun v hv => ?_)
    split
    · split_ifs
      · exact hv.removeField _
      · exact hv
    · exact hv
  · dsimp only
    split_ifs
    · exact h.removeField name
    · exact h.setField name (hitems.filter _)

theorem removePath_kept (core : List Text) (p : Path) (h : (Json.obj doc).AllObjects P) :
    (Json.obj (removePath core p doc).resource).AllObjects P := by
  unfold removePath
  cases hes : p.elements with
  | nil =>
    cases p.schemaUrn with
    | none => exact h
    | some u =>
      dsimp only
      split_ifs
      · exact h.removeField u
      · exact h
      · exact h
  | cons first rest =>
    dsimp only
    split_ifs
    · cases hroot : Schema.rootOf? core doc p.schemaUrn with
      | none => exact h
      | some found =>
        exact h.modifyAt (Path.leads_of_rootOf? hroot)
          fun o ho => removeFields_kept core _ ho
    · obtain ⟨hdoc, hok⟩ := p.target_kept core false h
      cases htarget : p.target core doc false with
      | mk r found =>
        rw [htarget] at hdoc hok
        rcases r with e | _ | t
        · exact hdoc
        · exact hdoc
        cases t with
        | root container | field container name => exact hdoc
        | selection container name filter items subs =>
          cases items with
          | none => exact hdoc
          | some items =>
            have hfound := hok _ rfl
            exact hfound.modifyAt fun o ho =>
              removeSelection_kept name filter subs.head? (hfound.items items rfl) ho

theorem removeMembers_kept (core : List Text) (urn : Option Text) (name : Text)
    (ids : List Text) (h : (Json.obj doc).AllObjects P) :
    (Json.obj (removeMembers core urn name ids doc).resource).AllObjects P := by
  induction ids generalizing doc with
  | nil => exact h
  | cons id rest ih =>
    have hstep := removePath_kept core (memberPath urn name id) h
    rw [removeMembers_cons]
    exact Outcome.andThen_resource (p := fun d => (Json.obj d).AllObjects P) hstep fun _ => ih

theorem applyRemove_kept (options : PatchOptions) (op : Operation)
    (h : (Json.obj doc).AllObjects P) :
    (Json.obj (op.applyRemove options doc).resource).AllObjects P := by
  unfold applyRemove
  cases op.path with
  | none => exact h
  | some p =>
    dsimp only
    split_ifs
    · exact removePath_kept options.coreUrns p h
    · exact h
    · split
      · exact h
      · exact h
      · exact removeMembers_kept _ _ _ _ h

/-! ### The list of schemas -/

theorem updateSchema_kept (core : List Text) (h : (Json.obj doc).AllObjects P) (urn : Text) :
    (Json.obj (updateSchema core doc urn)).AllObjects P := by
  have hurn : Json.AllObjects P (.str (doc.storedName urn)) := Json.allObjects_scalar rfl rfl
  unfold updateSchema
  split_ifs
  · exact h
  dsimp only
  split
  · rename_i urns _ hlist
    have hurns : (Json.arr urns).AllObjects P := Json.Throughout.field? h hlist
    split_ifs
    · exact h
    · exact h.overwrite _ (hurns.concat hurn)
  · exact h.setField _ (Json.AllObjects.nil.concat hurn)
  · exact h
  · rename_i urns _ hlist
    have hurns : (Json.arr urns).AllObjects P := Json.Throughout.field? h hlist
    split_ifs
    · exact (h.removeField urn).overwrite _ (hurns.filter _)
    · exact h.removeField urn
  · exact h.removeField urn

theorem foldl_updateSchema_kept (core : List Text) (urns : List Text)
    (h : (Json.obj doc).AllObjects P) :
    (Json.obj (urns.foldl (updateSchema core) doc)).AllObjects P := by
  induction urns generalizing doc with
  | nil => exact h
  | cons urn rest ih => exact ih (updateSchema_kept core h urn)

theorem updateSchemas_kept (core : List Text) (op : Operation)
    (h : (Json.obj doc).AllObjects P) : (Json.obj (op.updateSchemas core doc)).AllObjects P :=
  foldl_updateSchema_kept core op.touchedUrns h

/-! ### Running -/

theorem apply_kept (options : PatchOptions) (hop : ∀ v ∈ op.value, v.AllObjects P)
    (h : (Json.obj doc).AllObjects P) :
    (Json.obj (op.apply options doc).resource).AllObjects P := by
  refine updateSchemas_kept options.coreUrns op ?_
  unfold applyChange
  cases op.change with
  | add => exact applyAdd_kept options.coreUrns hop h
  | replace => exact applyReplace_kept options.coreUrns hop h
  | remove => exact op.applyRemove_kept options h

theorem apply_unambiguous (options : PatchOptions) (hop : ∀ v ∈ op.value, v.Unambiguous)
    (h : (Json.obj doc).Unambiguous) : (Json.obj (op.apply options doc).resource).Unambiguous :=
  apply_kept options hop h

/-- No object gets two members of the same name. -/
theorem apply_wellFormed (options : PatchOptions) (hop : ∀ v ∈ op.value, v.WellFormed)
    (h : (Json.obj doc).WellFormed) : (Json.obj (op.apply options doc).resource).WellFormed :=
  apply_kept options hop h

/-- Operations with unambiguous values leave an unambiguous document so, whether they all succeed
or one of them fails. -/
theorem unambiguous_applyAll (options : PatchOptions) (ops : List Operation) (doc : Object)
    (hops : ∀ op ∈ ops, ∀ v ∈ op.value, v.Unambiguous) (h : (Json.obj doc).Unambiguous) :
    (Json.obj (applyAll options ops doc).resource).Unambiguous := by
  induction ops generalizing doc with
  | nil => exact h
  | cons op rest ih =>
    obtain ⟨hop, hrest⟩ := List.forall_mem_cons.mp hops
    have hstep := apply_unambiguous options hop h
    unfold applyAll
    exact Outcome.andThen_resource (p := fun d => (Json.obj d).Unambiguous) hstep
      fun d => ih d hrest

/-- An address written to under other letters than those it is stored under. -/
def homeAddress : Object := ⟨[("Address", .ofMembers [("City", .str "Oslo")])], false⟩

def movedAddress : Operation :=
  ⟨.add, some (.ofName "address"), some (.ofMembers [("CITY", .str "Bergen")])⟩

theorem unambiguous_applyAll_homeAddress :
    (Json.obj homeAddress).Unambiguous ∧
    (Json.obj (applyAll .default [movedAddress] homeAddress).resource).Unambiguous ∧
    applyAll .default [movedAddress] homeAddress =
      .done ⟨[("Address", .ofMembers [("City", .str "Bergen")])], false⟩ := by
  have hdoc : (Json.obj homeAddress).Unambiguous := Json.throughout_of_everywhere _ (by decide)
  have hops : ∀ op ∈ [movedAddress], ∀ v ∈ op.value, v.Unambiguous := by
    intro op hop
    obtain rfl := List.mem_singleton.mp hop
    rintro _ ⟨⟩
    exact Json.throughout_of_everywhere _ (by decide)
  exact ⟨hdoc, unambiguous_applyAll .default _ homeAddress hops hdoc, rfl⟩

end Operation

end Scim

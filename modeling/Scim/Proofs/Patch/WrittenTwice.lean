import Scim.Proofs.Patch.Absorbed
import Scim.Proofs.Patch.ReadBack
import Scim.Proofs.Patch.Repeated

/-!
# Writing twice along a path

An addition or a replacement along a path without filters is a change from the root of its schema,
by descent (`applyChange_plain`, `changeFound_containerOf`). It can be repeated if the write of one
field can (`repeatable_plain`), so what has to be known of the value is what it does to the object
in which the path ends (`apply_plain_twice`).

An addition merges, and merging twice is merging once, so that adding twice is adding once
(`add_twice`). The exception is a write that puts an object under the URN of a core schema: it turns
that object into the place where the path starts (`add_twice_shadowed`).
-/

namespace Scim

open Object

namespace Path

variable {p : Path} {core : List Text} {create : Bool} {doc : Object} {change : Object → Object}

/-! ### The object to write to -/

/-- The object in which the last element names a field. -/
def containerOf (core : List Text) (p : Path) (doc : Object) (create : Bool) :
    Except Error (Option (List Text)) × Object :=
  match targetRoot core p.schemaUrn doc create with
  | (.ok (some container), doc) => targetContainer p create p.elements container doc
  | r => r

theorem target_of_plain (hes : ∀ e ∈ p.elements, e.selector = none) (hne : p.elements ≠ [])
    (core : List Text) (doc : Object) (create : Bool) :
    p.target core doc create =
      ((p.containerOf core doc create).1.map
        (Option.map (Target.field · (p.elements.getLast hne).name)),
        (p.containerOf core doc create).2) := by
  obtain ⟨urn, elements⟩ := p
  obtain ⟨first, rest, rfl⟩ := List.exists_cons_of_ne_nil hne
  obtain ⟨hfirst, hrest⟩ := List.forall_mem_cons.mp hes
  have hlate : ¬ (rest.any fun e => e.selector.isSome) := by simpa using hrest
  unfold target containerOf
  dsimp only
  generalize targetRoot core urn doc create = found
  rcases found with ⟨_ | _ | container, doc⟩
  · rfl
  · rfl
  · dsimp only
    rw [if_neg hlate, hfirst]
    dsimp only
    generalize targetContainer _ _ _ _ _ = found
    rcases found with ⟨_ | _ | container, doc⟩ <;> rfl

end Path

namespace Operation

open Schema

variable {core : List Text} {options : PatchOptions} {change : Change} {p : Path} {create : Bool}
  {doc o : Object} {name : Text} {v w : Json}

/-- The change of the object that is found is one from the root of the schema, by descent. -/
theorem changeFound_containerOf {f : Object → Object} (hf : KeepsLocked f) (hne : p.elements ≠ [])
    (hdoc : (Json.obj doc).WellFormed) :
    Path.changeFound f (p.containerOf core doc create) =
      changeFromRoot core p.schemaUrn create (Path.changeIn p create f p.elements) doc := by
  obtain ⟨urn, elements⟩ := p
  unfold Path.containerOf
  cases hroot : rootOf? core doc urn with
  | some start =>
    obtain ⟨container, root⟩ := start
    rw [Path.targetRoot_of_rootOf? hroot, changeFromRoot_of_rootOf? hroot]
    exact Path.changeFound_targetContainer hf hne hdoc (Path.leadsTo_of_rootOf? hroot)
  | none =>
    cases urn with
    | none => cases hroot
    | some u =>
      obtain ⟨e, rest, rfl⟩ := List.exists_cons_of_ne_nil hne
      have hnone : root? core doc u = none := hroot
      unfold Path.targetRoot changeFromRoot
      dsimp only
      rw [hnone, hroot]
      dsimp only
      cases hfield : (doc.field? u).getD .null with
      | null =>
        by_cases hcreate : create
        · subst hcreate
          -- the new object is created as on the way of a path that starts with the URN
          have hdescent : Path.changeFound f (Path.targetContainer ⟨some u, e :: rest⟩ true
                (⟨u, none⟩ :: e :: rest) [] doc) =
              Path.putBack doc [] (Path.changeIn ⟨some u, e :: rest⟩ true f
                (⟨u, none⟩ :: e :: rest) doc) :=
            Path.changeFound_targetContainer hf (List.cons_ne_nil _ _) hdoc (.here doc)
          rw [Path.targetContainer_cons, Path.changeIn_cons, objectAt_nil, hfield] at hdescent
          exact hdescent
        · dsimp only
          rw [if_neg hcreate, if_neg hcreate]
          rfl
      | _ => rfl

/-- Whether an operation creates the objects that are missing on the way to its field. -/
def creates (change : Change) (v : Json) : Bool := change = .add || !v.isUnassigned

theorem applyChange_plain (hchange : change ≠ .remove) (hgiven : given? (some v) = some v)
    (hempty : change = .add → v ≠ .arr []) (hes : ∀ e ∈ p.elements, e.selector = none)
    (hne : p.elements ≠ []) (options : PatchOptions) (doc : Object) :
    applyChange options ⟨change, some p, some v⟩ doc =
      Path.changeFound (writer change · (p.elements.getLast hne).name v)
        (p.containerOf options.coreUrns doc (creates change v)) := by
  have htarget : ∀ create, target options.coreUrns ⟨change, some p, some v⟩ doc create = _ :=
    Path.target_of_plain hes hne options.coreUrns doc
  unfold applyChange creates
  cases change with
  | add =>
    simp only [applyAdd, hgiven, htarget, decide_true, Bool.true_or]
    rcases p.containerOf options.coreUrns doc true with ⟨_ | _ | container, doc'⟩
    all_goals
      cases v with
      | arr items =>
        cases items with
        | nil => exact absurd rfl (hempty rfl)
        | cons w rest => rfl
      | _ => rfl
  | replace =>
    simp only [applyReplace, hgiven, htarget, reduceCtorEq, decide_false, Bool.false_or]
    rcases p.containerOf options.coreUrns doc (!v.isUnassigned) with ⟨_ | _ | container, doc'⟩ <;>
      rfl
  | remove => exact absurd rfl hchange

/-! ### What a write does to its object -/

theorem writer_changes (change : Change) (o : Object) (name : Text) (v : Json) :
    Changes [name] o (writer change o name v) := by
  cases change with
  | replace => exact .replace (by simp)
  | _ => exact .merge (by simp)

theorem keepsLocked_merge (name : Text) (hlocked : unlocks v = false) :
    KeepsLocked (·.merge name v) := by
  intro o ho
  show (o.merge name v).Locked
  by_cases htakes : o.Takes name
  · rcases merge_eq o name v with heq | ⟨w, heq⟩ <;> rw [heq]
    · exact ho
    · exact ho.setField_of_takes htakes w
  · rwa [merge_of_not_takes htakes hlocked]

theorem keepsLocked_replace (name : Text) (hlocked : unlocks v = false) :
    KeepsLocked (·.replace name v) := by
  intro o ho
  show (o.replace name v).Locked
  by_cases htakes : o.Takes name
  · rcases replace_eq o name v with heq | ⟨w, heq⟩ <;> rw [heq]
    · exact ho.removeField name
    · exact ho.setField_of_takes htakes w
  · rwa [replace_of_not_takes htakes hlocked]

theorem keepsLocked_writer (change : Change) (name : Text) (hlocked : unlocks v = false) :
    KeepsLocked (writer change · name v) := by
  cases change with
  | replace => exact keepsLocked_replace name hlocked
  | _ => exact keepsLocked_merge name hlocked

/-- An empty object gets an assigned value only if the value is one and has a name to be stored
under. -/
theorem assigned_of_writer_empty
    (h : isAssigned (some (.obj (writer change empty name v))) = true) :
    name ≠ reservedName ∧ v.isUnassigned = false := by
  have hset : isAssigned (some (.obj (empty.setField name v))) = true →
      name ≠ reservedName ∧ v.isUnassigned = false := by
    intro hassigned
    have hname := Path.ne_reservedName_of_isAssigned hassigned
    rw [setField_empty hname] at hassigned
    exact ⟨hname, by simpa [isAssigned, Object.values] using hassigned⟩
  cases change with
  | replace =>
    have hreplace : isAssigned (some (.obj (empty.replace name v))) = true := h
    unfold Object.replace at hreplace
    split_ifs at hreplace
    · cases hreplace
    · cases v <;> exact hset hreplace
  | _ =>
    have hmerge : isAssigned (some (.obj (empty.merge name v))) = true := h
    cases v with
    | null => cases hmerge
    | arr items =>
      unfold Object.merge at hmerge
      split_ifs at hmerge
      · cases hmerge
      · exact hset hmerge
    | _ => exact hset hmerge

/-- Items that are added to others are there, or equal ones are. -/
theorem assigned_appendNew {old items : List Json} (hitems : (Json.arr items).WellFormed)
    (h : (Json.arr items).isUnassigned = false) :
    (Json.arr (appendNew old items)).isUnassigned = false := by
  have hall : ∀ items : List Json, (Json.arr items).isUnassigned = items.all Json.isUnassigned :=
    Json.allUnassigned_eq_all
  rw [hall, List.all_eq_false] at h ⊢
  obtain ⟨v, hv, hassigned⟩ := h
  obtain ⟨w, hw, hsame⟩ := List.any_eq_true.mp (any_same_of_mem hitems old v hv)
  exact ⟨w, hw, by rwa [Json.isUnassigned_of_same hsame]⟩

theorem assigned_writer (change : Change) (hname : name ≠ reservedName) (hv : v.WellFormed)
    (hassigned : v.isUnassigned = false) (o : Object) :
    ∃ w, (writer change o name v).field? name = some w ∧ w.isUnassigned = false := by
  have hset : ∀ w : Json, w.isUnassigned = false →
      ∃ w', (o.setField name w).field? name = some w' ∧ w'.isUnassigned = false :=
    fun w hw => ⟨w, field?_setField_of_takes (takes_of_ne hname) w, hw⟩
  cases change with
  | replace =>
    show ∃ w, (o.replace name v).field? name = some w ∧ _
    cases v with
    | obj inner =>
      rw [deep_replace.obj]
      split <;> exact hset _ rfl
    | _ =>
      unfold Object.replace
      rw [hassigned]
      exact hset _ hassigned
  | _ =>
    show ∃ w, (o.merge name v).field? name = some w ∧ _
    cases v with
    | null => cases hassigned
    | arr items =>
      unfold Object.merge
      split_ifs with hempty
      · rw [List.isEmpty_iff.mp hempty] at hassigned
        cases hassigned
      · split
        · exact hset _ (assigned_appendNew hv hassigned)
        · exact hset _ hassigned
    | obj inner =>
      rw [deep_merge.obj]
      split <;> exact hset _ rfl
    | _ => exact hset _ hassigned

/-- The write of a path, as a change of the root. -/
theorem repeatable_plain (hlocked : unlocks v = false) (hv : v.WellFormed)
    {elements : List PathElement} (hne : elements ≠ []) :
    Repeatable create (elements.head hne).name
      (Path.changeIn p create (writer change · (elements.getLast hne).name v) elements) where
  changes h := by
    obtain ⟨e, rest, rfl⟩ := List.exists_cons_of_ne_nil hne
    refine Path.changeIn_changes ?_ h
    rintro rfl
    exact writer_changes ..
  new h := by
    subst h
    exact Path.changeIn_empty p (keepsLocked_writer change _ hlocked) elements
  assigned h hr hassigned ho := by
    subst h
    refine Path.isAssigned_changeIn (fun hempty o => ?_) hr hassigned ho
    obtain ⟨hname, hassigned⟩ := assigned_of_writer_empty hempty
    obtain ⟨w, hw, hassigned⟩ := assigned_writer change hname hv hassigned o
    exact Path.isAssigned_of_field? hw hassigned

/-! ### The second time -/

variable {op : Operation} {after : Object}

/-- A write along a path without filters changes nothing the second time if it would change nothing
where the path ends. -/
theorem apply_plain_twice (hchange : change ≠ .remove) (hgiven : given? (some v) = some v)
    (hempty : change = .add → v ≠ .arr []) (hes : ∀ e ∈ p.elements, e.selector = none)
    (hne : p.elements ≠ []) (hlocked : unlocks v = false) (hv : v.Unambiguous)
    (hdoc : (Json.obj doc).Unambiguous)
    (hlist : ∀ u ∈ p.schemaUrn, ∀ e ∈ p.elements.head?, e.name.lower ≠ listName.lower)
    (hname : name = (p.elements.getLast hne).name)
    (hroot : ∀ c root o, rootOf? options.coreUrns doc p.schemaUrn = some (c, root) →
      Path.changeIn p (creates change v) (writer change · name v) p.elements root = .ok o →
      writer change (writer change (Path.endOf p.elements root) name v) name v =
        writer change (Path.endOf p.elements root) name v)
    (hnew : rootOf? options.coreUrns doc p.schemaUrn = none → creates change v = true →
      writer change (writer change empty name v) name v = writer change empty name v)
    (happly : apply options ⟨change, some p, some v⟩ doc = .done after)
    (hshadow : ∀ u ∈ p.schemaUrn, isCore options.coreUrns doc u = true →
      extension? doc u = none → extension? after u = none) :
    apply options ⟨change, some p, some v⟩ after = .done after := by
  subst hname
  have hkeeps := keepsLocked_writer change (p.elements.getLast hne).name hlocked
  have hop : ∀ w ∈ some v, w.Unambiguous := by simpa using hv
  have hrepeat : Repeatable (creates change v) (p.elements.head hne).name
      (Path.changeIn p (creates change v) (writer change · (p.elements.getLast hne).name v)
        p.elements) := repeatable_plain hlocked hv.wellFormed hne
  refine apply_twice_of_root rfl hop hdoc ?_ hrepeat ?_ ?_ ?_ happly hshadow
  · intro doc hdoc
    rw [applyChange_plain hchange hgiven hempty hes hne]
    exact changeFound_containerOf hkeeps hne hdoc
  · exact fun u hu => hlist u hu _ (List.head?_eq_some_head hne)
  · intro c root o hstart ho
    exact Path.changeIn_changeIn hkeeps (hroot c root o hstart ho) ho
  · intro r hcreate hnone hr
    refine Path.changeIn_changeIn hkeeps ?_ hr
    rw [Path.endOf_empty]
    exact hnew hnone hcreate

/-- A value that is read from text unlocks nothing, as long as it is not null. -/
theorem unlocks_eq_false (hnull : v ≠ .null) (hreserved : v.hasReservedKey = false)
    (hlocked : ∀ o, v = .obj o → o.unlocked = false) : unlocks v = false := by
  cases v with
  | null => exact absurd rfl hnull
  | obj o =>
    have hall : Json.memberReservedKey o.members = false := hreserved
    rw [Json.memberReservedKey_eq_any, List.any_eq_false] at hall
    have hkey : hasKey o reservedName = false := by
      refine List.any_eq_false.mpr fun m hm => ?_
      have hm := hall m hm
      simp only [Bool.or_eq_true, not_or] at hm
      exact hm.1
    show (Record.unlocked o || hasKey o reservedName) = false
    rw [hlocked o rfl, hkey]
    rfl
  | _ => rfl

/-- An addition along a path without filters that succeeds changes nothing the second time, unless
the first time has put an object under the URN of a core schema. -/
theorem add_twice (options : PatchOptions) (doc : Object) (hdoc : (Json.obj doc).Unambiguous)
    (p : Path) (hne : p.elements ≠ []) (hes : ∀ e ∈ p.elements, e.selector = none)
    (hlist : ∀ u ∈ p.schemaUrn, ∀ e ∈ p.elements.head?, e.name.lower ≠ listName.lower)
    (v : Json) (hv : v.Unambiguous) (hlocked : ∀ o, v = .obj o → o.unlocked = false)
    {op : Operation} {after : Object} (hmake : make .add (some p) (some v) = .ok op)
    (happly : op.apply options doc = .done after)
    (hshadow : ∀ u ∈ p.schemaUrn, isCore options.coreUrns doc u = true →
      extension? doc u = none → extension? after u = none) :
    op.apply options after = .done after := by
  obtain ⟨w, hw, hgiven⟩ := given_of_make (by decide) hmake
  obtain rfl := Option.some.inj hw
  obtain ⟨rfl, hcheck⟩ := eq_of_make hne hmake
  have hreserved : v.hasReservedKey = false := (check_eq_ok_iff.mp hcheck).1
  have hunlocks : unlocks v = false := by
    refine unlocks_eq_false ?_ hreserved hlocked
    rintro rfl
    cases hgiven
  by_cases hempty : v = .arr []
  · -- nothing is added, but bookkeeping runs
    subst hempty
    have happlied : ∀ doc : Object, apply options ⟨.add, some p, some (.arr [])⟩ doc =
        .done (p.schemaUrn.toList.foldl (updateSchema options.coreUrns) doc) := fun _ => rfl
    rw [happlied] at happly ⊢
    obtain rfl := (Outcome.mk.inj happly).2
    exact congrArg Outcome.done (foldl_updateSchema_twice _ hdoc.distinct _)
  have htwice : ∀ o : Object, (Json.obj o).WellFormed →
      (o.merge (p.elements.getLast hne).name v).merge (p.elements.getLast hne).name v =
        o.merge (p.elements.getLast hne).name v :=
    fun o ho => merge_merge ho hv hreserved hunlocks _
  refine apply_plain_twice (by decide) hgiven (fun _ => hempty) hes hne hunlocks hv hdoc hlist rfl
    (fun c root o hroot _ => ?_) (fun _ _ => htwice empty Json.AllObjects.empty) happly hshadow
  have hstart : (Json.obj root).WellFormed := Path.allObjects_of_rootOf? hdoc.wellFormed hroot
  exact htwice _ (Path.allObjects_endOf hstart _)

def nicks : Json := .ofMembers [("Short", .arr [.str "Al", .null]), ("long", .ofMembers [])]

def nicked : Object :=
  ⟨[("schemas", .arr [.str "urn:a:b", .str "URN:X:Y"]),
    ("URN:X:Y", .ofMembers [("name", .ofMembers [("nick", nicks)])])], false⟩

/-- The objects on the way and the value are there the second time, and the extension is listed. -/
theorem add_twice_unextended :
    (Json.obj unextended).Unambiguous ∧ nickNames.elements ≠ [] ∧
    (∀ e ∈ nickNames.elements, e.selector = none) ∧
    (∀ u ∈ nickNames.schemaUrn, ∀ e ∈ nickNames.elements.head?, e.name.lower ≠ listName.lower) ∧
    nicks.Unambiguous ∧ (∀ o, nicks = .obj o → o.unlocked = false) ∧
    make .add (some nickNames) (some nicks) = .ok ⟨.add, some nickNames, some nicks⟩ ∧
    apply .default ⟨.add, some nickNames, some nicks⟩ unextended = .done nicked ∧
    (∀ u ∈ nickNames.schemaUrn, isCore PatchOptions.default.coreUrns unextended u = true →
      extension? unextended u = none → extension? nicked u = none) ∧
    apply .default ⟨.add, some nickNames, some nicks⟩ nicked = .done nicked := by
  have hdoc : (Json.obj unextended).Unambiguous := Json.throughout_of_everywhere _ (by decide)
  have hes : ∀ e ∈ nickNames.elements, e.selector = none := by simp [nickNames]
  have hlist : ∀ u ∈ nickNames.schemaUrn, ∀ e ∈ nickNames.elements.head?,
      e.name.lower ≠ listName.lower := by
    rintro _ ⟨⟩ _ ⟨⟩
    decide
  have hv : nicks.Unambiguous := Json.throughout_of_everywhere _ (by decide)
  have hlocked : ∀ o, nicks = .obj o → o.unlocked = false := by
    rintro _ ⟨⟩
    rfl
  have hmake : make .add (some nickNames) (some nicks) =
      .ok ⟨.add, some nickNames, some nicks⟩ := rfl
  have happly : apply .default ⟨.add, some nickNames, some nicks⟩ unextended = .done nicked := rfl
  have hshadow : ∀ u ∈ nickNames.schemaUrn,
      isCore PatchOptions.default.coreUrns unextended u = true →
        extension? unextended u = none → extension? nicked u = none := by
    rintro _ ⟨⟩ hcore
    exact absurd hcore (by decide)
  exact ⟨hdoc, by decide, hes, hlist, hv, hlocked, hmake, happly, hshadow,
    add_twice .default unextended hdoc nickNames (by decide) hes hlist nicks hv hlocked hmake happly
      hshadow⟩

/-- The first time an object is put under the URN of the core schema; the second time the path
starts in that object. -/
theorem add_twice_shadowed :
    (Json.obj shadowed).Unambiguous ∧ underUrn.elements ≠ [] ∧
    (∀ e ∈ underUrn.elements, e.selector = none) ∧
    (∀ e ∈ underUrn.elements.head?, e.name.lower ≠ listName.lower) ∧
    make .add (some underUrn) (some (.bool true)) = .ok ⟨.add, some underUrn, some (.bool true)⟩ ∧
    ∃ after again, apply .default ⟨.add, some underUrn, some (.bool true)⟩ shadowed = .done after ∧
      apply .default ⟨.add, some underUrn, some (.bool true)⟩ after = .done again ∧
      (Json.obj again).same (.obj after) = false := by
  refine ⟨Json.throughout_of_everywhere _ (by decide), by decide, by simp [underUrn], ?_, rfl,
    ⟨[("schemas", .arr [.str "urn"]), ("urn", .ofMembers [("b", .bool true)])], false⟩,
    ⟨[("schemas", .arr [.str "urn"]), ("urn", .ofMembers [("b", .bool true),
      ("urn", .ofMembers [("b", .bool true)])])], false⟩, rfl, rfl, by decide⟩
  rintro _ ⟨⟩
  decide

end Operation

end Scim

import Scim.Patch.Apply
import Scim.Proofs.Path.Target

/-!
# What an operation changes

An operation changes a resource only in the fields that it names (`applyChange_changes`): the one
that its path starts with and that of the path's schema, or without a path to an attribute those in
its value. The names that an operation uses for attributes of the resource, and not for schemas, are
its `attributeNames`.
-/

namespace Scim

open Object

theorem Object.Changes.foldl {α : Type} {names : List Text} {step : Object → α → Object}
    {xs : List α} (h : ∀ o, ∀ x ∈ xs, Changes names o (step o x)) (o : Object) :
    Changes names o (xs.foldl step o) := by
  induction xs generalizing o with
  | nil => exact .refl o
  | cons x rest ih =>
    exact (h o x (List.mem_cons_self ..)).trans
      (ih (fun o y hy => h o y (List.mem_cons_of_mem _ hy)) (step o x))

namespace Operation

variable {core names : List Text} {doc : Object} {op : Operation} {write : Write}
  {members : List (Text × Json)} {container : List Text} {t : Target}

/-! ### Names -/

/-- The names of the members of a value that is an object. -/
def memberNames : Option Json → List Text
  | some (.obj o) => Object.keys o
  | _ => []

/-- The names of the members of the objects under URNs in a value. -/
def innerNames : Option Json → List Text
  | some (.obj o) =>
    (o.members.filter fun m => m.1.isUrn).flatMap fun m => memberNames (some m.2)
  | _ => []

/-- The names of the top level that an operation addresses as attributes, not as schemas. Without a
path, a URN in the value stands for a schema, and the names inside its member are attributes if the
schema is a core one. On the path of a schema all names in the value are attributes. -/
def attributeNames (op : Operation) : List Text :=
  match op.path with
  | none => (memberNames op.value).filter (!·.isUrn) ++ innerNames op.value
  | some p =>
    match p.elements with
    | e :: _ => [e.name]
    | [] => memberNames op.value ++ innerNames op.value

/-- The names that an operation addresses in any way. -/
def namesOf (op : Operation) : List Text :=
  op.attributeNames ++
    match op.path with
    | none => memberNames op.value
    | some p => p.schemaUrn.toList

/-! ### Writing -/

/-- A way of writing that changes no more than the field written. -/
def Tame (write : Write) : Prop := ∀ o name value, Changes [name] o (write o name value)

theorem tame_merge : Tame Object.merge := fun _ _ _ => .merge (by simp)

theorem tame_replace : Tame Object.replace := fun _ _ _ => .replace (by simp)

theorem Tame.changes (h : Tame write) {name : Text} (hname : name.lower ∈ names.map Text.lower)
    (o : Object) (value : Json) : Changes names o (write o name value) :=
  (h o name value).mono (by simpa using hname)

theorem writeAll_changes (hwrite : Tame write)
    (hnames : ∀ m ∈ members, m.1.lower ∈ names.map Text.lower) (o : Object) :
    Changes names o (writeAll write members o) :=
  .foldl (fun o m hm => hwrite.changes (hnames m hm) o m.2) o

/-- All names in the members, and in the objects under URNs among them, are given. -/
def Covers (names : List Text) (members : List (Text × Json)) : Prop :=
  ∀ m ∈ members, m.1.lower ∈ names.map Text.lower ∧
    (m.1.isUrn → ∀ n ∈ memberNames (some m.2), n.lower ∈ names.map Text.lower)

theorem writeTopLevel_changes (hwrite : Tame write) (hnames : Covers names members) (o : Object) :
    Changes names o (writeTopLevel core write members o) := by
  refine .foldl (fun o m hm => ?_) o
  obtain ⟨hname, hinner⟩ := hnames m hm
  split
  · rename_i inner hobj
    split_ifs with hurn
    · refine writeAll_changes hwrite (fun m' hm' => hinner (by simp_all) m'.1 ?_) o
      rw [hobj]
      exact List.mem_map_of_mem hm'
    · exact hwrite.changes hname o _
  · exact hwrite.changes hname o _

theorem writeMembers_changes (hwrite : Tame write) (hstart : doc.StartsIn names container)
    (hnames : container = [] → Covers names members) :
    Changes names doc (writeMembers core write container members doc) := by
  unfold writeMembers
  cases container with
  | nil => exact writeTopLevel_changes hwrite (hnames rfl) doc
  | cons key rest => exact .modifyAt (by simp) hstart

theorem writeRoot_changes {change : Change} {value : Json} (hwrite : Tame write)
    (hstart : doc.StartsIn names container)
    (hnames : container = [] → ∀ o, value = .obj o → Covers names o.members) :
    Changes names doc (writeRoot core change write container value doc).resource := by
  unfold writeRoot
  split
  · exact writeMembers_changes hwrite hstart fun hc => hnames hc _ rfl
  · exact .refl doc

/-- The names in the value of an operation without a path to an attribute. -/
theorem covers_namesOf {o : Object} (hvalue : op.value = some (.obj o))
    (hroot : ∀ p ∈ op.path, p.elements = []) : Covers op.namesOf o.members := by
  have hmember : ∀ n ∈ memberNames op.value ++ innerNames op.value, n ∈ op.namesOf := by
    intro n hn
    unfold namesOf attributeNames
    cases hpath : op.path with
    | none =>
      rcases List.mem_append.mp hn with h | h
      · exact List.mem_append_right _ h
      · exact List.mem_append_left _ (List.mem_append_right _ h)
    | some p =>
      simp only [hroot p hpath]
      exact List.mem_append_left _ hn
  intro m hm
  refine ⟨List.mem_map_of_mem (hmember m.1 (List.mem_append_left _ ?_)),
    fun hurn n hn => List.mem_map_of_mem (hmember n (List.mem_append_right _ ?_))⟩
  · rw [hvalue]
    exact List.mem_map_of_mem hm
  · rw [hvalue]
    exact List.mem_flatMap.mpr ⟨m, List.mem_filter.mpr ⟨hm, hurn⟩, hn⟩

/-! ### Adding and replacing -/

theorem given?_eq_some {value : Option Json} {v : Json} (h : given? value = some v) :
    value = some v := by
  rcases value with _ | _ | _ <;> first | exact h | cases h

theorem topNames_subset {p : Path} (hpath : op.path = some p) {n : Text} (hn : n ∈ p.topNames) :
    n ∈ op.namesOf := by
  unfold namesOf attributeNames
  rw [hpath]
  rcases List.mem_append.mp hn with h | h
  · exact List.mem_append_right _ h
  · refine List.mem_append_left _ ?_
    cases hes : p.elements with
    | nil => simp [hes] at h
    | cons e rest => simpa [hes] using h

/-- What finding the place of an operation changes, and where the place is. -/
theorem target_changes (op : Operation) (core : List Text) (doc : Object) (create : Bool) :
    Changes op.namesOf doc (op.target core doc create).2 ∧
    ∀ t, (op.target core doc create).1 = .ok (some t) →
      t.StartsIn op.namesOf (op.target core doc create).2 ∧
      (t.name? = none → ∀ p ∈ op.path, p.elements = []) := by
  unfold target
  cases hpath : op.path with
  | none =>
    refine ⟨.refl doc, ?_⟩
    rintro _ ⟨⟩
    exact ⟨⟨.nil, fun _ => nofun⟩, fun _ => nofun⟩
  | some p =>
    have hsub : ∀ n ∈ p.topNames, n.lower ∈ op.namesOf.map Text.lower :=
      fun n hn => List.mem_map_of_mem (topNames_subset hpath hn)
    obtain ⟨hchange, hok⟩ := p.target_changes core doc create
    refine ⟨hchange.mono hsub, fun t ht => ?_⟩
    obtain ⟨hstart, hroot⟩ := hok t ht
    refine ⟨hstart.mono hsub, ?_⟩
    rintro h _ ⟨⟩
    exact hroot h

theorem addToSelection_changes {path : Option Path} {name : Text} {filter : Filter}
    {items : Option (List Json)} {subs : List Text} {value : Json}
    (h : ∀ v, Changes names doc (doc.modifyAt (·.setField name v) container)) :
    Changes names doc
      (addToSelection core path container name filter items subs value doc).resource := by
  unfold addToSelection
  split
  · dsimp only
    split_ifs
    · exact h _
    · split
      · exact h _
      · exact .refl doc
  · exact .refl doc

/-- A value over a whole object is one that an operation without a path to an attribute has. -/
theorem covers_of_root {value : Json} (hgiven : given? op.value = some value)
    (hroot : ∀ p ∈ op.path, p.elements = []) :
    ∀ o, value = .obj o → Covers op.namesOf o.members := by
  rintro o rfl
  exact covers_namesOf (given?_eq_some hgiven) hroot

theorem applyAdd_changes (op : Operation) (core : List Text) (doc : Object) :
    Changes op.namesOf doc (op.applyAdd core doc).resource := by
  unfold applyAdd
  obtain ⟨hchange, hok⟩ := op.target_changes core doc true
  split
  · exact .refl doc
  · exact .refl doc
  rename_i value _ hgiven
  cases htarget : op.target core doc true with
  | mk r found =>
    rw [htarget] at hchange hok
    refine hchange.trans ?_
    rcases r with e | _ | t
    · exact .refl found
    · exact .refl found
    obtain ⟨hstart, hroot⟩ := hok t rfl
    cases t with
    | root container =>
      exact writeRoot_changes tame_merge hstart.container
        fun _ => covers_of_root hgiven (hroot rfl)
    | field container name => exact hstart.changes rfl (.merge (by simp))
    | selection container name filter items subs =>
      exact addToSelection_changes fun v => hstart.changes rfl (.setField (by simp))

theorem applyReplace_changes (op : Operation) (core : List Text) (doc : Object) :
    Changes op.namesOf doc (op.applyReplace core doc).resource := by
  unfold applyReplace
  split
  · exact .refl doc
  rename_i value hgiven
  obtain ⟨hchange, hok⟩ := op.target_changes core doc (!value.isUnassigned)
  cases htarget : op.target core doc (!value.isUnassigned) with
  | mk r found =>
    rw [htarget] at hchange hok
    refine hchange.trans ?_
    rcases r with e | _ | t
    · exact .refl found
    · exact .refl found
    obtain ⟨hstart, hroot⟩ := hok t rfl
    cases t with
    | root container =>
      exact writeRoot_changes tame_replace hstart.container
        fun _ => covers_of_root hgiven (hroot rfl)
    | field container name => exact hstart.changes rfl (.replace (by simp))
    | selection container name filter items subs =>
      cases items with
      | none => exact .refl found
      | some items => exact hstart.changes rfl (.setField (by simp))

/-! ### Removing -/

theorem removeFields_changes (core : List Text) (e : PathElement) (rest : List PathElement)
    (o : Object) : Changes [e.name] o (removeFields core (e :: rest) o) := by
  unfold removeFields
  cases hkey : o.findKey? e.name with
  | none => exact .refl o
  | some key =>
    have hname : key.lower ∈ [e.name].map Text.lower := by simp [(findKey?_eq_some hkey).2]
    dsimp only
    split
    · exact .refl o
    · split_ifs
      · exact .erase hname
      · exact .refl o
      · exact .overwrite hname
    · split_ifs
      · exact .refl o
      · exact .erase hname
      · exact .overwrite hname

theorem removeSelection_changes (core : List Text) (name : Text) (filter : Filter)
    (items : List Json) (sub : Option Text) (o : Object) :
    Changes [name] o (removeSelection core name filter items sub o) := by
  unfold removeSelection
  split
  · exact .setField (by simp)
  · dsimp only
    split_ifs
    · exact .removeField (by simp)
    · exact .setField (by simp)

theorem removePath_changes (core : List Text) (p : Path) (doc : Object) :
    Changes p.topNames doc (removePath core p doc).resource := by
  have hurn : ∀ u ∈ p.schemaUrn.toList, u.lower ∈ p.topNames.map Text.lower :=
    fun u hu => List.mem_map_of_mem (List.mem_append_left _ hu)
  unfold removePath
  cases hes : p.elements with
  | nil =>
    cases hu : p.schemaUrn with
    | none => exact .refl doc
    | some u =>
      dsimp only
      split_ifs
      · exact .removeField (hurn u (by simp [hu]))
      · exact .refl doc
      · exact .refl doc
  | cons first rest =>
    have hfirst : ∀ n ∈ [first.name], n.lower ∈ p.topNames.map Text.lower := by
      intro n hn
      refine List.mem_map_of_mem (List.mem_append_right _ ?_)
      simpa [hes] using hn
    dsimp only
    split_ifs
    · cases hroot : Schema.rootOf? core doc p.schemaUrn with
      | none => exact .refl doc
      | some found =>
        exact .modifyAt (fun _ => (removeFields_changes core first rest doc).mono hfirst)
          ((Path.startsIn_of_rootOf? hroot).1.mono hurn)
    · obtain ⟨hchange, hok⟩ := p.target_changes core doc false
      cases htarget : p.target core doc false with
      | mk r found =>
        rw [htarget] at hchange hok
        refine hchange.trans ?_
        rcases r with e | _ | t
        · exact .refl found
        · exact .refl found
        cases t with
        | root container | field container name => exact .refl found
        | selection container name filter items subs =>
          cases items with
          | none => exact .refl found
          | some items =>
            exact (hok _ rfl).1.changes rfl (removeSelection_changes ..)

/-- Members are removed one after the other, up to a removal that fails. -/
theorem removeMembers_cons (core : List Text) (urn : Option Text) (name id : Text)
    (ids : List Text) (doc : Object) :
    removeMembers core urn name (id :: ids) doc =
      (removePath core (memberPath urn name id) doc).andThen (removeMembers core urn name ids) := by
  have hfailed : ∀ (e : Error) (d : Object),
      ids.foldl (fun (o : Outcome) id => o.andThen (removePath core (memberPath urn name id)))
        (.failed e d) = .failed e d := by
    intro e d
    induction ids with
    | nil => rfl
    | cons id rest ih => exact ih
  show ids.foldl _ (removePath core (memberPath urn name id) doc) = _
  obtain ⟨r, d⟩ := removePath core (memberPath urn name id) doc
  cases r with
  | error e => exact hfailed e d
  | ok _ => rfl

theorem removeMembers_changes (core : List Text) (urn : Option Text) (name : Text)
    (ids : List Text) (doc : Object) :
    Changes (urn.toList ++ [name]) doc (removeMembers core urn name ids doc).resource := by
  induction ids generalizing doc with
  | nil => exact .refl doc
  | cons id rest ih =>
    have hstep : Changes (urn.toList ++ [name]) doc
        (removePath core (memberPath urn name id) doc).resource :=
      removePath_changes core (memberPath urn name id) doc
    rw [removeMembers_cons]
    exact Outcome.andThen_resource hstep fun d hd => hd.trans (ih d)

theorem applyRemove_changes (options : PatchOptions) (op : Operation) (doc : Object) :
    Changes op.namesOf doc (op.applyRemove options doc).resource := by
  unfold applyRemove
  cases hpath : op.path with
  | none => exact .refl doc
  | some p =>
    dsimp only
    split_ifs
    · exact (removePath_changes options.coreUrns p doc).mono
        fun n hn => List.mem_map_of_mem (topNames_subset hpath hn)
    · exact .refl doc
    · split
      · exact .refl doc
      · exact .refl doc
      · rename_i ids first rest hids hes
        refine (removeMembers_changes options.coreUrns p.schemaUrn first.name ids doc).mono ?_
        intro n hn
        refine List.mem_map_of_mem (topNames_subset hpath ?_)
        simpa [Path.topNames, hes] using hn

/-! ### All of it -/

/-- An operation changes only the fields that it names. -/
theorem applyChange_changes (options : PatchOptions) (op : Operation) (doc : Object) :
    Changes op.namesOf doc (op.applyChange options doc).resource := by
  unfold applyChange
  cases op.change with
  | add => exact op.applyAdd_changes options.coreUrns doc
  | replace => exact op.applyReplace_changes options.coreUrns doc
  | remove => exact op.applyRemove_changes options doc

end Operation

end Scim

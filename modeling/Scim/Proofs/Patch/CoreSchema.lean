import Scim.Proofs.Patch.Accepted
import Scim.Proofs.Patch.Members
import Scim.Proofs.Path.Candidates

/-!
# Names qualified with a core schema

The attributes of a core schema live at the top level, so that a path may name the schema or leave it
out (`qualify_transparent`): it leads to the same places, conditions on it hold alike, and operations
on it do the same, to the errors' keywords. What could tell the two apart is an object stored under
the URN, which would come before the top level. Operations do not create one: the top level is the
root of the schema, and bookkeeping leaves core schemas alone. In the removal of listed members, the
root is looked up again for every one; what is there after one removal is still no object.
-/

namespace Scim

open Object

namespace Schema

variable {core : List Text} {doc : Object} {u : Text}

/-- No field under a URN, in any letter case, holds an object. -/
def StoresNoObject (u : Text) (doc : Object) : Prop :=
  ∀ m ∈ doc.members, m.1.lower = u.lower → m.2.object? = none

theorem StoresNoObject.extension? (h : StoresNoObject u doc) : extension? doc u = none := by
  rw [Path.extension?_eq_none_iff]
  intro o ho
  obtain ⟨key, hkey, hget⟩ := get?_of_field? ho
  cases h _ (mem_of_get? hget) (findKey?_eq_some hkey).2

/-- The root of a core schema is the top level. -/
theorem StoresNoObject.rootOf? (h : StoresNoObject u doc) (hu : u.lower ∈ core.map Text.lower) :
    rootOf? core doc (some u) = some ([], doc) := by
  show root? core doc u = _
  unfold root?
  rw [h.extension?]
  exact if_pos (isCore_of_mem hu doc)

end Schema

open Schema (StoresNoObject)

/-! ### Paths and conditions -/

/-- A path that names no schema, with the name of one. -/
def Path.qualify (u : Text) : Path → Path
  | ⟨none, elements⟩ => ⟨some u, elements⟩
  | p => p

mutual

/-- Names a schema in all paths of a filter, but not inside brackets. -/
def Filter.qualify (u : Text) : Filter → Filter
  | .compare op p l => .compare op (p.qualify u) l
  | .present p => .present (p.qualify u)
  | .logical op f g fs => .logical op (f.qualify u) (g.qualify u) (Filter.qualifyAll u fs)
  | .not f => .not (f.qualify u)
  | .complex p f => .complex (p.qualify u) f
termination_by structural f => f

def Filter.qualifyAll (u : Text) : List Filter → List Filter
  | [] => []
  | f :: fs => f.qualify u :: Filter.qualifyAll u fs
termination_by structural fs => fs

end

section Reading

variable {core : List Text} {doc : Object} {u : Text}

theorem Path.elements_qualify (p : Path) : (p.qualify u).elements = p.elements := by
  obtain ⟨_ | urn, elements⟩ := p <;> rfl

theorem Path.rootOf?_qualify (h : StoresNoObject u doc) (hu : u.lower ∈ core.map Text.lower)
    (p : Path) : Schema.rootOf? core doc (p.qualify u).schemaUrn =
      Schema.rootOf? core doc p.schemaUrn := by
  obtain ⟨_ | urn, elements⟩ := p
  · exact h.rootOf? hu
  · rfl

theorem Path.resolve_qualify (h : StoresNoObject u doc) (hu : u.lower ∈ core.map Text.lower)
    (p : Path) : (p.qualify u).resolve core doc = p.resolve core doc := by
  unfold resolve
  rw [rootOf?_qualify h hu, elements_qualify]

theorem Path.candidates_qualify (h : StoresNoObject u doc) (hu : u.lower ∈ core.map Text.lower)
    (p : Path) : (p.qualify u).candidates core (.obj doc) = p.candidates core (.obj doc) := by
  rw [candidates_obj, candidates_obj, rootOf?_qualify h hu, elements_qualify]

mutual

theorem Filter.holds_qualify (h : StoresNoObject u doc) (hu : u.lower ∈ core.map Text.lower) :
    ∀ f : Filter, (f.qualify u).holds core (.obj doc) = f.holds core (.obj doc)
  | .compare op p l | .present p | .complex p f => by
    simp only [Filter.qualify, Filter.holds, p.candidates_qualify h hu]
  | .logical op f g fs => by
    cases op <;> simp only [Filter.qualify, Filter.holds, f.holds_qualify h hu,
      g.holds_qualify h hu, Filter.allHold_qualify h hu fs, Filter.anyHolds_qualify h hu fs]
  | .not f => by simp only [Filter.qualify, Filter.holds, f.holds_qualify h hu]
termination_by structural f => f

theorem Filter.allHold_qualify (h : StoresNoObject u doc) (hu : u.lower ∈ core.map Text.lower) :
    ∀ fs : List Filter, Filter.allHold core (Filter.qualifyAll u fs) (.obj doc) =
      Filter.allHold core fs (.obj doc)
  | [] => rfl
  | f :: fs => by
    simp only [Filter.qualifyAll, Filter.allHold, f.holds_qualify h hu,
      Filter.allHold_qualify h hu fs]
termination_by structural fs => fs

theorem Filter.anyHolds_qualify (h : StoresNoObject u doc) (hu : u.lower ∈ core.map Text.lower) :
    ∀ fs : List Filter, Filter.anyHolds core (Filter.qualifyAll u fs) (.obj doc) =
      Filter.anyHolds core fs (.obj doc)
  | [] => rfl
  | f :: fs => by
    simp only [Filter.qualifyAll, Filter.anyHolds, f.holds_qualify h hu,
      Filter.anyHolds_qualify h hu fs]
termination_by structural fs => fs

end

end Reading

/-! ### Operations -/

/-- Outcomes that a client cannot tell apart, the wording of a failure aside. -/
inductive Outcome.Alike : Outcome → Outcome → Prop
  | same (o : Outcome) : Alike o o
  | failed {e e' : Error} {resource : Object} (h : e.keyword? = e'.keyword?) :
    Alike (.failed e resource) (.failed e' resource)

namespace Operation

variable {core : List Text} {doc doc' : Object} {u name : Text} {p q : Path} {op op' : Operation}
  {elements : List PathElement} {container : List Text} {create : Bool} {options : PatchOptions}

/-- The same for the search of a place to write to. -/
inductive FoundAlike {α : Type} : Except Error α × Object → Except Error α × Object → Prop
  | same (x : Except Error α × Object) : FoundAlike x x
  | failed {e e' : Error} {doc : Object} (h : e.keyword? = e'.keyword?) :
    FoundAlike (.error e, doc) (.error e', doc)

theorem targetContainer_alike (p q : Path) (create : Bool) (elements : List PathElement)
    (container : List Text) (doc : Object) :
    FoundAlike (Path.targetContainer p create elements container doc)
      (Path.targetContainer q create elements container doc) := by
  induction elements generalizing container doc with
  | nil => exact .same _
  | cons e rest ih =>
    cases rest with
    | nil => exact .same _
    | cons e' rest =>
      unfold Path.targetContainer
      split
      · exact ih ..
      · split_ifs
        · exact ih ..
        · exact .same _
      · exact .failed rfl

theorem targetFrom_alike (h : p.elements = q.elements) (create : Bool) (container : List Text)
    (doc : Object) :
    FoundAlike (p.targetFrom create container doc) (q.targetFrom create container doc) := by
  unfold Path.targetFrom
  rw [h]
  cases q.elements with
  | nil => exact .same _
  | cons first rest =>
    dsimp only
    split_ifs
    · exact .failed rfl
    cases first.selector with
    | some filter => exact .same _
    | none =>
      have hwalk := targetContainer_alike p q create (first :: rest) container doc
      generalize p.targetContainer create (first :: rest) container doc = x at hwalk
      generalize q.targetContainer create (first :: rest) container doc = y at hwalk
      cases hwalk with
      | same => exact .same _
      | failed hkey => exact .failed hkey

theorem target_qualify (h : StoresNoObject u doc) (hu : u.lower ∈ core.map Text.lower)
    (elements : List PathElement) (create : Bool) :
    FoundAlike (Path.target core ⟨none, elements⟩ doc create)
      (Path.target core ⟨some u, elements⟩ doc create) := by
  have hfrom : ∀ urn, Path.targetRoot core urn doc create = (.ok (some []), doc) →
      Path.target core ⟨urn, elements⟩ doc create =
        Path.targetFrom ⟨urn, elements⟩ create [] doc := by
    intro urn hroot
    unfold Path.target
    rw [hroot]
    rfl
  rw [hfrom none rfl, hfrom (some u) (Path.targetRoot_of_rootOf? (h.rootOf? hu) create)]
  exact targetFrom_alike (p := ⟨none, elements⟩) (q := ⟨some u, elements⟩) rfl create [] doc

theorem addToSelection_alike (path path' : Option Path) (container : List Text) (name : Text)
    (filter : Filter) (items : Option (List Json)) (subs : List Text) (value : Json)
    (doc : Object) :
    Outcome.Alike (addToSelection core path container name filter items subs value doc)
      (addToSelection core path' container name filter items subs value doc) := by
  unfold addToSelection
  split
  · dsimp only
    split_ifs
    · exact .same _
    · split
      · exact .same _
      · exact .failed rfl
  · exact .failed rfl

theorem applyAdd_alike (hchange : op.change = op'.change) (hvalue : op.value = op'.value)
    (h : FoundAlike (op.target core doc true) (op'.target core doc true)) :
    Outcome.Alike (op.applyAdd core doc) (op'.applyAdd core doc) := by
  unfold applyAdd
  rw [hchange, hvalue]
  split
  · exact .same _
  · exact .same _
  generalize op.target core doc true = x at h
  generalize op'.target core doc true = y at h
  cases h with
  | failed hkey => exact .failed hkey
  | same x =>
    obtain ⟨_ | _ | t, doc'⟩ := x
    · exact .same _
    · exact .same _
    cases t with
    | selection container name filter items subs => exact addToSelection_alike ..
    | _ => exact .same _

theorem applyReplace_alike (hchange : op.change = op'.change) (hvalue : op.value = op'.value)
    (h : ∀ create, FoundAlike (op.target core doc create) (op'.target core doc create)) :
    Outcome.Alike (op.applyReplace core doc) (op'.applyReplace core doc) := by
  unfold applyReplace
  rw [hchange, hvalue]
  split
  · exact .same _
  rename_i value _
  have hfound := h (!value.isUnassigned)
  generalize op.target core doc (!value.isUnassigned) = x at hfound
  generalize op'.target core doc (!value.isUnassigned) = y at hfound
  cases hfound with
  | failed hkey => exact .failed hkey
  | same => exact .same _

theorem removePath_qualify (h : StoresNoObject u doc) (hu : u.lower ∈ core.map Text.lower)
    (hne : elements ≠ []) :
    Outcome.Alike (removePath core ⟨none, elements⟩ doc)
      (removePath core ⟨some u, elements⟩ doc) := by
  cases elements with
  | nil => exact absurd rfl hne
  | cons first rest =>
    unfold removePath
    dsimp only
    split_ifs
    · rw [h.rootOf? hu]
      exact .same _
    · have hfound := target_qualify h hu (first :: rest) false
      generalize Path.target core ⟨none, first :: rest⟩ doc false = x at hfound
      generalize Path.target core ⟨some u, first :: rest⟩ doc false = y at hfound
      cases hfound with
      | failed hkey => exact .failed hkey
      | same => exact .same _

/-- A list that becomes shorter or goes is no object. -/
theorem storesNoObject_removeMember (core : List Text) (h : StoresNoObject u doc)
    (name id : Text) :
    StoresNoObject u (removePath core (memberPath none name id) doc).resource := by
  rcases removePath_memberPath_cases core none name doc with
    ⟨e, hfail, -⟩ | hsame | ⟨c, root, items, hroot, hfield, hdone⟩
  · rw [hfail]
    exact h
  · rw [hsame]
    exact h
  · obtain ⟨rfl, rfl⟩ := Prod.mk.inj (Option.some.inj hroot)
    obtain ⟨key, hkey, -⟩ := get?_of_field? hfield
    rw [hdone, Object.modifyAt_nil]
    show StoresNoObject u (removeSelection core name (memberFilter id) items none doc)
    unfold removeSelection
    dsimp only
    split_ifs
    · intro m hm
      rcases doc.removeField_eq name with heq | heq <;> rw [heq] at hm
      · exact h m hm
      · exact h m (List.mem_filter.mp hm).1
    · rw [setField_of_findKey? hkey]
      intro m hm
      rcases mem_overwrite hm with heq | hmem
      · exact fun _ => heq ▸ rfl
      · exact h m hmem

theorem removeMembers_qualify (h : StoresNoObject u doc) (hu : u.lower ∈ core.map Text.lower)
    (name : Text) (ids : List Text) :
    Outcome.Alike (removeMembers core none name ids doc)
      (removeMembers core (some u) name ids doc) := by
  induction ids generalizing doc with
  | nil => exact .same _
  | cons id rest ih =>
    rw [removeMembers_cons, removeMembers_cons]
    have hstep : Outcome.Alike (removePath core (memberPath none name id) doc)
        (removePath core (memberPath (some u) name id) doc) :=
      removePath_qualify h hu (by simp)
    have hnext := storesNoObject_removeMember core h name id
    generalize removePath core (memberPath none name id) doc = x at hstep hnext
    generalize removePath core (memberPath (some u) name id) doc = y at hstep
    cases hstep with
    | failed hkey => exact .failed hkey
    | same =>
      obtain ⟨_ | _, doc'⟩ := x
      · exact .same _
      · exact ih hnext

theorem applyRemove_qualify (h : StoresNoObject u doc)
    (hu : u.lower ∈ options.coreUrns.map Text.lower) (hne : elements ≠ []) (change : Change)
    (value : Option Json) :
    Outcome.Alike (applyRemove options ⟨change, some ⟨none, elements⟩, value⟩ doc)
      (applyRemove options ⟨change, some ⟨some u, elements⟩, value⟩ doc) := by
  unfold applyRemove
  have hvalue : removesByValue ⟨change, some ⟨some u, elements⟩, value⟩ =
    removesByValue ⟨change, some ⟨none, elements⟩, value⟩ := rfl
  have hmembers : members ⟨change, some ⟨some u, elements⟩, value⟩ =
    members ⟨change, some ⟨none, elements⟩, value⟩ := rfl
  dsimp only
  rw [hvalue, hmembers]
  split_ifs
  · exact removePath_qualify h hu hne
  · exact .failed rfl
  · split
    · exact .same _
    · exact .same _
    · exact removeMembers_qualify h hu ..

theorem applyChange_qualify (h : StoresNoObject u doc)
    (hu : u.lower ∈ options.coreUrns.map Text.lower) (hne : elements ≠ []) (change : Change)
    (value : Option Json) :
    Outcome.Alike (applyChange options ⟨change, some ⟨none, elements⟩, value⟩ doc)
      (applyChange options ⟨change, some ⟨some u, elements⟩, value⟩ doc) := by
  have hfound := target_qualify h hu elements
  cases change with
  | add => exact applyAdd_alike rfl rfl (hfound true)
  | replace => exact applyReplace_alike rfl rfl hfound
  | remove => exact applyRemove_qualify h hu hne _ _

/-- Bookkeeping leaves a configured core schema alone. -/
theorem apply_qualify (h : StoresNoObject u doc) (hu : u.lower ∈ options.coreUrns.map Text.lower)
    (hne : elements ≠ []) (change : Change) (value : Option Json) :
    Outcome.Alike (apply options ⟨change, some ⟨none, elements⟩, value⟩ doc)
      (apply options ⟨change, some ⟨some u, elements⟩, value⟩ doc) := by
  have hkeep : ∀ doc, updateSchemas options.coreUrns ⟨change, some ⟨some u, elements⟩, value⟩ doc =
      doc := fun doc => if_pos (Schema.isCore_of_mem hu doc)
  have halike := applyChange_qualify h hu hne change value
  unfold apply
  dsimp only
  rw [hkeep]
  exact halike

theorem make_some (hne : p.elements ≠ []) (change : Change) (value : Option Json) :
    make change (some p) value =
      (check change (some p) value).map fun _ => ⟨change, some p, value⟩ := by
  have hkept : (some p).filter (!·.isRoot) = some p := by
    simp [Option.filter, Path.isRoot, hne]
  rw [make_eq, hkept]

/-- Operations at two paths with the same elements are accepted both or neither. -/
theorem make_cases (hne : p.elements ≠ []) (h : p.elements = q.elements) (change : Change)
    (value : Option Json) :
    (∃ e e', make change (some p) value = .error e ∧ make change (some q) value = .error e') ∨
    make change (some p) value = .ok ⟨change, some p, value⟩ ∧
      make change (some q) value = .ok ⟨change, some q, value⟩ := by
  have hform : p.form = q.form := by rw [Path.form, Path.form, h]
  have htakes : takesMembers p = takesMembers q := by rw [takesMembers, takesMembers, h]
  have hcheck : check change (some p) value = .ok () ↔ check change (some q) value = .ok () :=
    check_congr hform fun _ _ => htakes
  rw [make_some hne, make_some (h ▸ hne)]
  generalize check change (some p) value = x at hcheck
  generalize check change (some q) value = y at hcheck
  rcases x with e | _ <;> rcases y with e' | _
  · exact .inl ⟨e, e', rfl, rfl⟩
  · cases hcheck.mpr rfl
  · cases hcheck.mp rfl
  · exact .inr ⟨rfl, rfl⟩

end Operation

/-- Naming a core schema changes nothing in a document with no object under its URN: not where a
path leads, not whether a filter holds, not whether an operation is accepted, and not what an
accepted one does, to the keyword of its error and what it leaves behind when it fails. -/
theorem qualify_transparent (options : PatchOptions) (u : Text)
    (hu : u.lower ∈ options.coreUrns.map Text.lower) (doc : Object)
    (h : Schema.StoresNoObject u doc) :
    (∀ p : Path, (p.qualify u).resolve options.coreUrns doc = p.resolve options.coreUrns doc) ∧
    (∀ f : Filter, (f.qualify u).holds options.coreUrns (.obj doc) =
      f.holds options.coreUrns (.obj doc)) ∧
    ∀ (change : Change) (p : Path) (value : Option Json), p.elements ≠ [] →
      (∃ e e', Operation.make change (some p) value = .error e ∧
        Operation.make change (some (p.qualify u)) value = .error e') ∨
      ∃ op op', Operation.make change (some p) value = .ok op ∧
        Operation.make change (some (p.qualify u)) value = .ok op' ∧
        Outcome.Alike (op.apply options doc) (op'.apply options doc) := by
  refine ⟨Path.resolve_qualify h hu, Filter.holds_qualify h hu, fun change p value hne => ?_⟩
  refine (Operation.make_cases hne p.elements_qualify.symm change value).imp_right ?_
  rintro ⟨hop, hop'⟩
  refine ⟨_, _, hop, hop', ?_⟩
  obtain ⟨_ | urn, elements⟩ := p
  · exact Operation.apply_qualify h hu hne change value
  · exact .same _

/-- A user without extensions, and the core schema in other letters. -/
def plainUser : Object :=
  ⟨[("emails", .arr [.ofMembers [("type", .str "work"), ("value", .str "a@b.c")]])], false⟩

def upperUrn : Text := "URN:ietf:params:scim:schemas:core:2.0:USER"

theorem qualify_transparent_plainUser :
    Schema.StoresNoObject upperUrn plainUser ∧
    ((Path.ofName "emails").qualify upperUrn).resolve PatchOptions.default.coreUrns plainUser =
      (Path.ofName "emails").resolve PatchOptions.default.coreUrns plainUser ∧
    ∃ op op', Operation.make .remove (some (Path.ofName "emails")) none = .ok op ∧
      Operation.make .remove (some ((Path.ofName "emails").qualify upperUrn)) none = .ok op' ∧
      Outcome.Alike (op.apply .default plainUser) (op'.apply .default plainUser) := by
  have hstores : Schema.StoresNoObject upperUrn plainUser := by
    intro m hm
    obtain rfl : m = _ := List.mem_singleton.mp hm
    exact fun _ => rfl
  obtain ⟨hresolve, -, hmake⟩ :=
    qualify_transparent .default upperUrn (by decide) plainUser hstores
  refine ⟨hstores, hresolve _, (hmake .remove (.ofName "emails") none nofun).resolve_left ?_⟩
  rintro ⟨e, e', he, -⟩
  cases he

end Scim

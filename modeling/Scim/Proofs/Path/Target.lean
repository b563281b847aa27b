import Scim.Proofs.Json.Field

/-!
# What finding a place to write changes

`Path.target` may create objects on the way. They are all inside the field that the path starts at
(`target_changes`), the place found is inside that field too (`Target.StartsIn`), and where a path
without late selectors turns out to be unfit, nothing was created (`target_error`): whatever was
created is empty, so that nothing inside it is in the way.
-/

namespace Scim

open Object

/-- A way into an object starts with one of the names, as it is stored. -/
def Object.StartsIn (names : List Text) (o : Object) (container : List Text) : Prop :=
  ∀ key ∈ container.head?, key.lower ∈ names.map Text.lower ∧ o.storedName key = key

namespace Object

variable {names container : List Text} {name : Text} {doc : Object} {change : Object → Object}

theorem StartsIn.nil : StartsIn names doc [] := nofun

theorem StartsIn.mono {names' : List Text} (h : StartsIn names doc container)
    (hsub : ∀ n ∈ names, n.lower ∈ names'.map Text.lower) : StartsIn names' doc container := by
  intro key hkey
  obtain ⟨hname, hstored⟩ := h key hkey
  obtain ⟨n, hn, hlower⟩ := List.mem_map.mp hname
  exact ⟨hlower ▸ hsub n hn, hstored⟩

theorem StartsIn.append (h : StartsIn names doc container)
    (hname : container = [] → name.lower ∈ names.map Text.lower) :
    StartsIn names doc (container ++ [(doc.objectAt container).storedName name]) := by
  cases container with
  | nil =>
    rintro _ ⟨⟩
    rw [objectAt_nil, lower_storedName]
    exact ⟨hname rfl, doc.storedName_storedName name⟩
  | cons key rest => exact h

theorem StartsIn.modifyAt {keys : List Text} (h : StartsIn names doc container)
    (hne : container ≠ []) (hkeys : keys.head? = container.head?) :
    StartsIn names (doc.modifyAt change container) keys := by
  cases container with
  | nil => exact absurd rfl hne
  | cons key rest =>
    intro k hk
    rw [hkeys] at hk
    obtain rfl : key = k := by simpa using hk
    exact ⟨(h key rfl).1, storedName_modifyAt (h key rfl).2⟩

@[simp] theorem objectAt_empty (container : List Text) : empty.objectAt container = empty := by
  cases container <;> rfl

theorem objectAt_cons (o : Object) (key : Text) (rest : List Text) :
    o.objectAt (key :: rest) =
      match o.get? key with
      | some (.obj inner) => objectAt inner rest
      | _ => empty := rfl

theorem modifyAt_cons (change : Object → Object) (o : Object) (key : Text) (rest : List Text) :
    o.modifyAt change (key :: rest) =
      match o.get? key with
      | some (.obj inner) => o.overwrite key (.obj (modifyAt change inner rest))
      | none =>
        if key = reservedName then o.assign key (.obj (modifyAt change empty rest)) else o
      | some _ => o := rfl

/-- An assigned object is found, unless it is not stored. -/
theorem objectAt_assign (o inner : Object) (key : Text) (rest : List Text) :
    (o.assign key (.obj inner)).objectAt (key :: rest) = inner.objectAt rest ∨
      (o.assign key (.obj inner)).objectAt (key :: rest) = empty := by
  rw [objectAt_cons]
  unfold assign
  split_ifs with hk
  · rw [get?_overwrite, if_pos rfl]
    cases o.get? key with
    | none => exact .inr rfl
    | some _ => exact .inl rfl
  · have hnone : o.get? key = none := get?_eq_none_iff.mpr (by simpa using hk)
    rw [show get? { o with unlocked := unlocks (.obj inner) } key = none from hnone]
    exact .inr rfl
  · rw [get?_add (by simpa using hk), if_pos rfl]
    exact .inl rfl

/-- A new object is empty; one that is not stored reads as empty. -/
theorem objectAt_createObject (doc : Object) (container : List Text) (name : Text) :
    (doc.createObject container name).2.objectAt (doc.createObject container name).1 = empty := by
  show (doc.modifyAt (·.setField name (.obj empty)) container).objectAt
    (container ++ [(doc.objectAt container).storedName name]) = empty
  induction container generalizing doc with
  | nil => rcases doc.objectAt_assign empty (doc.storedName name) [] with h | h <;> exact h
  | cons key rest ih =>
    rw [objectAt_cons]
    unfold Object.modifyAt
    cases hget : doc.get? key with
    | none =>
      have hempty := ih empty
      rw [objectAt_empty] at hempty
      show objectAt (if key = reservedName then doc.assign key _ else doc) (key :: _) = _
      split_ifs
      · rcases doc.objectAt_assign (empty.modifyAt (·.setField name (.obj empty)) rest) key
          (rest ++ [empty.storedName name]) with h | h
        · exact h.trans hempty
        · exact h
      · rw [objectAt_cons, hget]
    | some v =>
      cases v with
      | obj inner =>
        show objectAt (doc.overwrite key _) (key :: _) = _
        rw [objectAt_cons, get?_overwrite, if_pos rfl, hget]
        exact ih inner
      | _ =>
        show doc.objectAt (key :: _) = _
        rw [objectAt_cons, hget]

theorem createObject_changes (h : StartsIn names doc container)
    (hname : container = [] → name.lower ∈ names.map Text.lower) :
    Changes names doc (doc.createObject container name).2 :=
  .modifyAt (fun hc => .setField (hname hc)) h

theorem createObject_startsIn (h : StartsIn names doc container)
    (hname : container = [] → name.lower ∈ names.map Text.lower) :
    StartsIn names (doc.createObject container name).2 (doc.createObject container name).1 := by
  cases container with
  | nil =>
    rintro _ ⟨⟩
    rw [objectAt_nil, lower_storedName]
    exact ⟨hname rfl, storedName_assign (doc.storedName_storedName name)⟩
  | cons key rest => exact h.modifyAt (by simp) rfl

end Object

namespace Schema

variable {core : List Text} {doc : Object} {key urn : Text}

theorem isCore_congr (h : key.lower = urn.lower) : isCore core doc key = isCore core doc urn := by
  unfold isCore
  rw [h]

theorem isCore_of_mem (h : urn.lower ∈ core.map Text.lower) (doc : Object) :
    isCore core doc urn = true := by
  obtain ⟨c, hc, hlower⟩ := List.mem_map.mp h
  unfold isCore
  rw [Bool.or_eq_true]
  exact .inl (List.any_eq_true.mpr ⟨c, hc, by simpa using hlower⟩)

end Schema

namespace Path

variable {core names container : List Text} {elements : List PathElement} {p path : Path}
  {create : Bool} {doc doc' : Object} {e : Error}

/-- The path to an attribute of a schema. -/
def ofAttribute (urn name : Text) : Path := ⟨some urn, [⟨name, none⟩]⟩

/-- The names of the top level that a path may lead through. -/
def topNames (p : Path) : List Text :=
  p.schemaUrn.toList ++ (p.elements.head?.map PathElement.name).toList

/-! ### The root of a schema -/

theorem extension?_eq_some_iff {urn key : Text} {root : Object} :
    Schema.extension? doc urn = some (key, root) ↔
      doc.findKey? urn = some key ∧ doc.get? key = some (.obj root) := by
  unfold Schema.extension?
  constructor
  · intro h
    obtain ⟨k, hk, h⟩ := Option.bind_eq_some_iff.mp h
    obtain ⟨v, hv, h⟩ := Option.bind_eq_some_iff.mp h
    obtain ⟨o, ho, h⟩ := Option.bind_eq_some_iff.mp h
    cases v <;> cases ho
    cases h
    exact ⟨hk, hv⟩
  · rintro ⟨hk, hv⟩
    simp [hk, hv, Json.object?]

theorem extension?_eq_none_iff {urn : Text} :
    Schema.extension? doc urn = none ↔ ∀ o, doc.field? urn ≠ some (.obj o) := by
  constructor
  · intro h o hfield
    obtain ⟨key, hkey, hget⟩ := Option.bind_eq_some_iff.mp hfield
    rw [extension?_eq_some_iff.mpr ⟨hkey, hget⟩] at h
    cases h
  · intro h
    by_contra hne
    obtain ⟨⟨key, root⟩, hext⟩ := Option.ne_none_iff_exists'.mp hne
    obtain ⟨hkey, hget⟩ := extension?_eq_some_iff.mp hext
    exact h root (Option.bind_eq_some_iff.mpr ⟨key, hkey, hget⟩)

/-- What is core depends on the list of schemas only. -/
theorem isCore_of_changes {names : List Text} (h : Changes names doc doc')
    (hlist : Schema.listName.lower ∉ names.map Text.lower) (core : List Text) (urn : Text) :
    Schema.isCore core doc' urn = Schema.isCore core doc urn := by
  unfold Schema.isCore
  rw [h.field? hlist]

/-- The root of a schema is the document, or the object that a field of it holds. -/
theorem rootOf?_cases {urn : Option Text} {root : Object}
    (h : Schema.rootOf? core doc urn = some (container, root)) :
    (container = [] ∧ root = doc) ∨
      ∃ u key, urn = some u ∧ container = [key] ∧ doc.findKey? u = some key ∧
        doc.get? key = some (.obj root) := by
  cases urn with
  | none => cases h; exact .inl ⟨rfl, rfl⟩
  | some u =>
    change Schema.root? core doc u = _ at h
    unfold Schema.root? at h
    split at h
    · rename_i key members hext
      cases h
      exact .inr ⟨u, key, rfl, rfl, extension?_eq_some_iff.mp hext⟩
    · split_ifs at h
      cases h
      exact .inl ⟨rfl, rfl⟩

theorem startsIn_of_rootOf? {urn : Option Text} {root : Object}
    (h : Schema.rootOf? core doc urn = some (container, root)) :
    StartsIn urn.toList doc container ∧ doc.objectAt container = root := by
  rcases rootOf?_cases h with ⟨rfl, rfl⟩ | ⟨u, key, rfl, rfl, hkey, hget⟩
  · exact ⟨.nil, rfl⟩
  · refine ⟨?_, by rw [objectAt_cons, hget]; rfl⟩
    rintro _ ⟨⟩
    obtain ⟨hmem, hlower⟩ := findKey?_eq_some hkey
    exact ⟨by simp [hlower], storedName_of_findKey? (findKey?_self hmem)⟩

theorem targetRoot_of_rootOf? {urn : Option Text} {root : Object}
    (h : Schema.rootOf? core doc urn = some (container, root)) (create : Bool) :
    targetRoot core urn doc create = (.ok (some container), doc) := by
  cases urn with
  | none => cases h; rfl
  | some u =>
    have hroot : Schema.root? core doc u = some (container, root) := h
    simp [targetRoot, hroot]

/-- A schema has a root, or there is none to be had, or a new object becomes one. -/
theorem targetRoot_cases (core : List Text) (urn : Option Text) (doc : Object) (create : Bool) :
    (∃ c root, Schema.rootOf? core doc urn = some (c, root) ∧
      targetRoot core urn doc create = (.ok (some c), doc)) ∨
    (∃ r, targetRoot core urn doc create = (r, doc) ∧ ∀ c, r ≠ .ok (some c)) ∨
    ∃ u, urn = some u ∧ Schema.root? core doc u = none ∧ create = true ∧
      targetRoot core urn doc create =
        (.ok (some (doc.createObject [] u).1), (doc.createObject [] u).2) := by
  cases hroot : Schema.rootOf? core doc urn with
  | some root => exact .inl ⟨root.1, root.2, rfl, targetRoot_of_rootOf? hroot create⟩
  | none =>
    cases urn with
    | none => cases hroot
    | some u =>
      have hnone : Schema.root? core doc u = none := hroot
      refine .inr ?_
      simp only [targetRoot, hnone]
      split
      · split_ifs with hcreate
        · exact .inr ⟨u, rfl, hnone, hcreate, rfl⟩
        · exact .inl ⟨_, rfl, by simp⟩
      · exact .inl ⟨_, rfl, by simp⟩

/-! ### The way to a field -/

theorem targetContainer_cons (path : Path) (create : Bool) (e e' : PathElement)
    (rest : List PathElement) (container : List Text) (doc : Object) :
    targetContainer path create (e :: e' :: rest) container doc =
      match ((doc.objectAt container).field? e.name).getD .null with
      | .obj _ => targetContainer path create (e' :: rest)
          (container ++ [(doc.objectAt container).storedName e.name]) doc
      | .null =>
        if create then targetContainer path create (e' :: rest)
          (doc.createObject container e.name).1 (doc.createObject container e.name).2
        else (.ok none, doc)
      | _ => (.error (.notComplex path e.name), doc) := rfl

theorem targetContainer_changes (path : Path) (create : Bool) (h : StartsIn names doc container)
    (hname : container = [] → ∀ e ∈ elements.head?, e.name.lower ∈ names.map Text.lower) :
    Changes names doc (targetContainer path create elements container doc).2 ∧
    ∀ c, (targetContainer path create elements container doc).1 = .ok (some c) →
      StartsIn names (targetContainer path create elements container doc).2 c ∧
      (c = [] → container = [] ∧ elements.tail = []) := by
  induction elements generalizing container doc with
  | nil =>
    refine ⟨.refl doc, ?_⟩
    rintro _ ⟨⟩
    exact ⟨h, fun hc => ⟨hc, rfl⟩⟩
  | cons e rest ih =>
    cases rest with
    | nil =>
      refine ⟨.refl doc, ?_⟩
      rintro _ ⟨⟩
      exact ⟨h, fun hc => ⟨hc, rfl⟩⟩
    | cons e' rest =>
      have hname : container = [] → e.name.lower ∈ names.map Text.lower := fun hc => hname hc e rfl
      have hne : container ++ [(doc.objectAt container).storedName e.name] ≠ [] := by simp
      unfold targetContainer
      split
      · obtain ⟨hchange, hc⟩ := ih (h.append hname) fun hc => absurd hc hne
        exact ⟨hchange, fun c hok => ⟨(hc c hok).1, fun h => absurd ((hc c hok).2 h).1 hne⟩⟩
      · split_ifs
        · obtain ⟨hchange, hc⟩ := ih (createObject_startsIn h hname) fun hc => absurd hc hne
          exact ⟨(createObject_changes h hname).trans hchange,
            fun c hok => ⟨(hc c hok).1, fun h => absurd ((hc c hok).2 h).1 hne⟩⟩
        · exact ⟨.refl doc, nofun⟩
      · exact ⟨.refl doc, nofun⟩

/-- Inside an empty object nothing is in the way. -/
theorem targetContainer_of_empty (h : doc.objectAt container = empty) :
    ∃ c, (targetContainer path true elements container doc).1 = .ok (some c) := by
  induction elements generalizing container doc with
  | nil => exact ⟨container, rfl⟩
  | cons e rest ih =>
    cases rest with
    | nil => exact ⟨container, rfl⟩
    | cons e' rest =>
      unfold targetContainer
      rw [h]
      exact ih (objectAt_createObject doc container e.name)

theorem targetContainer_error
    (h : targetContainer path create elements container doc = (.error e, doc')) : doc' = doc := by
  induction elements generalizing container doc with
  | nil => cases h
  | cons e rest ih =>
    cases rest with
    | nil => cases h
    | cons e' rest =>
      unfold targetContainer at h
      split at h
      · exact ih h
      · split_ifs at h with hcreate
        · -- After the first new object there are only new ones, so the walk does not fail.
          subst hcreate
          obtain ⟨c, hc⟩ : ∃ c, (targetContainer path true (e' :: rest)
              (doc.createObject container e.name).1 (doc.createObject container e.name).2).1 =
              .ok (some c) := targetContainer_of_empty (objectAt_createObject doc container e.name)
          cases hc.symm.trans (congrArg Prod.fst h)
        · cases h
      · cases h
        rfl

theorem targetContainer_create (path : Path) (elements : List PathElement) (container : List Text)
    (doc : Object) : (targetContainer path true elements container doc).1 ≠ .ok none := by
  induction elements generalizing container doc with
  | nil => simp [targetContainer]
  | cons e rest ih =>
    cases rest with
    | nil => simp [targetContainer]
    | cons e' rest =>
      unfold targetContainer
      split
      · exact ih _ _
      · exact ih _ _
      · simp

/-! ### The place -/

/-- The place that a path addresses from the object at `container`. -/
def targetFrom (p : Path) (create : Bool) (container : List Text) (doc : Object) :
    Except Error (Option Target) × Object :=
  match p.elements with
  | [] => (.ok (some (.root container)), doc)
  | first :: rest =>
    if rest.any fun e => e.selector.isSome then (.error (.lateSelector p), doc)
    else match first.selector with
      | some filter =>
        ((targetSelection container first.name filter (rest.map (·.name)) doc).map some, doc)
      | none =>
        match targetContainer p create (first :: rest) container doc with
        | (.ok (some container), doc) =>
          (.ok (some (.field container ((first :: rest).getLast (List.cons_ne_nil _ _)).name)), doc)
        | (.ok none, doc) => (.ok none, doc)
        | (.error e, doc) => (.error e, doc)

theorem target_cases (core : List Text) (p : Path) (doc : Object) (create : Bool) :
    (∃ c root, Schema.rootOf? core doc p.schemaUrn = some (c, root) ∧
      p.target core doc create = p.targetFrom create c doc) ∨
    (∃ r, p.target core doc create = (r, doc) ∧ ∀ t, r ≠ .ok (some t)) ∨
    ∃ u, p.schemaUrn = some u ∧ Schema.root? core doc u = none ∧ create = true ∧
      p.target core doc create =
        p.targetFrom create (doc.createObject [] u).1 (doc.createObject [] u).2 := by
  unfold target
  rcases targetRoot_cases core p.schemaUrn doc create with
    ⟨c, root, hroot, heq⟩ | ⟨r, heq, hr⟩ | ⟨u, hu, hroot, hcreate, heq⟩
  · exact .inl ⟨c, root, hroot, by rw [heq]; rfl⟩
  · refine .inr (.inl ?_)
    rw [heq]
    rcases r with e | _ | c
    · exact ⟨_, rfl, by simp⟩
    · exact ⟨_, rfl, by simp⟩
    · exact absurd rfl (hr c)
  · exact .inr (.inr ⟨u, hu, hroot, hcreate, by rw [heq]; rfl⟩)

end Path

namespace Target

/-- The name of the field of a target that is no whole object. -/
def name? : Target → Option Text
  | root _ => none
  | field _ name | selection _ name .. => some name

/-- A target is inside a field of one of the names, or is such a field. -/
structure StartsIn (names : List Text) (doc : Object) (t : Target) : Prop where
  container : doc.StartsIn names t.container
  name : t.container = [] → ∀ n ∈ t.name?, n.lower ∈ names.map Text.lower

variable {names names' : List Text} {doc : Object} {t : Target}

theorem StartsIn.mono (h : t.StartsIn names doc)
    (hsub : ∀ n ∈ names, n.lower ∈ names'.map Text.lower) : t.StartsIn names' doc := by
  refine ⟨h.container.mono hsub, fun hnil n hn => ?_⟩
  obtain ⟨n', hn', hlower⟩ := List.mem_map.mp (h.name hnil n hn)
  exact hlower ▸ hsub n' hn'

/-- Writing the field that a target is, or is inside of. -/
theorem StartsIn.changes {name : Text} {change : Object → Object} (h : t.StartsIn names doc)
    (hname : t.name? = some name) (hchange : Changes [name] doc (change doc)) :
    Changes names doc (doc.modifyAt change t.container) :=
  .modifyAt (fun hnil => hchange.mono fun n hn => h.name hnil n (by simp_all)) h.container

end Target

namespace Path

variable {core names container : List Text} {elements : List PathElement} {p path : Path}
  {create : Bool} {doc doc' : Object} {e : Error} {t : Target}

theorem targetSelection_eq_ok {name : Text} {filter : Filter} {subs : List Text}
    (h : targetSelection container name filter subs doc = .ok t) :
    t.container = container ∧ t.name? = some name := by
  unfold targetSelection at h
  split at h <;> cases h <;> exact ⟨rfl, rfl⟩

theorem targetFrom_changes (h : doc.StartsIn names container)
    (hname : container = [] → ∀ e ∈ p.elements.head?, e.name.lower ∈ names.map Text.lower) :
    Changes names doc (p.targetFrom create container doc).2 ∧
    ∀ t, (p.targetFrom create container doc).1 = .ok (some t) →
      t.StartsIn names (p.targetFrom create container doc).2 ∧
      (t.name? = none → p.elements = []) := by
  unfold targetFrom
  cases hes : p.elements with
  | nil =>
    refine ⟨.refl doc, ?_⟩
    rintro _ ⟨⟩
    exact ⟨⟨h, fun _ => nofun⟩, fun _ => rfl⟩
  | cons first rest =>
    rw [hes] at hname
    simp only
    split_ifs
    · refine ⟨.refl doc, ?_⟩
      rintro _ ⟨⟩
    cases hsel : first.selector with
    | some filter =>
      refine ⟨.refl doc, fun t ht => ?_⟩
      cases hread : targetSelection container first.name filter (rest.map (·.name)) doc with
      | error e => simp [hread, Except.map] at ht
      | ok t' =>
        obtain rfl : t' = t := by simpa [hread, Except.map] using ht
        obtain ⟨hc, hn⟩ := targetSelection_eq_ok hread
        refine ⟨⟨hc ▸ h, fun hnil n hmem => ?_⟩, by simp [hn]⟩
        obtain rfl : first.name = n := by simpa [hn] using hmem
        exact hname (hc ▸ hnil) first rfl
    | none =>
      obtain ⟨hchange, hok⟩ := targetContainer_changes p create h hname
      cases hwalk : targetContainer p create (first :: rest) container doc with
      | mk r doc' =>
        rw [hwalk] at hchange hok
        rcases r with e | _ | c
        · refine ⟨hchange, ?_⟩
          rintro _ ⟨⟩
        · refine ⟨hchange, ?_⟩
          rintro _ ⟨⟩
        obtain ⟨hc, hnil⟩ := hok c rfl
        refine ⟨hchange, ?_⟩
        rintro _ ⟨⟩
        refine ⟨⟨hc, fun hempty n hmem => ?_⟩, by simp [Target.name?]⟩
        obtain ⟨hstart, htail⟩ := hnil hempty
        obtain rfl : rest = [] := htail
        cases hmem
        exact hname hstart first rfl

/-- In an empty object a path without late selectors finds its place. -/
theorem targetFrom_of_empty (hlate : ∀ e ∈ p.elements.tail, e.selector = none)
    (h : doc.objectAt container = empty) :
    ∃ t, (p.targetFrom true container doc).1 = .ok (some t) := by
  unfold targetFrom
  cases hes : p.elements with
  | nil => exact ⟨_, rfl⟩
  | cons first rest =>
    rw [hes] at hlate
    have hrest : ¬ (rest.any fun e => e.selector.isSome) := by simpa using hlate
    simp only [if_neg hrest]
    cases first.selector with
    | some filter =>
      simp only [targetSelection, h]
      exact ⟨_, rfl⟩
    | none =>
      obtain ⟨c, hc⟩ : ∃ c, (targetContainer p true (first :: rest) container doc).1 =
          .ok (some c) := targetContainer_of_empty h
      cases hwalk : targetContainer p true (first :: rest) container doc with
      | mk r doc' =>
        rw [hwalk] at hc
        cases hc
        exact ⟨_, rfl⟩

theorem targetFrom_error (h : p.targetFrom create container doc = (.error e, doc')) :
    doc' = doc := by
  unfold targetFrom at h
  cases hes : p.elements with
  | nil => simp [hes] at h
  | cons first rest =>
    simp only [hes] at h
    split_ifs at h
    · cases h; rfl
    cases hsel : first.selector with
    | some filter =>
      simp only [hsel, Prod.mk.injEq] at h
      exact h.2.symm
    | none =>
      simp only [hsel] at h
      cases hwalk : targetContainer p create (first :: rest) container doc with
      | mk r doc'' =>
        rw [hwalk] at h
        rcases r with e' | _ | c
        · cases h
          exact targetContainer_error hwalk
        · cases h
        · cases h

/-- On the way to a whole object or to selected values nothing is created. -/
theorem targetFrom_whole (h : p.targetFrom create container doc = (.ok (some t), doc'))
    (ht : ∀ c name, t ≠ .field c name) : doc' = doc := by
  unfold targetFrom at h
  cases hes : p.elements with
  | nil =>
    simp only [hes, Prod.mk.injEq] at h
    exact h.2.symm
  | cons first rest =>
    simp only [hes] at h
    split_ifs at h
    · cases h
    cases hsel : first.selector with
    | some filter =>
      simp only [hsel, Prod.mk.injEq] at h
      exact h.2.symm
    | none =>
      simp only [hsel] at h
      split at h
      · cases h
        exact absurd rfl (ht _ _)
      · cases h
      · cases h

/-- What finding a place changes, and where the place is. -/
theorem target_changes (core : List Text) (p : Path) (doc : Object) (create : Bool) :
    Changes p.topNames doc (p.target core doc create).2 ∧
    ∀ t, (p.target core doc create).1 = .ok (some t) →
      t.StartsIn p.topNames (p.target core doc create).2 ∧ (t.name? = none → p.elements = []) := by
  have hhead : ∀ e ∈ p.elements.head?, e.name.lower ∈ p.topNames.map Text.lower := by
    intro e he
    refine List.mem_map.mpr ⟨e.name, ?_, rfl⟩
    simp [topNames, Option.mem_def.mp he]
  have hurn : ∀ u ∈ p.schemaUrn.toList, u.lower ∈ p.topNames.map Text.lower := by
    intro u hu
    exact List.mem_map.mpr ⟨u, List.mem_append_left _ hu, rfl⟩
  rcases target_cases core p doc create with
    ⟨c, root, hroot, heq⟩ | ⟨r, heq, hr⟩ | ⟨u, hu, hroot, -, heq⟩ <;> rw [heq]
  · exact targetFrom_changes ((startsIn_of_rootOf? hroot).1.mono hurn) fun _ => hhead
  · exact ⟨.refl doc, fun t ht => absurd ht (hr t)⟩
  · have hname : u.lower ∈ p.topNames.map Text.lower := hurn u (by simp [hu])
    obtain ⟨hchange, hok⟩ := targetFrom_changes (createObject_startsIn .nil fun _ => hname)
      fun _ => hhead
    exact ⟨(createObject_changes .nil fun _ => hname).trans hchange, hok⟩

/-- Where a path without late selectors addresses no place that is fit, nothing has changed. -/
theorem target_error (hlate : ∀ e ∈ p.elements.tail, e.selector = none)
    (h : p.target core doc create = (.error e, doc')) : doc' = doc := by
  rcases target_cases core p doc create with
    ⟨c, root, hroot, heq⟩ | ⟨r, heq, hr⟩ | ⟨u, hu, hroot, hcreate, heq⟩ <;> rw [heq] at h
  · exact targetFrom_error h
  · cases h
    rfl
  · subst hcreate
    obtain ⟨t, ht⟩ := targetFrom_of_empty hlate (objectAt_createObject doc [] u)
    rw [h] at ht
    cases ht

/-- The document with an empty object as the root of a schema that has none. -/
inductive Rooted (core : List Text) (urn : Option Text) (doc : Object) : Object → Prop
  | same : Rooted core urn doc doc
  | new {u : Text} (hurn : urn = some u) (hroot : Schema.root? core doc u = none) :
    Rooted core urn doc (doc.setField u (.obj empty))

/-- On the way to a whole object or to selected values no more is created than a root. -/
theorem target_whole (h : p.target core doc create = (.ok (some t), doc'))
    (ht : ∀ c name, t ≠ .field c name) : Rooted core p.schemaUrn doc doc' := by
  rcases target_cases core p doc create with
    ⟨c, root, hroot, heq⟩ | ⟨r, heq, hr⟩ | ⟨u, hu, hroot, -, heq⟩ <;> rw [heq] at h
  · rw [targetFrom_whole h ht]
    exact .same
  · cases h
    exact absurd rfl (hr t)
  · rw [targetFrom_whole h ht]
    exact .new hu hroot

end Path

end Scim

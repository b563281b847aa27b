import Scim.Proofs.Patch.Along

/-!
# What writing along a path creates

`Opened names o o'`: `o'` is `o` with an object under each of the names along which there was none, and
nothing in it but the next of them. That is what finding a place to write does to a document if it
succeeds; if it fails, or must not create anything, the document stays as it was. There is one
exception, a late selector on a path whose extension is missing: the extension is created before the
path is found unfit (`target_atomic`).
-/

namespace Scim

open Object

namespace Object

variable {names : List Text} {o o' doc : Object}

/-- Objects inside one another, each of them the only member of the one around it. -/
def nest : List Text → Object
  | [] => empty
  | name :: rest => empty.setField name (.obj (nest rest))

theorem locked_nest (names : List Text) : (nest names).Locked := by
  induction names with
  | nil => exact locked_empty
  | cons name rest ih => exact locked_empty.setField name ih

/-- `o'` is `o` where all names lead from object to object, and where one of them leads to nothing or
to null, `o'` has new objects under that name and the names after it. -/
inductive Opened : List Text → Object → Object → Prop
  | here (o : Object) : Opened [] o o
  | inside {name : Text} {rest : List Text} {o inner inner' : Object}
    (hfield : o.field? name = some (.obj inner)) (h : Opened rest inner inner') :
    Opened (name :: rest) o (o.setField name (.obj inner'))
  | new {name : Text} {rest : List Text} {o : Object}
    (hfield : (o.field? name).getD .null = .null) :
    Opened (name :: rest) o (o.setField name (.obj (nest rest)))

theorem Opened.of_empty (h : Opened names empty o') : o' = nest names := by
  cases h with
  | here => rfl
  | inside hfield => cases hfield
  | new => rfl

theorem modifyAt_id_of_leadsTo {keys : List Text} {last : Object} (hdoc : (Json.obj doc).WellFormed)
    (h : doc.LeadsTo keys last) : doc.modifyAt id keys = doc := by
  rw [h.modifyAt_congr (g := fun _ => last) rfl, h.modifyAt_self hdoc]

end Object

namespace Path

variable {core container c : List Text} {elements : List PathElement} {p path : Path}
  {create : Bool} {o o' doc doc' : Object} {t : Target} {u : Text}

/-! ### On the way to a field -/

/-- The names before the last. -/
def namesBefore (elements : List PathElement) : List Text := elements.dropLast.map (·.name)

theorem opened_of_changeIn (h : changeIn path true id elements o = .ok o') :
    Opened (namesBefore elements) o o' := by
  induction elements generalizing o o' with
  | nil => cases h; exact .here o
  | cons e rest ih =>
    cases rest with
    | nil => cases h; exact .here o
    | cons e' rest =>
      rcases changeIn_cons_eq_ok h with ⟨inner, r, hfield, hr, rfl⟩ | ⟨hnull, ⟨-, r, hr, rfl⟩ | ⟨⟨⟩, -⟩⟩
      · exact .inside hfield (ih hr)
      · rw [(ih hr).of_empty]
        exact .new hnull

theorem targetContainer_reaches (hdoc : (Json.obj doc).WellFormed) (hat : doc.LeadsTo container o)
    (h : targetContainer path true elements container doc = (.ok (some c), doc')) :
    (∃ last, doc'.LeadsTo c last) ∨ doc'.Lost c := by
  induction elements generalizing doc container o with
  | nil => cases h; exact .inl ⟨o, hat⟩
  | cons e rest ih =>
    cases rest with
    | nil => cases h; exact .inl ⟨o, hat⟩
    | cons e' rest =>
      rw [targetContainer_cons, hat.objectAt] at h
      cases hv : (o.field? e.name).getD .null with
      | obj inner =>
        rw [hv] at h
        obtain ⟨key, hkey, hget⟩ := get?_of_field? (field?_of_getD hv (by simp))
        dsimp only at h
        rw [storedName_of_findKey? hkey] at h
        exact ih hdoc (hat.append hget) h
      | null =>
        rw [hv] at h
        dsimp only at h
        rw [if_pos rfl] at h
        by_cases htakes : o.Takes e.name
        · obtain ⟨key, hkey, hget, hnew⟩ := hat.createObject htakes
          rw [hnew] at h
          exact ih (Json.AllObjects.modifyAt hdoc hat.leads fun _ h => h.setField e.name .empty)
            ((hat.modifyAt _).append hget) h
        · obtain ⟨hnew, hlost⟩ := hat.createObject_lost hdoc htakes
          obtain ⟨c', hc, hlost⟩ := targetContainer_lost hlost path (e' :: rest)
          rw [hnew, hc] at h
          cases h
          exact .inr hlost
      | _ =>
        rw [hv] at h
        cases h

theorem targetContainer_opened (hdoc : (Json.obj doc).WellFormed) (hat : doc.LeadsTo container o)
    (hne : elements ≠ [])
    (h : targetContainer path true elements container doc = (.ok (some c), doc')) :
    ∃ o', Opened (namesBefore elements) o o' ∧ doc' = doc.modifyAt (fun _ => o') container := by
  have hsame : doc'.modifyAt id c = doc' := by
    rcases targetContainer_reaches hdoc hat h with ⟨last, hlast⟩ | hlost
    · have hdoc' : (Json.obj doc').WellFormed := by
        have hkept := (targetContainer_kept path true elements hdoc hat.leads).1
        rwa [h] at hkept
      exact modifyAt_id_of_leadsTo hdoc' hlast
    · exact hlost.same fun _ ho => ho
  have hchange : changeFound id (targetContainer path true elements container doc) =
      putBack doc container (changeIn path true id elements o) :=
    changeFound_targetContainer (fun _ ho => ho) hne hdoc hat
  rw [h] at hchange
  cases hr : changeIn path true id elements o with
  | error e => rw [hr] at hchange; cases hchange
  | ok o' =>
    rw [hr] at hchange
    exact ⟨o', opened_of_changeIn hr, hsame.symm.trans (congrArg Outcome.resource hchange)⟩

theorem targetContainer_keeps (path : Path) (elements : List PathElement) (container : List Text)
    (doc : Object) : (targetContainer path false elements container doc).2 = doc := by
  induction elements generalizing container with
  | nil => rfl
  | cons e rest ih =>
    cases rest with
    | nil => rfl
    | cons e' rest =>
      rw [targetContainer_cons]
      cases ((doc.objectAt container).field? e.name).getD .null with
      | obj inner => exact ih _
      | null => rfl
      | _ => rfl

/-! ### From the root of a schema -/

/-- Some element but the first has a selector. -/
def HasLateSelector (p : Path) : Prop := ∃ e ∈ p.elements.tail, e.selector.isSome

/-- The names of the objects inside the root of its schema that a path leads through. -/
def parents (p : Path) : List Text :=
  if p.elements.head?.any (·.selector.isSome) then [] else namesBefore p.elements

theorem targetFrom_late (h : p.HasLateSelector) (create : Bool) (container : List Text)
    (doc : Object) : p.targetFrom create container doc = (.error (.lateSelector p), doc) := by
  obtain ⟨e, he, hsel⟩ := h
  unfold targetFrom
  cases hes : p.elements with
  | nil => rw [hes] at he; cases he
  | cons first rest =>
    rw [hes] at he
    exact if_pos (List.any_eq_true.mpr ⟨e, he, hsel⟩)

/-- What finding a place does if it succeeds is done on the way to a field. -/
theorem targetFrom_eq_ok {t? : Option Target}
    (h : p.targetFrom create container doc = (.ok t?, doc')) :
    (t?.isSome ∧ doc' = doc ∧ p.parents = []) ∨
      p.elements ≠ [] ∧ p.parents = namesBefore p.elements ∧ ∃ c?,
        targetContainer p create p.elements container doc = (.ok c?, doc') ∧
          t?.isSome = c?.isSome := by
  unfold targetFrom at h
  unfold parents
  cases hes : p.elements with
  | nil =>
    rw [hes] at h
    cases h
    exact .inl ⟨rfl, rfl, rfl⟩
  | cons first rest =>
    rw [hes] at h
    dsimp only at h
    split_ifs at h
    · cases h
    cases hsel : first.selector with
    | some filter =>
      rw [hsel] at h
      dsimp only at h
      cases hread : targetSelection container first.name filter (rest.map (·.name)) doc with
      | error e => rw [hread] at h; cases h
      | ok t => rw [hread] at h; cases h; exact .inl ⟨rfl, rfl, by simp [hsel]⟩
    | none =>
      rw [hsel] at h
      refine .inr ⟨List.cons_ne_nil _ _, by simp [hsel], ?_⟩
      cases hwalk : targetContainer p create (first :: rest) container doc with
      | mk r d =>
        rw [hwalk] at h
        rcases r with e | _ | c
        · cases h
        · cases h; exact ⟨none, rfl, rfl⟩
        · cases h; exact ⟨some c, rfl, rfl⟩

theorem targetFrom_keeps (p : Path) (container : List Text) (doc : Object) :
    (p.targetFrom false container doc).2 = doc := by
  cases h : p.targetFrom false container doc with
  | mk r doc' =>
    rcases r with e | t?
    · exact targetFrom_error h
    · rcases targetFrom_eq_ok h with ⟨-, rfl, -⟩ | ⟨-, -, c?, hc, -⟩
      · rfl
      · exact (congrArg Prod.snd hc).symm.trans (targetContainer_keeps ..)

theorem targetFrom_opened {t? : Option Target} (hdoc : (Json.obj doc).WellFormed)
    (hat : doc.LeadsTo container o) (h : p.targetFrom true container doc = (.ok t?, doc')) :
    t?.isSome ∧ ∃ o', Opened p.parents o o' ∧ doc' = doc.modifyAt (fun _ => o') container := by
  rcases targetFrom_eq_ok h with ⟨ht, rfl, hnames⟩ | ⟨hne, hnames, c?, hc, ht⟩
  · rw [hnames]
    exact ⟨ht, o, .here o, (hat.modifyAt_self hdoc).symm⟩
  · rw [hnames, ht]
    cases c? with
    | none => exact (targetContainer_create p p.elements container doc (congrArg Prod.fst hc)).elim
    | some c => exact ⟨rfl, targetContainer_opened hdoc hat hne hc⟩

theorem targetFrom_lost {t? : Option Target} (hlost : doc.Lost container)
    (h : p.targetFrom true container doc = (.ok t?, doc')) : t?.isSome ∧ doc' = doc := by
  rcases targetFrom_eq_ok h with ⟨ht, rfl, -⟩ | ⟨-, -, c?, hc, ht⟩
  · exact ⟨ht, rfl⟩
  · obtain ⟨c, hc', -⟩ := targetContainer_lost hlost p p.elements
    rw [hc'] at hc
    cases hc
    exact ⟨ht, rfl⟩

/-! ### From the document -/

theorem target_of_rootOf? {root : Object}
    (h : Schema.rootOf? core doc p.schemaUrn = some (container, root)) (create : Bool) :
    p.target core doc create = p.targetFrom create container doc := by
  unfold target
  rw [targetRoot_of_rootOf? h]
  rfl

/-- The path starts in an extension that the document does not have. -/
def StartsInNew (core : List Text) (p : Path) (doc : Object) (u : Text) : Prop :=
  p.schemaUrn = some u ∧ Schema.root? core doc u = none ∧ (doc.field? u).getD .null = .null

theorem StartsInNew.target (h : p.StartsInNew core doc u) :
    p.target core doc false = (.ok none, doc) ∧
      p.target core doc true =
        p.targetFrom true (doc.createObject [] u).1 (doc.createObject [] u).2 := by
  obtain ⟨hurn, hroot, hfield⟩ := h
  constructor <;>
  · unfold Path.target targetRoot
    rw [hurn]
    dsimp only
    rw [hroot]
    dsimp only
    rw [hfield]
    rfl

/-- The root of the schema is there, or it is yet to be created, or there is none to be had. -/
theorem root_cases (core : List Text) (p : Path) (doc : Object) :
    (∃ c root, Schema.rootOf? core doc p.schemaUrn = some (c, root)) ∨
      (∃ u, p.StartsInNew core doc u) ∨
      (∀ u, ¬ p.StartsInNew core doc u) ∧ ∃ u, p.schemaUrn = some u ∧
        ∀ create, p.target core doc create = (.error (.extensionNotObject u), doc) := by
  cases hroot : Schema.rootOf? core doc p.schemaUrn with
  | some x => exact .inl ⟨x.1, x.2, rfl⟩
  | none =>
    cases hurn : p.schemaUrn with
    | none => rw [hurn] at hroot; cases hroot
    | some u =>
      have hnone : Schema.root? core doc u = none := by rwa [hurn] at hroot
      cases hfield : (doc.field? u).getD .null with
      | null => exact .inr (.inl ⟨u, hurn, hnone, hfield⟩)
      | _ =>
        refine .inr (.inr ⟨?_, u, rfl, fun create => ?_⟩)
        · rintro u' ⟨hurn', -, hnull⟩
          rw [hurn] at hurn'
          cases hurn'
          rw [hfield] at hnull
          cases hnull
        · unfold Path.target targetRoot
          rw [hurn]
          dsimp only
          rw [hnone]
          dsimp only
          rw [hfield]

/-- The names of the objects that a path leads through, from the document on. -/
def way (core : List Text) (p : Path) (doc : Object) : List Text :=
  (if (Schema.rootOf? core doc p.schemaUrn).any (·.1.isEmpty) then [] else p.schemaUrn.toList) ++
    p.parents

theorem opened_of_rootOf? {root : Object}
    (hroot : Schema.rootOf? core doc p.schemaUrn = some (container, root))
    (h : Opened p.parents root o') :
    Opened (p.way core doc) doc (doc.modifyAt (fun _ => o') container) := by
  unfold way
  rw [hroot]
  rcases rootOf?_cases hroot with ⟨rfl, rfl⟩ | ⟨u, key, hurn, rfl, hkey, hget⟩
  · exact h
  · rw [hurn, modifyAt_of_get? hget, modifyAt_nil, ← setField_of_findKey? hkey]
    exact .inside (field?_of_get? hkey hget) h

theorem StartsInNew.way (h : p.StartsInNew core doc u) : p.way core doc = u :: p.parents := by
  obtain ⟨hurn, hroot, -⟩ := h
  have hnone : Schema.rootOf? core doc p.schemaUrn = none := by rw [hurn]; exact hroot
  unfold Path.way
  rw [hnone, hurn]
  rfl

theorem StartsInNew.opened {t? : Option Target} (hdoc : (Json.obj doc).WellFormed)
    (hnew : p.StartsInNew core doc u)
    (h : p.targetFrom true (doc.createObject [] u).1 (doc.createObject [] u).2 = (.ok t?, doc')) :
    t?.isSome ∧ Opened (p.way core doc) doc doc' := by
  rw [hnew.way]
  have hopened : Opened (u :: p.parents) doc (doc.setField u (.obj (nest p.parents))) :=
    .new hnew.2.2
  by_cases htakes : doc.Takes u
  · obtain ⟨key, hkey, hget, hcreate⟩ := (LeadsTo.here doc).createObject htakes
    rw [hcreate] at h
    have hdoc' : (Json.obj (doc.setField u (.obj empty))).WellFormed :=
      Json.AllObjects.setField hdoc u .empty
    obtain ⟨ht, o', ho', rfl⟩ := targetFrom_opened hdoc' (.member hget (.here empty)) h
    refine ⟨ht, ?_⟩
    rwa [ho'.of_empty, modifyAt_of_get? hget, modifyAt_nil, ← setField_of_findKey? hkey,
      setField_setField_of_takes htakes]
  · -- The new extension is not stored, and neither is what is created inside it.
    obtain ⟨hcreate, hlost⟩ := (LeadsTo.here doc).createObject_lost hdoc htakes
    rw [hcreate] at h
    obtain ⟨ht, rfl⟩ := targetFrom_lost hlost h
    rw [setField_of_not_takes htakes (locked_nest _)] at hopened
    exact ⟨ht, hopened⟩

/-- Finding a place to write leaves the document as it was if it fails or must not create anything,
and otherwise opens the way of the path; but for a late selector on a path that starts in a missing
extension, which is created nevertheless. -/
theorem target_atomic {result : Except Error (Option Target)} (hdoc : (Json.obj doc).WellFormed)
    (h : p.target core doc create = (result, doc')) :
    (create = false → doc' = doc) ∧
    (∀ e, result = .error e →
      (¬ ∃ u, create = true ∧ p.HasLateSelector ∧ p.StartsInNew core doc u) → doc' = doc) ∧
    (∀ t?, result = .ok t? → create = true → t?.isSome ∧ Opened (p.way core doc) doc doc') ∧
    ∀ u, create = true → p.HasLateSelector → p.StartsInNew core doc u →
      result = .error (.lateSelector p) ∧ doc' = doc.setField u (.obj empty) := by
  rcases root_cases core p doc with ⟨c, root, hroot⟩ | ⟨u, hnew⟩ | ⟨hnot, u, -, he⟩
  · rw [target_of_rootOf? hroot] at h
    have hnot (u) : ¬ p.StartsInNew core doc u := by
      rintro ⟨hurn, hnone, -⟩
      rw [hurn] at hroot
      cases hnone.symm.trans hroot
    refine ⟨?_, ?_, ?_, fun u _ _ hnew => absurd hnew (hnot u)⟩
    · rintro rfl
      exact (congrArg Prod.snd h).symm.trans (targetFrom_keeps ..)
    · rintro e rfl -
      exact targetFrom_error h
    · rintro t? rfl rfl
      obtain ⟨ht, o', ho', rfl⟩ := targetFrom_opened hdoc (leadsTo_of_rootOf? hroot) h
      exact ⟨ht, opened_of_rootOf? hroot ho'⟩
  · cases create with
    | false =>
      rw [hnew.target.1] at h
      cases h
      exact ⟨fun _ => rfl, fun _ _ _ => rfl, nofun, nofun⟩
    | true =>
      rw [hnew.target.2] at h
      refine ⟨nofun, ?_, ?_, ?_⟩
      · rintro e rfl hnone
        -- Without a late selector the path finds its place in the new extension.
        have hlate : ∀ e ∈ p.elements.tail, e.selector = none := by
          intro e he
          by_contra hsel
          exact hnone ⟨u, rfl, ⟨e, he, Option.isSome_iff_ne_none.mpr hsel⟩, hnew⟩
        obtain ⟨t, ht⟩ := targetFrom_of_empty hlate (objectAt_createObject doc [] u)
        rw [h] at ht
        cases ht
      · rintro t? rfl -
        exact hnew.opened hdoc h
      · rintro u' - hlate hnew'
        obtain rfl : u = u' := Option.some.inj (hnew.1.symm.trans hnew'.1)
        rw [targetFrom_late hlate] at h
        cases h
        exact ⟨rfl, rfl⟩
  · rw [he create] at h
    cases h
    exact ⟨fun _ => rfl, fun _ _ _ => rfl, nofun, fun u _ _ hnew => absurd hnew (hnot u)⟩

/-- `urn:x:y:a.b` -/
def inExtension : Path :=
  ⟨some (Text.ofString "urn:x:y"), [⟨Text.ofString "a", none⟩, ⟨Text.ofString "b", none⟩]⟩

theorem target_atomic_inExtension : (Json.obj empty).WellFormed ∧
    Opened [Text.ofString "urn:x:y", Text.ofString "a"] empty
      (inExtension.target [] empty true).2 := by
  have htarget : inExtension.target [] empty true =
      (.ok (some (.field [Text.ofString "urn:x:y", Text.ofString "a"] (Text.ofString "b"))),
        (inExtension.target [] empty true).2) := rfl
  have hway : inExtension.way [] empty = [Text.ofString "urn:x:y", Text.ofString "a"] := rfl
  rw [← hway]
  exact ⟨Json.AllObjects.empty, ((target_atomic Json.AllObjects.empty htarget).2.2.1 _ rfl rfl).2⟩

/-- `urn:x:y:a.b[c pr]` -/
def lateInExtension : Path :=
  ⟨some (Text.ofString "urn:x:y"), [⟨Text.ofString "a", none⟩,
    ⟨Text.ofString "b", some (.present (.ofName (Text.ofString "c")))⟩]⟩

/-- The path is refused, but the extension is there. -/
theorem target_lateInExtension :
    (lateInExtension.target [] empty true).1 = .error (.lateSelector lateInExtension) ∧
      (lateInExtension.target [] empty true).2 ≠ empty := by
  refine ⟨rfl, fun h => ?_⟩
  have hkeys : (lateInExtension.target [] empty true).2.keys = [Text.ofString "urn:x:y"] := rfl
  rw [h] at hkeys
  cases hkeys

end Path

end Scim

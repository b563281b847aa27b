import Mathlib.Data.List.Forall2
import Scim.Proofs.Filter.Congruence

/-!
# Fields that hold nothing

To a condition, a field that is null or an array of nulls is the same as no field. A document is
`Json.Pruned` to another if the other is what is left after some such fields are deleted from objects
anywhere inside it, and then every filter holds for both or for neither (`Filter.holds_pruned`).

While a path is followed the two walks do not stay alike: null and the items of an array of nulls are
among the values reached in the one document and missing in the other. What stays alike are the
`Path.entries` of these values, from which nulls are left out, and a next step depends on nothing
else.
-/

namespace Scim

open Object

/-! ### Deleting fields -/

namespace Json

variable {v w : Json} {o o' : Object} {name key : Text} {ms ms' : List (Text × Json)}

/-- Null, or an array of nothing but nulls. -/
def holdsNothing : Json → Bool
  | .null => true
  | .arr items => items.all isNull
  | _ => false

mutual

/-- The second value is what is left of the first when some fields that hold nothing are deleted from
objects inside it. -/
inductive Pruned : Json → Json → Prop
  | scalar {v : Json} (hobj : v.object? = none) (harr : v.items? = none) : Pruned v v
  | arr {items items' : List Json} (h : PrunedItems items items') : Pruned (.arr items) (.arr items')
  | obj {ms ms' : List (Text × Json)} {unlocked : Bool} (h : PrunedMembers ms ms') :
    Pruned (.obj ⟨ms, unlocked⟩) (.obj ⟨ms', unlocked⟩)

inductive PrunedItems : List Json → List Json → Prop
  | nil : PrunedItems [] []
  | cons {v w : Json} {items items' : List Json} (h : Pruned v w) (hrest : PrunedItems items items') :
    PrunedItems (v :: items) (w :: items')

inductive PrunedMembers : List (Text × Json) → List (Text × Json) → Prop
  | nil : PrunedMembers [] []
  | keep {key : Text} {v w : Json} {ms ms' : List (Text × Json)} (h : Pruned v w)
    (hrest : PrunedMembers ms ms') : PrunedMembers ((key, v) :: ms) ((key, w) :: ms')
  | delete {key : Text} {v : Json} {ms ms' : List (Text × Json)} (h : v.holdsNothing)
    (hrest : PrunedMembers ms ms') : PrunedMembers ((key, v) :: ms) ms'

end

theorem PrunedItems.forall₂ {items items' : List Json} (h : PrunedItems items items') :
    List.Forall₂ Pruned items items' := by
  induction items generalizing items' with
  | nil => cases h; exact .nil
  | cons v rest ih => cases h with | cons hv hrest => exact .cons hv (ih hrest)

theorem PrunedMembers.sublist (h : PrunedMembers ms ms') :
    (ms'.map Prod.fst).Sublist (ms.map Prod.fst) := by
  induction ms generalizing ms' with
  | nil => cases h; exact .slnil
  | cons m rest ih =>
    cases h with
    | keep hv hrest => exact (ih hrest).cons_cons _
    | delete hv hrest => exact (ih hrest).cons _

/-- A member that is left was there. -/
theorem PrunedMembers.exists_of_left {m' : Text × Json} (h : PrunedMembers ms ms') (hm : m' ∈ ms') :
    ∃ m ∈ ms, m.1 = m'.1 ∧ Pruned m.2 m'.2 := by
  induction ms generalizing ms' with
  | nil => cases h; cases hm
  | cons m rest ih =>
    cases h with
    | keep hv hrest =>
      rcases List.mem_cons.mp hm with rfl | hm
      · exact ⟨_, List.mem_cons_self .., rfl, hv⟩
      · obtain ⟨m, hmem, h⟩ := ih hrest hm
        exact ⟨m, List.mem_cons_of_mem _ hmem, h⟩
    | delete hv hrest =>
      obtain ⟨m, hmem, h⟩ := ih hrest hm
      exact ⟨m, List.mem_cons_of_mem _ hmem, h⟩

/-- A member is left, or held nothing. -/
theorem PrunedMembers.left_or_nothing {m : Text × Json} (h : PrunedMembers ms ms') (hm : m ∈ ms) :
    m.1 ∈ ms'.map Prod.fst ∨ m.2.holdsNothing := by
  induction ms generalizing ms' with
  | nil => cases hm
  | cons m' rest ih =>
    cases h with
    | keep hv hrest =>
      rcases List.mem_cons.mp hm with rfl | hm
      · exact .inl (List.mem_cons_self ..)
      · exact (ih hrest hm).imp_left (List.mem_cons_of_mem _)
    | delete hv hrest =>
      rcases List.mem_cons.mp hm with rfl | hm
      · exact .inr hv
      · exact ih hrest hm

/-- A document in which names are unique, and what is left of it. -/
structure Leaves (v w : Json) : Prop where
  unambiguous : v.Unambiguous
  pruned : Pruned v w

/-- A field is left with what is left of its value, or it is gone and held nothing. -/
theorem Leaves.field (h : Leaves (.obj o) (.obj o')) (name : Text) :
    (∃ v w, o.field? name = some v ∧ o'.field? name = some w ∧ Leaves v w) ∨
      o'.field? name = none ∧ ∀ v ∈ o.field? name, v.holdsNothing := by
  obtain ⟨hdoc, hpruned⟩ := h
  cases hpruned with
  | scalar hobj => cases hobj
  | obj hms =>
    rename_i ms ms' unlocked
    have hleft := hms.sublist
    cases hfield : Object.field? ⟨ms', unlocked⟩ name with
    | some w =>
      obtain ⟨key, hkey, hget⟩ := get?_of_field? hfield
      obtain ⟨m, hm, hname, hvw⟩ := hms.exists_of_left (mem_of_get? hget)
      have hkey' : findKey? ⟨ms, unlocked⟩ name = some m.1 :=
        (hdoc.distinct.unambiguous name).findKey? (List.mem_map_of_mem hm)
          (hname ▸ (findKey?_eq_some hkey).2)
      refine .inl ⟨m.2, w, ?_, rfl, hdoc.member hm, hvw⟩
      rw [Object.field?, hkey', Option.bind_some]
      exact get?_of_mem (.of_map _ hdoc.distinct) hm
    | none =>
      refine .inr ⟨rfl, fun v hv => ?_⟩
      obtain ⟨key, hkey, hget⟩ := get?_of_field? hv
      refine (hms.left_or_nothing (mem_of_get? hget)).resolve_left fun hmem => ?_
      exact findKey?_eq_none_iff.mp (field?_eq_none_iff.mp hfield) key hmem (findKey?_eq_some hkey).2

theorem Leaves.object?_eq_none_iff (h : Leaves v w) : v.object? = none ↔ w.object? = none := by
  cases h.pruned with
  | scalar => exact Iff.rfl
  | arr => exact Iff.rfl
  | obj => exact ⟨nofun, nofun⟩

theorem Leaves.isNull (h : Leaves v w) : v.isNull = w.isNull := by
  cases h.pruned <;> rfl

theorem Leaves.flatten (h : Leaves v w) : List.Forall₂ Leaves v.flatten w.flatten := by
  obtain ⟨hdoc, hpruned⟩ := h
  cases hpruned with
  | scalar hobj harr =>
    cases v with
    | arr items => cases harr
    | _ => exact .cons ⟨hdoc, .scalar hobj harr⟩ .nil
  | arr hitems =>
    refine (List.forall₂_and_left _ _).mpr ⟨?_, hitems.forall₂⟩ |>.imp fun _ _ h => ⟨h.1, h.2⟩
    exact allObjects_arr_iff.mp hdoc
  | obj hms => exact .cons ⟨hdoc, .obj hms⟩ .nil

mutual

theorem Pruned.isUnassigned : ∀ {v w : Json}, Pruned v w → v.isUnassigned = w.isUnassigned
  | _, _, .scalar _ _ => rfl
  | .arr items, .arr items', .arr h => by
    rw [Json.isUnassigned, Json.isUnassigned, PrunedItems.allUnassigned h]
  | _, _, .obj _ => rfl

theorem PrunedItems.allUnassigned : ∀ {items items' : List Json}, PrunedItems items items' →
    allUnassigned items = allUnassigned items'
  | _, _, .nil => rfl
  | v :: items, w :: items', .cons h hrest => by
    rw [Json.allUnassigned, Json.allUnassigned, Pruned.isUnassigned h,
      PrunedItems.allUnassigned hrest]

end

end Json

/-! ### Following a path -/

open Json

variable {core : List Text} {v w : Json} {values values' items items' : List Json} {e : PathElement}
  {es : List PathElement}

theorem any_eq_of_leaves {p q : Json → Bool} (h : List.Forall₂ Leaves items items')
    (hpq : ∀ v w, Leaves v w → p v = q w) : items.any p = items'.any q := by
  induction h with
  | nil => rfl
  | cons hvw hrest ih => rw [List.any_cons, List.any_cons, hpq _ _ hvw, ih]

theorem filter_leaves {p q : Json → Bool} (h : List.Forall₂ Leaves items items')
    (hpq : ∀ v w, Leaves v w → p v = q w) :
    List.Forall₂ Leaves (items.filter p) (items'.filter q) :=
  List.rel_filter (fun v w hvw => Bool.eq_iff_iff.mp (hpq v w hvw)) h

namespace Path

theorem entries_leaves (h : List.Forall₂ Leaves values values') :
    List.Forall₂ Leaves (entries values) (entries values') :=
  filter_leaves (List.rel_flatMap h fun _ _ => Leaves.flatten) fun _ _ hvw => by rw [hvw.isNull]

theorem entries_of_nulls (h : ∀ w ∈ items, w.isNull) : entries items = [] := by
  refine List.filter_eq_nil_iff.mpr fun w hw => ?_
  obtain ⟨v, hv, hw⟩ := List.mem_flatMap.mp hw
  have hnull := h v hv
  cases v <;> cases hnull
  obtain rfl := List.mem_singleton.mp hw
  simp [Json.isNull]

/-- The items of a value that holds nothing. -/
theorem isNull_of_holdsNothing (h : v.holdsNothing) : ∀ w ∈ v.flatten, w.isNull := by
  cases v with
  | null => exact List.forall_mem_singleton.mpr rfl
  | arr items => exact List.all_eq_true.mp h
  | _ => cases h

theorem entries_of_holdsNothing (h : v.holdsNothing) : entries [v] = [] := by
  rw [entries, List.flatMap_singleton, List.filter_eq_nil_iff]
  intro w hw
  rw [isNull_of_holdsNothing h w hw]
  decide

/-- Null leads nowhere, so that the next step goes from the entries. -/
theorem entries_step (e : PathElement) (values : List Json) :
    entries ((values.flatMap Json.flatten).flatMap fun v => e.valuesIn core v) =
      (entries values).flatMap fun v => entries (e.valuesIn core v) := by
  rw [entries_flatMap]
  unfold entries
  induction values.flatMap Json.flatten with
  | nil => rfl
  | cons v rest ih =>
    rw [List.flatMap_cons, ih, List.filter_cons]
    split_ifs with hnull
    · rw [List.flatMap_cons]
    · obtain rfl : v = .null := by cases v <;> simp_all [Json.isNull]
      obtain ⟨name, _ | f⟩ := e
      · rw [valuesIn_plain]
        rfl
      · rw [valuesIn_selector]
        rfl

/-- If one element leads to the same entries, so do all. -/
theorem follow_leaves (h : List.Forall₂ Leaves (entries values) (entries values'))
    (hes : ∀ e ∈ es, ∀ v w, Leaves v w →
      List.Forall₂ Leaves (entries (e.valuesIn core v)) (entries (e.valuesIn core w))) :
    List.Forall₂ Leaves (entries (follow core es values)) (entries (follow core es values')) := by
  induction es generalizing values values' with
  | nil => exact h
  | cons e rest ih =>
    obtain ⟨he, hrest⟩ := List.forall_mem_cons.mp hes
    rw [follow_cons, follow_cons]
    refine ih ?_ hrest
    rw [entries_step, entries_step]
    exact List.rel_flatMap h he

end Path

/-! ### The root of a schema -/

namespace Schema

variable {doc doc' : Object} {urn : Option Text}

/-- The first entry of the list of schemas is left as it is if it is a text. -/
theorem isCore_leaves (h : Leaves (.obj doc) (.obj doc')) (core : List Text) (urn : Text) :
    isCore core doc urn = isCore core doc' urn := by
  unfold isCore
  congr 1
  rcases h.field listName with ⟨v, w, hv, hw, hvw⟩ | ⟨hnone, hnothing⟩
  · rw [hv, hw]
    cases hvw.pruned with
    | arr hitems =>
      cases hitems with
      | nil => rfl
      | cons hfirst =>
        cases hfirst with
        | scalar => split <;> simp_all
        | _ => rfl
    | _ => rfl
  · rw [hnone]
    cases hlist : doc.field? listName with
    | none => rfl
    | some v =>
      have hnulls := Path.isNull_of_holdsNothing (hnothing v hlist)
      cases v with
      | arr items =>
        cases items with
        | nil => rfl
        | cons first rest =>
          have hfirst : first.isNull := hnulls first (List.mem_cons_self ..)
          cases first <;> first | rfl | cases hfirst
      | _ => rfl

theorem extension?_leaves (h : Leaves (.obj doc) (.obj doc')) (urn : Text) :
    (∃ k k' root root', extension? doc urn = some (k, root) ∧ extension? doc' urn = some (k', root') ∧
      Leaves (.obj root) (.obj root')) ∨
    extension? doc urn = none ∧ extension? doc' urn = none := by
  have hsome : ∀ {doc root : Object}, doc.field? urn = some (.obj root) →
      ∃ k, extension? doc urn = some (k, root) := by
    intro doc root hfield
    obtain ⟨k, hkey, hget⟩ := get?_of_field? hfield
    exact ⟨k, Path.extension?_eq_some_iff.mpr ⟨hkey, hget⟩⟩
  have hnone : ∀ {doc : Object}, (∀ v ∈ doc.field? urn, v.object? = none) →
      extension? doc urn = none := by
    intro doc hfield
    exact Path.extension?_eq_none_iff.mpr fun o ho => absurd (hfield _ ho) (by simp [object?])
  rcases h.field urn with ⟨v, w, hv, hw, hvw⟩ | ⟨hgone, hnothing⟩
  · cases v with
    | obj root =>
      cases w with
      | obj root' =>
        obtain ⟨k, hk⟩ := hsome hv
        obtain ⟨k', hk'⟩ := hsome hw
        exact .inl ⟨k, k', root, root', hk, hk', hvw⟩
      | _ => exact absurd (hvw.object?_eq_none_iff.mpr rfl) (by simp [object?])
    | _ =>
      refine .inr ⟨hnone ?_, hnone ?_⟩
      · rw [hv]
        rintro _ ⟨⟩
        rfl
      · rw [hw]
        rintro _ ⟨⟩
        exact hvw.object?_eq_none_iff.mp rfl
  · refine .inr ⟨hnone fun v hv => ?_, hnone (by simp [hgone])⟩
    have hv := hnothing v hv
    cases v <;> first | rfl | cases hv

/-- Both documents have a root of the schema, or neither. -/
theorem rootOf?_leaves (h : Leaves (.obj doc) (.obj doc')) (core : List Text) (urn : Option Text) :
    List.Forall₂ (fun found found' => Leaves (.obj found.2) (.obj found'.2))
      (rootOf? core doc urn).toList (rootOf? core doc' urn).toList := by
  cases urn with
  | none => exact .cons h .nil
  | some u =>
    show List.Forall₂ _ (root? core doc u).toList (root? core doc' u).toList
    unfold root?
    rcases extension?_leaves h u with ⟨k, k', root, root', hext, hext', hroot⟩ | ⟨hext, hext'⟩
    · rw [hext, hext']
      exact .cons hroot .nil
    · rw [hext, hext', isCore_leaves h core u]
      dsimp only
      split_ifs
      · exact .cons h .nil
      · exact .nil

end Schema

/-! ### Conditions -/

section Values

/-- What holds of a field and what is left of it, and also when a field that holds nothing is gone,
holds of the values that a name leads to. -/
theorem fieldIn_leaves {P : List Json → List Json → Prop} (h : Leaves v w) (name : Text)
    (hnone : P [] []) (hnothing : ∀ field : Json, field.holdsNothing → P [field] [])
    (hsome : ∀ field field', Leaves field field' → P [field] [field']) :
    P (v.object?.bind (Object.field? · name)).toList
      (w.object?.bind (Object.field? · name)).toList := by
  cases v with
  | obj o =>
    cases w with
    | obj o' =>
      show P (Object.field? o name).toList (Object.field? o' name).toList
      rcases h.field name with ⟨field, field', hfield, hfield', hff⟩ | ⟨hgone, hfield⟩
      · rw [hfield, hfield']
        exact hsome field field' hff
      · rw [hgone]
        cases hv : Object.field? o name with
        | none => exact hnone
        | some field => exact hnothing field (hfield field hv)
    | _ => exact absurd (h.object?_eq_none_iff.mpr rfl) (by simp [object?])
  | _ =>
    have hw : w.object? = none := h.object?_eq_none_iff.mp rfl
    rw [hw]
    exact hnone

theorem Path.ofScalar_leaves (p : Path) (h : Leaves v w) (hv : v.object? = none) :
    List.Forall₂ Leaves (p.ofScalar v) (p.ofScalar w) := by
  have hdoc := h.unambiguous
  cases h.pruned with
  | scalar hobj harr =>
    have hself : Leaves v v := ⟨hdoc, .scalar hobj harr⟩
    unfold ofScalar
    split
    any_goals split_ifs
    all_goals first | exact .nil | exact .cons hself .nil
  | arr =>
    have hnil : ∀ items, p.ofScalar (.arr items) = [] := by
      intro items
      unfold ofScalar
      split <;> first | rfl | contradiction
    rw [hnil, hnil]
    exact .nil
  | obj => cases hv

theorem Comparison.holdsFor_leaves (op : Comparison) (l : Literal) (h : Leaves v w) :
    op.holdsFor l v = op.holdsFor l w := by
  cases h.pruned <;> cases op <;> rfl

theorem Comparison.holds_leaves (op : Comparison) (l : Literal)
    (h : List.Forall₂ Leaves values values') : op.holds l values = op.holds l values' := by
  have hunassigned : values.any (fun v => !v.isUnassigned) =
      values'.any fun v => !v.isUnassigned :=
    any_eq_of_leaves h fun v w hvw => by rw [hvw.pruned.isUnassigned]
  have hany : values.any (op.holdsFor l) = values'.any (op.holdsFor l) :=
    any_eq_of_leaves h fun v w hvw => op.holdsFor_leaves l hvw
  unfold holds
  split
  · rw [List.all_eq_not_any_not, List.all_eq_not_any_not, hunassigned]
  · exact hunassigned
  · exact hany

end Values

mutual

theorem Filter.holds_leaves : ∀ (f : Filter) (v w : Json), Leaves v w →
    f.holds core v = f.holds core w
  | .compare op p l, v, w, h => by
    rw [Filter.holds, Filter.holds, op.holds_leaves l (p.candidates_leaves v w h)]
  | .present p, v, w, h => by
    rw [Filter.holds, Filter.holds]
    exact any_eq_of_leaves (p.candidates_leaves v w h) fun u u' hu => by
      rw [hu.pruned.isUnassigned]
  | .logical op f f' fs, v, w, h => by
    cases op <;> simp only [Filter.holds, f.holds_leaves v w h, f'.holds_leaves v w h,
      Filter.allHold_leaves fs v w h, Filter.anyHolds_leaves fs v w h]
  | .not f, v, w, h => by rw [Filter.holds, Filter.holds, f.holds_leaves v w h]
  | .complex p f, v, w, h => by
    rw [Filter.holds, Filter.holds]
    exact any_eq_of_leaves (p.candidates_leaves v w h) f.holds_leaves
termination_by structural f => f

theorem Filter.allHold_leaves : ∀ (fs : List Filter) (v w : Json), Leaves v w →
    Filter.allHold core fs v = Filter.allHold core fs w
  | [], _, _, _ => rfl
  | f :: fs, v, w, h => by
    rw [Filter.allHold, Filter.allHold, f.holds_leaves v w h, Filter.allHold_leaves fs v w h]
termination_by structural fs => fs

theorem Filter.anyHolds_leaves : ∀ (fs : List Filter) (v w : Json), Leaves v w →
    Filter.anyHolds core fs v = Filter.anyHolds core fs w
  | [], _, _, _ => rfl
  | f :: fs, v, w, h => by
    rw [Filter.anyHolds, Filter.anyHolds, f.holds_leaves v w h, Filter.anyHolds_leaves fs v w h]
termination_by structural fs => fs

theorem Path.candidates_leaves : ∀ (p : Path) (v w : Json), Leaves v w →
    List.Forall₂ Leaves (p.candidates core v) (p.candidates core w)
  | ⟨urn, es⟩, v, w, h => by
    by_cases hv : v.object? = none
    · rw [Path.candidates_scalar _ hv, Path.candidates_scalar _ (h.object?_eq_none_iff.mp hv)]
      exact Path.ofScalar_leaves _ h hv
    · cases v with
      | obj doc =>
        cases w with
        | obj doc' =>
          rw [Path.candidates_obj, Path.candidates_obj]
          refine List.rel_flatMap (Schema.rootOf?_leaves h core urn) fun root root' hroot => ?_
          refine Path.follow_leaves (Path.entries_leaves (.cons hroot .nil)) ?_
          exact Path.entriesIn_leaves es
        | _ => exact absurd (h.object?_eq_none_iff.mpr rfl) hv
      | _ => exact absurd rfl hv
termination_by structural p => p

theorem Path.entriesIn_leaves : ∀ (es : List PathElement), ∀ e ∈ es, ∀ v w, Leaves v w →
    List.Forall₂ Leaves (Path.entries (e.valuesIn core v)) (Path.entries (e.valuesIn core w))
  | [] => nofun
  | e :: es => List.forall_mem_cons.mpr ⟨e.entries_leaves, Path.entriesIn_leaves es⟩
termination_by structural es => es

/-- A field that is gone has left no entries, and had none. -/
theorem PathElement.entries_leaves : ∀ (e : PathElement) (v w : Json), Leaves v w →
    List.Forall₂ Leaves (Path.entries (e.valuesIn core v)) (Path.entries (e.valuesIn core w))
  | ⟨name, none⟩, v, w, h => by
    rw [Path.valuesIn_plain, Path.valuesIn_plain]
    refine fieldIn_leaves (P := fun vs ws =>
      List.Forall₂ Leaves (Path.entries vs) (Path.entries ws)) h name .nil ?_ ?_
    · intro field hfield
      rw [Path.entries_of_holdsNothing hfield]
      exact .nil
    · intro field field' hff
      exact Path.entries_leaves (.cons hff .nil)
  | ⟨name, some f⟩, v, w, h => by
    rw [Path.valuesIn_selector, Path.valuesIn_selector]
    refine fieldIn_leaves (P := fun vs ws => List.Forall₂ Leaves
      (Path.entries (vs.flatMap fun field => field.flatten.filter (f.holds core)))
      (Path.entries (ws.flatMap fun field => field.flatten.filter (f.holds core)))) h name .nil ?_ ?_
    · intro field hfield
      rw [List.flatMap_singleton, Path.entries_of_nulls fun w hw =>
        Path.isNull_of_holdsNothing hfield w (List.mem_of_mem_filter hw)]
      exact .nil
    · intro field field' hff
      rw [List.flatMap_singleton, List.flatMap_singleton]
      exact Path.entries_leaves (filter_leaves hff.flatten f.holds_leaves)
termination_by structural e => e

end

/-- Deleting fields that are null or an array of nulls from objects of a document, at any depth,
changes no condition on it. -/
theorem Filter.holds_pruned (core : List Text) (f : Filter) {v w : Json} (hdoc : v.Unambiguous)
    (h : Pruned v w) : f.holds core w = f.holds core v :=
  (f.holds_leaves v w ⟨hdoc, h⟩).symm

/-- Someone without a nickname, whose list of schemas and whose only address are gaps. -/
def gaps : Json :=
  .ofMembers [("schemas", .arr [.null]), ("nickName", .null),
    ("emails", .arr [.null, .ofMembers [("type", .arr []), ("value", .str "a")]])]

/-- The same without the gaps. -/
def closedGaps : Json :=
  .ofMembers [("emails", .arr [.null, .ofMembers [("value", .str "a")]])]

def isUnlabelled : Filter :=
  .not (.logical .or (.present (.ofName "nickName"))
    (.complex (.ofName "emails") (.compare .ne (.ofName "type") .null)) [])

theorem Filter.holds_pruned_gaps :
    gaps.Unambiguous ∧ Pruned gaps closedGaps ∧
    isUnlabelled.holds [] closedGaps = isUnlabelled.holds [] gaps ∧
    isUnlabelled.holds [] closedGaps = true := by
  have hdoc : gaps.Unambiguous := throughout_of_everywhere _ (by decide)
  have hemail : Pruned (.ofMembers [("type", .arr []), ("value", .str "a")])
      (.ofMembers [("value", .str "a")]) :=
    .obj (.delete rfl (.keep (.scalar rfl rfl) .nil))
  have hpruned : Pruned gaps closedGaps :=
    .obj (.delete rfl (.delete rfl (.keep (.arr (.cons (.scalar rfl rfl) (.cons hemail .nil))) .nil)))
  exact ⟨hdoc, hpruned, isUnlabelled.holds_pruned [] hdoc hpruned, rfl⟩

end Scim

import Scim.Proofs.Json.Inside
import Scim.Proofs.Path.Candidates
import Scim.Proofs.Path.Target

/-!
# One filter in three places

A filter in brackets stands behind the path of a condition, or in the last element of a path to read
or of the first element of a path to write (`Path.select`). It picks the same values everywhere: what
the path to read leads to are the candidates of the condition that satisfy the filter
(`values_select`), and what the path to write selects are the indexes of the places that the path to
read leads to (`place_resolve_of_target`).

The first of these fails for an array with null among its items: a condition leaves nulls out, and
reading does not. A single null is left out by both.
-/

namespace Scim

open Object

namespace Path

variable {core : List Text} {elements subs : List PathElement} {p : Path} {filter f : Filter}
  {doc doc' o : Object} {name n : Text} {container container' names : List Text} {create : Bool}
  {items : Option (List Json)}

/-- The elements with a filter on the last one. -/
def selectLast (f : Filter) : List PathElement → List PathElement
  | [] => []
  | [e] => [⟨e.name, some f⟩]
  | e :: e' :: rest => e :: selectLast f (e' :: rest)

/-- The path with a filter on its last element. -/
def select (p : Path) (f : Filter) : Path := { p with elements := selectLast f p.elements }

theorem selectLast_ne_nil (f : Filter) (h : elements ≠ []) : selectLast f elements ≠ [] := by
  cases elements with
  | nil => exact absurd rfl h
  | cons e rest => cases rest <;> simp [selectLast]

/-! ### Reading -/

theorem map_value_resolveFrom_selector (ho : (Json.obj o).Gapless) (name : Text)
    (location : Location) :
    (resolveFrom core [⟨name, some f⟩] location o).map Found.value =
      (entries (o.field? name).toList).filter (f.holds core) := by
  unfold resolveFrom
  cases hkey : o.findKey? name with
  | none => simp [Object.field?, hkey, entries]
  | some key =>
    have hfield : o.field? name = o.get? key := by rw [Object.field?, hkey, Option.bind_some]
    rw [hfield]
    cases hv : o.get? key with
    | none => simp [hv, entries]
    | some v =>
      cases v with
      | arr items =>
        have hitems : (items.filter fun w => !w.isNull) = items := by
          refine List.filter_eq_self.mpr fun w hw => ?_
          simp [(Json.gapless_arr_iff.mp (ho.get? hv) w hw).1]
        have hpick : ((items.zipIdx.filter fun i => f.holds core i.1).map fun i => i.1) =
            items.filter (f.holds core) := by
          conv_rhs => rw [← List.zipIdx_map_fst 0 items]
          rw [List.filter_map]
          rfl
        simpa [hv, entries, Json.flatten, hitems, PathElement.selects, List.map_flatMap,
          ← List.map_eq_flatMap, Function.comp_def] using hpick
      | null => simp [hv, entries, Json.flatten, PathElement.admits, Json.isNull]
      | _ =>
        simp only [hv, entries, Json.flatten, PathElement.admits, Json.isNull, List.isEmpty_nil,
          Option.toList_some, List.flatMap_singleton]
        split <;> simp_all

/-- A path with a filter on its last element leads to what a condition looks at, as far as the
filter holds for it. -/
theorem map_value_resolveFrom_selectLast (hes : ∀ e ∈ elements, e.selector = none)
    (hne : elements ≠ []) (ho : (Json.obj o).Gapless) (location : Location) :
    (resolveFrom core (selectLast f elements) location o).map Found.value =
      (entries (follow core elements [.obj o])).filter (f.holds core) := by
  induction elements generalizing location o with
  | nil => exact absurd rfl hne
  | cons e rest ih =>
    obtain ⟨name, selector⟩ := e
    obtain rfl : selector = none := hes _ (List.mem_cons_self ..)
    have hrest : ∀ e ∈ rest, e.selector = none := fun e he => hes e (List.mem_cons_of_mem _ he)
    rw [follow_field]
    cases rest with
    | nil => simpa [selectLast, follow] using map_value_resolveFrom_selector ho name location
    | cons e' rest' =>
      have hin : ∀ v ∈ o.field? name, ∀ inner, .obj inner ∈ v.flatten → ∀ location,
          (resolveFrom core (selectLast f (e' :: rest')) location inner).map Found.value =
            (entries (follow core (e' :: rest') [.obj inner])).filter (f.holds core) :=
        fun v hv inner hinner => ih hrest (by simp) ((ho.field? hv).flatten hinner)
      rw [selectLast, map_value_resolveFrom_cons (selectLast_ne_nil f (by simp)) hin]
      rw [entries_flatMap, List.filter_flatMap]
      refine List.flatMap_congr fun v _ => ?_
      rw [follow_inside, entries_flatMap, List.filter_flatMap]
      refine List.flatMap_congr fun w _ => ?_
      rw [entries_flatMap, List.filter_flatMap]

/-- The values that a path with a filter on its last element leads to. -/
theorem values_select (core : List Text) (hdoc : (Json.obj doc).Gapless) (hes : ∀ e ∈ p.elements, e.selector = none)
    (hne : p.elements ≠ []) (f : Filter) :
    (p.select f).values core doc = (p.candidates core (.obj doc)).filter (f.holds core) := by
  obtain ⟨urn, elements⟩ := p
  have hnil : (selectLast f elements).isEmpty = false := by simpa using selectLast_ne_nil f hne
  rw [candidates_obj]
  unfold values resolve select
  cases hroot : Schema.rootOf? core doc urn with
  | none => simp
  | some found =>
    obtain ⟨keys, root⟩ := found
    have hg : (Json.obj root).Gapless := by
      rcases rootOf?_cases hroot with ⟨-, rfl⟩ | ⟨u, key, -, -, -, hget⟩
      · exact hdoc
      · exact hdoc.get? hget
    simp only [hnil, Bool.false_eq_true, if_false, Option.toList_some,
      List.flatMap_singleton]
    exact map_value_resolveFrom_selectLast hes hne hg (keys.map .key)

/-! ### Writing -/

/-- The places that one element with a filter leads to, if its field is no single value. -/
theorem place_resolveFrom_selector (h : items = none ∧ (o.field? name).getD .null = .null ∨
    ∃ old, items = some old ∧ o.field? name = some (.arr old)) (location : Location) :
    (resolveFrom core [⟨name, some f⟩] location o).map Found.place =
      (matchingIndexes core f (items.getD [])).map
        (.element (location ++ [.key (o.storedName name)])) := by
  unfold resolveFrom matchingIndexes
  cases hkey : o.findKey? name with
  | none =>
    have hnone : o.field? name = none := by rw [Object.field?, hkey, Option.bind_none]
    rcases h with ⟨rfl, -⟩ | ⟨old, -, hold⟩
    · rfl
    · rw [hnone] at hold
      cases hold
  | some key =>
    rw [storedName_of_findKey? hkey]
    have hfield : o.field? name = o.get? key := by rw [Object.field?, hkey, Option.bind_some]
    rw [hfield] at h
    rcases h with ⟨rfl, hnull⟩ | ⟨old, rfl, hold⟩
    · cases hv : o.get? key with
      | none => simp [hv]
      | some v =>
        rw [hv] at hnull
        obtain rfl : v = .null := hnull
        simp [hv, PathElement.admits, Json.isNull]
    · simp [hold, PathElement.selects, ← List.map_eq_flatMap]

/-- What the target of a path with a filter on its first element says of the object it is in. -/
theorem targetFrom_selection (hes : p.elements = ⟨name, some f⟩ :: subs)
    (h : p.targetFrom create container doc =
      (.ok (some (.selection container' n filter items names)), doc')) :
    doc' = doc ∧ container' = container ∧ n = name ∧ filter = f ∧
      (items = none ∧ ((doc.objectAt container).field? name).getD .null = .null ∨
        ∃ old, items = some old ∧ (doc.objectAt container).field? name = some (.arr old)) := by
  unfold targetFrom at h
  simp only [hes] at h
  split_ifs at h
  · cases h
  · obtain ⟨hmap, rfl⟩ := Prod.mk.inj h
    unfold targetSelection at hmap
    split at hmap
    · rename_i old hold
      cases hmap
      exact ⟨rfl, rfl, rfl, rfl, .inr ⟨old, rfl, field?_of_getD hold (by simp)⟩⟩
    · rename_i hnull
      cases hmap
      exact ⟨rfl, rfl, rfl, rfl, .inl ⟨rfl, hnull⟩⟩
    · cases hmap

/-- What a path to write selects are the places that the path to read leads to. -/
theorem place_resolve_of_target (hes : p.elements = ⟨name, some f⟩ :: subs)
    (h : p.target core doc create =
      (.ok (some (.selection container n filter items names)), doc')) :
    (resolve core ⟨p.schemaUrn, [⟨name, some f⟩]⟩ doc).map Found.place =
      (matchingIndexes core filter (items.getD [])).map
        (.element (container.map .key ++ [.key ((doc'.objectAt container).storedName n)])) := by
  rcases target_cases core p doc create with
    ⟨c, root, hroot, heq⟩ | ⟨r, heq, hr⟩ | ⟨u, hu, hroot, -, heq⟩ <;> rw [heq] at h
  · obtain ⟨rfl, rfl, rfl, rfl, hitems⟩ := targetFrom_selection hes h
    rw [(startsIn_of_rootOf? hroot).2] at hitems ⊢
    simpa [resolve, hroot] using place_resolveFrom_selector hitems (container.map .key)
  · cases h
    exact absurd rfl (hr _)
  · -- The object was created, so that there is nothing in it to select.
    obtain ⟨rfl, rfl, rfl, rfl, hitems⟩ := targetFrom_selection hes h
    rw [objectAt_createObject] at hitems
    obtain rfl : items = none := by
      rcases hitems with ⟨hnone, -⟩ | ⟨old, -, hold⟩
      · exact hnone
      · cases hold
    have hnone : Schema.rootOf? core doc p.schemaUrn = none := hu ▸ hroot
    simp [resolve, hnone, matchingIndexes]

/-! ### All three -/

/-- A filter in brackets means the same in a condition, in a path to read and in a path to write: the
condition holds just if the path to read leads somewhere, namely to the candidates of the condition
that satisfy the filter; and what the path to write selects are the indexes of the places that the
path to read leads to. -/
theorem select_agree (core : List Text) (doc : Object) (hdoc : (Json.obj doc).Gapless) (p : Path)
    (hne : p.elements ≠ []) (hes : ∀ e ∈ p.elements, e.selector = none) (f : Filter) :
    ((Filter.complex p f).holds core (.obj doc) = true ↔ (p.select f).resolve core doc ≠ []) ∧
    (p.select f).values core doc = (p.candidates core (.obj doc)).filter (f.holds core) ∧
    ∀ subs create container n filter items names doc', p.elements.length = 1 →
      target core ⟨p.schemaUrn, (p.select f).elements ++ subs⟩ doc create =
        (.ok (some (.selection container n filter items names)), doc') →
      ((p.select f).resolve core doc).map Found.place =
        (matchingIndexes core filter (items.getD [])).map
          (.element (container.map .key ++ [.key ((doc'.objectAt container).storedName n)])) := by
  have hvalues := values_select core hdoc hes hne f
  refine ⟨?_, hvalues, ?_⟩
  · have hnil : (p.select f).resolve core doc = [] ↔ (p.select f).values core doc = [] :=
      List.map_eq_nil_iff.symm
    rw [Ne, hnil, hvalues, List.filter_eq_nil_iff, Filter.holds, List.any_eq_true]
    simp
  · intro subs create container n filter items names doc' hone htarget
    obtain ⟨urn, elements⟩ := p
    obtain ⟨e, rfl⟩ := List.length_eq_one_iff.mp hone
    exact place_resolve_of_target (p := ⟨urn, ⟨e.name, some f⟩ :: subs⟩) rfl htarget

/-- An address that is the primary one, one that is not, and a bare one. -/
def inbox : Object :=
  ⟨[("emails", .arr [.ofMembers [("value", .str "a"), ("primary", .bool true)],
    .ofMembers [("value", .str "b")], .str "c"])], false⟩

def notPrimary : Filter := .not (.compare .eq (.ofName "primary") (.bool true))

theorem gapless_inbox : (Json.obj inbox).Gapless :=
  Json.throughout_of_everywhere _ (by decide)

theorem select_agree_inbox :
    (Json.obj inbox).Gapless ∧ (ofName "emails").elements ≠ [] ∧
    (∀ e ∈ (ofName "emails").elements, e.selector = none) ∧
    (Filter.complex (ofName "emails") notPrimary).holds [] (.obj inbox) = true ∧
    ((ofName "emails").select notPrimary).values [] inbox =
      [.ofMembers [("value", .str "b")], .str "c"] ∧
    (((ofName "emails").select notPrimary).resolve [] inbox).map Found.place =
      [.element [.key "emails"] 1, .element [.key "emails"] 2] := by
  have hne : (ofName "emails").elements ≠ [] := by simp [ofName]
  have hes : ∀ e ∈ (ofName "emails").elements, e.selector = none := by simp [ofName]
  obtain ⟨hholds, hvalues, hwrite⟩ := select_agree [] inbox gapless_inbox _ hne hes notPrimary
  refine ⟨gapless_inbox, hne, hes, hholds.mpr ?_, hvalues.trans rfl, ?_⟩
  · exact List.cons_ne_nil _ _
  · exact hwrite [⟨"value", none⟩] true [] "emails" notPrimary _ ["value"] inbox rfl rfl

end Path

end Scim

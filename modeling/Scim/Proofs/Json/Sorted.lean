import Mathlib.Data.List.Nodup
import Mathlib.Data.List.Sort
import Scim.Json.Copy
import Scim.Proofs.Json.SameOn

/-!
# Sameness and the order of members

Two values are the same if and only if they are one value after the members of all objects are put
in the order of their names (`same_iff_sorted`): objects with distinct names have one order of
members by name, so that what `Json.same` finds name by name is found place by place.
-/

namespace Scim

namespace Json

variable {v w x y : Json} {items items' : List Json} {ms ms' : List (Text × Json)} {o o' : Object}

/-! ### The order of names -/

/-- Members in the order of their names, unit by unit. -/
def byName (ms : List (Text × Json)) : List (Text × Json) := ms.insertionSort fun m m' => m.1 ≤ m'.1

theorem pairwise_byName (ms : List (Text × Json)) :
    (byName ms).Pairwise fun m m' => m.1 ≤ m'.1 := by
  have : Std.Total fun m m' : Text × Json => m.1 ≤ m'.1 := ⟨fun m m' => List.le_total m.1 m'.1⟩
  have : IsTrans (Text × Json) fun m m' => m.1 ≤ m'.1 := ⟨fun _ _ _ => List.le_trans⟩
  exact List.pairwise_insertionSort _ ms

theorem byName_perm (ms : List (Text × Json)) : (byName ms).Perm ms := List.perm_insertionSort _ ms

/-- Members of distinct names stand in one order by name. -/
theorem byName_eq_iff (h : (ms.map (·.1)).Nodup) : byName ms = byName ms' ↔ ms.Perm ms' := by
  constructor
  · intro heq
    exact (byName_perm ms).symm.trans (heq ▸ byName_perm ms')
  · intro hperm
    refine List.Perm.eq_of_pairwise (fun m m' hm hm' hle hle' => ?_) (pairwise_byName ms)
      (pairwise_byName ms') ((byName_perm ms).trans (hperm.trans (byName_perm ms').symm))
    have hmem : m ∈ ms := (byName_perm ms).mem_iff.mp hm
    have hmem' : m' ∈ ms := hperm.mem_iff.mpr ((byName_perm ms').mem_iff.mp hm')
    exact List.inj_on_of_nodup_map h hmem hmem' (List.le_antisymm hle hle')

mutual

/-- The value with the members of every object in the order of their names. -/
def sorted : Json → Json
  | .arr items => .arr (sortedItems items)
  | .obj ⟨members, _⟩ => .ofMembers (byName (sortedMembers members))
  | v => v
termination_by structural v => v

def sortedItems : List Json → List Json
  | [] => []
  | v :: rest => v.sorted :: sortedItems rest
termination_by structural vs => vs

def sortedMembers : List (Text × Json) → List (Text × Json)
  | [] => []
  | (key, v) :: rest => (key, v.sorted) :: sortedMembers rest
termination_by structural ms => ms

end

theorem sortedItems_eq (items : List Json) : sortedItems items = items.map sorted := by
  induction items with
  | nil => rfl
  | cons v rest ih => rw [sortedItems, ih, List.map_cons]

theorem sortedMembers_eq (ms : List (Text × Json)) :
    sortedMembers ms = ms.map fun m => (m.1, m.2.sorted) := by
  induction ms with
  | nil => rfl
  | cons m rest ih => rw [sortedMembers, ih, List.map_cons]

theorem sorted_eq_of_scalar_iff (hobj : v.object? = none) (harr : v.items? = none) :
    v.sorted = w.sorted ↔ v = w := by
  cases v with
  | arr => cases harr
  | obj => cases hobj
  | _ => cases w <;> simp [sorted, ofMembers]

theorem sorted_arr_eq_iff :
    (arr items).sorted = (arr items').sorted ↔ items.map sorted = items'.map sorted := by
  rw [sorted, sorted, arr.injEq, sortedItems_eq, sortedItems_eq]

/-- As many members, each of which is found under its name. -/
theorem perm_map_iff {f : Json → Json} (ho : (Object.keys o).Nodup) (ho' : (Object.keys o').Nodup) :
    (o.members.map fun m => (m.1, f m.2)).Perm (o'.members.map fun m => (m.1, f m.2)) ↔
      o.members.length = o'.members.length ∧
        ∀ m ∈ o.members, ∃ w, o'.get? m.1 = some w ∧ f m.2 = f w := by
  constructor
  · intro hperm
    refine ⟨by simpa using hperm.length_eq, fun m hm => ?_⟩
    obtain ⟨m', hm', heq⟩ :=
      List.mem_map.mp (hperm.mem_iff.mp (List.mem_map_of_mem hm))
    obtain ⟨hname, hvalue⟩ := Prod.mk.inj heq
    exact ⟨m'.2, hname ▸ Object.get?_of_mem ho' hm', hvalue.symm⟩
  · rintro ⟨hlength, hms⟩
    have hnodup : (o.members.map fun m => (m.1, f m.2)).Nodup :=
      .of_map Prod.fst (by rw [List.map_map]; exact ho)
    refine (List.subperm_of_subset hnodup fun e he => ?_).perm_of_length_le (by simp [hlength])
    obtain ⟨m, hm, rfl⟩ := List.mem_map.mp he
    obtain ⟨w, hw, heq⟩ := hms m hm
    exact List.mem_map.mpr ⟨_, Object.mem_of_get? hw, by rw [heq]⟩

theorem sorted_obj_eq_iff (ho : (Object.keys o).Nodup) (ho' : (Object.keys o').Nodup) :
    (obj o).sorted = (obj o').sorted ↔ o.members.length = o'.members.length ∧
      ∀ m ∈ o.members, ∃ w, o'.get? m.1 = some w ∧ m.2.sorted = w.sorted := by
  rw [← perm_map_iff ho ho', ← byName_eq_iff (by rw [List.map_map]; exact ho), ← sortedMembers_eq,
    ← sortedMembers_eq]
  simp [sorted, ofMembers]

theorem same_iff_sorted (v : Json) {w : Json} (hv : v.WellFormed) (hw : w.WellFormed) :
    v.same w ↔ v.sorted = w.sorted := by
  induction v using induct generalizing w with
  | scalar v hobj harr => rw [same_scalar_iff hobj harr, sorted_eq_of_scalar_iff hobj harr]
  | arr vs ih =>
    cases w with
    | arr ws =>
      rw [wellFormed_arr_iff] at hv hw
      rw [same_arr_iff, sorted_arr_eq_iff, ← List.forall₂_eq_eq_eq, List.forall₂_map_left_iff,
        List.forall₂_map_right_iff, List.forall₂_iff_get, List.forall₂_iff_get]
      refine and_congr_right fun _ => forall_congr' fun i => forall₂_congr fun _ _ => ?_
      exact ih _ (List.get_mem ..) (hv _ (List.get_mem ..)) (hw _ (List.get_mem ..))
    | _ => simp [same, sorted, ofMembers]
  | obj ms unlocked ih =>
    cases w with
    | obj o =>
      rw [same_obj_iff, sorted_obj_eq_iff hv.nodup hw.nodup]
      refine and_congr_right' (forall₂_congr fun m hm => ?_)
      refine exists_congr fun u => and_congr_right fun hu => ?_
      exact ih m hm (hv.member hm) (hw.member (Object.mem_of_get? hu))
    | _ => simp [same, sorted, ofMembers]

theorem same_equivalence : Equivalence fun v w : {v : Json // v.WellFormed} => v.1.same w.1 where
  refl v := same_refl v.1 v.2
  symm {v w} h := same_symm v.1 v.2 w.2 h
  trans {v _ _} h h' := same_trans v.1 h h'

/-! ### The same value further inside -/

/-- The value with `w` in the place of what is at a location. -/
def put : Json → Location → Json → Json
  | _, [], w => w
  | .obj o, .key name :: rest, w =>
    match Object.get? o name with
    | some v => .obj (Object.overwrite o name (v.put rest w))
    | none => .obj o
  | .arr items, .index n :: rest, w =>
    match items[n]? with
    | some v => .arr (items.set n (v.put rest w))
    | none => .arr items
  | v, _ :: _, _ => v
termination_by structural _ location => location

/-- A place further inside is in a member of an object or in an item of an array. -/
theorem at?_cons_cases {step : Step} {rest : Location} (h : v.at? (step :: rest) = some x) :
    (∃ (o : Object) (name : Text) (u : Json), v = .obj o ∧ step = .key name ∧
      Object.get? o name = some u ∧ u.at? rest = some x) ∨
    ∃ (items : List Json) (n : Nat) (u : Json), v = .arr items ∧ step = .index n ∧
      items[n]? = some u ∧ u.at? rest = some x := by
  cases v with
  | obj o =>
    cases step with
    | key name =>
      obtain ⟨u, hu, hx⟩ := Option.bind_eq_some_iff.mp h
      exact .inl ⟨o, name, u, rfl, rfl, hu, hx⟩
    | index n => cases h
  | arr items =>
    cases step with
    | key name => cases h
    | index n =>
      obtain ⟨u, hu, hx⟩ := Option.bind_eq_some_iff.mp h
      exact .inr ⟨items, n, u, rfl, rfl, hu, hx⟩
  | _ => cases step <;> cases h

theorem put_nil (v w : Json) : v.put [] w = w := by cases v <;> rfl

theorem put_key {name : Text} (h : Object.get? o name = some v) (rest : Location) (w : Json) :
    (obj o).put (.key name :: rest) w = .obj (Object.overwrite o name (v.put rest w)) := by
  rw [put, h]

theorem put_index {n : Nat} (h : items[n]? = some v) (rest : Location) (w : Json) :
    (arr items).put (.index n :: rest) w = .arr (items.set n (v.put rest w)) := by
  rw [put, h]

theorem at?_put {location : Location} (h : v.at? location = some x) (y : Json) :
    (v.put location y).at? location = some y := by
  induction location generalizing v with
  | nil => rw [put_nil, at?_nil]
  | cons step rest ih =>
    rcases at?_cons_cases h with ⟨o, name, u, rfl, rfl, hu, hx⟩ | ⟨items, n, u, rfl, rfl, hu, hx⟩
    · rw [put_key hu, at?, Object.get?_overwrite, if_pos rfl, hu]
      exact ih hx
    · obtain ⟨hn, -⟩ := List.getElem?_eq_some_iff.mp hu
      rw [put_index hu, at?, List.getElem?_set_self hn]
      exact ih hx

theorem WellFormed.put {location : Location} (hv : v.WellFormed) (h : v.at? location = some x)
    (hy : y.WellFormed) : (v.put location y).WellFormed := by
  induction location generalizing v with
  | nil => rwa [put_nil]
  | cons step rest ih =>
    rcases at?_cons_cases h with ⟨o, name, u, rfl, rfl, hu, hx⟩ | ⟨items, n, u, rfl, rfl, hu, hx⟩
    · rw [put_key hu]
      exact AllObjects.overwrite hv name (ih (Throughout.get? hv hu) hx)
    · rw [put_index hu]
      rw [wellFormed_arr_iff] at hv ⊢
      intro w hw
      rcases List.mem_or_eq_of_mem_set hw with hmem | rfl
      · exact hv w hmem
      · exact ih (hv u (List.mem_of_getElem? hu)) hx

/-- A member under its name and the same value in its place make the same object. -/
theorem same_overwrite {name : Text} (ho : (obj o).WellFormed) (hv : Object.get? o name = some v)
    (h : v.same w) : (obj o).same (.obj (Object.overwrite o name w)) := by
  refine same_obj_iff.mpr ⟨by simp [Object.overwrite], fun m hm => ?_⟩
  have hget := Object.get?_of_mem ho.nodup hm
  rw [Object.get?_overwrite]
  split_ifs with hname
  · subst hname
    obtain rfl : m.2 = v := Option.some.inj (hget.symm.trans hv)
    exact ⟨w, by rw [hv]; rfl, h⟩
  · exact ⟨m.2, hget, same_refl m.2 (ho.member hm)⟩

theorem same_set {n : Nat} (hitems : (arr items).WellFormed) (hv : items[n]? = some v)
    (h : v.same w) : (arr items).same (.arr (items.set n w)) := by
  refine same_arr_iff.mpr (List.forall₂_iff_get.mpr ⟨by simp, fun i hi hi' => ?_⟩)
  rw [List.get_eq_getElem, List.get_eq_getElem, List.getElem_set]
  obtain ⟨_, rfl⟩ := List.getElem?_eq_some_iff.mp hv
  split_ifs with hn
  · subst hn
    exact h
  · exact same_refl _ (wellFormed_arr_iff.mp hitems _ (List.getElem_mem hi))

theorem same_put {location : Location} (hv : v.WellFormed) (h : v.at? location = some x)
    (hsame : x.same y) : v.same (v.put location y) := by
  induction location generalizing v with
  | nil =>
    rw [at?_nil] at h
    rw [put_nil]
    exact Option.some.inj h ▸ hsame
  | cons step rest ih =>
    rcases at?_cons_cases h with ⟨o, name, u, rfl, rfl, hu, hx⟩ | ⟨items, n, u, rfl, rfl, hu, hx⟩
    · rw [put_key hu]
      exact same_overwrite hv hu (ih (Throughout.get? hv hu) hx)
    · rw [put_index hu]
      exact same_set hv hu (ih (Throughout.item hv (List.mem_of_getElem? hu)) hx)

/-! ### Copies -/

theorem copyItems_eq (items : List Json) : copyItems items = items.map copy := by
  induction items with
  | nil => rfl
  | cons v rest ih => rw [copyItems, ih, List.map_cons]

theorem copyMembers_eq (ms : List (Text × Json)) :
    copyMembers ms = ms.map fun m => (m.1, m.2.copy) := by
  induction ms with
  | nil => rfl
  | cons m rest ih => rw [copyMembers, ih, List.map_cons]

theorem same_copy (v : Json) (hv : v.WellFormed) : v.same v.copy := by
  induction v using induct with
  | scalar v hobj harr =>
    cases v with
    | arr => cases harr
    | obj => cases hobj
    | _ => exact same_refl _ hv
  | arr items ih =>
    rw [wellFormed_arr_iff] at hv
    rw [copy, copyItems_eq, same_arr_iff, List.forall₂_map_right_iff, List.forall₂_same]
    exact fun v hmem => ih v hmem (hv v hmem)
  | obj ms unlocked ih =>
    have hkeys : (Object.keys ⟨copyMembers ms, false⟩).Nodup := by
      rw [copyMembers_eq, Object.keys, List.map_map]
      exact hv.nodup
    refine same_obj_iff.mpr ⟨by rw [copyMembers_eq, List.length_map], fun m hm => ?_⟩
    have hmem : (m.1, m.2.copy) ∈ copyMembers ms :=
      copyMembers_eq ms ▸ List.mem_map_of_mem (f := fun m => (m.1, m.2.copy)) hm
    exact ⟨m.2.copy, Object.get?_of_mem hkeys hmem, ih m hm (hv.member hm)⟩

/-! ### Equality up to the order of members -/

/-- Values are the same if and only if they are one value with the members of all objects in the
order of their names. So this is an equivalence, the same value in the place of one further inside
makes no difference, and a value is the same as its copy. -/
theorem same_up_to_memberOrder (hv : v.WellFormed) (hw : w.WellFormed) :
    (v.same w ↔ v.sorted = w.sorted) ∧
      (Equivalence fun a b : {a : Json // a.WellFormed} => a.1.same b.1) ∧
      (∀ location x y, v.at? location = some x → y.WellFormed → x.same y →
        (v.put location y).at? location = some y ∧ v.same (v.put location y) ∧
          (v.put location y).same w = v.same w ∧ w.same (v.put location y) = w.same v) ∧
      v.same v.copy := by
  refine ⟨same_iff_sorted v hv hw, same_equivalence, fun location x y hx hy hsame => ?_,
    same_copy v hv⟩
  have hput : (v.put location y).WellFormed := hv.put hx hy
  have hvput : v.same (v.put location y) := same_put hv hx hsame
  refine ⟨at?_put hx y, hvput, ?_, ?_⟩
  · exact same_congr hput hw hv hw (same_symm v hv hput hvput) (same_refl w hw)
  · exact same_congr hw hput hw hv (same_refl w hw) (same_symm v hv hput hvput)

/-- Two telephone numbers, the second of which is shown to others. -/
def phones : Json :=
  .ofMembers [("phones", .arr [.str "1", .ofMembers [("value", .str "2"), ("shown", .bool true)]]),
    ("__proto__", .null)]

/-- The same with the members of objects in another order. -/
def phonesReordered : Json :=
  .ofMembers [("__proto__", .null),
    ("phones", .arr [.str "1", .ofMembers [("shown", .bool true), ("value", .str "2")]])]

theorem same_up_to_memberOrder_phones :
    phones.WellFormed ∧ phonesReordered.WellFormed ∧ phones.sorted = phonesReordered.sorted ∧
      phones.same phonesReordered ∧
      (phones.put [.key "phones", .index 1]
        (.ofMembers [("shown", .bool true), ("value", .str "2")])).same phonesReordered := by
  have hv : phones.WellFormed := throughout_of_everywhere _ (by decide)
  have hw : phonesReordered.WellFormed := throughout_of_everywhere _ (by decide)
  have hy : (ofMembers [("shown", .bool true), ("value", .str "2")]).WellFormed :=
    throughout_of_everywhere _ (by decide)
  have hsorted : phones.sorted = phonesReordered.sorted := rfl
  obtain ⟨hsame, -, hput, -⟩ := same_up_to_memberOrder hv hw
  have hvw := hsame.mpr hsorted
  obtain ⟨-, -, heq, -⟩ := hput [.key "phones", .index 1] _ _ rfl hy rfl
  exact ⟨hv, hw, hsorted, hvw, heq.trans hvw⟩

end Json

end Scim

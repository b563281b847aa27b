import Mathlib.Data.List.Perm.Subperm
import Scim.Proofs.Json.Inside

/-!
# Sameness as an equivalence

On values in which no object has two members of one name, as there are none in what is parsed or
written, `Json.same` is an equivalence. An object is the same as another if they have
the same number of members and each member of the one is found in the other; that each of the other
is found as well is a matter of counting.
-/

namespace Scim

namespace Json

variable {v w u : Json} {items items' : List Json} {o o' : Object} {ms : List (Text × Json)}
  {unlocked : Bool}

theorem wellFormed_arr_iff : (arr items).WellFormed ↔ ∀ w ∈ items, w.WellFormed :=
  allObjects_arr_iff

theorem wellFormed_scalar (hobj : v.object? = none) (harr : v.items? = none) : v.WellFormed :=
  allObjects_scalar hobj harr

theorem wellFormed_obj_iff :
    (obj o).WellFormed ↔ (Object.keys o).Nodup ∧ ∀ m ∈ o.members, m.2.WellFormed := by
  refine throughout_obj_iff.trans ⟨fun ⟨hself, hget⟩ => ?_, fun ⟨hkeys, hms⟩ => ⟨?_, ?_⟩⟩
  · exact ⟨hself o rfl, fun m hm => hget m.1 m.2 (Object.get?_of_mem (hself o rfl) hm)⟩
  · rintro _ ⟨⟩
    exact hkeys
  · exact fun key w hget => hms _ (Object.mem_of_get? hget)

theorem WellFormed.nodup (h : (obj o).WellFormed) : (Object.keys o).Nodup :=
  (wellFormed_obj_iff.mp h).1

theorem WellFormed.member (h : (obj o).WellFormed) {m : Text × Json} (hm : m ∈ o.members) :
    m.2.WellFormed := (wellFormed_obj_iff.mp h).2 m hm

/-- Names that are unique up to letter case are unique. -/
theorem Unambiguous.wellFormed (h : v.Unambiguous) : v.WellFormed :=
  fun location w hat o ho => .of_map _ (h location w hat o ho)

theorem sameMembers_iff :
    sameMembers ms o ↔ ∀ m ∈ ms, ∃ w, o.get? m.1 = some w ∧ m.2.same w := by
  induction ms with
  | nil => simp [sameMembers]
  | cons m rest ih =>
    rw [sameMembers, Bool.and_eq_true, ih, List.forall_mem_cons]
    refine and_congr_left' ?_
    cases o.get? m.1 <;> simp

theorem same_obj_iff : (obj o).same (obj o') ↔ o.members.length = o'.members.length ∧
    ∀ m ∈ o.members, ∃ w, o'.get? m.1 = some w ∧ m.2.same w := by
  rw [same, Bool.and_eq_true, beq_iff_eq, sameMembers_iff]

theorem same_arr_iff : (arr items).same (arr items') ↔
    List.Forall₂ (fun v w => v.same w) items items' := by
  rw [same]
  induction items generalizing items' with
  | nil => cases items' <;> simp [sameItems]
  | cons v rest ih => cases items' <;> simp [sameItems, ih]

theorem same_scalar_iff (hobj : v.object? = none) (harr : v.items? = none) : v.same w ↔ v = w := by
  cases v with
  | arr => cases harr
  | obj => cases hobj
  | _ => cases w <;> simp [same]

theorem exists_of_same_arr (h : (arr items).same v) :
    ∃ items', v = arr items' ∧ List.Forall₂ (fun v w => v.same w) items items' := by
  cases v with
  | arr items' => exact ⟨items', rfl, same_arr_iff.mp h⟩
  | _ => simp [same] at h

theorem exists_of_same_obj (h : (obj o).same v) :
    ∃ o' : Object, v = obj o' ∧ o.members.length = o'.members.length ∧
      ∀ m ∈ o.members, ∃ w, Object.get? o' m.1 = some w ∧ m.2.same w := by
  cases v with
  | obj o' => exact ⟨o', rfl, same_obj_iff.mp h⟩
  | _ => simp [same] at h

/-- As many members with other names among them would be too many. -/
theorem keys_perm_of_same (ho : (Object.keys o).Nodup) (h : (obj o).same (obj o')) :
    (Object.keys o).Perm (Object.keys o') := by
  obtain ⟨hlength, hms⟩ := same_obj_iff.mp h
  have hkeys : Object.keys o ⊆ Object.keys o' := fun key hkey => by
    obtain ⟨m, hm, rfl⟩ := List.mem_map.mp hkey
    obtain ⟨w, hw, -⟩ := hms m hm
    exact Object.mem_keys_iff.mpr (by rw [hw]; rfl)
  exact (List.subperm_of_subset ho hkeys).perm_of_length_le (by simp [Object.keys, hlength])

/-! ### The three laws -/

theorem same_refl (v : Json) (hv : v.WellFormed) : v.same v := by
  induction v using induct with
  | scalar v hobj harr => exact (same_scalar_iff hobj harr).mpr rfl
  | arr items ih =>
    rw [wellFormed_arr_iff] at hv
    exact same_arr_iff.mpr (List.forall₂_same.mpr fun v hmem => ih v hmem (hv v hmem))
  | obj ms unlocked ih =>
    refine same_obj_iff.mpr ⟨rfl, fun m hm => ?_⟩
    exact ⟨m.2, Object.get?_of_mem hv.nodup hm, ih m hm (hv.member hm)⟩

theorem same_trans (v : Json) {w u : Json} (h : v.same w) (h' : w.same u) : v.same u := by
  induction v using induct generalizing w u with
  | scalar v hobj harr => rwa [(same_scalar_iff hobj harr).mp h]
  | arr vs ih =>
    obtain ⟨ws, rfl, hws⟩ := exists_of_same_arr h
    obtain ⟨us, rfl, hus⟩ := exists_of_same_arr h'
    obtain ⟨hlength, hget⟩ := List.forall₂_iff_get.mp hws
    obtain ⟨hlength', hget'⟩ := List.forall₂_iff_get.mp hus
    refine same_arr_iff.mpr (List.forall₂_iff_get.mpr ⟨hlength.trans hlength', fun i hi hi' => ?_⟩)
    exact ih _ (List.get_mem ..) (hget i hi (hlength ▸ hi)) (hget' i (hlength ▸ hi) hi')
  | obj ms unlocked ih =>
    obtain ⟨o, rfl, hlength, hms⟩ := exists_of_same_obj h
    obtain ⟨o', rfl, hlength', hms'⟩ := exists_of_same_obj h'
    refine same_obj_iff.mpr ⟨hlength.trans hlength', fun m hm => ?_⟩
    obtain ⟨w, hw, hsame⟩ := hms m hm
    obtain ⟨u, hu, hsame'⟩ := hms' _ (Object.mem_of_get? hw)
    exact ⟨u, hu, ih m hm hsame hsame'⟩

theorem same_symm (v : Json) {w : Json} (hv : v.WellFormed) (hw : w.WellFormed) (h : v.same w) :
    w.same v := by
  induction v using induct generalizing w with
  | scalar v hobj harr =>
    obtain rfl := (same_scalar_iff hobj harr).mp h
    exact h
  | arr vs ih =>
    obtain ⟨ws, rfl, hws⟩ := exists_of_same_arr h
    obtain ⟨hlength, hget⟩ := List.forall₂_iff_get.mp hws
    rw [wellFormed_arr_iff] at hv hw
    refine same_arr_iff.mpr (List.forall₂_iff_get.mpr ⟨hlength.symm, fun i hi hi' => ?_⟩)
    exact ih _ (List.get_mem ..) (hv _ (List.get_mem ..)) (hw _ (List.get_mem ..)) (hget i hi' hi)
  | obj ms unlocked ih =>
    obtain ⟨o, rfl, hlength, hms⟩ := exists_of_same_obj h
    have hperm : (ms.map Prod.fst).Perm (Object.keys o) := keys_perm_of_same hv.nodup h
    refine same_obj_iff.mpr ⟨hlength.symm, fun m' hm' => ?_⟩
    obtain ⟨m, hm, hname⟩ := List.mem_map.mp (hperm.mem_iff.mpr (List.mem_map_of_mem hm'))
    obtain ⟨w, hw', hsame⟩ := hms m hm
    obtain rfl : m'.2 = w := Option.some.inj
      ((Object.get?_of_mem hw.nodup hm').symm.trans (hname ▸ hw'))
    exact ⟨m.2, hname ▸ Object.get?_of_mem hv.nodup hm, ih m hm (hv.member hm) (hw.member hm') hsame⟩

theorem same_comm (hv : v.WellFormed) (hw : w.WellFormed) : v.same w = w.same v :=
  Bool.eq_iff_iff.mpr ⟨same_symm v hv hw, same_symm w hw hv⟩

end Json

end Scim

import Mathlib.Tactic.Common
import Scim.Patch.Operation

/-!
# Accepted operations

What `Operation.make` lets through (`make_eq_ok_iff`), and what later steps rely on: a filter stands
on the first element of a path only, and a removal lists values at a path of one plain name. Of a
path the checks see the form only (`check_congr`), unless a removal lists values.
-/

namespace Scim

/-- What a path is apart from its names: the elements on which filters stand, and whether these are
such as an addition can make true. -/
def Path.form (p : Path) : List (Option Bool) :=
  p.elements.map fun e => e.selector.map Operation.isAssignment

namespace Operation

variable {change : Change} {path : Option Path} {value : Option Json} {op : Operation} {p q : Path}

/-- All four checks have to pass, those of a path only if there is one. -/
theorem check_eq_ok_iff : check change path value = .ok () ↔
    value.any Json.hasReservedKey = false ∧ (∀ p ∈ path, checkSelectors p = .ok ()) ∧
    checkValue change path value = .ok () ∧ ∀ p ∈ path, checkSelection change p value = .ok () := by
  have hbind : ∀ x y : Except Error Unit,
      (x >>= fun _ => y) = .ok () ↔ x = .ok () ∧ y = .ok () := by
    rintro (e | _) y
    · exact ⟨nofun, nofun⟩
    · exact ⟨fun h => ⟨rfl, h⟩, And.right⟩
  unfold check
  cases value.any Json.hasReservedKey with
  | true => exact ⟨nofun, fun h => absurd h.1 (by simp)⟩
  | false => cases path <;> simp [hbind]

theorem check_of_hasReservedKey (h : value.any Json.hasReservedKey = true) :
    check change path value = .error .reservedKey := by
  unfold check
  rw [h]
  rfl

theorem make_eq (change : Change) (path : Option Path) (value : Option Json) :
    make change path value = (check change (path.filter (!·.isRoot)) value).map
      fun _ => ⟨change, path.filter (!·.isRoot), value⟩ := by
  unfold make
  dsimp only
  cases check change (path.filter (!·.isRoot)) value <;> rfl

theorem make_eq_ok_iff : make change path value = .ok op ↔
    op = ⟨change, path.filter (!·.isRoot), value⟩ ∧ check change op.path value = .ok () := by
  rw [make_eq]
  constructor
  · cases hcheck : check change (path.filter (!·.isRoot)) value with
    | error e => nofun
    | ok _ =>
      rintro ⟨⟩
      exact ⟨rfl, hcheck⟩
  · rintro ⟨rfl, hcheck⟩
    rw [hcheck]
    rfl

/-- The path of the resource was dropped. -/
theorem isRoot_of_make (h : make change path value = .ok op) : ∀ p ∈ op.path, p.isRoot = false := by
  intro p hp
  rw [(make_eq_ok_iff.mp h).1] at hp
  simpa using (Option.filter_eq_some_iff.mp hp).2

/-- A path with elements is kept as it is. -/
theorem eq_of_make {p : Path} (hne : p.elements ≠ [])
    (h : make change (some p) value = .ok op) :
    op = ⟨change, some p, value⟩ ∧ check change (some p) value = .ok () := by
  have hpath : (some p).filter (!·.isRoot) = some p := by
    simp [Option.filter, Path.isRoot, hne]
  obtain ⟨rfl, hcheck⟩ := make_eq_ok_iff.mp h
  rw [hpath] at hcheck ⊢
  exact ⟨rfl, hcheck⟩

/-- Anything but a removal has a value that says something. -/
theorem isVoid_of_make (hchange : change ≠ .remove) (h : make change path value = .ok op) :
    isVoid value = false := by
  have hvalue := (check_eq_ok_iff.mp (make_eq_ok_iff.mp h).2).2.2.1
  unfold checkValue at hvalue
  cases change with
  | remove => exact absurd rfl hchange
  | _ => simpa using hvalue

theorem given_of_make (hchange : change ≠ .remove) (h : make change path value = .ok op) :
    ∃ v, value = some v ∧ given? value = some v := by
  have hvoid := isVoid_of_make hchange h
  cases value with
  | none => cases hvoid
  | some v => cases v <;> first | exact ⟨_, rfl, rfl⟩ | cases hvoid

/-! ### The form of a path -/

theorem checkSelectors_eq_ok_iff : checkSelectors p = .ok () ↔ ∀ x ∈ p.form.tail, x = none := by
  unfold checkSelectors Path.form
  cases p.elements with
  | nil => simp
  | cons first rest =>
    dsimp only [List.map_cons, List.tail_cons]
    split_ifs with hlate
    · simpa [Option.isSome_iff_ne_none] using hlate
    · simpa [Option.isSome_iff_ne_none] using hlate

/-- Where values are selected there is at most one sub-attribute; and for an addition there is one,
the filter tells what a new value is, and the value is no array. -/
theorem checkSelection_eq_ok_iff : checkSelection change p value = .ok () ↔
    ∀ b rest, p.form = some b :: rest → rest.length ≤ 1 ∧
      (change = .add → rest.length = 1 ∧ b ∧ ∀ items, value ≠ some (.arr items)) := by
  unfold checkSelection Path.form
  split
  · rename_i name filter rest hes
    rw [hes, List.length_cons]
    simp only [List.map_cons, Option.map_some, List.cons.injEq, Option.some.injEq, and_imp]
    split_ifs with hlength hadd hassignment
    · exact iff_of_false (by simp) (by grind)
    · exact iff_of_true rfl (by grind)
    · exact iff_of_false (by simp) (by grind)
    · split
      · exact iff_of_false (by simp) (by grind)
      · exact iff_of_true rfl (by grind)
  · rename_i hnone
    refine iff_of_true rfl fun b rest hform => ?_
    obtain ⟨⟨name, selector⟩, rest', hes, hsel, -⟩ := List.map_eq_cons_iff.mp hform
    obtain ⟨filter, rfl, -⟩ := Option.map_eq_some_iff.mp hsel
    exact absurd hes (hnone name filter rest')

theorem checkValue_congr (h : change = .remove → (given? value).isSome →
    takesMembers p = takesMembers q) :
    checkValue change (some p) value = .ok () ↔ checkValue change (some q) value = .ok () := by
  cases change with
  | add | replace => exact Iff.rfl
  | remove =>
    unfold checkValue
    dsimp only
    cases hgiven : (given? value).isSome with
    | false => exact Iff.rfl
    | true =>
      rw [h rfl hgiven]
      split_ifs
      · exact iff_of_false (by simp) (by simp)
      · exact Iff.rfl

/-- Paths of one form are fit for the same operations, but for removals that list values. -/
theorem check_congr (hform : p.form = q.form)
    (htakes : change = .remove → (given? value).isSome → takesMembers p = takesMembers q) :
    check change (some p) value = .ok () ↔ check change (some q) value = .ok () := by
  simp only [check_eq_ok_iff, Option.mem_def, Option.some.injEq, forall_eq',
    checkSelectors_eq_ok_iff, checkSelection_eq_ok_iff, hform, checkValue_congr htakes]

/-! ### What accepted operations are -/

/-- In an accepted operation only the first element of the path has a filter. -/
theorem selector_of_make (h : make change path value = .ok op) :
    ∀ p ∈ op.path, ∀ e ∈ p.elements.tail, e.selector = none :=
  fun p hp => by
  have hlate := checkSelectors_eq_ok_iff.mp ((check_eq_ok_iff.mp (make_eq_ok_iff.mp h).2).2.1 p hp)
  simpa [Path.form, ← List.map_tail] using hlate

/-- An accepted removal lists values only at a path to members. -/
theorem takesMembers_of_make (h : make change path value = .ok op) (hlist : op.removesByValue) :
    ∀ p ∈ op.path, takesMembers p := by
  intro p hp
  obtain ⟨hop, hcheck⟩ := make_eq_ok_iff.mp h
  have hvalue := (check_eq_ok_iff.mp hcheck).2.2.1
  obtain ⟨hchange, hgiven⟩ : change = .remove ∧ (given? value).isSome := by
    simpa [removesByValue, hop] using hlist
  subst hchange
  rw [Option.mem_def.mp hp] at hvalue
  by_contra hnot
  simp [checkValue, hgiven, hnot] at hvalue

/-- An accepted addition to selected values tells one sub-attribute and what a new value is. -/
theorem assignment_of_make {p : Path} {name : Text} {filter : Filter} {rest : List PathElement}
    (h : make .add path value = .ok op) (hp : op.path = some p)
    (hes : p.elements = ⟨name, some filter⟩ :: rest) :
    ∃ k l sub, filter = .compare .eq (.ofName k) l ∧ rest = [⟨sub, none⟩] := by
  have hlate := selector_of_make h p hp
  have hselection := (check_eq_ok_iff.mp (make_eq_ok_iff.mp h).2).2.2.2 p hp
  have hform : p.form = some (isAssignment filter) :: Path.form ⟨none, rest⟩ := by
    rw [Path.form, hes]
    rfl
  obtain ⟨hlength, hassignment, -⟩ := (checkSelection_eq_ok_iff.mp hselection _ _ hform).2 rfl
  rw [Path.form, List.length_map] at hlength
  obtain ⟨⟨sub, selector⟩, rfl⟩ := List.length_eq_one_iff.mp hlength
  rw [hes] at hlate
  obtain rfl : selector = none := hlate _ (List.mem_singleton.mpr rfl)
  unfold isAssignment at hassignment
  split at hassignment
  · exact ⟨_, _, sub, rfl, rfl⟩
  · cases hassignment

end Operation

end Scim

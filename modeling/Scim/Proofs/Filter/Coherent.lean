import Scim.Filter.Compare
import Scim.Proofs.Instant.LetterCase

/-!
# The comparison of texts

Two texts are equal in a filter if they name one instant or have one lower case (`Text.equal_iff`).
The second does not interfere with the first: texts with one lower case name the same instant or none.
So equality is an equivalence on all texts, instants and others mixed. The order of two texts is
found apart from it, and puts neither first exactly if they are equal (`Text.order_eq_iff`). So the
operators that ask for an order agree with those that ask for equality
(`Comparison.between_coherent`).
-/

namespace Scim

namespace Instant

theorem compareText_eq_iff {a b : Text} : compareText a b = .eq ↔ a = b := by
  unfold compareText
  split_ifs with hlt hgt
  · refine iff_of_false (by decide) ?_
    rintro rfl
    exact List.lt_irrefl a hlt
  · refine iff_of_false (by decide) ?_
    rintro rfl
    exact List.lt_irrefl a hgt
  · exact iff_of_true rfl (List.le_antisymm hgt hlt)

theorem compare_eq_iff {i j : Instant} : compare i j = .eq ↔ i = j := by
  unfold compare
  split_ifs with hlt hgt
  · refine iff_of_false (by decide) ?_
    rintro rfl
    exact Int.lt_irrefl _ hlt
  · refine iff_of_false (by decide) ?_
    rintro rfl
    exact Int.lt_irrefl _ hgt
  · have hmillis : i.millis = j.millis := by omega
    rw [compareText_eq_iff]
    cases i
    cases j
    simp_all

end Instant

namespace Text

open Instant (read?)

variable {a b c : Text}

/-- Two texts that name one instant, or differ in letter case only. -/
theorem equal_iff :
    equal a b = true ↔ (∃ i, read? a = some i ∧ read? b = some i) ∨ a.lower = b.lower := by
  unfold equal Instant.compareTexts?
  constructor
  · intro h
    cases ha : read? a with
    | none =>
      rw [ha] at h
      exact .inr (beq_iff_eq.mp h)
    | some i =>
      cases hb : read? b with
      | none =>
        rw [ha, hb] at h
        exact .inr (beq_iff_eq.mp h)
      | some j =>
        rw [ha, hb] at h
        obtain rfl := Instant.compare_eq_iff.mp (beq_iff_eq.mp h)
        exact .inl ⟨i, rfl, rfl⟩
  · rintro (⟨i, ha, hb⟩ | h)
    · rw [ha, hb]
      exact beq_iff_eq.mpr (Instant.compare_eq_iff.mpr rfl)
    · rw [Instant.read?_eq_of_lower_eq h]
      cases read? b with
      | none => exact beq_iff_eq.mpr h
      | some i => exact beq_iff_eq.mpr (Instant.compare_eq_iff.mpr rfl)

theorem equal_self (t : Text) : equal t t = true := equal_iff.mpr (.inr rfl)

theorem equal_equivalence : Equivalence fun a b => equal a b = true := by
  simp only [equal_iff]
  refine ⟨fun a => .inr rfl, ?_, ?_⟩
  · rintro a b (⟨i, ha, hb⟩ | h)
    · exact .inl ⟨i, hb, ha⟩
    · exact .inr h.symm
  · rintro a b c (⟨i, ha, hb⟩ | hab) (⟨j, hb', hc⟩ | hbc)
    · rw [hb] at hb'
      cases hb'
      exact .inl ⟨i, ha, hc⟩
    · exact .inl ⟨i, ha, Instant.read?_eq_of_lower_eq hbc ▸ hb⟩
    · exact .inl ⟨j, (Instant.read?_eq_of_lower_eq hab).trans hb', hc⟩
    · exact .inr (hab.trans hbc)

/-- The order puts neither of two texts first exactly if they are equal. -/
theorem order_eq_iff : order a b = .eq ↔ equal a b = true := by
  unfold order equal
  cases Instant.compareTexts? a b with
  | none =>
    rw [beq_iff_eq]
    exact Instant.compareText_eq_iff
  | some o => exact beq_iff_eq.symm

theorem equal_eq_order (a b : Text) : equal a b = (order a b == .eq) := by
  rw [Bool.eq_iff_iff, beq_iff_eq, order_eq_iff]

end Text

namespace Comparison

/-- The operator holds between a text of a resource and a text of a filter. -/
def between (op : Comparison) (text search : Text) : Prop := op.holds (.str search) [.str text] = true

instance (op : Comparison) (text search : Text) : Decidable (op.between text search) :=
  inferInstanceAs (Decidable (_ = true))

variable {s c : Text}

/-- The orders of two texts that an operator asks for. -/
def orders : Comparison → List Ordering
  | .eq => [.eq]
  | .ne => [.lt, .gt]
  | .gt => [.gt]
  | .ge => [.gt, .eq]
  | .lt => [.lt]
  | .le => [.lt, .eq]
  | .co | .sw | .ew => []

theorem between_iff {op : Comparison} (hop : op ∉ [co, sw, ew]) :
    op.between s c ↔ Text.order s c ∈ op.orders := by
  cases op <;> try exact absurd (by decide) hop
  all_goals
    simp only [between, holds, holdsFor, List.any_cons, List.any_nil, Literal.equals?, Literal.order?,
      Text.equal_eq_order, Option.any_some, accepts, orders]
    cases Text.order s c <;> decide

/-- Of the operators that ask for one order, the one that asks for `o`. -/
def ofOrder : Ordering → Comparison
  | .lt => lt
  | .eq => eq
  | .gt => gt

theorem between_iff_ofOrder {op : Comparison} (hop : op ∈ [eq, lt, gt]) :
    op.between s c ↔ op = ofOrder (Text.order s c) := by
  simp only [List.mem_cons, List.not_mem_nil, or_false] at hop
  rcases hop with rfl | rfl | rfl <;> rw [between_iff (by decide)] <;>
    cases Text.order s c <;> decide

/-- Of `eq`, `lt` and `gt` exactly one holds between two texts, the other operators are made up of
these three, and `eq` is an equivalence. -/
theorem between_coherent :
    (∀ s c, ∃! op, op ∈ [eq, lt, gt] ∧ op.between s c) ∧
    (∀ s c, ge.between s c ↔ gt.between s c ∨ eq.between s c) ∧
    (∀ s c, le.between s c ↔ lt.between s c ∨ eq.between s c) ∧
    (∀ s c, ne.between s c ↔ ¬ eq.between s c) ∧
    Equivalence eq.between := by
  refine ⟨fun s c => ?_, fun s c => ?_, fun s c => ?_, fun s c => ?_, ?_⟩
  · have hmem : ofOrder (Text.order s c) ∈ [eq, lt, gt] := by cases Text.order s c <;> decide
    exact ⟨_, ⟨hmem, (between_iff_ofOrder hmem).mpr rfl⟩,
      fun op h => (between_iff_ofOrder h.1).mp h.2⟩
  · rw [between_iff (by decide), between_iff (by decide), between_iff (by decide)]
    cases Text.order s c <;> decide
  · rw [between_iff (by decide), between_iff (by decide), between_iff (by decide)]
    cases Text.order s c <;> decide
  · rw [between_iff (by decide), between_iff (by decide)]
    cases Text.order s c <;> decide
  · have heq : eq.between = fun s c => Text.equal s c = true := by
      funext s c
      rw [between_iff (by decide), orders, List.mem_singleton, Text.order_eq_iff]
    exact heq ▸ Text.equal_equivalence

end Comparison

end Scim

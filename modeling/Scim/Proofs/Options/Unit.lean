import Mathlib.Tactic.Common
import Scim.Options
import Scim.Proofs.Text.LowerCase

/-!
# Units of names and words

By default the units of words are apart from white space (`not_isBlank_of_isWordUnit`) and from the
marks of filters (`isWordUnit_mark`), and the units of names from the marks of paths as well. Digits
and the minus belong to names.
-/

namespace Scim

open CodeUnit

namespace CodeUnit

/-- A range that holds no white space. -/
def BlankFree (r : Nat × Nat) : Prop :=
  0xA0 < r.1 ∧ (r.2 < 0x1680 ∨ 0x1680 < r.1) ∧ (r.2 < 0x2000 ∨ 0x200A < r.1) ∧
    (r.2 < 0x2028 ∨ 0x202F < r.1) ∧ (r.2 < 0x205F ∨ 0x205F < r.1) ∧
    (r.2 < 0x3000 ∨ 0x3000 < r.1) ∧ (r.2 < 0xFEFF ∨ 0xFEFF < r.1)

instance (r : Nat × Nat) : Decidable (BlankFree r) := by unfold BlankFree; infer_instance

theorem letterRanges_blankFree : ∀ r ∈ letterRanges, BlankFree r := by decide +kernel

/-- No range holds the first half of a surrogate pair. -/
theorem letterRanges_not_high : ∀ r ∈ letterRanges, r.2 < 0xD800 ∨ 0xDBFF < r.1 := by
  decide +kernel

theorem isBlank_iff {c : CodeUnit} : c.isBlank ↔
    (0x09 ≤ c.toNat ∧ c.toNat ≤ 0x0D) ∨ c.toNat = 0x20 ∨ c.toNat = 0xA0 ∨ c.toNat = 0x1680 ∨
      (0x2000 ≤ c.toNat ∧ c.toNat ≤ 0x200A) ∨ c.toNat = 0x2028 ∨ c.toNat = 0x2029 ∨
      c.toNat = 0x202F ∨ c.toNat = 0x205F ∨ c.toNat = 0x3000 ∨ c.toNat = 0xFEFF := by
  simp only [isBlank, Bool.or_eq_true, Bool.and_eq_true, decide_eq_true_eq, beq_iff_eq,
    UInt16.le_iff_toNat_le, ← UInt16.toNat_inj, or_assoc]
  rfl

theorem isLetterOrNumber_of_ascii {c : CodeUnit} (h : c < 0x80) :
    c.isLetterOrNumber = c.isAsciiAlphanumeric := if_pos h

theorem isLetterOrNumber_of_isDigit {c : CodeUnit} (h : c.isDigit) : c.isLetterOrNumber := by
  have hlt : c < 0x80 := by
    simp only [isDigit, Bool.and_eq_true, decide_eq_true_eq] at h
    exact UInt16.lt_of_le_of_lt h.2 (by decide)
  rw [isLetterOrNumber_of_ascii hlt, isAsciiAlphanumeric, h]; rfl

theorem not_isBlank_of_isLetterOrNumber {c : CodeUnit} (h : c.isLetterOrNumber) : ¬ c.isBlank := by
  rw [isBlank_iff]
  by_cases hlt : c < 0x80
  · rw [isLetterOrNumber_of_ascii hlt] at h
    simp only [isAsciiAlphanumeric, isDigit, Bool.or_eq_true, Bool.and_eq_true, decide_eq_true_eq,
      UInt16.le_iff_toNat_le] at h
    have hlt' : c.toNat < 0x80 := hlt
    have h0 : (0x30 : CodeUnit).toNat = 0x30 := rfl
    have h1 : (0x41 : CodeUnit).toNat = 0x41 := rfl
    have h2 : (0x61 : CodeUnit).toNat = 0x61 := rfl
    omega
  · rw [isLetterOrNumber, if_neg hlt, inRanges, List.any_eq_true] at h
    obtain ⟨r, hr, hin⟩ := h
    simp only [Bool.and_eq_true, decide_eq_true_eq] at hin
    have hfree := letterRanges_blankFree r hr
    unfold BlankFree at hfree
    omega

theorem not_isHigh_of_isLetterOrNumber {c : CodeUnit} (h : c.isLetterOrNumber) :
    c.isHigh = false := by
  by_cases hlt : c < 0x80
  · exact not_isHigh_of_ascii hlt
  · rw [isLetterOrNumber, if_neg hlt, inRanges, List.any_eq_true] at h
    obtain ⟨r, hr, hin⟩ := h
    simp only [Bool.and_eq_true, decide_eq_true_eq] at hin
    have hrange := letterRanges_not_high r hr
    refine Bool.eq_false_iff.mpr fun hhigh => ?_
    simp only [isHigh, Bool.and_eq_true, decide_eq_true_eq, UInt16.le_iff_toNat_le,
      UInt16.lt_iff_toNat_lt] at hhigh
    have h0 : (0xD800 : CodeUnit).toNat = 0xD800 := rfl
    have h1 : (0xDC00 : CodeUnit).toNat = 0xDC00 := rfl
    omega

end CodeUnit

namespace ParserOptions

variable {o : ParserOptions} {c : CodeUnit}

theorem isWordUnit_of_isNameUnit (h : o.isNameUnit c) : o.isWordUnit c := by
  rw [isWordUnit, h]; rfl

theorem isWordUnit_of_default (h : default.isWordUnit c) : o.isWordUnit c := by
  simp only [isWordUnit, isNameUnit, default, List.contains_nil, Bool.or_false] at h ⊢
  simp only [Bool.or_eq_true] at h ⊢
  tauto

theorem isNameUnit_iff : o.isNameUnit c ↔ default.isNameUnit c ∨ c ∈ o.extended := by
  simp only [isNameUnit, default, List.contains_nil, Bool.or_false, Bool.or_eq_true,
    List.contains_iff_mem]

theorem isWordUnit_iff : o.isWordUnit c ↔ default.isWordUnit c ∨ c ∈ o.extended := by
  have hname := isNameUnit_iff (o := o) (c := c)
  simp only [isWordUnit, Bool.or_eq_true] at hname ⊢
  tauto

theorem isNameUnit_of_isDigit (h : c.isDigit) : o.isNameUnit c := by
  rw [isNameUnit, isLetterOrNumber_of_isDigit h]; rfl

theorem isWordUnit_mark : ∀ c ∈ [quote, openParen, closeParen, openBracket, closeBracket, comma,
    backslash, plus, (0x20 : CodeUnit)], default.isWordUnit c = false := by
  have hall : [quote, openParen, closeParen, openBracket, closeBracket, comma, backslash, plus,
      (0x20 : CodeUnit)].all fun c => !default.isWordUnit c := by decide +kernel
  simpa only [List.all_eq_true, Bool.not_eq_true'] using hall

theorem not_isHigh_of_isNameUnit (h : default.isNameUnit c) : c.isHigh = false := by
  simp only [isNameUnit, default, Bool.or_eq_true, beq_iff_eq, List.contains_nil,
    Bool.false_eq_true, or_false] at h
  rcases h with ((h | rfl) | rfl) | rfl
  · exact not_isHigh_of_isLetterOrNumber h
  all_goals decide

theorem isNamePoint_toNat (c : CodeUnit) : o.isNamePoint c.toNat = o.isNameUnit c := by
  rw [isNamePoint, if_pos c.toNat_lt, UInt16.ofNat_toNat]

theorem isNameUnit_dot : default.isNameUnit dot = false := by decide

theorem isNameUnit_colon : default.isNameUnit colon = false := by decide

theorem not_isBlank_of_isWordUnit (h : default.isWordUnit c) : ¬ c.isBlank := by
  simp only [isWordUnit, isNameUnit, default, Bool.or_eq_true, beq_iff_eq, List.contains_nil,
    Bool.false_eq_true, or_false] at h
  rcases h with ((((h | rfl) | rfl) | rfl) | rfl) | rfl
  · exact not_isBlank_of_isLetterOrNumber h
  all_goals decide

/-- No white space belongs to words unless the options say so. -/
theorem isWordUnit_of_isBlank (ho : ∀ c ∈ o.extended, ¬ c.isBlank) (hc : c.isBlank) :
    o.isWordUnit c = false := by
  refine Bool.eq_false_iff.mpr fun h => ?_
  rcases isWordUnit_iff.mp h with h | h
  · exact not_isBlank_of_isWordUnit h hc
  · exact ho c h hc

theorem ne_of_isWordUnit (h : default.isWordUnit c) {d : CodeUnit}
    (hd : default.isWordUnit d = false) : c ≠ d := by
  rintro rfl
  rw [h] at hd
  cases hd

end ParserOptions

end Scim

import Mathlib.Data.List.Induction
import Mathlib.Tactic.Ring
import Scim.Number.Numeral

/-!
# Decimal digits

`decimalDigits` and `decimalValue` are inverse to each other on natural numbers. A positive number
lies between two powers of ten that its count of digits gives (`pow_length_le`, `lt_pow_length`).
Digit texts of one length and one value are one text (`eq_of_decimalValue`).
-/

namespace Scim

open CodeUnit

/-! ### Values -/

theorem decimalValue_concat (ds : Text) (d : CodeUnit) :
    decimalValue (ds ++ [d]) = decimalValue ds * 10 + d.digitValue := by
  simp [decimalValue]

theorem decimalValue_append (ds es : Text) :
    decimalValue (ds ++ es) = decimalValue ds * 10 ^ es.length + decimalValue es := by
  induction es using List.reverseRecOn with
  | nil => simp [decimalValue]
  | append_singleton es d ih =>
    rw [← List.append_assoc, decimalValue_concat, decimalValue_concat, ih, List.length_append,
      List.length_singleton]
    ring

theorem decimalValue_zeros (k : Nat) : decimalValue (List.replicate k zero) = 0 := by
  induction k with
  | zero => rfl
  | succ k ih =>
    rw [List.replicate_succ', decimalValue_concat, ih]; rfl

theorem decimalValue_append_zeros (ds : Text) (k : Nat) :
    decimalValue (ds ++ List.replicate k zero) = decimalValue ds * 10 ^ k := by
  rw [decimalValue_append, decimalValue_zeros, List.length_replicate, Nat.add_zero]

theorem decimalValue_zeros_append (k : Nat) (ds : Text) :
    decimalValue (List.replicate k zero ++ ds) = decimalValue ds := by
  rw [decimalValue_append, decimalValue_zeros, Nat.zero_mul, Nat.zero_add]

/-! ### Digits -/

theorem digit_spec : ∀ d < 10, isDigit (UInt16.ofNat (0x30 + d)) ∧
    digitValue (UInt16.ofNat (0x30 + d)) = d ∧ (UInt16.ofNat (0x30 + d) = zero → d = 0) := by
  decide

theorem decimalDigits_of_lt {n : Nat} (h : n < 10) : decimalDigits n = [UInt16.ofNat (0x30 + n)] := by
  rw [decimalDigits, if_pos h]

theorem decimalDigits_of_ge {n : Nat} (h : 10 ≤ n) :
    decimalDigits n = decimalDigits (n / 10) ++ [UInt16.ofNat (0x30 + n % 10)] := by
  rw [decimalDigits, if_neg (by omega)]

theorem decimalValue_decimalDigits (n : Nat) : decimalValue (decimalDigits n) = n := by
  induction n using Nat.strong_induction_on with
  | _ n ih =>
    by_cases h : n < 10
    · have hd := (digit_spec n h).2.1
      rw [decimalDigits_of_lt h]
      simpa [decimalValue] using hd
    · rw [decimalDigits_of_ge (by omega), decimalValue_concat, ih (n / 10) (by omega),
        (digit_spec (n % 10) (by omega)).2.1]
      omega

theorem isDigit_of_mem_decimalDigits {n : Nat} : ∀ c ∈ decimalDigits n, c.isDigit := by
  induction n using Nat.strong_induction_on with
  | _ n ih =>
    intro c hc
    by_cases h : n < 10
    · rw [decimalDigits_of_lt h, List.mem_singleton] at hc
      rw [hc]; exact (digit_spec n h).1
    · rw [decimalDigits_of_ge (by omega)] at hc
      rcases List.mem_append.mp hc with hc | hc
      · exact ih (n / 10) (by omega) c hc
      · rw [List.mem_singleton.mp hc]; exact (digit_spec (n % 10) (by omega)).1

theorem length_decimalDigits_pos (n : Nat) : 0 < (decimalDigits n).length := by
  by_cases h : n < 10
  · rw [decimalDigits_of_lt h]; exact Nat.one_pos
  · rw [decimalDigits_of_ge (by omega)]; simp

theorem digitValue_lt {d : CodeUnit} (h : d.isDigit) : d.digitValue < 10 := by
  simp only [isDigit, Bool.and_eq_true, decide_eq_true_eq, UInt16.le_iff_toNat_le] at h
  have h9 : (0x39 : CodeUnit).toNat = 0x39 := rfl
  rw [digitValue]
  omega

theorem eq_of_digitValue {d e : CodeUnit} (hd : d.isDigit) (he : e.isDigit)
    (h : d.digitValue = e.digitValue) : d = e := by
  simp only [isDigit, Bool.and_eq_true, decide_eq_true_eq, UInt16.le_iff_toNat_le] at hd he
  have h0 : (0x30 : CodeUnit).toNat = 0x30 := rfl
  rw [digitValue, digitValue] at h
  rw [← UInt16.toNat_inj]
  omega

theorem digitValue_lt_iff {d e : CodeUnit} (hd : d.isDigit) (he : e.isDigit) :
    d.digitValue < e.digitValue ↔ d < e := by
  simp only [isDigit, Bool.and_eq_true, decide_eq_true_eq, UInt16.le_iff_toNat_le] at hd he
  have h0 : (0x30 : CodeUnit).toNat = 0x30 := rfl
  rw [UInt16.lt_iff_toNat_lt, digitValue, digitValue]
  omega

theorem decimalValue_lt {ds : Text} (h : ∀ c ∈ ds, c.isDigit) : decimalValue ds < 10 ^ ds.length := by
  induction ds using List.reverseRecOn with
  | nil => exact Nat.one_pos
  | append_singleton ds d ih =>
    obtain ⟨hds, hd⟩ := List.forall_mem_append.mp h
    have hvalue := ih hds
    have hdigit := digitValue_lt (hd d (List.mem_singleton_self d))
    rw [decimalValue_concat, List.length_append, List.length_singleton, Nat.pow_succ]
    omega

/-- Texts of equally many digits are told apart by their values. -/
theorem eq_of_decimalValue {ds es : Text} (hds : ∀ c ∈ ds, c.isDigit) (hes : ∀ c ∈ es, c.isDigit)
    (hlen : ds.length = es.length) (h : decimalValue ds = decimalValue es) : ds = es := by
  induction ds using List.reverseRecOn generalizing es with
  | nil => exact (List.length_eq_zero_iff.mp hlen.symm).symm
  | append_singleton ds d ih =>
    cases es using List.reverseRecOn with
    | nil => simp at hlen
    | append_singleton es e =>
      obtain ⟨hds, hd⟩ := List.forall_mem_append.mp hds
      obtain ⟨hes, he⟩ := List.forall_mem_append.mp hes
      have hd := hd d (List.mem_singleton_self d)
      have he := he e (List.mem_singleton_self e)
      have hdlt := digitValue_lt hd
      have helt := digitValue_lt he
      rw [decimalValue_concat, decimalValue_concat] at h
      rw [ih hds hes (by simpa using hlen) (by omega), eq_of_digitValue hd he (by omega)]

theorem head?_decimalDigits {n : Nat} (hn : 0 < n) : (decimalDigits n).head? ≠ some zero := by
  induction n using Nat.strong_induction_on with
  | _ n ih =>
    by_cases h : n < 10
    · rw [decimalDigits_of_lt h]
      intro hz
      have := (digit_spec n h).2.2 (Option.some.inj hz)
      omega
    · have hne : decimalDigits (n / 10) ≠ [] := List.length_pos_iff.mp (length_decimalDigits_pos _)
      rw [decimalDigits_of_ge (by omega), List.head?_append, List.head?_eq_some_head hne, Option.some_or,
        ← List.head?_eq_some_head hne]
      exact ih (n / 10) (by omega) (by omega)

theorem lt_pow_length (n : Nat) : n < 10 ^ (decimalDigits n).length := by
  induction n using Nat.strong_induction_on with
  | _ n ih =>
    by_cases h : n < 10
    · rw [decimalDigits_of_lt h]; simpa using h
    · have := ih (n / 10) (by omega)
      rw [decimalDigits_of_ge (by omega), List.length_append, List.length_singleton, Nat.pow_succ]
      omega

theorem pow_length_le {n : Nat} (hn : 0 < n) : 10 ^ ((decimalDigits n).length - 1) ≤ n := by
  induction n using Nat.strong_induction_on with
  | _ n ih =>
    by_cases h : n < 10
    · rw [decimalDigits_of_lt h]; exact hn
    · have := ih (n / 10) (by omega) (by omega)
      obtain ⟨k, hk⟩ := Nat.exists_eq_add_of_lt (length_decimalDigits_pos (n / 10))
      rw [decimalDigits_of_ge (by omega), List.length_append, List.length_singleton,
        Nat.add_sub_cancel, hk, Nat.zero_add, Nat.pow_succ]
      rw [hk] at this
      simp only [Nat.zero_add, Nat.add_sub_cancel] at this
      omega

theorem length_decimalDigits_le {n w : Nat} (hw : 0 < w) (h : n < 10 ^ w) :
    (decimalDigits n).length ≤ w := by
  rcases Nat.eq_zero_or_pos n with rfl | hn
  · rw [decimalDigits_of_lt (by omega)]
    exact hw
  · have := (Nat.pow_lt_pow_iff_right (by decide : 1 < 10)).mp ((pow_length_le hn).trans_lt h)
    omega

end Scim

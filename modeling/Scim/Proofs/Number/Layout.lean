import Mathlib.Algebra.Order.Field.Basic
import Mathlib.Data.Rat.Cast.Order
import Mathlib.Tactic.FieldSimp
import Mathlib.Tactic.Linarith
import Scim.Number.Shortest
import Scim.Proofs.Number.Digits
import Scim.Proofs.Number.Numeral

/-!
# Numerals of decimals

`Numeral.ofDecimal` writes `m * 10 ^ e` as a well-formed numeral of exactly that magnitude
(`wellFormed_ofDecimal`, `magnitude_ofDecimal`), without a fraction and an exponent if it is an
integer below 1e21 (`isInteger_ofDecimal_iff`).
-/

namespace Scim.Numeral

open CodeUnit

/-- The power of ten that the last written digit counts. -/
def scale (n : Numeral) : Int := (n.exponent.map Exponent.value).getD 0 - n.fraction.length

/-- What the numeral stands for, apart from its sign. -/
def magnitude (n : Numeral) : Rat := decimalValue (n.whole ++ n.fraction) * 10 ^ n.scale

variable {negative : Bool} {ds : Text} {point : Int}

/-! ### The place of the point -/

theorem exists_exponent (point : Int) : ∃ e : Exponent,
    (⟨0x65, some (if point ≤ 0 then minus else plus), decimalDigits (point - 1).natAbs⟩ : Exponent) = e ∧
      e.WellFormed ∧ e.value = point - 1 := by
  refine ⟨_, rfl, ⟨.inl rfl, ?_, List.length_pos_iff.mp (length_decimalDigits_pos _),
    isDigit_of_mem_decimalDigits⟩, ?_⟩
  · rintro s ⟨⟩
    split_ifs
    · exact .inr rfl
    · exact .inl rfl
  · rw [Exponent.value, decimalValue_decimalDigits]
    split_ifs with h1 h2 h2
    · omega
    · exact absurd rfl h2
    · exact absurd (Option.some.inj h2) (by decide)
    · omega

/-- Digits alone, digits around a point, digits behind zeros, or digits with an exponent. -/
theorem layout_cases (negative : Bool) (ds : Text) (point : Int) :
    (ds.length ≤ point ∧ point ≤ 21 ∧ layout negative ds point =
      ⟨negative, ds ++ List.replicate (point - ds.length).toNat zero, [], none⟩) ∨
    (point < ds.length ∧ 0 < point ∧
      layout negative ds point = ⟨negative, ds.take point.toNat, ds.drop point.toNat, none⟩) ∨
    (point < ds.length ∧ point ≤ 0 ∧ layout negative ds point =
      ⟨negative, [zero], List.replicate (-point).toNat zero ++ ds, none⟩) ∨
    (¬ (ds.length ≤ point ∧ point ≤ 21) ∧ ∃ e : Exponent, e.WellFormed ∧ e.value = point - 1 ∧
      layout negative ds point = ⟨negative, ds.take 1, ds.drop 1, some e⟩) := by
  obtain ⟨e, he, hwf, hvalue⟩ := exists_exponent point
  simp only [layout, he, Bool.and_eq_true, decide_eq_true_eq]
  split_ifs with h1 h2 h3
  · exact .inl ⟨h1.1, h1.2, rfl⟩
  · exact .inr (.inl ⟨by omega, h2.1, rfl⟩)
  · exact .inr (.inr (.inl ⟨by omega, h3.2, rfl⟩))
  · exact .inr (.inr (.inr ⟨h1, e, hwf, hvalue, rfl⟩))

theorem negative_layout : (layout negative ds point).negative = negative := by
  unfold layout; split_ifs <;> rfl

theorem wellFormed_layout (hne : ds ≠ []) (hds : ∀ c ∈ ds, c.isDigit) (hz : ds.head? ≠ some zero) :
    (layout negative ds point).WellFormed := by
  have hzeros : ∀ k, ∀ c ∈ List.replicate k zero, c.isDigit := by
    intro k c hc
    rw [List.eq_of_mem_replicate hc]; decide
  obtain ⟨d, rest, rfl⟩ := List.exists_cons_of_ne_nil hne
  have hd : d ≠ zero := fun h => hz (h ▸ rfl)
  rcases layout_cases negative (d :: rest) point with
    ⟨-, -, h⟩ | ⟨-, hpoint, h⟩ | ⟨-, -, h⟩ | ⟨-, e, he, -, h⟩ <;> rw [h]
  · refine ⟨by simp, fun c hc => ?_, fun h => absurd (Option.some.inj h) hd, by simp, by simp⟩
    exact (List.mem_append.mp hc).elim (hds c) (hzeros _ c)
  · obtain ⟨k, hk⟩ : ∃ k, point.toNat = k + 1 := ⟨point.toNat - 1, by omega⟩
    refine ⟨by simp [hk], fun c hc => hds c (List.mem_of_mem_take hc), fun h => ?_,
      fun c hc => hds c (List.mem_of_mem_drop hc), by simp⟩
    rw [hk] at h
    exact absurd (Option.some.inj h) hd
  · refine ⟨by simp, fun c hc => ?_, fun _ => rfl, fun c hc => ?_, by simp⟩
    · rw [List.mem_singleton.mp hc]; decide
    · exact (List.mem_append.mp hc).elim (hzeros _ c) (hds c)
  · refine ⟨by simp, fun c hc => hds c (List.mem_of_mem_take hc),
      fun h => absurd (Option.some.inj h) hd, fun c hc => hds c (List.mem_of_mem_drop hc), ?_⟩
    rintro _ ⟨⟩
    exact he

theorem magnitude_layout (hne : ds ≠ []) :
    (layout negative ds point).magnitude = decimalValue ds * 10 ^ (point - ds.length) := by
  rcases layout_cases negative ds point with
    ⟨hlen, -, h⟩ | ⟨hlen, hpoint, h⟩ | ⟨-, hpoint, h⟩ | ⟨-, e, -, he, h⟩ <;>
    rw [h, magnitude, scale]
  · have hexp : point - ds.length = ((point - ds.length).toNat : Int) := by omega
    rw [hexp, zpow_natCast]
    simp [decimalValue_append_zeros]
  · simp only [List.take_append_drop, Option.map_none, Option.getD_none, List.length_drop]
    congr 2
    omega
  · have hzero : decimalValue ([zero] ++ (List.replicate (-point).toNat zero ++ ds)) =
        decimalValue ds := by
      rw [← List.append_assoc]
      exact decimalValue_zeros_append ((-point).toNat + 1) ds
    simp only [hzero, Option.map_none, Option.getD_none, List.length_append, List.length_replicate]
    congr 2
    omega
  · have hlen : 0 < ds.length := List.length_pos_iff.mpr hne
    simp only [List.take_append_drop, Option.map_some, Option.getD_some, he, List.length_drop]
    congr 2
    omega

theorem isInteger_layout_iff (hne : ds ≠ []) :
    (layout negative ds point).isInteger ↔ ds.length ≤ point ∧ point ≤ 21 := by
  rcases layout_cases negative ds point with
    ⟨hlen, hpoint, h⟩ | ⟨hlen, hpoint, h⟩ | ⟨hlen, hpoint, h⟩ | ⟨hnot, e, -, -, h⟩ <;>
    rw [h, isInteger]
  · simp [hlen, hpoint]
  · refine iff_of_false ?_ (by omega)
    simp only [Option.isNone_none, Bool.and_true, List.isEmpty_iff, List.drop_eq_nil_iff]
    omega
  · exact iff_of_false (by simp [hne]) (by omega)
  · exact iff_of_false (by simp) hnot

/-! ### Decimals -/

theorem digitValue_mod {d : CodeUnit} (hd : d.isDigit) (hz : d ≠ zero) : d.digitValue % 10 ≠ 0 := by
  simp only [isDigit, Bool.and_eq_true, decide_eq_true_eq, UInt16.le_iff_toNat_le] at hd
  rw [ne_eq, ← UInt16.toNat_inj] at hz
  have hzero : zero.toNat = 0x30 := rfl
  have h0 : (0x30 : CodeUnit).toNat = 0x30 := rfl
  have h9 : (0x39 : CodeUnit).toNat = 0x39 := rfl
  rw [digitValue]
  omega

theorem exists_zeros (ds : Text) : ∃ k,
    ds = (ds.reverse.dropWhile (· == zero)).reverse ++ List.replicate k zero := by
  refine ⟨(ds.reverse.takeWhile (· == zero)).length, ?_⟩
  have hzeros : ds.reverse.takeWhile (· == zero) =
      List.replicate (ds.reverse.takeWhile (· == zero)).length zero :=
    List.eq_replicate_iff.mpr ⟨rfl, fun c hc =>
      beq_iff_eq.mp (List.all_eq_true.mp (List.all_takeWhile ..) c hc)⟩
  have h := congrArg List.reverse (List.takeWhile_append_dropWhile (p := (· == zero)) (l := ds.reverse))
  rw [List.reverse_append, List.reverse_reverse, hzeros, List.reverse_replicate] at h
  exact h.symm

theorem getLast?_without_zeros (ds : Text) :
    (ds.reverse.dropWhile (· == zero)).reverse.getLast? ≠ some zero := by
  intro h
  have hnot := List.head?_dropWhile_not (· == zero) ds.reverse
  rw [List.getLast?_reverse] at h
  rw [h] at hnot
  cases hnot

/-- The digits of a positive number are its significant digits and zeros. -/
theorem exists_digits {m : Nat} (hm : 0 < m) : ∃ ds k,
    decimalDigits m = ds ++ List.replicate k zero ∧ ds ≠ [] ∧ (∀ c ∈ ds, c.isDigit) ∧
      ds.head? ≠ some zero ∧ decimalValue ds % 10 ≠ 0 ∧
      ∀ negative e, ofDecimal negative m e = layout negative ds (ds.length + k + e) := by
  obtain ⟨k, hk⟩ := exists_zeros (decimalDigits m)
  generalize hds : ((decimalDigits m).reverse.dropWhile (· == zero)).reverse = ds at hk
  have hne : ds ≠ [] := by
    rintro rfl
    have := decimalValue_decimalDigits m
    rw [hk, List.nil_append, decimalValue_zeros] at this
    omega
  have hdigits : ∀ c ∈ ds, c.isDigit := fun c hc =>
    isDigit_of_mem_decimalDigits c (by rw [hk]; exact List.mem_append_left _ hc)
  refine ⟨ds, k, hk, hne, hdigits, ?_, ?_, fun negative e => ?_⟩
  · obtain ⟨d, rest, rfl⟩ := List.exists_cons_of_ne_nil hne
    have hhead := head?_decimalDigits hm
    rw [hk] at hhead
    exact hhead
  · have hlast : ds.getLast? ≠ some zero := hds ▸ getLast?_without_zeros (decimalDigits m)
    obtain ⟨rest, d, rfl⟩ := (List.eq_nil_or_concat ds).resolve_left hne
    have hd := digitValue_mod (hdigits d (by simp)) (fun hz => hlast (by simp [hz]))
    rw [List.concat_eq_append, decimalValue_concat]
    omega
  · have hlen := congrArg List.length hk
    rw [List.length_append, List.length_replicate] at hlen
    rw [ofDecimal, hds, hlen]
    push_cast
    rfl

section

variable {m : Nat} {e : Int}

theorem negative_ofDecimal (m : Nat) (e : Int) : (ofDecimal negative m e).negative = negative :=
  negative_layout

theorem wellFormed_ofDecimal (hm : 0 < m) : (ofDecimal negative m e).WellFormed := by
  obtain ⟨ds, k, -, hne, hds, hz, -, h⟩ := exists_digits hm
  rw [h]
  exact wellFormed_layout hne hds hz

theorem magnitude_ofDecimal (hm : 0 < m) : (ofDecimal negative m e).magnitude = m * 10 ^ e := by
  obtain ⟨ds, k, hk, hne, -, -, -, h⟩ := exists_digits hm
  have hvalue := decimalValue_decimalDigits m
  rw [hk, decimalValue_append_zeros] at hvalue
  have hexp : ((ds.length : Int) + k + e) - ds.length = k + e := by omega
  rw [h, magnitude_layout hne, hexp, zpow_add₀ (by norm_num), ← mul_assoc, ← hvalue]
  push_cast
  rw [zpow_natCast]

theorem magnitude_bounds (hm : 0 < m) (e : Int) :
    (10 : Rat) ^ ((decimalDigits m).length + e - 1) ≤ m * 10 ^ e ∧
      m * 10 ^ e < (10 : Rat) ^ ((decimalDigits m).length + e) := by
  have hpow : (0 : Rat) < 10 ^ e := zpow_pos (by norm_num) e
  have hlow : ((10 : Nat) ^ ((decimalDigits m).length - 1) : Nat) ≤ (m : Rat) := by
    exact_mod_cast pow_length_le hm
  have hhigh : (m : Rat) < ((10 : Nat) ^ (decimalDigits m).length : Nat) := by
    exact_mod_cast lt_pow_length m
  have hlen := length_decimalDigits_pos m
  have hexp : ((decimalDigits m).length + e - 1 : Int) =
    (((decimalDigits m).length - 1 : Nat) : Int) + e := by omega
  rw [hexp, zpow_add₀ (by norm_num), zpow_add₀ (by norm_num), zpow_natCast, zpow_natCast]
  push_cast at hlow hhigh
  exact ⟨mul_le_mul_of_nonneg_right hlow hpow.le, mul_lt_mul_of_pos_right hhigh hpow⟩

theorem isInteger_ofDecimal_iff (hm : 0 < m) : (ofDecimal negative m e).isInteger ↔
    (∃ z : Int, (m * 10 ^ e : Rat) = z) ∧ (m * 10 ^ e : Rat) < 10 ^ 21 := by
  obtain ⟨ds, k, hk, hne, -, -, hlast, h⟩ := exists_digits hm
  have hvalue := decimalValue_decimalDigits m
  rw [hk, decimalValue_append_zeros] at hvalue
  have hlen := congrArg List.length hk
  rw [List.length_append, List.length_replicate] at hlen
  obtain ⟨hlow, hhigh⟩ := magnitude_bounds hm e
  have hsplit : (m * 10 ^ e : Rat) = decimalValue ds * 10 ^ (k + e) := by
    rw [zpow_add₀ (by norm_num), ← mul_assoc, ← hvalue]
    push_cast
    rw [zpow_natCast]
  have hinteger : (∃ z : Int, (m * 10 ^ e : Rat) = z) ↔ 0 ≤ k + e := by
    rw [hsplit]
    constructor
    · rintro ⟨z, hz⟩
      by_contra hneg
      obtain ⟨j, hj⟩ : ∃ j : Nat, k + e = -(j + 1 : Nat) := ⟨(-(k + e) - 1).toNat, by omega⟩
      rw [hj, zpow_neg, zpow_natCast, mul_inv_eq_iff_eq_mul₀ (by positivity)] at hz
      have hz : (decimalValue ds : Int) = z * 10 ^ (j + 1) := by exact_mod_cast hz
      have hten : (decimalValue ds : Int) = 10 * (z * 10 ^ j) := by rw [hz]; ring
      omega
    · intro hpos
      obtain ⟨j, hj⟩ := Int.eq_ofNat_of_zero_le hpos
      exact ⟨decimalValue ds * 10 ^ j, by rw [hj, zpow_natCast]; push_cast; rfl⟩
  have hsmall : (m * 10 ^ e : Rat) < 10 ^ 21 ↔ ds.length + k + e ≤ 21 := by
    rw [hlen] at hlow hhigh
    push_cast at hlow hhigh
    rw [← zpow_natCast (10 : Rat) 21]
    constructor
    · intro hlt
      have := (zpow_lt_zpow_iff_right₀ (by norm_num : (1 : Rat) < 10)).mp (lt_of_le_of_lt hlow hlt)
      omega
    · intro hle
      exact lt_of_lt_of_le hhigh (zpow_le_zpow_right₀ (by norm_num) (by omega))
  rw [h, isInteger_layout_iff hne, hinteger, hsmall]
  omega

end

end Scim.Numeral

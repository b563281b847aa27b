import Mathlib.Algebra.Order.Field.Basic
import Mathlib.Data.Rat.Cast.Order
import Mathlib.Data.Rat.Floor
import Mathlib.Tactic.FieldSimp
import Mathlib.Tactic.Linarith
import Scim.Number

/-!
# Rounding to numbers

`nearest?` rounds to a multiple of the unit of its argument (`value_of_nearest?`). So it gives a
number back as it is (`nearest?_self`), never goes below a number in magnitude
(`le_abs_of_nearest?`), and makes integers of integers (`integer_of_nearest?`).
-/

namespace Scim.Number

variable {q : Rat} {n : Int}

/-! ### Integers -/

theorem roundHalfEven_le (h : q ≤ n) : roundHalfEven q ≤ n := by
  have hfloor : (q.floor : Rat) ≤ q := Int.floor_le q
  have hle : q.floor ≤ n := by exact_mod_cast hfloor.trans h
  unfold roundHalfEven
  by_cases heq : q.floor = n
  · have hq : q = q.floor := le_antisymm (by rw [heq]; exact h) hfloor
    rw [if_pos (by linarith)]
    exact hle
  · simp only
    split_ifs <;> omega

theorem le_roundHalfEven (h : n ≤ q) : n ≤ roundHalfEven q := by
  have hle : n ≤ q.floor := Int.le_floor.mpr h
  unfold roundHalfEven
  simp only
  split_ifs <;> omega

theorem roundHalfEven_intCast (n : Int) : roundHalfEven n = n :=
  le_antisymm (roundHalfEven_le le_rfl) (le_roundHalfEven le_rfl)

theorem abs_roundHalfEven_le (h : |q| ≤ n) : |roundHalfEven q| ≤ n := by
  obtain ⟨h1, h2⟩ := abs_le.mp h
  exact abs_le.mpr ⟨le_roundHalfEven (by push_cast; exact h1), roundHalfEven_le h2⟩

theorem le_abs_roundHalfEven (h : n ≤ |q|) : n ≤ |roundHalfEven q| := by
  rcases le_abs.mp h with h | h
  · exact le_abs.mpr (.inl (le_roundHalfEven h))
  · have : roundHalfEven q ≤ -n := roundHalfEven_le (by push_cast; linarith)
    exact le_abs.mpr (.inr (by omega))

/-! ### The unit of a number -/

theorem two_pow_pos (e : Int) : (0 : Rat) < 2 ^ e := zpow_pos (by norm_num) e

theorem binaryLog_spec (hq : 0 < q) : 2 ^ binaryLog q ≤ q ∧ q < 2 ^ (binaryLog q + 1) := by
  have hnum : q.num.natAbs ≠ 0 := Int.natAbs_ne_zero.mpr (Rat.num_pos.mpr hq).ne'
  have hden : (0 : Rat) < q.den := by exact_mod_cast q.den_pos
  have hq' : q = q.num.natAbs / q.den := by
    conv_lhs => rw [← Rat.num_div_den q]
    rw [Nat.cast_natAbs, abs_of_pos (Rat.num_pos.mpr hq)]
  have hn1 : (2 : Rat) ^ q.num.natAbs.log2 ≤ q.num.natAbs := by exact_mod_cast Nat.log2_self_le hnum
  have hn2 : (q.num.natAbs : Rat) < 2 ^ (q.num.natAbs.log2 + 1) := by exact_mod_cast Nat.lt_log2_self
  have hd1 : (2 : Rat) ^ q.den.log2 ≤ q.den := by exact_mod_cast Nat.log2_self_le q.den_ne_zero
  have hd2 : (q.den : Rat) < 2 ^ (q.den.log2 + 1) := by exact_mod_cast Nat.lt_log2_self
  generalize hk : (q.num.natAbs.log2 : Int) - (q.den.log2 : Int) = k
  have hlow : (2 : Rat) ^ (k - 1) ≤ q := by
    rw [hq', le_div_iff₀ hden]
    calc (2 : Rat) ^ (k - 1) * q.den ≤ 2 ^ (k - 1) * 2 ^ (q.den.log2 + 1) :=
          mul_le_mul_of_nonneg_left hd2.le (two_pow_pos _).le
      _ = 2 ^ q.num.natAbs.log2 := by
          rw [← zpow_natCast, ← zpow_natCast, ← zpow_add₀ (by norm_num)]
          congr 1
          push_cast
          omega
      _ ≤ _ := hn1
  have hhigh : q < (2 : Rat) ^ (k + 1) := by
    rw [hq', div_lt_iff₀ hden]
    calc (q.num.natAbs : Rat) < 2 ^ (q.num.natAbs.log2 + 1) := hn2
      _ = 2 ^ (k + 1) * 2 ^ q.den.log2 := by
          rw [← zpow_natCast, ← zpow_natCast, ← zpow_add₀ (by norm_num)]
          congr 1
          push_cast
          omega
      _ ≤ _ := mul_le_mul_of_nonneg_left hd1 (two_pow_pos _).le
  unfold binaryLog
  simp only [hk]
  split_ifs with h
  · exact ⟨hlow, by rwa [Int.sub_add_cancel]⟩
  · exact ⟨not_lt.mp h, hhigh⟩

theorem rat_abs_eq (q : Rat) : q.abs = |q| := by
  unfold Rat.abs
  split_ifs with h
  · exact (abs_of_nonneg h).symm
  · exact (abs_of_neg (not_le.mp h)).symm

theorem le_unitExponent (q : Rat) : -1074 ≤ unitExponent q := by
  unfold unitExponent
  split_ifs <;> omega

theorem abs_lt_unit (q : Rat) : |q| < 2 ^ (unitExponent q + 53) := by
  unfold unitExponent
  rw [rat_abs_eq]
  split_ifs with h
  · rw [h, abs_zero]; exact two_pow_pos _
  · refine lt_of_lt_of_le (binaryLog_spec (abs_pos.mpr h)).2 ?_
    exact zpow_le_zpow_right₀ (by norm_num) (by omega)

theorem unit_le_abs (h : -1074 < unitExponent q) : 2 ^ (unitExponent q + 52) ≤ |q| := by
  unfold unitExponent at h ⊢
  rw [rat_abs_eq] at h ⊢
  split_ifs at h ⊢ with hq
  · omega
  · refine le_trans ?_ (binaryLog_spec (abs_pos.mpr hq)).1
    exact zpow_le_zpow_right₀ (by norm_num) (by omega)

/-! ### The nearest number -/

theorem value_of_scaled? {m e : Int} {x : Number} (h : scaled? m e = some x) :
    x.value = m * 2 ^ e := by
  unfold scaled? at h
  split_ifs at h
  cases h
  rfl

theorem abs_div_unit (q : Rat) (e : Int) : |q / 2 ^ e| = |q| / 2 ^ e := by
  rw [abs_div, abs_of_pos (two_pow_pos e)]

theorem abs_rounded_le (q : Rat) : |roundHalfEven (q / 2 ^ unitExponent q)| ≤ 2 ^ 53 := by
  refine abs_roundHalfEven_le ?_
  rw [abs_div_unit, div_le_iff₀ (two_pow_pos _)]
  refine (abs_lt_unit q).le.trans (le_of_eq ?_)
  rw [zpow_add₀ (by norm_num), mul_comm]
  norm_num

theorem nearest?_of_round {m : Int} (hm : roundHalfEven (q / 2 ^ unitExponent q) = m) :
    nearest? q = if m.natAbs < 0x20000000000000 then scaled? m (unitExponent q)
      else scaled? (m / 2) (unitExponent q + 1) := by
  subst hm; rfl

theorem value_of_nearest? {x : Number} (h : nearest? q = some x) :
    x.value = roundHalfEven (q / 2 ^ unitExponent q) * 2 ^ unitExponent q := by
  have hle := abs_rounded_le q
  generalize hm : roundHalfEven (q / 2 ^ unitExponent q) = m at hle ⊢
  rw [nearest?_of_round hm] at h
  generalize unitExponent q = e at h ⊢
  split_ifs at h with hsmall
  · exact value_of_scaled? h
  -- The significand has been rounded up to 54 bits, the last of which is zero.
  · obtain ⟨k, rfl⟩ : ∃ k, m = 2 * k := by
      rw [abs_le] at hle
      exact ⟨m / 2, by omega⟩
    have hexp : (2 : Rat) ^ (e + 1) = 2 ^ e * 2 := by rw [zpow_add₀ (by norm_num), zpow_one]
    rw [value_of_scaled? h, Int.mul_ediv_cancel_left k (by norm_num), hexp]
    push_cast
    ring

/-- A number is a multiple of a unit or below the numbers that have this unit. -/
theorem multiple_or_lt (x : Number) (e : Int) :
    (e ≤ 971 ∧ ∃ m : Int, x.value = m * 2 ^ e) ∨ (-1074 < e ∧ |x.value| < 2 ^ (e + 52)) := by
  obtain ⟨v, n, f, hn, hf1, hf2, hv⟩ := x
  simp only at hv ⊢
  by_cases hle : e ≤ f
  · obtain ⟨k, hk⟩ := Int.eq_ofNat_of_zero_le (show 0 ≤ f - e by omega)
    refine .inl ⟨by omega, n * 2 ^ k, ?_⟩
    rw [hv, show f = k + e by omega, zpow_add₀ (by norm_num), zpow_natCast]
    push_cast
    ring
  · have hn' : |(n : Rat)| < 2 ^ 53 := by
      rw [← Int.cast_abs, Int.abs_eq_natAbs]
      exact_mod_cast hn
    refine .inr ⟨by omega, ?_⟩
    calc |v| = |(n : Rat)| * 2 ^ f := by rw [hv, abs_mul, abs_of_pos (two_pow_pos f)]
      _ < 2 ^ 53 * 2 ^ f := mul_lt_mul_of_pos_right hn' (two_pow_pos f)
      _ = 2 ^ (53 + f) := by rw [zpow_add₀ (by norm_num)]; norm_num
      _ ≤ _ := zpow_le_zpow_right₀ (by norm_num) (by omega)

/-- A number of at least the magnitude of `q` is a multiple of its unit. -/
theorem exists_multiple {x : Number} (h : |q| ≤ |x.value|) :
    unitExponent q ≤ 971 ∧ ∃ m : Int, x.value = m * 2 ^ unitExponent q := by
  rcases multiple_or_lt x (unitExponent q) with hmul | ⟨he, hlt⟩
  · exact hmul
  · exact absurd (lt_of_le_of_lt ((unit_le_abs he).trans h) hlt) (lt_irrefl _)

theorem round_of_multiple {m : Int} (hm : q = m * 2 ^ unitExponent q) :
    roundHalfEven (q / 2 ^ unitExponent q) = m := by
  have hdiv : q / 2 ^ unitExponent q = m := (div_eq_iff (two_pow_pos _).ne').mpr hm
  rw [hdiv, roundHalfEven_intCast]

/-- A number is nearest to itself. -/
theorem nearest?_self (x : Number) : nearest? x.value = some x := by
  obtain ⟨he, m, hm⟩ := exists_multiple (q := x.value) (x := x) le_rfl
  have hlow := le_unitExponent x.value
  have hlt : |(m : Rat)| < 2 ^ 53 := by
    have hx : |x.value| = |(m : Rat)| * 2 ^ unitExponent x.value := by
      conv_lhs => rw [hm, abs_mul, abs_of_pos (two_pow_pos _)]
    have h := abs_lt_unit x.value
    rw [hx, zpow_add₀ (by norm_num), mul_comm (2 ^ unitExponent x.value)] at h
    exact_mod_cast lt_of_mul_lt_mul_right h (two_pow_pos _).le
  have hsmall : m.natAbs < 0x20000000000000 := by
    rw [← Int.cast_abs, Int.abs_eq_natAbs] at hlt
    exact_mod_cast hlt
  rw [nearest?_of_round (round_of_multiple hm), if_pos hsmall, scaled?, dif_pos ⟨hsmall, hlow, he⟩]
  exact congrArg some (Number.ext hm.symm)

section

variable {x y : Number}

theorem abs_value_of_nearest? (h : nearest? q = some y) :
    |y.value| = |(roundHalfEven (q / 2 ^ unitExponent q) : Rat)| * 2 ^ unitExponent q := by
  rw [value_of_nearest? h, abs_mul, abs_of_pos (two_pow_pos _)]

/-- Rounding does not go below a number. -/
theorem le_abs_of_nearest? (h : nearest? q = some y) (hle : |x.value| ≤ |q|) :
    |x.value| ≤ |y.value| := by
  rw [abs_value_of_nearest? h]
  have hpos := two_pow_pos (unitExponent q)
  rcases multiple_or_lt x (unitExponent q) with ⟨-, m, hm⟩ | ⟨he, hlt⟩
  · have hx : |x.value| = |(m : Rat)| * 2 ^ unitExponent q := by
      rw [hm, abs_mul, abs_of_pos hpos]
    rw [hx]
    refine mul_le_mul_of_nonneg_right ?_ hpos.le
    rw [hx, ← le_div_iff₀ hpos, ← abs_div_unit] at hle
    exact_mod_cast le_abs_roundHalfEven (n := |m|) (by push_cast; exact hle)
  · have hunit := unit_le_abs he
    rw [zpow_add₀ (by norm_num), mul_comm] at hlt hunit
    rw [← le_div_iff₀ hpos, ← abs_div_unit] at hunit
    have hround : (0x10000000000000 : Int) ≤ |roundHalfEven (q / 2 ^ unitExponent q)| :=
      le_abs_roundHalfEven (by norm_num at hunit ⊢; exact hunit)
    refine hlt.le.trans (mul_le_mul_of_nonneg_right ?_ hpos.le)
    norm_num
    exact_mod_cast hround

theorem integer_of_nearest? (h : nearest? q = some y) (hq : ∃ z : Int, q = z) :
    ∃ z : Int, y.value = z := by
  obtain ⟨z, rfl⟩ := hq
  by_cases he : 0 ≤ unitExponent (z : Rat)
  · obtain ⟨k, hk⟩ := Int.eq_ofNat_of_zero_le he
    refine ⟨roundHalfEven (z / 2 ^ unitExponent (z : Rat)) * 2 ^ k, ?_⟩
    rw [value_of_nearest? h, hk]
    push_cast
    rw [zpow_natCast]
  · obtain ⟨k, hk⟩ := Int.eq_ofNat_of_zero_le (show 0 ≤ -unitExponent (z : Rat) by omega)
    have hm : (z : Rat) = (z * 2 ^ k : Int) * 2 ^ unitExponent (z : Rat) := by
      rw [show unitExponent (z : Rat) = -(k : Int) by omega, zpow_neg, zpow_natCast]
      push_cast
      field_simp
    exact ⟨z, by rw [value_of_nearest? h, round_of_multiple hm, ← hm]⟩

end

end Scim.Number

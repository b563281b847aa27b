import Scim.Proofs.Number.Shortest

/-!
# The nearest number

`nearest?` is what its name says: no number is nearer to the argument (`abs_sub_le_of_nearest?`),
and one is found unless the argument lies halfway between the largest number and 2^1024, or further
out (`nearest?_eq_none_iff`). A numeral denotes the number nearest to what is written
(`toNumber?_eq_nearest?`): the short ways that are taken far outside the range of the format lead to
the same answer.
-/

namespace Scim

namespace Number

variable {q : Rat} {x : Number}

/-! ### Halves -/

theorem abs_sub_roundHalfEven (q : Rat) : |q - roundHalfEven q| ≤ 1 / 2 := by
  have hlow : (q.floor : Rat) ≤ q := Int.floor_le q
  have hhigh : q < q.floor + 1 := Int.lt_floor_add_one q
  unfold roundHalfEven
  simp only
  split_ifs <;> push_cast <;> rw [abs_le] <;> constructor <;> linarith

/-- Halfway between two integers the even one is taken. -/
theorem even_roundHalfEven (h : |q - roundHalfEven q| = 1 / 2) : roundHalfEven q % 2 = 0 := by
  have hlow : (q.floor : Rat) ≤ q := Int.floor_le q
  have hhigh : q < q.floor + 1 := Int.lt_floor_add_one q
  unfold roundHalfEven at h ⊢
  simp only at h ⊢
  split_ifs at h ⊢ with hbelow habove heven
  · rw [abs_of_nonneg (by linarith)] at h
    linarith
  · push_cast at h
    rw [abs_of_nonpos (by linarith)] at h
    linarith
  · exact heven
  · omega

/-- No integer is nearer. -/
theorem abs_sub_roundHalfEven_le (q : Rat) (n : Int) : |q - roundHalfEven q| ≤ |q - n| := by
  by_cases hn : n = roundHalfEven q
  · rw [hn]
  have hhalf := abs_sub_roundHalfEven q
  have hone : (1 : Rat) ≤ |(n : Rat) - roundHalfEven q| := by
    rw [← Int.cast_sub, ← Int.cast_abs]
    exact_mod_cast Int.one_le_abs (sub_ne_zero.mpr hn)
  have htriangle := abs_sub_le (n : Rat) q (roundHalfEven q)
  rw [abs_sub_comm (n : Rat) q] at htriangle
  linarith

/-! ### No number is nearer -/

/-- No multiple of the unit is nearer. -/
theorem abs_sub_le_of_multiple (h : nearest? q = some x) (m : Int) :
    |q - x.value| ≤ |q - m * 2 ^ unitExponent q| := by
  have hunit := two_pow_pos (unitExponent q)
  have hscale : ∀ n : Int, |q - n * 2 ^ unitExponent q| =
      |q / 2 ^ unitExponent q - n| * 2 ^ unitExponent q := by
    intro n
    rw [← abs_of_pos hunit, ← abs_mul, abs_of_pos hunit, sub_mul, div_mul_cancel₀ _ hunit.ne']
  rw [value_of_nearest? h, hscale, hscale]
  exact mul_le_mul_of_nonneg_right (abs_sub_roundHalfEven_le _ m) hunit.le

theorem abs_sub_le_of_nearest? (h : nearest? q = some x) (y : Number) :
    |q - x.value| ≤ |q - y.value| := by
  rcases multiple_or_lt y (unitExponent q) with ⟨-, m, hm⟩ | ⟨he, hlt⟩
  · rw [hm]
    exact abs_sub_le_of_multiple h m
  · -- between `y` and `q` there is a power of two, which is a multiple of the unit
    have hbound := unit_le_abs he
    have hmultiple : ∀ s : Int, ((s * 2 ^ 52 : Int) : Rat) * 2 ^ unitExponent q =
        s * 2 ^ (unitExponent q + 52) := by
      intro s
      rw [zpow_add₀ (by norm_num)]
      push_cast
      ring
    obtain ⟨hlow, hhigh⟩ := abs_lt.mp hlt
    rcases le_abs.mp hbound with hq | hq
    · refine (abs_sub_le_of_multiple h (1 * 2 ^ 52)).trans ?_
      rw [hmultiple, Int.cast_one, one_mul, abs_of_nonneg (by linarith),
        abs_of_nonneg (by linarith)]
      linarith
    · refine (abs_sub_le_of_multiple h (-1 * 2 ^ 52)).trans ?_
      rw [hmultiple, Int.cast_neg, Int.cast_one, neg_one_mul, sub_neg_eq_add,
        abs_of_nonpos (by linarith), abs_of_nonpos (by linarith)]
      linarith

/-! ### The range of the format -/

theorem abs_value_lt (x : Number) : |x.value| < (2 : Rat) ^ 1024 := by
  by_cases hx : x.value = 0
  · rw [hx, abs_zero]
    positivity
  · exact_mod_cast (abs_bounds hx).2

theorem scaled?_eq_none_iff {m e : Int} (hm : m.natAbs < 0x20000000000000) (he : -1074 ≤ e) :
    scaled? m e = none ↔ 971 < e := by
  unfold scaled?
  split_ifs with h
  · exact iff_of_false not_false (by omega)
  · exact iff_of_true rfl (by omega)

/-- A significand that is rounded up to 54 bits takes the next exponent. -/
theorem nearest?_eq_none_iff_round : nearest? q = none ↔ 971 < unitExponent q ∨
    unitExponent q = 971 ∧ |roundHalfEven (q / 2 ^ unitExponent q)| = 2 ^ 53 := by
  have hle := abs_rounded_le q
  have he := le_unitExponent q
  generalize hm : roundHalfEven (q / 2 ^ unitExponent q) = m at hle ⊢
  rw [nearest?_of_round hm]
  rw [Int.abs_eq_natAbs] at hle ⊢
  split_ifs with hsmall
  · rw [scaled?_eq_none_iff hsmall he]
    omega
  · rw [scaled?_eq_none_iff (by omega) (by omega)]
    omega

theorem round_eq_two_pow_iff : |roundHalfEven q| = 2 ^ 53 ↔
    |roundHalfEven q| ≤ 2 ^ 53 ∧ (2 : Rat) ^ 53 - 1 / 2 ≤ |q| := by
  have hhalf := abs_sub_roundHalfEven q
  have hdist := abs_sub_abs_le_abs_sub q (roundHalfEven q)
  have hdist' := abs_sub_abs_le_abs_sub (roundHalfEven q : Rat) q
  rw [abs_sub_comm] at hdist'
  constructor
  · intro hround
    have hcast : |(roundHalfEven q : Rat)| = 2 ^ 53 := by exact_mod_cast hround
    exact ⟨hround.le, by linarith⟩
  · rintro ⟨hle, hq⟩
    by_contra hne
    have hlt : |roundHalfEven q| ≤ 2 ^ 53 - 1 := by omega
    have hcast : |(roundHalfEven q : Rat)| ≤ 2 ^ 53 - 1 := by exact_mod_cast hlt
    -- the only way left is a tie, and then the other neighbour is the even one
    have heven := even_roundHalfEven (le_antisymm hhalf (by linarith))
    have hodd : |(roundHalfEven q : Rat)| = 2 ^ 53 - 1 := by linarith
    have hodd' : |roundHalfEven q| = 2 ^ 53 - 1 := by exact_mod_cast hodd
    rw [Int.abs_eq_natAbs] at hodd'
    omega

/-- The end of the range in units of the largest numbers. -/
theorem two_pow_1024_sub : (2 : Rat) ^ 1024 - 2 ^ 970 = (2 ^ 53 - 1 / 2) * 2 ^ (971 : Int) := by
  have hunit : (2 : Rat) ^ (971 : Int) = 2 * 2 ^ 970 := by
    rw [← pow_succ']
    exact zpow_natCast 2 971
  rw [hunit, show 1024 = 54 + 970 from rfl, pow_add]
  generalize (2 : Rat) ^ 970 = u
  ring

/-- There is no nearest number from halfway between the largest number and 2^1024 on. -/
theorem nearest?_eq_none_iff : nearest? q = none ↔ (2 : Rat) ^ 1024 - 2 ^ 970 ≤ |q| := by
  have hbelow := abs_lt_unit q
  rw [nearest?_eq_none_iff_round]
  rcases lt_trichotomy (unitExponent q) 971 with he | he | he
  · refine iff_of_false (by omega) (not_le.mpr (hbelow.trans_le ?_))
    rw [two_pow_1024_sub]
    calc (2 : Rat) ^ (unitExponent q + 53) ≤ 2 ^ (52 + 971 : Int) :=
          zpow_le_zpow_right₀ (by norm_num) (by omega)
      _ = 2 ^ 52 * 2 ^ (971 : Int) := by rw [zpow_add₀ (by norm_num)]; rfl
      _ ≤ _ := mul_le_mul_of_nonneg_right (by norm_num) (two_pow_pos _).le
  · have hbound : (2 : Rat) ^ 53 - 1 / 2 ≤ |q / 2 ^ unitExponent q| ↔
        (2 : Rat) ^ 1024 - 2 ^ 970 ≤ |q| := by
      rw [abs_div_unit, le_div_iff₀ (two_pow_pos _), he, two_pow_1024_sub]
    rw [← hbound, round_eq_two_pow_iff]
    have hle := abs_rounded_le q
    constructor
    · rintro (h | ⟨-, -, h⟩)
      · omega
      · exact h
    · exact fun h => .inr ⟨he, hle, h⟩
  · refine iff_of_true (.inl he) ?_
    calc (2 : Rat) ^ 1024 - 2 ^ 970 ≤ 2 ^ (1024 : Int) := by norm_num
      _ ≤ 2 ^ (unitExponent q + 52) := zpow_le_zpow_right₀ (by norm_num) (by omega)
      _ ≤ |q| := unit_le_abs (by omega)

/-- Below half of the least positive number zero is nearest. -/
theorem nearest?_eq_zero (h : |q| < 2 ^ (-1075 : Int)) : nearest? q = some zero := by
  have hexists : nearest? q ≠ none := by
    rw [ne_eq, nearest?_eq_none_iff, not_le]
    rw [two_pow_1024_sub]
    calc |q| < 2 ^ (-1075 : Int) := h
      _ ≤ 2 ^ (971 : Int) := zpow_le_zpow_right₀ (by norm_num) (by norm_num)
      _ ≤ _ := le_mul_of_one_le_left (two_pow_pos _).le (by norm_num)
  obtain ⟨x, hx⟩ := Option.ne_none_iff_exists'.mp hexists
  have hnear := abs_sub_le_of_nearest? hx zero
  have hzero : zero.value = 0 := rfl
  rw [hzero, sub_zero] at hnear
  have hdouble : (2 : Rat) ^ (-1074 : Int) = 2 ^ (-1075 : Int) + 2 ^ (-1075 : Int) := by
    rw [← two_mul, ← zpow_one_add₀ (by norm_num)]
    norm_num
  rw [hx]
  by_contra hne
  have hvalue : x.value ≠ 0 := fun h0 => hne (congrArg some (Number.ext h0))
  have hlow := (abs_bounds hvalue).1
  have htriangle := abs_sub_abs_le_abs_sub x.value q
  rw [abs_sub_comm] at htriangle
  linarith

/-! ### Decimals -/

theorem ofDecimal?_eq_nearest? (negative : Bool) (m : Nat) (e : Int) :
    ofDecimal? negative m e = nearest? (signed negative (m * 10 ^ e)) := by
  rw [ofDecimal?_eq]
  rcases Nat.eq_zero_or_pos m with rfl | hm
  · rw [if_pos (.inl rfl)]
    refine (nearest?_eq_zero ?_).symm
    rw [abs_signed, Nat.cast_zero, zero_mul, abs_zero]
    exact two_pow_pos _
  have habs : |signed negative (m * 10 ^ e)| = m * 10 ^ e := by
    rw [abs_signed]
    exact abs_of_nonneg (mul_nonneg (Nat.cast_nonneg m) (zpow_pos (by norm_num) e).le)
  obtain ⟨hlow, hhigh⟩ := Numeral.magnitude_bounds hm e
  split_ifs with htiny hhuge
  · have hsmall : (decimalDigits m).length + e < -330 := htiny.resolve_left hm.ne'
    have hpow : (2 : Nat) ^ 1075 ≤ 10 ^ 330 := by decide +kernel
    refine (nearest?_eq_zero ?_).symm
    rw [habs]
    calc (m * 10 ^ e : Rat) < 10 ^ ((decimalDigits m).length + e) := hhigh
      _ ≤ 10 ^ (-330 : Int) := zpow_le_zpow_right₀ (by norm_num) hsmall.le
      _ ≤ 2 ^ (-1075 : Int) := by
        rw [zpow_neg, zpow_neg]
        exact inv_anti₀ (two_pow_pos 1075) (by exact_mod_cast hpow)
  · refine (nearest?_eq_none_iff.mpr ?_).symm
    rw [habs]
    calc (2 : Rat) ^ 1024 - 2 ^ 970 ≤ 2 ^ (1024 : Int) := by norm_num
      _ ≤ 10 ^ (309 : Int) := two_pow_le_ten_pow
      _ ≤ 10 ^ ((decimalDigits m).length + e - 1) := zpow_le_zpow_right₀ (by norm_num) (by omega)
      _ ≤ _ := hlow
  · rfl

end Number

namespace Numeral

/-- The number that is written, before it is rounded to one of the format. -/
def value (n : Numeral) : Rat := Number.signed n.negative n.magnitude

/-- A numeral denotes the number nearest to what is written. -/
theorem toNumber?_eq_nearest? (n : Numeral) : n.toNumber? = Number.nearest? n.value :=
  Number.ofDecimal?_eq_nearest? ..

end Numeral

end Scim

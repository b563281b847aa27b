import Mathlib.Data.Nat.Prime.Basic
import Scim.Proofs.Number.Layout
import Scim.Proofs.Number.Nearest

/-!
# The numeral of a number

The numeral that a number is written with is well-formed and reads back as the number
(`wellFormed_toNumeral`, `toNumber?_toNumeral`). It has no fraction and no exponent exactly for the
integers below 1e21 (`isInteger_toNumeral_iff`).
-/

namespace Scim.Number

open Numeral (magnitude ofDecimal)

variable {x : Number} {n : Numeral} {m : Nat} {e : Int}

/-! ### Reading decimals -/

/-- The decimal with its sign. -/
def signed (negative : Bool) (q : Rat) : Rat := if negative then -q else q

theorem abs_signed (negative : Bool) (q : Rat) : |signed negative q| = |q| := by
  cases negative
  · rfl
  · exact abs_neg q

theorem signed_abs (x : Number) : signed (x.value < 0) |x.value| = x.value := by
  unfold signed
  by_cases h : x.value < 0
  · rw [if_pos (by simpa using h), abs_of_neg h, neg_neg]
  · rw [if_neg (by simpa using h), abs_of_nonneg (not_lt.mp h)]

theorem ofDecimal?_eq (negative : Bool) (m : Nat) (e : Int) : ofDecimal? negative m e =
    if m = 0 ∨ (decimalDigits m).length + e < -330 then some zero
    else if 310 < (decimalDigits m).length + e then none
    else nearest? (signed negative (m * 10 ^ e)) := by
  have hsigned : ((if negative then -(m : Int) else m : Int) : Rat) * 10 ^ e =
      signed negative (m * 10 ^ e) := by
    cases negative <;> simp [signed]
  simp only [ofDecimal?, Bool.or_eq_true, decide_eq_true_eq, hsigned]

theorem nearest?_of_toNumber? (h : n.toNumber? = some x) (hx : x.value ≠ 0) :
    nearest? (signed n.negative n.magnitude) = some x := by
  have h : ofDecimal? n.negative (decimalValue (n.whole ++ n.fraction)) n.scale = some x := h
  rw [ofDecimal?_eq] at h
  split_ifs at h with h1 h2
  · cases h; exact absurd rfl hx
  · exact h

theorem abs_bounds (hx : x.value ≠ 0) : (2 : Rat) ^ (-1074 : Int) ≤ |x.value| ∧
    |x.value| < (2 : Rat) ^ (1024 : Int) := by
  obtain ⟨v, k, f, hk, hf1, hf2, hv⟩ := x
  simp only at hx hv ⊢
  have habs : |v| = |(k : Rat)| * 2 ^ f := by rw [hv, abs_mul, abs_of_pos (two_pow_pos f)]
  have hpos : (1 : Rat) ≤ |(k : Rat)| := by
    have : k ≠ 0 := by rintro rfl; exact hx (by simp [hv])
    exact_mod_cast Int.one_le_abs this
  have hlt : |(k : Rat)| < 2 ^ (53 : Int) := by
    rw [← Int.cast_abs, Int.abs_eq_natAbs]
    exact_mod_cast hk
  rw [habs]
  constructor
  · calc (2 : Rat) ^ (-1074 : Int) ≤ 2 ^ f := zpow_le_zpow_right₀ (by norm_num) hf1
      _ ≤ _ := le_mul_of_one_le_left (two_pow_pos f).le hpos
  · calc |(k : Rat)| * 2 ^ f < 2 ^ (53 : Int) * 2 ^ f := mul_lt_mul_of_pos_right hlt (two_pow_pos f)
      _ = 2 ^ (53 + f) := (zpow_add₀ (by norm_num) _ _).symm
      _ ≤ _ := zpow_le_zpow_right₀ (by norm_num) (by omega)

theorem ten_pow_le_two_pow : (10 : Rat) ^ (-330 : Int) ≤ 2 ^ (-1074 : Int) := by
  have h : (2 : Nat) ^ 1074 ≤ 10 ^ 330 := by decide +kernel
  rw [zpow_neg, zpow_neg]
  exact inv_anti₀ (two_pow_pos 1074) (by exact_mod_cast h)

theorem two_pow_le_ten_pow : (2 : Rat) ^ (1024 : Int) ≤ 10 ^ (309 : Int) := by
  have h : (2 : Nat) ^ 1024 ≤ 10 ^ 309 := by decide +kernel
  exact_mod_cast h

theorem ten_pow_lt_iff {i j : Int} : (10 : Rat) ^ i < 10 ^ j ↔ i < j :=
  zpow_lt_zpow_iff_right₀ (by norm_num)

theorem toNumber?_of_magnitude (hx : x.value ≠ 0) (hn : n.negative = decide (x.value < 0))
    (hmag : n.magnitude = |x.value|) : n.toNumber? = some x := by
  have hdef : n.toNumber? =
      ofDecimal? n.negative (decimalValue (n.whole ++ n.fraction)) n.scale := rfl
  have hmag : (decimalValue (n.whole ++ n.fraction) * 10 ^ n.scale : Rat) = |x.value| := hmag
  rw [hdef, ofDecimal?_eq]
  generalize decimalValue (n.whole ++ n.fraction) = k at hmag ⊢
  generalize n.scale = e at hmag ⊢
  obtain ⟨hlow, hhigh⟩ := abs_bounds hx
  have hk : 0 < k := by
    rw [Nat.pos_iff_ne_zero]
    rintro rfl
    rw [Nat.cast_zero, zero_mul] at hmag
    exact hx (abs_eq_zero.mp hmag.symm)
  obtain ⟨hlow', hhigh'⟩ := Numeral.magnitude_bounds hk e
  rw [hmag] at hlow' hhigh'
  have hsmall : (10 : Rat) ^ (-330 : Int) < 10 ^ ((decimalDigits k).length + e) :=
    calc (10 : Rat) ^ (-330 : Int) ≤ 2 ^ (-1074 : Int) := ten_pow_le_two_pow
      _ ≤ _ := hlow
      _ < _ := hhigh'
  have hlarge : (10 : Rat) ^ ((decimalDigits k).length + e - 1) < 10 ^ (309 : Int) :=
    calc (10 : Rat) ^ ((decimalDigits k).length + e - 1) ≤ |x.value| := hlow'
      _ < 2 ^ (1024 : Int) := hhigh
      _ ≤ _ := two_pow_le_ten_pow
  rw [ten_pow_lt_iff] at hsmall hlarge
  rw [if_neg (by omega), if_neg (by omega), hmag, hn, signed_abs, nearest?_self]

/-! ### The decimal point -/

theorem decimalPoint_spec {q : Rat} (hq : 0 < q) :
    (10 : Rat) ^ (decimalPoint q - 1) ≤ q ∧ q < 10 ^ decimalPoint q := by
  have hnum : 0 < q.num.natAbs := Int.natAbs_pos.mpr (Rat.num_pos.mpr hq).ne'
  have hden : (0 : Rat) < q.den := by exact_mod_cast q.den_pos
  have hq' : q = q.num.natAbs / q.den := by
    conv_lhs => rw [← Rat.num_div_den q]
    rw [Nat.cast_natAbs, abs_of_pos (Rat.num_pos.mpr hq)]
  obtain ⟨hn1, hn2⟩ := Numeral.magnitude_bounds hnum 0
  obtain ⟨hd1, hd2⟩ := Numeral.magnitude_bounds q.den_pos 0
  simp only [zpow_zero, mul_one, add_zero] at hn1 hn2 hd1 hd2
  generalize hk : ((decimalDigits q.num.natAbs).length : Int) - (decimalDigits q.den).length = k
  have hpow (i : Int) : (0 : Rat) < 10 ^ i := zpow_pos (by norm_num) i
  have hlow : (10 : Rat) ^ (k - 1) ≤ q := by
    rw [hq', le_div_iff₀ hden]
    calc (10 : Rat) ^ (k - 1) * q.den ≤ 10 ^ (k - 1) * 10 ^ ((decimalDigits q.den).length : Int) :=
          mul_le_mul_of_nonneg_left hd2.le (hpow _).le
      _ = 10 ^ ((decimalDigits q.num.natAbs).length - 1 : Int) := by
          rw [← zpow_add₀ (by norm_num)]
          congr 1
          omega
      _ ≤ _ := hn1
  have hhigh : q < (10 : Rat) ^ (k + 1) := by
    rw [hq', div_lt_iff₀ hden]
    calc (q.num.natAbs : Rat) < 10 ^ ((decimalDigits q.num.natAbs).length : Int) := hn2
      _ = 10 ^ (k + 1) * 10 ^ ((decimalDigits q.den).length - 1 : Int) := by
          rw [← zpow_add₀ (by norm_num)]
          congr 1
          omega
      _ ≤ _ := mul_le_mul_of_nonneg_left hd1 (hpow _).le
  unfold decimalPoint
  simp only [hk]
  split_ifs with h
  · exact ⟨hlow, h⟩
  · exact ⟨by rw [Int.add_sub_cancel]; exact not_lt.mp h, hhigh⟩

/-! ### Numerals of a given length -/

variable {k : Nat}

/-- The digits of `x` down to the last of `k` places, as a whole number. -/
def leading (x : Number) (k : Nat) : Nat :=
  (|x.value| / 10 ^ (decimalPoint |x.value| - k)).floor.toNat

theorem pow_le_leading (hx : x.value ≠ 0) (k : Nat) : 10 ^ k ≤ leading x (k + 1) := by
  obtain ⟨hlow, -⟩ := decimalPoint_spec (abs_pos.mpr hx)
  have hle : (10 : Rat) ^ k ≤ |x.value| / 10 ^ (decimalPoint |x.value| - (k + 1 : Nat)) := by
    rw [le_div_iff₀ (zpow_pos (by norm_num) _), ← zpow_natCast, ← zpow_add₀ (by norm_num)]
    refine le_of_eq_of_le ?_ hlow
    congr 1
    push_cast
    omega
  have hfloor : ((10 ^ k : Nat) : Int) ≤ ⌊|x.value| / 10 ^ (decimalPoint |x.value| - (k + 1 : Nat))⌋ :=
    Int.le_floor.mpr (by push_cast; exact_mod_cast hle)
  have h : leading x (k + 1) =
      ⌊|x.value| / 10 ^ (decimalPoint |x.value| - (k + 1 : Nat))⌋.toNat := rfl
  rw [h]
  omega

/-- A numeral of `k` digits is looked for among two, in the one order or the other. -/
theorem numeralOfLength?_eq (x : Number) (k : Nat) : ∃ ns : List Numeral,
    x.numeralOfLength? k = ns.find? (fun n => n.toNumber? = some x) ∧
      ∀ n, n ∈ ns ↔ n = ofDecimal (x.value < 0) (leading x k) (decimalPoint |x.value| - k) ∨
        n = ofDecimal (x.value < 0) (leading x k + 1) (decimalPoint |x.value| - k) := by
  unfold numeralOfLength?
  rw [rat_abs_eq]
  refine ⟨_, rfl, fun n => ?_⟩
  split_ifs
  · simp only [List.mem_cons, List.not_mem_nil, or_false]; exact or_comm
  · simp only [List.mem_cons, List.not_mem_nil, or_false]; rfl

theorem exists_of_numeralOfLength? (hx : x.value ≠ 0) (h : x.numeralOfLength? (k + 1) = some n) :
    n.toNumber? = some x ∧ ∃ m, 10 ^ k ≤ m ∧
      n = ofDecimal (x.value < 0) m (decimalPoint |x.value| - (k + 1 : Nat)) := by
  have hle := pow_le_leading hx k
  obtain ⟨ns, heq, hns⟩ := numeralOfLength?_eq x (k + 1)
  rw [heq] at h
  refine ⟨by simpa using List.find?_some h, ?_⟩
  rcases (hns n).mp (List.mem_of_find?_eq_some h) with rfl | rfl
  · exact ⟨_, hle, rfl⟩
  · exact ⟨_, Nat.le_succ_of_le hle, rfl⟩

theorem toNumber?_ofDecimal (hx : x.value ≠ 0) (hm : 0 < m) (hmag : (m * 10 ^ e : Rat) = |x.value|) :
    (ofDecimal (x.value < 0) m e).toNumber? = some x :=
  toNumber?_of_magnitude hx (Numeral.negative_ofDecimal m e) ((Numeral.magnitude_ofDecimal hm).trans hmag)

/-- An integer is found at the latest when all of its digits are written. -/
theorem numeralOfLength?_integer (hx : x.value ≠ 0) {z : Int} (hz : x.value = z)
    (hk : decimalPoint |x.value| = k) : x.numeralOfLength? k ≠ none := by
  have habs : |x.value| = (z.natAbs : Rat) := by
    rw [hz, ← Int.cast_abs, Int.abs_eq_natAbs, Int.cast_natCast]
  have hlead : leading x k = z.natAbs := by
    rw [leading, hk, sub_self, zpow_zero, div_one, habs]
    have hfloor : ⌊(z.natAbs : Rat)⌋ = z.natAbs := Int.floor_natCast _
    exact (congrArg Int.toNat hfloor).trans (Int.toNat_natCast _)
  have hpos : 0 < z.natAbs := by
    rw [Int.natAbs_pos]; rintro rfl; exact hx (by rw [hz, Int.cast_zero])
  have hread : (ofDecimal (x.value < 0) (leading x k) (decimalPoint |x.value| - k)).toNumber? =
      some x := by
    refine toNumber?_ofDecimal hx (by rwa [hlead]) ?_
    rw [hlead, hk, sub_self, zpow_zero, mul_one, habs]
  obtain ⟨ns, heq, hns⟩ := numeralOfLength?_eq x k
  rw [heq, ne_eq, List.find?_eq_none]
  intro hall
  exact hall _ ((hns _).mpr (.inl rfl)) (by simpa using hread)

/-! ### All digits -/

/-- The denominator of a number is a power of two. -/
theorem den_eq_two_pow (x : Number) : x.value.den = 2 ^ x.value.den.log2 := by
  obtain ⟨v, k, f, -, -, -, hv⟩ := x
  simp only at hv ⊢
  obtain ⟨i, hi⟩ : ∃ i : Nat, v.den ∣ 2 ^ i := by
    by_cases hf : 0 ≤ f
    · obtain ⟨j, rfl⟩ := Int.eq_ofNat_of_zero_le hf
      have hint : v = (k * 2 ^ j : Int) := by rw [hv, zpow_natCast]; push_cast; rfl
      exact ⟨0, by rw [hint, Rat.den_intCast]; exact one_dvd _⟩
    · obtain ⟨j, rfl⟩ : ∃ j : Nat, f = -(j : Int) := ⟨(-f).toNat, by omega⟩
      have hdiv : v = Rat.divInt k (2 ^ j : Int) := by
        rw [hv, zpow_neg, zpow_natCast, Rat.divInt_eq_div, div_eq_mul_inv]; push_cast; rfl
      refine ⟨j, ?_⟩
      have hdvd := Rat.den_dvd k (2 ^ j)
      rw [← hdiv] at hdvd
      exact_mod_cast hdvd
  obtain ⟨j, -, hj⟩ := (Nat.dvd_prime_pow Nat.prime_two).mp hi
  rw [hj, Nat.log2_two_pow]

theorem exactNumeral_spec (hx : x.value ≠ 0) : ∃ m, 0 < m ∧
    x.exactNumeral = ofDecimal (x.value < 0) m (-(x.value.den.log2 : Int)) ∧
    (m * 10 ^ (-(x.value.den.log2 : Int)) : Rat) = |x.value| := by
  have hnum : 0 < x.value.num.natAbs := Int.natAbs_pos.mpr (Rat.num_ne_zero.mpr hx)
  refine ⟨_, Nat.mul_pos hnum (Nat.pow_pos (by norm_num)), rfl, ?_⟩
  have hden := den_eq_two_pow x
  generalize x.value.den.log2 = p at hden ⊢
  have habs : |x.value| = x.value.num.natAbs / 2 ^ p := by
    conv_lhs => rw [← Rat.num_div_den x.value]
    rw [abs_div, Nat.abs_cast, hden, Nat.cast_natAbs, Int.cast_abs]
    push_cast
    rfl
  have hten : (10 : Rat) ^ p = 2 ^ p * 5 ^ p := by rw [← mul_pow]; norm_num
  rw [habs, zpow_neg, zpow_natCast, hten]
  push_cast
  field_simp

/-! ### The numeral of a number -/

theorem exists_of_findSome?_range {α : Type} {f : Nat → Option α} {a : α} :
    ∀ {n : Nat}, (List.range n).findSome? f = some a →
      ∃ k < n, f k = some a ∧ ∀ j < k, f j = none
  | 0, h => by cases h
  | n + 1, h => by
    rw [List.range_succ, List.findSome?_append] at h
    cases hn : (List.range n).findSome? f with
    | some b =>
      rw [hn] at h
      cases h
      obtain ⟨k, hk, hf⟩ := exists_of_findSome?_range hn
      exact ⟨k, by omega, hf⟩
    | none =>
      rw [hn] at h
      refine ⟨n, Nat.lt_succ_self n, by simpa using h, fun j hj => ?_⟩
      exact List.findSome?_eq_none_iff.mp hn j (List.mem_range.mpr hj)

/-- What is known of the numeral `n` of `x`, which has the digits of `m * 10 ^ e`: it reads back,
its first digit stands where the first digit of `x` does, and an integer is written without places
behind the point. -/
structure Writes (x : Number) (n : Numeral) (m : Nat) (e : Int) : Prop where
  pos : 0 < m
  eq : n = ofDecimal (x.value < 0) m e
  reads : n.toNumber? = some x
  first : (10 : Rat) ^ (decimalPoint |x.value| - 1) ≤ m * 10 ^ e
  integer : (∃ z : Int, x.value = z) → ∃ z : Int, (m * 10 ^ e : Rat) = z

theorem integer_of_nonneg (m : Nat) (he : 0 ≤ e) : ∃ z : Int, (m * 10 ^ e : Rat) = z := by
  obtain ⟨j, rfl⟩ := Int.eq_ofNat_of_zero_le he
  exact ⟨m * 10 ^ j, by rw [zpow_natCast]; push_cast; rfl⟩

theorem decimalPoint_pos (hx : x.value ≠ 0) {z : Int} (hz : x.value = z) :
    0 < decimalPoint |x.value| := by
  have hne : z ≠ 0 := by rintro rfl; exact hx (by rw [hz, Int.cast_zero])
  have hone : (1 : Rat) ≤ |x.value| := by
    rw [hz]
    exact_mod_cast Int.one_le_abs hne
  have h := lt_of_le_of_lt hone (decimalPoint_spec (abs_pos.mpr hx)).2
  rwa [← zpow_zero (10 : Rat), ten_pow_lt_iff] at h

theorem writes_of_numeralOfLength? (hx : x.value ≠ 0) (h : x.numeralOfLength? (k + 1) = some n)
    (hk : k < 17) (hfirst : ∀ j < k, x.numeralOfLength? (j + 1) = none) :
    ∃ m e, Writes x n m e := by
  obtain ⟨hreads, m, hm, heq⟩ := exists_of_numeralOfLength? hx h
  refine ⟨m, _, Nat.lt_of_lt_of_le (Nat.pow_pos (by norm_num)) hm, heq, hreads, ?_, ?_⟩
  · have hm : (10 : Rat) ^ k ≤ m := by exact_mod_cast hm
    refine le_trans (le_of_eq ?_) (mul_le_mul_of_nonneg_right hm (zpow_pos (by norm_num) _).le)
    rw [← zpow_natCast, ← zpow_add₀ (by norm_num)]
    congr 1
    push_cast
    omega
  · rintro ⟨z, hz⟩
    refine integer_of_nonneg m ?_
    -- With fewer digits the search would have ended earlier.
    by_contra hneg
    have hpos := decimalPoint_pos hx hz
    obtain ⟨j, hj⟩ : ∃ j : Nat, decimalPoint |x.value| = (j + 1 : Nat) :=
      ⟨(decimalPoint |x.value|).toNat - 1, by omega⟩
    exact numeralOfLength?_integer hx hz hj (hfirst j (by omega))

theorem exists_writes (hx : x.value ≠ 0) : ∃ m e, Writes x x.toNumeral m e := by
  rw [toNumeral, if_neg hx]
  cases hfind : (List.range 17).findSome? fun k => x.numeralOfLength? (k + 1) with
  | some n =>
    obtain ⟨k, hk, hn, hfirst⟩ := exists_of_findSome?_range hfind
    exact writes_of_numeralOfLength? hx hn hk hfirst
  | none =>
    obtain ⟨m, hm, heq, hmag⟩ := exactNumeral_spec hx
    refine ⟨m, _, hm, heq, ?_, ?_, ?_⟩
    · rw [Option.getD_none, heq]
      exact toNumber?_ofDecimal hx hm hmag
    · rw [hmag]
      exact (decimalPoint_spec (abs_pos.mpr hx)).1
    · rintro ⟨z, hz⟩
      exact ⟨|z|, by rw [hmag, hz]; push_cast; rfl⟩

theorem wellFormed_toNumeral (x : Number) : x.toNumeral.WellFormed := by
  by_cases hx : x.value = 0
  · rw [toNumeral, if_pos hx]
    exact ⟨by simp, fun c hc => by rw [List.mem_singleton.mp hc]; decide, fun _ => rfl, by simp,
      by simp⟩
  · obtain ⟨m, e, h⟩ := exists_writes hx
    rw [h.eq]
    exact Numeral.wellFormed_ofDecimal h.pos

theorem toNumber?_toNumeral (x : Number) : x.toNumeral.toNumber? = some x := by
  by_cases hx : x.value = 0
  · rw [toNumeral, if_pos hx]
    exact congrArg some (Number.ext hx.symm)
  · obtain ⟨m, e, h⟩ := exists_writes hx
    exact h.reads

/-- The first number that is written with an exponent. -/
def tenTo21 : Number :=
  ⟨10 ^ 21, 476837158203125, 21, by decide, by decide, by decide, by norm_num⟩

theorem Writes.lt_iff {n : Numeral} (hx : x.value ≠ 0) (h : Writes x n m e) :
    (m * 10 ^ e : Rat) < 10 ^ 21 ↔ |x.value| < 10 ^ 21 := by
  have hnearest := nearest?_of_toNumber? h.reads hx
  rw [h.eq, Numeral.magnitude_ofDecimal h.pos] at hnearest
  have hnonneg : (0 : Rat) ≤ m * 10 ^ e := mul_nonneg (Nat.cast_nonneg m) (zpow_pos (by norm_num) e).le
  have hten : |tenTo21.value| = 10 ^ 21 := abs_of_pos (by norm_num [tenTo21])
  constructor
  · intro hlt
    have hpoint := lt_of_le_of_lt h.first hlt
    rw [← zpow_natCast, ten_pow_lt_iff] at hpoint
    refine lt_of_lt_of_le (decimalPoint_spec (abs_pos.mpr hx)).2 ?_
    rw [← zpow_natCast]
    exact zpow_le_zpow_right₀ (by norm_num) (by omega)
  · intro hlt
    by_contra hge
    have hle := le_abs_of_nearest? (x := tenTo21) hnearest
      (by rw [abs_signed, abs_of_nonneg hnonneg, hten]; exact not_lt.mp hge)
    rw [hten] at hle
    exact absurd hlt (not_lt.mpr hle)

theorem isInteger_toNumeral_iff (x : Number) : x.toNumeral.isInteger ↔
    (∃ z : Int, x.value = z) ∧ |x.value| < 10 ^ 21 := by
  by_cases hx : x.value = 0
  · rw [toNumeral, if_pos hx, hx]
    exact iff_of_true rfl ⟨⟨0, rfl⟩, by norm_num⟩
  · obtain ⟨m, e, h⟩ := exists_writes hx
    rw [← h.lt_iff hx, h.eq, Numeral.isInteger_ofDecimal_iff h.pos]
    refine and_congr_left fun _ => ⟨fun hint => ?_, h.integer⟩
    have hnearest := nearest?_of_toNumber? h.reads hx
    rw [h.eq, Numeral.magnitude_ofDecimal h.pos] at hnearest
    obtain ⟨z, hz⟩ := hint
    refine integer_of_nearest? hnearest ?_
    rw [hz]
    unfold signed
    split_ifs
    · exact ⟨-z, by push_cast; rfl⟩
    · exact ⟨z, rfl⟩

end Scim.Number

import Mathlib.Algebra.Order.Field.Rat
import Mathlib.Order.Compare
import Mathlib.Tactic.FieldSimp
import Mathlib.Tactic.Linarith
import Mathlib.Tactic.Positivity
import Scim.Proofs.Instant.Calendar
import Scim.Proofs.Instant.LetterCase

/-!
# The order of instants

The digits behind a point have a value (`fractionValue`). Without zeros at their end, digits come in
the order of their values when they are compared as texts (`fractionValue_lt_iff`), so instants come
in the order of their values, which are rational numbers (`Instant.compare_eq_cmp`). The value of the
instant that is read from a dateTime is what the calendar and the clock say, and the fraction as it is
written (`DateTime.toInstant_value`).
-/

namespace Scim

open CodeUnit

/-! ### Fractions -/

/-- The value of digits behind a decimal point. -/
def fractionValue (digits : Text) : ℚ := decimalValue digits / 10 ^ digits.length

/-- Digits without zeros at the end. -/
structure IsStripped (ds : Text) : Prop where
  digits : ∀ c ∈ ds, c.isDigit
  last : ds.getLast? ≠ some zero

variable {ds es : Text} {c : CodeUnit}

theorem fractionValue_append (ds es : Text) :
    fractionValue (ds ++ es) = fractionValue ds + fractionValue es / 10 ^ ds.length := by
  rw [fractionValue, decimalValue_append, List.length_append, pow_add, fractionValue, fractionValue]
  push_cast
  field_simp

theorem fractionValue_cons (c : CodeUnit) (ds : Text) :
    fractionValue (c :: ds) = (c.digitValue + fractionValue ds) / 10 := by
  have hc : fractionValue [c] = c.digitValue / 10 := by simp [fractionValue, decimalValue]
  rw [← List.singleton_append, fractionValue_append, hc, List.length_singleton, pow_one, add_div]

theorem fractionValue_nil : fractionValue [] = 0 := by simp [fractionValue, decimalValue]

theorem fractionValue_append_zeros (ds : Text) (k : Nat) :
    fractionValue (ds ++ List.replicate k zero) = fractionValue ds := by
  have hzeros : fractionValue (List.replicate k zero) = 0 := by
    simp [fractionValue, decimalValue_zeros]
  rw [fractionValue_append, hzeros, zero_div, add_zero]

theorem fractionValue_nonneg (ds : Text) : 0 ≤ fractionValue ds := by
  unfold fractionValue
  positivity

theorem fractionValue_lt_one (h : ∀ c ∈ ds, c.isDigit) : fractionValue ds < 1 := by
  rw [fractionValue, div_lt_one (by positivity)]
  exact_mod_cast decimalValue_lt h

theorem fractionValue_eq_zero_iff (h : ∀ c ∈ ds, c.isDigit) :
    fractionValue ds = 0 ↔ ∀ c ∈ ds, c = zero := by
  induction ds with
  | nil => simp [fractionValue_nil]
  | cons c ds ih =>
    obtain ⟨hc, hds⟩ := List.forall_mem_cons.mp h
    have hdigit : (c.digitValue : ℚ) = 0 ↔ c = zero := by
      rw [Nat.cast_eq_zero]
      exact ⟨fun h0 => eq_of_digitValue hc rfl h0, fun h0 => h0 ▸ rfl⟩
    have hnonneg := fractionValue_nonneg ds
    rw [List.forall_mem_cons, ← ih hds, ← hdigit, fractionValue_cons, div_eq_zero_iff]
    constructor
    · rintro (h0 | h0)
      · exact (add_eq_zero_iff_of_nonneg (by positivity) hnonneg).mp h0
      · norm_num at h0
    · rintro ⟨h1, h2⟩
      left
      rw [h1, h2, add_zero]

namespace IsStripped

theorem of_cons (h : IsStripped (c :: ds)) : IsStripped ds := by
  refine ⟨fun d hd => h.digits d (List.mem_cons_of_mem c hd), fun hz => h.last ?_⟩
  rw [List.getLast?_cons, hz]
  rfl

theorem fractionValue_pos (h : IsStripped ds) (hne : ds ≠ []) : 0 < fractionValue ds := by
  refine lt_of_le_of_ne (fractionValue_nonneg ds) fun h0 => h.last ?_
  have hzeros := (fractionValue_eq_zero_iff h.digits).mp h0.symm
  rw [List.getLast?_eq_some_getLast hne, hzeros _ (List.getLast_mem hne)]

/-- Digits are compared from the front: the first two that differ decide, whatever follows. -/
theorem fractionValue_lt_iff (hds : IsStripped ds) (hes : IsStripped es) :
    fractionValue ds < fractionValue es ↔ ds < es := by
  induction ds generalizing es with
  | nil =>
    cases es with
    | nil => simp
    | cons e es =>
      rw [fractionValue_nil]
      exact iff_of_true (hes.fractionValue_pos (List.cons_ne_nil e es)) (List.nil_lt_cons e es)
  | cons d ds ih =>
    cases es with
    | nil =>
      rw [fractionValue_nil]
      exact iff_of_false (not_lt.mpr (fractionValue_nonneg _)) (List.not_lt_nil _)
    | cons e es =>
      have hd := hds.digits d List.mem_cons_self
      have he := hes.digits e List.mem_cons_self
      have hd1 := fractionValue_lt_one hds.of_cons.digits
      have he1 := fractionValue_lt_one hes.of_cons.digits
      have hd0 := fractionValue_nonneg ds
      have he0 := fractionValue_nonneg es
      rw [List.cons_lt_cons_iff, ← ih hds.of_cons hes.of_cons, ← digitValue_lt_iff hd he,
        fractionValue_cons, fractionValue_cons, div_lt_div_iff_of_pos_right (by norm_num)]
      -- What follows the first digits is worth less than one of them.
      rcases Nat.lt_trichotomy d.digitValue e.digitValue with hlt | heq | hgt
      · have hstep : (d.digitValue : ℚ) + 1 ≤ e.digitValue := mod_cast hlt
        exact iff_of_true (by linarith) (.inl hlt)
      · obtain rfl := eq_of_digitValue hd he heq
        simp
      · have hstep : (e.digitValue : ℚ) + 1 ≤ d.digitValue := mod_cast hgt
        refine iff_of_false (by linarith) ?_
        rintro (hlt | ⟨rfl, -⟩) <;> omega

theorem compareText_eq_cmp (hds : IsStripped ds) (hes : IsStripped es) :
    Instant.compareText ds es = cmp (fractionValue ds) (fractionValue es) := by
  have hltIff := hds.fractionValue_lt_iff hes
  have hgtIff := hes.fractionValue_lt_iff hds
  rcases lt_trichotomy (fractionValue ds) (fractionValue es) with hlt | heq | hgt
  · rw [Instant.compareText, if_pos (hltIff.mp hlt), (cmp_eq_lt_iff _ _).mpr hlt]
  · rw [Instant.compareText, if_neg fun h => heq.not_lt (hltIff.mpr h),
      if_neg fun h => heq.not_gt (hgtIff.mpr h), (cmp_eq_eq_iff _ _).mpr heq]
  · rw [Instant.compareText, if_neg fun h => hgt.asymm (hltIff.mpr h), if_pos (hgtIff.mp hgt),
      (cmp_eq_gt_iff _ _).mpr hgt]

end IsStripped

/-! ### Instants -/

namespace Instant

variable {i j : Instant}

/-- The milliseconds from the start of 1970, with the part of a millisecond. -/
def value (i : Instant) : ℚ := i.millis + fractionValue i.below

theorem value_lt (hi : IsStripped i.below) (h : i.millis < j.millis) : i.value < j.value := by
  have hstep : (i.millis : ℚ) + 1 ≤ j.millis := mod_cast h
  have hi1 := fractionValue_lt_one hi.digits
  have hj0 := fractionValue_nonneg j.below
  unfold value
  linarith

theorem compare_eq_cmp (hi : IsStripped i.below) (hj : IsStripped j.below) :
    compare i j = cmp i.value j.value := by
  rcases Int.lt_trichotomy i.millis j.millis with hlt | heq | hgt
  · rw [compare, if_pos hlt, (cmp_eq_lt_iff _ _).mpr (value_lt hi hlt)]
  · rw [compare, heq, if_neg (lt_irrefl _), if_neg (lt_irrefl _), hi.compareText_eq_cmp hj, value,
      value, heq, cmp_add_left]
  · rw [compare, if_neg hgt.asymm, if_pos hgt, (cmp_eq_gt_iff _ _).mpr (value_lt hj hgt)]

end Instant

namespace DateTime

open Instant

variable {d e : DateTime} {a b : Text}

/-- The exact instant, in seconds from the start of 1970: the days before its date and the time of
day, less the zone. -/
def instant (d : DateTime) : ℚ :=
  86400 * (firstDay d.year + ∑ m ∈ Finset.range (d.month - 1), monthLength d.year (m + 1 : Nat) +
    (d.day - 1) : Int) +
  3600 * d.hour + 60 * (d.minute - d.ahead) + d.second + fractionValue d.fraction

theorem IsValid.isStripped_below (hd : d.IsValid) : IsStripped d.toInstant.below := by
  refine ⟨fun c hc => ?_, Numeral.getLast?_without_zeros _⟩
  have hmem := (List.dropWhile_sublist _).mem (List.mem_reverse.mp hc)
  exact hd.fraction c (List.mem_of_mem_drop (List.mem_reverse.mp hmem))

/-- No digit of a fraction is lost when it is cut behind the milliseconds. -/
theorem fractionValue_fraction (d : DateTime) : 1000 * fractionValue d.fraction =
    millisOfFraction d.fraction + fractionValue d.toInstant.below := by
  obtain ⟨k, hk⟩ := Numeral.exists_zeros (d.fraction.drop 3)
  -- The milliseconds are the first three digits once zeros have been added.
  have hfilled := fractionValue_append_zeros d.fraction 3
  generalize hg : d.fraction ++ List.replicate 3 zero = g at hfilled
  have hmillis : millisOfFraction d.fraction = decimalValue (g.take 3) := by rw [← hg]; rfl
  have hlen : (g.take 3).length = 3 := by simp [← hg]
  have hbelow : fractionValue (g.drop 3) = fractionValue d.toInstant.below := by
    rw [← hg, List.drop_append, List.drop_replicate, fractionValue_append_zeros, hk,
      fractionValue_append_zeros]
    rfl
  rw [← hfilled, ← List.take_append_drop 3 g, fractionValue_append, hbelow, fractionValue, hlen,
    hmillis]
  ring

theorem toInstant_value (hd : d.IsValid) : d.toInstant.value = 1000 * d.instant := by
  have hcount := dayNumber_eq_count d.year (d.day : Int) hd.month
  have hfraction := d.fractionValue_fraction
  have hmillis : d.toInstant.millis = dayNumber d.year d.month d.day * 86400000 +
    (((d.hour * 60 + d.minute) * 60 + d.second) * 1000 + millisOfFraction d.fraction) -
      d.ahead * 60000 := rfl
  rw [instant, ← hcount, value, hmillis]
  push_cast
  linarith

theorem instant_append_zeros (d : DateTime) (k : Nat) :
    instant { d with fraction := d.fraction ++ List.replicate k zero } = d.instant := by
  rw [instant, instant, fractionValue_append_zeros]

end DateTime

/-! ### Texts -/

namespace Instant

variable {a b c : Text} {d e f : DateTime}

theorem compareTexts?_eq_cmp (hd : d.Writes a) (he : e.Writes b) :
    compareTexts? a b = some (cmp d.instant e.instant) := by
  have hscale : cmp (1000 * d.instant) (1000 * e.instant) = cmp d.instant e.instant :=
    cmp_mul_pos_left (by norm_num) _ _
  rw [compareTexts?, read?_eq_some_iff.mpr ⟨d, hd, rfl⟩, read?_eq_some_iff.mpr ⟨e, he, rfl⟩, ← hscale,
    ← DateTime.toInstant_value hd.1, ← DateTime.toInstant_value he.1,
    ← compare_eq_cmp hd.1.isStripped_below he.1.isStripped_below]
  rfl

theorem isSome_compareTexts?_iff :
    (compareTexts? a b).isSome ↔ (read? a).isSome ∧ (read? b).isSome := by
  unfold compareTexts?
  cases read? a <;> cases read? b <;> simp

/-- Two dateTimes of which the first is not later. -/
def NotAfter (a b : Text) : Prop := ∃ o ∈ compareTexts? a b, o ≠ .gt

theorem notAfter_iff (hd : d.Writes a) (he : e.Writes b) : NotAfter a b ↔ d.instant ≤ e.instant := by
  rw [NotAfter, compareTexts?_eq_cmp hd he, ← not_lt, ← cmp_eq_gt_iff]
  constructor
  · rintro ⟨o, ho, hne⟩
    rwa [Option.mem_some_iff.mp ho]
  · exact fun h => ⟨_, rfl, h⟩

theorem NotAfter.exists_writes (h : NotAfter a b) : ∃ d e : DateTime, d.Writes a ∧ e.Writes b := by
  obtain ⟨o, ho, -⟩ := h
  obtain ⟨ha, hb⟩ := isSome_compareTexts?_iff.mp (Option.isSome_of_mem ho)
  obtain ⟨d, hd⟩ := isSome_read?_iff.mp ha
  obtain ⟨e, he⟩ := isSome_read?_iff.mp hb
  exact ⟨d, e, hd, he⟩

theorem NotAfter.trans (hab : NotAfter a b) (hbc : NotAfter b c) : NotAfter a c := by
  obtain ⟨d, e, hd, he⟩ := hab.exists_writes
  obtain ⟨-, f, -, hf⟩ := hbc.exists_writes
  rw [notAfter_iff hd he] at hab
  rw [notAfter_iff he hf] at hbc
  exact (notAfter_iff hd hf).mpr (hab.trans hbc)

theorem compareTexts?_of_read?_eq_none (hb : read? b = none) : compareTexts? a b = none := by
  unfold compareTexts?
  rw [hb]
  cases read? a <;> rfl

theorem compareTexts?_swap (a b : Text) :
    compareTexts? b a = (compareTexts? a b).map Ordering.swap := by
  by_cases h : (compareTexts? a b).isSome
  · obtain ⟨ha, hb⟩ := isSome_compareTexts?_iff.mp h
    obtain ⟨d, hd⟩ := isSome_read?_iff.mp ha
    obtain ⟨e, he⟩ := isSome_read?_iff.mp hb
    rw [compareTexts?_eq_cmp hd he, compareTexts?_eq_cmp he hd, Option.map_some, cmp_swap]
  · have h' : ¬ (compareTexts? b a).isSome := by
      rwa [isSome_compareTexts?_iff, and_comm, ← isSome_compareTexts?_iff]
    rw [Option.not_isSome_iff_eq_none.mp h, Option.not_isSome_iff_eq_none.mp h']
    rfl

theorem compareTexts?_congr (h : read? a = read? b) (t : Text) :
    compareTexts? a t = compareTexts? b t := by
  unfold compareTexts?
  rw [h]

theorem compareTexts?_of_instant_eq (hd : d.Writes a) (he : e.Writes b) (h : d.instant = e.instant)
    (t : Text) : compareTexts? a t = compareTexts? b t := by
  cases ht : read? t with
  | none => rw [compareTexts?_of_read?_eq_none ht, compareTexts?_of_read?_eq_none ht]
  | some i =>
    obtain ⟨f, hf, -⟩ := read?_eq_some_iff.mp ht
    rw [compareTexts?_eq_cmp hd hf, compareTexts?_eq_cmp he hf, h]

/-- DateTimes are compared by their exact instants. This is a total preorder. It does not tell apart
the texts that write one dateTime, be it with or without a colon in the zone, in either case, with
white space around it, or with further zeros in the fraction. -/
theorem compareTexts?_exact :
    (∀ t, (read? t).isSome ↔ ∃ d : DateTime, d.Writes t) ∧
    (∀ a b (d e : DateTime), d.Writes a → e.Writes b →
      compareTexts? a b = some (cmp d.instant e.instant)) ∧
    (∀ a b, compareTexts? b a = (compareTexts? a b).map Ordering.swap) ∧
    (∀ a b, (read? a).isSome → (read? b).isSome → NotAfter a b ∨ NotAfter b a) ∧
    (∀ a b c, NotAfter a b → NotAfter b c → NotAfter a c) ∧
    (∀ a a' (d : DateTime) k, d.Writes a →
      DateTime.Writes { d with fraction := d.fraction ++ List.replicate k zero } a' →
      ∀ b, compareTexts? a' b = compareTexts? a b) ∧
    (∀ a a', a'.lower = a.lower → ∀ b, compareTexts? a' b = compareTexts? a b) ∧
    ∀ a lead trail, (∀ c ∈ lead, c.isBlank) → (∀ c ∈ trail, c.isBlank) →
      ∀ b, compareTexts? (lead ++ (a ++ trail)) b = compareTexts? a b := by
  refine ⟨fun t => isSome_read?_iff, fun a b d e => compareTexts?_eq_cmp, compareTexts?_swap,
    fun a b ha hb => ?_, fun a b c => NotAfter.trans, fun a a' d k hd hd' => ?_, fun a a' h => ?_,
    fun a lead trail hlead htrail => ?_⟩
  · obtain ⟨d, hd⟩ := isSome_read?_iff.mp ha
    obtain ⟨e, he⟩ := isSome_read?_iff.mp hb
    rw [notAfter_iff hd he, notAfter_iff he hd]
    exact le_total _ _
  · exact compareTexts?_of_instant_eq hd' hd (d.instant_append_zeros k)
  · exact compareTexts?_congr (read?_eq_of_lower_eq h)
  · exact compareTexts?_congr (by rw [read?, read?, Text.trim_around hlead htrail])

/-- The last moment of 1969 and the ninth hour of 1970 in Japan. -/
theorem compareTexts?_exact_newYear :
    ∃ d e : DateTime, d.Writes (" 1969-12-31T24:00:00Z" : String) ∧
      e.Writes ("1970-01-01t09:00:00.000+0900" : String) ∧ d.instant = e.instant := by
  obtain ⟨hread, hcompare, -⟩ := compareTexts?_exact
  obtain ⟨d, hd⟩ := (hread (" 1969-12-31T24:00:00Z" : String)).mp (by decide +kernel)
  obtain ⟨e, he⟩ := (hread ("1970-01-01t09:00:00.000+0900" : String)).mp (by decide +kernel)
  have hequal : compareTexts? (" 1969-12-31T24:00:00Z" : String)
      ("1970-01-01t09:00:00.000+0900" : String) = some .eq := by decide +kernel
  rw [hcompare _ _ d e hd he, Option.some.injEq, cmp_eq_eq_iff] at hequal
  exact ⟨d, e, hd, he, hequal⟩

end Instant

end Scim

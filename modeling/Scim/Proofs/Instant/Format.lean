import Scim.Proofs.Instant.Order

/-!
# Writing instants

The canonical text of an instant of whole milliseconds writes the dateTime that the calendar and the
clock have for it (`DateTime.ofMillis`), in universal time and with three digits behind the point, if
the year has four digits (`FourDigitYear`). Reading the text gives the instant back
(`DateTime.toInstant_ofMillis`). No text that is read as the same millisecond comes before it, and
those without further digits other than zero are equal to it.
-/

namespace Scim

open CodeUnit Instant

variable {t : Int}

/-- The milliseconds of the years 0 to 9999. -/
structure Instant.FourDigitYear (t : Int) : Prop where
  le : firstDay 0 * millisPerDay ≤ t
  lt : t < firstDay 10000 * millisPerDay

namespace DateTime

/-- The dateTime in universal time, with milliseconds. -/
def ofMillis (t : Int) : DateTime :=
  let (year, month, day) := civilDate (t / millisPerDay)
  let ofDay := (t % millisPerDay).toNat
  { year := year.toNat
    month := month.toNat
    day := day.toNat
    hour := ofDay / 3600000
    minute := ofDay / 60000 % 60
    second := ofDay / 1000 % 60
    fraction := padded 3 (ofDay % 1000)
    ahead := 0 }

theorem toNat_ofDay (t : Int) : ∃ ofDay : Nat, (t % millisPerDay).toNat = ofDay ∧ ofDay < 86400000 ∧
    t = t / millisPerDay * millisPerDay + ofDay := by
  refine ⟨_, rfl, ?_⟩
  unfold millisPerDay
  omega

theorem millisOfFraction_padded {n : Nat} (h : n < 1000) : millisOfFraction (padded 3 n) = n := by
  rw [millisOfFraction, List.take_left' (length_padded (by decide) h), decimalValue_padded]

theorem civilDate_fourDigitYear (ht : FourDigitYear t) {year month day : Int}
    (h : civilDate (t / millisPerDay) = (year, month, day)) :
    0 ≤ year ∧ year ≤ 9999 ∧ IsDate year month day ∧ dayNumber year month day = t / millisPerDay := by
  have hdays := civilDate_year_mem (Int.le_ediv_of_mul_le (by decide) ht.le)
    (Int.ediv_lt_of_lt_mul (by decide) ht.lt)
  rw [h] at hdays
  obtain ⟨hdate, hnumber⟩ := civilDate_spec h
  exact ⟨by simpa using hdays.1, by simpa using Int.le_of_lt_add_one hdays.2, hdate, hnumber⟩

theorem isValid_ofMillis (ht : FourDigitYear t) : (ofMillis t).IsValid := by
  obtain ⟨ofDay, hofDay, hlt, -⟩ := toNat_ofDay t
  rcases hdate : civilDate (t / millisPerDay) with ⟨year, month, day⟩
  obtain ⟨hy0, hy1, ⟨hm1, hm12, hd1, hd⟩, -⟩ := civilDate_fourDigitYear ht hdate
  have hd31 := hd.trans (monthLength_le year month)
  simp only [ofMillis, hdate, hofDay]
  exact ⟨by simp only; omega, by simp only; omega, by simp only; omega, .inl (by simp only; omega),
    by simp only; omega, by simp only; omega, isDigit_of_mem_padded⟩

theorem toInstant_ofMillis (ht : FourDigitYear t) : (ofMillis t).toInstant = ⟨t, []⟩ := by
  obtain ⟨ofDay, hofDay, hlt, heq⟩ := toNat_ofDay t
  rcases hdate : civilDate (t / millisPerDay) with ⟨year, month, day⟩
  obtain ⟨hy0, -, hvalid, hnumber⟩ := civilDate_fourDigitYear ht hdate
  have hm := hvalid.one_le_month
  have hd := hvalid.one_le_day
  simp only [ofMillis, hdate, hofDay, toInstant, DateTime.ofDay]
  have hbelow : (padded 3 (ofDay % 1000)).drop 3 = [] :=
    List.drop_of_length_le (length_padded (by decide) (by omega)).le
  rw [millisOfFraction_padded (by omega), Int.toNat_of_nonneg hy0, Int.toNat_of_nonneg (by omega),
    Int.toNat_of_nonneg (by omega), hnumber, hbelow]
  congr 1
  omega

theorem text_ofMillis (ht : FourDigitYear t) : (ofMillis t).text 0x54 [0x5A] = format t := by
  obtain ⟨ofDay, hofDay, hlt, -⟩ := toNat_ofDay t
  rcases hdate : civilDate (t / millisPerDay) with ⟨year, month, day⟩
  obtain ⟨hy0, hy1, -⟩ := civilDate_fourDigitYear ht hdate
  have hpointed : Numeral.pointed (padded 3 (ofDay % 1000)) = dot :: padded 3 (ofDay % 1000) :=
    if_neg (by simp [padded_ne_nil])
  have hyear : formatYear year = padded 4 year.toNat := if_pos (by simp [hy0, hy1])
  have hmarks : Text.ofString "-" = [minus] ∧ Text.ofString "T" = [0x54] ∧
      Text.ofString ":" = [colon] ∧ Text.ofString "." = [dot] ∧ Text.ofString "Z" = [0x5A] := by
    decide
  simp [ofMillis, hdate, hofDay, format, text, date, time, hyear, hpointed, hmarks]

theorem writes_format (ht : FourDigitYear t) : (ofMillis t).Writes (format t) := by
  refine ⟨isValid_ofMillis ht, [], 0x54, [0x5A], [], by simp, by simp, .inr ⟨rfl, by decide⟩,
    .universal (.inr ⟨rfl, by decide⟩), ?_⟩
  rw [text_ofMillis ht, List.nil_append, List.append_nil]

theorem below_eq_nil_iff (d : DateTime) :
    d.toInstant.below = [] ↔ ∀ c ∈ d.fraction.drop 3, c = zero := by
  rw [toInstant, List.reverse_eq_nil_iff, List.dropWhile_eq_nil_iff]
  simp

end DateTime

namespace Instant

theorem FourDigitYear.natAbs_lt (ht : FourDigitYear t) : t.natAbs < 253402300800000 := by
  have h0 : firstDay 0 = -719528 := by rw [firstDay_eq]; decide
  have h1 : firstDay 10000 = 2932897 := by rw [firstDay_eq]; decide
  obtain ⟨hle, hlt⟩ := ht
  rw [h0, millisPerDay] at hle
  rw [h1, millisPerDay] at hlt
  omega

theorem exists_number (ht : FourDigitYear t) : ∃ x : Number, x.value = t := by
  have hlt := ht.natAbs_lt
  exact ⟨⟨t, t, 0, by omega, by decide, by decide, by simp⟩, rfl⟩

theorem formatNumber_eq_ok (ht : FourDigitYear t) {x : Number} (hx : x.value = t) :
    formatNumber x = .ok (format t) := by
  have hlt := ht.natAbs_lt
  have hrange : ¬ (x.value < -maxMillis || maxMillis < x.value) := by
    rw [hx, maxMillis]
    simp only [Bool.or_eq_true, decide_eq_true_eq, ← Int.cast_neg, Int.cast_lt]
    omega
  rw [formatNumber, if_neg hrange, hx, Rat.num_intCast, Rat.den_intCast, Nat.cast_one, Int.tdiv_one]

/-- Writing an instant and reading the text gives the instant back. -/
theorem read?_format (ht : FourDigitYear t) : read? (format t) = some ⟨t, []⟩ :=
  read?_eq_some_iff.mpr ⟨_, DateTime.writes_format ht, (DateTime.toInstant_ofMillis ht).symm⟩

theorem compareText_nil (s : Text) :
    compareText [] s = .eq ∧ s = [] ∨ compareText [] s = .lt ∧ s ≠ [] := by
  cases s with
  | nil => exact .inl ⟨rfl, rfl⟩
  | cons c s => exact .inr ⟨if_pos (List.nil_lt_cons c s), List.cons_ne_nil c s⟩

/-- Among the texts that are read as one millisecond, the digits below it decide. -/
theorem compareTexts?_format (ht : FourDigitYear t) {d : DateTime} {s : Text} (hd : d.Writes s)
    (hs : (read? s).map millis = some t) :
    compareTexts? (format t) s = some (compareText [] d.toInstant.below) := by
  have hread := read?_eq_some_iff.mpr ⟨d, hd, rfl⟩
  have hmillis : d.toInstant.millis = t := by simpa [hread] using hs
  rw [compareTexts?, read?_format ht, hread]
  simp [compare, hmillis]

/-- Writing a date and reading it is the identity, for every millisecond of the years 0 to 9999. The
text that is written comes before all texts that are read as the same millisecond, but is equal to
those whose digits below the millisecond are zeros. -/
theorem formatNumber_read (ht : FourDigitYear t) : ∃ x : Number, x.value = t ∧
    ∃ s, formatNumber x = .ok s ∧ (read? s).map millis = some t ∧
      ∀ u, (read? u).map millis = some t → (∃ d : DateTime, d.Writes u) ∧
        ∀ d : DateTime, d.Writes u → ∃ o, compareTexts? s u = some o ∧ (o = .eq ∨ o = .lt) ∧
          (o = .eq ↔ ∀ c ∈ d.fraction.drop 3, c = zero) := by
  obtain ⟨x, hx⟩ := exists_number ht
  refine ⟨x, hx, format t, formatNumber_eq_ok ht hx, by rw [read?_format ht]; rfl,
    fun u hu => ⟨?_, fun d hd => ⟨_, compareTexts?_format ht hd hu, ?_⟩⟩⟩
  · rw [← isSome_read?_iff, ← Option.isSome_map (f := millis), hu]
    rfl
  · rw [← d.below_eq_nil_iff]
    rcases compareText_nil d.toInstant.below with ⟨ho, hnil⟩ | ⟨ho, hne⟩ <;> rw [ho]
    · exact ⟨.inl rfl, fun _ => hnil, fun _ => rfl⟩
    · exact ⟨.inr rfl, fun h => absurd h (by decide), fun h => absurd h hne⟩

/-- The last millisecond before 1970, and a text with further digits. -/
theorem formatNumber_read_before1970 : FourDigitYear (-1) ∧
    ∃ x : Number, x.value = (-1 : Int) ∧ formatNumber x = .ok ("1969-12-31T23:59:59.999Z" : String) ∧
      ∃ d : DateTime, d.Writes ("1970-01-01T00:59:59.99900001+01:00" : String) ∧
        ¬ ∀ c ∈ d.fraction.drop 3, c = zero := by
  have ht : FourDigitYear (-1) := ⟨by rw [firstDay_eq]; decide, by rw [firstDay_eq]; decide⟩
  obtain ⟨x, hx, s, hs, -, hu⟩ := formatNumber_read ht
  have hformat : format (-1) = ("1969-12-31T23:59:59.999Z" : String) := by decide +kernel
  obtain rfl : s = format (-1) := Except.ok.inj (hs.symm.trans (formatNumber_eq_ok ht hx))
  obtain ⟨⟨d, hd⟩, horder⟩ := hu ("1970-01-01T00:59:59.99900001+01:00" : String) (by decide +kernel)
  obtain ⟨o, ho, -, hzeros⟩ := horder d hd
  have hlt : compareTexts? (format (-1)) ("1970-01-01T00:59:59.99900001+01:00" : String) =
      some .lt := by decide +kernel
  refine ⟨ht, x, hx, hformat ▸ hs, d, hd, ?_⟩
  rw [← hzeros, ← Option.some.inj (ho.symm.trans hlt).symm]
  decide

end Instant

end Scim

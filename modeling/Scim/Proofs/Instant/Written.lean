import Scim.Instant
import Scim.Proofs.Number.Layout
import Scim.Proofs.Number.Numeral
import Scim.Proofs.Options.Unit
import Scim.Proofs.Text.Blank

/-!
# What dateTimes are read from

A `DateTime` is kept by the parts that are written. `DateTime.Writes d t`: the text `t` writes `d`,
with the letters in either case, with or without a colon in the zone, and with white space around it.
Reading finds an instant exactly in the texts that write a valid dateTime, and it is the instant of
that dateTime (`read?_eq_some_iff`).
-/

namespace Scim

open CodeUnit

namespace Instant

variable {w n : Nat} {t r f : Text} {c d : CodeUnit}

theorem not_isBlank_of_isDigit (h : c.isDigit) : ¬ c.isBlank :=
  not_isBlank_of_isLetterOrNumber (isLetterOrNumber_of_isDigit h)

/-! ### Numbers of a fixed width -/

theorem decimalValue_padded (w n : Nat) : decimalValue (padded w n) = n := by
  rw [padded, decimalValue_zeros_append, decimalValue_decimalDigits]

theorem isDigit_of_mem_padded : ∀ c ∈ padded w n, c.isDigit := by
  intro c hc
  rcases List.mem_append.mp hc with hc | hc
  · rw [(List.mem_replicate.mp hc).2]; rfl
  · exact isDigit_of_mem_decimalDigits c hc

theorem length_padded (hw : 0 < w) (h : n < 10 ^ w) : (padded w n).length = w := by
  have := length_decimalDigits_le hw h
  rw [padded, List.length_append, List.length_replicate]
  omega

theorem padded_ne_nil (w n : Nat) : padded w n ≠ [] := by
  have := length_decimalDigits_pos n
  exact List.append_ne_nil_of_right_ne_nil _ (List.length_pos_iff.mp this)

theorem takeDigits?_eq_some_iff (hw : 0 < w) :
    takeDigits? w t = some (n, r) ↔ n < 10 ^ w ∧ t = padded w n ++ r := by
  unfold takeDigits?
  constructor
  · intro h
    split_ifs at h with hdigits
    simp only [Bool.and_eq_true, decide_eq_true_eq, List.all_eq_true] at hdigits
    obtain ⟨hlen, hdigits⟩ := hdigits
    obtain ⟨rfl, rfl⟩ := by simpa using h
    have hlt := decimalValue_lt hdigits
    rw [hlen] at hlt
    refine ⟨hlt, ?_⟩
    rw [eq_of_decimalValue isDigit_of_mem_padded hdigits ((length_padded hw hlt).trans hlen.symm)
      (decimalValue_padded ..), List.take_append_drop]
  · rintro ⟨hlt, rfl⟩
    have hlen := length_padded hw hlt
    rw [List.take_left' hlen, List.drop_left' hlen, if_pos, decimalValue_padded]
    simp only [Bool.and_eq_true, decide_eq_true_eq, List.all_eq_true]
    exact ⟨hlen, isDigit_of_mem_padded⟩

theorem takeDigits?_padded (hw : 0 < w) (h : n < 10 ^ w) (r : Text) :
    takeDigits? w (padded w n ++ r) = some (n, r) := (takeDigits?_eq_some_iff hw).mpr ⟨h, rfl⟩

/-! ### Letters and marks -/

/-- `d` is `c`; for a small letter `c`, it may also be the capital. -/
def IsLetter (c d : CodeUnit) : Prop := d = c ∨ d = c - 0x20 ∧ 0x61 ≤ c

instance (c d : CodeUnit) : Decidable (IsLetter c d) := inferInstanceAs (Decidable (_ ∨ _))

theorem isLetter_mark (h : c < 0x61) : IsLetter c d ↔ d = c := by
  unfold IsLetter
  constructor
  · rintro (rfl | ⟨-, h'⟩)
    · rfl
    · grind
  · exact .inl

theorem takeLetter?_eq_some_iff : takeLetter? c t = some r ↔ ∃ d, IsLetter c d ∧ t = d :: r := by
  cases t with
  | nil => simp [takeLetter?]
  | cons d rest =>
    have hcapital : d + 0x20 = c ↔ d = c - 0x20 := by grind
    simp only [takeLetter?, IsLetter, List.cons.injEq, Option.ite_none_right_eq_some,
      Option.some.injEq, Bool.or_eq_true, Bool.and_eq_true, decide_eq_true_eq, hcapital]
    constructor
    · rintro ⟨h, rfl⟩
      exact ⟨d, h, rfl, rfl⟩
    · rintro ⟨_, h, rfl, rfl⟩
      exact ⟨h, rfl⟩

theorem takeLetter?_mark (h : c < 0x61) : takeLetter? c t = some r ↔ t = c :: r := by
  rw [takeLetter?_eq_some_iff]
  simp only [isLetter_mark h, exists_eq_left]

theorem takeLetter?_mark_of_head (h : c < 0x61) (hd : t.head? ≠ some c) : takeLetter? c t = none := by
  rw [Option.eq_none_iff_forall_ne_some]
  intro u hu
  rw [(takeLetter?_mark h).mp hu] at hd
  exact hd rfl

/-- A letter and a number behind it. -/
theorem takeAfter_eq_some_iff (hw : 0 < w) : (takeLetter? c t).bind (takeDigits? w) = some (n, r) ↔
    n < 10 ^ w ∧ ∃ d, IsLetter c d ∧ t = d :: (padded w n ++ r) := by
  simp only [Option.bind_eq_some_iff, takeLetter?_eq_some_iff, takeDigits?_eq_some_iff hw]
  constructor
  · rintro ⟨u, ⟨d, hd, rfl⟩, hn, rfl⟩
    exact ⟨hn, d, hd, rfl⟩
  · rintro ⟨hn, d, hd, rfl⟩
    exact ⟨_, ⟨d, hd, rfl⟩, hn, rfl⟩

theorem takeAfter_mark (hw : 0 < w) (hc : c < 0x61) :
    (takeLetter? c t).bind (takeDigits? w) = some (n, r) ↔
      n < 10 ^ w ∧ t = c :: (padded w n ++ r) := by
  rw [takeAfter_eq_some_iff hw]
  simp only [isLetter_mark hc, exists_eq_left]

/-! ### Zones -/

def IsSign (sign : Int) (c : CodeUnit) : Prop := sign = 1 ∧ c = plus ∨ sign = -1 ∧ c = minus

/-- The texts of a zone that is `ahead` minutes ahead of universal time. -/
inductive ZoneText : (ahead : Int) → Text → Prop
  | universal {c : CodeUnit} (h : IsLetter 0x7A c) : ZoneText 0 [c]
  | offset {sign : Int} {c : CodeUnit} {hours minutes : Nat} {mark : Text} (hsign : IsSign sign c)
      (hh : hours ≤ 23) (hm : minutes ≤ 59) (hmark : mark = [] ∨ mark = [colon]) :
      ZoneText (sign * (hours * 60 + minutes : Nat))
        (c :: (padded 2 hours ++ (mark ++ padded 2 minutes)))

theorem takeSign?_eq_some_iff {sign : Int} :
    takeSign? t = some (sign, r) ↔ ∃ c, IsSign sign c ∧ t = c :: r := by
  cases t with
  | nil => simp [takeSign?]
  | cons c rest =>
    simp only [takeSign?, IsSign]
    constructor
    · intro h
      split_ifs at h with hp hm <;> cases h
      · exact ⟨_, .inl ⟨rfl, rfl⟩, hp ▸ rfl⟩
      · exact ⟨_, .inr ⟨rfl, rfl⟩, hm ▸ rfl⟩
    · rintro ⟨_, ⟨rfl, rfl⟩ | ⟨rfl, rfl⟩, h⟩ <;> cases h <;> rfl

/-- A colon may stand before the minutes of a zone. -/
theorem takeDigits?_getD_eq_some_iff : takeDigits? 2 ((takeLetter? colon t).getD t) = some (n, r) ↔
    n < 100 ∧ ∃ mark, (mark = [] ∨ mark = [colon]) ∧ t = mark ++ (padded 2 n ++ r) := by
  constructor
  · intro h
    cases hc : takeLetter? colon t with
    | none =>
      rw [hc, Option.getD_none, takeDigits?_eq_some_iff (by decide)] at h
      exact ⟨h.1, [], .inl rfl, h.2⟩
    | some u =>
      rw [hc, Option.getD_some, takeDigits?_eq_some_iff (by decide)] at h
      refine ⟨h.1, [colon], .inr rfl, ?_⟩
      rw [(takeLetter?_mark (by decide)).mp hc, h.2]
      rfl
  · rintro ⟨hn, mark, rfl | rfl, rfl⟩
    · have hhead : (padded 2 n ++ r).head? ≠ some colon := by
        intro h
        rw [List.head?_append_of_ne_nil _ (padded_ne_nil 2 n)] at h
        exact absurd (isDigit_of_mem_padded colon (List.mem_of_mem_head? h)) (by decide)
      rw [List.nil_append, takeLetter?_mark_of_head (by decide) hhead, Option.getD_none]
      exact takeDigits?_padded (by decide) hn r
    · have hsome : takeLetter? colon ([colon] ++ (padded 2 n ++ r)) = some (padded 2 n ++ r) :=
        (takeLetter?_mark (by decide)).mpr rfl
      rw [hsome, Option.getD_some]
      exact takeDigits?_padded (by decide) hn r

theorem readZone?_eq_some_iff {ahead : Int} : readZone? t = some ahead ↔ ZoneText ahead t := by
  have hz : takeLetter? 0x7A t = some [] ↔ ∃ c, IsLetter 0x7A c ∧ t = [c] := takeLetter?_eq_some_iff
  unfold readZone?
  constructor
  · intro h
    split_ifs at h with hu
    · obtain ⟨c, hc, rfl⟩ := hz.mp hu
      obtain rfl := Option.some.inj h
      exact .universal hc
    · simp only [Option.bind_eq_bind, Option.bind_eq_some_iff, Prod.exists] at h
      obtain ⟨sign, t1, hs, hours, t2, hh, minutes, t3, hm, h⟩ := h
      simp only [Option.ite_none_right_eq_some, Option.some.injEq, Bool.and_eq_true,
        List.isEmpty_iff, decide_eq_true_eq] at h
      obtain ⟨⟨⟨rfl, hh23⟩, hm59⟩, rfl⟩ := h
      obtain ⟨-, mark, hmark, rfl⟩ := takeDigits?_getD_eq_some_iff.mp hm
      obtain ⟨-, rfl⟩ := (takeDigits?_eq_some_iff (by decide)).mp hh
      obtain ⟨c, hsign, rfl⟩ := takeSign?_eq_some_iff.mp hs
      rw [List.append_nil]
      exact .offset hsign hh23 hm59 hmark
  · intro h
    cases h with
    | universal hc => rw [if_pos (hz.mpr ⟨_, hc, rfl⟩)]
    | @offset sign c hours minutes mark hsign hh hm hmark =>
      have hu : takeLetter? 0x7A (c :: (padded 2 hours ++ (mark ++ padded 2 minutes))) ≠ some [] := by
        intro hu
        obtain ⟨d, hd, h⟩ := hz.mp hu
        obtain rfl := (List.cons.inj h).1
        rcases hsign with ⟨-, rfl⟩ | ⟨-, rfl⟩ <;> revert hd <;> decide
      have hhours :=
        takeDigits?_padded (by decide) (by omega : hours < 10 ^ 2) (mark ++ padded 2 minutes)
      have hminutes : takeDigits? 2 ((takeLetter? colon (mark ++ padded 2 minutes)).getD
          (mark ++ padded 2 minutes)) = some (minutes, []) :=
        takeDigits?_getD_eq_some_iff.mpr ⟨by omega, mark, hmark, by rw [List.append_nil]⟩
      rw [if_neg hu, takeSign?_eq_some_iff.mpr ⟨c, hsign, rfl⟩]
      simp [hhours, hminutes, hh, hm]

/-- A zone starts with a letter or a sign. -/
theorem ZoneText.head {ahead : Int} (h : ZoneText ahead t) :
    ∃ c rest, t = c :: rest ∧ c.isDigit = false ∧ c ≠ dot := by
  cases h with
  | @universal c hc =>
    refine ⟨c, [], rfl, ?_⟩
    rcases hc with rfl | ⟨rfl, -⟩ <;> decide
  | @offset _ c _ _ _ hsign =>
    refine ⟨c, _, rfl, ?_⟩
    rcases hsign with ⟨-, rfl⟩ | ⟨-, rfl⟩ <;> decide

/-- A zone ends with a letter or a digit. -/
theorem ZoneText.last {ahead : Int} (h : ZoneText ahead t) : ∀ c ∈ t.getLast?, ¬ c.isBlank := by
  cases h with
  | universal hc =>
    rintro _ ⟨⟩
    rcases hc with rfl | ⟨rfl, -⟩ <;> decide
  | @offset _ _ hours minutes mark =>
    rw [← List.append_assoc, ← List.cons_append,
      List.getLast?_append_of_ne_nil _ (padded_ne_nil 2 minutes)]
    exact fun c hc => not_isBlank_of_isDigit (isDigit_of_mem_padded c (List.mem_of_getLast? hc))

/-! ### Fractions -/

theorem readFraction?_eq (t : Text) : readFraction? t =
    if t.head? = some dot ∧ (Numeral.scanFraction t).1 = [] then none
    else some (Numeral.scanFraction t) := by
  cases t with
  | nil => rfl
  | cons c rest =>
    by_cases hc : c = dot
    · subst hc
      have hdot : takeLetter? dot (dot :: rest) = some rest := (takeLetter?_mark (by decide)).mpr rfl
      simp only [readFraction?, hdot, Numeral.scanFraction]
      by_cases hnil : rest.takeWhile isDigit = [] <;> simp [hnil]
    · have hdot := takeLetter?_mark_of_head (by decide : dot < 0x61) (by simpa using hc :
        (c :: rest).head? ≠ some dot)
      simp [readFraction?, hdot, Numeral.scanFraction, hc]

theorem readFraction?_sound (h : readFraction? t = some (f, r)) :
    t = Numeral.pointed f ++ r ∧ ∀ c ∈ f, c.isDigit := by
  rw [readFraction?_eq] at h
  split_ifs at h
  have hsound := Numeral.scanFraction_sound t
  rwa [Option.some.inj h] at hsound

theorem readFraction?_append (hf : ∀ c ∈ f, c.isDigit) (hr : NoDigit r) (hdot : r.head? ≠ some dot) :
    readFraction? (Numeral.pointed f ++ r) = some (f, r) := by
  rw [readFraction?_eq, Numeral.scanFraction_append hf hr hdot, if_neg]
  rintro ⟨hhead, rfl⟩
  exact hdot hhead

/-- The milliseconds of a fraction are its first three digits, filled up with zeros. -/
theorem take_zeros (f : Text) :
    (f ++ [zero, zero, zero]).take 3 = f.take 3 ++ List.replicate (3 - f.length) zero := by
  rw [List.take_append, show ([zero, zero, zero] : Text) = List.replicate 3 zero from rfl,
    List.take_replicate, Nat.min_eq_left (by omega)]

theorem isDigit_of_mem_take_zeros (hf : ∀ c ∈ f, c.isDigit) :
    ∀ c ∈ (f ++ [zero, zero, zero]).take 3, c.isDigit := by
  rw [take_zeros]
  intro c hc
  rcases List.mem_append.mp hc with hc | hc
  · exact hf c (List.mem_of_mem_take hc)
  · rw [(List.mem_replicate.mp hc).2]; rfl

theorem length_take_zeros (f : Text) : ((f ++ [zero, zero, zero]).take 3).length = 3 := by simp

theorem millisOfFraction_eq_zero_iff (hf : ∀ c ∈ f, c.isDigit) :
    millisOfFraction f = 0 ↔ ∀ c ∈ f.take 3, c = zero := by
  have hzeros : ∀ c ∈ List.replicate 3 zero, c.isDigit := by
    intro c hc
    rw [(List.mem_replicate.mp hc).2]; rfl
  constructor
  · intro h c hc
    have heq := eq_of_decimalValue (isDigit_of_mem_take_zeros hf) hzeros (length_take_zeros f) h
    have hmem : c ∈ (f ++ [zero, zero, zero]).take 3 := by
      rw [take_zeros]
      exact List.mem_append_left _ hc
    rw [heq] at hmem
    exact (List.mem_replicate.mp hmem).2
  · intro h
    have heq : (f ++ [zero, zero, zero]).take 3 = List.replicate 3 zero := by
      rw [List.eq_replicate_iff, take_zeros]
      refine ⟨by simp; omega, fun c hc => ?_⟩
      rcases List.mem_append.mp hc with hc | hc
      · exact h c hc
      · exact (List.mem_replicate.mp hc).2
    rw [millisOfFraction, heq, decimalValue_zeros]

end Instant

open Instant

/-! ### DateTimes -/

/-- A dateTime, by the parts that are written. -/
structure DateTime where
  year : Nat
  month : Nat
  day : Nat
  hour : Nat
  minute : Nat
  second : Nat
  /-- The digits of the fraction of a second, as many as are written. -/
  fraction : Text
  /-- The minutes by which the zone is ahead of universal time. -/
  ahead : Int

namespace DateTime

variable {d : DateTime} {t lead trail : Text}

/-- The parts are in range. A day up to 31 is taken in every month, and hour 24 stands for the end of
a day: no minutes, seconds or milliseconds follow it, while digits below them may. -/
structure IsValid (d : DateTime) : Prop where
  year : d.year ≤ 9999
  month : 1 ≤ d.month ∧ d.month ≤ 12
  day : 1 ≤ d.day ∧ d.day ≤ 31
  hour : d.hour ≤ 23 ∨ d.hour = 24 ∧ d.minute = 0 ∧ d.second = 0 ∧ ∀ c ∈ d.fraction.take 3, c = zero
  minute : d.minute ≤ 59
  second : d.second ≤ 59
  fraction : ∀ c ∈ d.fraction, c.isDigit

def date (d : DateTime) : Text :=
  padded 4 d.year ++ minus :: (padded 2 d.month ++ minus :: padded 2 d.day)

def time (d : DateTime) : Text :=
  padded 2 d.hour ++ colon :: (padded 2 d.minute ++ colon :: (padded 2 d.second ++
    Numeral.pointed d.fraction))

/-- The text of a dateTime with a letter before the time of day and a text for the zone. -/
def text (d : DateTime) (letter : CodeUnit) (zone : Text) : Text :=
  d.date ++ letter :: (d.time ++ zone)

/-- `t` writes the valid dateTime `d`. -/
def Writes (d : DateTime) (t : Text) : Prop :=
  d.IsValid ∧ ∃ lead letter zone trail, (∀ c ∈ lead, c.isBlank) ∧ (∀ c ∈ trail, c.isBlank) ∧
    IsLetter 0x74 letter ∧ ZoneText d.ahead zone ∧ t = lead ++ (d.text letter zone ++ trail)

/-- The milliseconds from the start of the day. -/
def ofDay (d : DateTime) : Int :=
  ((d.hour * 60 + d.minute) * 60 + d.second) * 1000 + millisOfFraction d.fraction

/-- The instant of a dateTime, as it is read. -/
def toInstant (d : DateTime) : Instant where
  millis := dayNumber d.year d.month d.day * millisPerDay + d.ofDay - d.ahead * 60000
  below := ((d.fraction.drop 3).reverse.dropWhile (· == zero)).reverse

theorem ofDay_eq_millisPerDay_iff (hh : 24 ≤ d.hour) (hf : ∀ c ∈ d.fraction, c.isDigit) :
    d.ofDay = millisPerDay ↔
      d.hour = 24 ∧ d.minute = 0 ∧ d.second = 0 ∧ ∀ c ∈ d.fraction.take 3, c = zero := by
  rw [← millisOfFraction_eq_zero_iff hf, ofDay, millisPerDay]
  omega

theorem trim_text (d : DateTime) {letter : CodeUnit} {zone : Text} (hzone : ZoneText d.ahead zone) :
    (d.text letter zone).trim = d.text letter zone := by
  obtain ⟨z, rest, hz, -⟩ := hzone.head
  have hne : zone ≠ [] := by rw [hz]; exact List.cons_ne_nil _ _
  refine Text.trim_eq_self (fun c hc => ?_) ?_
  · rw [text, date, List.append_assoc, List.head?_append_of_ne_nil _ (padded_ne_nil 4 d.year)] at hc
    exact not_isBlank_of_isDigit (isDigit_of_mem_padded c (List.mem_of_mem_head? hc))
  · rw [text, ← List.cons_append, ← List.append_assoc, List.getLast?_append_of_ne_nil _ hne]
    exact hzone.last

end DateTime

/-! ### Reading -/

namespace Instant

variable {t : Text} {i : Instant}

theorem exists_of_readTrimmed? (h : readTrimmed? t = some i) :
    ∃ d : DateTime, d.IsValid ∧ i = d.toInstant ∧
      ∃ letter zone, IsLetter 0x74 letter ∧ ZoneText d.ahead zone ∧ t = d.text letter zone := by
  unfold readTrimmed? at h
  simp only [Option.bind_eq_bind, Option.bind_eq_some_iff, Prod.exists] at h
  obtain ⟨year, t1, hy, month, t2, hmo, day, t3, hd, hour, t4, hh, minute, t5, hmi, second, t6, hs,
    fraction, zone, hf, ahead, hz, h⟩ := h
  have hmark {c : CodeUnit} {n : Nat} {t r : Text} (hc : c < 0x61)
      (h : ∃ u, takeLetter? c t = some u ∧ takeDigits? 2 u = some (n, r)) :
      t = c :: (padded 2 n ++ r) :=
    ((takeAfter_mark (by decide) hc).mp (Option.bind_eq_some_iff.mpr h)).2
  obtain ⟨hyear, rfl⟩ := (takeDigits?_eq_some_iff (by decide)).mp hy
  obtain rfl := hmark (by decide) hmo
  obtain rfl := hmark (by decide) hd
  obtain ⟨-, letter, hletter, rfl⟩ :=
    (takeAfter_eq_some_iff (by decide)).mp (Option.bind_eq_some_iff.mpr hh)
  obtain rfl := hmark (by decide) hmi
  obtain rfl := hmark (by decide) hs
  obtain ⟨rfl, hdigits⟩ := readFraction?_sound hf
  simp only [Option.ite_none_right_eq_some, Option.some.injEq, Bool.and_eq_true, Bool.or_eq_true,
    decide_eq_true_eq] at h
  obtain ⟨⟨⟨⟨⟨⟨⟨hm1, hm12⟩, hd1⟩, hd31⟩, hmi59⟩, hs59⟩, hhour⟩, rfl⟩ := h
  let d : DateTime := ⟨year, month, day, hour, minute, second, fraction, ahead⟩
  have hvalid : d.IsValid := by
    refine ⟨Nat.le_of_lt_succ hyear, ⟨hm1, hm12⟩, ⟨hd1, hd31⟩, ?_, hmi59, hs59, hdigits⟩
    rcases Nat.lt_or_ge hour 24 with hlt | hge
    · exact .inl (Nat.le_of_lt_succ hlt)
    · exact .inr ((d.ofDay_eq_millisPerDay_iff hge hdigits).mp (hhour.resolve_left (by omega)))
  refine ⟨d, hvalid, rfl, letter, zone, hletter, readZone?_eq_some_iff.mp hz, ?_⟩
  simp [DateTime.text, DateTime.date, DateTime.time, d]

theorem readTrimmed?_text {d : DateTime} (hd : d.IsValid) {letter : CodeUnit} {zone : Text}
    (hletter : IsLetter 0x74 letter) (hzone : ZoneText d.ahead zone) :
    readTrimmed? (d.text letter zone) = some d.toInstant := by
  have hafter {c e : CodeUnit} {n : Nat} {r : Text} (he : IsLetter c e) (hn : n < 100) :
      (takeLetter? c (e :: (padded 2 n ++ r))).bind (takeDigits? 2) = some (n, r) :=
    (takeAfter_eq_some_iff (by decide)).mpr ⟨hn, e, he, rfl⟩
  obtain ⟨z, rest, hzt, hzd, hzdot⟩ := hzone.head
  have hfraction :
      readFraction? (Numeral.pointed d.fraction ++ zone) = some (d.fraction, zone) := by
    refine readFraction?_append hd.fraction ?_ ?_ <;> rw [hzt]
    · rintro _ ⟨⟩; exact hzd
    · simpa using hzdot
  have hyear :=
    takeDigits?_padded (by decide : 0 < 4) (Nat.lt_succ_of_le hd.year : d.year < 10 ^ 4)
  have hmonth := hd.month
  have hday := hd.day
  have hminute := hd.minute
  have hsecond := hd.second
  have hhour : d.hour ≤ 24 := by rcases hd.hour with h | ⟨h, -⟩ <;> omega
  simp only [readTrimmed?, Option.bind_eq_bind, DateTime.text, DateTime.date, DateTime.time,
    List.append_assoc, List.cons_append]
  rw [hyear, Option.bind_some, hafter (.inl rfl) (by omega), Option.bind_some,
    hafter (.inl rfl) (by omega), Option.bind_some, hafter hletter (by omega), Option.bind_some,
    hafter (.inl rfl) (by omega), Option.bind_some, hafter (.inl rfl) (by omega), Option.bind_some,
    hfraction, Option.bind_some, readZone?_eq_some_iff.mpr hzone, Option.bind_some, if_pos]
  · rfl
  · simp only [Bool.and_eq_true, Bool.or_eq_true, decide_eq_true_eq]
    refine ⟨⟨⟨⟨⟨⟨hmonth.1, hmonth.2⟩, hday.1⟩, hday.2⟩, hminute⟩, hsecond⟩, ?_⟩
    rcases hd.hour with h | h
    · exact .inl h
    · exact .inr ((d.ofDay_eq_millisPerDay_iff (by omega) hd.fraction).mpr h)

/-- Reading finds an instant in the texts of dateTimes, and only there. -/
theorem read?_eq_some_iff : read? t = some i ↔ ∃ d : DateTime, d.Writes t ∧ i = d.toInstant := by
  rw [read?]
  constructor
  · intro h
    obtain ⟨d, hd, rfl, letter, zone, hletter, hzone, ht⟩ := exists_of_readTrimmed? h
    obtain ⟨trail, htrail, heq⟩ := t.exists_blank_trail
    refine ⟨d, ⟨hd, _, letter, zone, trail, fun c hc => ?_, htrail, hletter, hzone, ht ▸ heq⟩, rfl⟩
    exact List.all_eq_true.mp List.all_takeWhile c hc
  · rintro ⟨d, ⟨hd, lead, letter, zone, trail, hlead, htrail, hletter, hzone, rfl⟩, rfl⟩
    rw [Text.trim_around hlead htrail, d.trim_text hzone]
    exact readTrimmed?_text hd hletter hzone

theorem isSome_read?_iff : (read? t).isSome ↔ ∃ d : DateTime, d.Writes t := by
  rw [Option.isSome_iff_exists]
  simp only [read?_eq_some_iff]
  constructor
  · rintro ⟨_, d, hd, -⟩
    exact ⟨d, hd⟩
  · rintro ⟨d, hd⟩
    exact ⟨_, d, hd, rfl⟩

end Instant

end Scim

import Scim.Proofs.Instant.Written
import Scim.Proofs.Text.Lowering

/-!
# The letter case of dateTimes

A dateTime is written in ASCII, up to white space around it, and without a k. So the texts that have
its lower case differ from it in the case of ASCII letters only, and write the same dateTime
(`DateTime.Writes.recased`): reading does not tell texts with one lower case apart
(`Instant.read?_eq_of_lower_eq`).
-/

namespace Scim

open CodeUnit

namespace Instant

variable {t t' : Text} {c d : CodeUnit} {w n : Nat} {ahead : Int}

theorem isLetter_asciiLower (hc : c = 0x74 ∨ c = 0x7A) : IsLetter c d ↔ d.asciiLower = c := by
  unfold IsLetter asciiLower
  rcases hc with rfl | rfl <;> grind

theorem isLetter_of_recased (hc : c = 0x74 ∨ c = 0x7A) {e : CodeUnit} (h : IsLetter c d)
    (hde : d.asciiLower = e.asciiLower) : IsLetter c e := by
  rw [isLetter_asciiLower hc] at h ⊢
  rw [← hde, h]

/-- A unit of a dateTime that is no letter. -/
def IsMark (c : CodeUnit) : Prop := c.isDigit ∨ c = plus ∨ c = minus ∨ c = colon ∨ c = dot

theorem IsMark.ascii (h : IsMark c) : c < 0x40 := by
  rcases h with h | rfl | rfl | rfl | rfl
  · simp only [isDigit, Bool.and_eq_true, decide_eq_true_eq] at h
    exact UInt16.lt_of_le_of_lt h.2 (by decide)
  all_goals decide

theorem IsMark.not_letter (h : IsMark c) : c.isAsciiLetter = false := by
  have hlt : c.toNat < 0x40 := h.ascii
  rw [← Bool.not_eq_true, isAsciiLetter_iff]
  omega

theorem isMark_padded : ∀ c ∈ padded w n, IsMark c := fun c hc => .inl (isDigit_of_mem_padded c hc)

theorem isMark_offset {sign : Int} {mark : Text} {hours minutes : Nat} (hsign : IsSign sign c)
    (hmark : mark = [] ∨ mark = [colon]) :
    ∀ d ∈ c :: (padded 2 hours ++ (mark ++ padded 2 minutes)), IsMark d := by
  simp only [List.forall_mem_cons, List.forall_mem_append]
  refine ⟨?_, isMark_padded, ?_, isMark_padded⟩
  · rcases hsign with ⟨-, rfl⟩ | ⟨-, rfl⟩
    · exact .inr (.inl rfl)
    · exact .inr (.inr (.inl rfl))
  · rcases hmark with rfl | rfl
    · simp
    · exact List.forall_mem_singleton.mpr (.inr (.inr (.inr (.inl rfl))))

theorem ZoneText.units (h : ZoneText ahead t) : ∀ c ∈ t, IsMark c ∨ IsLetter 0x7A c := by
  cases h with
  | universal hc => exact List.forall_mem_singleton.mpr (.inr hc)
  | offset hsign _ _ hmark => exact fun c hc => .inl (isMark_offset hsign hmark c hc)

theorem ZoneText.recased (h : ZoneText ahead t) (ht : Text.Recased t t') : ZoneText ahead t' := by
  cases h with
  | universal hc =>
    obtain ⟨d, r, hcd, hr, rfl⟩ := List.forall₂_cons_left_iff.mp ht
    obtain rfl := List.forall₂_nil_left_iff.mp hr
    exact .universal (isLetter_of_recased (.inr rfl) hc hcd)
  | offset hsign hh hm hmark =>
    rw [← ht.eq_of_not_letters fun c hc => (isMark_offset hsign hmark c hc).not_letter]
    exact .offset hsign hh hm hmark

end Instant

namespace DateTime

open Instant

variable {d : DateTime} {a b : Text}

theorem isMark_date (d : DateTime) : ∀ c ∈ d.date, IsMark c := by
  simp only [date, List.forall_mem_append, List.forall_mem_cons]
  exact ⟨isMark_padded, .inr (.inr (.inl rfl)), isMark_padded, .inr (.inr (.inl rfl)), isMark_padded⟩

theorem IsValid.isMark_time (hd : d.IsValid) : ∀ c ∈ d.time, IsMark c := by
  have hcolon : IsMark colon := .inr (.inr (.inr (.inl rfl)))
  simp only [time, List.forall_mem_append, List.forall_mem_cons]
  refine ⟨isMark_padded, hcolon, isMark_padded, hcolon, isMark_padded, fun c hc => ?_⟩
  unfold Numeral.pointed at hc
  split_ifs at hc
  · cases hc
  · rcases List.mem_cons.mp hc with rfl | hc
    · exact .inr (.inr (.inr (.inr rfl)))
    · exact .inl (hd.fraction c hc)

/-- A dateTime is written with blanks, marks and two letters. -/
theorem Writes.units (h : d.Writes a) :
    ∀ c ∈ a, c.isBlank ∨ IsMark c ∨ IsLetter 0x74 c ∨ IsLetter 0x7A c := by
  obtain ⟨hd, lead, letter, zone, trail, hlead, htrail, hletter, hzone, rfl⟩ := h
  simp only [text, List.forall_mem_append, List.forall_mem_cons]
  refine ⟨fun c hc => .inl (hlead c hc), ⟨fun c hc => .inr (.inl (d.isMark_date c hc)),
    .inr (.inr (.inl hletter)), fun c hc => .inr (.inl (hd.isMark_time c hc)), fun c hc => ?_⟩,
    fun c hc => .inl (htrail c hc)⟩
  exact .inr ((hzone.units c hc).imp_right .inr)

/-- The case of letters is not part of a dateTime. -/
theorem Writes.recased (h : d.Writes a) (hab : Text.Recased a b) : d.Writes b := by
  obtain ⟨hd, lead, letter, zone, trail, hlead, htrail, hletter, hzone, rfl⟩ := h
  obtain ⟨lead', rest, rfl, hl, hrest⟩ := hab.append_inv
  obtain ⟨text', trail', rfl, ht, htr⟩ := hrest.append_inv
  obtain ⟨date', rest, rfl, hdate, hrest⟩ := ht.append_inv
  obtain ⟨letter', _, hle, htz, rfl⟩ := List.forall₂_cons_left_iff.mp hrest
  obtain ⟨time', zone', rfl, htime, hz⟩ := Text.Recased.append_inv htz
  obtain rfl := hl.eq_of_not_letters fun c hc => not_letter_of_isBlank (hlead c hc)
  obtain rfl := htr.eq_of_not_letters fun c hc => not_letter_of_isBlank (htrail c hc)
  obtain rfl := hdate.eq_of_not_letters fun c hc => (d.isMark_date c hc).not_letter
  obtain rfl := htime.eq_of_not_letters fun c hc => (hd.isMark_time c hc).not_letter
  exact ⟨hd, lead, letter', zone', trail, hlead, htrail, isLetter_of_recased (.inl rfl) hletter hle,
    hzone.recased hz, rfl⟩

theorem Writes.of_lower_eq (h : d.Writes a) (hab : a.lower = b.lower) : d.Writes b := by
  refine h.recased (Text.recased_of_lower_eq (fun c hc => ?_) (fun c hc => ?_) hab)
  · rcases h.units c hc with hblank | hmark | hletter | hletter
    · exact .inl hblank
    · exact .inr (UInt16.lt_trans hmark.ascii (by decide : (0x40 : CodeUnit) < 0x80))
    all_goals
      rcases hletter with rfl | ⟨rfl, -⟩ <;> decide
  · rcases h.units c hc with hblank | hmark | hletter | hletter
    · exact asciiLower_ne_k (not_letter_of_isBlank hblank)
    · exact asciiLower_ne_k hmark.not_letter
    all_goals
      rcases hletter with rfl | ⟨rfl, -⟩ <;> decide

end DateTime

/-- Reading does not tell texts with one lower case apart. -/
theorem Instant.read?_eq_of_lower_eq {a b : Text} (h : a.lower = b.lower) : read? a = read? b := by
  ext i
  rw [read?_eq_some_iff, read?_eq_some_iff]
  constructor
  · rintro ⟨d, hd, rfl⟩
    exact ⟨d, hd.of_lower_eq h, rfl⟩
  · rintro ⟨d, hd, rfl⟩
    exact ⟨d, hd.of_lower_eq h.symm, rfl⟩

end Scim

import Mathlib.Data.List.Infix
import Mathlib.Tactic.Common
import Scim.Proofs.Text.LetterCase

/-!
# Lower case, unit by unit

Lowering is told unit by unit: `lowerUnit before c after` is what `c` becomes between two texts, and
`lowerBetween` puts these together (`lower_eq`). How long it is does not depend on what stands around
the unit (`length_lowerUnit`), so a part of a text keeps its place in the lowered text. Its form may
change with its surroundings in two ways only: a capital sigma is final or not, and the second half
of a surrogate pair belongs to a capital or not. `Steady before part after` says that neither happens,
and `lowerBetween_eq_lower_iff` that the part is then lowered as if it stood alone.

Blanks and units of ASCII are lowered alike everywhere, and nothing else is lowered to one of them,
a k apart. So the texts that have the lower case of such a text differ from it in the case of ASCII
letters only (`recased_of_lower_eq`).
-/

namespace Scim

open CodeUnit

namespace CodePoint

/-- A run of capitals beyond the basic plane has the first half of its pairs in common with the small
letters; a run in the basic plane has its small letters there, and none is a half. -/
def CapitalRun.Plain (r : CapitalRun) : Prop :=
  if r.first < 0x10000 then
    (r.last < 0xD800 ∨ 0xE000 ≤ r.first ∧ r.last < 0x10000) ∧
      0 ≤ (r.first : Int) + r.shift ∧ (r.last : Int) + r.shift < 0x10000
  else
    r.last < 0x110000 ∧ 0x10000 ≤ (r.first : Int) + r.shift ∧
      (r.first - 0x10000) / 0x400 = (r.last - 0x10000) / 0x400 ∧
      ((r.first : Int) + r.shift - 0x10000) / 0x400 = (r.first - 0x10000 : Int) / 0x400 ∧
      ((r.last : Int) + r.shift - 0x10000) / 0x400 = (r.first - 0x10000 : Int) / 0x400

instance (r : CapitalRun) : Decidable r.Plain := by unfold CapitalRun.Plain; infer_instance

theorem capitalRuns_plain : ∀ r ∈ capitalRuns, r.Plain := by decide +kernel

/-- Beyond ASCII a point becomes its small letter, if it has one; U+0130 becomes two points. -/
theorem lower_cases {n : Nat} (h : 0x80 ≤ n) :
    n = 0x130 ∧ lower n = [0x69, 0x307] ∨
      (∃ r ∈ capitalRuns, r.first ≤ n ∧ n ≤ r.last ∧ lower n = [(n + r.shift : Int).toNat]) ∨
      lower n = [n] := by
  unfold lower
  rw [if_neg (by omega)]
  split_ifs with h130
  · exact .inl ⟨h130, rfl⟩
  split
  · rename_i r hr
    have hold := List.find?_some hr
    simp only [CapitalRun.holds, Bool.and_eq_true, decide_eq_true_eq] at hold
    exact .inr (.inl ⟨r, List.mem_of_find?_eq_some hr, hold.1.1, hold.1.2, rfl⟩)
  · exact .inr (.inr rfl)

theorem lower_of_half {n : Nat} (h : 0xD800 ≤ n ∧ n < 0xE000) : lower n = [n] := by
  rcases lower_cases (by omega : 0x80 ≤ n) with ⟨hn, -⟩ | ⟨r, hr, hfirst, hlast, -⟩ | h'
  · omega
  · have hplain := capitalRuns_plain r hr
    unfold CapitalRun.Plain at hplain
    split_ifs at hplain <;> omega
  · exact h'

/-- A pair and its small letter have the first half in common. -/
theorem lower_of_pair {n : Nat} (h : 0x10000 ≤ n) : ∃ m, lower n = [m] ∧ 0x10000 ≤ m ∧
    (m - 0x10000) / 0x400 = (n - 0x10000) / 0x400 := by
  rcases lower_cases (by omega : 0x80 ≤ n) with ⟨hn, -⟩ | ⟨r, hr, hfirst, hlast, hm⟩ | h'
  · omega
  · refine ⟨_, hm, ?_⟩
    have hplain := capitalRuns_plain r hr
    unfold CapitalRun.Plain at hplain
    split_ifs at hplain <;> omega
  · exact ⟨n, h', h, rfl⟩

end CodePoint

/-! ### Points across a cut -/

namespace Text

open CodePoint (facesCased)

variable {before after s t u w : Text} {c d : CodeUnit}

/-- No pair stands across the cut between two texts. -/
def Unpaired (s t : Text) : Prop := ∀ c ∈ s.getLast?, ∀ d ∈ t.head?, ¬ (c.isHigh ∧ d.isLow)

theorem Unpaired.tail (h : Unpaired (c :: s) t) : Unpaired s t :=
  fun e he => h e (by rw [List.getLast?_cons, he]; rfl)

theorem points_append (h : Unpaired s t) : points (s ++ t) = s.points ++ t.points := by
  fun_induction points s with
  | case1 => rfl
  | case2 c =>
    cases t with
    | nil => rfl
    | cons d rest =>
      have hcd : ¬ (c.isHigh && d.isLow) := by simpa [Unpaired] using h
      rw [List.singleton_append, points, if_neg hcd]
      rfl
  | case3 c d rest hcd ih =>
    rw [List.cons_append, List.cons_append, points, if_pos hcd, ih h.tail.tail]
    rfl
  | case4 c d rest hcd ih =>
    rw [List.cons_append, List.cons_append, points, if_neg hcd]
    exact congrArg _ (ih h.tail)

/-! ### One unit among others -/

/-- The capital sigma. -/
abbrev sigma : CodeUnit := 0x3A3

/-- A sigma between two texts takes its final form. -/
def isFinal (before after : Text) : Bool :=
  facesCased before.points.reverse && !facesCased after.points

/-- The first half of a pair that a text breaks off in. -/
def pendingHalf? (before : Text) : Option CodeUnit := before.getLast?.filter isHigh

/-- What a unit becomes between two texts. -/
def lowerUnit (before : Text) (c : CodeUnit) (after : Text) : Text :=
  if c.isHigh then [c]
  else if c.isLow then
    match pendingHalf? before with
    | some h => (lower [h, c]).drop 1
    | none => [c]
  else if c = sigma && isFinal before after then [0x3C2]
  else ofPoints (CodePoint.lower c.toNat)

/-- What a text becomes between two others. -/
def lowerBetween (before : Text) : Text → (after : Text) → Text
  | [], _ => []
  | c :: rest, after =>
    lowerUnit before c (rest ++ after) ++ lowerBetween (before ++ [c]) rest after

theorem isHigh_iff : c.isHigh ↔ 0xD800 ≤ c.toNat ∧ c.toNat < 0xDC00 := by
  simp only [isHigh, Bool.and_eq_true, decide_eq_true_eq]
  exact Iff.rfl

theorem isLow_iff : c.isLow ↔ 0xDC00 ≤ c.toNat ∧ c.toNat < 0xE000 := by
  simp only [isLow, Bool.and_eq_true, decide_eq_true_eq]
  exact Iff.rfl

theorem not_isHigh_of_isLow (h : c.isLow) : ¬ c.isHigh := by
  rw [isLow_iff] at h
  rw [isHigh_iff]
  omega

theorem ofPoints_lower_of_half (h : c.isHigh ∨ c.isLow) :
    ofPoints (CodePoint.lower c.toNat) = [c] := by
  rw [isHigh_iff, isLow_iff] at h
  rw [CodePoint.lower_of_half (by omega), ofPoints, List.flatMap_singleton, ofPoint_of_unit]

theorem eq_sigma_iff : c.toNat = 0x3A3 ↔ c = sigma := by
  rw [← UInt16.toNat_inj]
  rfl

theorem pendingHalf?_eq_none (h : Unpaired before [c]) (hc : c.isLow) :
    pendingHalf? before = none := by
  rw [pendingHalf?, Option.filter_eq_none_iff]
  exact fun e he hhigh => h e he c rfl ⟨hhigh, hc⟩

/-- A unit that is no half of a pair. -/
theorem lowerUnit_single (h : Unpaired before [c]) (after : Text) :
    lowerUnit before c after = ofPoints
      (if c.toNat = 0x3A3 && facesCased before.points.reverse && !facesCased after.points then [0x3C2]
      else CodePoint.lower c.toNat) := by
  have htest : (c.toNat = 0x3A3 && facesCased before.points.reverse && !facesCased after.points) =
      (c = sigma && isFinal before after) := by
    simp only [eq_sigma_iff, isFinal, Bool.and_assoc]
  have hsigma (hc : c.isHigh ∨ c.isLow) : ¬ (c = sigma && isFinal before after) := by
    rintro hs
    simp only [Bool.and_eq_true, decide_eq_true_eq] at hs
    rw [hs.1] at hc
    revert hc
    decide
  rw [htest, lowerUnit]
  split_ifs with hhigh hs hlow hs hs
  · exact absurd hs (hsigma (.inl hhigh))
  · exact (ofPoints_lower_of_half (.inl hhigh)).symm
  · exact absurd hs (hsigma (.inr hlow))
  · rw [pendingHalf?_eq_none h hlow, ofPoints_lower_of_half (.inr hlow)]
  · rfl
  · rfl

theorem lower_pair (hc : c.isHigh) (hd : d.isLow) : lower [c, d] =
    ofPoints (CodePoint.lower (0x10000 + (c.toNat - 0xD800) * 0x400 + (d.toNat - 0xDC00))) := by
  rw [lower, points, if_pos (by rw [hc, hd]; rfl), points, CodePoint.lowerAfter, if_neg]
  · simp [CodePoint.lowerAfter]
  · have hne : ¬ 0x10000 + (c.toNat - 0xD800) * 0x400 + (d.toNat - 0xDC00) = 0x3A3 := by omega
    simp [hne]

/-- The first half of a pair stays. -/
theorem exists_lower_pair (hc : c.isHigh) (hd : d.isLow) :
    ∃ e : CodeUnit, e.isLow ∧ lower [c, d] = [c, e] := by
  rw [lower_pair hc hd]
  rw [isHigh_iff] at hc
  rw [isLow_iff] at hd
  obtain ⟨m, hm, hge, hhalf⟩ := CodePoint.lower_of_pair
    (by omega : 0x10000 ≤ 0x10000 + (c.toNat - 0xD800) * 0x400 + (d.toNat - 0xDC00))
  refine ⟨UInt16.ofNat (0xDC00 + (m - 0x10000) % 0x400), ?_, ?_⟩
  · rw [isLow_iff, UInt16.toNat_ofNat']
    omega
  · have hfirst : 0xD800 + (m - 0x10000) / 0x400 = c.toNat := by omega
    rw [hm, ofPoints, List.flatMap_singleton, ofPoint, if_neg (by omega), hfirst, UInt16.ofNat_toNat]

/-- The two halves of a pair. -/
theorem lowerUnit_pair (hc : c.isHigh) (hd : d.isLow) (after after' : Text) :
    lowerUnit before c after ++ lowerUnit (before ++ [c]) d after' = lower [c, d] := by
  obtain ⟨e, -, he⟩ := exists_lower_pair hc hd
  have hpending : pendingHalf? (before ++ [c]) = some c := by
    rw [pendingHalf?, List.getLast?_concat, Option.filter_some, if_pos hc]
  rw [lowerUnit, if_pos hc, lowerUnit, if_neg (not_isHigh_of_isLow hd), if_pos hd, hpending]
  simp [he]

theorem ofPoints_append (ps qs : List Nat) : ofPoints (ps ++ qs) = ofPoints ps ++ ofPoints qs :=
  List.flatMap_append

theorem ofPoints_lowerAfter (h : Unpaired before t) :
    ofPoints (CodePoint.lowerAfter before.points.reverse t.points) = lowerBetween before t [] := by
  fun_induction points t generalizing before with
  | case1 => rfl
  | case2 c =>
    rw [lowerBetween, lowerUnit_single h]
    simp [CodePoint.lowerAfter, lowerBetween, points]
  | case3 c d rest hcd ih =>
    obtain ⟨hc, hd⟩ : c.isHigh ∧ d.isLow := by simpa using hcd
    have hbefore : points (before ++ [c] ++ [d]) = before.points ++
        [0x10000 + (c.toNat - 0xD800) * 0x400 + (d.toNat - 0xDC00)] := by
      rw [List.append_assoc, points_append, List.singleton_append, points, if_pos hcd]
      · rfl
      · exact fun e he f hf => h e he f hf
    have hrest : Unpaired (before ++ [c] ++ [d]) rest := by
      intro e he f _ hef
      rw [List.getLast?_concat] at he
      obtain rfl := Option.some.inj he
      exact not_isHigh_of_isLow hd hef.1
    have hne : ¬ 0x10000 + (c.toNat - 0xD800) * 0x400 + (d.toNat - 0xDC00) = 0x3A3 := by omega
    have ih := ih hrest
    rw [hbefore, List.reverse_append] at ih
    rw [lowerBetween, lowerBetween, ← List.append_assoc, lowerUnit_pair hc hd, lower_pair hc hd, ← ih,
      ← ofPoints_append, CodePoint.lowerAfter]
    simp [hne]
  | case4 c d rest hcd ih =>
    have hrest : Unpaired (before ++ [c]) (d :: rest) := by
      intro e he f hf hef
      rw [List.getLast?_concat] at he
      obtain rfl := Option.some.inj he
      obtain rfl := Option.some.inj hf
      exact hcd (by rw [hef.1, hef.2]; rfl)
    have hbefore : points (before ++ [c]) = before.points ++ [c.toNat] := points_append h
    have ih := ih hrest
    rw [hbefore, List.reverse_append] at ih
    rw [lowerBetween, List.append_nil, lowerUnit_single h, ← ih, ← ofPoints_append,
      CodePoint.lowerAfter]
    rfl

/-- Lowering goes unit by unit. -/
theorem lower_eq (t : Text) : t.lower = lowerBetween [] t [] :=
  ofPoints_lowerAfter (by simp [Unpaired] : Unpaired [] t)

theorem lowerBetween_append (before s t after : Text) : lowerBetween before (s ++ t) after =
    lowerBetween before s (t ++ after) ++ lowerBetween (before ++ s) t after := by
  induction s generalizing before with
  | nil => simp [lowerBetween]
  | cons c s ih =>
    rw [List.cons_append, lowerBetween, lowerBetween, ih, List.append_assoc, List.append_assoc,
      List.append_assoc]
    rfl

/-! ### What stands around a text -/

theorem isHigh_of_pendingHalf? (h : pendingHalf? before = some c) : c.isHigh :=
  (Option.filter_eq_some_iff.mp h).2

theorem length_lowerUnit (before : Text) (c : CodeUnit) (after : Text) :
    (lowerUnit before c after).length =
      if c.isHigh || c.isLow then 1 else (ofPoints (CodePoint.lower c.toNat)).length := by
  unfold lowerUnit
  by_cases hhigh : c.isHigh
  · rw [if_pos hhigh, hhigh]; rfl
  by_cases hlow : c.isLow
  · rw [if_neg hhigh, if_pos hlow, hlow, Bool.or_true, if_pos rfl]
    cases hp : pendingHalf? before with
    | none => rfl
    | some h =>
      obtain ⟨e, -, he⟩ := exists_lower_pair (isHigh_of_pendingHalf? hp) hlow
      simp only [he]
      rfl
  · have hhalf : ¬ (c.isHigh || c.isLow) := by simp [hhigh, hlow]
    rw [if_neg hhigh, if_neg hlow, if_neg hhalf]
    split_ifs with hs
    · simp only [Bool.and_eq_true, decide_eq_true_eq] at hs
      rw [hs.1]
      decide +kernel
    · rfl

theorem length_lowerBetween (before before' t after after' : Text) :
    (lowerBetween before t after).length = (lowerBetween before' t after').length := by
  induction t generalizing before before' with
  | nil => rfl
  | cons c t ih =>
    rw [lowerBetween, lowerBetween, List.length_append, List.length_append, length_lowerUnit,
      length_lowerUnit, ih]

theorem lowerBetween_eq_iff (before before' t after after' : Text) :
    lowerBetween before t after = lowerBetween before' t after' ↔ ∀ u c w, t = u ++ c :: w →
      lowerUnit (before ++ u) c (w ++ after) = lowerUnit (before' ++ u) c (w ++ after') := by
  induction t generalizing before before' with
  | nil => simp [lowerBetween]
  | cons c t ih =>
    have hlen := (length_lowerUnit before c (t ++ after)).trans
      (length_lowerUnit before' c (t ++ after')).symm
    rw [lowerBetween, lowerBetween, List.append_eq_append_iff_of_size_eq_left hlen, ih]
    constructor
    · rintro ⟨hc, ht⟩ u d w h
      cases u with
      | nil =>
        obtain ⟨rfl, rfl⟩ := List.cons.inj h
        simpa using hc
      | cons e u =>
        obtain ⟨rfl, rfl⟩ := List.cons.inj h
        simpa using ht u d w rfl
    · intro h
      refine ⟨by simpa using h [] c t rfl, fun u d w ht => ?_⟩
      simpa using h (c :: u) d w (by rw [ht]; rfl)

/-- No unit of `part` changes its form by what stands around it: a sigma is final or not as in `part`
alone, and a second half at the front of `part` belongs to no capital. -/
structure Steady (before part after : Text) : Prop where
  sigma : ∀ u w, part = u ++ sigma :: w → isFinal (before ++ u) (w ++ after) = isFinal u w
  half : ∀ c ∈ pendingHalf? before, ∀ d ∈ part.head?, d.isLow → lower [c, d] = [c, d]

theorem lowerUnit_sigma (before after : Text) :
    lowerUnit before Text.sigma after = if isFinal before after then [0x3C2] else [0x3C3] := by
  have hlower : ofPoints (CodePoint.lower 0x3A3) = [0x3C3] := by decide +kernel
  have hsigma : (Text.sigma).toNat = 0x3A3 := rfl
  rw [lowerUnit, if_neg (by decide), if_neg (by decide), hsigma, hlower]
  simp

theorem lowerUnit_low (hc : c.isLow) (before after : Text) : lowerUnit before c after =
    match pendingHalf? before with
    | some h => (lower [h, c]).drop 1
    | none => [c] := by
  rw [lowerUnit, if_neg (not_isHigh_of_isLow hc), if_pos hc]

/-- A unit that is neither a sigma nor a second half has one form only. -/
theorem lowerUnit_congr (hlow : ¬ c.isLow) (hsigma : c ≠ Text.sigma)
    (before after before' after' : Text) :
    lowerUnit before c after = lowerUnit before' c after' := by
  simp [lowerUnit, hlow, hsigma]

theorem pendingHalf?_append (h : u ≠ []) : pendingHalf? (before ++ u) = pendingHalf? u := by
  rw [pendingHalf?, List.getLast?_append_of_ne_nil _ h]
  rfl

/-- A second half stays after a first half if the pair has no small letter. -/
theorem drop_lower_pair_iff (hc : c.isHigh) (hd : d.isLow) :
    (lower [c, d]).drop 1 = [d] ↔ lower [c, d] = [c, d] := by
  obtain ⟨e, -, he⟩ := exists_lower_pair hc hd
  simp [he]

theorem lowerBetween_eq_lower_iff (before part after : Text) :
    lowerBetween before part after = part.lower ↔ Steady before part after := by
  rw [lower_eq, lowerBetween_eq_iff]
  constructor
  · intro h
    refine ⟨fun u w hpart => ?_, fun c hc d hd hlow => ?_⟩
    · have hforms := h u Text.sigma w hpart
      rw [lowerUnit_sigma, lowerUnit_sigma, List.nil_append, List.append_nil] at hforms
      split_ifs at hforms <;> simp_all
    · obtain ⟨w, rfl⟩ : ∃ w, part = d :: w := List.head?_eq_some_iff.mp hd
      have hforms := h [] d w rfl
      rw [lowerUnit_low hlow, lowerUnit_low hlow, List.append_nil, hc] at hforms
      exact (drop_lower_pair_iff (isHigh_of_pendingHalf? hc) hlow).mp hforms
  · rintro ⟨hsigma, hhalf⟩ u c w hpart
    rw [List.nil_append, List.append_nil]
    by_cases hs : c = Text.sigma
    · subst hs
      rw [lowerUnit_sigma, lowerUnit_sigma, hsigma u w hpart]
    by_cases hlow : c.isLow
    · rw [lowerUnit_low hlow, lowerUnit_low hlow]
      rcases eq_or_ne u [] with rfl | hu
      · rw [List.append_nil]
        cases hp : pendingHalf? before with
        | none => rfl
        | some h =>
          have hstays := hhalf h hp c (by rw [hpart]; rfl) hlow
          exact (drop_lower_pair_iff (isHigh_of_pendingHalf? hp) hlow).mpr hstays
      · rw [pendingHalf?_append hu]
    · exact lowerUnit_congr hlow hs _ _ _ _

instance (before part after : Text) : Decidable (Steady before part after) :=
  decidable_of_iff _ (lowerBetween_eq_lower_iff before part after)

/-- Every text is steady that holds no capital sigma and does not start amid a pair. -/
theorem Steady.of_not_mem (hsigma : Text.sigma ∉ t) (hlow : ∀ c ∈ t.head?, ¬ c.isLow)
    (before after : Text) : Steady before t after := by
  refine ⟨fun u w ht => absurd ?_ hsigma, fun _ _ d hd h => absurd h (hlow d hd)⟩
  rw [ht]
  exact List.mem_append_right u List.mem_cons_self

end Text

/-! ### Blanks and ASCII -/

namespace CodePoint

/-- Neither capitals nor their small letters are white space; beyond ASCII, the Kelvin sign is the
only capital with a small letter in ASCII. -/
theorem capitalRuns_blankFree : ∀ r ∈ capitalRuns, BlankFree (r.first, r.last) ∧
    (BlankFree ((r.first + r.shift : Int).toNat, (r.last + r.shift : Int).toNat) ∨
      r.first = 0x212A ∧ r.last = 0x212A ∧ r.shift = -8383) := by decide +kernel

end CodePoint

namespace CodeUnit

variable {c : CodeUnit}

theorem not_isBlank_of_range {r : Nat × Nat} (hr : BlankFree r) (h : r.1 ≤ c.toNat ∧ c.toNat ≤ r.2) :
    ¬ c.isBlank := by
  rw [isBlank_iff]
  unfold BlankFree at hr
  omega

theorem asciiLower_of_beyond (h : 0x80 ≤ c.toNat) : c.asciiLower = c := by
  rw [← UInt16.toNat_inj, toNat_asciiLower]
  exact if_neg (by omega)

theorem not_half_of_blank_or_ascii (h : c.isBlank ∨ c < 0x80) : ¬ c.isHigh ∧ ¬ c.isLow := by
  have hascii : c < 0x80 ↔ c.toNat < 0x80 := Iff.rfl
  rw [isBlank_iff, hascii] at h
  rw [Text.isHigh_iff, Text.isLow_iff]
  omega

theorem blank_or_ascii_asciiLower (h : c.isBlank ∨ c < 0x80) :
    c.asciiLower.isBlank ∨ c.asciiLower < 0x80 := by
  by_cases hascii : c.toNat < 0x80
  · right
    show c.asciiLower.toNat < 0x80
    rw [toNat_asciiLower]
    unfold CodePoint.asciiLower
    split_ifs <;> omega
  · rwa [asciiLower_of_beyond (Nat.le_of_not_lt hascii)]

theorem not_letter_of_isBlank (h : c.isBlank) : c.isAsciiLetter = false := by
  by_contra hletter
  exact not_isBlank_of_isLetterOrNumber (isLetterOrNumber_of_letter (Bool.of_not_eq_false hletter)) h

theorem asciiLower_ne_k (h : c.isAsciiLetter = false) : c.asciiLower ≠ 0x6B := by
  intro hk
  have hc : c = 0x6B := eq_of_not_letter hk h
  rw [hc] at h
  cases h

end CodeUnit

namespace Text

variable {t : Text} {c : CodeUnit}

theorem lower_of_blank_or_ascii (h : c.isBlank ∨ c < 0x80) :
    CodePoint.lower c.toNat = [c.asciiLower.toNat] := by
  by_cases hascii : c < 0x80
  · exact CodePoint.lower_of_ascii hascii
  have hblank := h.resolve_right hascii
  have hbeyond : 0x80 ≤ c.toNat := Nat.le_of_not_lt hascii
  rw [asciiLower_of_beyond hbeyond]
  rcases CodePoint.lower_cases hbeyond with ⟨hn, -⟩ | ⟨r, hr, hfirst, hlast, -⟩ | h'
  · rw [isBlank_iff] at hblank
    omega
  · have hfree := (CodePoint.capitalRuns_blankFree r hr).1
    exact absurd hblank (not_isBlank_of_range hfree ⟨hfirst, hlast⟩)
  · exact h'

/-- Blanks and ASCII units do not look at what stands around them. -/
theorem lowerUnit_of_blank_or_ascii (h : c.isBlank ∨ c < 0x80) (before after : Text) :
    lowerUnit before c after = [c.asciiLower] := by
  obtain ⟨hhigh, hlow⟩ := not_half_of_blank_or_ascii h
  have hsigma : c ≠ sigma := by
    rintro rfl
    revert h
    decide
  rw [lowerUnit, if_neg hhigh, if_neg hlow, if_neg (by simp [hsigma]), lower_of_blank_or_ascii h,
    ofPoints, List.flatMap_singleton, ofPoint_of_unit]

/-- No letter beyond ASCII has a small letter that is a blank or a unit of ASCII other than k. -/
theorem blank_or_ascii_of_lower (h : ∀ d ∈ ofPoints (CodePoint.lower c.toNat),
    d.isBlank ∨ d < 0x80 ∧ d ≠ 0x6B) : c.isBlank ∨ c < 0x80 := by
  by_contra hc
  obtain ⟨hblank, hascii⟩ := not_or.mp hc
  have hbeyond : 0x80 ≤ c.toNat := Nat.le_of_not_lt hascii
  rcases CodePoint.lower_cases hbeyond with ⟨-, hlower⟩ | ⟨r, hr, hfirst, hlast, hlower⟩ | hlower <;>
    rw [hlower] at h
  · exact absurd (h 0x307 (by decide)) (by decide)
  · have hplain := CodePoint.capitalRuns_plain r hr
    have hc := c.toNat_lt
    generalize hm : (c.toNat + r.shift : Int).toNat = m at h
    have hlt : m < 0x10000 := by
      unfold CodePoint.CapitalRun.Plain at hplain
      split_ifs at hplain <;> omega
    have hunit : (UInt16.ofNat m).toNat = m := UInt16.toNat_ofNat_of_lt' hlt
    rw [ofPoints, List.flatMap_singleton, ofPoint, if_pos hlt, List.forall_mem_singleton] at h
    rcases (CodePoint.capitalRuns_blankFree r hr).2 with hfree | ⟨h1, h2, h3⟩
    · rcases h with h | ⟨h, -⟩
      · refine not_isBlank_of_range hfree ?_ h
        rw [hunit]
        omega
      · have hsmall : m < 0x80 := hunit ▸ h
        have := hfree.1
        omega
    · have hk : m = 0x6B := by omega
      subst hk
      exact absurd h (by decide)
  · rw [ofPoints, List.flatMap_singleton, ofPoint_of_unit, List.forall_mem_singleton] at h
    exact hc (h.imp_right And.left)

/-- Nothing else becomes a blank or a unit of ASCII other than k. -/
theorem blank_or_ascii_of_lowerUnit {before after : Text}
    (h : ∀ d ∈ lowerUnit before c after, d.isBlank ∨ d < 0x80 ∧ d ≠ 0x6B) :
    c.isBlank ∨ c < 0x80 := by
  unfold lowerUnit at h
  split_ifs at h with hhigh hlow hsigma
  · exact (h c (List.mem_singleton_self c)).imp_right And.left
  · cases hp : pendingHalf? before with
    | none =>
      rw [hp] at h
      exact (h c (List.mem_singleton_self c)).imp_right And.left
    | some half =>
      obtain ⟨e, he, hpair⟩ := exists_lower_pair (isHigh_of_pendingHalf? hp) hlow
      simp only [hp, hpair] at h
      have he' := (h e (List.mem_singleton_self e)).imp_right And.left
      exact absurd he (not_half_of_blank_or_ascii he').2
  · exact absurd (h 0x3C2 (List.mem_singleton_self _)) (by decide)
  · exact blank_or_ascii_of_lower h

theorem lowerBetween_of_blank_or_ascii (h : ∀ c ∈ t, c.isBlank ∨ c < 0x80) (before after : Text) :
    lowerBetween before t after = t.map asciiLower := by
  induction t generalizing before with
  | nil => rfl
  | cons c t ih =>
    obtain ⟨hc, ht⟩ := List.forall_mem_cons.mp h
    rw [lowerBetween, lowerUnit_of_blank_or_ascii hc, ih ht]
    rfl

theorem blank_or_ascii_of_lowerBetween (before after : Text)
    (h : ∀ d ∈ lowerBetween before t after, d.isBlank ∨ d < 0x80 ∧ d ≠ 0x6B) :
    ∀ c ∈ t, c.isBlank ∨ c < 0x80 := by
  induction t generalizing before with
  | nil => simp
  | cons c t ih =>
    rw [lowerBetween] at h
    rw [List.forall_mem_append] at h
    exact List.forall_mem_cons.mpr ⟨blank_or_ascii_of_lowerUnit h.1, ih _ h.2⟩

theorem Recased.of_map_eq {t t' : Text} (h : t.map asciiLower = t'.map asciiLower) :
    Recased t t' := by
  rw [← List.forall₂_eq_eq_eq, List.forall₂_map_left_iff, List.forall₂_map_right_iff] at h
  exact h

/-- The texts with the lower case of a text of blanks and ASCII units without a k. -/
theorem recased_of_lower_eq {a b : Text} (ha : ∀ c ∈ a, c.isBlank ∨ c < 0x80)
    (hk : ∀ c ∈ a, c.asciiLower ≠ 0x6B) (h : a.lower = b.lower) : Recased a b := by
  have hlower : a.lower = a.map asciiLower := by rw [lower_eq, lowerBetween_of_blank_or_ascii ha]
  have hunits : ∀ d ∈ b.lower, d.isBlank ∨ d < 0x80 ∧ d ≠ 0x6B := by
    rw [← h, hlower, List.forall_mem_map]
    intro c hc
    exact (blank_or_ascii_asciiLower (ha c hc)).imp_right fun hascii => ⟨hascii, hk c hc⟩
  rw [lower_eq] at hunits
  have hb := blank_or_ascii_of_lowerBetween _ _ hunits
  rw [hlower, lower_eq b, lowerBetween_of_blank_or_ascii hb] at h
  exact .of_map_eq h

end Text

end Scim

import Scim.Proofs.Number.Rounding
import Scim.Proofs.Token.Range
import Scim.Proofs.Token.Written

/-!
# Numbers are read without loss

Whether a number is in range is asked of what a numeral was rounded to. For an integer this comes
to the same as asking what is written (`numberValue?_of_isInteger`): an integer up to 2^53 is a
number itself, and a larger one does not round to below 2^53. A token that is a number has its
numeral for a text (`numeral_of_scanned`), so that its value is the nearest number to what is
written.
-/

namespace Scim

namespace Numeral

variable {n : Numeral}

/-- The integer that a numeral without a fraction and an exponent writes. -/
def integer (n : Numeral) : Int :=
  if n.negative then -(decimalValue n.whole : Int) else decimalValue n.whole

theorem value_of_isInteger (h : n.isInteger) : n.value = n.integer := by
  obtain ⟨negative, whole, fraction, exponent⟩ := n
  simp only [isInteger, Bool.and_eq_true, List.isEmpty_iff, Option.isNone_iff_eq_none] at h
  obtain ⟨rfl, rfl⟩ := h
  cases negative <;> simp [value, integer, magnitude, scale, Number.signed]

end Numeral

namespace Number

variable {z : Int}

/-- Integers up to 2^53 are numbers. -/
theorem exists_value_eq (h : |z| ≤ 2 ^ 53 - 1) : ∃ x : Number, x.value = z := by
  rw [Int.abs_eq_natAbs] at h
  exact ⟨⟨z, z, 0, by omega, by norm_num, by norm_num, by simp⟩, rfl⟩

theorem isSafeInteger_iff_le {x : Number} (hz : x.value = z) :
    x.isSafeInteger ↔ |z| ≤ 2 ^ 53 - 1 := by
  rw [isSafeInteger_iff hz, hz, ← Int.cast_abs]
  have hmax : (maxSafe : Rat) = ((2 ^ 53 - 1 : Int) : Rat) := by norm_num [maxSafe]
  rw [hmax, Int.cast_le]

/-- A larger integer is rounded to an integer that is larger, too. -/
theorem not_isSafeInteger_of_nearest? {x : Number} (h : nearest? z = some x)
    (hz : 2 ^ 53 - 1 < |z|) : x.isSafeInteger = false := by
  obtain ⟨w, hw⟩ := integer_of_nearest? h ⟨z, rfl⟩
  let limit : Number := ⟨2 ^ 53, 2 ^ 52, 1, by decide, by decide, by decide, by norm_num⟩
  have hlimit : |limit.value| = 2 ^ 53 := abs_of_pos (by norm_num [limit])
  have hle : |limit.value| ≤ |(z : Rat)| := by
    rw [hlimit, ← Int.cast_abs]
    exact_mod_cast Int.lt_iff_add_one_le.mp hz
  have hround := le_abs_of_nearest? h hle
  rw [hlimit, hw, ← Int.cast_abs] at hround
  have hround' : (2 : Int) ^ 53 ≤ |w| := by exact_mod_cast hround
  rw [Bool.eq_false_iff, ne_eq, isSafeInteger_iff_le hw]
  omega

end Number

namespace Token

variable {o : ParserOptions} {beyond t : Text} {before : Option CodeUnit} {pos : Nat}
  {ts : List Token} {n : Numeral}

theorem numberValue?_of_isInteger (h : n.isInteger) :
    (|n.integer| ≤ 2 ^ 53 - 1 →
        ∃ x : Number, x.value = n.integer ∧ numberValue? n = some x) ∧
      (2 ^ 53 - 1 < |n.integer| → numberValue? n = none) := by
  rw [numberValue?, n.toNumber?_eq_nearest?, n.value_of_isInteger h, h]
  constructor
  · intro hsmall
    obtain ⟨x, hx⟩ := Number.exists_value_eq hsmall
    refine ⟨x, hx, ?_⟩
    rw [← hx, Number.nearest?_self, Option.filter_eq_some_iff]
    exact ⟨rfl, (Number.isSafeInteger_iff_le hx).mpr hsmall⟩
  · intro hlarge
    rw [Option.filter_eq_none_iff]
    intro x hx
    rw [Number.not_isSafeInteger_of_nearest? hx hlarge]
    exact Bool.false_ne_true

/-! ### Tokens that are numbers -/

theorem numeral_of_scanned (h : Scanned o beyond before pos t ts) :
    ∀ tok ∈ ts, ∀ x, tok.kind = .value (.num x) →
      ∃ n : Numeral, n.WellFormed ∧ tok.text = n.text ∧ numberValue? n = some x := by
  induction h with
  | nil => simp only [List.not_mem_nil, false_implies, implies_true]
  | blank _ _ ih => exact ih
  | token _ hl _ ih =>
    refine List.forall_mem_cons.mpr ⟨fun x hx => ?_, ih⟩
    obtain ⟨n, hn, htext, hvalue⟩ := numeral_of_lexed hl hx
    exact ⟨n, hn, htext.symm, hvalue⟩

/-- The token at a place past the end of the text is no number. -/
theorem numeral_of_scanRange {start stop : Nat} (h : scanRange o t start stop = .ok ts) :
    ∀ tok ∈ ts, ∀ x, tok.kind = .value (.num x) →
      ∃ n : Numeral, n.WellFormed ∧ tok.text = n.text ∧ numberValue? n = some x := by
  unfold scanRange at h
  split_ifs at h with hpast
  · unfold scanPast at h
    cases hscan : scanFrom o [] none start (t.drop start ++ [standIn]) with
    | error f =>
      rw [hscan] at h
      cases h
    | ok us =>
      rw [hscan] at h
      cases h
      intro tok htok x hx
      rcases List.mem_append.mp htok with htok | htok
      · exact numeral_of_scanned (scanned_of_scanFrom hscan) tok (List.dropLast_subset _ htok) x hx
      · obtain ⟨last, -, rfl⟩ := Option.map_eq_some_iff.mp (Option.mem_toList.mp htok)
        exact absurd hx (ofWord_ne_num _ x)
  · exact numeral_of_scanned (scanned_of_scanFrom h)

/-- The number that a numeral is read as is of all numbers the nearest to what is written, which is
not beyond the format. -/
theorem nearest_of_numberValue? {x : Number} (h : numberValue? n = some x) :
    |n.value| < 2 ^ 1024 - 2 ^ 970 ∧ ∀ y : Number, |n.value - x.value| ≤ |n.value - y.value| := by
  have hnearest := (Option.filter_eq_some_iff.mp h).1
  rw [n.toNumber?_eq_nearest?] at hnearest
  refine ⟨not_le.mp fun hle => ?_, Number.abs_sub_le_of_nearest? hnearest⟩
  rw [Number.nearest?_eq_none_iff.mpr hle] at hnearest
  cases hnearest

/-- Integers of any length are read exactly, up to 2^53 - 1 in magnitude, or refused as out of range
where they stand. And every number that is read is a finite one, the nearest to its numeral. -/
theorem scan_integer (o : ParserOptions) :
    (∀ n : Numeral, n.WellFormed → n.isInteger →
      (|n.integer| ≤ 2 ^ 53 - 1 → ∃ x : Number, x.value = n.integer ∧
        scan o n.text = .ok [⟨.value (.num x), n.text, 0⟩]) ∧
      (2 ^ 53 - 1 < |n.integer| → scan o n.text = .error ⟨.numberOutOfRange n.text, 0⟩)) ∧
    ∀ t start stop ts, scanRange o t start stop = .ok ts →
      ∀ tok ∈ ts, ∀ x : Number, tok.kind = .value (.num x) → |x.value| < 2 ^ 1024 ∧
        ∃ n : Numeral, n.WellFormed ∧ tok.text = n.text ∧ |n.value| < 2 ^ 1024 - 2 ^ 970 ∧
          ∀ y : Number, |n.value - x.value| ≤ |n.value - y.value| := by
  refine ⟨fun n hn hint => ?_, fun t start stop ts h tok htok x hx => ?_⟩
  · obtain ⟨hsmall, hlarge⟩ := numberValue?_of_isInteger hint
    refine ⟨fun hle => ?_, fun hlt => ?_⟩
    · obtain ⟨x, hx, hvalue⟩ := hsmall hle
      exact ⟨x, hx, by rw [scan, scanFrom_numeral_eq hn, hvalue]⟩
    · rw [scan, scanFrom_numeral_eq hn, hlarge hlt]
  · obtain ⟨n, hn, htext, hvalue⟩ := numeral_of_scanRange h tok htok x hx
    exact ⟨x.abs_value_lt, n, hn, htext, nearest_of_numberValue? hvalue⟩

/-- The largest integer that is read, and one that would be rounded. -/
theorem scan_integer_limit :
    (∃ x : Number, x.value = -9007199254740991 ∧
      scan .default "-9007199254740991" = .ok [⟨.value (.num x), "-9007199254740991", 0⟩] ∧
      |x.value| < 2 ^ 1024) ∧
    scan .default "9007199254740993" = .error ⟨.numberOutOfRange "9007199254740993", 0⟩ := by
  have hlast : (⟨true, "9007199254740991", [], none⟩ : Numeral).WellFormed :=
    ⟨by decide, List.all_eq_true.mp (by decide), by decide, nofun, nofun⟩
  have hpast : (⟨false, "9007199254740993", [], none⟩ : Numeral).WellFormed :=
    ⟨by decide, List.all_eq_true.mp (by decide), by decide, nofun, nofun⟩
  obtain ⟨hread, hrange⟩ := scan_integer .default
  obtain ⟨x, hx, hscan⟩ := (hread _ hlast rfl).1 (by decide)
  refine ⟨⟨x, ?_, hscan, ?_⟩, (hread _ hpast rfl).2 (by decide)⟩
  · exact hx.trans (by norm_num [Numeral.integer]; decide)
  · have hscan' : scanRange .default "-9007199254740991" 0 17 = .ok _ :=
      (scanRange_of_le (by decide)).trans hscan
    exact (hrange _ _ _ _ hscan' _ (List.mem_singleton_self _) x rfl).1

end Token

end Scim

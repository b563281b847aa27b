import Mathlib.Tactic.Common
import Scim.Text.LowerCase

/-!
# Lower case and ASCII

On ASCII texts lowering works unit by unit (`lower_of_ascii`). The other way round, a text whose
lower case is ASCII is ASCII itself (`ascii_of_lower`), with one exception: the Kelvin sign has the
small letter k. So a keyword without a k is written with ASCII letters only.
-/

namespace Scim

namespace CodeUnit

/-- The small letter of an ASCII capital; every other unit stands for itself. -/
def asciiLower (c : CodeUnit) : CodeUnit := if 0x41 ≤ c && c ≤ 0x5A then c + 0x20 else c

theorem toNat_lt (c : CodeUnit) : c.toNat < 0x10000 := UInt16.toNat_lt c

theorem not_isHigh_of_ascii {c : CodeUnit} (h : c < 0x80) : c.isHigh = false := by
  unfold isHigh; grind

end CodeUnit

namespace CodePoint

theorem lower_of_ascii {c : CodeUnit} (h : c < 0x80) : lower c.toNat = [c.asciiLower.toNat] := by
  have h' : c.toNat < 0x80 := h
  unfold lower CodeUnit.asciiLower
  rw [if_pos h']
  by_cases hc : 0x41 ≤ c ∧ c ≤ 0x5A
  · have h1 : 0x41 ≤ c.toNat := hc.1
    have h2 : c.toNat ≤ 0x5A := hc.2
    simp only [h1, h2, hc.1, hc.2, decide_true, Bool.and_self, if_true, List.cons.injEq, and_true]
    rw [UInt16.toNat_add]
    simp; omega
  · have h1 : ¬ (0x41 ≤ c.toNat ∧ c.toNat ≤ 0x5A) := hc
    rw [if_neg (by simpa using h1), if_neg (by simpa using hc)]

/-- Every capital has its small letter beyond ASCII, the Kelvin sign apart. -/
theorem capitalRuns_beyond : ∀ r ∈ capitalRuns, 0x80 ≤ (r.first : Int) + r.shift ∨
    (r.first = 0x212A ∧ r.last = 0x212A ∧ r.shift = -8383) := by decide +kernel

theorem lower_beyond {n : Nat} (h : 0x80 ≤ n) : ∃ m ∈ lower n, 0x80 ≤ m ∨ m = 0x6B := by
  unfold lower
  rw [if_neg (by omega)]
  split_ifs
  · exact ⟨0x307, by simp, .inl (by decide)⟩
  split
  · rename_i r hr
    have hmem := List.mem_of_find?_eq_some hr
    have hold := List.find?_some hr
    simp only [CapitalRun.holds, Bool.and_eq_true, decide_eq_true_eq] at hold
    refine ⟨_, List.mem_singleton_self _, ?_⟩
    rcases capitalRuns_beyond r hmem with h' | ⟨h1, h2, h3⟩
    · left; omega
    · right; omega
  · exact ⟨n, by simp, .inl h⟩

theorem lowerAfter_beyond : ∀ (before ps : List Nat) {n : Nat}, n ∈ ps → 0x80 ≤ n →
    ∃ m ∈ lowerAfter before ps, 0x80 ≤ m ∨ m = 0x6B
  | before, p :: ps, n, hn, h => by
    rw [lowerAfter]
    rcases List.mem_cons.mp hn with rfl | hn
    · split_ifs
      · exact ⟨0x3C2, by simp, .inl (by decide)⟩
      · obtain ⟨m, hm, hm'⟩ := lower_beyond h
        exact ⟨m, List.mem_append_left _ hm, hm'⟩
    · obtain ⟨m, hm, hm'⟩ := lowerAfter_beyond (p :: before) ps hn h
      exact ⟨m, List.mem_append_right _ hm, hm'⟩

end CodePoint

namespace Text

theorem ofPoint_of_unit (c : CodeUnit) : ofPoint c.toNat = [c] := by
  rw [ofPoint, if_pos c.toNat_lt, UInt16.ofNat_toNat]

theorem ofPoint_beyond {n : Nat} (h : 0x80 ≤ n) : ∃ c ∈ ofPoint n, 0x80 ≤ c := by
  unfold ofPoint
  split_ifs with hn
  · refine ⟨_, List.mem_singleton_self _, ?_⟩
    show 0x80 ≤ (UInt16.ofNat n).toNat
    rw [UInt16.toNat_ofNat']; omega
  · refine ⟨_, List.mem_cons_of_mem _ (List.mem_singleton_self _), ?_⟩
    show 0x80 ≤ (UInt16.ofNat _).toNat
    rw [UInt16.toNat_ofNat']; omega

theorem ascii_of_points : ∀ t : Text, (∀ n ∈ t.points, n < 0x80) → ∀ c ∈ t, c < 0x80
  | [], _, _, hc => by simp at hc
  | [c], h, d, hd => by
    obtain rfl := List.mem_singleton.mp hd
    exact h _ (by simp [points])
  | c :: d :: rest, h, e, he => by
    rw [points] at h
    split_ifs at h with hp
    · have := h _ (List.mem_cons_self ..)
      omega
    · rcases List.mem_cons.mp he with rfl | he
      · exact h _ (List.mem_cons_self ..)
      · exact ascii_of_points (d :: rest) (fun n hn => h n (List.mem_cons_of_mem _ hn)) e he

/-- Units that start no pair are characters of their own. -/
theorem points_of_not_isHigh :
    ∀ t : Text, (∀ c ∈ t, c.isHigh = false) → t.points = t.map UInt16.toNat
  | [], _ => rfl
  | [_], _ => rfl
  | c :: d :: rest, h => by
    rw [points, h c (by simp), Bool.false_and, if_neg (by simp),
      points_of_not_isHigh (d :: rest) fun c hc => h c (List.mem_cons_of_mem _ hc)]
    rfl

theorem ofPoints_lowerAfter_of_ascii (before : List Nat) (t : Text) (h : ∀ c ∈ t, c < 0x80) :
    ofPoints (CodePoint.lowerAfter before (t.map UInt16.toNat)) = t.map CodeUnit.asciiLower := by
  induction t generalizing before with
  | nil => rfl
  | cons c rest ih =>
    have hc : c < 0x80 := h c (by simp)
    have hs : c.toNat ≠ 0x3A3 := by have : c.toNat < 0x80 := hc; omega
    have hrest := ih (c.toNat :: before) fun d hd => h d (List.mem_cons_of_mem _ hd)
    rw [List.map_cons, CodePoint.lowerAfter, if_neg (by simp [hs]), CodePoint.lower_of_ascii hc,
      ofPoints, List.flatMap_append, List.flatMap_singleton, ofPoint_of_unit]
    exact congrArg _ hrest

theorem lower_of_ascii {t : Text} (h : ∀ c ∈ t, c < 0x80) : t.lower = t.map CodeUnit.asciiLower := by
  rw [lower, points_of_not_isHigh t fun c hc => CodeUnit.not_isHigh_of_ascii (h c hc),
    ofPoints_lowerAfter_of_ascii [] t h]

/-- ASCII without a k. -/
def isPlain (t : Text) : Bool := t.all fun c => c < 0x80 && c != 0x6B

theorem isPlain_iff {t : Text} : t.isPlain ↔ ∀ c ∈ t, c < 0x80 ∧ c ≠ 0x6B := by
  simp [isPlain]

theorem ascii_of_lower {t : Text} (h : t.lower.isPlain) : ∀ c ∈ t, c < 0x80 := by
  rw [isPlain_iff] at h
  refine ascii_of_points t fun n hn => ?_
  by_contra hlt
  obtain ⟨m, hm, hm'⟩ := CodePoint.lowerAfter_beyond [] t.points hn (Nat.le_of_not_lt hlt)
  have hmem : ∀ c ∈ ofPoint m, c ∈ t.lower := fun c hc => List.mem_flatMap.mpr ⟨m, hm, hc⟩
  rcases hm' with hm' | rfl
  · obtain ⟨c, hc, hc'⟩ := ofPoint_beyond hm'
    have := (h c (hmem c hc)).1
    grind
  · exact (h 0x6B (hmem 0x6B (by decide))).2 rfl

/-- The texts with a given lower case are ASCII texts that differ from it in letter case only. -/
theorem map_asciiLower_of_lower {t s : Text} (h : t.lower = s)
    (hs : s.isPlain) : (∀ c ∈ t, c < 0x80) ∧ t.map CodeUnit.asciiLower = s := by
  have hascii := ascii_of_lower (h ▸ hs)
  exact ⟨hascii, lower_of_ascii hascii ▸ h⟩

end Text

end Scim

import Scim.Proofs.Filter.Coherent

/-!
# Containment

The operators `co`, `sw` and `ew` look for one lowered text in another. A part of a text is found
where it stands if it is lowered there as it is alone, which `Text.Steady` says: all its capital
sigmas keep their form, and it does not start amid the pair of a capital. For `sw` and `ew` this is
also needed.
-/

namespace Scim

open CodeUnit

namespace Text

variable {part t : Text}

theorem includes_iff : includes part t ↔ part <:+: t := by
  induction t with
  | nil => rw [includes, List.isEmpty_iff, List.infix_nil]
  | cons c t ih => rw [includes, Bool.or_eq_true, List.isPrefixOf_iff_prefix, ih, List.infix_cons_iff]

end Text

namespace Comparison

open Text (lowerBetween Steady)

variable {s c pre post : Text}

theorem co_between : co.between s c ↔ c.lower <:+: s.lower := by
  simp [between, holds, holdsFor, ofTexts, Text.includes_iff]

theorem sw_between : sw.between s c ↔ c.lower <+: s.lower := by
  simp [between, holds, holdsFor, ofTexts]

theorem ew_between : ew.between s c ↔ c.lower <:+ s.lower := by
  simp [between, holds, holdsFor, ofTexts]

theorem co_of_steady (h : Steady pre c post) : co.between (pre ++ (c ++ post)) c := by
  rw [co_between, Text.lower_eq (pre ++ _), Text.lowerBetween_append, Text.lowerBetween_append,
    List.append_nil, List.append_nil, List.nil_append,
    (Text.lowerBetween_eq_lower_iff pre c post).mpr h]
  exact ⟨_, _, List.append_assoc _ _ _⟩

theorem length_lowerBetween_eq (pre c post : Text) :
    (lowerBetween pre c post).length = c.lower.length := by
  rw [Text.lower_eq, Text.length_lowerBetween]

theorem sw_iff_steady : sw.between (c ++ post) c ↔ Steady [] c post := by
  have hlen := length_lowerBetween_eq [] c post
  rw [sw_between, Text.lower_eq (c ++ post), Text.lowerBetween_append, List.append_nil,
    ← Text.lowerBetween_eq_lower_iff]
  constructor
  · intro h
    have hpart := List.prefix_of_prefix_length_le h (List.prefix_append _ _) hlen.ge
    exact (hpart.eq_of_length hlen.symm).symm
  · intro h
    rw [h]
    exact List.prefix_append _ _

theorem ew_iff_steady : ew.between (pre ++ c) c ↔ Steady pre c [] := by
  have hlen := length_lowerBetween_eq pre c []
  rw [ew_between, Text.lower_eq (pre ++ c), Text.lowerBetween_append, List.nil_append,
    ← Text.lowerBetween_eq_lower_iff]
  constructor
  · intro h
    have hpart := List.suffix_of_suffix_length_le h (List.suffix_append _ _) hlen.ge
    exact (hpart.eq_of_length hlen.symm).symm
  · intro h
    rw [h]
    exact List.suffix_append _ _

/-- A part of a text is found where it stands if it is steady there; at the front and at the end it
is found only then. A part without capital sigmas that does not start amid a pair is steady
everywhere. -/
theorem between_part (s c : Text) :
    (∀ pre post, s = pre ++ (c ++ post) → Steady pre c post → co.between s c) ∧
    (∀ post, s = c ++ post → (sw.between s c ↔ Steady [] c post)) ∧
    (∀ pre, s = pre ++ c → (ew.between s c ↔ Steady pre c [])) ∧
    (Text.sigma ∉ c → (∀ d ∈ c.head?, ¬ d.isLow) →
      (c <:+: s → co.between s c) ∧ (c <+: s → sw.between s c) ∧ (c <:+ s → ew.between s c)) := by
  refine ⟨?_, ?_, ?_, fun hsigma hlow => ⟨?_, ?_, ?_⟩⟩
  · rintro pre post rfl h
    exact co_of_steady h
  · rintro post rfl
    exact sw_iff_steady
  · rintro pre rfl
    exact ew_iff_steady
  · rintro ⟨pre, post, rfl⟩
    rw [List.append_assoc]
    exact co_of_steady (.of_not_mem hsigma hlow pre post)
  · rintro ⟨post, rfl⟩
    exact sw_iff_steady.mpr (.of_not_mem hsigma hlow [] post)
  · rintro ⟨pre, rfl⟩
    exact ew_iff_steady.mpr (.of_not_mem hsigma hlow pre [])

/-- A sigma between two letters is lowered as it is alone. -/
theorem between_part_medial : Steady [0x391] [Text.sigma] [0x391] ∧
    co.between [0x391, Text.sigma, 0x391] [Text.sigma] := by
  have hsteady : Steady [0x391] [Text.sigma] [0x391] := by decide +kernel
  exact ⟨hsteady, (between_part [0x391, Text.sigma, 0x391] [Text.sigma]).1 _ _ rfl hsteady⟩

/-- Behind an alpha, a sigma is not found at the end, and where an alpha follows it is not found with
the alpha at the front: one is final, the other is not. -/
theorem not_between_part_final :
    ¬ (∀ s c, (c <:+: s → co.between s c) ∧ (c <+: s → sw.between s c) ∧ (c <:+ s → ew.between s c)) ∧
    ¬ co.between [0x391, Text.sigma] [Text.sigma] ∧
    ¬ ew.between [0x391, Text.sigma] [Text.sigma] ∧
    ¬ sw.between [0x391, Text.sigma, 0x391] [0x391, Text.sigma] := by
  have hco : ¬ co.between [0x391, Text.sigma] [Text.sigma] := by decide +kernel
  refine ⟨fun h => hco ((h _ _).1 ⟨[0x391], [], rfl⟩), hco, by decide +kernel, by decide +kernel⟩

end Comparison

end Scim

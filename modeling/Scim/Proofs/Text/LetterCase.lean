import Scim.Proofs.Options.Unit
import Scim.Proofs.Text.Split

/-!
# The case of ASCII letters

`Text.Recased t t'`: the texts differ at most in the case of ASCII letters, unit by unit. Such texts
have the same lower case (`Recased.lower_eq`), also where letters beyond ASCII take their form from
what stands around them. Only letters differ, so what is no letter stays where it is
(`Recased.append_cons`), and every class of units that holds all letters or none is kept.
-/

namespace Scim

namespace CodePoint

/-- The small letter of an ASCII capital; every other point stands for itself. -/
def asciiLower (n : Nat) : Nat := if 0x41 ≤ n ∧ n ≤ 0x5A then n + 0x20 else n

variable {n : Nat}

theorem asciiLower_cases (n : Nat) :
    asciiLower n = n ∨ (∃ k < 26, n = 0x41 + k) ∧ asciiLower n = n + 0x20 := by
  unfold asciiLower
  split_ifs with h
  · exact .inr ⟨⟨n - 0x41, by omega, by omega⟩, rfl⟩
  · exact .inl rfl

theorem lower_capital : ∀ k < 26, lower (0x41 + k + 0x20) = lower (0x41 + k) ∧
    isCased (0x41 + k + 0x20) = isCased (0x41 + k) ∧
    isCaseIgnorable (0x41 + k + 0x20) = isCaseIgnorable (0x41 + k) := by decide +kernel

theorem lower_asciiLower (n : Nat) : lower (asciiLower n) = lower n := by
  rcases asciiLower_cases n with h | ⟨⟨k, hk, rfl⟩, h⟩ <;> rw [h]
  exact (lower_capital k hk).1

theorem isCased_asciiLower (n : Nat) : isCased (asciiLower n) = isCased n := by
  rcases asciiLower_cases n with h | ⟨⟨k, hk, rfl⟩, h⟩ <;> rw [h]
  exact (lower_capital k hk).2.1

theorem isCaseIgnorable_asciiLower (n : Nat) : isCaseIgnorable (asciiLower n) = isCaseIgnorable n := by
  rcases asciiLower_cases n with h | ⟨⟨k, hk, rfl⟩, h⟩ <;> rw [h]
  exact (lower_capital k hk).2.2

theorem facesCased_map (ps : List Nat) : facesCased (ps.map asciiLower) = facesCased ps := by
  have hcomp : isCaseIgnorable ∘ asciiLower = isCaseIgnorable := funext isCaseIgnorable_asciiLower
  unfold facesCased
  rw [List.dropWhile_map, hcomp]
  cases ps.dropWhile isCaseIgnorable with
  | nil => rfl
  | cons n _ => exact isCased_asciiLower n

/-- The context of a sigma is the same for either case. -/
theorem lowerAfter_map (before ps : List Nat) :
    lowerAfter (before.map asciiLower) (ps.map asciiLower) = lowerAfter before ps := by
  induction ps generalizing before with
  | nil => rfl
  | cons n ps ih =>
    have hsigma : asciiLower n = 0x3A3 ↔ n = 0x3A3 := by unfold asciiLower; split_ifs <;> omega
    have hrest := ih (n :: before)
    rw [List.map_cons] at hrest
    simp only [List.map_cons, lowerAfter, hrest, facesCased_map, lower_asciiLower, hsigma]

end CodePoint

namespace CodeUnit

variable {a b : CodeUnit}

theorem toNat_asciiLower (c : CodeUnit) : c.asciiLower.toNat = CodePoint.asciiLower c.toNat := by
  have hle : (0x41 ≤ c ∧ c ≤ 0x5A) ↔ (0x41 ≤ c.toNat ∧ c.toNat ≤ 0x5A) := Iff.rfl
  unfold asciiLower CodePoint.asciiLower
  simp only [Bool.and_eq_true, decide_eq_true_eq, hle]
  split_ifs with h
  · rw [UInt16.toNat_add]
    exact Nat.mod_eq_of_lt (by show c.toNat + 0x20 < 0x10000; omega)
  · rfl

def isAsciiLetter (c : CodeUnit) : Bool := 0x41 ≤ c && c ≤ 0x5A || 0x61 ≤ c && c ≤ 0x7A

theorem isAsciiLetter_iff {c : CodeUnit} : c.isAsciiLetter ↔
    (0x41 ≤ c.toNat ∧ c.toNat ≤ 0x5A) ∨ (0x61 ≤ c.toNat ∧ c.toNat ≤ 0x7A) := by
  simp only [isAsciiLetter, Bool.or_eq_true, Bool.and_eq_true, decide_eq_true_eq]
  exact Iff.rfl

/-- Units that agree in lower case are one unit or both letters. -/
theorem eq_or_letters (h : a.asciiLower = b.asciiLower) :
    a = b ∨ a.isAsciiLetter ∧ b.isAsciiLetter := by
  have h := congrArg UInt16.toNat h
  rw [toNat_asciiLower, toNat_asciiLower] at h
  rw [isAsciiLetter_iff, isAsciiLetter_iff, ← UInt16.toNat_inj]
  unfold CodePoint.asciiLower at h
  split_ifs at h <;> omega

theorem eq_of_not_letter (h : a.asciiLower = b.asciiLower) (ha : a.isAsciiLetter = false) : a = b := by
  rcases eq_or_letters h with rfl | ⟨hl, -⟩
  · rfl
  · rw [ha] at hl; cases hl

theorem isLetterOrNumber_of_letter (h : a.isAsciiLetter) : a.isLetterOrNumber := by
  rw [isAsciiLetter_iff] at h
  have hlt : a < 0x80 := by show a.toNat < 0x80; omega
  rw [isLetterOrNumber_of_ascii hlt, isAsciiAlphanumeric]
  simp only [Bool.or_eq_true, Bool.and_eq_true, decide_eq_true_eq]
  rcases h with h | h
  · exact .inl (.inr h)
  · exact .inr h

/-- A class of units that treats all letters alike. -/
theorem class_eq {β : Type} {f : CodeUnit → β} {v : β} (hf : ∀ c, c.isAsciiLetter → f c = v)
    (h : a.asciiLower = b.asciiLower) : f a = f b := by
  rcases eq_or_letters h with rfl | ⟨ha, hb⟩
  · rfl
  · rw [hf a ha, hf b hb]

theorem not_half_of_letter (h : a.isAsciiLetter) : a.isHigh = false ∧ a.isLow = false := by
  rw [isAsciiLetter_iff] at h
  have hlt : a < 0x80 := by show a.toNat < 0x80; omega
  refine ⟨not_isHigh_of_ascii hlt, ?_⟩
  unfold isLow; grind

theorem asciiLower_asciiLower (c : CodeUnit) : c.asciiLower.asciiLower = c.asciiLower := by
  rw [← UInt16.toNat_inj, toNat_asciiLower, toNat_asciiLower]
  unfold CodePoint.asciiLower
  split_ifs <;> omega

theorem asciiLower_of_half (h : a.isHigh ∨ a.isLow) : a.asciiLower = a := by
  refine (eq_of_not_letter (asciiLower_asciiLower a).symm (Bool.eq_false_iff.mpr fun hl => ?_)).symm
  obtain ⟨hhigh, hlow⟩ := not_half_of_letter hl
  rw [hhigh, hlow] at h
  simp at h

theorem isHigh_asciiLower (c : CodeUnit) : c.asciiLower.isHigh = c.isHigh :=
  class_eq (fun _ hd => (not_half_of_letter hd).1) (asciiLower_asciiLower c)

theorem isLow_asciiLower (c : CodeUnit) : c.asciiLower.isLow = c.isLow :=
  class_eq (fun _ hd => (not_half_of_letter hd).2) (asciiLower_asciiLower c)

end CodeUnit

namespace ParserOptions

variable {o : ParserOptions} {a b : CodeUnit}

theorem isNameUnit_of_letter (h : a.isAsciiLetter) : o.isNameUnit a := by
  rw [isNameUnit, CodeUnit.isLetterOrNumber_of_letter h]; rfl

theorem isNamePoint_asciiLower (n : Nat) :
    o.isNamePoint (CodePoint.asciiLower n) = o.isNamePoint n := by
  have hletter : ∀ k < 26, CodeUnit.isAsciiLetter (UInt16.ofNat (0x41 + k)) ∧
    CodeUnit.isAsciiLetter (UInt16.ofNat (0x41 + k + 0x20)) := by decide
  rcases CodePoint.asciiLower_cases n with h | ⟨⟨k, hk, rfl⟩, h⟩ <;> rw [h]
  obtain ⟨hcapital, hsmall⟩ := hletter k hk
  rw [isNamePoint, isNamePoint, if_pos (by omega), if_pos (by omega), isNameUnit_of_letter hcapital,
    isNameUnit_of_letter hsmall]

end ParserOptions

namespace Text

open CodeUnit

variable {t t' u v w : Text} {c : CodeUnit}

/-- The units agree in place, up to the case of ASCII letters. -/
def Recased : Text → Text → Prop := List.Forall₂ fun a b => a.asciiLower = b.asciiLower

namespace Recased

theorem refl (t : Text) : Recased t t := List.forall₂_same.mpr fun _ _ => rfl

theorem symm (h : Recased t t') : Recased t' t :=
  List.Forall₂.flip (h.imp fun _ _ hab => hab.symm)

theorem map_eq (h : Recased t t') : t.map asciiLower = t'.map asciiLower := by
  rw [← List.forall₂_eq_eq_eq, List.forall₂_map_left_iff, List.forall₂_map_right_iff]
  exact h

theorem exists_mem (h : Recased t t') (hc : c ∈ t') : ∃ d ∈ t, d.asciiLower = c.asciiLower := by
  have hmem := List.mem_map_of_mem (f := asciiLower) hc
  rw [← h.map_eq] at hmem
  exact List.mem_map.mp hmem

theorem eq_of_not_letters (h : Recased t t') (ht : ∀ c ∈ t, c.isAsciiLetter = false) : t = t' := by
  induction h with
  | nil => rfl
  | cons hab _ ih =>
    obtain ⟨ha, ht⟩ := List.forall_mem_cons.mp ht
    rw [eq_of_not_letter hab ha, ih ht]

theorem head?_eq (h : Recased t t') (hc : c.isAsciiLetter = false) (ht : t'.head? = some c) :
    t.head? = some c := by
  cases h with
  | nil => exact ht
  | cons hab =>
    obtain rfl := Option.some.inj ht
    exact congrArg some (eq_of_not_letter hab.symm hc).symm

theorem append_inv (h : Recased (u ++ v) w) :
    ∃ u' v', w = u' ++ v' ∧ Recased u u' ∧ Recased v v' := forall₂_append_left h

/-- What is no letter stays. -/
theorem append_cons (hc : c.isAsciiLetter = false) (h : Recased (u ++ c :: v) w) :
    ∃ u' v', w = u' ++ c :: v' ∧ Recased u u' ∧ Recased v v' := by
  obtain ⟨u', w', rfl, hu, hw⟩ := h.append_inv
  obtain ⟨d, v', hcd, hv, rfl⟩ := List.forall₂_cons_left_iff.mp hw
  obtain rfl := eq_of_not_letter hcd hc
  exact ⟨u', v', rfl, hu, hv⟩

end Recased

/-! ### Lower case -/

theorem points_map_asciiLower (t : Text) :
    points (t.map asciiLower) = t.points.map CodePoint.asciiLower := by
  fun_induction points t with
  | case1 => rfl
  | case2 c => rw [List.map_singleton, points, toNat_asciiLower]; rfl
  | case3 c d rest h ih =>
    obtain ⟨hc, hd⟩ : c.isHigh ∧ d.isLow := by simpa using h
    have hpoint : CodePoint.asciiLower
        (0x10000 + (c.toNat - 0xD800) * 0x400 + (d.toNat - 0xDC00)) = _ :=
      if_neg (by omega)
    rw [List.map_cons, List.map_cons, asciiLower_of_half (.inl hc),
      asciiLower_of_half (.inr hd), points, if_pos h, ih, List.map_cons,
      hpoint]
  | case4 c d rest h ih =>
    rw [List.map_cons] at ih
    rw [List.map_cons, List.map_cons, points, isHigh_asciiLower, isLow_asciiLower, if_neg h, ih,
      List.map_cons, toNat_asciiLower]

theorem Recased.points_eq (h : Recased t t') :
    t.points.map CodePoint.asciiLower = t'.points.map CodePoint.asciiLower := by
  rw [← points_map_asciiLower, ← points_map_asciiLower, h.map_eq]

theorem Recased.lower_eq (h : Recased t t') : t.lower = t'.lower := by
  rw [lower, lower, ← CodePoint.lowerAfter_map [] t.points, ← CodePoint.lowerAfter_map [] t'.points,
    h.points_eq]

end Text

end Scim

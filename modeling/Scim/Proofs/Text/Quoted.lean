import Mathlib.Tactic.Common
import Scim.Text.Quoted

/-!
# The grammar of quoted strings

`Body w v`: between quotes, `w` writes the text `v`. The reader takes off a text exactly what stands
up to the first closing quote (`read_eq_ok_iff`), and what `encode` writes is read back, for any
list of units (`read_encode`).
-/

namespace Scim.Quoted

open CodeUnit

inductive Body : Text → Text → Prop
  | nil : Body [] []
  | unit {c : CodeUnit} {w v : Text} (hq : c ≠ quote) (hb : c ≠ backslash) (h : Body w v) :
    Body (c :: w) (c :: v)
  | short {e u : CodeUnit} {w v : Text} (he : e ≠ 0x75) (hu : unescape? e = some u) (h : Body w v) :
    Body (backslash :: e :: w) (u :: v)
  | unicode {a b c d u : CodeUnit} {w v : Text} (hu : hexUnit? a b c d = some u) (h : Body w v) :
    Body (backslash :: 0x75 :: a :: b :: c :: d :: w) (u :: v)

variable {n : Nat} {t s w v : Text}

theorem map_cons_eq_ok {c : CodeUnit} {x : Except Fault Reading} {r : Reading}
    (h : x.map (.cons c) = .ok r) : ∃ r', x = .ok r' ∧ r = r'.cons c := by
  cases x with
  | error f => cases h
  | ok r' => exact ⟨r', rfl, (Except.ok.inj h).symm⟩

theorem body_of_readBody {r : Reading} (h : readBody n t = .ok r) :
    ∃ w, Body w r.value ∧ t = w ++ quote :: r.rest ∧ r.length = n + w.length + 1 := by
  fun_induction readBody n t generalizing r with
  | case1 => cases h
  | case2 n rest => cases h; exact ⟨[], .nil, rfl, rfl⟩
  | case3 => cases h
  | case4 n a b c d rest u hu _ ih =>
    obtain ⟨r', hr, rfl⟩ := map_cons_eq_ok h
    obtain ⟨w, hw, rfl, hlen⟩ := ih hr
    exact ⟨_, .unicode hu hw, rfl, by rw [Reading.cons, hlen]; simp; omega⟩
  | case5 => cases h
  | case6 => cases h
  | case7 n e rest he u hu _ ih =>
    obtain ⟨r', hr, rfl⟩ := map_cons_eq_ok h
    obtain ⟨w, hw, rfl, hlen⟩ := ih hr
    exact ⟨_, .short he hu hw, rfl, by rw [Reading.cons, hlen]; simp; omega⟩
  | case8 => cases h
  | case9 n c rest hq hb ih =>
    obtain ⟨r', hr, rfl⟩ := map_cons_eq_ok h
    obtain ⟨w, hw, rfl, hlen⟩ := ih hr
    exact ⟨_, .unit hq hb hw, rfl, by rw [Reading.cons, hlen]; simp; omega⟩

theorem Body.readBody (h : Body w v) (n : Nat) (s : Text) :
    readBody n (w ++ quote :: s) = .ok ⟨v, n + w.length + 1, s⟩ := by
  have hne : backslash ≠ quote := by decide
  have step : ∀ {k m : Nat} {c : CodeUnit} {v : Text}, k = m →
      Except.map (Reading.cons c) (.ok ⟨v, k, s⟩ : Except Fault Reading) = .ok ⟨c :: v, m, s⟩ := by
    rintro k _ c v rfl; rfl
  induction h generalizing n with
  | nil => rw [List.nil_append, Quoted.readBody.eq_def]; exact if_pos rfl
  | unit hq hb _ ih =>
    rw [List.cons_append, Quoted.readBody.eq_def]
    simp only [if_neg hq, if_neg hb, ih]
    exact step (by simp; omega)
  | short he hu _ ih =>
    rw [List.cons_append, List.cons_append, Quoted.readBody.eq_def]
    simp only [if_neg hne, if_neg he, hu, ih, if_true]
    exact step (by simp; omega)
  | unicode hu _ ih =>
    simp only [List.cons_append]
    rw [Quoted.readBody.eq_def]
    simp only [if_neg hne, hu, ih, if_true]
    exact step (by simp; omega)

theorem read_eq_ok_iff {r : Reading} : read t = .ok r ↔
    ∃ w, Body w r.value ∧ t = w ++ quote :: r.rest ∧ r.length = w.length + 2 := by
  constructor
  · intro h
    obtain ⟨w, hw, ht, hlen⟩ := body_of_readBody h
    exact ⟨w, hw, ht, by omega⟩
  · rintro ⟨w, hw, rfl, hlen⟩
    rw [read, hw.readBody, show 1 + w.length + 1 = r.length by omega]

/-! ### Writing -/

theorem hexValue?_hexDigit : ∀ n < 16, hexValue? (hexDigit n) = some n := by decide

theorem hexUnit?_digits (c : CodeUnit) : hexUnit? (hexDigit (c.toNat / 0x1000))
    (hexDigit (c.toNat / 0x100 % 0x10)) (hexDigit (c.toNat / 0x10 % 0x10))
    (hexDigit (c.toNat % 0x10)) = some c := by
  have hc : c.toNat < 0x10000 := UInt16.toNat_lt c
  rw [hexUnit?, hexValue?_hexDigit _ (by omega), hexValue?_hexDigit _ (by omega),
    hexValue?_hexDigit _ (by omega), hexValue?_hexDigit _ (by omega)]
  show some (UInt16.ofNat _) = some c
  rw [show ((c.toNat / 0x1000 * 0x10 + c.toNat / 0x100 % 0x10) * 0x10 + c.toNat / 0x10 % 0x10) * 0x10
    + c.toNat % 0x10 = c.toNat by omega, UInt16.ofNat_toNat]

theorem unescape?_of_shortEscape? {c e : CodeUnit} (h : shortEscape? c = some e) :
    e ≠ 0x75 ∧ unescape? e = some c := by
  unfold shortEscape? at h
  split_ifs at h with h1 h2 h3 h4 h5 h6 h7 <;> cases h <;> subst_vars <;> decide

theorem Body.encodeUnit_append (c : CodeUnit) (h : Body w v) : Body (encodeUnit c ++ w) (c :: v) := by
  unfold encodeUnit
  cases he : shortEscape? c with
  | some e =>
    obtain ⟨h1, h2⟩ := unescape?_of_shortEscape? he
    exact .short h1 h2 h
  | none =>
    simp only
    split_ifs
    · exact .unicode (hexUnit?_digits c) h
    · refine .unit ?_ ?_ h <;> rintro rfl <;> exact absurd he (by decide)

theorem body_encodeBody (t : Text) : Body (encodeBody t) t := by
  fun_induction encodeBody t with
  | case1 => exact .nil
  | case2 c => simpa using Body.nil.encodeUnit_append c
  | case3 c d rest h ih =>
    have hc : c.isHigh ∧ d.isLow := by simpa using h
    refine .unit ?_ ?_ (.unit ?_ ?_ ih)
    · rintro rfl; exact absurd hc.1 (by decide)
    · rintro rfl; exact absurd hc.1 (by decide)
    · rintro rfl; exact absurd hc.2 (by decide)
    · rintro rfl; exact absurd hc.2 (by decide)
  | case4 c d rest _ ih => exact ih.encodeUnit_append c

theorem read_encode (t s : Text) : read (encodeBody t ++ quote :: s) =
    .ok ⟨t, (encodeBody t).length + 2, s⟩ :=
  read_eq_ok_iff.mpr ⟨_, body_encodeBody t, rfl, rfl⟩

end Scim.Quoted

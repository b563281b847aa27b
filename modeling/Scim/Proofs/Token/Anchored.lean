import Scim.Proofs.Token.Range
import Scim.Proofs.Token.Tiling

/-!
# Where scanning fails

`Anchored lo hi r`: if `r` is a fault, its position is one from `lo` to `hi`, both included. The
faults of the scanner are anchored in the text that it scans (`anchored_scanFrom`), and so are its
tokens (`Inside`).
-/

namespace Scim

open CodeUnit

section Anchored

variable {α β : Type} {lo hi lo' hi' : Nat} {r : Except SyntaxFault α}

/-- A fault lies from `lo` to `hi`. -/
def Anchored (lo hi : Nat) (r : Except SyntaxFault α) : Prop :=
  ∀ f, r = .error f → lo ≤ f.position ∧ f.position ≤ hi

namespace Anchored

theorem ok (a : α) : Anchored lo hi (.ok a : Except SyntaxFault α) := by
  rintro f ⟨⟩

theorem error {f : SyntaxFault} (h : lo ≤ f.position ∧ f.position ≤ hi) :
    Anchored lo hi (.error f : Except SyntaxFault α) := by
  rintro _ ⟨⟩
  exact h

theorem mono (h : Anchored lo hi r) (hlo : lo' ≤ lo) (hhi : hi ≤ hi') : Anchored lo' hi' r :=
  fun f hf => ⟨Nat.le_trans hlo (h f hf).1, Nat.le_trans (h f hf).2 hhi⟩

theorem map {g : α → β} (h : Anchored lo hi r) : Anchored lo hi (r.map g) := by
  cases r with
  | ok a => exact .ok _
  | error f => exact .error (h f rfl)

end Anchored

end Anchored

/-! ### Strings -/

theorem Quoted.position_readBody {n : Nat} {t : Text} {f : Quoted.Fault}
    (h : readBody n t = .error f) : (Token.stringFault f).position ≤ n + t.length := by
  have hmap : ∀ {c : CodeUnit} {r : Except Fault Reading}, r.map (Reading.cons c) = .error f →
      r = .error f := by
    rintro c (g | r) h <;> cases h
    rfl
  fun_induction readBody n t with
  | case1 => cases h; exact Nat.zero_le _
  | case2 => cases h
  | case3 => cases h; exact Nat.zero_le _
  | case4 n a b c d rest u hu _ ih =>
    have := ih (hmap h)
    simp only [List.length_cons]
    omega
  | case5 => cases h; exact Nat.le_add_right ..
  | case6 => cases h; exact Nat.le_add_right ..
  | case7 n e rest he u hu _ ih =>
    have := ih (hmap h)
    simp only [List.length_cons]
    omega
  | case8 => cases h; exact Nat.le_add_right ..
  | case9 n c rest hq hb ih =>
    have := ih (hmap h)
    simp only [List.length_cons]
    omega

namespace Token

variable {o : ParserOptions} {beyond : Text} {before : Option CodeUnit} {pos start stop : Nat}
  {t : Text}

/-! ### Scanning -/

theorem anchored_stringLexeme (o : ParserOptions) (before : Option CodeUnit) (rest : Text) :
    Anchored 0 (rest.length + 1) (stringLexeme o before rest) := by
  rw [stringLexeme]
  split_ifs
  · exact .error ⟨Nat.le_refl 0, Nat.zero_le _⟩
  cases hr : Quoted.read rest with
  | error f =>
    have := Quoted.position_readBody hr
    exact .error ⟨Nat.zero_le _, by omega⟩
  | ok r =>
    obtain ⟨w, -, rfl, hlen⟩ := Quoted.read_eq_ok_iff.mp hr
    simp only
    split
    · rename_i c _ hrest
      split_ifs
      · refine .error ⟨Nat.zero_le _, ?_⟩
        simp only [hrest, List.length_append, List.length_cons]
        omega
      · exact .ok _
    · exact .ok _

theorem anchored_lexeme (o : ParserOptions) (beyond : Text) (before : Option CodeUnit) (c : CodeUnit)
    (rest : Text) : Anchored 0 (rest.length + 1) (lexeme o beyond before c rest) := by
  unfold lexeme
  cases Kind.ofPunctuation? c with
  | some k => exact .ok _
  | none =>
    simp only
    split_ifs
    · exact anchored_stringLexeme o before rest
    · exact .error ⟨Nat.le_refl 0, Nat.zero_le _⟩
    · rcases numberLexeme?_eq o beyond (c :: rest) with ⟨h, -⟩ | ⟨n, -, h⟩
      · rw [h]; exact .ok _
      · rw [h]
        cases numberValue? n with
        | some x => exact .ok _
        | none => exact .error ⟨Nat.le_refl 0, Nat.zero_le _⟩

/-- The faults of a scan lie in its text, or at its end. -/
theorem anchored_scanFrom (o : ParserOptions) (beyond : Text) (before : Option CodeUnit) (pos : Nat)
    (t : Text) : Anchored pos (pos + t.length) (scanFrom o beyond before pos t) := by
  fun_induction scanFrom o beyond before pos t with
  | case1 => exact .ok _
  | case2 before pos c rest hc ih => exact ih.mono (Nat.le_add_right ..) (by simp; omega)
  | case3 before pos c rest hc f hl =>
    have := (anchored_lexeme o beyond before c rest f hl).2
    exact .error ⟨Nat.le_add_right .., Nat.add_le_add_left this pos⟩
  | case4 before pos c rest hc l hl text ih =>
    refine (ih.mono (Nat.le_add_right ..) ?_).map
    simp only [text, List.length_cons, List.length_take, List.length_drop]
    omega

/-- The tokens stand from `lo` to `hi`. -/
def Inside (lo hi : Nat) (ts : List Token) : Prop :=
  ∀ x ∈ ts, lo ≤ x.position ∧ x.position + x.text.length ≤ hi

theorem anchored_scanRange (hstart : start ≤ stop) (hstop : stop ≤ t.length) :
    Anchored start stop (scanRange o t start stop) := by
  have hlen : ((t.take stop).drop start).length = stop - start := by simp [Nat.min_eq_left hstop]
  rw [scanRange_of_le hstop]
  exact (anchored_scanFrom o _ _ _ _).mono (Nat.le_refl _) (by omega)

theorem inside_of_scanRange {ts : List Token} (hstart : start ≤ stop) (hstop : stop ≤ t.length)
    (h : scanRange o t start stop = .ok ts) : Inside start stop ts := by
  have hlen : ((t.take stop).drop start).length = stop - start := by simp [Nat.min_eq_left hstop]
  rw [scanRange_of_le hstop] at h
  intro x hx
  have hin := (tiles_of_scanned (scanFrom_eq_ok_iff.mp h)).inside x hx
  omega

end Token

end Scim

import Scim.Proofs.Token.Scan

/-!
# Where tokens stand

`Tiles pos t ts`: the tokens `ts` lie in the text `t`, which stands at `pos`, one behind the other,
each is the slice of the text at its place, and nothing but white space is left between them. The
tokens of every scan do (`tiles_of_scanned`), also where further text stands behind a range. At the
place of a string stands what the string is read from (`readRange_of_scanRange`).
-/

namespace Scim.Token

open CodeUnit

variable {o : ParserOptions} {beyond : Text} {before : Option CodeUnit} {pos : Nat} {t : Text}
  {ts : List Token}

/-- The place `i` is one of the token's. -/
def Covers (x : Token) (i : Nat) : Prop := x.position ≤ i ∧ i < x.position + x.text.length

structure Tiles (pos : Nat) (t : Text) (ts : List Token) : Prop where
  inside : ∀ x ∈ ts, pos ≤ x.position ∧ x.position + x.text.length ≤ pos + t.length
  nonempty : ∀ x ∈ ts, x.text ≠ []
  slice : ∀ x ∈ ts, (t.drop (x.position - pos)).take x.text.length = x.text
  ordered : ts.Pairwise fun x y =>
    x.position < y.position ∧ x.position + x.text.length ≤ y.position
  blank : ∀ i c, t[i]? = some c → (∀ x ∈ ts, ¬ x.Covers (pos + i)) → c.isBlank

theorem Tiles.nil : Tiles pos [] [] where
  inside := by simp
  nonempty := by simp
  slice := by simp
  ordered := .nil
  blank := by simp

/-- White space in front. -/
theorem Tiles.cons_blank {c : CodeUnit} {rest : Text} (hc : c.isBlank)
    (h : Tiles (pos + 1) rest ts) : Tiles pos (c :: rest) ts where
  inside x hx := by
    have hin := h.inside x hx
    rw [List.length_cons]
    omega
  nonempty := h.nonempty
  slice x hx := by
    have hin := h.inside x hx
    rw [show x.position - pos = x.position - (pos + 1) + 1 by omega, List.drop_succ_cons]
    exact h.slice x hx
  ordered := h.ordered
  blank i d hd hfree := by
    cases i with
    | zero => cases hd; exact hc
    | succ i =>
      refine h.blank i d hd fun x hx => ?_
      rw [Nat.add_assoc, Nat.add_comm 1]
      exact hfree x hx

/-- A token in front. -/
theorem Tiles.cons_token {k : Kind} {w rest : Text} (hw : w ≠ [])
    (h : Tiles (pos + w.length) rest ts) : Tiles pos (w ++ rest) (⟨k, w, pos⟩ :: ts) where
  inside := by
    rw [List.forall_mem_cons, List.length_append]
    refine ⟨⟨Nat.le_refl _, by simp⟩, fun x hx => ?_⟩
    have hin := h.inside x hx
    omega
  nonempty := List.forall_mem_cons.mpr ⟨hw, h.nonempty⟩
  slice := by
    refine List.forall_mem_cons.mpr ⟨by simp, fun x hx => ?_⟩
    have hin := h.inside x hx
    rw [show x.position - pos = w.length + (x.position - (pos + w.length)) by omega,
      ← List.drop_drop, List.drop_left]
    exact h.slice x hx
  ordered := by
    refine List.pairwise_cons.mpr ⟨fun x hx => ?_, h.ordered⟩
    have hin := h.inside x hx
    have hpos := List.length_pos_iff.mpr hw
    simp only
    omega
  blank i d hd hfree := by
    obtain ⟨hfirst, hrest⟩ := List.forall_mem_cons.mp hfree
    have hi : w.length ≤ i := by
      simp only [Covers] at hfirst
      omega
    rw [List.getElem?_append_right hi] at hd
    refine h.blank _ d hd fun x hx => ?_
    rw [show pos + w.length + (i - w.length) = pos + i by omega]
    exact hrest x hx

theorem tiles_of_scanned (h : Scanned o beyond before pos t ts) : Tiles pos t ts := by
  induction h with
  | nil => exact .nil
  | blank hc _ ih => exact ih.cons_blank hc
  | @token _ pos c rest l ts _ _ _ ih =>
    have htiles := Tiles.cons_token (k := l.kind) (List.cons_ne_nil _ _) ih
    rwa [List.cons_append, List.take_append_drop] at htiles

/-! ### Strings -/

/-- What is taken off as a string has been read behind its opening quote. -/
theorem read_of_lexed {c : CodeUnit} {rest s : Text} {l : Lexeme}
    (h : Lexed o beyond before c rest l) (hs : l.kind = .value (.str s)) :
    ∃ r, Quoted.read rest = .ok r ∧ r.value = s ∧ r.length = (c :: rest.take l.more).length := by
  cases h with
  | @mark c _ _ hc => exact absurd (hc.trans (congrArg some hs)) (ofPunctuation?_ne_value c _)
  | @string _ r _ hr _ _ =>
    cases hs
    refine ⟨r, hr, rfl, ?_⟩
    obtain ⟨w, -, htext, hlength⟩ := Quoted.read_eq_ok_iff.mp hr
    have hrest := congrArg List.length htext
    rw [List.length_append, List.length_cons] at hrest
    simp only [List.length_cons, List.length_take]
    omega
  | number => cases hs
  | word => rcases value_of_ofWord hs with hv | ⟨b, hv⟩ <;> cases hv

theorem read_of_scanned (h : Scanned o beyond before pos t ts) :
    ∀ x ∈ ts, ∀ s, x.kind = .value (.str s) →
      ∃ r, Quoted.read (t.drop (x.position - pos + 1)) = .ok r ∧ r.value = s ∧
        r.length = x.text.length := by
  induction h with
  | nil => simp only [List.not_mem_nil, false_implies, implies_true]
  | @blank _ pos c rest ts _ h ih =>
    intro x hx s hs
    have hin := (tiles_of_scanned h).inside x hx
    rw [show x.position - pos = x.position - (pos + 1) + 1 by omega, List.drop_succ_cons]
    exact ih x hx s hs
  | @token _ pos c rest l ts _ hl h ih =>
    refine List.forall_mem_cons.mpr ⟨fun s hs => ?_, fun x hx s hs => ?_⟩
    · rw [Nat.sub_self, List.drop_succ_cons, List.drop_zero]
      exact read_of_lexed hl hs
    · have hin := (tiles_of_scanned h).inside x hx
      have hread := ih x hx s hs
      generalize hw : c :: rest.take l.more = w at hin hread
      have hsplit : c :: rest = w ++ rest.drop l.more := by
        rw [← hw, List.cons_append, List.take_append_drop]
      rw [hsplit, show x.position - pos + 1 = w.length + (x.position - (pos + w.length) + 1) by omega,
        ← List.drop_drop, List.drop_left]
      exact hread

/-- The strings among the tokens of a range are read from the range, at the places of the tokens. -/
theorem readRange_of_scanRange {start stop : Nat} (hstop : stop ≤ t.length)
    (h : scanRange o t start stop = .ok ts) : ∀ x ∈ ts, ∀ s, x.kind = .value (.str s) →
      ∃ r, Quoted.readRange t x.position stop = .ok r ∧ r.value = s ∧
        r.length = x.text.length := by
  rw [scanRange_of_le hstop] at h
  have hscanned := scanned_of_scanFrom h
  intro x hx s hs
  have hin := (tiles_of_scanned hscanned).inside x hx
  have hread := read_of_scanned hscanned x hx s hs
  rwa [List.drop_drop, show start + (x.position - start + 1) = x.position + 1 by omega] at hread

end Scim.Token

import Scim.Proofs.Token.Range
import Scim.Proofs.Token.Spelled
import Scim.Proofs.Token.Tiling

/-!
# Scanning loses nothing

A row of tokens can be put together again from the texts of the tokens and the white space between
them (`tiles_of_scanned`), and the text of each is scanned as that one token (`spelled_of_mem`). Two
texts with white space between them are scanned one after the other, whatever comes of the second
(`Spelled.scanFrom_append`); for this the white space must not belong to words.
-/

namespace Scim.Token

open CodeUnit

variable {o : ParserOptions} {beyond : Text} {before : Option CodeUnit} {pos : Nat} {t u w : Text}
  {ts : List Token}

/-- The text of a token on its own. -/
theorem spelled_of_mem (h : Spelled o before pos t ts) :
    ∀ x ∈ ts, Spelled o none 0 x.text [⟨x.kind, x.text, 0⟩] := by
  induction h with
  | nil => simp
  | blank _ _ ih => exact ih
  | mark hc _ ih => exact List.forall_mem_cons.mpr ⟨.mark hc .nil, ih⟩
  | @piece _ _ w _ _ _ hw _ _ _ ih =>
    have hpiece : Spelled o none 0 (w ++ []) _ := .piece hw (fun _ => rfl) .nil .nil
    rw [List.append_nil] at hpiece
    exact List.forall_mem_cons.mpr ⟨hpiece, ih⟩

/-! ### White space between two texts -/

/-- The unit in front of a text counts only if it belongs to words. -/
theorem scanFrom_before (h : before.any o.isWordUnit = false) (pos : Nat) (t : Text) :
    scanFrom o beyond before pos t = scanFrom o beyond none pos t := by
  cases t with
  | nil => rw [scanFrom, scanFrom]
  | cons c rest =>
    have hlexeme : lexeme o beyond before c rest = lexeme o beyond none c rest := by
      rw [lexeme, lexeme, stringLexeme, stringLexeme, h]
      rfl
    rw [scanFrom, scanFrom, hlexeme]

/-- White space that belongs to no word. -/
def IsGap (o : ParserOptions) (w : Text) : Prop := ∀ c ∈ w, c.isBlank ∧ o.isWordUnit c = false

theorem scanFrom_gap (hne : w ≠ []) (hw : IsGap o w) (before : Option CodeUnit) (pos : Nat)
    (t : Text) :
    scanFrom o beyond before pos (w ++ t) = scanFrom o beyond none (pos + w.length) t := by
  induction w generalizing before pos with
  | nil => exact absurd rfl hne
  | cons c w ih =>
    obtain ⟨⟨hc, hword⟩, hw⟩ := List.forall_mem_cons.mp hw
    rw [List.cons_append, scanFrom_blank hc]
    by_cases hnil : w = []
    · rw [hnil, List.nil_append, List.length_singleton]
      have hbefore : (some c).any o.isWordUnit = false := hword
      exact scanFrom_before hbefore (pos + 1) t
    · rw [ih hnil hw, List.length_cons, Nat.add_assoc, Nat.add_comm 1]

theorem Parted.append {r : Text} (hr : Parted o r) (hne : w ≠ []) (hw : IsGap o w) (t : Text) :
    Parted o (r ++ (w ++ t)) := by
  cases r with
  | cons c r => exact hr
  | nil =>
    obtain ⟨c, w, rfl⟩ := List.exists_cons_of_ne_nil hne
    rintro _ ⟨⟩
    exact ⟨(hw c (by simp)).2, .inl (hw c (by simp)).1⟩

/-- A text that is scanned to its end is scanned the same way in front of white space, and what
follows that as if it stood alone. -/
theorem Spelled.scanFrom_append (h : Spelled o before pos t ts) (hne : w ≠ []) (hw : IsGap o w)
    (u : Text) : scanFrom o [] before pos (t ++ (w ++ u)) =
      (scanFrom o [] none (pos + (t ++ w).length) u).map (ts ++ ·) := by
  have hcons : ∀ (x : Token) (us : List Token) (r : Except SyntaxFault (List Token)),
      (r.map (us ++ ·)).map (x :: ·) = r.map (x :: us ++ ·) := by
    rintro x us (f | vs) <;> rfl
  induction h with
  | nil =>
    rw [List.nil_append, scanFrom_gap hne hw]
    exact (congrFun Except.map_id _).symm
  | blank hc _ ih =>
    rw [List.cons_append, scanFrom_blank hc, ih, List.cons_append, List.length_cons, Nat.add_assoc,
      Nat.add_comm 1]
  | mark hc _ ih =>
    rw [List.cons_append, scanFrom_lexed (not_isBlank_of_ofPunctuation? hc) (.mark hc)]
    simp only [List.take_zero, List.drop_zero, List.getLast?_singleton, List.length_singleton]
    rw [ih, hcons, List.cons_append, List.length_cons, Nat.add_assoc, Nat.add_comm 1]
  | @piece before pos v r k ts hv hbefore hr _ ih =>
    obtain ⟨c, v, rfl, hblank, -⟩ := hv.exists_cons
    have hlexed := hv.lexed (fun hq => hbefore (congrArg some hq)) (hr.append hne hw u)
    rw [List.append_assoc, List.cons_append, scanFrom_lexed hblank hlexed, List.take_left,
      List.drop_left, ih, hcons, List.append_assoc, List.length_append, List.length_append,
      List.length_append, Nat.add_assoc]

/-- Scanning is lossless: the tokens stand in order, each is the slice of the text at its place and
is scanned from that slice alone, and all else is white space. And it is compositional: behind a
text that is scanned, and white space, any text is scanned as it is alone, at its new place. -/
theorem scan_lossless (ho : ∀ c ∈ o.extended, ¬ c.isBlank) :
    (∀ t ts, scan o t = .ok ts →
      Tiles 0 t ts ∧ ∀ x ∈ ts, scan o x.text = .ok [⟨x.kind, x.text, 0⟩]) ∧
    ∀ t w u ts, scan o t = .ok ts → w ≠ [] → (∀ c ∈ w, c.isBlank) →
      scan o (t ++ w ++ u) = (shifted (t ++ w).length (scan o u)).map (ts ++ ·) := by
  refine ⟨fun t ts h => ⟨?_, fun x hx => ?_⟩, fun t w u ts h hne hw => ?_⟩
  · exact tiles_of_scanned (scanFrom_eq_ok_iff.mp h)
  · exact spelled_iff.mpr (spelled_of_mem (spelled_iff.mp h) x hx)
  · have hgap : IsGap o w := fun c hc => ⟨hw c hc, ParserOptions.isWordUnit_of_isBlank ho (hw c hc)⟩
    rw [scan, scan, List.append_assoc, (spelled_iff.mp h).scanFrom_append hne hgap, Nat.zero_add,
      ← scanFrom_shift, Nat.add_zero]

/-- `#id` and a string, with the number sign as a further unit; then `"` alone, which is refused. -/
theorem scan_lossless_numberSign :
    (∀ c ∈ (⟨[0x23]⟩ : ParserOptions).extended, ¬ c.isBlank) ∧
      scan ⟨[0x23]⟩ (Text.ofString "#id eq \"a b\"" ++ [0x20] ++ Text.ofString "\"") =
        .error ⟨.unterminatedString, 13⟩ := by
  have ho : ∀ c ∈ (⟨[0x23]⟩ : ParserOptions).extended, ¬ c.isBlank :=
    List.forall_mem_singleton.mpr (by decide)
  have hscan : scan ⟨[0x23]⟩ (Text.ofString "#id eq \"a b\"") = .ok
      [⟨.word, Text.ofString "#id", 0⟩, ⟨.comparison .eq, Text.ofString "eq", 4⟩,
        ⟨.value (.str (Text.ofString "a b")), Text.ofString "\"a b\"", 7⟩] := by decide +kernel
  refine ⟨ho, ?_⟩
  rw [(scan_lossless ho).2 _ [0x20] _ _ hscan (by decide) (List.forall_mem_singleton.mpr (by decide))]
  decide +kernel

end Scim.Token

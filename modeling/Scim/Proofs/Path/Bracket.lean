import Scim.Path.Parse
import Scim.Proofs.Filter.Parse

/-!
# The end of a bracket

Two readers meet in a bracket: `splitBracket` looks for its end by counting brackets outside of
strings, and the scanner cuts what stands inside into tokens. They agree: over a text that scans,
the count changes as the tokens nest (`passes_of_scanned`), and the tokens of a filter close what
they open (`Derives.nests`). So a bracket around a text that is a filter ends behind that text
(`splitBracket_of_parse`).
-/

namespace Scim

open CodeUnit

/-! ### Nesting of tokens -/

/-- With `d` square brackets open in front of the tokens, `e` are open behind them. -/
inductive Token.Nests : Nat → List Token → Nat → Prop
  | nil {d : Nat} : Nests d [] d
  | opening {d e : Nat} {t : Token} {ts : List Token} (ht : t.kind = .openBracket)
    (h : Nests (d + 1) ts e) : Nests d (t :: ts) e
  | closing {d e : Nat} {t : Token} {ts : List Token} (ht : t.kind = .closeBracket)
    (h : Nests d ts e) : Nests (d + 1) (t :: ts) e
  | other {d e : Nat} {t : Token} {ts : List Token} (hopen : t.kind ≠ .openBracket)
    (hclose : t.kind ≠ .closeBracket) (h : Nests d ts e) : Nests d (t :: ts) e

theorem Token.Nests.append {d e k : Nat} {ts us : List Token} (h : Nests d ts e)
    (h' : Nests e us k) : Nests d (ts ++ us) k := by
  induction h with
  | nil => exact h'
  | opening ht _ ih => exact .opening ht (ih h')
  | closing ht _ ih => exact .closing ht (ih h')
  | other hopen hclose _ ih => exact .other hopen hclose (ih h')

theorem Token.Nests.kind {d e : Nat} {t : Token} {ts : List Token} {k : Kind} (ht : t.kind = k)
    (h : Nests d ts e) (hopen : k ≠ .openBracket := by decide)
    (hclose : k ≠ .closeBracket := by decide) : Nests d (t :: ts) e :=
  .other (ht ▸ hopen) (ht ▸ hclose) h

theorem Token.Nests.of_other {d e : Nat} {t : Token} {ts : List Token} (hopen : t.kind ≠ .openBracket)
    (hclose : t.kind ≠ .closeBracket) (h : Nests d (t :: ts) e) : Nests d ts e := by
  cases h with
  | opening ht => exact absurd ht hopen
  | closing ht => exact absurd ht hclose
  | other _ _ h => exact h

namespace Filter

open Token (Nests)

variable {o : ParserOptions}

mutual

theorem Derives.nests : ∀ {ts : List Token} {f : Filter}, Derives o ts f → ∀ d, Nests d ts d
  | _, _, .alternatives h, d => h.nests d

theorem Row.nests : ∀ {op : Connective} {ts : List Token} {f : Filter} {fs : List Filter},
    Row o op ts f fs → ∀ d, Nests d ts d
  | _, _, _, _, .single h, d => h.nests d
  | _, _, _, _, .cons h ht hrest, d => (h.nests d).append (.kind ht (hrest.nests d) nofun nofun)

theorem Operand.nests : ∀ {op : Connective} {ts : List Token} {f : Filter},
    Operand o op ts f → ∀ d, Nests d ts d
  | _, _, _, .conjunction h, d => h.nests d
  | _, _, _, .not ht hopen h hclose, d =>
    .kind ht (.kind hopen ((h.nests d).append (.kind hclose .nil)))
  | _, _, _, .group hopen h hclose, d => .kind hopen ((h.nests d).append (.kind hclose .nil))
  | _, _, _, .complex ht _ hopen h hclose, d =>
    .kind ht (.opening hopen ((h.nests (d + 1)).append (.closing hclose .nil)))
  | _, _, _, .present ht _ hop, _ => .kind ht (.kind hop .nil)
  | _, _, _, .compare ht _ hop hvalue, _ =>
    .kind ht (.kind hop (.kind hvalue .nil nofun nofun) nofun nofun)

end

end Filter

/-! ### Counting brackets in a text -/

namespace Path

open Token (Nests Scanned Lexed)

/-- Over `u`, which ends outside of any string, the count of open brackets goes from `d` to `e`. -/
def Passes (d : Nat) (u : Text) (e : Nat) : Prop :=
  ∀ s, splitBracket d false (u ++ s) = (splitBracket e false s).map fun r => (u ++ r.1, r.2)

variable {d e k : Nat} {c : CodeUnit} {u v : Text}

theorem Passes.nil : Passes d [] d := fun s => by simp

theorem Passes.append (h : Passes d u e) (h' : Passes e v k) : Passes d (u ++ v) k := by
  intro s
  rw [List.append_assoc, h, h', Option.map_map]
  exact congrArg (Option.map · _) (funext fun r => by simp)

theorem Passes.unit (hq : c ≠ quote) (ho : c ≠ openBracket) (hc : c ≠ closeBracket) :
    Passes d [c] d := by
  intro s
  rw [List.singleton_append, splitBracket.eq_def]
  simp only [Bool.false_eq_true, if_false, if_neg hq, if_neg ho, if_neg hc]
  rfl

theorem Passes.opening : Passes d [openBracket] (d + 1) := by
  intro s
  have hq : openBracket ≠ quote := by decide
  rw [List.singleton_append, splitBracket.eq_def]
  simp only [Bool.false_eq_true, if_false, if_neg hq, if_true]
  rfl

theorem Passes.closing : Passes (d + 1) [closeBracket] d := by
  intro s
  have hq : closeBracket ≠ quote := by decide
  have ho : closeBracket ≠ openBracket := by decide
  rw [List.singleton_append, splitBracket.eq_def]
  simp only [Bool.false_eq_true, if_false, if_neg hq, if_neg ho, if_true]
  rfl

theorem Passes.plain (h : ∀ c ∈ u, c ≠ quote ∧ c ≠ openBracket ∧ c ≠ closeBracket) :
    Passes d u d := by
  induction u with
  | nil => exact .nil
  | cons c u ih =>
    obtain ⟨hq, ho, hc⟩ := h c (by simp)
    exact (Passes.unit hq ho hc).append (ih fun x hx => h x (List.mem_cons_of_mem _ hx))

/-! ### Strings -/

/-- What the count makes of `s` inside a string, with `w` in front of it. -/
def InString (d : Nat) (w s : Text) : Prop :=
  splitBracket d true (w ++ s) = (splitBracket d true s).map fun r => (w ++ r.1, r.2)

theorem inString_unit {s : Text} (hq : c ≠ quote) (hb : c ≠ backslash) : InString d [c] s := by
  rw [InString, List.singleton_append, splitBracket.eq_def]
  simp only [if_true, if_neg hb, bne_iff_ne.mpr hq]
  rfl

theorem inString_escape {s : Text} : InString d [backslash, c] s := by
  rw [InString, List.cons_append, List.singleton_append, splitBracket.eq_def]
  simp only [if_true]
  rfl

theorem InString.append {s : Text} (h : InString d u (v ++ s)) (h' : InString d v s) :
    InString d (u ++ v) s := by
  rw [InString, List.append_assoc, h, h', Option.map_map]
  exact congrArg (Option.map · _) (funext fun r => by simp)

theorem ne_of_hexValue? {n : Nat} (h : Quoted.hexValue? c = some n) : c ≠ quote ∧ c ≠ backslash := by
  constructor <;> rintro rfl <;> exact absurd h (by decide +revert)

theorem inString_hex {a b c x n : CodeUnit} {s : Text} (h : Quoted.hexUnit? a b c x = some n) :
    InString d [a, b, c, x] s := by
  simp only [Quoted.hexUnit?, Option.bind_eq_bind, Option.bind_eq_some_iff] at h
  obtain ⟨i, ha, j, hb, k, hc, l, hx, -⟩ := h
  have unit {y : CodeUnit} {m : Nat} {s : Text} (hy : Quoted.hexValue? y = some m) :
      InString d [y] s := inString_unit (ne_of_hexValue? hy).1 (ne_of_hexValue? hy).2
  exact (unit ha).append ((unit hb).append ((unit hc).append (unit hx)))

theorem inString_body {w s : Text} (h : Quoted.Body w v) : InString d w s := by
  induction h with
  | nil => simp [InString]
  | unit hq hb _ ih => exact (inString_unit hq hb).append ih
  | short _ _ _ ih => exact inString_escape.append ih
  | unicode hu _ ih => exact (inString_escape.append (inString_hex hu)).append ih

theorem Passes.string {w : Text} (h : Quoted.Body w v) : Passes d (quote :: (w ++ [quote])) d := by
  intro s
  have hb : quote ≠ backslash := by decide
  have hopen : splitBracket d false (quote :: (w ++ quote :: s)) =
      (splitBracket d true (w ++ quote :: s)).map fun r => (quote :: r.1, r.2) := by
    rw [splitBracket.eq_def]
    simp only [Bool.false_eq_true, if_false, if_true]
  have hclose : splitBracket d true (quote :: s) =
      (splitBracket d false s).map fun r => (quote :: r.1, r.2) := by
    rw [splitBracket.eq_def]
    simp only [if_true, if_neg hb, bne_self_eq_false]
  have hbody : InString d w (quote :: s) := inString_body h
  calc splitBracket d false (quote :: (w ++ [quote]) ++ s)
      = splitBracket d false (quote :: (w ++ quote :: s)) := by simp
    _ = ((splitBracket d false s).map fun r => (quote :: (w ++ quote :: r.1), r.2)) := by
      rw [hopen, hbody, hclose, Option.map_map, Option.map_map]; rfl
    _ = _ := congrArg (Option.map · _) (funext fun r => by simp)

/-! ### Scanned texts -/

theorem ofPunctuation?_cases {k : Token.Kind} (h : Token.Kind.ofPunctuation? c = some k) :
    (c = openBracket ∧ k = .openBracket) ∨ (c = closeBracket ∧ k = .closeBracket) ∨
      (c ≠ quote ∧ c ≠ openBracket ∧ c ≠ closeBracket) ∧ k ≠ .openBracket ∧ k ≠ .closeBracket := by
  unfold Token.Kind.ofPunctuation? at h
  split_ifs at h with h1 h2 h3 h4 h5 <;> cases h <;> subst_vars <;> decide

theorem ofWord_ne_bracket (w : Text) :
    Token.Kind.ofWord w ≠ .openBracket ∧ Token.Kind.ofWord w ≠ .closeBracket := by
  have hkeywords : ∀ k ∈ Token.Kind.keywords, k.2 ≠ .openBracket ∧ k.2 ≠ .closeBracket := by decide
  rcases Token.ofWord_cases w with ⟨op, h⟩ | ⟨k, hk, h⟩ | h <;> rw [h]
  · simp
  · exact hkeywords k hk
  · simp

theorem not_mark_of_isWordUnit (h : ParserOptions.default.isWordUnit c) :
    c ≠ quote ∧ c ≠ openBracket ∧ c ≠ closeBracket := by
  have hne {d : CodeUnit} := ParserOptions.ne_of_isWordUnit h (d := d)
  exact ⟨hne (ParserOptions.isWordUnit_mark _ (by simp)),
    hne (ParserOptions.isWordUnit_mark _ (by simp)), hne (ParserOptions.isWordUnit_mark _ (by simp))⟩

theorem not_mark_of_isNumeralUnit (h : c.IsNumeralUnit) :
    c ≠ quote ∧ c ≠ openBracket ∧ c ≠ closeBracket := by
  refine ⟨?_, ?_, ?_⟩ <;> rintro rfl <;> revert h <;> decide

/-- The count over the text of one token changes as the token nests. -/
theorem passes_of_lexed {beyond : Text} {before : Option CodeUnit} {rest : Text} {l : Token.Lexeme}
    {pos : Nat} {ts : List Token} (h : Lexed .default beyond before c rest l)
    (hn : Nests d (⟨l.kind, c :: rest.take l.more, pos⟩ :: ts) e) :
    ∃ k, Passes d (c :: rest.take l.more) k ∧ Nests k ts e := by
  cases h with
  | mark hc =>
    rcases ofPunctuation?_cases hc with ⟨rfl, rfl⟩ | ⟨rfl, rfl⟩ | ⟨hunit, hopen, hclose⟩
    · cases hn with
      | opening _ hn => exact ⟨d + 1, .opening, hn⟩
      | closing ht => cases ht
      | other ho => exact absurd rfl ho
    · cases hn with
      | opening ht => cases ht
      | closing _ hn => exact ⟨_, .closing, hn⟩
      | other _ hc => exact absurd rfl hc
    · exact ⟨d, .unit hunit.1 hunit.2.1 hunit.2.2, hn.of_other hopen hclose⟩
  | string _ hr =>
    obtain ⟨w, hw, htake⟩ := Token.take_of_read hr
    exact ⟨d, htake ▸ .string hw, hn.of_other (by simp) (by simp)⟩
  | number _ _ _ hnum =>
    rw [hnum.take_eq]
    exact ⟨d, .plain fun x hx => not_mark_of_isNumeralUnit (hnum.text_eq.1.isNumeralUnit hx),
      hn.of_other (by simp) (by simp)⟩
  | word _ _ hword =>
    obtain ⟨hopen, hclose⟩ := ofWord_ne_bracket (c :: rest.takeWhile ParserOptions.default.isWordUnit)
    refine ⟨d, .plain fun x hx => not_mark_of_isWordUnit ?_, hn.of_other hopen hclose⟩
    rw [(List.prefix_iff_eq_take.mp (List.takeWhile_prefix _)).symm] at hx
    rcases List.mem_cons.mp hx with rfl | hx
    · exact hword
    · exact List.all_eq_true.mp (List.all_takeWhile ..) x hx

theorem passes_of_scanned {beyond : Text} {before : Option CodeUnit} {pos : Nat} {t : Text}
    {ts : List Token} (h : Scanned .default beyond before pos t ts) (hn : Nests d ts e) :
    Passes d t e := by
  induction h generalizing d with
  | nil => cases hn; exact .nil
  | @blank _ _ c _ _ hc _ ih =>
    refine (Passes.unit ?_ ?_ ?_).append (ih hn) <;> rintro rfl <;> revert hc <;> decide
  | @token _ _ c rest l _ _ hl _ ih =>
    obtain ⟨k, hpass, hrest⟩ := passes_of_lexed hl hn
    have h := hpass.append (ih hrest)
    rwa [List.cons_append, List.take_append_drop] at h

/-- A bracket around a filter ends behind the filter. -/
theorem splitBracket_of_parse {t : Text} {f : Filter} (h : Filter.parse .default t = .ok f)
    (s : Text) : splitBracket 0 false (t ++ closeBracket :: s) = some (t, s) := by
  obtain ⟨ts, hts, hf⟩ := Filter.parse_eq_ok_iff.mp h
  have hpass := passes_of_scanned (Token.scanFrom_eq_ok_iff.mp hts) (hf.nests 0)
  have hend : splitBracket 0 false (closeBracket :: s) = some ([], s) := by
    have hq : closeBracket ≠ quote := by decide
    have ho : closeBracket ≠ openBracket := by decide
    rw [splitBracket.eq_def]
    simp only [Bool.false_eq_true, if_false, if_neg hq, if_neg ho, if_true]
  rw [hpass, hend, Option.map_some, List.append_nil]

theorem splitBracket_sound {t s : Text} {quoted : Bool} (h : splitBracket d quoted t = some (u, s)) :
    t = u ++ closeBracket :: s := by
  fun_induction splitBracket d quoted t generalizing u with
  | case1 => cases h
  | case2 => cases h
  | case3 depth e rest ih =>
    obtain ⟨⟨v, s'⟩, hv, he⟩ := Option.map_eq_some_iff.mp h
    cases he
    rw [ih hv]; rfl
  | case7 => cases h; rfl
  | _ =>
    rename_i ih
    obtain ⟨⟨v, s'⟩, hv, he⟩ := Option.map_eq_some_iff.mp h
    cases he
    rw [ih hv]; rfl

end Path

end Scim

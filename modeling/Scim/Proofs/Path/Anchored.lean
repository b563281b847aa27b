import Scim.Proofs.Filter.Anchored
import Scim.Proofs.Path.Parse

/-!
# Where reading a path fails

Every fault of the reader of paths lies in the text, or at its end (`anchored_parse`). A fault is one
of the elements themselves (`ElementFault`), or one of the filter in a pair of brackets
(`SelectorFails`); then it lies behind the opening bracket, and not behind the closing one
(`SelectorFails.exists_fault`). For a whole path the places are counted from the front of the text,
with white space and the URN (`FailsItself`, `FailsInSelector`).
-/

namespace Scim

open CodeUnit

/-! ### Faults further right -/

theorem Anchored.shift {α : Type} {lo hi k : Nat} {r : Except SyntaxFault α} (h : Anchored lo hi r) :
    Anchored (k + lo) (k + hi) (r.mapError (SyntaxFault.shift k)) := by
  cases r with
  | ok a => exact .ok _
  | error f =>
    exact .error ⟨Nat.add_le_add_left (h f rfl).1 k, Nat.add_le_add_left (h f rfl).2 k⟩

namespace Path

variable {o : ParserOptions} {t before content after head rest : Text}

/-! ### Elements -/

theorem anchored_parseElement (o : ParserOptions) (t : Text) :
    Anchored 0 t.length (parseElement o t) := by
  intro f hf
  have hreads := reads_parseElement o t
  rw [hf] at hreads
  refine ⟨Nat.zero_le _, ?_⟩
  cases hreads with
  | nameless => exact Nat.zero_le _
  | unclosed => simp
  | blank _ _ hs => simp
  | refused _ _ hs _ hf =>
    obtain rfl := splitBracket_sound hs
    refine Nat.le_trans (Filter.anchored_parseRange (Nat.le_add_right ..) ?_ _ hf).2 ?_ <;>
      simp <;> omega

theorem anchored_parseElements (o : ParserOptions) (t : Text) :
    Anchored 0 t.length (parseElements o t) := by
  fun_induction parseElements o t with
  | case1 t f hf => exact .error (anchored_parseElement o t f hf)
  | case2 => exact .ok _
  | case3 =>
    rename_i t e n he rest f hf hrest ih
    have hlen := congrArg List.length hrest
    rw [List.length_drop, List.length_cons] at hlen
    have := (ih f hf).2
    exact .error ⟨Nat.zero_le _, by simp only [SyntaxFault.shift]; omega⟩
  | case4 => exact .ok _
  | case5 =>
    rename_i t e n he c rest hrest hc
    have hlen := congrArg List.length hrest
    rw [List.length_drop, List.length_cons] at hlen
    exact .error ⟨Nat.zero_le _, by simp only; omega⟩

/-- A text with `content` in brackets. -/
def enclosed (before content after : Text) : Text :=
  before ++ openBracket :: (content ++ closeBracket :: after)

/-- The elements in front are read, and then reading fails at the filter `content` in brackets. -/
inductive SelectorFails (o : ParserOptions) : Text → Text → Text → Prop
  | here {name content after : Text} (hname : o.IsName name)
    (hopen : o.isNameUnit openBracket = false)
    (hs : splitBracket 0 false (content ++ closeBracket :: after) = some (content, after))
    (hf : ∀ f, Filter.parse o content ≠ .ok f) : SelectorFails o name content after
  | behind {w before content after : Text} {e : PathElement}
    (he : parseElement o (w ++ dot :: enclosed before content after) = .ok (e, w.length))
    (h : SelectorFails o before content after) : SelectorFails o (w ++ dot :: before) content after

theorem enclosed_append (u before content after : Text) :
    enclosed (u ++ before) content after = u ++ enclosed before content after := by
  simp [enclosed]

/-- Such a failure lies behind the opening bracket and not behind the closing one. -/
theorem SelectorFails.exists_fault (h : SelectorFails o before content after) :
    ∃ f, parseElements o (enclosed before content after) = .error f ∧
      before.length < f.position ∧ f.position ≤ before.length + 1 + content.length := by
  induction h with
  | @here name content after hname hopen hs hf =>
    have hread := parseElement_open hname hopen (r := content ++ closeBracket :: after)
    rw [hs] at hread
    simp only at hread
    split_ifs at hread with hblank
    · exact ⟨_, by rw [parseElements, enclosed, hread], Nat.lt_succ_self _, Nat.le_add_right ..⟩
    · cases hrange : Filter.parseRange o (name ++ openBracket :: (content ++ closeBracket :: after))
          (name.length + 1) (name.length + 1 + content.length) with
      | ok f => exact absurd ((parseRange_bracket name after).mp hrange) (hf f)
      | error f =>
        rw [hrange] at hread
        have hpos := Filter.anchored_parseRange (Nat.le_add_right ..) (by simp; omega) f hrange
        exact ⟨f, by rw [parseElements, enclosed, hread]; rfl, hpos⟩
  | @behind w before content after e he _ ih =>
    obtain ⟨f, hf, hpos⟩ := ih
    refine ⟨f.shift (w.length + 1), ?_, ?_⟩
    · have hcons := parseElements_cons he (List.drop_left ..)
      rw [hf] at hcons
      rw [show w ++ dot :: before = (w ++ [dot]) ++ before by simp, enclosed_append]
      simpa using hcons
    · simp only [SyntaxFault.shift, List.length_append, List.length_cons]
      omega

/-- A fault of the elements themselves: one has no name, or its bracket is not closed, or what stands
behind it is no point. -/
inductive ElementFault (o : ParserOptions) : Text → SyntaxFault → Prop
  | nameless {t : Text} (ht : ∀ c ∈ t.head?, o.isNameUnit c = false) :
    ElementFault o t ⟨.attributeNameExpected, 0⟩
  | unclosed {name r : Text} (hname : o.IsName name) (hopen : o.isNameUnit openBracket = false)
    (hs : splitBracket 0 false r = none) :
    ElementFault o (name ++ openBracket :: r) ⟨.unmatchedOpenBracket, name.length⟩
  | stray {w r : Text} {e : PathElement} {c : CodeUnit}
    (he : parseElement o (w ++ c :: r) = .ok (e, w.length)) (hc : c ≠ dot) :
    ElementFault o (w ++ c :: r) ⟨.unexpectedCharacter c, w.length⟩
  | behind {w t : Text} {e : PathElement} {f : SyntaxFault}
    (he : parseElement o (w ++ dot :: t) = .ok (e, w.length)) (h : ElementFault o t f) :
    ElementFault o (w ++ dot :: t) (f.shift (w.length + 1))

theorem parseElement_error {f : SyntaxFault} (h : parseElement o t = .error f) :
    ElementFault o t f ∨ ∃ before content after, t = enclosed before content after ∧
      SelectorFails o before content after := by
  have hreads := reads_parseElement o t
  rw [h] at hreads
  cases hreads with
  | nameless ht => exact .inl (.nameless ht)
  | unclosed hname hopen hs => exact .inl (.unclosed hname hopen hs)
  | @blank name content _ s hname hopen hs hblank =>
    obtain rfl := splitBracket_sound hs
    exact .inr ⟨name, content, s, rfl, .here hname hopen hs fun f hf =>
      trim_ne_nil_of_parse hf hblank⟩
  | @refused name content _ s _ hname hopen hs _ hf =>
    obtain rfl := splitBracket_sound hs
    refine .inr ⟨name, content, s, rfl, .here hname hopen hs fun f hparse => ?_⟩
    rw [(parseRange_bracket name s).mpr hparse] at hf
    cases hf

theorem parseElements_error {f : SyntaxFault} (h : parseElements o t = .error f) :
    ElementFault o t f ∨ ∃ before content after, t = enclosed before content after ∧
      SelectorFails o before content after := by
  fun_induction parseElements o t generalizing f with
  | case1 t g hg => cases h; exact parseElement_error hg
  | case2 => cases h
  | case3 =>
    rename_i t e n he rest g hg hrest ih
    cases h
    obtain ⟨w, r, -, rfl, rfl⟩ := written_of_parseElement he
    rw [List.drop_left] at hrest
    subst hrest
    rcases ih hg with hfault | ⟨before, content, after, rfl, hfails⟩
    · exact .inl (.behind he hfault)
    · refine .inr ⟨w ++ dot :: before, content, after, ?_, .behind he hfails⟩
      simp [enclosed]
  | case4 => cases h
  | case5 =>
    rename_i t e n he c rest hrest hc
    cases h
    obtain ⟨w, r, -, rfl, rfl⟩ := written_of_parseElement he
    rw [List.drop_left] at hrest
    subst hrest
    exact .inl (.stray he hc)

/-! ### Whole paths -/

theorem anchored_parse (o : ParserOptions) (t : Text) : Anchored 0 t.length (parse o t) := by
  obtain ⟨trail, ht⟩ := t.exists_trail
  obtain ⟨head, rest, htrim, hheads⟩ := exists_heads t.trim
  have hlen := congrArg List.length ht
  rw [List.length_append, List.length_append, htrim, List.length_append] at hlen
  obtain ⟨urn, hread⟩ := parse_of_heads htrim hheads
  rw [hread]
  split_ifs
  · exact .ok _
  · exact ((anchored_parseElements o rest).map).shift.mono (by omega) (by omega)

/-- Reading the path `t` fails at the filter `content`, in brackets behind `before`. -/
structure FailsInSelector (o : ParserOptions) (t before content after : Text) : Prop where
  text : t = enclosed before content after
  fails : ∃ head inner rest, t.trim = head ++ enclosed inner content rest ∧
    Heads head (enclosed inner content rest) ∧ SelectorFails o inner content rest ∧
    before = t.takeWhile CodeUnit.isBlank ++ (head ++ inner)

theorem FailsInSelector.exists_fault (h : FailsInSelector o t before content after) :
    ∃ f, parse o t = .error f ∧
      before.length < f.position ∧ f.position ≤ before.length + 1 + content.length := by
  obtain ⟨head, inner, rest, htrim, hheads, hfails, rfl⟩ := h.fails
  obtain ⟨f, hf, hlo, hhi⟩ := hfails.exists_fault
  obtain ⟨urn, hread⟩ := parse_of_heads htrim hheads
  rw [hread, if_neg (by simp [enclosed]), hf]
  refine ⟨_, rfl, ?_⟩
  simp only [SyntaxFault.shift, List.length_append]
  omega

/-- Reading the path `t` fails with `f`, at a name, a bracket or a point of the path itself. -/
inductive FailsItself (o : ParserOptions) (t : Text) : SyntaxFault → Prop
  | intro {head rest : Text} {f : SyntaxFault} (htrim : t.trim = head ++ rest)
    (hheads : Heads head rest) (hne : rest ≠ []) (hf : ElementFault o rest f) :
    FailsItself o t (f.shift ((t.takeWhile CodeUnit.isBlank).length + head.length))

theorem parse_error {f : SyntaxFault} (h : parse o t = .error f) :
    FailsItself o t f ∨ ∃ before content after, FailsInSelector o t before content after := by
  obtain ⟨trail, ht⟩ := t.exists_trail
  obtain ⟨head, rest, htrim, hheads⟩ := exists_heads t.trim
  obtain ⟨urn, hread⟩ := parse_of_heads htrim hheads
  rw [hread] at h
  split_ifs at h with hempty
  cases hes : parseElements o rest with
  | ok es => rw [hes] at h; cases h
  | error g =>
    rw [hes] at h
    cases h
    rcases parseElements_error hes with hfault | ⟨inner, content, after, rfl, hfails⟩
    · exact .inl (.intro htrim hheads (by simpa using hempty) hfault)
    · refine .inr ⟨_, content, after ++ trail, ?_, head, inner, after, htrim, hheads, hfails, rfl⟩
      rw [htrim] at ht
      conv_lhs => rw [ht]
      simp [enclosed]

end Path

/-- What cannot be read is refused with the keyword for it and with a position in the text. So it is
never refused for having too few operands: operands are joined only where there are several. A path
is refused for a fault of its own or for a filter in it, and the fault of a filter lies behind the
bracket in front of the filter and not behind the one that closes it. -/
theorem ofText_error_anchored (o : ParserOptions) (t : Text) :
    (∀ e, Filter.ofText o t = .error e →
      e.kind = .request .invalidFilter ∧ ∃ p, e.position? = some p ∧ p ≤ t.length) ∧
    (∀ op f fs, fs ≠ [] → Filter.join? op (f :: fs) = some (Filter.chain op f fs)) ∧
    (∀ e, Path.ofText o t = .error e → e.kind = .request .invalidPath ∧
      ∃ f, e = .pathSyntax f ∧ e.position? = some f.position ∧ f.position ≤ t.length ∧
        (Path.FailsItself o t f ∨
          ∃ before content after, Path.FailsInSelector o t before content after)) ∧
    ∀ before content after, Path.FailsInSelector o t before content after →
      ∃ f, Path.ofText o t = .error (.pathSyntax f) ∧
        before.length < f.position ∧ f.position ≤ before.length + 1 + content.length := by
  refine ⟨fun e he => ?_, fun op f fs hne => ?_, fun e he => ?_, fun before content after h => ?_⟩
  · rw [Filter.ofText] at he
    cases hp : Filter.parse o t with
    | ok f => rw [hp] at he; cases he
    | error f =>
      rw [hp] at he
      cases he
      exact ⟨rfl, _, rfl, (Filter.anchored_parse o t f hp).2⟩
  · obtain ⟨g, gs, rfl⟩ := List.exists_cons_of_ne_nil hne
    rfl
  · rw [Path.ofText] at he
    cases hp : Path.parse o t with
    | ok f => rw [hp] at he; cases he
    | error f =>
      rw [hp] at he
      cases he
      exact ⟨rfl, f, rfl, rfl, (Path.anchored_parse o t f hp).2, Path.parse_error hp⟩
  · obtain ⟨f, hf, hpos⟩ := h.exists_fault
    exact ⟨f, by rw [Path.ofText, hf]; rfl, hpos⟩

/-- In `b.a[,]` the filter is refused, between its brackets. -/
theorem ofText_error_anchored_comma :
    Path.FailsInSelector .default (Text.ofString "b.a[,]") (Text.ofString "b.a") (Text.ofString ",")
        [] ∧
      ∃ f, Path.ofText .default (Text.ofString "b.a[,]") = .error (.pathSyntax f) ∧
        3 < f.position ∧ f.position ≤ 5 := by
  have hcomma : ∀ f, Filter.parse .default (Text.ofString ",") ≠ .ok f := by
    intro f hf
    obtain ⟨ts, hts, hd⟩ := Filter.parse_eq_ok_iff.mp hf
    have hscan : Token.scan .default (Text.ofString ",") = .ok [⟨.comma, Text.ofString ",", 0⟩] := by
      decide +kernel
    rw [hscan] at hts
    cases hts
    exact hd.kind_ne_comma _ (List.mem_cons_self ..) rfl
  have hb : Path.parseElement .default (Text.ofString "b" ++ dot ::
      Path.enclosed (Text.ofString "a") (Text.ofString ",") []) = .ok (⟨Text.ofString "b", none⟩, 1) :=
    have hname : ParserOptions.default.IsName (Text.ofString "b") := by decide
    Path.parseElement_plain hname (by rintro _ ⟨⟩; exact ParserOptions.isNameUnit_dot) (by decide)
  have hfails : Path.FailsInSelector .default (Text.ofString "b.a[,]") (Text.ofString "b.a")
      (Text.ofString ",") [] :=
    ⟨rfl, [], Text.ofString "b.a", [], by decide +kernel, .plain (by decide +kernel),
      .behind hb (.here (by decide) (by decide) (by decide) hcomma), by decide⟩
  exact ⟨hfails, (ofText_error_anchored .default _).2.2.2 _ _ _ hfails⟩

end Scim

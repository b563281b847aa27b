import Scim.Proofs.Filter.Written
import Scim.Proofs.Path.Parse

/-!
# Expressible filters and paths

The trees that have a written form. Every expressible filter, and every expressible path, is read
back from its written form as it was (`ofText_render_of_expressible`); the one exception is the path
of a schema whose URN is `urn` itself.
-/

namespace Scim

open CodeUnit

/-! ### Attribute paths of filters -/

/-- The words that are no attribute paths, in lower case. -/
def Token.reserved : List Text := Comparison.all.map Comparison.name ++ Kind.keywords.map (·.1)

/-- `urn`, or a text that begins with `urn:`, in any letter case. -/
def Text.IsUrnName (urn : Text) : Prop := urn.lower = "urn" ∨ Text.lower (urn.take 4) = "urn:"

/-- One name or more without filters, and a URN of word units. Without a URN the names are neither a
reserved word nor a number. -/
structure Path.IsNameable (p : Path) : Prop where
  elements : p.elements ≠ []
  names : ∀ e ∈ p.elements, ParserOptions.default.IsName e.name ∧ e.selector = none
  urn : ∀ urn ∈ p.schemaUrn, ∀ c ∈ urn, ParserOptions.default.isWordUnit c
  word : p.schemaUrn = none → p.render.lower ∉ Token.reserved ∧
    ∀ n : Numeral, n.WellFormed → n.text ≠ p.render

/-- The attribute paths are nameable, with a URN that is one, and the values are exact. -/
def Filter.Expressible (f : Filter) : Prop :=
  f.Every (fun p => p.IsNameable ∧ ∀ urn ∈ p.schemaUrn, urn.IsUrnName) Literal.IsExact

/-- Names of name units, a URN without a bracket, and expressible filters. -/
structure Path.Expressible (p : Path) : Prop where
  names : ∀ e ∈ p.elements, ParserOptions.default.IsName e.name
  selectors : ∀ e ∈ p.elements, ∀ f ∈ e.selector, f.Expressible
  urn : ∀ urn ∈ p.schemaUrn, urn.IsUrnName ∧ openBracket ∉ urn

theorem Token.ofWord_of_not_reserved {w : Text} (h : w.lower ∉ reserved) : Kind.ofWord w = .word := by
  have hop : Comparison.ofName? w.lower = none := by
    rw [Comparison.ofName?, List.find?_eq_none]
    intro op hop heq
    exact h (List.mem_append_left _ (List.mem_map.mpr ⟨op, hop, beq_iff_eq.mp heq⟩))
  have hkey : Kind.keywords.find? (fun k => k.1 == w.lower) = none := by
    rw [List.find?_eq_none]
    intro k hk heq
    exact h (List.mem_append_right _ (List.mem_map.mpr ⟨k, hk, beq_iff_eq.mp heq⟩))
  rw [Kind.ofWord, hop]
  simp only [hkey, Option.map_none, Option.getD_none]

theorem Token.not_reserved_of_colon {w : Text} (hw : colon ∈ w) : w.lower ∉ reserved := by
  intro hmem
  have hreserved : ∀ s ∈ reserved, s.isPlain ∧ colon ∉ s := by decide
  obtain ⟨hplain, hcolon⟩ := hreserved _ hmem
  refine hcolon ?_
  rw [← (Text.map_asciiLower_of_lower rfl hplain).2]
  exact List.mem_map.mpr ⟨colon, hw, by decide⟩

theorem Text.IsUrnName.isUrn {urn t : Text} (h : urn.IsUrnName) (ht : t ≠ [] ∨ urn.lower ≠ "urn") :
    (urn ++ colon :: t).isUrn := by
  rw [isUrn_iff]
  rcases h with h | h
  · exact ⟨urn, t, rfl, h, ht.resolve_right fun hne => hne h⟩
  · obtain ⟨u, r, rfl, hu⟩ := lower_take_four_iff.mp h
    exact ⟨u, r ++ colon :: t, by simp, hu, by simp⟩

namespace Path

variable {p : Path}

theorem exists_names (h : p.IsNameable) : ∃ names, names ≠ [] ∧
    (∀ n ∈ names, ParserOptions.default.IsName n) ∧ p = ofNames p.schemaUrn names := by
  obtain ⟨urn, es⟩ := p
  refine ⟨es.map (·.name), by simpa using h.elements, ?_, ?_⟩
  · intro n hn
    obtain ⟨e, he, rfl⟩ := List.mem_map.mp hn
    exact (h.names e he).1
  · have hes : es.map (fun e => (⟨e.name, none⟩ : PathElement)) = es := by
      conv_rhs => rw [← List.map_id es]
      refine List.map_congr_left fun e he => ?_
      obtain ⟨n, s⟩ := e
      rw [show s = none from (h.names _ he).2]; rfl
    rw [ofNames, List.map_map]
    exact congrArg (Path.mk urn) hes.symm

theorem units_of_isName {names : List Text} (h : ∀ n ∈ names, ParserOptions.default.IsName n) :
    ∀ c ∈ Text.join [dot] names, c = dot ∨ ParserOptions.default.isNameUnit c := by
  intro c hc
  rcases Text.mem_join hc with hc | ⟨n, hn, hc⟩
  · exact .inl hc
  · exact .inr ((h n hn).2 c hc)

theorem colon_not_mem_of_isName {names : List Text}
    (h : ∀ n ∈ names, ParserOptions.default.IsName n) : colon ∉ Text.join [dot] names := by
  intro hc
  rcases units_of_isName h _ hc with hc | hc
  · exact absurd hc (by decide)
  · rw [ParserOptions.isNameUnit_colon] at hc
    cases hc

theorem isWordUnit_of_isName {names : List Text}
    (h : ∀ n ∈ names, ParserOptions.default.IsName n) :
    ∀ c ∈ Text.join [dot] names, ParserOptions.default.isWordUnit c := by
  intro c hc
  rcases units_of_isName h c hc with rfl | hc
  · decide
  · exact ParserOptions.isWordUnit_of_isNameUnit hc

theorem IsNameable.isAttribute (h : p.IsNameable) (hurn : ∀ urn ∈ p.schemaUrn, urn.IsUrnName) :
    p.IsAttribute := by
  obtain ⟨names, hne, hall, hp⟩ := exists_names h
  have hnames := areNames_of_isName hne hall
  have hcolon := colon_not_mem_of_isName hall
  have hunits := isWordUnit_of_isName hall
  cases hu : p.schemaUrn with
  | none =>
    rw [hu] at hp
    have hword : Word .default (Text.join [dot] names) p := hp ▸ .plain
      (fun h => hcolon (Text.colon_mem_of_isUrn h)) hnames
    obtain ⟨hreserved, hnumeral⟩ := h.word hu
    rw [hword.render] at hreserved hnumeral
    exact .of_word hword ⟨hnames.join_ne_nil, hunits, hnumeral⟩
      (Token.ofWord_of_not_reserved hreserved)
  | some urn =>
    rw [hu] at hp
    have hmem : colon ∈ urn ++ colon :: Text.join [dot] names := by simp
    have hword : Word .default (urn ++ colon :: Text.join [dot] names) p := hp ▸ .qualified
      ((hurn urn hu).isUrn (.inl hnames.join_ne_nil)) hcolon hnames
    refine .of_word hword ⟨by simp, fun c hc => ?_, fun n hn htext => ?_⟩
      (Token.ofWord_of_not_reserved (Token.not_reserved_of_colon hmem))
    · rcases List.mem_append.mp hc with hc | hc
      · exact h.urn urn hu c hc
      · rcases List.mem_cons.mp hc with rfl | hc
        · decide
        · exact hunits c hc
    · exact absurd (hn.isNumeralUnit (htext ▸ hmem)) (by decide)

end Path

theorem Filter.Expressible.ofText_render {f : Filter} (h : f.Expressible) :
    ofText .default f.render = .ok f := by
  have hattr : f.Every Path.IsAttribute Literal.IsExact :=
    h.imp (fun p hp => hp.1.isAttribute hp.2) fun _ => id
  have hexact : f.IsExact := h.imp (fun _ _ => trivial) fun _ => id
  rcases parse_render hattr with ⟨-, hread⟩ | ⟨hno, -⟩
  · exact ofText_eq_ok_iff.mpr hread
  · exact absurd hexact hno

namespace Path

variable {p : Path} {e : PathElement} {es : List PathElement}

/-! ### Written elements -/

theorem render_element (name : Text) (f : Filter) : PathElement.render ⟨name, some f⟩ =
    name ++ openBracket :: (f.render ++ [closeBracket]) := by
  rw [PathElement.render, Text.ofString_openBracket, Text.ofString_closeBracket]
  simp

theorem element_written (hname : ParserOptions.default.IsName e.name)
    (hf : ∀ f ∈ e.selector, f.Expressible) : PathElement.Written .default e.render e := by
  obtain ⟨name, _ | f⟩ := e
  · exact .plain hname
  · rw [render_element]
    exact .selecting hname (hf f rfl).ofText_render

/-- The elements with points between them. -/
def renderDotted (es : List PathElement) : Text := Text.join [dot] (renderElements es)

theorem renderDotted_cons (e : PathElement) (h : es ≠ []) :
    renderDotted (e :: es) = e.render ++ dot :: renderDotted es := by
  have hne : renderElements es ≠ [] := by
    cases es with
    | nil => exact absurd rfl h
    | cons => simp [renderElements]
  rw [renderDotted, renderElements, Text.join_cons hne, List.append_assoc]
  rfl

theorem renderDotted_singleton (e : PathElement) : renderDotted [e] = e.render :=
  Text.join_singleton _ _

theorem elements_written (hne : es ≠ []) (hes : ∀ e ∈ es, ParserOptions.default.IsName e.name ∧
    ∀ f ∈ e.selector, f.Expressible) : Elements .default (renderDotted es) es := by
  induction es with
  | nil => exact absurd rfl hne
  | cons e es ih =>
    have he := element_written (hes e (by simp)).1 (hes e (by simp)).2
    by_cases h : es = []
    · subst h
      rw [renderDotted_singleton]
      exact .single he
    · rw [renderDotted_cons e h]
      exact .cons he (ih h fun x hx => hes x (List.mem_cons_of_mem _ hx))

theorem units_before_bracket (hes : ∀ e ∈ es, ParserOptions.default.IsName e.name) :
    ∀ c ∈ (renderDotted es).takeWhile (· != openBracket),
      c = dot ∨ ParserOptions.default.isNameUnit c := by
  have happend : ∀ (a b : Text) (c : CodeUnit), c ∈ (a ++ b).takeWhile (· != openBracket) →
      c ∈ a.takeWhile (· != openBracket) ∨ c ∈ b.takeWhile (· != openBracket) := by
    intro a b c hc
    rw [List.takeWhile_append] at hc
    split_ifs at hc with h
    · rcases List.mem_append.mp hc with hc | hc
      · rw [← (List.takeWhile_prefix (· != openBracket)).eq_of_length h] at hc
        exact .inl hc
      · exact .inr hc
    · exact .inl hc
  have helement : ∀ e : PathElement, ParserOptions.default.IsName e.name →
      ∀ c ∈ e.render.takeWhile (· != openBracket), ParserOptions.default.isNameUnit c := by
    rintro ⟨name, _ | f⟩ hname c hc
    · exact hname.2 c ((List.takeWhile_sublist _).subset hc)
    · rw [render_element] at hc
      rcases happend _ _ c hc with hc | hc
      · exact hname.2 c ((List.takeWhile_sublist _).subset hc)
      · simp at hc
  induction es with
  | nil => simp [renderDotted, renderElements, Text.join, List.intercalate]
  | cons e es ih =>
    intro c hc
    by_cases h : es = []
    · subst h
      rw [renderDotted_singleton] at hc
      exact .inr (helement e (hes e (by simp)) c hc)
    · rw [renderDotted_cons e h] at hc
      rcases happend _ _ c hc with hc | hc
      · exact .inr (helement e (hes e (by simp)) c hc)
      · rcases happend [dot] _ c hc with hc | hc
        · exact .inl (List.mem_singleton.mp ((List.takeWhile_sublist _).subset hc))
        · exact ih (fun x hx => hes x (List.mem_cons_of_mem _ hx)) c hc

theorem colon_not_mem_before_bracket (hes : ∀ e ∈ es, ParserOptions.default.IsName e.name) :
    colon ∉ (renderDotted es).takeWhile (· != openBracket) := by
  intro hc
  rcases units_before_bracket hes _ hc with hc | hc
  · exact absurd hc (by decide)
  · rw [ParserOptions.isNameUnit_colon] at hc
    cases hc

/-! ### Written paths -/

/-- No white space at the ends. -/
def Trimmed (t : Text) : Prop := (∀ c ∈ t.head?, ¬ c.isBlank) ∧ ∀ c ∈ t.getLast?, ¬ c.isBlank

theorem Trimmed.append {t u : Text} (ht : t ≠ []) (hu : u ≠ []) (h : ∀ c ∈ t.head?, ¬ c.isBlank)
    (h' : ∀ c ∈ u.getLast?, ¬ c.isBlank) : Trimmed (t ++ u) := by
  constructor
  · rw [List.head?_append_of_ne_nil _ ht]; exact h
  · rw [List.getLast?_append_of_ne_nil _ hu]; exact h'

theorem not_isBlank_of_isName {n : Text} (h : ParserOptions.default.IsName n) :
    ∀ c ∈ n, ¬ c.isBlank := fun c hc =>
  ParserOptions.not_isBlank_of_isWordUnit (ParserOptions.isWordUnit_of_isNameUnit (h.2 c hc))

theorem element_trimmed {t : Text} (h : PathElement.Written .default t e) : Trimmed t := by
  cases h with
  | plain hname =>
    exact ⟨fun c hc => not_isBlank_of_isName hname c (List.mem_of_head? hc),
      fun c hc => not_isBlank_of_isName hname c (List.mem_of_getLast? hc)⟩
  | selecting hname =>
    refine .append hname.1 (by simp)
      (fun c hc => not_isBlank_of_isName hname c (List.mem_of_head? hc)) ?_
    rw [← List.cons_append, List.getLast?_concat]
    rintro _ ⟨⟩
    decide

theorem Elements.trimmed {t : Text} (h : Elements .default t es) : Trimmed t := by
  induction h with
  | single h => exact element_trimmed h
  | @cons t u e es h hrest ih =>
    refine .append (Elements.single h).ne_nil (by simp) (element_trimmed h).1 ?_
    rw [List.getLast?_cons_of_ne_nil hrest.ne_nil]
    exact ih.2

theorem head_of_isUrnName {urn : Text} (h : urn.IsUrnName) :
    urn ≠ [] ∧ ∀ c ∈ urn.head?, ¬ c.isBlank := by
  have hletters : ∀ u : Text, u.lower = "urn" → u ≠ [] ∧ ∀ c ∈ u.head?, ¬ c.isBlank := by
    intro u hu
    obtain ⟨-, hmap⟩ := Text.map_asciiLower_of_lower hu (by decide)
    cases u with
    | nil => cases hmap
    | cons c rest =>
      refine ⟨by simp, ?_⟩
      rintro _ ⟨⟩ hblank
      have hc : c.asciiLower = 0x75 := (List.cons.inj hmap).1
      have hu : c = 0x75 ∨ c = 0x55 := by
        unfold CodeUnit.asciiLower at hc; split at hc <;> grind
      rcases hu with rfl | rfl <;> exact absurd hblank (by decide)
  rcases h with h | h
  · exact hletters urn h
  · obtain ⟨u, r, rfl, hu⟩ := Text.lower_take_four_iff.mp h
    obtain ⟨hne, hhead⟩ := hletters u hu
    exact ⟨by simp, by rwa [List.head?_append_of_ne_nil _ hne]⟩

/-- The path of a schema alone, whose URN is no more than `urn`. -/
def IsBareUrn (p : Path) : Prop := p.elements = [] ∧ ∃ urn ∈ p.schemaUrn, urn.lower = "urn"

theorem render_none (es : List PathElement) : render ⟨none, es⟩ = renderDotted es := by
  rw [render]; rfl

theorem render_some (urn : Text) (es : List PathElement) :
    render ⟨some urn, es⟩ = urn ++ colon :: renderDotted es := by
  have hcolon : Text.ofString ":" = [colon] := by decide
  rw [render]
  simp only [hcolon, List.append_assoc]
  rfl

theorem render_written (h : p.Expressible) (hbare : ¬ p.IsBareUrn) :
    Written .default p.render p ∧ Trimmed p.render := by
  obtain ⟨urn, es⟩ := p
  have hnames : ∀ e ∈ es, ParserOptions.default.IsName e.name := h.names
  have hes : es ≠ [] → Elements .default (renderDotted es) es := fun hne =>
    elements_written hne fun e he => ⟨hnames e he, h.selectors e he⟩
  have hcolon := colon_not_mem_before_bracket hnames
  cases urn with
  | none =>
    rw [render_none]
    by_cases hne : es = []
    · subst hne
      exact ⟨.root, nofun, nofun⟩
    · refine ⟨.plain (fun hurn => ?_) (hes hne), (hes hne).trimmed⟩
      obtain ⟨u, r, ht, hopen, -⟩ := exists_urn hurn
      rw [ht, (cut_urn hopen r).1] at hcolon
      exact hcolon (by simp)
  | some urn =>
    obtain ⟨hname, hopen⟩ := h.urn urn rfl
    obtain ⟨hurn, hhead⟩ := head_of_isUrnName hname
    rw [render_some]
    by_cases hne : es = []
    · subst hne
      have hlow : urn.lower ≠ "urn" := fun hlow => hbare ⟨rfl, urn, rfl, hlow⟩
      refine ⟨.extension (hname.isUrn (.inr hlow)) hopen, .append hurn (by simp) hhead ?_⟩
      rintro _ ⟨⟩
      decide
    · refine ⟨.qualified (hname.isUrn (.inl (hes hne).ne_nil)) hopen hcolon (hes hne),
        .append hurn (by simp) hhead ?_⟩
      rw [List.getLast?_cons_of_ne_nil (hes hne).ne_nil]
      exact (hes hne).trimmed.2

/-- Too short for a URN, the written form of a bare URN is read as no path with one. -/
theorem schemaUrn_of_written {urn : Text} {q : Path} (hlow : urn.lower = "urn")
    (h : Written .default (urn ++ [colon]) q) : q.schemaUrn = none := by
  have hshort : ¬ (urn ++ [colon]).isUrn := by
    simp [Text.isUrn, (Text.lower_urn hlow).1]
  generalize urn ++ [colon] = t at h hshort
  cases h with
  | root | plain => rfl
  | extension hurn | qualified hurn => exact absurd hurn hshort

theorem ofText_render_iff (h : p.Expressible) :
    (∃ q, ofText .default p.render = .ok q ∧ p.same q) ↔ ¬ p.IsBareUrn := by
  constructor
  · rintro ⟨q, hq, hsame⟩ ⟨hes, urn, hurn, hlow⟩
    obtain ⟨_, es⟩ := p
    obtain rfl : es = [] := hes
    obtain rfl := hurn
    have htrim : Trimmed (urn ++ [colon]) :=
      .append (head_of_isUrnName (.inl hlow)).1 (by simp) (head_of_isUrnName (.inl hlow)).2
        (by rintro _ ⟨⟩; decide)
    have hrender : render ⟨some urn, []⟩ = urn ++ [colon] := render_some urn []
    rw [hrender, ofText_eq_ok_iff, parse_eq_ok_iff, Text.trim_eq_self htrim.1 htrim.2] at hq
    rw [Path.same, schemaUrn_of_written hlow hq] at hsame
    cases hsame
  · intro hbare
    obtain ⟨hw, htrim⟩ := render_written h hbare
    refine ⟨p, ?_, p.same_refl⟩
    rwa [ofText_eq_ok_iff, parse_eq_ok_iff, Text.trim_eq_self htrim.1 htrim.2]

/-! ### Paths that were read -/

theorem elements_rewritten {t : Text} (h : Elements .default t es)
    (hexact : ∀ e ∈ es, ∀ f ∈ e.selector, f.IsExact) : Elements .default (renderDotted es) es := by
  have helement : ∀ {t : Text} {e : PathElement}, PathElement.Written .default t e →
      (∀ f ∈ e.selector, f.IsExact) → PathElement.Written .default e.render e := by
    intro t e h hexact
    cases h with
    | plain hname => exact .plain hname
    | @selecting name content f hname hf =>
      rw [render_element]
      refine .selecting hname ?_
      rcases Filter.parse_render (Filter.every_of_parse (Filter.ofText_eq_ok_iff.mp hf)) with
        ⟨-, hread⟩ | ⟨hno, -⟩
      · exact Filter.ofText_eq_ok_iff.mpr hread
      · exact absurd (hexact f rfl) hno
  induction h with
  | single h =>
    rw [renderDotted_singleton]
    exact .single (helement h (hexact _ (by simp)))
  | @cons t u e es h hrest ih =>
    have hne : es ≠ [] := by
      rintro rfl
      cases hrest
    rw [renderDotted_cons e hne]
    exact .cons (helement h (hexact e (by simp))) (ih fun e he => hexact e (List.mem_cons_of_mem _ he))

theorem isName_of_elements {t : Text} (h : Elements .default t es) :
    ∀ e ∈ es, ParserOptions.default.IsName e.name := by
  have helement : ∀ {t : Text} {e : PathElement}, PathElement.Written .default t e →
      ParserOptions.default.IsName e.name := by
    intro t e h
    cases h with
    | plain hname => exact hname
    | selecting hname => exact hname
  induction h with
  | single h => exact List.forall_mem_singleton.mpr (helement h)
  | cons h _ ih => exact List.forall_mem_cons.mpr ⟨helement h, ih⟩

/-- What stands in front of the last colon of a URN is no shorter than its prefix. -/
theorem isUrnName_of_isUrn {urn t : Text} (h : (urn ++ colon :: t).isUrn) : urn.IsUrnName := by
  obtain ⟨u, r, heq, hu, -⟩ := Text.isUrn_iff.mp h
  have hcolon : colon ∉ u := by
    intro hmem
    have hlow := (Text.map_asciiLower_of_lower hu (by decide)).2 ▸ List.mem_map_of_mem hmem
    revert hlow
    decide
  rcases List.append_eq_append_iff.mp heq with ⟨s, rfl, hs⟩ | ⟨s, rfl, hs⟩
  · -- the prefix is no longer, as it has no colon in it
    cases s with
    | nil => exact .inl (by simpa using hu)
    | cons c s =>
      obtain ⟨rfl, -⟩ := List.cons.inj hs
      exact absurd (by simp) hcolon
  · cases s with
    | nil => exact .inl (by simpa using hu)
    | cons c s =>
      obtain ⟨rfl, -⟩ := List.cons.inj hs
      exact .inr (Text.lower_take_four_iff.mpr ⟨u, s, rfl, hu⟩)

/-- The URN of a path that was read has the form of one. -/
theorem isUrnName_of_ofText {o : ParserOptions} {t urn : Text} (h : ofText o t = .ok p)
    (hurn : urn ∈ p.schemaUrn) : urn.IsUrnName := by
  have hparse := ofText_eq_ok_iff.mp h
  unfold parse at hparse
  split at hparse
  · cases hparse
  · rename_i q hq
    obtain rfl := Except.ok.inj hparse
    have hw := written_of_parseTrimmed hq
    generalize t.trim = s at hw
    cases hw with
    | root => cases hurn
    | plain => cases hurn
    | extension hisUrn => exact Option.some.inj hurn ▸ isUrnName_of_isUrn hisUrn
    | qualified hisUrn => exact Option.some.inj hurn ▸ isUrnName_of_isUrn hisUrn

/-- A path that was read is read back from its written form, if its filters are exact. -/
theorem ofText_render_of_ofText {t : Text} (h : ofText .default t = .ok p)
    (hexact : ∀ e ∈ p.elements, ∀ f ∈ e.selector, f.IsExact) :
    ofText .default p.render = .ok p := by
  have hread : ∀ {u : Text}, Written .default u p → Trimmed u → ofText .default u = .ok p := by
    intro u hu htrim
    rwa [ofText_eq_ok_iff, parse_eq_ok_iff, Text.trim_eq_self htrim.1 htrim.2]
  have hw := parse_eq_ok_iff.mp (ofText_eq_ok_iff.mp h)
  generalize t.trim = s at hw
  cases hw with
  | root => exact hread .root ⟨nofun, nofun⟩
  | plain hurn hwritten =>
    have hes := elements_rewritten hwritten hexact
    rw [render_none]
    refine hread (.plain (fun hurn => ?_) hes) hes.trimmed
    obtain ⟨u, r, ht, hopen, -⟩ := exists_urn hurn
    have hcolon := colon_not_mem_before_bracket (isName_of_elements hwritten)
    rw [ht, (cut_urn hopen r).1] at hcolon
    exact hcolon (by simp)
  | @extension urn hurn hopen =>
    obtain ⟨hne, hhead⟩ := head_of_isUrnName (isUrnName_of_isUrn hurn)
    rw [render_some]
    refine hread (.extension hurn hopen) (.append hne (by simp) hhead ?_)
    rintro _ ⟨⟩
    decide
  | @qualified urn t es hurn hopen hlast hwritten =>
    have hes := elements_rewritten hwritten hexact
    have hname := isUrnName_of_isUrn hurn
    obtain ⟨hne, hhead⟩ := head_of_isUrnName hname
    rw [render_some]
    refine hread (.qualified (hname.isUrn (.inl hes.ne_nil)) hopen
      (colon_not_mem_before_bracket (isName_of_elements hwritten)) hes) (.append hne (by simp) hhead ?_)
    rw [List.getLast?_cons_of_ne_nil hes.ne_nil]
    exact hes.trimmed.2

end Path

/-- What is written from an expressible tree is read back as the same tree: every path but that of
the bare URN, and every filter. -/
theorem ofText_render_of_expressible :
    (∀ p : Path, p.Expressible →
      ((∃ q, Path.ofText .default p.render = .ok q ∧ p.same q) ↔ ¬ p.IsBareUrn)) ∧
    ∀ f : Filter, f.Expressible → ∃ g, Filter.ofText .default f.render = .ok g ∧ f.same g :=
  ⟨fun _ => Path.ofText_render_iff, fun f h => ⟨f, h.ofText_render, f.same_refl⟩⟩

/-- `emails[type eq "work"].value` under a URN. -/
def workEmail : Path := ⟨some (Text.ofString "urn:x"),
  [⟨Text.ofString "emails", some (.compare .eq (.ofName (Text.ofString "type"))
    (.str (Text.ofString "work")))⟩, ⟨Text.ofString "value", none⟩]⟩

theorem isNameable_type : (Path.ofName (Text.ofString "type")).IsNameable where
  elements := by simp [Path.ofName]
  names := by
    intro e he
    obtain rfl := List.mem_singleton.mp he
    exact ⟨by decide, rfl⟩
  urn := nofun
  word := fun _ => ⟨by decide, (Token.isWord_of_scan
    (w := (Path.ofName (Text.ofString "type")).render) (by decide)).noNumeral⟩

theorem expressible_type {v : Literal} (hv : v.IsExact) :
    (Filter.compare .eq (.ofName (Text.ofString "type")) v).Expressible :=
  .compare ⟨isNameable_type, nofun⟩ hv

theorem expressible_workEmail : workEmail.Expressible where
  names := by
    intro e he
    rcases List.mem_pair.mp he with rfl | rfl <;> decide
  selectors := by
    intro e he f hf
    rcases List.mem_pair.mp he with rfl | rfl
    · cases hf; exact expressible_type trivial
    · cases hf
  urn := by
    rintro _ ⟨⟩
    exact ⟨.inr (by decide), by decide⟩

theorem ofText_render_workEmail :
    ((∃ q, Path.ofText .default workEmail.render = .ok q ∧ workEmail.same q) ↔
      ¬ workEmail.IsBareUrn) ∧
    ∃ g, Filter.ofText .default (Filter.compare .eq (.ofName (Text.ofString "type")) .null).render =
      .ok g ∧ (Filter.compare .eq (.ofName (Text.ofString "type")) .null).same g :=
  ⟨ofText_render_of_expressible.1 workEmail expressible_workEmail,
    ofText_render_of_expressible.2 _ (expressible_type trivial)⟩

/-- A prefix of word units is not enough of a URN: `abc:name pr` is not read. -/
theorem not_read_of_isNameable : ¬ ∀ f : Filter, f.Every Path.IsNameable Literal.IsExact →
    ∃ g, Filter.ofText .default f.render = .ok g ∧ f.same g := by
  intro hall
  have hpath : (Path.mk (some (Text.ofString "abc")) [⟨Text.ofString "name", none⟩]).IsNameable :=
    { elements := by simp
      names := by
        intro e he
        obtain rfl := List.mem_singleton.mp he
        exact ⟨by decide, rfl⟩
      urn := by
        rintro _ ⟨⟩
        exact List.all_eq_true.mp (by decide)
      word := nofun }
  obtain ⟨g, hg, -⟩ := hall _ (.present hpath)
  have hfails : (Filter.parse .default (Filter.present
      (Path.mk (some (Text.ofString "abc")) [⟨Text.ofString "name", none⟩])).render).toBool = false := by
    decide +kernel
  rw [Filter.ofText_eq_ok_iff.mp hg] at hfails
  cases hfails

end Scim

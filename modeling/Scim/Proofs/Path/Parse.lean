import Scim.Proofs.Path.Bracket
import Scim.Proofs.Text.Blank

/-!
# Reading paths is deciding their grammar

`Path.Written`: which texts write which path, with the reader of filters for what stands in
brackets. The reader of paths accepts exactly these texts (`ofText_eq_ok_iff_written`).
`PathElement.Reads` is all that can come of reading one element, the faults included, and
`parse_of_heads` takes a whole path apart into the URN in front and its elements.
-/

namespace Scim

open CodeUnit

/-- `name ["[" filter "]"]` -/
inductive PathElement.Written (o : ParserOptions) : Text → PathElement → Prop
  | plain {name : Text} (hname : o.IsName name) : Written o name ⟨name, none⟩
  | selecting {name content : Text} {f : Filter} (hname : o.IsName name)
    (hf : Filter.ofText o content = .ok f) :
    Written o (name ++ openBracket :: (content ++ [closeBracket])) ⟨name, some f⟩

namespace Path

/-- `element ("." element)*` -/
inductive Elements (o : ParserOptions) : Text → List PathElement → Prop
  | single {t : Text} {e : PathElement} (h : PathElement.Written o t e) : Elements o t [e]
  | cons {t u : Text} {e : PathElement} {es : List PathElement} (h : PathElement.Written o t e)
    (hrest : Elements o u es) : Elements o (t ++ dot :: u) (e :: es)

/-- Nothing, or `[urn ":"] elements`, or `urn ":"`. Only a text that starts as a URN has one, and it
reaches to the last colon in front of the first bracket. -/
inductive Written (o : ParserOptions) : Text → Path → Prop
  | root : Written o [] root
  | plain {t : Text} {es : List PathElement} (hurn : ¬ t.isUrn) (h : Elements o t es) :
    Written o t ⟨none, es⟩
  | extension {urn : Text} (hurn : (urn ++ [colon]).isUrn) (hopen : openBracket ∉ urn) :
    Written o (urn ++ [colon]) ⟨some urn, []⟩
  | qualified {urn t : Text} {es : List PathElement} (hurn : (urn ++ colon :: t).isUrn)
    (hopen : openBracket ∉ urn) (hlast : colon ∉ t.takeWhile (· != openBracket))
    (h : Elements o t es) : Written o (urn ++ colon :: t) ⟨some urn, es⟩

variable {o : ParserOptions} {t u w r : Text} {e : PathElement} {es : List PathElement}

/-! ### Elements -/

theorem trim_ne_nil_of_parse {f : Filter} (h : Filter.parse o t = .ok f) : t.trim ≠ [] := by
  obtain ⟨ts, hts, hf⟩ := Filter.parse_eq_ok_iff.mp h
  intro hblank
  have hscan := Token.scanFrom_eq_ok_iff.mp hts
  have hnil : ∀ {before pos t ts}, Token.Scanned o [] before pos t ts → (∀ c ∈ t, c.isBlank) →
      ts = [] := by
    intro before pos t ts h hall
    induction h with
    | nil => rfl
    | blank _ _ ih => exact ih fun c hc => hall c (List.mem_cons_of_mem _ hc)
    | token hc => exact absurd (hall _ (by simp)) hc
  exact hf.ne_nil (hnil hscan (Text.trim_eq_nil_iff.mp hblank))

theorem parseRange_bracket {content : Text} {f : Filter} (name s : Text) :
    Filter.parseRange o (name ++ openBracket :: (content ++ closeBracket :: s)) (name.length + 1)
      (name.length + 1 + content.length) = .ok f ↔ Filter.parse o content = .ok f := by
  have hforeign : Token.Foreign (closeBracket :: s) := by
    rintro c ⟨⟩; decide
  have h := @Filter.parseRange_append o f (name ++ [openBracket]) content _ hforeign
  rwa [List.append_assoc, List.singleton_append, List.length_append] at h

/-- What comes of reading an element at the front of a text. A bracket behind the name is looked at
only if it is no unit of names. -/
inductive PathElement.Reads (o : ParserOptions) :
    Text → Except SyntaxFault (PathElement × Nat) → Prop
  | nameless {t : Text} (ht : ∀ c ∈ t.head?, o.isNameUnit c = false) :
    Reads o t (.error ⟨.attributeNameExpected, 0⟩)
  | plain {name r : Text} (hname : o.IsName name) (hr : ∀ c ∈ r.head?, o.isNameUnit c = false)
    (hopen : r.head? ≠ some openBracket) : Reads o (name ++ r) (.ok (⟨name, none⟩, name.length))
  | unclosed {name r : Text} (hname : o.IsName name) (hopen : o.isNameUnit openBracket = false)
    (hs : splitBracket 0 false r = none) :
    Reads o (name ++ openBracket :: r) (.error ⟨.unmatchedOpenBracket, name.length⟩)
  | blank {name content r s : Text} (hname : o.IsName name)
    (hopen : o.isNameUnit openBracket = false) (hs : splitBracket 0 false r = some (content, s))
    (hblank : content.trim = []) :
    Reads o (name ++ openBracket :: r) (.error ⟨.valueFilterExpected, name.length + 1⟩)
  | refused {name content r s : Text} {f : SyntaxFault} (hname : o.IsName name)
    (hopen : o.isNameUnit openBracket = false) (hs : splitBracket 0 false r = some (content, s))
    (hblank : content.trim ≠ [])
    (hf : Filter.parseRange o (name ++ openBracket :: r) (name.length + 1)
      (name.length + 1 + content.length) = .error f) : Reads o (name ++ openBracket :: r) (.error f)
  | selecting {name content r s : Text} {f : Filter} (hname : o.IsName name)
    (hopen : o.isNameUnit openBracket = false) (hs : splitBracket 0 false r = some (content, s))
    (hf : Filter.parse o content = .ok f) :
    Reads o (name ++ openBracket :: r) (.ok (⟨name, some f⟩, name.length + content.length + 2))

theorem parseElement_plain {name r : Text} (hname : o.IsName name)
    (hr : ∀ c ∈ r.head?, o.isNameUnit c = false) (hopen : r.head? ≠ some openBracket) :
    parseElement o (name ++ r) = .ok (⟨name, none⟩, name.length) := by
  unfold parseElement
  simp only [(Text.takeWhile_append_of hname.2 hr).1, List.drop_left]
  rw [if_neg (by simpa using hname.1)]
  cases r with
  | nil => rfl
  | cons c rest => exact if_neg (by simpa using hopen)

theorem parseElement_open {name r : Text} (hname : o.IsName name)
    (hopen : o.isNameUnit openBracket = false) : parseElement o (name ++ openBracket :: r) =
      match splitBracket 0 false r with
      | none => .error ⟨.unmatchedOpenBracket, name.length⟩
      | some (content, _) =>
        if content.trim.isEmpty then .error ⟨.valueFilterExpected, name.length + 1⟩
        else (Filter.parseRange o (name ++ openBracket :: r) (name.length + 1)
          (name.length + 1 + content.length)).map
            fun f => (⟨name, some f⟩, name.length + content.length + 2) := by
  have hr : ∀ c ∈ (openBracket :: r).head?, o.isNameUnit c = false := by rintro c ⟨⟩; exact hopen
  unfold parseElement
  simp only [(Text.takeWhile_append_of hname.2 hr).1, List.drop_left]
  rw [if_neg (by simpa using hname.1), if_pos trivial]
  cases splitBracket 0 false r with
  | none => rfl
  | some cut =>
    simp only
    split_ifs
    · rfl
    · cases Filter.parseRange o (name ++ openBracket :: r) (name.length + 1)
        (name.length + 1 + cut.1.length) <;> rfl

/-- A filter in brackets is one for itself. -/
theorem parseElement_selecting {name content r s : Text} {f : Filter} (hname : o.IsName name)
    (hopen : o.isNameUnit openBracket = false) (hs : splitBracket 0 false r = some (content, s))
    (hf : Filter.parse o content = .ok f) : parseElement o (name ++ openBracket :: r) =
      .ok (⟨name, some f⟩, name.length + content.length + 2) := by
  have hrange := (parseRange_bracket name s).mpr hf
  rw [← splitBracket_sound hs] at hrange
  rw [parseElement_open hname hopen, hs]
  simp only
  rw [if_neg (by simpa using trim_ne_nil_of_parse hf), hrange]
  rfl

theorem reads_parseElement (o : ParserOptions) (t : Text) :
    PathElement.Reads o t (parseElement o t) := by
  obtain ⟨name, r, rfl, hall, hr⟩ : ∃ name r, t = name ++ r ∧ (∀ c ∈ name, o.isNameUnit c) ∧
      ∀ c ∈ r.head?, o.isNameUnit c = false :=
    ⟨t.takeWhile o.isNameUnit, t.dropWhile o.isNameUnit, (List.takeWhile_append_dropWhile ..).symm,
      fun c hc => List.all_eq_true.mp (List.all_takeWhile ..) c hc, Text.head?_dropWhile _ _⟩
  by_cases hnil : name = []
  · subst hnil
    have htake := (Text.takeWhile_append_of (t := []) (by simp) hr).1
    rw [List.nil_append] at htake ⊢
    have hread : parseElement o r = .error ⟨.attributeNameExpected, 0⟩ := by
      unfold parseElement
      simp only [htake]
      rfl
    rw [hread]
    exact .nameless hr
  have hname : o.IsName name := ⟨hnil, hall⟩
  by_cases hopen : r.head? = some openBracket
  · obtain ⟨rest, rfl⟩ : ∃ rest, r = openBracket :: rest := by
      cases r with
      | nil => cases hopen
      | cons c rest => cases hopen; exact ⟨rest, rfl⟩
    have hunit := hr openBracket rfl
    rw [parseElement_open hname hunit]
    cases hs : splitBracket 0 false rest with
    | none => exact .unclosed hname hunit hs
    | some cut =>
      obtain ⟨content, s⟩ := cut
      simp only
      split_ifs with hblank
      · exact .blank hname hunit hs (by simpa using hblank)
      · cases hf : Filter.parseRange o (name ++ openBracket :: rest) (name.length + 1)
            (name.length + 1 + content.length) with
        | error f => exact .refused hname hunit hs (by simpa using hblank) hf
        | ok f =>
          refine .selecting hname hunit hs ((parseRange_bracket name s).mp ?_)
          rwa [← splitBracket_sound hs]
  · rw [parseElement_plain hname hr hopen]
    exact .plain hname hr hopen

theorem written_of_parseElement {n : Nat} (h : parseElement o t = .ok (e, n)) :
    ∃ w r, PathElement.Written o w e ∧ t = w ++ r ∧ n = w.length := by
  have hreads := reads_parseElement o t
  rw [h] at hreads
  cases hreads with
  | plain hname => exact ⟨_, _, .plain hname, rfl, rfl⟩
  | @selecting _ _ _ s _ hname _ hs hf =>
    obtain rfl := splitBracket_sound hs
    exact ⟨_, s, .selecting hname (Filter.ofText_eq_ok_iff.mpr hf), by simp, by simp; omega⟩

/-- A written element is taken off whole where the text ends or goes on with a point. -/
theorem parseElement_of_written (h : PathElement.Written .default w e)
    (hr : ∀ c ∈ r.head?, c = dot) : parseElement .default (w ++ r) = .ok (e, w.length) := by
  cases h with
  | plain hname =>
    refine parseElement_plain hname (fun c hc => ?_) fun hopen => ?_
    · rw [hr c hc]; exact ParserOptions.isNameUnit_dot
    · exact absurd (hr _ hopen) (by decide)
  | @selecting name content f hname hf =>
    have hparse := Filter.ofText_eq_ok_iff.mp hf
    have h := parseElement_selecting hname (by decide) (splitBracket_of_parse hparse r) hparse
    rw [List.append_assoc, List.cons_append, List.append_assoc, List.singleton_append, h]
    simp; omega

theorem elements_of_parseElements (h : parseElements o t = .ok es) : Elements o t es := by
  fun_induction parseElements o t generalizing es with
  | case1 => cases h
  | case2 t e n he hrest =>
    cases h
    obtain ⟨w, r, hw, rfl, rfl⟩ := written_of_parseElement he
    rw [List.drop_left] at hrest
    rw [hrest, List.append_nil]
    exact .single hw
  | case3 => cases h
  | case4 =>
    rename_i t e n he rest es' hes hrest ih
    cases h
    obtain ⟨w, r, hw, rfl, rfl⟩ := written_of_parseElement he
    rw [List.drop_left] at hrest
    rw [hrest]
    exact .cons hw (ih hes)
  | case5 => cases h

theorem parseElements_single {n : Nat} (he : parseElement o t = .ok (e, n)) (hrest : t.drop n = []) :
    parseElements o t = .ok [e] := by
  rw [parseElements, he]
  simp only
  split
  · rfl
  · rename_i h
    rw [hrest] at h
    cases h

theorem parseElements_cons {n : Nat} (he : parseElement o t = .ok (e, n))
    (hrest : t.drop n = dot :: r) : parseElements o t = match parseElements o r with
      | .error f => .error (f.shift (n + 1))
      | .ok es => .ok (e :: es) := by
  rw [parseElements, he]
  simp only
  split
  · rename_i h
    rw [hrest] at h
    cases h
  · rename_i h
    rw [hrest] at h
    cases h
    exact if_pos rfl

theorem parseElements_of_elements (h : Elements .default t es) :
    parseElements .default t = .ok es := by
  induction h with
  | @single w e h =>
    have he := parseElement_of_written h (r := []) (by simp)
    rw [List.append_nil] at he
    exact parseElements_single he (List.drop_length ..)
  | @cons w u e es h _ ih =>
    have he := parseElement_of_written h (r := dot :: u) (by simp)
    rw [parseElements_cons he (List.drop_left ..), ih]

/-! ### Paths -/

theorem Elements.ne_nil (h : Elements o t es) : t ≠ [] := by
  have hw : ∀ {w e}, PathElement.Written o w e → w ≠ [] := by
    intro w e hw
    cases hw with
    | plain hname => exact hname.1
    | selecting => simp
  cases h with
  | single h => exact hw h
  | cons => simp

theorem cut_urn {urn : Text} (hopen : openBracket ∉ urn) (r : Text) :
    (urn ++ colon :: r).takeWhile (· != openBracket) =
      urn ++ colon :: r.takeWhile (· != openBracket) ∧
    (urn ++ colon :: r).dropWhile (· != openBracket) = r.dropWhile (· != openBracket) := by
  have hurn : ∀ c ∈ urn ++ [colon], (c != openBracket) = true := by
    intro c hc
    rcases List.mem_append.mp hc with hc | hc
    · exact bne_iff_ne.mpr fun h => hopen (h ▸ hc)
    · rw [List.mem_singleton.mp hc]; decide
  have ht : urn ++ colon :: r = (urn ++ [colon]) ++ r := by simp
  rw [ht, List.takeWhile_append_of_pos hurn, List.dropWhile_append_of_pos hurn, List.append_assoc]
  exact ⟨rfl, rfl⟩

/-- A text that starts as a URN is cut at its last colon in front of the first bracket. -/
theorem exists_urn (h : t.isUrn) : ∃ urn r, t = urn ++ colon :: r ∧ openBracket ∉ urn ∧
    colon ∉ r.takeWhile (· != openBracket) := by
  obtain ⟨u, r, rfl, hu, -⟩ := Text.isUrn_iff.mp h
  have hopen : openBracket ∉ u := by
    intro hmem
    have hlow := (Text.map_asciiLower_of_lower hu (by decide)).2 ▸ List.mem_map_of_mem hmem
    revert hlow; decide
  cases hs : Text.splitAtLast? colon ((u ++ colon :: r).takeWhile (· != openBracket)) with
  | none =>
    rw [Text.splitAtLast?_eq_none_iff, (cut_urn hopen r).1] at hs
    exact absurd (by simp) hs
  | some cut =>
    obtain ⟨urn, name⟩ := cut
    obtain ⟨hcut, hlast⟩ := Text.splitAtLast?_eq_some_iff.mp hs
    have hall : ∀ c ∈ urn ++ colon :: name, (c != openBracket) = true := by
      rw [← hcut]; exact fun c hc => List.all_eq_true.mp (List.all_takeWhile ..) c hc
    have hname : ∀ c ∈ name, (c != openBracket) = true := fun c hc => hall c (by simp [hc])
    refine ⟨urn, name ++ (u ++ colon :: r).dropWhile (· != openBracket), ?_, ?_, ?_⟩
    · conv_lhs => rw [← List.takeWhile_append_dropWhile (p := (· != openBracket)) (l := u ++ colon :: r)]
      rw [hcut]
      simp
    · exact fun hmem => bne_iff_ne.mp (hall _ (List.mem_append_left _ hmem)) rfl
    · rwa [(Text.takeWhile_append_of hname (Text.head?_dropWhile _ _)).1]

theorem parseTrimmed_urn {urn : Text} (hurn : (urn ++ colon :: r).isUrn) (hopen : openBracket ∉ urn)
    (hlast : colon ∉ r.takeWhile (· != openBracket)) : parseTrimmed o (urn ++ colon :: r) =
      if r.isEmpty then .ok ⟨some urn, []⟩
      else match parseElements o r with
        | .error f => .error (f.shift (urn.length + 1))
        | .ok es => .ok ⟨some urn, es⟩ := by
  obtain ⟨htake, hdrop⟩ := cut_urn hopen r
  cases hes : parseElements o r
  all_goals
    rw [parseTrimmed, if_neg (by simp), if_pos hurn, htake, Text.splitAtLast?_append_cons hlast,
      hdrop]
    simp only [List.takeWhile_append_dropWhile, hes]

theorem parseTrimmed_plain (hurn : ¬ t.isUrn) (hne : t ≠ []) : parseTrimmed o t =
    match parseElements o t with
    | .error f => .error f
    | .ok es => .ok ⟨none, es⟩ := by
  cases hes : parseElements o t <;> simp [parseTrimmed, hne, hurn, hes]

/-- What stands in front of the elements: nothing, or a URN with its colon. -/
inductive Heads : Text → Text → Prop
  | plain {t : Text} (hurn : ¬ t.isUrn) : Heads [] t
  | urn {urn t : Text} (hurn : (urn ++ colon :: t).isUrn) (hopen : openBracket ∉ urn)
    (hlast : colon ∉ t.takeWhile (· != openBracket)) : Heads (urn ++ [colon]) t

theorem exists_heads (t : Text) : ∃ head rest, t = head ++ rest ∧ Heads head rest := by
  by_cases hurn : t.isUrn
  · obtain ⟨urn, r, rfl, hopen, hlast⟩ := exists_urn hurn
    exact ⟨urn ++ [colon], r, by simp, .urn hurn hopen hlast⟩
  · exact ⟨[], t, rfl, .plain hurn⟩

theorem parseTrimmed_of_heads {head rest : Text} (h : Heads head rest) :
    ∃ urn, ∀ o, parseTrimmed o (head ++ rest) = if rest.isEmpty then .ok ⟨urn, []⟩
      else ((parseElements o rest).map (⟨urn, ·⟩)).mapError (SyntaxFault.shift head.length) := by
  have hshift : ∀ f : SyntaxFault, f.shift 0 = f := fun f => by simp [SyntaxFault.shift]
  cases h with
  | plain hurn =>
    refine ⟨none, fun o => ?_⟩
    by_cases hne : rest = []
    · subst hne; rfl
    · rw [List.nil_append, parseTrimmed_plain hurn hne, if_neg (by simpa using hne)]
      cases parseElements o rest with
      | error f => exact congrArg Except.error (hshift f).symm
      | ok es => rfl
  | @urn urn _ hurn hopen hlast =>
    refine ⟨some urn, fun o => ?_⟩
    rw [List.append_assoc, List.singleton_append, parseTrimmed_urn hurn hopen hlast,
      List.length_append, List.length_singleton]
    cases parseElements o rest <;> rfl

/-- A path is read by its elements; their faults stand behind white space and the URN. -/
theorem parse_of_heads {head rest : Text} (ht : t.trim = head ++ rest) (h : Heads head rest) :
    ∃ urn, ∀ o, parse o t = if rest.isEmpty then .ok ⟨urn, []⟩
      else ((parseElements o rest).map (⟨urn, ·⟩)).mapError
        (SyntaxFault.shift ((t.takeWhile CodeUnit.isBlank).length + head.length)) := by
  have hlen : t.length - t.trimLeft.length = (t.takeWhile CodeUnit.isBlank).length := by
    have := congrArg List.length (List.takeWhile_append_dropWhile (p := CodeUnit.isBlank) (l := t))
    rw [List.length_append] at this
    rw [Text.trimLeft]
    omega
  obtain ⟨urn, hread⟩ := parseTrimmed_of_heads h
  refine ⟨urn, fun o => ?_⟩
  rw [parse, hlen, ht, hread]
  split_ifs
  · rfl
  · cases parseElements o rest with
    | error f => exact congrArg Except.error (by simp [SyntaxFault.shift, Nat.add_assoc])
    | ok es => rfl

theorem written_of_parseTrimmed {p : Path} (h : parseTrimmed o t = .ok p) : Written o t p := by
  by_cases hne : t = []
  · subst hne
    cases h
    exact .root
  by_cases hurn : t.isUrn
  · obtain ⟨urn, r, rfl, hopen, hlast⟩ := exists_urn hurn
    rw [parseTrimmed_urn hurn hopen hlast] at h
    split_ifs at h with hr
    · cases h
      obtain rfl : r = [] := by simpa using hr
      exact .extension hurn hopen
    · cases hes : parseElements o r with
      | error f => rw [hes] at h; cases h
      | ok es =>
        rw [hes] at h
        cases h
        exact .qualified hurn hopen hlast (elements_of_parseElements hes)
  · rw [parseTrimmed_plain hurn hne] at h
    cases hes : parseElements o t with
    | error f => rw [hes] at h; cases h
    | ok es => rw [hes] at h; cases h; exact .plain hurn (elements_of_parseElements hes)

theorem parseTrimmed_of_written {p : Path} (h : Written .default t p) :
    parseTrimmed .default t = .ok p := by
  cases h with
  | root => rfl
  | plain hurn h => rw [parseTrimmed_plain hurn h.ne_nil, parseElements_of_elements h]
  | extension hurn hopen =>
    rw [parseTrimmed_urn hurn hopen (by simp)]; rfl
  | qualified hurn hopen hlast h =>
    rw [parseTrimmed_urn hurn hopen hlast, if_neg (by simpa using h.ne_nil),
      parseElements_of_elements h]

theorem parseTrimmed_eq_ok_iff {p : Path} :
    parseTrimmed .default t = .ok p ↔ Written .default t p :=
  ⟨written_of_parseTrimmed, parseTrimmed_of_written⟩

theorem parse_eq_ok_iff {p : Path} : parse .default t = .ok p ↔ Written .default t.trim p := by
  rw [parse, ← parseTrimmed_eq_ok_iff]
  cases parseTrimmed .default t.trim <;> simp

theorem ofText_eq_ok_iff {p : Path} : ofText o t = .ok p ↔ parse o t = .ok p := by
  rw [ofText]
  cases parse o t <;> simp [Except.mapError]

/-- A text is read as a path exactly if it writes that path once the white space at its ends is off. -/
theorem ofText_eq_ok_iff_written (t : Text) (p : Path) :
    ofText .default t = .ok p ↔ Written .default t.trim p :=
  ofText_eq_ok_iff.trans parse_eq_ok_iff

end Path

end Scim

import Scim.Proofs.Path.Parse
import Scim.Proofs.Token.Extended

/-!
# Reading with more units for names

Further units for names only add texts that are read (`ofText_extended`). The tokens of a filter
that is read hold no comma, so they are scanned as before, and its words write the same paths. In a
path a name ends at a delimiter, which no new unit is.
-/

namespace Scim

open CodeUnit

variable {o o' : ParserOptions} {t : Text}

/-! ### Filters -/

theorem Path.Word.extended {w : Text} {p : Path} (hx : o.Extends o') (h : Path.Word o w p) :
    Path.Word o' w p := by
  have hnames : ∀ {names}, AreNames o names → AreNames o' names := fun ⟨hne, h⟩ =>
    ⟨hne, fun n hn => ⟨⟨(h n hn).1.1, fun q hq => hx.isNamePoint ((h n hn).1.2 q hq)⟩, (h n hn).2⟩⟩
  cases h with
  | plain hurn h => exact .plain hurn (hnames h)
  | qualified hurn hlast h => exact .qualified hurn hlast (hnames h)

theorem Filter.parse_extended {f : Filter} (hx : o.Extends o') (h : parse o t = .ok f) :
    parse o' t = .ok f := by
  obtain ⟨ts, hts, hf⟩ := parse_eq_ok_iff.mp h
  have hspelled := (Token.spelled_iff.mp hts).extended hx hf.kind_ne_comma (by simp)
  have hcarries : List.Forall₂ (Carries o o' Eq) ts ts := List.forall₂_same.mpr fun x _ =>
    ⟨rfl, fun _ p hp => ⟨p, hp.extended hx, rfl⟩⟩
  exact parse_eq_ok_iff.mpr ⟨ts, Token.spelled_iff.mpr hspelled, hf.of_carries hcarries⟩

/-! ### Paths -/

namespace Path

theorem isName_extended {n : Text} (hx : o.Extends o') (h : o.IsName n) : o'.IsName n :=
  ⟨h.1, fun c hc => hx.isNameUnit (h.2 c hc)⟩

/-- An element behind which the text ends or goes on with a point is read as before. -/
theorem parseElement_extended {e : PathElement} {n : Nat} (hx : o.Extends o')
    (h : parseElement o t = .ok (e, n)) (hrest : ∀ c ∈ (t.drop n).head?, c = dot) :
    parseElement o' t = .ok (e, n) := by
  have hreads := reads_parseElement o t
  rw [h] at hreads
  cases hreads with
  | @plain name r hname hr hopen =>
    rw [List.drop_left] at hrest
    refine parseElement_plain (isName_extended hx hname) (fun c hc => ?_) hopen
    exact hx.isNameUnit_eq_false (by rw [hrest c hc]; decide) (hr c hc)
  | selecting hname hopen hs hf =>
    exact parseElement_selecting (isName_extended hx hname) (hx.isNameUnit_eq_false (by decide) hopen)
      hs (Filter.parse_extended hx hf)

theorem parseElements_extended {es : List PathElement} (hx : o.Extends o')
    (h : parseElements o t = .ok es) : parseElements o' t = .ok es := by
  fun_induction parseElements o t generalizing es with
  | case1 => cases h
  | case2 t e n he hrest =>
    cases h
    exact parseElements_single (parseElement_extended hx he (by simp [hrest])) hrest
  | case3 => cases h
  | case4 =>
    rename_i t e n he rest es' hes hrest ih
    cases h
    rw [parseElements_cons (parseElement_extended hx he (by simp [hrest])) hrest, ih hes]
  | case5 => cases h

theorem parse_extended {p : Path} (hx : o.Extends o') (h : parse o t = .ok p) :
    parse o' t = .ok p := by
  obtain ⟨head, rest, htrim, hheads⟩ := exists_heads t.trim
  obtain ⟨urn, hread⟩ := parse_of_heads htrim hheads
  rw [hread] at h ⊢
  split_ifs at h ⊢
  · exact h
  · cases hes : parseElements o rest with
    | error f => rw [hes] at h; cases h
    | ok es => rw [hes] at h; rw [parseElements_extended hx hes]; exact h

end Path

/-- Further units for names only extend what is read: a filter or a path that is read without them is
read with them, and is the same. -/
theorem ofText_extended (hx : o.Extends o') (t : Text) :
    (∀ f, Filter.ofText o t = .ok f → Filter.ofText o' t = .ok f) ∧
      ∀ p, Path.ofText o t = .ok p → Path.ofText o' t = .ok p :=
  ⟨fun _ h => Filter.ofText_eq_ok_iff.mpr (Filter.parse_extended hx (Filter.ofText_eq_ok_iff.mp h)),
    fun _ h => Path.ofText_eq_ok_iff.mpr (Path.parse_extended hx (Path.ofText_eq_ok_iff.mp h))⟩

/-- The plus stands in a string and the number sign in a URN. Both may become units of names. -/
theorem ofText_extended_plus : ParserOptions.default.Extends ⟨[plus, 0x23]⟩ ∧
    Filter.ofText ⟨[plus, 0x23]⟩ (Text.ofString "d eq \"x+y\"") =
      .ok (.compare .eq (.ofName (Text.ofString "d")) (.str (Text.ofString "x+y"))) ∧
    Path.ofText ⟨[plus, 0x23]⟩ (Text.ofString "urn:a#b:c[d eq \"x+y\"]") =
      .ok ⟨some (Text.ofString "urn:a#b"), [⟨Text.ofString "c",
        some (.compare .eq (.ofName (Text.ofString "d")) (.str (Text.ofString "x+y")))⟩]⟩ := by
  have hx : ParserOptions.default.Extends ⟨[plus, 0x23]⟩ :=
    ⟨fun _ h => absurd h List.not_mem_nil,
      List.forall_mem_cons.mpr ⟨by decide, List.forall_mem_singleton.mpr (by decide)⟩⟩
  have hscan : Token.scan .default (Text.ofString "d eq \"x+y\"") = .ok
      [⟨.word, Text.ofString "d", 0⟩, ⟨.comparison .eq, Text.ofString "eq", 2⟩,
        ⟨.value (.str (Text.ofString "x+y")), Text.ofString "\"x+y\"", 5⟩] := by decide +kernel
  have hword : Path.Word .default (Text.ofString "d") (.ofName (Text.ofString "d")) :=
    .of_isName (by decide)
  have hf : Filter.ofText .default (Text.ofString "d eq \"x+y\"") =
      .ok (.compare .eq (.ofName (Text.ofString "d")) (.str (Text.ofString "x+y"))) :=
    Filter.ofText_eq_ok_iff.mpr (Filter.parse_eq_ok_iff.mpr
      ⟨_, hscan, (Filter.Operand.compare rfl hword rfl rfl).derives⟩)
  have hp : Path.Written .default (Text.ofString "urn:a#b" ++ colon :: (Text.ofString "c" ++
      openBracket :: (Text.ofString "d eq \"x+y\"" ++ [closeBracket]))) _ :=
    .qualified (by decide) (by decide) (by decide) (.single (.selecting (by decide) hf))
  refine ⟨hx, (ofText_extended hx _).1 _ hf, (ofText_extended hx _).2 _ ?_⟩
  exact Path.ofText_eq_ok_iff.mpr (Path.parse_eq_ok_iff.mpr hp)

end Scim

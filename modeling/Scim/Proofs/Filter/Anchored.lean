import Scim.Proofs.Filter.Parse
import Scim.Proofs.Token.Anchored

/-!
# Where reading a filter fails

Every fault of the reader of filters lies in the range it reads, or at its end (`anchored_parseRange`).
A fault of an attribute word lies in this word; any other stands at a token, or at the end of the
range. The tokens that a reader leaves are some of those it was given, so the induction of the reader
keeps them inside the range.
-/

namespace Scim

open CodeUnit

/-! ### Attribute words -/

theorem Text.length_points_le (t : Text) : t.points.length ≤ t.length := by
  fun_induction points t with
  | case1 => exact Nat.le_refl _
  | case2 => exact Nat.le_refl _
  | case3 c d rest _ ih => simp only [List.length_cons]; omega
  | case4 c d rest _ ih => simp only [List.length_cons] at ih ⊢; omega

namespace Path

variable {o : ParserOptions} {word : Text}

theorem anchored_namesOf (o : ParserOptions) (word : Text) (pos : Nat) (names : List Text) :
    Anchored pos (pos + (Text.join [dot] names).length) (namesOf o word pos names) := by
  induction names generalizing pos with
  | nil => exact .ok _
  | cons n ns ih =>
    have hle : n.length ≤ (Text.join [dot] (n :: ns)).length := by
      by_cases hns : ns = []
      · rw [hns, Text.join_singleton]
      · rw [Text.join_cons hns, List.append_assoc, List.length_append]
        exact Nat.le_add_right ..
    rw [namesOf]
    split_ifs with hbad
    · have hvalid := (List.takeWhile_sublist o.isNamePoint (l := n.points)).length_le
      have := n.length_points_le
      exact .error ⟨Nat.le_add_right .., by simp only; omega⟩
    · refine Anchored.map ?_
      by_cases hns : ns = []
      · subst hns
        exact .ok _
      · refine (ih (pos + n.length + 1)).mono (by omega) ?_
        rw [Text.join_cons hns, List.length_append, List.length_append, List.length_singleton]
        omega

theorem anchored_ofWord (o : ParserOptions) (word : Text) (pos : Nat) :
    Anchored pos (pos + word.length) (ofWord o word pos) := by
  have hnames : ∀ (t : Text) (p : Nat), Anchored p (p + t.length)
      (namesOf o word p (Text.splitOn dot t)) := by
    intro t p
    have h := anchored_namesOf o word p (Text.splitOn dot t)
    rwa [Text.join_splitOn] at h
  rw [ofWord]
  split
  · rename_i urn t hs
    have hsplit : Text.splitAtLast? colon word = some (urn, t) := by
      split_ifs at hs
      exact hs
    obtain ⟨rfl, -⟩ := Text.splitAtLast?_eq_some_iff.mp hsplit
    simp only [List.length_append, List.length_cons]
    split_ifs
    · exact .error ⟨by simp only; omega, by simp only; omega⟩
    · exact ((hnames t _).mono (by omega) (by omega)).map
  · exact (hnames word pos).map

end Path

/-! ### Rows of tokens -/

namespace Filter

variable {o : ParserOptions} {lo stop : Nat} {ts ts' : List Token}

theorem Parsed.anchored_weaken {α : Type} {hi : Nat} {r : Parsed α ts} (h : ts.length ≤ ts'.length)
    (hr : Anchored lo hi r) : Anchored lo hi (r.weaken h) := by
  rcases r with f | ⟨r, hlt⟩
  · exact .error (hr f rfl)
  · exact .ok _

theorem Parsed.anchored_map {α β : Type} {hi : Nat} {r : Parsed α ts} {g : α → β}
    (hr : Anchored lo hi r) : Anchored lo hi (r.map g) := by
  rcases r with f | ⟨r, hlt⟩
  · exact .error (hr f rfl)
  · exact .ok _

theorem anchored_closeGroup {hi : Nat} {b : Bracket} {opening : Token} {r : Parsed Operands ts}
    (hr : Anchored lo hi r) (hopen : lo ≤ opening.position ∧ opening.position ≤ hi)
    (hrest : ∀ s t rest, r.Gives s (t :: rest) → lo ≤ t.position ∧ t.position ≤ hi) :
    Anchored lo hi (closeGroup b opening r) := by
  rcases r with f | ⟨⟨s, _ | ⟨t, rest⟩⟩, hlt⟩
  · exact .error (hr f rfl)
  · exact .error hopen
  · rw [closeGroup]
    split_ifs
    · exact .ok _
    · exact .error (hrest s t rest ⟨hlt, rfl⟩)

theorem inside_of_gives {s : Operands} {rest : List Token} (hts : Token.Inside lo stop ts)
    (h : (parseOperands o stop ts).Gives s rest) : Token.Inside lo stop rest := by
  obtain ⟨used, rfl, -⟩ := (used_of_gives ts.length ts (Nat.le_refl _)).2 s rest h
  exact fun x hx => hts x (List.mem_append_right _ hx)

theorem inside_of_gives_operand {f : Filter} {rest : List Token} (hts : Token.Inside lo stop ts)
    (h : (parseOperand o stop ts).Gives f rest) : Token.Inside lo stop rest := by
  obtain ⟨used, rfl, -⟩ := (used_of_gives ts.length ts (Nat.le_refl _)).1 f rest h
  exact fun x hx => hts x (List.mem_append_right _ hx)

theorem position_of_inside {t : Token} (hts : Token.Inside lo stop ts) (ht : t ∈ ts) :
    lo ≤ t.position ∧ t.position ≤ stop :=
  ⟨(hts t ht).1, Nat.le_trans (Nat.le_add_right ..) (hts t ht).2⟩

/-- One operand, where what stands in brackets is anchored. -/
theorem anchored_parseOperand (hlo : lo ≤ stop) (hts : Token.Inside lo stop ts)
    (ih : ∀ us : List Token, us.length < ts.length → Token.Inside lo stop us →
      Anchored lo stop (parseOperands o stop us)) : Anchored lo stop (parseOperand o stop ts) := by
  have hend : lo ≤ stop ∧ stop ≤ stop := ⟨hlo, Nat.le_refl _⟩
  have group : ∀ {b : Bracket} {opening : Token} {us : List Token}, us.length < ts.length →
      Token.Inside lo stop us → opening ∈ ts →
      Anchored lo stop (closeGroup b opening (parseOperands o stop us)) :=
    fun hlen hus hopen => anchored_closeGroup (ih _ hlen hus) (position_of_inside hts hopen)
      fun s t rest h => position_of_inside (inside_of_gives hus h) (List.mem_cons_self ..)
  rw [parseOperand.eq_def]
  split
  · exact .error hend
  rename_i t rest
  have ht := position_of_inside hts (List.mem_cons_self ..)
  have hrest : Token.Inside lo stop rest := fun x hx => hts x (List.mem_cons_of_mem _ hx)
  split
  · split
    · exact .error hend
    · rename_i opening us
      split_ifs
      · exact Parsed.anchored_map (Parsed.anchored_weaken _ (group (by simp only [List.length_cons]; omega)
          (fun x hx => hrest x (List.mem_cons_of_mem _ hx)) (by simp)))
      · exact .error (position_of_inside hrest (List.mem_cons_self ..))
  · exact Parsed.anchored_weaken _ (group (by simp) hrest (List.mem_cons_self ..))
  · exact .error ht
  · split
    · rename_i f hf
      have hword := Path.anchored_ofWord o t.text t.position f hf
      exact .error ⟨Nat.le_trans ht.1 hword.1,
        Nat.le_trans hword.2 (hts t (List.mem_cons_self ..)).2⟩
    split
    · exact .error hend
    rename_i operator us
    have hoperator := position_of_inside hrest (List.mem_cons_self ..)
    split
    · exact Parsed.anchored_map (Parsed.anchored_weaken _ (group (by simp only [List.length_cons]; omega)
        (fun x hx => hrest x (List.mem_cons_of_mem _ hx)) (by simp)))
    · exact .ok _
    · split
      · exact .error hend
      split
      · exact .ok _
      · exact .error (position_of_inside hrest (by simp))
    · exact .error hoperator
  · exact .error ht

theorem anchored_parseOperands (hlo : lo ≤ stop) (hts : Token.Inside lo stop ts) :
    Anchored lo stop (parseOperands o stop ts) := by
  obtain ⟨n, hlen⟩ : ∃ n, ts.length = n := ⟨_, rfl⟩
  induction n using Nat.strong_induction_on generalizing ts with
  | _ n ih =>
    have hoperand := anchored_parseOperand (o := o) hlo hts fun us hus hin =>
      ih us.length (hlen ▸ hus) hin rfl
    rw [parseOperands.eq_def]
    rcases hp : parseOperand o stop ts with f | ⟨⟨f, _ | ⟨t, rest⟩⟩, hlt⟩
    · exact .error (hoperand f hp)
    · exact .ok _
    · have hrest := inside_of_gives_operand hts ⟨hlt, hp⟩
      simp only
      split
      · refine Parsed.anchored_map (Parsed.anchored_weaken _ (ih rest.length ?_ ?_ rfl))
        · simp only [List.length_cons] at hlt; omega
        · exact fun x hx => hrest x (List.mem_cons_of_mem _ hx)
      · exact .ok _

theorem anchored_ofTokens (hlo : lo ≤ stop) (hts : Token.Inside lo stop ts) :
    Anchored lo stop (ofTokens o stop ts) := by
  have hoperands := anchored_parseOperands (o := o) hlo hts
  rw [ofTokens]
  rcases hp : parseOperands o stop ts with f | ⟨⟨s, _ | ⟨t, rest⟩⟩, hlt⟩
  · exact .error (hoperands f hp)
  · exact .ok _
  · have ht := position_of_inside (inside_of_gives hts ⟨hlt, hp⟩) (List.mem_cons_self ..)
    simp only
    split_ifs
    · exact .error ht
    · exact .error ht

/-- The faults of a filter lie in its range, or at the end of it. -/
theorem anchored_parseRange {t : Text} {start : Nat} (hstart : start ≤ stop)
    (hstop : stop ≤ t.length) : Anchored start stop (parseRange o t start stop) := by
  have hscan := Token.anchored_scanRange (o := o) hstart hstop
  rw [parseRange]
  cases hts : Token.scanRange o t start stop with
  | error f => exact .error (hscan f hts)
  | ok ts => exact anchored_ofTokens hstart (Token.inside_of_scanRange hstart hstop hts)

theorem anchored_parse (o : ParserOptions) (t : Text) : Anchored 0 t.length (parse o t) :=
  anchored_parseRange (Nat.zero_le _) (Nat.le_refl _)

end Filter

end Scim

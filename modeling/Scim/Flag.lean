import Scim.Text.Blank
import Scim.Text.LowerCase

/-!
# Flags

Settings as texts of an environment, where each may be missing. What cannot be read counts as
missing.
-/

namespace Scim.Flag

def boolean? (t : Text) : Option Bool :=
  let t := t.trim.lower
  if t ∈ (["true", "1", "yes", "on"] : List Text) then some true
  else if t ∈ (["false", "0", "no", "off"] : List Text) then some false
  else none

def boolean (default : Bool) (t : Option Text) : Bool := (t.bind boolean?).getD default

/-- Cuts a text at every occurrence of a separator that is not empty. The first `skip` units still
belong to the last separator. -/
def cut (separator : Text) (skip : Nat) (t : Text) : List Text :=
  match t, skip with
  | [], _ => [[]]
  | _ :: rest, skip + 1 => cut separator skip rest
  | c :: rest, 0 =>
    if separator.isPrefixOf (c :: rest) then [] :: cut separator (separator.length - 1) rest
    else match cut separator 0 rest with
      | piece :: pieces => (c :: piece) :: pieces
      | [] => [[c]]
termination_by structural t

/-- The pieces between separators; an empty separator stands between any two units. -/
def pieces (separator t : Text) : List Text :=
  if separator.isEmpty then t.map ([·]) else cut separator 0 t

/-- The entries of a list, without the white space around them and without empty ones. -/
def list? (separator : Text) (t : Option Text) : Option (List Text) := do
  let entries := (((pieces separator (← t)).map Text.trim).filter fun e => !e.isEmpty)
  if entries.isEmpty then none else some entries

theorem cut_ne_nil (separator : Text) (skip : Nat) (t : Text) : cut separator skip t ≠ [] := by
  fun_induction cut separator skip t with
  | case1 => simp
  | case2 _ _ _ ih => exact ih
  | case3 => simp
  | case4 => simp
  | case5 => simp

theorem join_cut {separator : Text} (h : separator ≠ []) (skip : Nat) (t : Text) :
    Text.join separator (cut separator skip t) = t.drop skip := by
  fun_induction cut separator skip t with
  | case1 => simp [Text.join_singleton]
  | case2 _ _ _ ih => simpa using ih
  | case3 c rest hp ih =>
    obtain ⟨tail, htail⟩ := List.isPrefixOf_iff_prefix.1 hp
    rw [Text.join_cons (cut_ne_nil _ _ _), ih]
    cases separator with
    | nil => exact absurd rfl h
    | cons d ds =>
      simp only [List.cons_append, List.cons.injEq] at htail
      rw [← htail.2, htail.1]
      simp
  | case4 c rest _ piece pieces hc ih =>
    rw [hc] at ih
    cases pieces with
    | nil => rw [Text.join_singleton] at ih ⊢; rw [ih]; rfl
    | cons p ps =>
      rw [Text.join_cons (by simp)] at ih ⊢
      rw [List.cons_append, List.cons_append, ih]
      rfl
  | case5 c rest _ hc => exact absurd hc (cut_ne_nil _ _ _)

end Scim.Flag

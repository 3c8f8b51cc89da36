import Mathlib.Data.List.Infix
import Oreneta.Lib.Text

/-!
# `LIKE` patterns

`text LIKE pattern ESCAPE sign`: `%` stands for any text, `_` for any character, the character behind the escape sign
for itself, and every other one for itself in any ASCII case.

* `pieces`, `fits`, `like` — a pattern read, and a text compared with it.
* `fits_many`, `matches_letter`, `like_iff` — what the parts of a pattern ask of a text.
-/

namespace Oreneta.Like

open List

inductive Piece where
  | many
  | one
  | letter (c : Char)
  deriving DecidableEq, Repr

def pieceOf (c : Char) : Piece := if c = '%' then .many else if c = '_' then .one else .letter c

/-- A pattern that ends in its escape sign matches nothing. -/
def pieces (escape : Char) : Str → Option (List Piece)
  | [] => some []
  | [c] => if c = escape then none else some [pieceOf c]
  | c :: d :: rest =>
    if c = escape then (pieces escape rest).map (fun more => .letter d :: more)
    else (pieces escape (d :: rest)).map (fun more => pieceOf c :: more)

def fits : List Piece → Str → Bool
  | [], text => text.isEmpty
  | .many :: more, text => text.tails.any (fits more)
  | .one :: more, text =>
    match text with
    | [] => false
    | _ :: rest => fits more rest
  | .letter c :: more, text =>
    match text with
    | [] => false
    | d :: rest => c.toLower = d.toLower && fits more rest

/-- `text LIKE pattern ESCAPE escape`. -/
def like (escape : Char) (pattern text : Str) : Bool :=
  match pieces escape pattern with
  | none => false
  | some more => fits more text

variable {escape c d : Char} {rest text : Str} {more : List Piece}

theorem pieces_escaped (h : c = escape) : pieces escape (c :: d :: rest) = (pieces escape rest).map (fun more => .letter d :: more) := by
  rw [pieces, if_pos h]

theorem pieces_plain (h : c ≠ escape) : pieces escape (c :: rest) = (pieces escape rest).map (fun more => pieceOf c :: more) := by
  cases rest with
  | nil => exact if_neg h
  | cons d rest => rw [pieces, if_neg h]

/-- Any text may stand in front. -/
theorem fits_many : fits (.many :: more) text = true ↔ ∃ before rest, text = before ++ rest ∧ fits more rest = true := by
  rw [fits, any_eq_true]
  constructor
  · rintro ⟨rest, hrest, hfits⟩
    obtain ⟨before, rfl⟩ := (mem_tails _ _).mp hrest
    exact ⟨before, rest, rfl, hfits⟩
  · rintro ⟨before, rest, rfl, hfits⟩
    exact ⟨rest, (mem_tails _ _).mpr ⟨before, rfl⟩, hfits⟩

/-- At the end of a pattern anything may follow. -/
theorem fits_rest : fits [.many] text = true := fits_many.mpr ⟨text, [], (append_nil text).symm, rfl⟩

theorem fits_one : fits (.one :: more) text = true ↔ ∃ d rest, text = d :: rest ∧ fits more rest = true := by
  cases text with
  | nil => exact ⟨fun h => (by cases h), fun ⟨d, rest, he, _⟩ => (by cases he)⟩
  | cons d rest =>
    refine ⟨fun h => ⟨d, rest, rfl, h⟩, ?_⟩
    rintro ⟨d, rest, ⟨⟩, h⟩
    exact h

theorem fits_letter : fits (.letter c :: more) text = true ↔
    ∃ d rest, text = d :: rest ∧ c.toLower = d.toLower ∧ fits more rest = true := by
  cases text with
  | nil => exact ⟨fun h => (by cases h), fun ⟨d, rest, he, _⟩ => (by cases he)⟩
  | cons d rest =>
    have hfits : fits (.letter c :: more) (d :: rest) = (decide (c.toLower = d.toLower) && fits more rest) := rfl
    rw [hfits, Bool.and_eq_true, decide_eq_true_eq]
    refine ⟨fun h => ⟨d, rest, rfl, h⟩, ?_⟩
    rintro ⟨d, rest, ⟨⟩, h⟩
    exact h

/-- A pattern with a letter in front. -/
theorem matches_letter {p : Option (List Piece)} : (∃ more, p.map (fun more => .letter c :: more) = some more ∧ fits more text = true) ↔
    ∃ d rest, text = d :: rest ∧ c.toLower = d.toLower ∧ ∃ more, p = some more ∧ fits more rest = true := by
  constructor
  · rintro ⟨more, hp, hfits⟩
    obtain ⟨more, rfl, rfl⟩ := Option.map_eq_some_iff.mp hp
    obtain ⟨d, rest, rfl, hd, hfits⟩ := fits_letter.mp hfits
    exact ⟨d, rest, rfl, hd, more, rfl, hfits⟩
  · rintro ⟨d, rest, rfl, hd, more, rfl, hfits⟩
    exact ⟨_, rfl, fits_letter.mpr ⟨d, rest, rfl, hd, hfits⟩⟩

theorem like_iff {pattern : Str} :
    like escape pattern text = true ↔ ∃ more, pieces escape pattern = some more ∧ fits more text = true := by
  unfold like
  cases pieces escape pattern with
  | none => exact ⟨fun h => (by cases h), fun ⟨_, h, _⟩ => (by cases h)⟩
  | some more =>
    refine ⟨fun h => ⟨more, rfl, h⟩, ?_⟩
    rintro ⟨more, ⟨⟩, h⟩
    exact h

end Oreneta.Like

import Oreneta.Lib.Keyset

/-!
# What a list is ordered by

`thread_list.rs`: the sort of a mailbox list, by date, sender or subject, newest or last first by default.
Texts are compared by their octets in UTF-8, which is the order of their characters.
-/

namespace Oreneta.Paging

open Keyset

inductive SortKey where
  | date
  | sender
  | subject
  deriving DecidableEq, Repr

inductive SortDir where
  | desc
  | asc
  deriving DecidableEq, Repr

/-- `thread_list::Sort`. -/
structure ListSort where
  key : SortKey
  dir : SortDir
  deriving DecidableEq, Repr

/-- An order of positions, in a direction. -/
def SortDir.toward {π : Type} (dir : SortDir) (lt : π → π → Prop) (a b : π) : Prop :=
  match dir with
  | .asc => lt a b
  | .desc => lt b a

instance {π : Type} (dir : SortDir) (lt : π → π → Prop) [DecidableRel lt] : DecidableRel (dir.toward lt) :=
  fun a b =>
    match dir with
    | .asc => inferInstanceAs (Decidable (lt a b))
    | .desc => inferInstanceAs (Decidable (lt b a))

theorem SortDir.strict {π : Type} {lt : π → π → Prop} (h : Strict lt) (dir : SortDir) : Strict (dir.toward lt) := by
  cases dir with
  | asc => exact h
  | desc => exact h.flip

/-- Two keys one after the other. -/
def pairLt {α β : Type} (lt : α → α → Prop) (lt' : β → β → Prop) (a b : α × β) : Prop :=
  lt a.1 b.1 ∨ a.1 = b.1 ∧ lt' a.2 b.2

instance {α β : Type} [DecidableEq α] (lt : α → α → Prop) (lt' : β → β → Prop) [DecidableRel lt]
    [DecidableRel lt'] : DecidableRel (pairLt lt lt') := fun _ _ => inferInstanceAs (Decidable (_ ∨ _))

theorem strict_pairLt {α β : Type} {lt : α → α → Prop} {lt' : β → β → Prop} (h : Strict lt)
    (h' : Strict lt') : Strict (pairLt lt lt') := by
  refine ⟨?_, ?_, ?_⟩
  · rintro ⟨a, b⟩ (hr | ⟨-, hr⟩)
    · exact h.irrefl _ hr
    · exact h'.irrefl _ hr
  · rintro ⟨a, a'⟩ ⟨b, b'⟩ ⟨c, c'⟩ (hab | ⟨hab, hab'⟩) (hbc | ⟨hbc, hbc'⟩)
    · exact .inl (h.trans hab hbc)
    · exact .inl (hbc ▸ hab)
    · exact .inl (hab.symm ▸ hbc)
    · exact .inr ⟨hab.trans hbc, h'.trans hab' hbc'⟩
  · rintro ⟨a, a'⟩ ⟨b, b'⟩
    rcases h.total a b with hr | rfl | hr
    · exact .inl (.inl hr)
    · rcases h'.total a' b' with hr | rfl | hr
      · exact .inl (.inr ⟨rfl, hr⟩)
      · exact .inr (.inl rfl)
      · exact .inr (.inr (.inr ⟨rfl, hr⟩))
    · exact .inr (.inr (.inl hr))

/-- What rows and cards are compared by: a date or a text. -/
inductive Key where
  | date (value : Int)
  | text (value : Str)
  deriving DecidableEq, Repr

/-- Dates come before texts, as they do in SQLite. -/
def Key.lt : Key → Key → Prop
  | .date a, .date b => a < b
  | .date _, .text _ => True
  | .text _, .date _ => False
  | .text a, .text b => a < b

instance : DecidableRel Key.lt := fun a b =>
  match a, b with
  | .date a, .date b => inferInstanceAs (Decidable (a < b))
  | .date _, .text _ => inferInstanceAs (Decidable True)
  | .text _, .date _ => inferInstanceAs (Decidable False)
  | .text a, .text b => inferInstanceAs (Decidable (a < b))

theorem strict_key : Strict Key.lt := by
  have hdate : Strict fun a b : Int => a < b := strict_lt
  have htext : Strict fun a b : Str => a < b := strict_lt
  refine ⟨?_, ?_, ?_⟩
  · rintro (a | a) h
    · exact hdate.irrefl a h
    · exact htext.irrefl a h
  · rintro (a | a) (b | b) (c | c) hab hbc
    · exact hdate.trans hab hbc
    · trivial
    · exact hbc.elim
    · trivial
    · exact hab.elim
    · exact hab.elim
    · exact hbc.elim
    · exact htext.trans hab hbc
  · rintro (a | a) (b | b)
    · rcases hdate.total a b with h | rfl | h
      · exact .inl h
      · exact .inr (.inl rfl)
      · exact .inr (.inr h)
    · exact .inl trivial
    · exact .inr (.inr trivial)
    · rcases htext.total a b with h | rfl | h
      · exact .inl h
      · exact .inr (.inl rfl)
      · exact .inr (.inr h)

end Oreneta.Paging

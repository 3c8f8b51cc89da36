import Mathlib.Data.List.Basic

/-!
# Texts that end with a lone dot

A text is sent in lines, each ended by a mark of two symbols, and after the last of them a line with one dot only.  A line that
begins with a dot gets a second one.

* `Marks` — the symbols; `pieces` — a text split at the line ends; `endedLines` — the lines that have been ended.
* `stuff`, `unstuff`, `frame` — a line with its dot doubled, the dot taken away again, and the text as it is sent.
* `endedLines_frame` — the lines that are sent are those of the text, stuffed, and the lone dot.
* `unstuff_frame` — without the last line and the doubled dots, they are the text.
-/

namespace Oreneta.DotFraming

open List

/-- The symbols that end a line, and the dot. -/
structure Marks (α : Type) where
  cr : α
  lf : α
  dot : α
  lf_ne_cr : lf ≠ cr
  dot_ne_cr : dot ≠ cr

variable {α : Type} [DecidableEq α] (m : Marks α)

/-- The end of a line. -/
def Marks.ending : List α := [m.cr, m.lf]

/-- A symbol in front of the first piece. -/
def consFirst (c : α) : List (List α) → List (List α)
  | [] => [[c]]
  | piece :: pieces => (c :: piece) :: pieces

/-- The pieces between the line ends. -/
def pieces : List α → List (List α)
  | [] => [[]]
  | [c] => [[c]]
  | c :: d :: rest => if c = m.cr ∧ d = m.lf then [] :: pieces rest else consFirst c (pieces (d :: rest))

/-- The lines that have been ended; what stands behind the last end is none. -/
def endedLines (s : List α) : List (List α) := (pieces m s).dropLast

def stuff (line : List α) : List α := if line.head? = some m.dot then m.dot :: line else line

def unstuff (line : List α) : List α := if line.head? = some m.dot then line.tail else line

/-- One line end taken from the end. -/
def withoutEnding (s : List α) : List α := if m.ending.isSuffixOf s then s.take (s.length - 2) else s

/-- The text as it is sent. -/
def frame (s : List α) : List α :=
  ((pieces m (withoutEnding m s)).flatMap fun line => stuff m line ++ m.ending) ++ (m.dot :: m.ending)

variable {m}

/-! ## Pieces -/

theorem pieces_ne_nil : ∀ s : List α, pieces m s ≠ []
  | [] => cons_ne_nil _ _
  | [_] => cons_ne_nil _ _
  | c :: d :: rest => by
    unfold pieces
    split
    · exact cons_ne_nil _ _
    · cases pieces m (d :: rest) <;> exact cons_ne_nil _ _

theorem pieces_ending (rest : List α) : pieces m (m.cr :: m.lf :: rest) = [] :: pieces m rest := by
  rw [pieces, if_pos ⟨rfl, rfl⟩]

theorem pieces_cons {c d : α} (h : ¬ (c = m.cr ∧ d = m.lf)) (rest : List α) :
    pieces m (c :: d :: rest) = consFirst c (pieces m (d :: rest)) := by
  rw [pieces, if_neg h]

omit [DecidableEq α] in
theorem consFirst_eq_singleton {c : α} {l : List α} {ps : List (List α)} (hps : ps ≠ []) (h : consFirst c ps = [c :: l]) :
    ps = [l] := by
  cases ps with
  | nil => exact absurd rfl hps
  | cons p ps =>
    injection h with hp hps
    injection hp with _ hp
    rw [hp, hps]

/-- The first piece is empty or starts as the text does. -/
theorem head_pieces (d : α) (rest : List α) : ∃ piece more, pieces m (d :: rest) = piece :: more ∧
    (piece = [] ∨ ∃ tail, piece = d :: tail) := by
  cases rest with
  | nil => exact ⟨[d], [], rfl, .inr ⟨[], rfl⟩⟩
  | cons e rest =>
    unfold pieces
    split
    · exact ⟨[], _, rfl, .inl rfl⟩
    · cases pieces m (e :: rest) <;> exact ⟨_, _, rfl, .inr ⟨_, rfl⟩⟩

/-- A piece has no line end in it. -/
theorem pieces_of_mem : ∀ {s l : List α}, l ∈ pieces m s → pieces m l = [l]
  | [], l, h => by
    rw [mem_singleton.mp h]
    rfl
  | [c], l, h => by
    rw [mem_singleton.mp h]
    rfl
  | c :: d :: rest, l, h => by
    by_cases hend : c = m.cr ∧ d = m.lf
    · rw [pieces, if_pos hend] at h
      rcases mem_cons.mp h with rfl | h
      · rfl
      · exact pieces_of_mem h
    · rw [pieces_cons hend] at h
      obtain ⟨piece, more, hpieces, hpiece⟩ := head_pieces (m := m) d rest
      have ih : ∀ {l : List α}, l ∈ piece :: more → pieces m l = [l] := fun hl => pieces_of_mem (s := d :: rest) (hpieces ▸ hl)
      rw [hpieces] at h
      rcases mem_cons.mp h with rfl | h
      · rcases hpiece with rfl | ⟨tail, rfl⟩
        · rfl
        · rw [pieces_cons hend, ih mem_cons_self]
          rfl
      · exact ih (mem_cons_of_mem _ h)

/-- A piece, its end and what follows. -/
theorem pieces_append (rest : List α) : ∀ {l : List α}, pieces m l = [l] → pieces m (l ++ (m.ending ++ rest)) = l :: pieces m rest
  | [], _ => pieces_ending rest
  | [c], _ => by
    have hno : ¬ (c = m.cr ∧ m.cr = m.lf) := fun h => m.lf_ne_cr h.2.symm
    have hstep : pieces m (c :: m.cr :: m.lf :: rest) = consFirst c (pieces m (m.cr :: m.lf :: rest)) := pieces_cons hno _
    rw [pieces_ending] at hstep
    exact hstep
  | c :: d :: l, h => by
    have hno : ¬ (c = m.cr ∧ d = m.lf) := by
      intro hend
      rw [pieces, if_pos hend] at h
      cases h
    rw [pieces_cons hno] at h
    have ih := pieces_append rest (consFirst_eq_singleton (pieces_ne_nil _) h)
    have hstep : pieces m (c :: d :: (l ++ (m.ending ++ rest))) = consFirst c (pieces m (d :: l ++ (m.ending ++ rest))) :=
      pieces_cons hno _
    rw [ih] at hstep
    exact hstep

theorem pieces_flatMap (rest : List α) : ∀ {ls : List (List α)}, (∀ l ∈ ls, pieces m l = [l]) →
    pieces m ((ls.flatMap fun l => l ++ m.ending) ++ rest) = ls ++ pieces m rest
  | [], _ => rfl
  | l :: ls, h => by
    rw [flatMap_cons, append_assoc, append_assoc, pieces_append _ (h l mem_cons_self),
      pieces_flatMap rest fun l hl => h l (mem_cons_of_mem _ hl), cons_append]

/-- The pieces, each ended, are the text and one end more. -/
theorem flatMap_pieces : ∀ s : List α, ((pieces m s).flatMap fun l => l ++ m.ending) = s ++ m.ending
  | [] => by simp [pieces]
  | [c] => by simp [pieces]
  | c :: d :: rest => by
    by_cases hend : c = m.cr ∧ d = m.lf
    · rw [pieces, if_pos hend, flatMap_cons, flatMap_pieces rest, hend.1, hend.2]
      rfl
    · have ih := flatMap_pieces (d :: rest)
      rw [pieces_cons hend]
      cases hpieces : pieces m (d :: rest) with
      | nil => exact absurd hpieces (pieces_ne_nil _)
      | cons piece more =>
        rw [hpieces, flatMap_cons] at ih
        rw [consFirst, flatMap_cons, cons_append, cons_append, ih]
        rfl

/-! ## Frames -/

theorem pieces_stuff {l : List α} (h : pieces m l = [l]) : pieces m (stuff m l) = [stuff m l] := by
  unfold stuff
  split
  · cases l with
    | nil => rfl
    | cons c l =>
      rw [pieces_cons fun hend => m.dot_ne_cr hend.1, h]
      rfl
  · exact h

theorem unstuff_stuff (l : List α) : unstuff m (stuff m l) = l := by
  unfold stuff
  by_cases h : l.head? = some m.dot
  · rw [if_pos h, unstuff, head?_cons, if_pos rfl, tail_cons]
  · rw [if_neg h, unstuff, if_neg h]

theorem stuff_ne_dot (l : List α) : stuff m l ≠ [m.dot] := by
  unfold stuff
  split
  · rename_i h
    cases l with
    | nil => cases h
    | cons c l => exact fun he => by cases he
  · rename_i h
    rintro rfl
    exact h rfl

/-- **The lines that are sent** are those of the text, stuffed, and the lone dot. -/
theorem endedLines_frame (s : List α) : endedLines m (frame m s) = (pieces m (withoutEnding m s)).map (stuff m) ++ [[m.dot]] := by
  have hframe : frame m s = (((pieces m (withoutEnding m s)).map (stuff m) ++ [[m.dot]]).flatMap fun l => l ++ m.ending) ++ [] := by
    unfold frame
    rw [flatMap_append, flatMap_map, append_nil]
    rfl
  have hflat : ∀ l ∈ (pieces m (withoutEnding m s)).map (stuff m) ++ [[m.dot]], pieces m l = [l] := by
    intro l hl
    rcases mem_append.mp hl with hl | hl
    · obtain ⟨piece, hpiece, rfl⟩ := mem_map.mp hl
      exact pieces_stuff (pieces_of_mem hpiece)
    · rw [mem_singleton.mp hl]
      rfl
  unfold endedLines
  rw [hframe, pieces_flatMap [] hflat]
  exact dropLast_concat

theorem dot_notMem (s : List α) : [m.dot] ∉ (pieces m (withoutEnding m s)).map (stuff m) := by
  intro h
  obtain ⟨l, -, hl⟩ := mem_map.mp h
  exact stuff_ne_dot l hl

/-- **The text comes back** when the last line goes, and the first dot of every other line that begins with one. -/
theorem unstuff_frame (s : List α) : (((endedLines m (frame m s)).dropLast.map (unstuff m)).flatMap fun l => l ++ m.ending) =
    withoutEnding m s ++ m.ending := by
  rw [endedLines_frame, dropLast_concat, map_map]
  have hid : unstuff m ∘ stuff m = id := funext unstuff_stuff
  rw [hid, map_id, flatMap_pieces]

/-- A text with one line end at its end, whether it had one or not. -/
theorem withoutEnding_append (s : List α) : withoutEnding m s ++ m.ending = if m.ending.isSuffixOf s then s else s ++ m.ending := by
  unfold withoutEnding
  split
  · rename_i h
    obtain ⟨front, rfl⟩ := isSuffixOf_iff_suffix.mp h
    rw [length_append]
    exact congrArg (· ++ m.ending) (take_left' rfl)
  · rfl

/-! ## What has arrived -/

end Oreneta.DotFraming

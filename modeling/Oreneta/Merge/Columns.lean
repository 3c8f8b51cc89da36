import Mathlib.Data.Nat.Find
import Oreneta.Merge.Recipients

/-!
# Every cell in its column

* `Keeps header row r` — what was read of a row has under every name of the header the cell of that column.
* `Aligned` — the lines of a table still begin in the first column when they are trimmed, and its first line still
  names two columns.
* `table_read` — a table is read row by row, every cell in its column, exactly if it is `Aligned`.
-/

namespace Oreneta.Merge

open Text List

def Keeps (header : List Str) (row : List Cell) (r : Row) : Prop :=
  ∀ (j : Nat) (name : Str), header[j]? = some name → r.column name = some (cellAt row j)

/-- Nothing of a line is taken for the white space around it but what stands for empty cells at its end. -/
structure Aligned (sep : Char) (header : List Str) (rows : List (List Cell)) : Prop where
  named : 2 ≤ (shownNames sep header).length
  header : sep = '\t' → rows ≠ [] → header.head? ≠ some [] ∧ header.getLast? ≠ some []
  rows : sep = '\t' → ∀ row ∈ rows, ∀ c ∈ row.head?, c.isBlank = false

/-! ## Names and cells side by side -/

section Zip

theorem map_fst_zipCells : ∀ header cells : List Str, (zipCells header cells).map Prod.fst = header
  | [], _ => rfl
  | name :: header, [] => by rw [zipCells, map_cons, map_fst_zipCells header []]
  | name :: header, cell :: cells => by rw [zipCells, map_cons, map_fst_zipCells header cells]

theorem getElem?_zipCells : ∀ (header cells : List Str) (j : Nat),
    (zipCells header cells)[j]? = header[j]?.map (fun name => (name, cells[j]?.getD []))
  | [], _, _ => rfl
  | name :: header, [], 0 => rfl
  | name :: header, [], j + 1 => by simpa [zipCells] using getElem?_zipCells header [] j
  | name :: header, cell :: cells, 0 => rfl
  | name :: header, cell :: cells, j + 1 => by simpa [zipCells] using getElem?_zipCells header cells j

/-- Under different names every cell is found. -/
theorem last_zipCells {header : List Str} (hd : header.Nodup) (cells : List Str) {j : Nat} {name : Str}
    (hj : header[j]? = some name) : Log.last (zipCells header cells) name = some (cells[j]?.getD []) := by
  have hget : (zipCells header cells)[j]? = some (name, cells[j]?.getD []) := by
    rw [getElem?_zipCells, hj, Option.map_some]
  have hkeyed : Table.Keyed Prod.fst (zipCells header cells) := by
    unfold Table.Keyed
    rw [map_fst_zipCells]
    exact hd
  have hlast := @Log.last_of_keyed _ _ _ _ Prod.fst Prod.snd _ hkeyed _ (mem_of_getElem? hget)
  simpa using hlast

theorem last_zipCells_none {header : List Str} {name : Str} (h : name ∉ header) (cells : List Str) :
    Log.last (zipCells header cells) name = none := by
  rw [Log.last_eq_none]
  intro e he hk
  apply h
  rw [← map_fst_zipCells header cells, ← hk]
  exact mem_map.mpr ⟨e, he, rfl⟩

end Zip

/-! ## What trimming does to the columns -/

section Shown

variable {sep : Char} {header : List Str} {row : List Cell}

theorem getElem?_map_text (j : Nat) : (row.map Cell.text)[j]?.getD [] = cellAt row j := by
  rw [getElem?_map]
  rfl

theorem text_of_isBlank {c : Cell} (h : c.isBlank = true) : c.text = [] := by
  unfold Cell.isBlank at h
  rw [Bool.and_eq_true] at h
  exact List.isEmpty_iff.mp h.2

theorem cellAt_append_blank (before : List Cell) {after : List Cell} (h : ∀ c ∈ after, c.isBlank = true) (j : Nat) :
    cellAt (before ++ after) j = cellAt before j := by
  unfold cellAt
  rw [getElem?_append]
  split
  · rfl
  · rename_i hj
    rw [getElem?_eq_none (by omega : before.length ≤ j)]
    cases hc : after[j - before.length]? with
    | none => rfl
    | some c => simp [text_of_isBlank (h c (mem_of_getElem? hc))]

theorem cellAt_append_right (before after : List Cell) (j : Nat) :
    cellAt (before ++ after) (before.length + j) = cellAt after j := by
  unfold cellAt
  rw [getElem?_append_right (Nat.le_add_right _ _), Nat.add_sub_cancel_left]

/-- Empty cells at a line's end are made up for. -/
theorem cellAt_rdropWhile (j : Nat) : cellAt (row.rdropWhile Cell.isBlank) j = cellAt row j := by
  obtain ⟨after, hrow, hblank⟩ := rdropWhile_split Cell.isBlank row
  have h := cellAt_append_blank (row.rdropWhile Cell.isBlank) hblank j
  rw [← hrow] at h
  exact h.symm

theorem dropWhile_head {α : Type} {p : α → Bool} {l : List α} (h : ∀ a ∈ l.head?, p a = false) : l.dropWhile p = l := by
  cases l with
  | nil => rfl
  | cons a l => exact dropWhile_cons_of_neg (by simp [h a rfl])

theorem cellAt_shown (h : sep = '\t' → ∀ c ∈ row.head?, c.isBlank = false) (j : Nat) :
    cellAt (shown sep row) j = cellAt row j := by
  unfold shown
  split
  · rename_i ht
    rw [dropWhile_head (h ht), cellAt_rdropWhile]
  · rfl

/-- The last cell that is not empty. -/
theorem exists_last_cell (h : ∃ c ∈ row, c.text ≠ []) : ∃ j < row.length, cellAt row j ≠ [] ∧ ∀ i, j < i → cellAt row i = [] := by
  obtain ⟨c, hc, hne⟩ := h
  obtain ⟨k, hk, hget⟩ := mem_iff_getElem.mp hc
  have hbeyond : ∀ i, row.length ≤ i → cellAt row i = [] := by
    intro i hi
    unfold cellAt
    rw [getElem?_eq_none hi]
    rfl
  have hcell : cellAt row k ≠ [] := by
    unfold cellAt
    rw [getElem?_eq_getElem hk, hget]
    exact hne
  have hspec : cellAt row (Nat.findGreatest (fun j => cellAt row j ≠ []) row.length) ≠ [] :=
    Nat.findGreatest_spec (P := fun j => cellAt row j ≠ []) (Nat.le_of_lt hk) hcell
  refine ⟨Nat.findGreatest (fun j => cellAt row j ≠ []) row.length, ?_, hspec, fun i hi => ?_⟩
  · by_contra hlt
    exact hspec (hbeyond _ (by omega))
  · by_cases hlen : i ≤ row.length
    · exact not_not.mp (Nat.findGreatest_is_greatest hi hlen)
    · exact hbeyond i (by omega)

/-- A line that begins with a tab loses its first cell: the last one that is not empty moves. -/
theorem exists_moved (hsome : ∃ c ∈ row, c.text ≠ []) {c : Cell} (hc : c ∈ row.head?) (hblank : c.isBlank = true) :
    ∃ j < row.length, cellAt (shown '\t' row) j ≠ cellAt row j := by
  obtain ⟨j, hj, hne, hlast⟩ := exists_last_cell hsome
  refine ⟨j, hj, ?_⟩
  have hsplit : row = row.takeWhile Cell.isBlank ++ row.dropWhile Cell.isBlank := takeWhile_append_dropWhile.symm
  have hpos : 0 < (row.takeWhile Cell.isBlank).length := by
    cases row with
    | nil => cases hc
    | cons d rest =>
      cases hc
      rw [takeWhile_cons_of_pos hblank]
      exact Nat.succ_pos _
  have hshift : cellAt (row.dropWhile Cell.isBlank) j = cellAt row ((row.takeWhile Cell.isBlank).length + j) := by
    have hright := cellAt_append_right (row.takeWhile Cell.isBlank) (row.dropWhile Cell.isBlank) j
    rw [← hsplit] at hright
    exact hright.symm
  unfold shown
  rw [if_pos rfl, cellAt_rdropWhile, hshift, hlast _ (by omega)]
  exact fun h => hne h.symm

theorem shown_ne_nil (hsome : ∃ c ∈ row, c.text ≠ []) : shown sep row ≠ [] := by
  obtain ⟨c, hc, hne⟩ := hsome
  have hp : c.isBlank = false := by
    cases hb : c.isBlank with
    | false => rfl
    | true => exact absurd (text_of_isBlank hb) hne
  unfold shown
  split
  · exact ne_nil_of_mem (mem_rdropWhile_of_not (mem_dropWhile_of_not hc hp) hp)
  · exact ne_nil_of_mem hc

theorem mem_shown {c : Cell} (h : c ∈ shown sep row) : c ∈ row := by
  unfold shown at h
  split at h
  · exact (dropWhile_sublist _).subset ((List.rdropWhile_prefix _ _).sublist.subset h)
  · exact h

theorem rdropWhile_last {α : Type} {p : α → Bool} {l : List α} (h : ∀ a ∈ l.getLast?, p a = false) : l.rdropWhile p = l := by
  unfold List.rdropWhile
  rw [dropWhile_head, reverse_reverse]
  intro a ha
  rw [head?_reverse] at ha
  exact h a ha

/-- The names are all there if those at the ends are not empty. -/
theorem shownNames_eq (h : sep = '\t' → header.head? ≠ some [] ∧ header.getLast? ≠ some []) : shownNames sep header = header := by
  unfold shownNames
  split
  · rename_i ht
    obtain ⟨hh, hl⟩ := h ht
    have hne : ∀ {name : Str}, some name ≠ some [] → name.isEmpty = false := by
      intro name hn
      cases name with
      | nil => exact absurd rfl hn
      | cons c name => rfl
    rw [dropWhile_head, rdropWhile_last]
    · exact fun name hn => hne (hn ▸ hl)
    · exact fun name hn => hne (hn ▸ hh)
  · rfl

/-- An empty name at an end is lost. -/
theorem nil_notMem_shownNames (hd : header.Nodup) (h : header.head? = some [] ∨ header.getLast? = some []) :
    [] ∉ shownNames '\t' header := by
  unfold shownNames
  rw [if_pos rfl]
  intro hmem
  have hsub : (header.dropWhile List.isEmpty).Sublist header := dropWhile_sublist _
  obtain ⟨after, hsplit, -⟩ := rdropWhile_split List.isEmpty (header.dropWhile List.isEmpty)
  have hin : [] ∈ header.dropWhile List.isEmpty := by
    rw [hsplit]
    exact mem_append_left _ hmem
  rcases h with h | h
  · -- the one empty name was dropped from the front
    cases header with
    | nil => cases h
    | cons a rest =>
      cases h
      rw [dropWhile_cons_of_pos rfl] at hin
      exact (nodup_cons.mp hd).1 ((dropWhile_sublist _).subset hin)
  · -- or it is the last of what is left
    have hlast : (header.dropWhile List.isEmpty).getLast? = some [] := by
      have hwhole : header = header.takeWhile List.isEmpty ++ header.dropWhile List.isEmpty :=
        takeWhile_append_dropWhile.symm
      rw [hwhole, getLast?_append_of_ne_nil _ (ne_nil_of_mem hin)] at h
      exact h
    obtain ⟨init, hinit⟩ := getLast?_eq_some_iff.mp hlast
    rw [hinit, rdropWhile_concat_pos _ _ _ rfl] at hmem
    have hnodup : (init ++ [[]]).Nodup := by
      rw [← hinit]
      exact hsub.nodup hd
    have := (nodup_append.mp hnodup).2.2 [] ((List.rdropWhile_prefix _ _).sublist.subset hmem) [] mem_cons_self
    exact this rfl

end Shown

/-! ## A table is read -/

section Read

variable {lower : Str → Str} {sep : Char} {header : List Str} {rows : List (List Cell)}

theorem forall₂_zipIdx {α β γ : Type} {P : α → γ → Prop} {Q : α → Prop} {f : α → β} {g : β × Nat → γ}
    (l : List α) (h : ∀ a ∈ l, ∀ i, (P a (g (f a, i)) ↔ Q a)) (k : Nat) :
    List.Forall₂ P l (((l.map f).zipIdx k).map g) ↔ ∀ a ∈ l, Q a := by
  induction l generalizing k with
  | nil => simp
  | cons a l ih =>
    obtain ⟨ha, hrest⟩ := forall_mem_cons.mp h
    rw [map_cons, zipIdx_cons, map_cons, List.forall₂_cons, ha k, ih hrest, forall_mem_cons]

/-- The row of a table that names its columns. -/
theorem keeps_tableRow (h : TableOk lower sep header rows) {row : List Cell} (hrow : row ∈ rows) (i : Nat) :
    Keeps header row (tableRow (shownNames sep header) sep (i, trim (lineOf sep row))) ↔
      (sep = '\t' → (header.head? ≠ some [] ∧ header.getLast? ≠ some []) ∧ ∀ c ∈ row.head?, c.isBlank = false) := by
  have hok := h.rows row hrow
  have hcells : splitCsv (trim (lineOf sep row)) sep = (shown sep row).map Cell.text := by
    rw [trim_lineOf h.known hok.cells]
    exact splitCsv_lineOf (separator_ne h.known).2.2 (shown_ne_nil hok.some_) fun c hc => hok.cells c (mem_shown hc)
  have hcolumn : ∀ name, (tableRow (shownNames sep header) sep (i, trim (lineOf sep row))).column name =
      Log.last (zipCells (shownNames sep header) ((shown sep row).map Cell.text)) name := by
    intro name
    unfold Row.column tableRow
    rw [hcells]
  constructor
  · rintro hkeeps rfl
    have hends : header.head? ≠ some [] ∧ header.getLast? ≠ some [] := by
      -- a name that is lost is not found
      rw [← not_or]
      intro hend
      have hmem : [] ∈ header := by
        rcases hend with hend | hend
        · exact mem_of_head? hend
        · exact mem_of_getLast? hend
      obtain ⟨j, hj, hget⟩ := mem_iff_getElem.mp hmem
      have hfound := hkeeps j [] (by rw [getElem?_eq_getElem hj, hget])
      rw [hcolumn, last_zipCells_none (nil_notMem_shownNames h.distinct hend)] at hfound
      cases hfound
    refine ⟨hends, fun c hc => ?_⟩
    cases hb : c.isBlank with
    | false => rfl
    | true =>
      obtain ⟨j, hj, hmoved⟩ := exists_moved hok.some_ hc hb
      have hlt : j < header.length := by
        have := hok.short
        omega
      have hfound := hkeeps j header[j] (getElem?_eq_getElem hlt)
      rw [hcolumn, shownNames_eq fun _ => hends, last_zipCells h.distinct _ (getElem?_eq_getElem hlt),
        getElem?_map_text] at hfound
      exact absurd (Option.some.inj hfound) hmoved
  · intro haligned j name hj
    rw [hcolumn, shownNames_eq fun ht => (haligned ht).1, last_zipCells h.distinct _ hj, getElem?_map_text,
      cellAt_shown fun ht => (haligned ht).2]

/-- **Every cell in its column.**  A table is read row by row, in order, with every name of the header standing for
the row's cell, exactly if it is aligned. -/
theorem table_read (h : TableOk lower sep header rows) :
    List.Forall₂ (Keeps header) rows (parseRecipients lower (tableText sep header rows)) ↔ Aligned sep header rows := by
  have hfirst : trim (lineOf sep (bareCells header)) = join [sep] (shownNames sep header) := by
    rw [lineOf_bareCells, trim_names h.known h.names]
  unfold parseRecipients
  rw [numbered_tableText h]
  unfold tableRows
  rw [map_cons, zipIdx_cons, map_cons]
  dsimp only
  rw [hfirst, headerOf_eq h]
  by_cases hnamed : 2 ≤ (shownNames sep header).length
  · rw [if_pos hnamed]
    dsimp only
    rw [map_map, forall₂_zipIdx rows (fun row hrow i => keeps_tableRow h hrow (i + 1)) (0 + 1)]
    constructor
    · intro hall
      refine ⟨hnamed, fun ht hne => ?_, fun ht row hrow => (hall row hrow ht).2⟩
      obtain ⟨row, hrow⟩ := exists_mem_of_ne_nil rows hne
      exact (hall row hrow ht).1
    · intro haligned row hrow ht
      exact ⟨haligned.header ht (ne_nil_of_mem hrow), haligned.rows ht row hrow⟩
  · -- the first line is taken for a recipient, and so are the others
    rw [if_neg hnamed]
    dsimp only
    constructor
    · intro hall
      have hlen := hall.length_eq
      simp only [map_cons, length_cons, length_map, length_zipIdx] at hlen
      omega
    · intro haligned
      exact absurd haligned.named hnamed

/-- Two columns and two rows, one of them short. -/
theorem table_read_two : List.Forall₂ (Keeps ["email", "name"]) [[⟨"a@b.c", false⟩, ⟨"A, \"B\"", true⟩], [⟨"d@e.f", true⟩]]
    (parseRecipients id (tableText ',' ["email", "name"] [[⟨"a@b.c", false⟩, ⟨"A, \"B\"", true⟩], [⟨"d@e.f", true⟩]])) := by
  refine (table_read ⟨by decide, by decide, by decide, ?_, ?_⟩).mpr ⟨by decide, fun h => ?_, fun h => ?_⟩
  · intro name hname
    simp only [mem_cons, not_mem_nil, or_false] at hname
    rcases hname with rfl | rfl
    · exact ⟨by decide, rfl, by decide, by decide, by decide⟩
    · exact ⟨by decide, rfl, by decide, by decide, by decide⟩
  · intro row hrow
    simp only [mem_cons, not_mem_nil, or_false] at hrow
    rcases hrow with rfl | rfl
    · refine ⟨by decide, ⟨_, mem_cons_self, by decide⟩, fun c hc => ?_⟩
      simp only [mem_cons, not_mem_nil, or_false] at hc
      rcases hc with rfl | rfl
      · exact ⟨by decide, by decide, by decide⟩
      · exact ⟨by decide, by decide, by decide⟩
    · refine ⟨by decide, ⟨_, mem_cons_self, by decide⟩, fun c hc => ?_⟩
      rw [mem_singleton.mp hc]
      exact ⟨by decide, by decide, by decide⟩
  · revert h
    decide
  · revert h
    decide

/-- Of a line of tabs whose first cell is empty the address is read as the name; a table of one column is read as a
list, its first line with it. -/
theorem cells_lost : ¬ List.Forall₂ (Keeps ["name", "email"]) [[⟨[], false⟩, ⟨"a@b.c", false⟩]]
      (parseRecipients id (tableText '\t' ["name", "email"] [[⟨[], false⟩, ⟨"a@b.c", false⟩]])) ∧
    ¬ List.Forall₂ (Keeps ["email"]) [[⟨"a@b.c", true⟩]]
      (parseRecipients id (tableText ',' ["email"] [[⟨"a@b.c", true⟩]])) := by
  constructor
  · intro h
    cases h with
    | cons hrow _ =>
      have := hrow 1 "email" rfl
      revert this
      decide
  · intro h
    have := h.length_eq
    revert this
    decide

end Read

end Oreneta.Merge

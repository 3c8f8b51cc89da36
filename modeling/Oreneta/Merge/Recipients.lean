import Oreneta.Lib.Lines
import Oreneta.Lib.Log

/-!
# The recipients of a mailing

`merge/mod.rs`, `parse_recipients`: a list of addresses, or a table whose first line names its columns.

* `splitCsv`, `oneAddress`, `parseRecipients` — as in the source; `str::to_lowercase` is a parameter.
* `Cell`, `tableText` — a table as it is written, every cell wrapped in quotes or bare.
* `splitCsv_lineOf` — a line is split into its cells.
* `numbered_tableText`, `headerOf_eq` — what is read of the lines of a table: each is trimmed before it is split, and
  a tab is white space.
-/

namespace Oreneta.Merge

open Text List

/-- One recipient row. -/
structure Row where
  line : Nat
  email : Str
  name : Str
  /-- Of a column named twice the later counts. -/
  columns : List (Str × Str)
  deriving DecidableEq, Repr

def Row.column (r : Row) (name : Str) : Option Str := Log.last r.columns name

def splitCsvFrom (separator : Char) : Bool → Str → Str → List Str
  | _, field, [] => [trim field]
  | true, field, '"' :: '"' :: rest => splitCsvFrom separator true (field ++ ['"']) rest
  | quoted, field, c :: rest =>
    if c = '"' then splitCsvFrom separator (!quoted) field rest
    else if c = separator ∧ quoted = false then trim field :: splitCsvFrom separator quoted [] rest
    else splitCsvFrom separator quoted (field ++ [c]) rest

def splitCsv (line : Str) (separator : Char) : List Str := splitCsvFrom separator false [] line

/-- Reads "Name <address>" or a bare address. -/
def oneAddress (text : Str) : Str × Str :=
  let text := trim text
  match rsplitOnce '<' text with
  | some (before, after) =>
    match rsplitOnce '>' after with
    | some (address, _) => (trim (trimBy (fun c => c = '"') (trim before)), trim address)
    | none => ([], text)
  | none => ([], text)

def separators : List Char := ['\t', ';', ',']

/-- `header.zip(cells.chain(repeat("")))` -/
def zipCells : List Str → List Str → List (Str × Str)
  | [], _ => []
  | name :: header, [] => (name, []) :: zipCells header []
  | name :: header, cell :: cells => (name, cell) :: zipCells header cells

def tableRow (header : List Str) (separator : Char) (line : Nat × Str) : Row :=
  let columns := zipCells header (splitCsv line.2 separator)
  { line := line.1
    email := (Log.last columns "email").getD []
    name := (Log.last columns "name").getD []
    columns := columns }

def listRow (line : Nat × Str) : Row :=
  let read := oneAddress line.2
  ⟨line.1, read.2, read.1, []⟩

def numbered (text : Str) : List (Nat × Str) :=
  ((lines text).zipIdx.map (fun l => (l.2 + 1, trim l.1))).filter (fun l => !l.2.isEmpty)

/-- The names of the columns, if the first line names them. -/
def headerOf (lower : Str → Str) (first : Str) : Option (List Str × Char) := do
  let separator ← separators.find? (fun s => first.contains s)
  let header := (splitCsv first separator).map lower
  if header.contains "email" then some (header, separator) else none

def parseRecipients (lower : Str → Str) (text : Str) : List Row :=
  match numbered text with
  | [] => []
  | first :: rest =>
    match headerOf lower first.2 with
    | some (header, separator) => rest.map (tableRow header separator)
    | none => (first :: rest).map listRow

/-! ## A table as it is written -/

structure Cell where
  text : Str
  /-- Whether it is wrapped in quotes. -/
  wrapped : Bool
  deriving DecidableEq, Repr

def Cell.written (c : Cell) : Str :=
  if c.wrapped then '"' :: (replace '"' ['"', '"'] c.text ++ ['"']) else c.text

/-- Nothing is written of it. -/
def Cell.isBlank (c : Cell) : Bool := !c.wrapped && c.text.isEmpty

def lineOf (separator : Char) (cells : List Cell) : Str := join [separator] (cells.map Cell.written)

def tableText (separator : Char) (header : List Str) (rows : List (List Cell)) : Str :=
  join ['\n'] (join [separator] header :: rows.map (lineOf separator))

/-- The cell in a column, empty where the row is too short. -/
def cellAt (row : List Cell) (j : Nat) : Str := (row[j]?.map Cell.text).getD []

structure CellOk (separator : Char) (c : Cell) : Prop where
  trimmed : trim c.text = c.text
  oneLine : '\n' ∉ c.text
  bare : c.wrapped = false → '"' ∉ c.text ∧ separator ∉ c.text

structure RowOk (separator : Char) (width : Nat) (row : List Cell) : Prop where
  short : row.length ≤ width
  some_ : ∃ c ∈ row, c.text ≠ []
  cells : ∀ c ∈ row, CellOk separator c

structure NameOk (lower : Str → Str) (name : Str) : Prop where
  trimmed : trim name = name
  lower : lower name = name
  oneLine : '\n' ∉ name
  bare : '"' ∉ name ∧ ∀ s ∈ separators, s ∉ name

structure TableOk (lower : Str → Str) (separator : Char) (header : List Str) (rows : List (List Cell)) : Prop where
  known : separator ∈ separators
  distinct : header.Nodup
  email : "email".toList ∈ header
  names : ∀ name ∈ header, NameOk lower name
  rows : ∀ row ∈ rows, RowOk separator header.length row

/-! ## Splitting a line -/

section Split

variable {sep : Char}

theorem splitCsvFrom_bare {text : Str} (hq : '"' ∉ text) (hs : sep ∉ text) : ∀ (field rest : Str),
    splitCsvFrom sep false field (text ++ rest) = splitCsvFrom sep false (field ++ text) rest := by
  induction text with
  | nil => intro field rest; rw [nil_append, append_nil]
  | cons c text ih =>
    intro field rest
    have hc : c ≠ '"' := fun h => hq (h ▸ mem_cons_self)
    have hcs : c ≠ sep := fun h => hs (h ▸ mem_cons_self)
    rw [cons_append, splitCsvFrom, if_neg hc, if_neg fun h => hcs h.1,
      ih (fun h => hq (mem_cons_of_mem c h)) fun h => hs (mem_cons_of_mem c h)]
    · simp
    · intro _ hf
      cases hf

theorem splitCsvFrom_quoted : ∀ (text field rest : Str), (∀ c ∈ rest.head?, c ≠ '"') →
    splitCsvFrom sep true field (replace '"' ['"', '"'] text ++ '"' :: rest) = splitCsvFrom sep false (field ++ text) rest
  | [], field, rest, hr => by
    cases rest with
    | nil => simp [Text.replace, splitCsvFrom]
    | cons c rest =>
      have hc : c ≠ '"' := hr c rfl
      show splitCsvFrom sep true field ('"' :: c :: rest) = _
      rw [splitCsvFrom, if_pos rfl]
      · simp
      · intro _ _ h
        exact fun h' => hc (by injection h')
  | c :: text, field, rest, hr => by
    have ih := splitCsvFrom_quoted text (field ++ [c]) rest hr
    by_cases hc : c = '"'
    · subst hc
      show splitCsvFrom sep true field ('"' :: '"' :: (replace '"' ['"', '"'] text ++ '"' :: rest)) = _
      rw [splitCsvFrom, ih, append_assoc, singleton_append]
    · have hrep : replace '"' ['"', '"'] (c :: text) = c :: replace '"' ['"', '"'] text := by
        simp [Text.replace, hc]
      rw [hrep, cons_append, splitCsvFrom, if_neg hc, if_neg (fun h => by cases h.2), ih, append_assoc, singleton_append]
      exact fun _ _ h _ => hc h

theorem splitCsvFrom_written {c : Cell} (h : CellOk sep c) (rest : Str) (hr : ∀ d ∈ rest.head?, d ≠ '"') :
    splitCsvFrom sep false [] (c.written ++ rest) = splitCsvFrom sep false c.text rest := by
  unfold Cell.written
  cases hw : c.wrapped with
  | false =>
    obtain ⟨hq, hs⟩ := h.bare hw
    simpa using splitCsvFrom_bare hq hs [] rest
  | true =>
    have hquoted : splitCsvFrom sep true [] _ = _ := splitCsvFrom_quoted c.text [] rest hr
    simp only [if_true, cons_append, append_assoc, nil_append] at hquoted ⊢
    rw [splitCsvFrom, if_pos rfl]
    · exact hquoted
    · intro _ hf
      cases hf

/-- **A line is split into its cells.** -/
theorem splitCsv_lineOf (hsep : sep ≠ '"') : ∀ {cells : List Cell}, cells ≠ [] → (∀ c ∈ cells, CellOk sep c) →
    splitCsv (lineOf sep cells) sep = cells.map Cell.text
  | [], hne, _ => absurd rfl hne
  | [c], _, h => by
    have hc := h c (mem_singleton_self c)
    have hw := splitCsvFrom_written hc [] fun _ hd => by cases hd
    rw [append_nil] at hw
    unfold splitCsv lineOf
    rw [map_singleton, join, hw, splitCsvFrom, hc.trimmed, map_singleton]
  | c :: d :: rest, _, h => by
    obtain ⟨hc, hrest⟩ := forall_mem_cons.mp h
    have ih := splitCsv_lineOf hsep (cons_ne_nil d rest) hrest
    unfold splitCsv lineOf at ih ⊢
    rw [map_cons, map_cons, join_cons_cons, singleton_append,
      splitCsvFrom_written hc _ fun x hx => by cases hx; exact hsep, splitCsvFrom, if_neg hsep,
      if_pos ⟨rfl, rfl⟩, hc.trimmed]
    · rw [map_cons] at ih
      rw [ih]
      rfl
    · intro _ hf
      cases hf

end Split

/-! ## Lines are trimmed -/

section Trimmed

variable {sep : Char} {lower : Str → Str}

theorem trimmed_flush {s : Str} (h : trim s = s) : Flush s ∧ Flush s.reverse := by
  have ht : Trimmed isWhitespace s := by
    rw [← h, trim_eq_trimBy]
    exact trimBy_trimmed _ s
  refine ⟨ht.1, fun c hc => ht.2 c ?_⟩
  rw [head?_reverse] at hc
  exact hc

theorem written_flush {c : Cell} (h : CellOk sep c) : Flush c.written ∧ Flush c.written.reverse := by
  unfold Cell.written
  cases c.wrapped with
  | false => exact trimmed_flush h.trimmed
  | true =>
    constructor
    · intro d hd
      cases hd
      decide
    · intro d hd
      rw [if_pos rfl, ← cons_append, reverse_append] at hd
      cases hd
      decide

theorem written_isEmpty (c : Cell) : c.written.isEmpty = c.isBlank := by
  unfold Cell.written Cell.isBlank
  cases c.wrapped <;> simp

/-- What is left of a row whose line is trimmed. -/
def shown (sep : Char) (row : List Cell) : List Cell :=
  if sep = '\t' then (row.dropWhile Cell.isBlank).rdropWhile Cell.isBlank else row

def shownNames (sep : Char) (header : List Str) : List Str :=
  if sep = '\t' then (header.dropWhile List.isEmpty).rdropWhile List.isEmpty else header

theorem isWhitespace_separator (h : sep ∈ separators) (ht : sep ≠ '\t') : isWhitespace sep = false := by
  rcases mem_cons.mp h with rfl | h
  · exact absurd rfl ht
  · rcases mem_cons.mp h with rfl | h
    · decide
    · rw [mem_singleton.mp h]
      decide

theorem trim_eq_self {s : Str} (h : Flush s) (h' : Flush s.reverse) : trim s = s := by
  rw [trim_eq_trimBy]
  apply trimBy_eq_self
  refine ⟨h, fun c hc => h' c ?_⟩
  rw [head?_reverse]
  exact hc

theorem flush_join (hs : isWhitespace sep = false) {pieces : List Str} (h : ∀ p ∈ pieces, Flush p) :
    Flush (join [sep] pieces) := by
  intro c hc
  rcases head?_join hc with rfl | ⟨p, hp, hc⟩
  · exact hs
  · exact h p hp c hc

theorem trim_join_of_not_white (hs : isWhitespace sep = false) {pieces : List Str} (h : ∀ p ∈ pieces, Flush p)
    (h' : ∀ p ∈ pieces, Flush p.reverse) : trim (join [sep] pieces) = join [sep] pieces := by
  apply trim_eq_self (flush_join hs h)
  rw [reverse_join]
  apply flush_join hs
  intro p hp
  obtain ⟨q, hq, rfl⟩ := mem_map.mp hp
  exact h' q (mem_reverse.mp hq)

theorem map_dropWhile_written (row : List Cell) :
    (row.map Cell.written).dropWhile List.isEmpty = (row.dropWhile Cell.isBlank).map Cell.written := by
  rw [dropWhile_map]
  congr 2
  funext c
  exact written_isEmpty c

theorem map_rdropWhile_written (row : List Cell) :
    (row.map Cell.written).rdropWhile List.isEmpty = (row.rdropWhile Cell.isBlank).map Cell.written := by
  unfold List.rdropWhile
  rw [← map_reverse, map_dropWhile_written, map_reverse]

theorem trim_lineOf (hsep : sep ∈ separators) {row : List Cell} (h : ∀ c ∈ row, CellOk sep c) :
    trim (lineOf sep row) = lineOf sep (shown sep row) := by
  have hflush : ∀ p ∈ row.map Cell.written, Flush p ∧ Flush p.reverse := by
    intro p hp
    obtain ⟨c, hc, rfl⟩ := mem_map.mp hp
    exact written_flush (h c hc)
  unfold lineOf shown
  by_cases ht : sep = '\t'
  · rw [if_pos ht, trim_join (by rw [ht]; decide) (fun p hp => (hflush p hp).1) fun p hp => (hflush p hp).2,
      map_dropWhile_written, map_rdropWhile_written]
  · rw [if_neg ht, trim_join_of_not_white (isWhitespace_separator hsep ht) (fun p hp => (hflush p hp).1)
      (fun p hp => (hflush p hp).2)]

theorem trim_names (hsep : sep ∈ separators) {header : List Str} (h : ∀ name ∈ header, NameOk lower name) :
    trim (join [sep] header) = join [sep] (shownNames sep header) := by
  have hflush : ∀ p ∈ header, Flush p ∧ Flush p.reverse := fun p hp => trimmed_flush (h p hp).trimmed
  unfold shownNames
  by_cases ht : sep = '\t'
  · rw [if_pos ht, trim_join (by rw [ht]; decide) (fun p hp => (hflush p hp).1) fun p hp => (hflush p hp).2]
  · rw [if_neg ht, trim_join_of_not_white (isWhitespace_separator hsep ht) (fun p hp => (hflush p hp).1)
      (fun p hp => (hflush p hp).2)]

end Trimmed

/-! ## The lines of a table -/

section Lines

variable {sep : Char} {lower : Str → Str} {header : List Str} {rows : List (List Cell)}

/-- A header's line is that of its names as bare cells. -/
def bareCells (names : List Str) : List Cell := names.map (fun name => ⟨name, false⟩)

theorem lineOf_bareCells (names : List Str) : lineOf sep (bareCells names) = join [sep] names := by
  unfold lineOf bareCells
  rw [map_map]
  congr 1
  exact map_id names

theorem NameOk.cell {name : Str} (hsep : sep ∈ separators) (h : NameOk lower name) : CellOk sep ⟨name, false⟩ :=
  ⟨h.trimmed, h.oneLine, fun _ => ⟨h.bare.1, h.bare.2 sep hsep⟩⟩

theorem bareCells_ok (hsep : sep ∈ separators) {names : List Str} (h : ∀ name ∈ names, NameOk lower name) :
    ∀ c ∈ bareCells names, CellOk sep c := by
  intro c hc
  obtain ⟨name, hname, rfl⟩ := mem_map.mp hc
  exact (h name hname).cell hsep

theorem separator_ne (hsep : sep ∈ separators) : sep ≠ '\n' ∧ sep ≠ '\r' ∧ sep ≠ '"' := by
  unfold separators at hsep
  simp only [mem_cons, not_mem_nil, or_false] at hsep
  rcases hsep with rfl | rfl | rfl <;> decide

theorem oneLine_lineOf (hsep : sep ∈ separators) {row : List Cell} (h : ∀ c ∈ row, CellOk sep c) : '\n' ∉ lineOf sep row := by
  intro hn
  rcases mem_join hn with hn | ⟨p, hp, hn⟩
  · exact (separator_ne hsep).1 (mem_singleton.mp hn).symm
  · obtain ⟨c, hc, rfl⟩ := mem_map.mp hp
    have hline := (h c hc).oneLine
    unfold Cell.written Text.replace at hn
    split at hn
    · rcases mem_cons.mp hn with hn | hn
      · revert hn
        decide
      · rcases mem_append.mp hn with hn | hn
        · obtain ⟨d, hd, hn⟩ := mem_flatMap.mp hn
          split at hn
          · revert hn
            decide
          · rw [mem_singleton.mp hn] at hline
            exact hline hd
        · revert hn
          decide
    · exact hline hn

theorem noReturn_lineOf (hsep : sep ∈ separators) {row : List Cell} (h : ∀ c ∈ row, CellOk sep c) :
    (lineOf sep row).getLast? ≠ some '\r' := by
  intro hr
  rcases getLast?_join hr with hr | ⟨p, hp, hr⟩
  · exact (separator_ne hsep).2.1 hr.symm
  · obtain ⟨c, hc, rfl⟩ := mem_map.mp hp
    rw [← head?_reverse] at hr
    have := (written_flush (h c hc)).2 '\r' hr
    revert this
    decide

/-- A line with a cell that is not empty is not blank. -/
theorem trim_lineOf_ne_nil {row : List Cell} (h : ∀ c ∈ row, CellOk sep c) (hsome : ∃ c ∈ row, c.text ≠ []) :
    trim (lineOf sep row) ≠ [] := by
  obtain ⟨c, hc, hne⟩ := hsome
  have hw : c.written ≠ [] := by
    unfold Cell.written
    split
    · exact cons_ne_nil _ _
    · exact hne
  cases hwr : c.written with
  | nil => exact absurd hwr hw
  | cons d rest =>
    have hd : isWhitespace d = false := (written_flush (h c hc)).1 d (by rw [hwr]; rfl)
    have hmem : d ∈ lineOf sep row := by
      refine mem_join_of_mem (mem_map.mpr ⟨c, hc, rfl⟩) ?_
      rw [hwr]
      exact mem_cons_self
    exact trim_ne_nil hmem hd

theorem email_ne_nil : "email".toList ≠ [] := by decide

/-- The lines of a table as rows of cells, the header's first. -/
def tableRows (header : List Str) (rows : List (List Cell)) : List (List Cell) := bareCells header :: rows

theorem tableRows_ok (h : TableOk lower sep header rows) : ∀ row ∈ tableRows header rows,
    (∀ c ∈ row, CellOk sep c) ∧ ∃ c ∈ row, c.text ≠ [] := by
  intro row hrow
  rcases mem_cons.mp hrow with rfl | hrow
  · refine ⟨bareCells_ok h.known h.names, ⟨"email", false⟩, ?_, email_ne_nil⟩
    exact mem_map.mpr ⟨_, h.email, rfl⟩
  · exact ⟨(h.rows row hrow).cells, (h.rows row hrow).some_⟩

theorem numbered_tableText (h : TableOk lower sep header rows) : numbered (tableText sep header rows) =
    ((tableRows header rows).map (lineOf sep)).zipIdx.map (fun l => (l.2 + 1, trim l.1)) := by
  have hok := tableRows_ok h
  have htext : tableText sep header rows = join ['\n'] ((tableRows header rows).map (lineOf sep)) := by
    unfold tableText tableRows
    rw [map_cons, lineOf_bareCells]
  have hall : ∀ l ∈ (tableRows header rows).map (lineOf sep), '\n' ∉ l ∧ l.getLast? ≠ some '\r' ∧ trim l ≠ [] := by
    intro l hl
    obtain ⟨row, hrow, rfl⟩ := mem_map.mp hl
    obtain ⟨hcells, hsome⟩ := hok row hrow
    exact ⟨oneLine_lineOf h.known hcells, noReturn_lineOf h.known hcells, trim_lineOf_ne_nil hcells hsome⟩
  unfold numbered
  rw [htext, lines_join (by simp [tableRows]) (fun l hl => (hall l hl).1) fun l hl => (hall l hl).2.1]
  · rw [filter_eq_self]
    intro l hl
    obtain ⟨x, hx, rfl⟩ := mem_map.mp hl
    have hmem : x.1 ∈ (tableRows header rows).map (lineOf sep) := fst_mem_of_mem_zipIdx hx
    simpa using (hall x.1 hmem).2.2
  · intro hlast
    exact (hall [] (mem_of_getLast? hlast)).2.2 rfl

/-! ## The header -/

theorem mem_shownNames {name : Str} (h : name ∈ shownNames sep header) : name ∈ header := by
  unfold shownNames at h
  split at h
  · exact (dropWhile_sublist _).subset ((List.rdropWhile_prefix _ _).sublist.subset h)
  · exact h

theorem mem_rdropWhile_of_not {α : Type} {p : α → Bool} {l : List α} {a : α} (ha : a ∈ l) (hp : p a = false) :
    a ∈ l.rdropWhile p := by
  obtain ⟨after, hl, hall⟩ := rdropWhile_split p l
  rw [hl] at ha
  rcases mem_append.mp ha with ha | ha
  · exact ha
  · rw [hall a ha] at hp
    cases hp

theorem mem_dropWhile_of_not {α : Type} {p : α → Bool} {l : List α} {a : α} (ha : a ∈ l) (hp : p a = false) :
    a ∈ l.dropWhile p := by
  rw [← takeWhile_append_dropWhile (p := p) (l := l)] at ha
  rcases mem_append.mp ha with ha | ha
  · rw [mem_takeWhile_imp ha] at hp
    cases hp
  · exact ha

theorem mem_shownNames_of_ne {name : Str} (h : name ∈ header) (hne : name ≠ []) : name ∈ shownNames sep header := by
  have hp : name.isEmpty = false := by simpa using hne
  unfold shownNames
  split
  · exact mem_rdropWhile_of_not (mem_dropWhile_of_not h hp) hp
  · exact h

/-- The first line names the columns if at least two names are left of it. -/
theorem headerOf_eq (h : TableOk lower sep header rows) : headerOf lower (join [sep] (shownNames sep header)) =
    if 2 ≤ (shownNames sep header).length then some (shownNames sep header, sep) else none := by
  have hnames : ∀ name ∈ shownNames sep header, NameOk lower name := fun name hn => h.names name (mem_shownNames hn)
  have hemail : "email".toList ∈ shownNames sep header := mem_shownNames_of_ne h.email email_ne_nil
  generalize shownNames sep header = names at hnames hemail
  -- no other separator is in the line
  have hother : ∀ t ∈ separators, t ∈ join [sep] names → t = sep := by
    intro t ht hmem
    rcases mem_join hmem with hmem | ⟨p, hp, hmem⟩
    · exact mem_singleton.mp hmem
    · exact absurd hmem ((hnames p hp).bare.2 t ht)
  unfold headerOf
  match names, hnames, hemail, hother with
  | [], _, hemail, _ => cases hemail
  | [name], hnames, _, _ =>
    have hfind : separators.find? (fun s => (join [sep] [name]).contains s) = none := by
      rw [find?_eq_none]
      intro t ht hc
      exact (hnames name (mem_singleton_self _)).bare.2 t ht (contains_iff_mem.mp hc)
    rw [hfind]
    rfl
  | a :: b :: rest, hnames, hemail, hother =>
    have hfind : separators.find? (fun s => (join [sep] (a :: b :: rest)).contains s) = some sep := by
      cases hf : separators.find? (fun s => (join [sep] (a :: b :: rest)).contains s) with
      | none =>
        exact absurd (contains_iff_mem.mpr mem_sep_join) (find?_eq_none.mp hf sep h.known)
      | some t =>
        have hc : (join [sep] (a :: b :: rest)).contains t = true := find?_some hf
        rw [hother t (mem_of_find?_eq_some hf) (contains_iff_mem.mp hc)]
    have hsplit : splitCsv (join [sep] (a :: b :: rest)) sep = a :: b :: rest := by
      rw [← lineOf_bareCells, splitCsv_lineOf (separator_ne h.known).2.2 (by simp [bareCells]) (bareCells_ok h.known hnames)]
      unfold bareCells
      rw [map_map]
      exact map_id _
    have hlower : (a :: b :: rest).map lower = a :: b :: rest := by
      have : ∀ name ∈ a :: b :: rest, lower name = id name := fun name hn => (hnames name hn).lower
      rw [map_congr_left this, map_id]
    rw [hfind]
    show (if ((splitCsv (join [sep] (a :: b :: rest)) sep).map lower).contains "email" then _ else _) = _
    rw [hsplit, hlower, if_pos (contains_iff_mem.mpr hemail), if_pos (by simp)]

end Lines

end Oreneta.Merge

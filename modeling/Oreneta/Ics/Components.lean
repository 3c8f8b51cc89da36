import Oreneta.Ics.Lines

/-!
# iCalendar: the events of an object

* `components` — where each VEVENT of an object starts and ends, as `ics::components` finds them by one
  pass over the lines with a depth counter.
* `Piece`, `pieces` — the object as a list of other lines and of events, each with its body.
* `components_pieces` — `components` finds the events of `pieces`, and nothing else.
* `pieces_flatten` — events whose bodies close (`closes`) and lines that open none are read back as such,
  so a body can be replaced by another that closes (`Object.replace`).
-/

namespace Oreneta.Ics

open List Option Bool

def BEGIN_VEVENT : Str := "BEGIN:VEVENT"

def END_VEVENT : Str := "END:VEVENT"

def BEGIN_VALARM : Str := "BEGIN:VALARM"

def END_VALARM : Str := "END:VALARM"

/-- The line opens a component (`upper.starts_with("BEGIN:")`). -/
def begins (line : Str) : Bool := "BEGIN:".toList.isPrefixOf (upper line)

/-- The line closes a component. -/
def ends (line : Str) : Bool := "END:".toList.isPrefixOf (upper line)

/-- Where a VEVENT starts and ends, with its RECURRENCE-ID line when it has one. -/
structure Component where
  begin_ : Nat
  end_ : Nat
  recurrenceId : Option Str
  uid : Str
  deriving DecidableEq, Repr

/-- A line directly in the event. -/
def Component.note (c : Component) (line : Str) : Component :=
  if nameOf line = "RECURRENCE-ID" then { c with recurrenceId := some line }
  else if nameOf line = "UID" then { c with uid := afterColon line }
  else c

structure Scan where
  found : List Component
  depth : Nat
  current : Option Component
  deriving DecidableEq, Repr

def damaged : Str := "the calendar object is damaged"

def scanLine (s : Scan) (index : Nat) (line : Str) : Except Str Scan :=
  if upper line = BEGIN_VEVENT then .ok { s with current := some ⟨index, index, none, []⟩, depth := 0 }
  else if begins line && s.current.isSome then .ok { s with depth := s.depth + 1 }
  else if ends line && s.current.isSome && 0 < s.depth then .ok { s with depth := s.depth - 1 }
  else if upper line = END_VEVENT then
    match s.current with
    | none => .error damaged
    | some c => .ok { s with found := s.found ++ [{ c with end_ := index }], current := none }
  else
    match s.current with
    | none => .ok s
    | some c => .ok (if s.depth = 0 then { s with current := some (c.note line) } else s)

def scanLines : List Str → Nat → Scan → Except Str Scan
  | [], _, s => .ok s
  | line :: lines, index, s =>
    match scanLine s index line with
    | .ok s => scanLines lines (index + 1) s
    | .error e => .error e

def components (lines : List Str) : Except Str (List Component) :=
  match scanLines lines 0 ⟨[], 0, none⟩ with
  | .ok s => if s.found.isEmpty then .error "the calendar object holds no event" else .ok s.found
  | .error e => .error e

/-- The main event: the first without a RECURRENCE-ID. -/
def master (found : List Component) : Except Str Component :=
  match found.find? (fun c => c.recurrenceId.isNone) with
  | some c => .ok c
  | none => .error "the series has no main event"

/-! ## The object in pieces -/

/-- A line outside of the events, or an event: its first line, what stands in it and its last line. -/
inductive Piece where
  | outer (line : Str)
  | event (open_ : Str) (body : List Str) (close : Str)
  deriving DecidableEq, Repr

def Piece.lines : Piece → List Str
  | .outer line => [line]
  | .event open_ body close => open_ :: (body ++ [close])

def flatten (ps : List Piece) : List Str := ps.flatMap Piece.lines

/-- What stands in an event up to the line that closes it, that line and the rest; none if another
event begins before. -/
def takeBody : Nat → List Str → Option (List Str × Str × List Str)
  | _, [] => none
  | depth, line :: lines =>
    if upper line = BEGIN_VEVENT then none
    else if begins line then (takeBody (depth + 1) lines).map (fun p => (line :: p.1, p.2))
    else if ends line && 0 < depth then (takeBody (depth - 1) lines).map (fun p => (line :: p.1, p.2))
    else if upper line = END_VEVENT then some ([], line, lines)
    else (takeBody depth lines).map (fun p => (line :: p.1, p.2))

def piecesIn : Nat → List Str → List Piece
  | 0, _ => []
  | _ + 1, [] => []
  | fuel + 1, line :: lines =>
    if upper line = BEGIN_VEVENT then
      match takeBody 0 lines with
      | some (body, close, rest) => .event line body close :: piecesIn fuel rest
      | none => .outer line :: piecesIn fuel lines
    else .outer line :: piecesIn fuel lines

/-- The object as other lines and events. -/
def pieces (lines : List Str) : List Piece := piecesIn lines.length lines

/-! ## Bodies -/

/-- How deep in nested components a body goes on after a line; none if the line ends the event or
begins another. -/
def descend (depth : Nat) (line : Str) : Option Nat :=
  if upper line = BEGIN_VEVENT then none
  else if begins line then some (depth + 1)
  else if ends line && 0 < depth then some (depth - 1)
  else if upper line = END_VEVENT then none
  else some depth

/-- After this body the event may be closed. -/
def closes : Nat → List Str → Bool
  | depth, [] => depth = 0
  | depth, line :: lines =>
    match descend depth line with
    | some depth => closes depth lines
    | none => false

/-- The lines of a body that stand directly in the event, in no nested component. -/
def ownLines : Nat → List Str → List Str
  | _, [] => []
  | depth, line :: lines =>
    if begins line then ownLines (depth + 1) lines
    else if ends line && 0 < depth then ownLines (depth - 1) lines
    else if depth = 0 then line :: ownLines depth lines
    else ownLines depth lines

/-! ## What the lines of an event do -/

variable {line : Str}

theorem begins_of_eq (h : upper line = BEGIN_VEVENT) : begins line = true := by
  unfold begins
  rw [h]
  rfl

theorem ends_of_eq (h : upper line = END_VEVENT) : ends line = true := by
  unfold ends
  rw [h]
  rfl

theorem not_begins_of_ends (h : ends line = true) : begins line = false := by
  unfold begins ends at *
  cases hu : upper line with
  | nil => rfl
  | cons c cs =>
    rw [hu] at h
    have he : 'E' = c := by
      have := (and_eq_true _ _ ▸ h : ('E' == c) = true ∧ _).1
      simpa using this
    rw [← he]
    rfl

theorem not_begin_of_end (h : upper line = END_VEVENT) : upper line ≠ BEGIN_VEVENT := by
  intro he
  rw [h] at he
  exact absurd he (by decide)

theorem nameOf_of_begins (h : begins line = true) : nameOf line = "BEGIN" := by
  obtain ⟨rest, hrest⟩ := List.isPrefixOf_iff_prefix.mp h
  rw [nameOf_eq, ← hrest]
  rfl

theorem nameOf_of_ends (h : ends line = true) : nameOf line = "END" := by
  obtain ⟨rest, hrest⟩ := List.isPrefixOf_iff_prefix.mp h
  rw [nameOf_eq, ← hrest]
  rfl

variable {depth : Nat}

/-- A line under another name neither opens nor closes a component. -/
theorem descend_of_name (hb : nameOf line ≠ "BEGIN") (he : nameOf line ≠ "END") : descend depth line = some depth := by
  have hbegins : begins line = false := by
    cases h : begins line with
    | false => rfl
    | true => exact absurd (nameOf_of_begins h) hb
  have hends : ends line = false := by
    cases h : ends line with
    | false => rfl
    | true => exact absurd (nameOf_of_ends h) he
  have hopen : upper line ≠ BEGIN_VEVENT := fun h => by
    rw [begins_of_eq h] at hbegins
    cases hbegins
  have hclose : upper line ≠ END_VEVENT := fun h => by
    rw [ends_of_eq h] at hends
    cases hends
  unfold descend
  rw [if_neg hopen, if_neg (by simp [hbegins]), if_neg (by simp [hends]), if_neg hclose]

/-! ## Finding the events -/

/-- What `components` records of an event that begins at a line. -/
def eventAt (index : Nat) (body : List Str) : Component :=
  { (ownLines 0 body).foldl Component.note ⟨index, index, none, []⟩ with end_ := index + body.length + 1 }

/-- The events, with the places of their lines. -/
def located : Nat → List Piece → List Component
  | _, [] => []
  | index, .outer _ :: ps => located (index + 1) ps
  | index, .event _ body _ :: ps => eventAt index body :: located (index + body.length + 2) ps

variable {lines : List Str}

theorem ownLines_cons {depth' : Nat} (h : descend depth line = some depth') :
    ownLines depth (line :: lines) = (if depth = 0 ∧ depth' = 0 then [line] else []) ++ ownLines depth' lines := by
  unfold descend at h
  rw [ownLines]
  split at h
  · cases h
  · split at h
    · rename_i hb
      cases h
      rw [if_pos hb, if_neg (by omega)]
      rfl
    · rename_i hb
      rw [if_neg hb]
      split at h
      · rename_i he
        cases h
        have hpos : 0 < depth := of_decide_eq_true ((and_eq_true _ _).mp he).2
        rw [if_pos he, if_neg (by omega)]
        rfl
      · rename_i he
        rw [if_neg he]
        split at h
        · cases h
        · cases h
          by_cases hd : depth = 0 <;> simp [hd]

theorem scanLine_inside {found : List Component} {depth' index : Nat} {c : Component}
    (h : descend depth line = some depth') : scanLine ⟨found, depth, some c⟩ index line =
      .ok ⟨found, depth', some (if depth = 0 ∧ depth' = 0 then c.note line else c)⟩ := by
  unfold descend at h
  unfold scanLine
  split at h
  · cases h
  · rename_i hopen
    rw [if_neg hopen]
    split at h
    · rename_i hb
      cases h
      rw [if_pos (by simp [hb]), if_neg (by omega)]
    · rename_i hb
      rw [if_neg (by simp [hb])]
      split at h
      · rename_i he
        cases h
        have hpos : 0 < depth := of_decide_eq_true ((and_eq_true _ _).mp he).2
        rw [if_pos (by simpa using he), if_neg (by omega)]
      · rename_i he
        rw [if_neg (by simpa using he)]
        split at h
        · cases h
        · rename_i hclose
          cases h
          rw [if_neg hclose]
          by_cases hd : depth = 0 <;> simp [hd]

/-- An event is found when its last line is reached. -/
theorem scanLines_event {close : Str} (hclose : upper close = END_VEVENT) :
    ∀ (body rest : List Str) (found : List Component) (depth index : Nat) (c : Component), closes depth body = true →
        scanLines (body ++ close :: rest) index ⟨found, depth, some c⟩ =
          scanLines rest (index + body.length + 1)
            ⟨found ++ [{ (ownLines depth body).foldl Component.note c with end_ := index + body.length }], 0, none⟩
  | [], rest, found, depth, index, c, h => by
    have hd : depth = 0 := by simpa [closes] using h
    have hline : scanLine ⟨found, depth, some c⟩ index close =
        .ok ⟨found ++ [{ c with end_ := index }], depth, none⟩ := by
      unfold scanLine
      rw [if_neg (not_begin_of_end hclose), if_neg (by simp [not_begins_of_ends (ends_of_eq hclose)]),
        if_neg (by simp [hd]), if_pos hclose]
    rw [nil_append, scanLines, hline, hd]
    rfl
  | line :: body, rest, found, depth, index, c, h => by
    unfold closes at h
    cases hdesc : descend depth line with
    | none =>
      rw [hdesc] at h
      cases h
    | some depth' =>
      rw [hdesc] at h
      have ih := scanLines_event hclose body rest found depth' (index + 1)
        (if depth = 0 ∧ depth' = 0 then c.note line else c) h
      rw [cons_append, scanLines, scanLine_inside hdesc]
      dsimp only
      rw [ih, ownLines_cons hdesc, foldl_append, length_cons]
      have hidx : index + 1 + body.length = index + (body.length + 1) := by omega
      rw [hidx]
      split <;> rfl

theorem takeBody_cons_none {depth' : Nat} (h : descend depth line = some depth') :
    takeBody depth (line :: lines) = (takeBody depth' lines).map (fun p => (line :: p.1, p.2)) := by
  unfold descend at h
  rw [takeBody]
  split at h
  · cases h
  · rename_i hopen
    rw [if_neg hopen]
    split at h
    · rename_i hb
      cases h
      rw [if_pos hb]
    · rename_i hb
      rw [if_neg hb]
      split at h
      · rename_i he
        cases h
        rw [if_pos he]
      · rename_i he
        rw [if_neg he]
        split at h
        · cases h
        · rename_i hclose
          cases h
          rw [if_neg hclose]

theorem descend_none (h : descend depth line = none) : upper line = BEGIN_VEVENT ∨ (depth = 0 ∧ upper line = END_VEVENT) := by
  unfold descend at h
  split at h
  · rename_i hopen
    exact .inl hopen
  · split at h
    · cases h
    · split at h
      · cases h
      · rename_i he
        split at h
        · rename_i hclose
          have hends := ends_of_eq hclose
          rw [hends] at he
          exact .inr ⟨by simpa using he, hclose⟩
        · cases h

/-- An event is taken whole: its body closes, and the line after it is its last. -/
theorem takeBody_some : ∀ {lines body rest : List Str} {depth : Nat} {close : Str},
    takeBody depth lines = some (body, close, rest) ↔
      lines = body ++ close :: rest ∧ closes depth body = true ∧ upper close = END_VEVENT
  | [], body, rest, depth, close => by simp [takeBody]
  | line :: lines, body, rest, depth, close => by
    cases hdesc : descend depth line with
    | some depth' =>
      rw [takeBody_cons_none hdesc, map_eq_some_iff]
      constructor
      · rintro ⟨⟨body', close', rest'⟩, htake, he⟩
        obtain ⟨rfl, hcloses, hclose⟩ := takeBody_some.mp htake
        simp only [Prod.mk.injEq] at he
        obtain ⟨rfl, rfl, rfl⟩ := he
        refine ⟨rfl, ?_, hclose⟩
        unfold closes
        rw [hdesc]
        exact hcloses
      · rintro ⟨hlines, hcloses, hclose⟩
        cases body with
        | nil =>
          -- the last line of an event is no line of its body
          rw [nil_append, List.cons.injEq] at hlines
          obtain ⟨rfl, rfl⟩ := hlines
          have hd : depth = 0 := by simpa [closes] using hcloses
          unfold descend at hdesc
          rw [if_neg (not_begin_of_end hclose), if_neg (by simp [not_begins_of_ends (ends_of_eq hclose)]),
            if_neg (by simp [hd]), if_pos hclose] at hdesc
          cases hdesc
        | cons b body =>
          rw [cons_append, List.cons.injEq] at hlines
          obtain ⟨rfl, rfl⟩ := hlines
          unfold closes at hcloses
          rw [hdesc] at hcloses
          exact ⟨(body, close, rest), takeBody_some.mpr ⟨rfl, hcloses, hclose⟩, rfl⟩
    | none =>
      rcases descend_none hdesc with hopen | ⟨rfl, hclose⟩
      · rw [takeBody, if_pos hopen]
        constructor
        · intro h
          cases h
        · rintro ⟨hlines, hcloses, hclose⟩
          cases body with
          | nil =>
            rw [nil_append, List.cons.injEq] at hlines
            rw [← hlines.1, hopen] at hclose
            exact absurd hclose (by decide)
          | cons b body =>
            rw [cons_append, List.cons.injEq] at hlines
            unfold closes at hcloses
            rw [← hlines.1, hdesc] at hcloses
            cases hcloses
      · rw [takeBody, if_neg (not_begin_of_end hclose),
          if_neg (by simp [not_begins_of_ends (ends_of_eq hclose)]), if_neg (by simp), if_pos hclose]
        constructor
        · intro h
          cases h
          exact ⟨rfl, rfl, hclose⟩
        · rintro ⟨hlines, hcloses, _⟩
          cases body with
          | nil =>
            rw [nil_append, List.cons.injEq] at hlines
            rw [hlines.1, hlines.2]
          | cons b body =>
            rw [cons_append, List.cons.injEq] at hlines
            unfold closes at hcloses
            rw [← hlines.1, hdesc] at hcloses
            cases hcloses

/-- `components` finds the events of the pieces, if nothing stands open that could still close. -/
theorem scanLines_pieces : ∀ (fuel : Nat) (lines : List Str) (index : Nat) (s t : Scan),
    lines.length ≤ fuel → (s.current = none ∨ takeBody s.depth lines = none) →
      scanLines lines index s = .ok t → t.found = s.found ++ located index (piecesIn fuel lines)
  | 0, lines, index, s, t, hlen, _, h => by
    have hnil : lines = [] := length_eq_zero_iff.mp (by omega)
    subst hnil
    cases h
    simp [piecesIn, located]
  | fuel + 1, [], index, s, t, _, _, h => by
    cases h
    simp [piecesIn, located]
  | fuel + 1, line :: lines, index, ⟨found, depth, current⟩, t, hlen, hstale, h => by
    rw [length_cons] at hlen
    rw [scanLines] at h
    unfold piecesIn
    by_cases hopen : upper line = BEGIN_VEVENT
    · have hline : scanLine ⟨found, depth, current⟩ index line =
          .ok ⟨found, 0, some ⟨index, index, none, []⟩⟩ := by
        unfold scanLine
        rw [if_pos hopen]
      rw [hline] at h
      dsimp only at h
      rw [if_pos hopen]
      cases htake : takeBody 0 lines with
      | some p =>
        obtain ⟨body, close, rest⟩ := p
        obtain ⟨rfl, hcloses, hclose⟩ := takeBody_some.mp htake
        rw [scanLines_event hclose body rest found 0 (index + 1) _ hcloses] at h
        have ih := scanLines_pieces fuel rest _ _ t (by simp at hlen; omega) (.inl rfl) h
        rw [ih]
        have hend : index + 1 + body.length = index + body.length + 1 := by omega
        simp only [located, eventAt, hend, append_assoc, singleton_append]
      | none =>
        exact scanLines_pieces fuel lines _ ⟨found, 0, some ⟨index, index, none, []⟩⟩ t (by omega) (.inr htake) h
    · rw [if_neg hopen]
      cases current with
      | none =>
        have hline : scanLine ⟨found, depth, none⟩ index line = .ok ⟨found, depth, none⟩ ∨
            scanLine ⟨found, depth, none⟩ index line = .error damaged := by
          unfold scanLine
          rw [if_neg hopen, if_neg (by simp), if_neg (by simp)]
          split
          · exact .inr rfl
          · exact .inl rfl
        rcases hline with hline | hline
        · rw [hline] at h
          exact scanLines_pieces fuel lines _ _ t (by omega) (.inl rfl) h
        · rw [hline] at h
          cases h
      | some c =>
        have hnone : takeBody depth (line :: lines) = none := hstale.resolve_left (by simp)
        cases hdesc : descend depth line with
        | some depth' =>
          rw [scanLine_inside hdesc] at h
          rw [takeBody_cons_none hdesc, map_eq_none_iff] at hnone
          exact scanLines_pieces fuel lines _ ⟨found, depth', _⟩ t (by omega) (.inr hnone) h
        | none =>
          rcases descend_none hdesc with hopen' | ⟨rfl, hclose⟩
          · exact absurd hopen' hopen
          · -- the line would close what stands open
            have : takeBody 0 (line :: lines) = some ([], line, lines) :=
              takeBody_some.mpr ⟨rfl, rfl, hclose⟩
            rw [this] at hnone
            cases hnone

/-- **`components` finds the events of the object**, and nothing else. -/
theorem components_pieces {found : List Component} (h : components lines = .ok found) :
    found = located 0 (pieces lines) ∧ found ≠ [] := by
  unfold components at h
  cases hs : scanLines lines 0 ⟨[], 0, none⟩ with
  | error e =>
    rw [hs] at h
    cases h
  | ok t =>
    rw [hs] at h
    dsimp only at h
    split at h
    · cases h
    · rename_i hne
      cases h
      have := scanLines_pieces lines.length lines 0 _ t (le_refl _) (.inl rfl) hs
      rw [nil_append] at this
      exact ⟨this, by simpa using hne⟩

/-! ## Reading the pieces back -/

/-- Pieces as they are read: the events are whole, and no other line begins one that is closed later. -/
def Object : List Piece → Prop
  | [] => True
  | .outer line :: ps => (upper line = BEGIN_VEVENT → takeBody 0 (flatten ps) = none) ∧ Object ps
  | .event open_ body close :: ps =>
    (upper open_ = BEGIN_VEVENT ∧ closes 0 body = true ∧ upper close = END_VEVENT) ∧ Object ps

theorem flatten_outer (line : Str) (ps : List Piece) : flatten (.outer line :: ps) = line :: flatten ps := rfl

theorem flatten_event (open_ : Str) (body : List Str) (close : Str) (ps : List Piece) :
    flatten (.event open_ body close :: ps) = open_ :: (body ++ close :: flatten ps) := by
  simp [flatten, Piece.lines]

theorem flatten_append (ps qs : List Piece) : flatten (ps ++ qs) = flatten ps ++ flatten qs :=
  flatMap_append

theorem piecesIn_spec : ∀ (fuel : Nat) (lines : List Str), lines.length ≤ fuel →
    flatten (piecesIn fuel lines) = lines ∧ Object (piecesIn fuel lines)
  | 0, lines, h => by
    have hnil : lines = [] := length_eq_zero_iff.mp (by omega)
    subst hnil
    exact ⟨rfl, trivial⟩
  | fuel + 1, [], _ => ⟨rfl, trivial⟩
  | fuel + 1, line :: lines, h => by
    rw [length_cons] at h
    obtain ⟨hflat, hobj⟩ := piecesIn_spec fuel lines (by omega)
    unfold piecesIn
    split
    · rename_i hopen
      split
      · rename_i body close rest htake
        obtain ⟨hlines, hcloses, hclose⟩ := takeBody_some.mp htake
        have hlen := congrArg List.length hlines
        rw [length_append, length_cons] at hlen
        obtain ⟨hflat', hobj'⟩ := piecesIn_spec fuel rest (by omega)
        rw [flatten_event, hflat', ← hlines]
        exact ⟨rfl, ⟨hopen, hcloses, hclose⟩, hobj'⟩
      · rename_i htake
        rw [flatten_outer, hflat]
        refine ⟨rfl, fun _ => ?_, hobj⟩
        rw [hflat]
        exact htake
    · rename_i hopen
      rw [flatten_outer, hflat]
      exact ⟨rfl, fun h => absurd h hopen, hobj⟩

theorem flatten_pieces (lines : List Str) : flatten (pieces lines) = lines :=
  (piecesIn_spec _ lines (le_refl _)).1

theorem pieces_object (lines : List Str) : Object (pieces lines) := (piecesIn_spec _ lines (le_refl _)).2

theorem piecesIn_flatten : ∀ (fuel : Nat) (ps : List Piece), Object ps → (flatten ps).length ≤ fuel →
    piecesIn fuel (flatten ps) = ps
  | 0, [], _, _ => rfl
  | _ + 1, [], _, _ => rfl
  | 0, .outer line :: ps, _, h => by simp [flatten_outer] at h
  | 0, .event open_ body close :: ps, _, h => by simp [flatten_event] at h
  | fuel + 1, .outer line :: ps, hobj, h => by
    rw [flatten_outer, length_cons] at h
    have ih := piecesIn_flatten fuel ps hobj.2 (by omega)
    rw [flatten_outer, piecesIn, ih]
    split
    · rename_i hopen
      rw [hobj.1 hopen]
    · rfl
  | fuel + 1, .event open_ body close :: ps, hobj, h => by
    obtain ⟨⟨hopen, hcloses, hclose⟩, hobj⟩ := hobj
    rw [flatten_event, length_cons, length_append, length_cons] at h
    have ih := piecesIn_flatten fuel ps hobj (by omega)
    have htake : takeBody 0 (body ++ close :: flatten ps) = some (body, close, flatten ps) :=
      takeBody_some.mpr ⟨rfl, hcloses, hclose⟩
    rw [flatten_event, piecesIn, if_pos hopen, htake]
    dsimp only
    rw [ih]

theorem pieces_flatten {ps : List Piece} (h : Object ps) : pieces (flatten ps) = ps :=
  piecesIn_flatten _ ps h (le_refl _)

/-- The same piece with another body. -/
def Alike (R : List Str → List Str → Prop) : Piece → Piece → Prop
  | .outer line, .outer line' => line = line'
  | .event open_ body close, .event open' body' close' => open_ = open' ∧ close = close' ∧ R body body'
  | _, _ => False

section Alike

variable {R : List Str → List Str → Prop}

/-- What stands open before other bodies is closed by none of them. -/
theorem takeBody_alike : ∀ {ps ps' : List Piece}, List.Forall₂ (Alike R) ps ps' → Object ps →
    ∀ depth, takeBody depth (flatten ps) = none → takeBody depth (flatten ps') = none
  | _, _, .nil, _, _, h => h
  | .outer line :: ps, .outer line' :: ps', .cons hp hps, hobj, depth, h => by
    cases hp
    rw [flatten_outer] at h ⊢
    cases hdesc : descend depth line with
    | some depth' =>
      rw [takeBody_cons_none hdesc, map_eq_none_iff] at h ⊢
      exact takeBody_alike hps hobj.2 depth' h
    | none =>
      rcases descend_none hdesc with hopen | ⟨rfl, hclose⟩
      · rw [takeBody, if_pos hopen]
      · have hsome : takeBody 0 (line :: flatten ps) = some ([], line, flatten ps) :=
          takeBody_some.mpr ⟨rfl, rfl, hclose⟩
        rw [hsome] at h
        cases h
  | .event open_ body close :: ps, .event open' body' close' :: ps', .cons hp hps, hobj, depth, h => by
    obtain ⟨rfl, -, -⟩ := hp
    rw [flatten_event, takeBody, if_pos hobj.1.1]
  | .outer _ :: _, .event _ _ _ :: _, .cons hp _, _, _, _ => hp.elim
  | .event _ _ _ :: _, .outer _ :: _, .cons hp _, _, _, _ => hp.elim

/-- Bodies may be replaced by others that close. -/
theorem Object.replace (hR : ∀ body body', R body body' → closes 0 body = true → closes 0 body' = true) :
    ∀ {ps ps' : List Piece}, List.Forall₂ (Alike R) ps ps' → Object ps → Object ps'
  | _, _, .nil, _ => trivial
  | .outer line :: ps, .outer line' :: ps', .cons hp hps, hobj => by
    cases hp
    exact ⟨fun hopen => takeBody_alike hps hobj.2 0 (hobj.1 hopen), Object.replace hR hps hobj.2⟩
  | .event open_ body close :: ps, .event open' body' close' :: ps', .cons hp hps, hobj => by
    obtain ⟨rfl, rfl, hbody⟩ := hp
    obtain ⟨⟨hopen, hcloses, hclose⟩, hobj⟩ := hobj
    exact ⟨⟨hopen, hR _ _ hbody hcloses, hclose⟩, Object.replace hR hps hobj⟩
  | .outer _ :: _, .event _ _ _ :: _, .cons hp _, _ => hp.elim
  | .event _ _ _ :: _, .outer _ :: _, .cons hp _, _ => hp.elim

end Alike

theorem Alike.refl {R : List Str → List Str → Prop} (hR : ∀ body, R body body) (p : Piece) : Alike R p p := by
  cases p with
  | outer line => rfl
  | event open_ body close => exact ⟨rfl, rfl, hR body⟩

/-! ## The main event -/

/-- The RECURRENCE-ID line of an event. -/
def recurrenceIdOf (body : List Str) : Option Str :=
  ((ownLines 0 body).filter (named "RECURRENCE-ID")).getLast?

theorem foldl_note_recurrenceId : ∀ (lines : List Str) (c : Component), (lines.foldl Component.note c).recurrenceId =
      (lines.filter (named "RECURRENCE-ID")).getLast?.or c.recurrenceId
  | [], c => rfl
  | line :: lines, c => by
    rw [foldl_cons, foldl_note_recurrenceId lines]
    unfold Component.note
    by_cases hid : nameOf line = "RECURRENCE-ID"
    · rw [if_pos hid, filter_cons_of_pos (named_iff.mpr hid), getLast?_cons]
      cases (lines.filter (named "RECURRENCE-ID")).getLast? <;> rfl
    · rw [if_neg hid, filter_cons_of_neg (fun h => hid (named_iff.mp h))]
      split <;> rfl

theorem eventAt_recurrenceId (index : Nat) (body : List Str) : (eventAt index body).recurrenceId = recurrenceIdOf body := by
  unfold eventAt recurrenceIdOf
  rw [foldl_note_recurrenceId]
  simp

theorem eventAt_begin (index : Nat) (body : List Str) : (eventAt index body).begin_ = index := by
  have hfold : ∀ (lines : List Str) (c : Component), (lines.foldl Component.note c).begin_ = c.begin_ := by
    intro lines
    induction lines with
    | nil => exact fun _ => rfl
    | cons line lines ih =>
      intro c
      rw [foldl_cons, ih]
      unfold Component.note
      split
      · rfl
      · split <;> rfl
  exact hfold _ _

theorem eventAt_end (index : Nat) (body : List Str) : (eventAt index body).end_ = index + body.length + 1 := rfl

/-- The main event of an object, with what stands before and after it. -/
structure MainEvent where
  before : List Piece
  open_ : Str
  body : List Str
  close : Str
  after : List Piece

def mainOf : List Piece → Option MainEvent
  | [] => none
  | .outer line :: ps => (mainOf ps).map (fun m => { m with before := .outer line :: m.before })
  | .event open_ body close :: ps =>
    if recurrenceIdOf body = none then some ⟨[], open_, body, close, ps⟩
    else (mainOf ps).map (fun m => { m with before := .event open_ body close :: m.before })

theorem located_append : ∀ (ps qs : List Piece) (index : Nat),
    located index (ps ++ qs) = located index ps ++ located (index + (flatten ps).length) qs
  | [], qs, index => rfl
  | .outer line :: ps, qs, index => by
    rw [cons_append, located, located_append ps qs, located, flatten_outer, length_cons]
    have : index + 1 + (flatten ps).length = index + ((flatten ps).length + 1) := by omega
    rw [this]
  | .event open_ body close :: ps, qs, index => by
    rw [cons_append, located, located_append ps qs, located, flatten_event, length_cons, length_append, length_cons]
    have : index + body.length + 2 + (flatten ps).length =
        index + (body.length + ((flatten ps).length + 1) + 1) := by omega
    rw [this]
    rfl

/-- `master` finds the main event. -/
theorem master_located : ∀ (ps : List Piece) (index : Nat), (located index ps).find? (fun c => c.recurrenceId.isNone) =
      (mainOf ps).map (fun m => eventAt (index + (flatten m.before).length) m.body)
  | [], _ => rfl
  | .outer line :: ps, index => by
    rw [located, master_located ps, mainOf, Option.map_map]
    congr 1
    funext m
    have : index + 1 + (flatten m.before).length = index + (flatten (.outer line :: m.before)).length := by
      rw [flatten_outer, length_cons]
      omega
    rw [Function.comp_apply, this]
  | .event open_ body close :: ps, index => by
    rw [located, find?_cons, eventAt_recurrenceId, mainOf]
    cases hid : recurrenceIdOf body with
    | none => rfl
    | some line =>
      simp only [isNone_some, reduceCtorEq, if_false]
      rw [master_located ps, Option.map_map]
      congr 1
      funext m
      have : index + body.length + 2 + (flatten m.before).length =
          index + (flatten (.event open_ body close :: m.before)).length := by
        rw [flatten_event, length_cons, length_append, length_cons]
        omega
      rw [Function.comp_apply, this]

theorem mainOf_some : ∀ {ps : List Piece} {m : MainEvent}, mainOf ps = some m →
    ps = m.before ++ .event m.open_ m.body m.close :: m.after ∧ recurrenceIdOf m.body = none
  | [], m, h => by cases h
  | .outer line :: ps, m, h => by
    rw [mainOf, map_eq_some_iff] at h
    obtain ⟨m', hm, rfl⟩ := h
    obtain ⟨hps, hid⟩ := mainOf_some hm
    exact ⟨congrArg (Piece.outer line :: ·) hps, hid⟩
  | .event open_ body close :: ps, m, h => by
    rw [mainOf] at h
    split at h
    · rename_i hid
      cases h
      exact ⟨rfl, hid⟩
    · rw [map_eq_some_iff] at h
      obtain ⟨m', hm, rfl⟩ := h
      obtain ⟨hps, hid⟩ := mainOf_some hm
      exact ⟨congrArg (Piece.event open_ body close :: ·) hps, hid⟩

/-- The main event stays the main event if its own RECURRENCE-ID and those before it stay. -/
theorem mainOf_alike {R : List Str → List Str → Prop}
    (hR : ∀ body body', R body body' → (recurrenceIdOf body' = none ↔ recurrenceIdOf body = none)) :
    ∀ {ps : List Piece} {m : MainEvent} {before' after' : List Piece} {body' : List Str},
      mainOf ps = some m → List.Forall₂ (Alike R) m.before before' → recurrenceIdOf body' = none →
        mainOf (before' ++ .event m.open_ body' m.close :: after') =
          some ⟨before', m.open_, body', m.close, after'⟩
  | [], m, _, _, _, h, _, _ => by cases h
  | .outer line :: ps, m, before', after', body', h, hbefore, hbody => by
    rw [mainOf, map_eq_some_iff] at h
    obtain ⟨m', hm, rfl⟩ := h
    cases hbefore with
    | cons hp hps =>
      rename_i p' before''
      cases p' with
      | outer line' =>
        rw [cons_append, mainOf, mainOf_alike hR hm hps hbody]
        rfl
      | event o b c => exact hp.elim
  | .event open_ body close :: ps, m, before', after', body', h, hbefore, hbody => by
    rw [mainOf] at h
    split at h
    · cases h
      cases hbefore
      rw [nil_append, mainOf, if_pos hbody]
    · rename_i hid
      rw [map_eq_some_iff] at h
      obtain ⟨m', hm, rfl⟩ := h
      cases hbefore with
      | cons hp hps =>
        rename_i p' before''
        cases p' with
        | outer line' => exact hp.elim
        | event o b c =>
          obtain ⟨rfl, rfl, hb⟩ := hp
          rw [cons_append, mainOf, if_neg fun he => hid ((hR _ _ hb).mp he), mainOf_alike hR hm hps hbody]
          rfl

end Oreneta.Ics

import Oreneta.Ics.Components

/-!
# iCalendar: changing an object

The edits of `calendar/ics.rs`, by index over the unfolded lines as it makes them.

* `mergePeople`, `mergePeopleEverywhere` — the organizer and attendees of one event, and of every one.
* `rewrite`, `bumpSequence` — the properties this client owns, and the SEQUENCE.
* `patchEvent` — an edit of a single event or of a whole series.
* `putOverride`, `excludeOccurrence` — one occurrence changed on its own, or removed.
-/

namespace Oreneta.Ics

open Text ContentLines Decimal

/-! ## The people -/

/-- What a pass over an event's lines has seen. -/
structure People where
  kept : List Str
  hasOrganizer : Bool
  depth : Nat
  drop : List Nat

def seeLine (removed : List Str) (s : People) (index : Nat) (line : Str) : People :=
  if begins line then { s with depth := s.depth + 1 }
  else if ends line && 0 < s.depth then { s with depth := s.depth - 1 }
  else if s.depth = 0 then
    if nameOf line = "ORGANIZER" then { s with hasOrganizer := true }
    else if nameOf line = "ATTENDEE" then
      if !(addressOf line).isEmpty && removed.contains (addressOf line) then
        { s with drop := s.drop ++ [index] }
      else { s with kept := s.kept ++ [addressOf line] }
    else s
  else s

def seeLines (removed : List Str) : List Str → Nat → People → People
  | [], _, s => s
  | line :: lines, index, s => seeLines removed lines (index + 1) (seeLine removed s index line)

/-- The attendees the event has and the object has not: the addresses there then, and the lines added. -/
def newAttendees (removed : List Str) : List Participant → List Str → List Str × List Str
  | [], kept => (kept, [])
  | person :: rest, kept =>
    let addr := normalized person.addr
    if person.addr.contains '@' && !kept.contains addr && !removed.contains addr then
      let (kept, added) := newAttendees removed rest (kept ++ [addr])
      (kept, attendeeLine person :: added)
    else newAttendees removed rest kept

/-- The people lines added to an event in which `seen` was found. -/
def addedPeople (event : Event) (removed : List Str) (seen : People) : List Str :=
  let (kept, added) := newAttendees removed event.attendees seen.kept
  match event.organizer with
  | some organizer =>
    if !seen.hasOrganizer && kept.any (fun addr => !addr.isEmpty) && organizer.addr.contains '@' then
      organizerLine organizer :: added
    else added
  | none => added

/-- Brings the people of one component in line with an edit: the organizer added when it has none,
attendees the editor added appended, and those in `removed` taken out. -/
def mergePeople (lines : List Str) (at_ : Component) (event : Event) (removed : List Str) : List Str :=
  let removed := removed.map normalized
  let inside := (lines.take at_.end_).drop (at_.begin_ + 1)
  let seen := seeLines removed inside (at_.begin_ + 1) ⟨[], false, 0, []⟩
  let lines := lines.take at_.end_ ++ addedPeople event removed seen ++ lines.drop at_.end_
  -- removed from the back, so that the indexes found still point where they did
  seen.drop.foldr (fun index lines => lines.eraseIdx index) lines

/-- `mergePeople` on the next `count` components, from the `n`th on. -/
def mergePeopleFrom (event : Event) (removed : List Str) : Nat → Nat → List Str → Except Str (List Str)
  | 0, _, lines => .ok lines
  | count + 1, n, lines => do
    let found ← components lines
    match found[n]? with
    | some at_ => mergePeopleFrom event removed count (n + 1) (mergePeople lines at_ event removed)
    | none => .error "index out of bounds"

/-- `mergePeople` on every event component of an object. -/
def mergePeopleEverywhere (lines : List Str) (event : Event) (removed : List Str) :
    Except Str (List Str) := do
  let found ← components lines
  mergePeopleFrom event removed found.length 0 lines

/-! ## The event -/

/-- The lines of one component that are kept when it is rewritten, in an alarm or not and at a depth. -/
def keptLines (keepRule : Bool) : Bool → Nat → List Str → List Str
  | _, _, [] => []
  | inAlarm, depth, line :: lines =>
    if upper line = BEGIN_VALARM then keptLines keepRule true depth lines
    else if inAlarm then keptLines keepRule (!decide (upper line = END_VALARM)) depth lines
    else
      let depth := if begins line then depth + 1 else if ends line && 0 < depth then depth - 1 else depth
      if depth = 0 && (OWNED.contains (nameOf line) || (named "RRULE" line && !keepRule)) then
        keptLines keepRule false depth lines
      else line :: keptLines keepRule false depth lines

/-- Replaces the owned properties (and alarms) inside one component. -/
def rewrite (lines : List Str) (at_ : Component) (replacement : List Str) (keepRule : Bool)
    (rule : Option Str) : List Str :=
  lines.take (at_.begin_ + 1) ++
    keptLines keepRule false 0 ((lines.take at_.end_).drop (at_.begin_ + 1)) ++
    replacement ++ rule.toList ++ lines.drop at_.end_

/-- The number a SEQUENCE line gives. -/
def sequenceIn (line : Str) : Int :=
  if line.contains ':' then
    (parseInt (trim ((afterColon line).takeWhile (fun c => c ≠ ':')))).getD 0
  else 0

def sequenceLine (n : Int) : Str := "SEQUENCE:" ++ ofInt n

def bumpSequence (lines : List Str) (at_ : Component) : List Str :=
  match (List.range' at_.begin_ (at_.end_ - at_.begin_)).find? (fun i =>
    named "SEQUENCE" (lines.getD i [])) with
  | some i => lines.set i (sequenceLine (I64.wrap (sequenceIn (lines.getD i []) + 1)))
  | none => lines.insertIdx (at_.begin_ + 1) (sequenceLine 1)

/-- The series an event belongs to and the occurrence it stands for, from the id this client gives
CalDAV occurrences (`{uid}@{start}`). -/
def occurrenceOf (id : Str) : Option (Str × Int) :=
  (rsplitOnce '@' id).bind (fun p => (parseInt p.2).map (fun start => (p.1, start)))

/-- The lines of a component, the first one with them and the last one not. -/
def within (lines : List Str) (at_ : Component) : List Str := (lines.take at_.end_).drop at_.begin_

/-- An edit of a single event, or of a whole series. -/
def patchEvent (p : Platform) (ics : Str) (event : Event) (wholeSeries : Bool) (removed : List Str)
    (now : Int) : Except Str Str := do
  let lines := unfold ics
  let found ← components lines
  let main ← master found
  let inside := within lines main
  let zoneLine := inside.find? (named "DTSTART")
  let zone := zoneLine.bind tzidOf
  let isSeries := inside.any (named "RRULE") || event.recurrence.isSome
  let edited :=
    if isSeries && wholeSeries then
      let original := ((occurrenceOf event.id).map (·.2)).getD event.start
      let first := (zoneLine.bind (instantOf p)).getD original
      let start := I64.wrap (first + I64.wrap (event.start - original))
      { event with start := start, end_ := I64.wrap (start + I64.wrap (event.end_ - event.start)) }
    else event
  let zone := if isSeries then some (zone.getD p.localTimezone) else none
  let replacement := ownedLines p edited zone now ++ alarm event.reminderMinutes event.subject
  let rule := event.recurrence.bind (fun rule => rruleLine p rule edited.start edited.allDay)
  let out := rewrite lines main replacement rule.isNone rule
  let out ← mergePeopleEverywhere out event removed
  let again ← components out
  let main ← master again
  .ok (render (bumpSequence out main))

/-! ## One occurrence -/

/-- The exception stands for the occurrence at `original`. -/
def isFor (p : Platform) (original : Int) (c : Component) : Bool :=
  c.recurrenceId.bind (instantOf p) = some original

def withoutOverride (p : Platform) (lines : List Str) (found : List Component) (original : Int) :
    List Str :=
  let drop := found.filter (isFor p original)
  (lines.zipIdx.filter (fun l => !drop.any (fun c => c.begin_ ≤ l.2 && l.2 ≤ c.end_))).map (·.1)

/-- One occurrence of a series changed on its own: an exception component with the occurrence's
RECURRENCE-ID, replacing any earlier one. -/
def putOverride (p : Platform) (ics : Str) (event : Event) (removed : List Str) (now : Int) :
    Except Str Str :=
  match occurrenceOf event.id with
  | none => .error "this is not an occurrence of a series".toList
  | some (uid, original) => do
    let lines := unfold ics
    let found ← components lines
    let main ← master found
    let zone := ((within lines main).find? (named "DTSTART".toList)).bind tzidOf
    let sequence := fun at_ => (((within lines at_).find? (named "SEQUENCE".toList)).map sequenceIn).getD 0
    let previous := ((found.filter (isFor p original)).map sequence).max?
    let next := I64.wrap (max (previous.getD 0) (sequence main) + 1)
    let out := withoutOverride p lines found original
    let keptPeople := (within lines main).filter (fun line =>
      named "ORGANIZER".toList line || named "ATTENDEE".toList line)
    let component := ["BEGIN:VEVENT".toList, "UID:".toList ++ uid,
        timeProperty p "RECURRENCE-ID".toList original event.allDay zone] ++
      ownedLines p event zone now ++ [sequenceLine next] ++ keptPeople ++
      alarm event.reminderMinutes event.subject ++ ["END:VEVENT".toList]
    match out.reverse.findIdx? (fun line => upper line = "END:VCALENDAR".toList) with
    | none => .error damaged
    | some fromBack =>
      let close := out.length - 1 - fromBack
      let out := out.take close ++ component ++ out.drop close
      let again ← components out
      match again.find? (isFor p original) with
      | none => .error damaged
      | some added => .ok (render (mergePeople out added event removed))

/-- One occurrence removed from a series: an EXDATE on the series, and any exception for that occurrence
dropped. -/
def excludeOccurrence (p : Platform) (ics : Str) (id : Str) (allDay : Bool) : Except Str Str :=
  match occurrenceOf id with
  | none => .error "this is not an occurrence of a series"
  | some (_, original) => do
    let lines := unfold ics
    let found ← components lines
    let out := withoutOverride p lines found original
    let again ← components out
    let main ← master again
    let zone := ((within out main).find? (named "DTSTART")).bind tzidOf
    let exdate := timeProperty p "EXDATE" original allDay zone
    let out := out.insertIdx main.end_ exdate
    let again ← components out
    let main ← master again
    .ok (render (bumpSequence out main))

end Oreneta.Ics

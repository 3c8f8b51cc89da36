import Oreneta.Lib.Decimal
import Oreneta.Lib.TimeZone
import Mathlib.Data.List.Sort

/-!
# Reminders: when one rings and what a look gives

`calendar/reminders.rs`, `mark_reminder_fired` and `forget_old_reminders` of `calendar/mod.rs`, and
`look_for` of `pim/reminders.rs`, over the tables they read and write.

* `timing` — when a reminder rings, and when its event starts and ends, in one zone; a reminder's lead
  is whatever number of minutes is stored, so the `i64` arithmetic on it wraps around;
* `due` — the reminders a look gives; `candidates` is its query;
* `markReminderFired`, `giveMissed`, `recordLook` — what a look writes; `look` is one look whole, which
  may be stopped at any point;
* `forgetOldReminders` — the records dropped in time.
-/

namespace Oreneta.Calendar

/-! ## The data -/

structure Event where
  calendarId : Str
  id : Str
  subject : Str
  start : Int
  end_ : Int
  allDay : Bool
  location : Option Str
  reminderMinutes : Option Int
  myResponse : Str
  isCancelled : Bool
  deriving DecidableEq, Repr

/-- A row of `calendar_events`. -/
structure EventRow where
  account : Str
  event : Event
  deriving DecidableEq, Repr

/-- A row of `calendars`. -/
structure CalendarRow where
  account : Str
  providerId : Str
  enabled : Bool
  deriving DecidableEq, Repr

/-- A row of `calendar_reminders_fired`. -/
structure Fired where
  account : Str
  eventId : Str
  firedAt : Int
  deriving DecidableEq, Repr

/-- The previous look at an account's reminders. -/
structure Previous where
  at_ : Int
  offset : Int
  deriving DecidableEq, Repr

/-- A missed reminder given whose notice was not shown yet. -/
structure Missed where
  account : Str
  key : Str
  event : Event
  deriving DecidableEq, Repr

structure Store where
  calendars : List CalendarRow
  events : List EventRow
  fired : List Fired
  /-- `reminders.look:<account>`. -/
  looks : List (Str × Previous)
  /-- `reminders.missed`. -/
  missed : List Missed
  deriving DecidableEq, Repr

/-! ## When a reminder rings -/

def MAX_GAP : Int := 14 * 86400

def ZONE_SLACK : Int := 2 * 86400

def GIVEN_KEPT : Int := MAX_GAP + ZONE_SLACK

def ZERO_LENGTH_ON : Int := 60

structure Timing where
  fireAt : Int
  start : Int
  end_ : Int
  deriving DecidableEq, Repr

/-- Whether a date can hold an instant (`DateTime::from_timestamp`). -/
def representable (t : Int) : Bool := -8334601228800 ≤ t && t ≤ 8210266876799

/-- `recurrence::resolve`: the first time round when clocks go back, the first time that exists after
it when they skip it. -/
def resolve (zone : TimeZone) (naive : Int) : Option Int :=
  (zone.ofLocal naive).earliest.or
    ([1, 2, 3, 4].findSome? (fun halfHours => (zone.ofLocal (naive + 1800 * halfHours)).earliest))

def localMidnight (zone : TimeZone) (utcDate : Int) : Option Int :=
  if representable utcDate then resolve zone (utcDate / 86400 * 86400) else none

/-- When an event starts and ends in a zone. -/
def span (event : Event) (zone : TimeZone) : Option (Int × Int) :=
  if event.allDay then
    (localMidnight zone event.start).map (fun start =>
      (start, ((localMidnight zone event.end_).filter (fun e => start < e)).getD (I64.wrap (start + 86400))))
  else if event.start < event.end_ then some (event.start, event.end_)
  else some (event.start, I64.wrap (event.start + ZERO_LENGTH_ON))

def timing (event : Event) (zone : TimeZone) : Option Timing :=
  match event.reminderMinutes with
  | none => none
  | some reminderMinutes =>
    let minutes := max reminderMinutes 0
    (span event zone).map (fun p =>
      { fireAt := I64.wrap (p.1 - I64.wrap (minutes * 60)), start := p.1, end_ := p.2 })

def offsetAt (zone : TimeZone) (t : Int) : Option Int :=
  if representable t then some (zone.offset t) else none

namespace Previous

/-- The zone of that look, as far as it matters here: its offset then. -/
def zone (p : Previous) : TimeZone :=
  if h : -day < p.offset ∧ p.offset < day then TimeZone.fixed p.offset h else TimeZone.utc

def zoneChanged (p : Previous) (zone : TimeZone) : Bool := offsetAt zone p.at_ ≠ some p.offset

end Previous

def previousLook (s : Store) (account : Str) : Option Previous := s.looks.lookup account

/-! ## What is due -/

/-- The key a reminder is recorded under: `<event>@<start>`. -/
def firedKey (eventId : Str) (start : Int) : Str := eventId ++ '@' :: Decimal.ofInt start

structure Due where
  event : Event
  timing : Timing
  missed : Bool
  deriving DecidableEq, Repr

/-- Whether a reminder of the event was recorded as given: under its start, or by its id alone. -/
def isFired (s : Store) (account : Str) (event : Event) : Bool :=
  s.fired.any (fun f => f.account = account ∧ (f.eventId = firedKey event.id event.start ∨ f.eventId = event.id))

/-- The query of `candidates`. -/
def candidates (s : Store) (account : Str) (from_ to_ : Int) : List Event :=
  ((s.events.filter (fun r => r.account = account ∧
      s.calendars.any (fun c => c.account = account ∧ c.providerId = r.event.calendarId ∧ c.enabled) ∧
      (r.event.reminderMinutes.any (fun minutes => r.event.start - max minutes 0 * 60 ≤ to_)) ∧
      r.event.isCancelled = false ∧ from_ ≤ max r.event.end_ r.event.start ∧
      isFired s account r.event = false)).map EventRow.event).insertionSort
    (fun a b => a.start < b.start ∨ a.start = b.start ∧ a.id ≤ b.id)

def declined (event : Event) : Bool :=
  Text.asciiLower event.myResponse = "decline" ∨ Text.asciiLower event.myResponse = "declined"

/-- The previous look as far as it is believed. -/
def believed (previous : Option Previous) (now : Int) : Option Previous :=
  previous.map (fun p => { p with at_ := max (min p.at_ now) (now - MAX_GAP) })

/-- What `due` makes of one candidate. -/
def dueOne (now : Int) (zone : TimeZone) (moved : Bool) (previous : Option Previous) (event : Event) :
    Option Due :=
  match timing event zone with
  | none => none
  | some nowTiming =>
    if now < nowTiming.fireAt then none
    else
      let ahead : Bool := now ≤ nowTiming.start
      let cameDueSince := previous.any (fun p =>
        let then_ := if moved then timing event p.zone else some nowTiming
        then_.any (fun t => p.at_ < t.fireAt))
      if ahead || cameDueSince then
        let missed := !ahead && decide (nowTiming.end_ ≤ now)
        if missed && declined event then none else some { event, timing := nowTiming, missed }
      else none

/-- The reminders of an account to give at `now` in `zone`. -/
def due (s : Store) (account : Str) (now : Int) (zone : TimeZone) (previous : Option Previous) :
    List Due :=
  let moved := previous.any (fun p => p.zoneChanged zone)
  let previous := believed previous now
  let from_ := previous.elim now Previous.at_
  ((candidates s account (from_ - ZONE_SLACK) (now + ZONE_SLACK)).filterMap
      (dueOne now zone moved previous)).insertionSort
    (fun a b => a.timing.start < b.timing.start ∨
      a.timing.start = b.timing.start ∧ a.event.id ≤ b.event.id)

/-! ## What a look writes -/

/-- `INSERT OR REPLACE INTO calendar_reminders_fired`. -/
def markReminderFired (s : Store) (account eventId : Str) (start now : Int) : Store :=
  { s with
    fired := s.fired.filter (fun f => ¬ (f.account = account ∧ f.eventId = firedKey eventId start)) ++
      [{ account, eventId := firedKey eventId start, firedAt := now }] }

/-- Records a missed reminder as given and keeps it until its notice is shown. -/
def giveMissed (s : Store) (account : Str) (event : Event) (now : Int) : Store :=
  let s := markReminderFired s account event.id event.start now
  let key := firedKey event.id event.start
  { s with
    missed := s.missed.filter (fun m => now - MAX_GAP ≤ max m.event.end_ m.event.start ∧
        ¬ (m.account = account ∧ m.key = key)) ++ [{ account, key, event }] }

def recordLook (s : Store) (account : Str) (now : Int) (zone : TimeZone) : Store :=
  { s with
    looks := s.looks.filter (fun l => l.1 ≠ account) ++
      [(account, { at_ := now, offset := (offsetAt zone now).getD 0 })] }

/-- What a host does with missed reminders. -/
inductive Missing where
  | gather
  | leave
  deriving DecidableEq, Repr

/-- What the store answers to one record. -/
inductive Answer where
  | given
  | failed
  deriving DecidableEq, Repr

/-- How far the loop of a look got. -/
inductive Progress where
  | complete
  | incomplete
  | stopped
  deriving DecidableEq, Repr

/-- Records one reminder as given. -/
def giveOne (s : Store) (account : Str) (now : Int) (d : Due) : Store :=
  if d.missed then giveMissed s account d.event now
  else markReminderFired s account d.event.id d.event.start now

/-- The loop of `look_for`.  The program is stopped where the answers end. -/
def give (account : Str) (now : Int) (missing : Missing) :
    List Due → List Answer → Store → Store × Progress
  | [], _, s => (s, .complete)
  | d :: ds, answers, s =>
    if d.missed && decide (missing = .leave) then give account now missing ds answers s
    else
      match answers with
      | [] => (s, .stopped)
      | .given :: rest => give account now missing ds rest (giveOne s account now d)
      | .failed :: rest =>
        let r := give account now missing ds rest s
        (r.1, if r.2 = .complete then .incomplete else r.2)

/-- One look at one account: who looks, when and where, and what the store answers. -/
structure Look where
  account : Str
  now : Int
  zone : TimeZone
  missing : Missing
  /-- A paused or muted account is not reminded. -/
  quiet : Bool
  answers : List Answer
  /-- Whether a change of zone was noted. -/
  noted : Bool
  /-- Whether the program lived to record the look, and the store took the record. -/
  recorded : Bool

namespace Look

/-- What this look finds due. -/
def found (l : Look) (s : Store) : List Due :=
  if l.quiet then [] else due s l.account l.now l.zone (previousLook s l.account)

/-- The account, id and start of the reminders this look records as given. -/
def marked (l : Look) (s : Store) : List (Str × Str × Int) :=
  go (l.found s) l.answers
where
  go : List Due → List Answer → List (Str × Str × Int)
    | [], _ => []
    | d :: ds, answers =>
      if d.missed && decide (l.missing = .leave) then go ds answers
      else
        match answers with
        | [] => []
        | .given :: rest => (l.account, d.event.id, d.event.start) :: go ds rest
        | .failed :: rest => go ds rest

end Look

/-- `look_for`, for one account. -/
def look (s : Store) (l : Look) : Store :=
  let r := give l.account l.now l.missing (l.found s) l.answers s
  if r.2 = .complete ∧ l.noted ∧ l.recorded then recordLook r.1 l.account l.now l.zone else r.1

/-! ## Records dropped in time -/

/-- The event id and the start a key names, if its last part is a number. -/
def parseKey (key : Str) : Option (Str × Int) :=
  (Text.rsplitOnce '@' key).bind (fun p => (Decimal.parseInt p.2).map (fun n => (p.1, n)))

/-- Whether `forget_old_reminders` drops a record. -/
def forgets (s : Store) (now : Int) (f : Fired) : Bool :=
  f.firedAt < now - GIVEN_KEPT ∧
    ((parseKey f.eventId).filter (fun p =>
      s.events.any (fun r => r.account = f.account ∧ r.event.id = p.1 ∧ r.event.start = p.2))).all
      (fun p => p.2 < now - GIVEN_KEPT)

def forgetOldReminders (s : Store) (now : Int) : Store :=
  { s with fired := s.fired.filter (fun f => !forgets s now f) }

end Oreneta.Calendar

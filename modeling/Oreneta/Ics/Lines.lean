import Mathlib.Data.List.Destutter
import Oreneta.Calendar.Reminders
import Oreneta.Lib.CivilDate
import Oreneta.Lib.ContentLines

/-!
# iCalendar: one line

`calendar/ics.rs`: the lines the calendar writes, and what it reads off a line.

* `Platform` — the zones `chrono_tz` knows by name, and this machine's clock and zone.
* `timeProperty`, `instantOf` — an instant written as a property, and the instant a property names.
* `ownedLines`, `alarm`, `organizerLine`, `attendeeLine`, `rruleLine` — what an event is written with;
  `Written` is what all these lines are: one line each, under a name.
-/

namespace Oreneta.Ics

open Text ContentLines Civil List

/-- `to_ascii_uppercase`. -/
def upper (s : Str) : Str := s.map Char.toUpper

/-- The text after the first colon. -/
def afterColon (line : Str) : Str := (line.dropWhile (fun c => c ≠ ':')).drop 1

/-- The property name of a content line, upper-cased, without parameters. -/
def nameOf (line : Str) : Str := upper (line.takeWhile (fun c => c ≠ ':' && c ≠ ';'))

/-- A property line under this name. -/
def named (name line : Str) : Bool := nameOf line = name

variable {name line : Str}

theorem named_iff : named name line = true ↔ nameOf line = name := decide_eq_true_iff

theorem toUpper_eq_iff {c x : Char} (hx : x.toNat < 65) : c.toUpper = x ↔ c = x := by
  unfold Char.toUpper
  split
  · rename_i h
    have hlo : 97 ≤ c.val.toNat := h.1
    have hhi : c.val.toNat ≤ 122 := h.2
    constructor
    · intro he
      have hn : (c.val + ('A'.val - 'a'.val)).toNat = x.toNat := by
        rw [← he]
        rfl
      have hshift : ('A'.val - 'a'.val).toNat = 2 ^ 32 - 32 := by decide
      rw [UInt32.toNat_add] at hn
      omega
    · intro he
      have hn : c.val.toNat = x.toNat := by
        rw [he]
        rfl
      omega
  · rfl

theorem toUpper_of_isUpper {c : Char} (h : c.isUpper = true) : c.toUpper = c := by
  unfold Char.toUpper
  split
  · rename_i hlow
    have hlo : 97 ≤ c.val.toNat := hlow.1
    simp only [isUpper_eq, decide_eq_true_eq, UInt32.le_iff_toNat_le, ge_iff_le] at h
    have hz : 'Z'.val.toNat = 90 := rfl
    omega
  · rfl

/-- The name ends where it does in the upper-cased line. -/
theorem nameOf_eq (line : Str) : nameOf line = (upper line).takeWhile (fun c => c ≠ ':' && c ≠ ';') := by
  unfold nameOf upper
  induction line with
  | nil => rfl
  | cons c line ih =>
    have hcolon : c.toUpper = ':' ↔ c = ':' := toUpper_eq_iff (by decide)
    have hsemi : c.toUpper = ';' ↔ c = ';' := toUpper_eq_iff (by decide)
    by_cases h : c = ':' ∨ c = ';'
    · rcases h with rfl | rfl <;> rfl
    · obtain ⟨h1, h2⟩ := not_or.mp h
      have hu1 : c.toUpper ≠ ':' := fun he => h1 (hcolon.mp he)
      have hu2 : c.toUpper ≠ ';' := fun he => h2 (hsemi.mp he)
      simp only [map_cons, takeWhile_cons, h1, h2, hu1, hu2, ne_eq, not_false_eq_true,
        decide_true, Bool.and_self, if_true, ih]

/-- A name of capital letters, written before a colon or a semicolon. -/
theorem nameOf_append {rest : Str} {c : Char} (hname : ∀ x ∈ name, x ≠ ':' ∧ x ≠ ';')
    (hc : c = ':' ∨ c = ';') : nameOf (name ++ c :: rest) = upper name := by
  unfold nameOf
  rw [takeWhile_append_of_pos (by simpa using hname)]
  rcases hc with rfl | rfl <;> simp

/-! ## The data -/

/-- `Participant`. -/
structure Participant where
  name : Str
  addr : Str
  response : Str
  deriving DecidableEq, Repr

inductive Frequency where
  | daily
  | weekly
  | monthly
  | yearly
  deriving DecidableEq, Repr

structure Recurrence where
  freq : Frequency
  interval : Nat
  weekdays : List Nat
  until_ : Option Int
  count : Option Nat
  deriving DecidableEq, Repr

/-- What an edit of an event says, as far as it is written. -/
structure Event where
  id : Str
  subject : Str
  location : Option Str
  start : Int
  end_ : Int
  allDay : Bool
  recurrence : Option Recurrence
  reminderMinutes : Option Int
  description : Str
  organizer : Option Participant
  attendees : List Participant
  deriving DecidableEq, Repr

/-- What the program asks of the machine and of `chrono_tz`: a zone's own name is the one it is found
under. -/
structure Platform where
  zone : Str → Option TimeZone
  zone_chars : ∀ name z, zone name = some z → ∀ c ∈ name, c.isAlphanum ∨ c ∈ ['/', '_', '+', '-']
  /-- `chrono::Local`. -/
  local_ : TimeZone
  /-- `google::local_timezone`. -/
  localTimezone : Str

/-! ## Values -/

/-- Escapes a TEXT value (RFC 5545 §3.3.11). -/
def escape (text : Str) : Str :=
  text.flatMap (fun c =>
    if c = '\\' then ['\\', '\\']
    else if c = ';' then ['\\', ';']
    else if c = ',' then ['\\', ',']
    else if c = '\n' then ['\\', 'n']
    else if c = '\r' then []
    else [c])

/-- An instant as chrono holds it, or the epoch (`unwrap_or_default`). -/
def held (instant : Int) : Int := if Calendar.representable instant then instant else 0

def utc (instant : Int) : Str := stampText (held instant) ++ ['Z']

def date (instant : Int) : Str := dateText (held instant / 86400)

/-- The names of zones that are written as UTC. -/
def utcNames : List Str :=
  ["UTC", "Etc/UTC", "Etc/GMT", "GMT", "Etc/Universal",
    "Universal", "Zulu", "Etc/Zulu"]

/-- `DTSTART`/`DTEND`/`RECURRENCE-ID`/`EXDATE` for an instant: a date for an all-day event, local time
in `zone` when one is given, UTC otherwise. -/
def timeProperty (p : Platform) (name : Str) (instant : Int) (allDay : Bool) (zone : Option Str) : Str :=
  if allDay then name ++ ";VALUE=DATE:" ++ date instant
  else
    match zone.filter (fun z => !utcNames.contains z) with
    | some z =>
      match p.zone z with
      | some tz =>
        if Calendar.representable instant then
          name ++ ";TZID=" ++ z ++ ':' :: stampText (tz.toLocal instant)
        else name ++ ':' :: utc instant
      | none => name ++ ':' :: utc instant
    | none => name ++ ':' :: utc instant

/-- The TZID a property line names, if any. -/
def tzidOf (line : Str) : Option Str :=
  if ':' ∈ line then
    ((line.takeWhile (fun c => c ≠ ':')).splitOn ';').tail.findSome? (fun param =>
      (stripPrefix "TZID=" param).map (fun zone =>
        (zone.dropWhile (fun c => c = '"')).rdropWhile (fun c => c = '"')))
  else none

/-- The instant a RECURRENCE-ID or EXDATE value names, read loosely: UTC, floating or date. -/
def instantOf (p : Platform) (line : Str) : Option Int :=
  if ':' ∈ line then
    let zone := (tzidOf line).bind p.zone
    let first := trim ((afterColon line).takeWhile (fun c => c ≠ ','))
    if octets first = 8 then (readDate first).map (fun day => day * 86400)
    else if first.getLast? = some 'Z' then readStamp first.dropLast
    else
      (readStamp first).bind (fun naive =>
        match zone with
        | some tz => (tz.ofLocal naive).earliest
        | none => (p.local_.ofLocal naive).earliest)
  else none

/-! ## The lines an event is written with -/

/-- The reminder as an alarm, or nothing. -/
def alarm (minutes : Option Int) (subject : Str) : List Str :=
  match minutes.filter (fun m => 0 ≤ m) with
  | none => []
  | some minutes =>
    ["BEGIN:VALARM", "ACTION:DISPLAY",
      "DESCRIPTION:" ++ escape (if subject.isEmpty then "Reminder" else subject),
      "TRIGGER:-PT" ++ Decimal.ofInt minutes ++ ['M'], "END:VALARM"]

/-- The address an ORGANIZER or ATTENDEE line names: lower-cased, without `mailto:`.  Empty when the
line names none. -/
def addressOf (line : Str) : Str :=
  let value := trim (afterColon line)
  let bare := if upper (value.take 7) = "MAILTO:" then value.drop 7 else value
  asciiLower (trim bare)

/-- `char::is_control`. -/
def isControl (c : Char) : Bool := c.toNat < 0x20 || (0x7F ≤ c.toNat && c.toNat < 0xA0)

/-- A CN parameter value, quoted when it holds a separator (RFC 5545 §3.2). -/
def quoteParam (text : Str) : Str :=
  let clean := text.filter (fun c => c ≠ '"' && !isControl c)
  if clean.any (fun c => c = ';' || c = ':' || c = ',') then '"' :: clean ++ ['"'] else clean

def cn (name : Str) : Str :=
  if (Text.trim name).isEmpty then [] else ";CN=" ++ quoteParam (Text.trim name)

/-- An address as it is compared and written. -/
def normalized (addr : Str) : Str := Text.asciiLower (Text.trim addr)

/-- The organizer as a content line. -/
def organizerLine (person : Participant) : Str :=
  "ORGANIZER" ++ cn person.name ++ ":mailto:" ++ normalized person.addr

/-- An attendee as a content line, with the answer they gave when one is known and a request for one
otherwise. -/
def attendeeLine (person : Participant) : Str :=
  let partstat :=
    if person.response = "accept".toList then "ACCEPTED".toList
    else if person.response = "decline".toList then "DECLINED".toList
    else if person.response = "tentative".toList then "TENTATIVE".toList
    else "NEEDS-ACTION".toList
  let rsvp := if partstat = "NEEDS-ACTION".toList then ";RSVP=TRUE".toList else []
  "ATTENDEE" ++ cn person.name ++ ";ROLE=REQ-PARTICIPANT;PARTSTAT=" ++ partstat ++ rsvp ++
    ":mailto:" ++ normalized person.addr

/-- The lines this client owns on an event, in a stable order. -/
def ownedLines (p : Platform) (event : Event) (zone : Option Str) (now : Int) : List Str :=
  let end_ := if event.allDay && event.end_ ≤ event.start then I64.wrap (event.start + 86400) else event.end_
  ["DTSTAMP:" ++ utc now,
    timeProperty p "DTSTART" event.start event.allDay zone,
    timeProperty p "DTEND" end_ event.allDay zone,
    "SUMMARY:" ++ escape event.subject] ++
  (match event.location.filter (fun l => !(Text.trim l).isEmpty) with
    | some location => ["LOCATION:" ++ escape location]
    | none => []) ++
  (if (Text.trim event.description).isEmpty then []
    else ["DESCRIPTION:" ++ escape event.description])

/-- Properties replaced when an event is edited here. -/
def OWNED : List Str :=
  ["DTSTAMP", "DTSTART", "DTEND", "DURATION", "SUMMARY",
    "LOCATION", "DESCRIPTION", "LAST-MODIFIED"]

/-! ## The rule (`google::rrule`) -/

def RRULE_DAYS : List Str :=
  ["MO", "TU", "WE", "TH", "FR", "SA", "SU"]

/-- The calendar day an instant falls on as the person sees it: an all-day event's stored UTC date,
anything else on this machine's clock. -/
def startDate (p : Platform) (instant : Int) (allDay : Bool) : Option Int :=
  if Calendar.representable instant then
    some (if allDay then instant / 86400 else p.local_.toLocal instant / 86400)
  else none

/-- The days a weekly rule falls on, defaulting to the day the event starts. -/
def Recurrence.daysOrStart (p : Platform) (rule : Recurrence) (start : Int) (allDay : Bool) : List Nat :=
  let days := ((rule.weekdays.filter (fun d => d < 7)).insertionSort (· ≤ ·)).destutter (· ≠ ·)
  if days.isEmpty then [((startDate p start allDay).map (fun day => ((day + 3) % 7).toNat)).getD 0]
  else days

def frequencyText : Frequency → Str
  | .daily => "FREQ=DAILY"
  | .weekly => "FREQ=WEEKLY"
  | .monthly => "FREQ=MONTHLY"
  | .yearly => "FREQ=YEARLY"

def rruleLine (p : Platform) (rule : Recurrence) (start : Int) (allDay : Bool) : Option Str :=
  let parts := [frequencyText rule.freq] ++
    (if 1 < max rule.interval 1 then ["INTERVAL=" ++ Decimal.ofNat (max rule.interval 1)] else []) ++
    (if rule.freq = .weekly then
      ["BYDAY=" ++ Text.join [','] ((rule.daysOrStart p start allDay).map (fun d => RRULE_DAYS.getD d []))]
      else [])
  let ends : Option (List Str) := match rule.until_, rule.count with
    | some until_, _ => (startDate p until_ false).map (fun day =>
        ["UNTIL=" ++ Civil.dateText day ++ "T235959Z"])
    | none, some count => some ["COUNT=" ++ Decimal.ofNat (max count 1)]
    | none, none => some []
  ends.map (fun ends => "RRULE:" ++ Text.join [';'] (parts ++ ends))

/-! ## What is written is one line under a name -/

/-- A line that can stand anywhere in a file, under this name. -/
structure Written (name line : Str) : Prop where
  name_eq : nameOf line = name
  no_break : '\n' ∉ line
  starts : continuation line = none

theorem Written.ne_nil (h : Written name line) (hname : name ≠ []) : line ≠ [] := by
  rintro rfl
  exact hname h.name_eq.symm

/-- A name of capital letters and hyphens. -/
def capital (name : Str) : Bool := name.all (fun c => c.isUpper || decide (c = '-'))

/-- Such a name, then a colon or a semicolon. -/
theorem Written.of_append {rest : Str} {c : Char} (hname : capital name = true)
    (hne : name ≠ []) (hc : c = ':' ∨ c = ';') (hrest : '\n' ∉ rest) : Written name (name ++ c :: rest) := by
  have hplain : ∀ x ∈ name, x ≠ ':' ∧ x ≠ ';' ∧ x ≠ '\n' ∧ x ≠ ' ' ∧ x ≠ '\t' ∧ x.toUpper = x := by
    intro x hx
    have hx := all_eq_true.mp hname x hx
    rw [Bool.or_eq_true, decide_eq_true_eq] at hx
    rcases hx with h | rfl
    · refine ⟨?_, ?_, ?_, ?_, ?_, toUpper_of_isUpper h⟩ <;> (rintro rfl; cases h)
    · decide
  refine ⟨?_, ?_, ?_⟩
  · rw [nameOf_append (fun x hx => ⟨(hplain x hx).1, (hplain x hx).2.1⟩) hc]
    have : name.map Char.toUpper = name.map id := map_congr_left fun x hx => (hplain x hx).2.2.2.2.2
    rw [upper, this, map_id]
  · intro hmem
    rcases mem_append.mp hmem with hmem | hmem
    · exact (hplain _ hmem).2.2.1 rfl
    · rcases mem_cons.mp hmem with he | hmem
      · rcases hc with rfl | rfl <;> cases he
      · exact hrest hmem
  · cases name with
    | nil => exact absurd rfl hne
    | cons x name =>
      have := hplain x mem_cons_self
      exact continuation_eq_none.mpr (by tauto)

theorem notMem_escape (text : Str) : '\n' ∉ escape text := by
  intro h
  obtain ⟨c, _, hc⟩ := mem_flatMap.mp h
  split at hc
  · simp at hc
  · split at hc
    · simp at hc
    · split at hc
      · simp at hc
      · split at hc
        · simp at hc
        · rename_i hne
          split at hc
          · cases hc
          · exact hne (mem_singleton.mp hc).symm

theorem notMem_stampText (t : Int) : '\n' ∉ Civil.stampText t := by
  intro h
  rcases Civil.mem_stampText h with h | h | h | h <;> cases h

theorem notMem_utc (instant : Int) : '\n' ∉ utc instant := by
  unfold utc
  simp [notMem_stampText]

theorem notMem_date (instant : Int) : '\n' ∉ date instant := by
  intro h
  rcases Civil.mem_dateText h with h | h | h <;> cases h

theorem notMem_zone (p : Platform) {z : TimeZone} (h : p.zone name = some z) : '\n' ∉ name := by
  intro hmem
  rcases p.zone_chars name z h _ hmem with h | h
  · cases h
  · revert h
    decide

theorem written_timeProperty (p : Platform) (hname : capital name = true)
    (hne : name ≠ []) (instant : Int) (allDay : Bool) (zone : Option Str) :
    Written name (timeProperty p name instant allDay zone) := by
  have hutc : Written name (name ++ ':' :: utc instant) :=
    .of_append hname hne (.inl rfl) (notMem_utc instant)
  unfold timeProperty
  split
  · have hline : name ++ ";VALUE=DATE:" ++ date instant =
        name ++ ';' :: ("VALUE=DATE:" ++ date instant) := by simp
    rw [hline]
    refine .of_append hname hne (.inr rfl) ?_
    intro hmem
    rcases mem_append.mp hmem with hmem | hmem
    · revert hmem
      decide
    · exact notMem_date instant hmem
  · split
    · rename_i z _
      split
      · rename_i tz htz
        split
        · have hline : name ++ ";TZID=" ++ z ++ ':' :: Civil.stampText (tz.toLocal instant) =
              name ++ ';' :: ("TZID=" ++ z ++ ':' :: Civil.stampText (tz.toLocal instant)) := by simp
          rw [hline]
          refine .of_append hname hne (.inr rfl) ?_
          intro hmem
          rcases mem_append.mp hmem with hmem | hmem
          · rcases mem_append.mp hmem with hmem | hmem
            · revert hmem
              decide
            · exact notMem_zone p htz hmem
          · rcases mem_cons.mp hmem with hmem | hmem
            · cases hmem
            · exact notMem_stampText _ hmem
        · exact hutc
      · exact hutc
    · exact hutc

theorem mem_join {sep : Str} {c : Char} : ∀ {parts : List Str}, c ∈ Text.join sep parts → c ∈ sep ∨ ∃ part ∈ parts, c ∈ part
  | [], h => by cases h
  | [part], h => .inr ⟨part, mem_singleton_self _, h⟩
  | part :: next :: rest, h => by
    rw [Text.join] at h
    rcases mem_append.mp h with h | h
    · rcases mem_append.mp h with h | h
      · exact .inr ⟨part, mem_cons_self, h⟩
      · exact .inl h
    · exact (mem_join h).imp_right fun ⟨q, hq, hc⟩ => ⟨q, mem_cons_of_mem _ hq, hc⟩

theorem notMem_ofNat (n : Nat) : '\n' ∉ Decimal.ofNat n := fun h => by cases Decimal.isDigit_of_mem h

theorem notMem_ofInt (n : Int) : '\n' ∉ Decimal.ofInt n := by
  intro h
  rcases Decimal.mem_ofInt h with h | h <;> cases h

theorem notMem_byDay (days : List Nat) : '\n' ∉ Text.join [','] (days.map (fun d => RRULE_DAYS.getD d [])) := by
  intro h
  rcases mem_join h with hsep | ⟨part, hpart, hc⟩
  · revert hsep
    decide
  · obtain ⟨d, _, rfl⟩ := mem_map.mp hpart
    have hall : ∀ name ∈ RRULE_DAYS, '\n' ∉ name := by decide
    rw [getD_eq_getElem?_getD] at hc
    cases hd : RRULE_DAYS[d]? with
    | none =>
      rw [hd] at hc
      cases hc
    | some name =>
      rw [hd] at hc
      exact hall name (mem_of_getElem? hd) hc

theorem written_rruleLine {p : Platform} {rule : Recurrence} {start : Int} {allDay : Bool}
    (h : rruleLine p rule start allDay = some line) : Written "RRULE" line := by
  unfold rruleLine at h
  simp only [Option.map_eq_some_iff] at h
  obtain ⟨ends, hends, rfl⟩ := h
  refine .of_append (by decide) (by decide) (.inl rfl) ?_
  intro hmem
  rcases mem_join hmem with hsep | ⟨part, hpart, hc⟩
  · revert hsep
    decide
  · rcases mem_append.mp hpart with hpart | hpart
    · simp only [append_assoc, mem_append] at hpart
      rcases hpart with hpart | hpart | hpart
      · rw [mem_singleton.mp hpart] at hc
        revert hc
        cases rule.freq <;> decide
      · split at hpart
        · rw [mem_singleton.mp hpart] at hc
          rcases mem_append.mp hc with hc | hc
          · revert hc
            decide
          · exact notMem_ofNat _ hc
        · cases hpart
      · split at hpart
        · rw [mem_singleton.mp hpart] at hc
          rcases mem_append.mp hc with hc | hc
          · revert hc
            decide
          · exact notMem_byDay _ hc
        · cases hpart
    · split at hends
      · obtain ⟨day, _, rfl⟩ := Option.map_eq_some_iff.mp hends
        rw [mem_singleton.mp hpart] at hc
        simp only [mem_append] at hc
        rcases hc with (hc | hc) | hc
        · revert hc
          decide
        · rcases Civil.mem_dateText hc with hc | hc | hc <;> cases hc
        · revert hc
          decide
      · cases hends
        rw [mem_singleton.mp hpart] at hc
        rcases mem_append.mp hc with hc | hc
        · revert hc
          decide
        · exact notMem_ofNat _ hc
      · cases hends
        cases hpart

theorem mem_ownedLines {p : Platform} {event : Event} {zone : Option Str} {now : Int}
    (h : line ∈ ownedLines p event zone now) : ∃ name ∈ OWNED, Written name line := by
  unfold ownedLines at h
  simp only [mem_append] at h
  rcases h with (h | h) | h
  · simp only [mem_cons, not_mem_nil, or_false] at h
    rcases h with rfl | rfl | rfl | rfl
    · exact ⟨"DTSTAMP", by decide, .of_append (by decide) (by decide) (.inl rfl) (notMem_utc now)⟩
    · exact ⟨"DTSTART", by decide, written_timeProperty p (by decide) (by decide) _ _ _⟩
    · exact ⟨"DTEND", by decide, written_timeProperty p (by decide) (by decide) _ _ _⟩
    · exact ⟨"SUMMARY", by decide, .of_append (by decide) (by decide) (.inl rfl) (notMem_escape _)⟩
  · split at h
    · rw [mem_singleton.mp h]
      exact ⟨"LOCATION", by decide, .of_append (by decide) (by decide) (.inl rfl) (notMem_escape _)⟩
    · cases h
  · split at h
    · cases h
    · rw [mem_singleton.mp h]
      exact ⟨"DESCRIPTION", by decide, .of_append (by decide) (by decide) (.inl rfl) (notMem_escape _)⟩

/-- An alarm is nothing, or lines between its BEGIN and its END that are neither. -/
theorem alarm_eq (minutes : Option Int) (subject : Str) : alarm minutes subject = [] ∨ ∃ action description trigger : Str,
      alarm minutes subject =
        ["BEGIN:VALARM".toList, action, description, trigger, "END:VALARM".toList] ∧
      Written "ACTION" action ∧ Written "DESCRIPTION" description ∧
      Written "TRIGGER" trigger := by
  unfold alarm
  split
  · exact .inl rfl
  · rename_i minutes _
    refine .inr ⟨_, _, _, rfl, ?_, ?_, ?_⟩
    · exact show Written "ACTION" ("ACTION" ++ ':' :: "DISPLAY") from
        .of_append (by decide) (by decide) (.inl rfl) (by decide)
    · exact .of_append (by decide) (by decide) (.inl rfl) (notMem_escape _)
    · have hline : "TRIGGER:-PT" ++ Decimal.ofInt minutes ++ ['M'] =
          "TRIGGER" ++ ':' :: ("-PT" ++ Decimal.ofInt minutes ++ ['M']) := by simp
      rw [hline]
      refine .of_append (by decide) (by decide) (.inl rfl) ?_
      intro hmem
      rcases mem_append.mp hmem with hmem | hmem
      · rcases mem_append.mp hmem with hmem | hmem
        · revert hmem
          decide
        · exact notMem_ofInt _ hmem
      · cases mem_singleton.mp hmem

theorem notMem_asciiLower {s : Str} (h : '\n' ∉ s) : '\n' ∉ Text.asciiLower s := by
  intro hmem
  obtain ⟨c, hc, he⟩ := mem_map.mp hmem
  have hcn : c = '\n' := by
    delta Char.toLower at he
    split at he
    · rename_i hup
      have hlo : 65 ≤ c.val.toNat := hup.1
      have hhi : c.val.toNat ≤ 90 := hup.2
      have hn : (c.val + ('a'.val - 'A'.val)).toNat = '\n'.toNat := by
        rw [← he]
        rfl
      have hshift : ('a'.val - 'A'.val).toNat = 32 := by decide
      have hbreak : '\n'.toNat = 10 := rfl
      rw [UInt32.toNat_add] at hn
      omega
    · exact he
  exact h (hcn ▸ hc)

theorem notMem_normalized {addr : Str} (h : '\n' ∉ Text.trim addr) : '\n' ∉ normalized addr :=
  notMem_asciiLower h

theorem notMem_cn (name : Str) : '\n' ∉ cn name := by
  have hclean : ∀ text : Str, '\n' ∉ quoteParam text := by
    intro text hmem
    have hfilter : '\n' ∉ text.filter (fun c => c ≠ '"' && !isControl c) := by
      intro h
      have := (mem_filter.mp h).2
      revert this
      decide
    unfold quoteParam at hmem
    dsimp only at hmem
    split at hmem
    · simp only [cons_append, mem_cons, mem_append, not_mem_nil, or_false] at hmem
      rcases hmem with hmem | hmem | hmem
      · cases hmem
      · exact hfilter hmem
      · cases hmem
    · exact hfilter hmem
  unfold cn
  split
  · simp
  · intro hmem
    rcases mem_append.mp hmem with hmem | hmem
    · revert hmem
      decide
    · exact hclean _ hmem

/-- What stands after the name of a person's line. -/
theorem written_person {tail : Str} (hname : capital name = true) (hne : name ≠ [])
    (person : Participant) (htail : '\n' ∉ tail) (hstart : ∃ c rest, tail = c :: rest ∧ (c = ':' ∨ c = ';')) :
    Written name (name ++ cn person.name ++ tail) := by
  obtain ⟨c, rest, rfl, hc⟩ := hstart
  have hrest : '\n' ∉ rest := fun h => htail (mem_cons_of_mem _ h)
  rw [append_assoc]
  cases hcn : cn person.name with
  | nil => exact .of_append hname hne hc hrest
  | cons x xs =>
    have hbreak := notMem_cn person.name
    have hx : x = ';' := by
      unfold cn at hcn
      split at hcn
      · cases hcn
      · exact (List.cons.inj hcn).1.symm
    rw [hcn] at hbreak
    rw [cons_append]
    refine .of_append hname hne (.inr hx) ?_
    intro hmem
    rcases mem_append.mp hmem with hmem | hmem
    · exact hbreak (mem_cons_of_mem _ hmem)
    · exact htail hmem

theorem written_organizerLine {person : Participant} (h : '\n' ∉ trim person.addr) :
    Written "ORGANIZER" (organizerLine person) := by
  have hline : organizerLine person = "ORGANIZER" ++ cn person.name ++
      (":mailto:" ++ normalized person.addr) := append_assoc _ _ _
  rw [hline]
  refine written_person (by decide) (by decide) person ?_ ⟨':', _, rfl, .inl rfl⟩
  intro hmem
  rcases mem_append.mp hmem with hmem | hmem
  · revert hmem
    decide
  · exact notMem_normalized h hmem

theorem written_attendeeLine {person : Participant} (h : '\n' ∉ trim person.addr) : Written "ATTENDEE" (attendeeLine person) := by
  have htail : ∀ partstat rsvp : Str, '\n' ∉ partstat → '\n' ∉ rsvp →
      Written "ATTENDEE" ("ATTENDEE" ++ cn person.name ++
        ";ROLE=REQ-PARTICIPANT;PARTSTAT=" ++ partstat ++ rsvp ++ ":mailto:" ++
        normalized person.addr) := by
    intro partstat rsvp hpartstat hrsvp
    have hline : "ATTENDEE" ++ cn person.name ++ ";ROLE=REQ-PARTICIPANT;PARTSTAT=" ++
        partstat ++ rsvp ++ ":mailto:" ++ normalized person.addr =
        "ATTENDEE" ++ cn person.name ++ (";ROLE=REQ-PARTICIPANT;PARTSTAT=" ++
          (partstat ++ (rsvp ++ (":mailto:" ++ normalized person.addr)))) := by
      simp only [append_assoc]
    rw [hline]
    refine written_person (by decide) (by decide) person ?_ ⟨';', _, rfl, .inr rfl⟩
    intro hmem
    simp only [mem_append] at hmem
    rcases hmem with hmem | hmem | hmem | hmem | hmem
    · revert hmem
      decide
    · exact hpartstat hmem
    · exact hrsvp hmem
    · revert hmem
      decide
    · exact notMem_normalized h hmem
  have hite : ∀ {q : Prop} [Decidable q] {a b : Str}, '\n' ∉ a → '\n' ∉ b → '\n' ∉ if q then a else b := by
    intro q _ a b ha hb
    split
    · exact ha
    · exact hb
  unfold attendeeLine
  apply htail
  · exact hite (by decide) (hite (by decide) (hite (by decide) (by decide)))
  · exact hite (by decide) not_mem_nil

end Oreneta.Ics

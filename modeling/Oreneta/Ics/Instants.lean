import Oreneta.Ics.Lines
import Oreneta.Lib.Infix
import Oreneta.Lib.Lines

/-!
# Which instant a line names

Two readers of DTSTART, RECURRENCE-ID and EXDATE lines: the one of `calendar/subscription.rs`, through the icalendar crate
and over a text in which zone names were rewritten, and `ics::instant_of`, over the line as it is stored.

* `Line`, `Param` — a line with parameters, any of which may be quoted.
* `windowsZone`, `namedZone`, `withIanaTzids`, `utcWins`, `instant`, `readInstant` — the first reader.
* `withIanaTzids_render`, `utcWins_render` — what the rewriting does to a line: `Line.rewritten`.
* `tzidOf_render`, `instantOf_render` — what the second reader sees in it.
* `instant_agrees_iff` — when the two read the same instant.
-/

namespace Oreneta.Ics

open Text ContentLines List

/-! ## Lines -/

/-- A parameter, its value in quotes or not. -/
structure Param where
  key : Str
  quoted : Bool
  text : Str
  deriving DecidableEq, Repr

namespace Param

def raw (q : Param) : Str := if q.quoted then '"' :: q.text ++ ['"'] else q.text

def written (q : Param) : Str := q.key ++ '=' :: q.raw

end Param

inductive Value where
  | date (text : Str)
  | utc (text : Str)
  | wall (text : Str)
  deriving DecidableEq, Repr

namespace Value

def text : Value → Str
  | date text => text
  | utc text => text ++ ['Z']
  | wall text => text

/-- Eight digits; or eight, a `T` and six. -/
def WellFormed : Value → Prop
  | date text => text.length = 8 ∧ ∀ c ∈ text, c.isDigit = true
  | utc text | wall text => ∃ days clock, text = days ++ 'T' :: clock ∧ days.length = 8 ∧ clock.length = 6 ∧
      ∀ c ∈ days ++ clock, c.isDigit = true

end Value

structure Line where
  name : Str
  params : List Param
  value : Value
  deriving DecidableEq, Repr

def Line.render (l : Line) : Str := join [';'] (l.name :: l.params.map Param.written) ++ ':' :: l.value.text

def TZID : Str := ['T', 'Z', 'I', 'D']

/-- `TZID=`. -/
def tzidEq : Str := TZID ++ ['=']

/-- The names of the properties that hold a time here. -/
def timeNames : List Str := ["DTSTART", "RECURRENCE-ID", "EXDATE"]

structure Param.WellFormed (q : Param) : Prop where
  key : ∀ c ∈ q.key, c.isAlphanum = true ∨ c = '-'
  text : ∀ c ∈ q.text, c ∉ [':', ';', '"', '\r', '\n']
  /-- No other value looks like a zone. -/
  plain : ¬ tzidEq <:+: q.text

/-- A line as RFC 5545 has it, with one TZID at most and nothing that separates inside a value. -/
structure Line.WellFormed (l : Line) : Prop where
  name : upper l.name ∈ timeNames
  params : ∀ q ∈ l.params, q.WellFormed
  one : (l.params.filter (fun q => upper q.key = TZID)).length ≤ 1
  value : l.value.WellFormed

/-! ## The reader of subscriptions -/

/-- The Windows names calendars are published with, and the zones they stand for. -/
def WINDOWS_ZONES : List (String × String) :=
  [("UTC", "UTC"), ("Coordinated Universal Time", "UTC"), ("GMT Standard Time", "Europe/London"),
    ("Greenwich Standard Time", "Atlantic/Reykjavik"), ("W. Europe Standard Time", "Europe/Berlin"),
    ("Romance Standard Time", "Europe/Paris"), ("Central Europe Standard Time", "Europe/Budapest"),
    ("Central European Standard Time", "Europe/Warsaw"), ("E. Europe Standard Time", "Europe/Chisinau"),
    ("FLE Standard Time", "Europe/Kiev"), ("GTB Standard Time", "Europe/Bucharest"),
    ("Russian Standard Time", "Europe/Moscow"), ("Turkey Standard Time", "Europe/Istanbul"),
    ("Azores Standard Time", "Atlantic/Azores"), ("Cape Verde Standard Time", "Atlantic/Cape_Verde"),
    ("Morocco Standard Time", "Africa/Casablanca"), ("W. Central Africa Standard Time", "Africa/Lagos"),
    ("South Africa Standard Time", "Africa/Johannesburg"), ("Egypt Standard Time", "Africa/Cairo"),
    ("E. Africa Standard Time", "Africa/Nairobi"), ("Israel Standard Time", "Asia/Jerusalem"),
    ("Jordan Standard Time", "Asia/Amman"), ("Middle East Standard Time", "Asia/Beirut"),
    ("Syria Standard Time", "Asia/Damascus"), ("Arabic Standard Time", "Asia/Baghdad"),
    ("Arab Standard Time", "Asia/Riyadh"), ("Arabian Standard Time", "Asia/Dubai"), ("Iran Standard Time", "Asia/Tehran"),
    ("Georgian Standard Time", "Asia/Tbilisi"), ("Caucasus Standard Time", "Asia/Yerevan"),
    ("Azerbaijan Standard Time", "Asia/Baku"), ("Afghanistan Standard Time", "Asia/Kabul"),
    ("Pakistan Standard Time", "Asia/Karachi"), ("West Asia Standard Time", "Asia/Tashkent"),
    ("India Standard Time", "Asia/Kolkata"), ("Sri Lanka Standard Time", "Asia/Colombo"),
    ("Nepal Standard Time", "Asia/Kathmandu"), ("Bangladesh Standard Time", "Asia/Dhaka"),
    ("Myanmar Standard Time", "Asia/Yangon"), ("SE Asia Standard Time", "Asia/Bangkok"),
    ("N. Central Asia Standard Time", "Asia/Novosibirsk"), ("North Asia Standard Time", "Asia/Krasnoyarsk"),
    ("China Standard Time", "Asia/Shanghai"), ("Singapore Standard Time", "Asia/Singapore"),
    ("Taipei Standard Time", "Asia/Taipei"), ("W. Australia Standard Time", "Australia/Perth"),
    ("Ulaanbaatar Standard Time", "Asia/Ulaanbaatar"), ("Tokyo Standard Time", "Asia/Tokyo"),
    ("Korea Standard Time", "Asia/Seoul"), ("Cen. Australia Standard Time", "Australia/Adelaide"),
    ("AUS Central Standard Time", "Australia/Darwin"), ("E. Australia Standard Time", "Australia/Brisbane"),
    ("AUS Eastern Standard Time", "Australia/Sydney"), ("New Zealand Standard Time", "Pacific/Auckland"),
    ("Hawaiian Standard Time", "Pacific/Honolulu"), ("Alaskan Standard Time", "America/Anchorage"),
    ("Pacific Standard Time", "America/Los_Angeles"), ("US Mountain Standard Time", "America/Phoenix"),
    ("Mountain Standard Time", "America/Denver"), ("Central America Standard Time", "America/Guatemala"),
    ("Central Standard Time", "America/Chicago"), ("Central Standard Time (Mexico)", "America/Mexico_City"),
    ("Canada Central Standard Time", "America/Regina"), ("SA Pacific Standard Time", "America/Bogota"),
    ("Eastern Standard Time", "America/New_York"), ("Venezuela Standard Time", "America/Caracas"),
    ("Atlantic Standard Time", "America/Halifax"), ("Pacific SA Standard Time", "America/Santiago"),
    ("Newfoundland Standard Time", "America/St_Johns"), ("E. South America Standard Time", "America/Sao_Paulo"),
    ("Argentina Standard Time", "America/Argentina/Buenos_Aires"), ("SA Eastern Standard Time", "America/Cayenne")]

def windowsZone (name : Str) : Option Str := (WINDOWS_ZONES.lookup (String.ofList name)).map String.toList

/-- `trim_matches('"')`. -/
def trimQuotes (s : Str) : Str := trimBy (fun c => c = '"') s

section Reading

variable (p : Platform)

/-- A TZID as a time zone: an IANA name, or the Windows name Outlook and Exchange publish. -/
def namedZone (tzid : Str) : Option TimeZone :=
  let name := trimQuotes (trim tzid)
  p.zone name <|> (windowsZone name).bind p.zone

/-- The value after `TZID=`, with its quotes. -/
def tzidValue (after : Str) : Str :=
  if after.head? = some '"' then
    match splitOnce '"' (after.drop 1) with
    | some (inside, _) => '"' :: inside ++ ['"']
    | none => after
  else after.takeWhile (fun c => c ∉ [':', ';', '\r', '\n'])

def ianaName (value : Str) : Str :=
  match p.zone (trimQuotes value), windowsZone (trimQuotes value) with
  | none, some iana => iana
  | _, _ => value

/-- The first number is how many characters of a value are still to pass. -/
def ianaFrom : Nat → Str → Str
  | _, [] => []
  | skip + 1, _ :: rest => ianaFrom skip rest
  | 0, c :: rest =>
    if tzidEq.isPrefixOf (c :: rest) then
      let value := tzidValue ((c :: rest).drop 5)
      tzidEq ++ ianaName p value ++ ianaFrom (value.length + 4) rest
    else c :: ianaFrom 0 rest

/-- Rewrites Windows TZID parameters to IANA names. -/
def withIanaTzids (body : Str) : Str := ianaFrom p 0 body

def utcWinsLine (content : Str) : Str :=
  let isTime := ["DTSTART;", "DTEND;", "RECURRENCE-ID;", "EXDATE;", "RDATE;", "DUE;"].any
    (fun name => name.toList.isPrefixOf (upper content))
  match splitOnce ':' content with
  | none => content
  | some (head, value) =>
    if isTime && contains (upper content) tzidEq && (trimEnd value).getLast? = some 'Z' then
      join [';'] ((head.splitOn ';').filter (fun param => !tzidEq.isPrefixOf (upper param))) ++ ':' :: value
    else content

/-- A time written in UTC is UTC, whatever TZID sits beside it. -/
def utcWins (body : Str) : Str :=
  join ['\n'] ((body.splitOn '\n').map (fun line =>
    let content := line.rdropWhile (fun c => c = '\r')
    utcWinsLine content ++ line.drop content.length))

/-- `icalendar::DatePerhapsTime`. -/
inductive DatePerhapsTime where
  | date (days : Int)
  | utc (at_ : Int)
  | floating (naive : Int)
  | withTimezone (dateTime : Int) (tzid : Str)
  deriving DecidableEq, Repr

/-- A DATE or DATE-TIME as epoch seconds. -/
def instant : DatePerhapsTime → Option Int
  | .date days => some (days * 86400)
  | .utc at_ => some at_
  | .floating naive => (p.local_.ofLocal naive).earliest
  | .withTimezone dateTime tzid => (namedZone p tzid).bind fun zone => (zone.ofLocal dateTime).earliest

end Reading

/-- What the icalendar crate reads in a line: the date a VALUE says it is, the zone a TZID names, or else a time in UTC or
on the wall. -/
structure Crate where
  time : Str → Option DatePerhapsTime
  /-- The names it takes for TZID. -/
  namesZone : Str → Bool
  zone_tzid : namesZone TZID = true
  zone_key : ∀ key, namesZone key = true → upper key = TZID
  /-- The parameters that say that it is a date. -/
  isDate : Param → Bool
  date_key : ∀ q, isDate q = true → upper q.key = "VALUE"
  time_date : ∀ l : Line, l.WellFormed → l.params.any isDate = true →
    time l.render = (Civil.readDate l.value.text).map .date
  time_zone : ∀ l : Line, l.WellFormed → l.params.any isDate = false → ∀ q ∈ l.params, namesZone q.key = true →
    time l.render = (Civil.readStamp l.value.text).map (.withTimezone · q.text)
  time_utc : ∀ l : Line, l.WellFormed → l.params.any isDate = false → (∀ q ∈ l.params, namesZone q.key = false) →
    ∀ text, l.value = .utc text → time l.render = (Civil.readStamp text).map .utc
  time_wall : ∀ l : Line, l.WellFormed → l.params.any isDate = false → (∀ q ∈ l.params, namesZone q.key = false) →
    ∀ text, l.value = .wall text → time l.render = (Civil.readStamp text).map .floating

/-- The instant of a line, as an occurrence gets its id from it. -/
def readInstant (p : Platform) (c : Crate) (line : Str) : Option Int :=
  (c.time (utcWins (withIanaTzids p line))).bind (instant p)

/-! ## What the rewriting does -/

/-- A parameter with the IANA name in place of the Windows one. -/
def Param.rewritten (p : Platform) (q : Param) : Param :=
  if TZID.isSuffixOf q.key then
    match p.zone q.text, windowsZone q.text with
    | none, some iana => { q with quoted := false, text := iana }
    | _, _ => q
  else q

section Rewriting

variable {p : Platform}

theorem ianaFrom_skip : ∀ (n : Nat) (s : Str), ianaFrom p n s = ianaFrom p 0 (s.drop n)
  | 0, s => rfl
  | n + 1, [] => rfl
  | n + 1, c :: s => by rw [ianaFrom, drop_succ_cons, ianaFrom_skip n s]

theorem ianaFrom_cons {c : Char} {rest : Str} (h : ¬ tzidEq <+: c :: rest) : ianaFrom p 0 (c :: rest) = c :: ianaFrom p 0 rest := by
  rw [ianaFrom, if_neg (by rwa [List.isPrefixOf_iff_prefix])]

/-- A text without `TZID=` before a character that is not in it. -/
theorem ianaFrom_quiet {d : Char} (hd : d ∉ tzidEq) (rest : Str) : ∀ {s : Str}, ¬ tzidEq <:+: s →
    ianaFrom p 0 (s ++ d :: rest) = s ++ ianaFrom p 0 (d :: rest)
  | [], _ => rfl
  | c :: s, h => by
    have hhere : ¬ tzidEq <+: c :: (s ++ d :: rest) := by
      rintro ⟨t, ht⟩
      rw [← cons_append, append_eq_append_iff] at ht
      rcases ht with ⟨a, ha, -⟩ | ⟨a, ha, hb⟩
      · exact h ⟨[], a, by rw [ha, nil_append]⟩
      · cases a with
        | nil => exact h ⟨[], [], by rw [ha]; simp⟩
        | cons x a =>
          obtain ⟨rfl, -⟩ := List.cons.inj hb
          exact hd (ha ▸ by simp)
    have hrest : ¬ tzidEq <:+: s := fun hs => h (hs.trans (suffix_cons c s).isInfix)
    rw [cons_append, ianaFrom_cons hhere, ianaFrom_quiet hd rest hrest, cons_append]

theorem ianaFrom_plain : ∀ {s : Str}, '=' ∉ s → ianaFrom p 0 s = s
  | [], _ => rfl
  | c :: s, h => by
    have hhere : ¬ tzidEq <+: c :: s := fun hp => h (hp.subset (by decide))
    rw [ianaFrom_cons hhere, ianaFrom_plain fun hs => h (mem_cons_of_mem c hs)]

theorem tzidEq_prefix_iff {a rest : Str} (ha : '=' ∉ a) : tzidEq <+: a ++ '=' :: rest ↔ a = TZID := by
  constructor
  · rintro ⟨t, ht⟩
    rw [tzidEq, append_assoc] at ht
    exact (append_first_inj (by decide) ha ht).1.symm
  · rintro rfl
    exact ⟨rest, rfl⟩

/-- Over a parameter's name. -/
theorem ianaFrom_key (rest : Str) : ∀ {key : Str}, '=' ∉ key →
    ianaFrom p 0 (key ++ '=' :: rest) = key ++ '=' :: if TZID.isSuffixOf key then
      ianaName p (tzidValue rest) ++ ianaFrom p 0 (rest.drop (tzidValue rest).length) else ianaFrom p 0 rest
  | [], _ => by
    rw [nil_append, ianaFrom_cons (by simp [tzidEq, TZID])]
    rfl
  | c :: key, h => by
    by_cases hkey : c :: key = TZID
    · obtain ⟨rfl, rfl⟩ := List.cons.inj hkey
      rw [cons_append, ianaFrom, if_pos (by rfl), if_pos (by rfl)]
      show tzidEq ++ ianaName p (tzidValue rest) ++ ianaFrom p ((tzidValue rest).length + 4) ('Z' :: 'I' :: 'D' :: '=' :: rest) = _
      rw [ianaFrom_skip]
      rfl
    · have hhere : ¬ tzidEq <+: c :: (key ++ '=' :: rest) := fun hp => hkey ((tzidEq_prefix_iff h).mp hp)
      have hsuffix : TZID.isSuffixOf (c :: key) = TZID.isSuffixOf key := by
        rw [Bool.eq_iff_iff, isSuffixOf_iff_suffix, isSuffixOf_iff_suffix, suffix_cons_iff]
        exact or_iff_right fun he => hkey he.symm
      rw [cons_append, ianaFrom_cons hhere, ianaFrom_key rest fun hm => h (mem_cons_of_mem c hm), hsuffix]
      rfl

/-! ### Parameters -/

variable {q : Param}

theorem Param.WellFormed.notMem_key (hq : q.WellFormed) {c : Char} (hc : c.isAlphanum = false) (hne : c ≠ '-') : c ∉ q.key := by
  intro hm
  rcases hq.key c hm with h | h
  · rw [hc] at h
    cases h
  · exact hne h

theorem Param.mem_raw {c : Char} (h : c ∈ q.raw) : c ∈ q.text ∨ c = '"' := by
  unfold Param.raw at h
  split at h
  · rw [mem_append, mem_cons, mem_singleton] at h
    rcases h with (h | h) | h
    · exact .inr h
    · exact .inl h
    · exact .inr h
  · exact .inl h

/-- Nothing in a parameter ends it. -/
theorem Param.WellFormed.notMem_written (hq : q.WellFormed) {c : Char} (hc : c = ':' ∨ c = ';') : c ∉ q.written := by
  intro hm
  rcases mem_append.mp hm with hm | hm
  · rcases hc with rfl | rfl <;> exact hq.notMem_key (by decide) (by decide) hm
  · rcases mem_cons.mp hm with rfl | hm
    · rcases hc with hc | hc <;> cases hc
    · rcases Param.mem_raw hm with hm | rfl
      · exact hq.text c hm (by rcases hc with rfl | rfl <;> decide)
      · rcases hc with hc | hc <;> cases hc

theorem Param.WellFormed.raw_quiet (hq : q.WellFormed) : ¬ tzidEq <:+: q.raw := by
  unfold Param.raw
  split
  · intro h
    have hquote : '"' ∉ tzidEq := by decide
    rcases (infix_append_cons (a := []) hquote).mp h with h | h
    · exact absurd (h.length_le) (by decide)
    · rcases (infix_append_cons hquote).mp h with h | h
      · exact hq.plain h
      · exact absurd (h.length_le) (by decide)
  · exact hq.plain

theorem Param.WellFormed.quote_notMem (hq : q.WellFormed) : '"' ∉ q.text := fun h => hq.text _ h (by decide)

theorem trimQuotes_of_notMem {s : Str} (h : '"' ∉ s) : trimQuotes s = s := by
  refine trimBy_eq_self ⟨fun c hc => ?_, fun c hc => ?_⟩
  · exact decide_eq_false fun he => h (he ▸ mem_of_mem_head? hc)
  · exact decide_eq_false fun he => h (he ▸ mem_of_mem_getLast? hc)

theorem Param.WellFormed.trimQuotes_raw (hq : q.WellFormed) : trimQuotes q.raw = q.text := by
  unfold Param.raw
  split
  · have hblank : ∀ c ∈ ['"'], decide (c = '"') = true := by decide
    have htext := trimQuotes_of_notMem hq.quote_notMem
    show trimBy _ (['"'] ++ (q.text ++ ['"'])) = _
    rw [trimBy_blank_append hblank, trimBy_append_of_blank hblank]
    exact htext
  · exact trimQuotes_of_notMem hq.quote_notMem

/-- The value of a parameter ends where the next one starts, or the value of the line. -/
theorem Param.WellFormed.tzidValue_raw (hq : q.WellFormed) {d : Char} (hd : d = ':' ∨ d = ';') (rest : Str) :
    tzidValue (q.raw ++ d :: rest) = q.raw := by
  unfold Param.raw
  split
  · show (match splitOnce '"' (q.text ++ ['"'] ++ d :: rest) with
      | some (inside, _) => '"' :: inside ++ ['"']
      | none => _) = _
    rw [append_assoc, singleton_append, splitOnce_append _ hq.quote_notMem]
  · have hhead : (q.text ++ d :: rest).head? ≠ some '"' := by
      intro he
      have hm := mem_of_mem_head? he
      rcases mem_append.mp hm with hm | hm
      · exact hq.quote_notMem hm
      · cases htext : q.text with
        | nil =>
          rw [htext] at he
          rcases hd with rfl | rfl <;> cases he
        | cons c text =>
          rw [htext] at he
          cases he
          exact hq.quote_notMem (htext ▸ mem_cons_self)
    unfold tzidValue
    rw [if_neg hhead, takeWhile_append_of_pos fun c hc => ?_, takeWhile_cons_of_neg ?_, append_nil]
    · rcases hd with rfl | rfl <;> decide
    · have hc := hq.text c hc
      exact decide_eq_true fun hm => hc ((show [':', ';', '\r', '\n'] ⊆ [':', ';', '"', '\r', '\n'] by decide) hm)

theorem Param.WellFormed.ianaName_raw (hq : q.WellFormed) (hkey : TZID.isSuffixOf q.key = true) :
    ianaName p q.raw = (q.rewritten p).raw := by
  unfold ianaName Param.rewritten
  rw [hq.trimQuotes_raw, if_pos hkey]
  split
  · rfl
  · rfl

theorem Param.rewritten_key (q : Param) : (q.rewritten p).key = q.key := by
  unfold Param.rewritten
  split
  · split
    · rfl
    · rfl
  · rfl

/-- The parameters of a line, each after its separator. -/
def written (params : List Param) : Str := params.flatMap (fun q => ';' :: q.written)

theorem Line.render_eq (l : Line) : l.render = l.name ++ (written l.params ++ ':' :: l.value.text) := by
  unfold Line.render written
  rw [join_cons_eq, flatMap_map, append_assoc]

/-- What follows the name, or a parameter. -/
theorem written_head (params : List Param) (rest : Str) :
    ∃ d more, written params ++ ':' :: rest = d :: more ∧ (d = ':' ∨ d = ';') := by
  cases params with
  | nil => exact ⟨':', rest, rfl, .inl rfl⟩
  | cons q params => exact ⟨';', q.written ++ written params ++ ':' :: rest, by simp [written], .inr rfl⟩

theorem ianaFrom_written {rest : Str} (hrest : '=' ∉ rest) : ∀ {params : List Param}, (∀ q ∈ params, q.WellFormed) →
    ianaFrom p 0 (written params ++ ':' :: rest) = written (params.map (Param.rewritten p)) ++ ':' :: rest
  | [], _ => by
    have hplain : '=' ∉ ':' :: rest := fun hm => (mem_cons.mp hm).elim (by decide) hrest
    exact ianaFrom_plain hplain
  | q :: params, h => by
    obtain ⟨hq, hparams⟩ := forall_mem_cons.mp h
    obtain ⟨d, more, hmore, hd⟩ := written_head params rest
    have hnext := ianaFrom_written hrest hparams
    have hkey : '=' ∉ q.key := hq.notMem_key (by decide) (by decide)
    have hsplit : written (q :: params) ++ ':' :: rest = ';' :: (q.key ++ '=' :: (q.raw ++ d :: more)) := by
      rw [← hmore]
      simp [written, Param.written]
    have hout : written ((q :: params).map (Param.rewritten p)) ++ ':' :: rest =
        ';' :: (q.key ++ '=' :: ((q.rewritten p).raw ++ ianaFrom p 0 (d :: more))) := by
      rw [← hmore, hnext]
      simp [written, Param.written, Param.rewritten_key]
    rw [hsplit, hout, ianaFrom_cons (by simp [tzidEq, TZID]), ianaFrom_key _ hkey, hq.tzidValue_raw hd]
    split
    · next hsuffix => rw [hq.ianaName_raw hsuffix, drop_left]
    · next hsuffix =>
      have hdn : d ∉ tzidEq := by rcases hd with rfl | rfl <;> decide
      rw [ianaFrom_quiet hdn more hq.raw_quiet, Param.rewritten, if_neg hsuffix]

end Rewriting

/-! ### Lines -/

theorem Line.WellFormed.name_notMem {l : Line} (hl : l.WellFormed) {c : Char} (hc : c.toNat < 65) (hne : c ≠ '-') : c ∉ l.name := by
  intro hm
  have hup : c ∈ upper l.name := mem_map.mpr ⟨c, hm, (toUpper_eq_iff hc).mpr rfl⟩
  have hnames : ∀ name ∈ timeNames, ∀ x ∈ name, 65 ≤ x.toNat ∨ x = '-' := by decide
  rcases hnames _ hl.name c hup with h | h
  · omega
  · exact hne h

theorem Value.WellFormed.mem_text {v : Value} (hv : v.WellFormed) {c : Char} (h : c ∈ v.text) :
    c.isDigit = true ∨ c = 'T' ∨ c = 'Z' := by
  cases v with
  | date text => exact .inl (hv.2 c h)
  | utc text =>
    obtain ⟨days, clock, rfl, -, -, hdigits⟩ := hv
    simp only [Value.text, mem_append, mem_cons, not_mem_nil, or_false] at h
    rcases h with (h | h | h) | h
    · exact .inl (hdigits c (mem_append_left _ h))
    · exact .inr (.inl h)
    · exact .inl (hdigits c (mem_append_right _ h))
    · exact .inr (.inr h)
  | wall text =>
    obtain ⟨days, clock, rfl, -, -, hdigits⟩ := hv
    simp only [Value.text, mem_append, mem_cons] at h
    rcases h with h | h | h
    · exact .inl (hdigits c (mem_append_left _ h))
    · exact .inr (.inl h)
    · exact .inl (hdigits c (mem_append_right _ h))

theorem Value.WellFormed.notMem_text {v : Value} (hv : v.WellFormed) {c : Char} (hc : c.isDigit = false ∧ c ≠ 'T' ∧ c ≠ 'Z') :
    c ∉ v.text := by
  intro hm
  rcases hv.mem_text hm with h | h | h
  · rw [hc.1] at h
    cases h
  · exact hc.2.1 h
  · exact hc.2.2 h

def Line.rewritten (p : Platform) (l : Line) : Line := { l with params := l.params.map (Param.rewritten p) }

theorem withIanaTzids_render {p : Platform} {l : Line} (hl : l.WellFormed) :
    withIanaTzids p l.render = (l.rewritten p).render := by
  obtain ⟨d, more, hmore, hd⟩ := written_head l.params l.value.text
  have hdn : d ∉ tzidEq := by rcases hd with rfl | rfl <;> decide
  have hname : ¬ tzidEq <:+: l.name := fun h => hl.name_notMem (by decide) (by decide) (h.subset (show '=' ∈ tzidEq by decide))
  have hvalue : '=' ∉ l.value.text := hl.value.notMem_text (by decide)
  unfold withIanaTzids
  rw [Line.render_eq, Line.render_eq, hmore, ianaFrom_quiet hdn more hname, ← hmore, ianaFrom_written hvalue hl.params]
  rfl

/-- What the table of Windows names is like: they have a space, all but one, and the zones they stand for have none. -/
theorem windows_zones : ∀ e ∈ WINDOWS_ZONES, (e.1 = "UTC" ∨ ' ' ∈ e.1.toList) ∧ trim e.1.toList = e.1.toList ∧
    ∀ c ∈ e.2.toList, c.isAlphanum = true ∨ c = '/' ∨ c = '_' := by decide +kernel

theorem windowsZone_mem {name iana : Str} (h : windowsZone name = some iana) :
    (String.ofList name, String.ofList iana) ∈ WINDOWS_ZONES := by
  obtain ⟨text, hlookup, rfl⟩ := Option.map_eq_some_iff.mp h
  obtain ⟨a, b, hab, -⟩ := lookup_eq_some_iff.mp hlookup
  rw [String.ofList_toList, hab]
  exact mem_append_right a mem_cons_self

theorem windowsZone_plain {name iana : Str} (h : windowsZone name = some iana) :
    ∀ c ∈ iana, c.isAlphanum = true ∨ c = '/' ∨ c = '_' := by
  have hplain := (windows_zones _ (windowsZone_mem h)).2.2
  rwa [String.toList_ofList] at hplain

theorem Param.WellFormed.rewritten {p : Platform} {q : Param} (hq : q.WellFormed) : (q.rewritten p).WellFormed := by
  unfold Param.rewritten
  split
  · split
    · next iana _ hiana =>
      have hplain := windowsZone_plain hiana
      refine ⟨hq.key, fun c hc hm => ?_, fun h => ?_⟩
      · simp only [mem_cons, not_mem_nil, or_false] at hm
        rcases hm with rfl | rfl | rfl | rfl | rfl <;> exact absurd (hplain _ hc) (by decide)
      · exact absurd (hplain '=' (h.subset (show '=' ∈ tzidEq by decide))) (by decide)
    · exact hq
  · exact hq

theorem Line.WellFormed.rewritten {p : Platform} {l : Line} (hl : l.WellFormed) : (l.rewritten p).WellFormed := by
  refine ⟨hl.name, fun q hq => ?_, ?_, hl.value⟩
  · obtain ⟨x, hx, rfl⟩ := mem_map.mp hq
    exact (hl.params x hx).rewritten
  · have hkeys : (fun q : Param => decide (upper q.key = TZID)) ∘ Param.rewritten p = fun q => decide (upper q.key = TZID) := by
      funext q
      simp only [Function.comp_apply, Param.rewritten_key]
    show ((l.params.map (Param.rewritten p)).filter fun q => upper q.key = TZID).length ≤ 1
    rw [filter_map, length_map, hkeys]
    exact hl.one

/-- Without its zone, when it is in UTC. -/
def Line.utcOnly (l : Line) : Line :=
  match l.value with
  | .utc _ => { l with params := l.params.filter (fun q => upper q.key ≠ TZID) }
  | _ => l

section UtcWins

variable {l : Line}

theorem Line.WellFormed.utcOnly (hl : l.WellFormed) : l.utcOnly.WellFormed := by
  unfold Line.utcOnly
  split
  · refine ⟨hl.name, fun q hq => hl.params q (mem_of_mem_filter hq), ?_, hl.value⟩
    rw [filter_filter]
    refine le_trans ?_ hl.one
    exact (monotone_filter_right l.params fun q hq => (Bool.and_eq_true_iff.mp hq).1).length_le
  · exact hl

theorem Line.WellFormed.notMem_render (hl : l.WellFormed) {c : Char} (hc : c = '\r' ∨ c = '\n') : c ∉ l.render := by
  intro hm
  rw [Line.render_eq, mem_append, mem_append, mem_cons] at hm
  rcases hm with hm | hm | rfl | hm
  · rcases hc with rfl | rfl <;> exact hl.name_notMem (by decide) (by decide) hm
  · obtain ⟨q, hq, hm⟩ := mem_flatMap.mp hm
    rcases mem_cons.mp hm with rfl | hm
    · rcases hc with hc | hc <;> cases hc
    rcases mem_append.mp hm with hm | hm
    · rcases hc with rfl | rfl <;> exact (hl.params q hq).notMem_key (by decide) (by decide) hm
    rcases mem_cons.mp hm with rfl | hm
    · rcases hc with hc | hc <;> cases hc
    rcases Param.mem_raw hm with hm | rfl
    · exact (hl.params q hq).text c hm (by rcases hc with rfl | rfl <;> decide)
    · rcases hc with hc | hc <;> cases hc
  · rcases hc with hc | hc <;> cases hc
  · rcases hc with rfl | rfl <;> exact hl.value.notMem_text (by decide) hm

theorem utcWins_single {body : Str} (hr : '\r' ∉ body) (hn : '\n' ∉ body) : utcWins body = utcWinsLine body := by
  have hcontent : body.rdropWhile (fun c => c = '\r') = body := by
    rw [rdropWhile_eq_self_iff]
    intro hne he
    exact hr (decide_eq_true_iff.mp he ▸ getLast_mem hne)
  unfold utcWins
  rw [splitOn_eq_singleton hn]
  simp only [map_cons, map_nil, join]
  rw [hcontent, drop_length, append_nil]

theorem Param.WellFormed.begins_zone {q : Param} (hq : q.WellFormed) :
    tzidEq.isPrefixOf (upper q.written) = decide (upper q.key = TZID) := by
  have hkey : '=' ∉ upper q.key := by
    intro hm
    obtain ⟨c, hc, he⟩ := mem_map.mp hm
    exact hq.notMem_key (by decide) (by decide) ((toUpper_eq_iff (by decide)).mp he ▸ hc)
  have hupper : upper q.written = upper q.key ++ '=' :: upper q.raw := by
    simp [upper, Param.written]
  rw [hupper, Bool.eq_iff_iff, List.isPrefixOf_iff_prefix, tzidEq_prefix_iff hkey, decide_eq_true_iff]

/-- A line that names a zone is taken for one that may be in UTC. -/
theorem Line.WellFormed.looks (hl : l.WellFormed) {q : Param} (hq : q ∈ l.params) (hkey : upper q.key = TZID) :
    (["DTSTART;", "DTEND;", "RECURRENCE-ID;", "EXDATE;", "RDATE;", "DUE;"].any
      (fun name => name.toList.isPrefixOf (upper l.render))) = true ∧ contains (upper l.render) tzidEq = true := by
  have hrender := l.render_eq
  constructor
  · cases hparams : l.params with
    | nil => rw [hparams] at hq; cases hq
    | cons first rest =>
      rw [hparams] at hrender
      have hupper : ∃ more, upper l.render = upper l.name ++ ';' :: more := by
        refine ⟨upper (first.written ++ written rest ++ ':' :: l.value.text), ?_⟩
        rw [hrender]
        simp [written, upper]
      obtain ⟨more, hmore⟩ := hupper
      have hnames : ∀ name ∈ timeNames, ∃ x ∈ ["DTSTART;", "DTEND;", "RECURRENCE-ID;", "EXDATE;", "RDATE;", "DUE;"],
          x.toList = name ++ [';'] := by decide
      obtain ⟨x, hx, hxe⟩ := hnames _ hl.name
      rw [any_eq_true]
      refine ⟨x, hx, List.isPrefixOf_iff_prefix.mpr ⟨more, ?_⟩⟩
      rw [hmore, hxe, append_assoc, singleton_append]
  · rw [contains_iff]
    have hprefix : tzidEq <+: upper q.written := by
      rw [← List.isPrefixOf_iff_prefix, (hl.params q hq).begins_zone, decide_eq_true_iff]
      exact hkey
    have hpiece : ';' :: q.written <:+: l.render := by
      obtain ⟨before, after, hparams⟩ := append_of_mem hq
      refine ⟨l.name ++ written before, written after ++ ':' :: l.value.text, ?_⟩
      rw [hrender, hparams]
      simp [written]
    refine hprefix.isInfix.trans (List.IsInfix.map Char.toUpper ?_)
    exact (suffix_cons ';' q.written).isInfix.trans hpiece

theorem Line.WellFormed.separated (hl : l.WellFormed) {c : Char} (hc : c = ':' ∨ c = ';') :
    ∀ piece ∈ l.name :: l.params.map Param.written, c ∉ piece := by
  intro piece hpiece
  rcases mem_cons.mp hpiece with rfl | hpiece
  · rcases hc with rfl | rfl <;> exact hl.name_notMem (by decide) (by decide)
  · obtain ⟨q, hq, rfl⟩ := mem_map.mp hpiece
    exact (hl.params q hq).notMem_written hc

theorem Line.WellFormed.head_plain (hl : l.WellFormed) :
    ∀ c ∈ join [';'] (l.name :: l.params.map Param.written), decide (c ≠ ':') = true := by
  refine fun c hc => decide_eq_true ?_
  rintro rfl
  rcases mem_join hc with hm | ⟨piece, hpiece, hm⟩
  · exact absurd (mem_singleton.mp hm) (by decide)
  · exact hl.separated (.inl rfl) piece hpiece hm

/-- What stands before the value. -/
theorem Line.WellFormed.splitOnce_render (hl : l.WellFormed) :
    splitOnce ':' l.render = some (join [';'] (l.name :: l.params.map Param.written), l.value.text) := by
  exact splitOnce_append _ fun hm => decide_eq_true_iff.mp (hl.head_plain ':' hm) rfl

theorem Value.WellFormed.trimEnd_text {v : Value} (hv : v.WellFormed) : trimEnd v.text = v.text := by
  unfold trimEnd
  rw [rdropWhile_eq_self_iff]
  intro hne hspace
  rcases hv.mem_text (getLast_mem hne) with h | h | h
  · rw [isWhitespace_of_isDigit h] at hspace
    cases hspace
  · rw [h] at hspace
    exact absurd hspace (by decide)
  · rw [h] at hspace
    exact absurd hspace (by decide)

theorem Value.WellFormed.getLast?_text {v : Value} (hv : v.WellFormed) : v.text.getLast? = some 'Z' ↔ ∃ text, v = .utc text := by
  cases v with
  | date text =>
    refine ⟨fun h => ?_, fun ⟨_, h⟩ => nomatch h⟩
    exact absurd (hv.2 'Z' (mem_of_mem_getLast? h)) (by decide)
  | utc text => exact ⟨fun _ => ⟨text, rfl⟩, fun _ => getLast?_concat⟩
  | wall text =>
    refine ⟨fun h => ?_, fun ⟨_, h⟩ => nomatch h⟩
    obtain ⟨days, clock, rfl, -, hlen, hdigits⟩ := hv
    have hne : clock ≠ [] := fun he => by rw [he] at hlen; cases hlen
    have hlast : clock.getLast? = some 'Z' := by
      rw [← h, Value.text, getLast?_append_of_ne_nil _ (cons_ne_nil _ _), getLast?_cons_of_ne_nil hne]
    exact absurd (hdigits 'Z' (mem_append_right _ (mem_of_mem_getLast? hlast))) (by decide)

theorem utcWins_render (hl : l.WellFormed) : utcWins l.render = l.utcOnly.render := by
  rw [utcWins_single (hl.notMem_render (.inl rfl)) (hl.notMem_render (.inr rfl))]
  unfold utcWinsLine
  simp only [hl.splitOnce_render, hl.value.trimEnd_text]
  split
  · next hcond =>
    obtain ⟨-, hlast⟩ := Bool.and_eq_true_iff.mp hcond
    obtain ⟨text, hvalue⟩ := hl.value.getLast?_text.mp (decide_eq_true_iff.mp hlast)
    have hname : tzidEq.isPrefixOf (upper l.name) = false := by
      have hnames : ∀ name ∈ timeNames, tzidEq.isPrefixOf name = false := by decide
      exact hnames _ hl.name
    have hkept : (l.params.map Param.written).filter (fun param => !tzidEq.isPrefixOf (upper param)) =
        (l.params.filter fun q => upper q.key ≠ TZID).map Param.written := by
      rw [filter_map]
      refine congrArg _ (filter_congr fun q hq => ?_)
      rw [Function.comp_apply, (hl.params q hq).begins_zone, decide_not]
    rw [splitOn_join (cons_ne_nil _ _) (hl.separated (.inr rfl)), filter_cons_of_pos (by rw [hname]; rfl), hkept]
    unfold Line.utcOnly
    rw [hvalue]
    simp only [Line.render]
  · next hcond =>
    unfold Line.utcOnly
    split
    · next text hvalue =>
      have hall : ∀ q ∈ l.params, decide (upper q.key ≠ TZID) = true := by
        refine fun q hq => decide_eq_true fun hkey => hcond ?_
        obtain ⟨hname, hzone⟩ := hl.looks hq hkey
        rw [hname, hzone, Bool.true_and, Bool.true_and, decide_eq_true_iff]
        exact hl.value.getLast?_text.mpr ⟨text, hvalue⟩
      rw [filter_eq_self.mpr hall]
    · rfl

end UtcWins

/-! ## The reader of stored lines -/

section Stored

variable {p : Platform} {c : Crate} {l : Line}

theorem Param.WellFormed.stripPrefix_written {q : Param} (hq : q.WellFormed) :
    Text.stripPrefix "TZID=" q.written = if q.key = TZID then some q.raw else none := by
  have htzid : "TZID=" = tzidEq := by decide
  have hkey : '=' ∉ q.key := hq.notMem_key (by decide) (by decide)
  rw [htzid]
  split
  · next h =>
    have hwritten : q.written = tzidEq ++ q.raw := by rw [Param.written, h]; rfl
    rw [hwritten, stripPrefix_append]
  · next h =>
    unfold Text.stripPrefix
    exact if_neg fun hp => h ((tzidEq_prefix_iff hkey).mp (List.isPrefixOf_iff_prefix.mp hp))

theorem tzidOf_render (hl : l.WellFormed) : tzidOf l.render = (l.params.find? (fun q => q.key = TZID)).map Param.text := by
  have hfind : ∀ params : List Param, (∀ q ∈ params, q.WellFormed) →
      (params.map Param.written).findSome? (fun param => (Text.stripPrefix "TZID=" param).map trimQuotes) =
        (params.find? fun q => q.key = TZID).map Param.text := by
    intro params
    induction params with
    | nil => exact fun _ => rfl
    | cons q params ih =>
      intro h
      obtain ⟨hq, hparams⟩ := forall_mem_cons.mp h
      rw [map_cons, findSome?_cons, hq.stripPrefix_written, find?_cons]
      by_cases hkey : q.key = TZID
      · simp only [hkey, if_true, Option.map_some, decide_true, hq.trimQuotes_raw]
      · simp only [hkey, if_false, Option.map_none, decide_false]
        exact ih hparams
  have hhead : l.render.takeWhile (fun c => c ≠ ':') = join [';'] (l.name :: l.params.map Param.written) := by
    unfold Line.render
    rw [takeWhile_append_of_pos hl.head_plain, takeWhile_cons_of_neg (by decide), append_nil]
  have hcolon : ':' ∈ l.render := mem_append_right _ mem_cons_self
  unfold tzidOf
  rw [if_pos hcolon, hhead, splitOn_join (cons_ne_nil _ _) (hl.separated (.inr rfl)), tail_cons]
  exact hfind l.params hl.params

theorem afterColon_render (hl : l.WellFormed) : afterColon l.render = l.value.text := by
  unfold afterColon Line.render
  rw [dropWhile_append_of_pos hl.head_plain, dropWhile_cons_of_neg (by decide), drop_succ_cons, drop_zero]

theorem Value.WellFormed.octets_text {v : Value} (hv : v.WellFormed) : octets v.text = v.text.length := by
  have hone : ∀ c ∈ v.text, Char.utf8Size c = 1 := by
    intro c hc
    rcases hv.mem_text hc with h | rfl | rfl
    · have hle : c.toNat ≤ 57 := (Char.isDigit_iff_toNat.mp h).2
      rw [Char.utf8Size_eq_one_iff]
      show c.toNat ≤ 127
      omega
    · decide
    · decide
  unfold octets
  rw [map_congr_left hone, map_const', sum_replicate_nat, mul_one]

/-- What `ics::instant_of` reads in a line. -/
theorem instantOf_render (hl : l.WellFormed) : instantOf p l.render = match l.value with
    | .date text => (Civil.readDate text).map (fun days => days * 86400) | .utc text => Civil.readStamp text
    | .wall text => (Civil.readStamp text).bind fun naive =>
        match (tzidOf l.render).bind p.zone with
        | some zone => (zone.ofLocal naive).earliest
        | none => (p.local_.ofLocal naive).earliest := by
  have hcolon : ':' ∈ l.render := mem_append_right _ mem_cons_self
  have hcomma : l.value.text.takeWhile (fun c => c ≠ ',') = l.value.text := by
    refine takeWhile_eq_self_iff.mpr fun c hc => decide_eq_true fun he => ?_
    exact hl.value.notMem_text (c := ',') (by decide) (he ▸ hc)
  have htrim : trim l.value.text = l.value.text := by
    refine trim_of_no_space fun c hc => ?_
    rcases hl.value.mem_text hc with h | rfl | rfl
    · exact isWhitespace_of_isDigit h
    · decide
    · decide
  unfold instantOf
  rw [if_pos hcolon, afterColon_render hl, hcomma, htrim]
  simp only [hl.value.octets_text]
  have hvalue := hl.value
  have hlast := hl.value.getLast?_text
  cases hv : l.value with
  | date text =>
    rw [hv] at hvalue
    rw [if_pos (show (Value.date text).text.length = 8 from hvalue.1)]
    rfl
  | utc text =>
    rw [hv] at hvalue hlast
    have hlen : (Value.utc text).text.length ≠ 8 := by
      obtain ⟨days, clock, rfl, hdays, hclock, -⟩ := hvalue
      simp [Value.text, hdays, hclock]
    rw [if_neg hlen, if_pos (hlast.mpr ⟨text, rfl⟩)]
    simp only [Value.text, dropLast_concat]
  | wall text =>
    rw [hv] at hvalue hlast
    have hlen : (Value.wall text).text.length ≠ 8 := by
      obtain ⟨days, clock, rfl, hdays, hclock, -⟩ := hvalue
      simp [Value.text, hdays, hclock]
    rw [if_neg hlen, if_neg (mt hlast.mp (by rintro ⟨_, he⟩; cases he))]
    rfl

theorem windowsZone_trimmed {name iana : Str} (h : windowsZone name = some iana) : trim name = name := by
  have htrim := (windows_zones _ (windowsZone_mem h)).2.1
  rwa [String.toList_ofList] at htrim

/-- A zone that stands for a Windows name stands for itself, if it is a Windows name too. -/
theorem windowsZone_again {name iana : Str} (h : windowsZone name = some iana) :
    windowsZone iana = none ∨ windowsZone iana = some iana := by
  cases hagain : windowsZone iana with
  | none => exact .inl rfl
  | some other =>
    rcases (windows_zones _ (windowsZone_mem hagain)).1 with hutc | hspace
    · obtain rfl : iana = "UTC" := by rw [← hutc, String.toList_ofList]
      have hself : windowsZone "UTC" = some "UTC".toList := by decide
      exact .inr (hagain.symm.trans hself)
    · rw [String.toList_ofList] at hspace
      exact absurd (windowsZone_plain h ' ' hspace) (by decide)

/-- A name of letters, digits and a few signs is trimmed. -/
theorem trimmed_of_chars {s : Str} (h : ∀ c ∈ s, c.isAlphanum = true ∨ c ∈ ['/', '_', '+', '-']) : trimQuotes (trim s) = s := by
  have hspace : ∀ c ∈ s, isWhitespace c = false := by
    intro c hc
    rcases h c hc with h | h
    · rw [Char.isAlphanum, Bool.or_eq_true] at h
      rcases h with h | h
      · exact isWhitespace_of_isAlpha h
      · exact isWhitespace_of_isDigit h
    · have hsigns : ∀ x ∈ ['/', '_', '+', '-'], isWhitespace x = false := by decide
      exact hsigns c h
  rw [trim_of_no_space hspace]
  refine trimQuotes_of_notMem fun hm => ?_
  rcases h _ hm with h | h
  · exact absurd h (by decide)
  · exact absurd h (by decide)

theorem namedZone_of_zone {name : Str} {zone : TimeZone} (h : p.zone name = some zone) : namedZone p name = some zone := by
  unfold namedZone
  simp only [trimmed_of_chars (p.zone_chars name zone h), h]
  rfl

/-- The zone of a parameter is the same in the text that is read. -/
theorem namedZone_rewritten {q : Param} (hq : q.WellFormed) : namedZone p (q.rewritten p).text = namedZone p q.text := by
  unfold Param.rewritten
  split
  · split
    · next iana hnone hiana =>
      have hname : trimQuotes (trim q.text) = q.text := by
        rw [windowsZone_trimmed hiana]
        exact trimQuotes_of_notMem hq.quote_notMem
      have hchars : ∀ c ∈ iana, c.isAlphanum = true ∨ c ∈ ['/', '_', '+', '-'] := by
        intro c hc
        rcases windowsZone_plain hiana c hc with h | rfl | rfl
        · exact .inl h
        · exact .inr (by decide)
        · exact .inr (by decide)
      unfold namedZone
      simp only [hname, trimmed_of_chars hchars, hnone, hiana]
      cases hzone : p.zone iana with
      | some zone => simp [hzone]
      | none => rcases windowsZone_again hiana with h | h <;> simp [h, hzone]
    · rfl
  · rfl

/-- A line says that it holds a date when it does. -/
def Line.Typed (c : Crate) (l : Line) : Prop := l.params.any c.isDate = true ↔ ∃ text, l.value = .date text

theorem isDate_rewritten (q : Param) : c.isDate (q.rewritten p) = c.isDate q := by
  have hsame : upper q.key = "VALUE" → q.rewritten p = q := by
    intro hkey
    refine if_neg fun hsuffix => ?_
    obtain ⟨before, hbefore⟩ := isSuffixOf_iff_suffix.mp hsuffix
    have hlast : (upper q.key).getLast? = some 'D' := by
      rw [← hbefore, upper, map_append]
      exact getLast?_append_of_ne_nil _ (by decide)
    rw [hkey] at hlast
    exact absurd hlast (by decide)
  rw [Bool.eq_iff_iff]
  constructor
  · intro h
    have hkey := c.date_key _ h
    rw [Param.rewritten_key] at hkey
    rwa [hsame hkey] at h
  · intro h
    rwa [hsame (c.date_key q h)]

theorem any_isDate_filter {params : List Param} :
    (params.filter (fun q => upper q.key ≠ TZID)).any c.isDate = params.any c.isDate := by
  rw [Bool.eq_iff_iff, any_eq_true, any_eq_true]
  constructor
  · rintro ⟨q, hq, h⟩
    exact ⟨q, mem_of_mem_filter hq, h⟩
  · rintro ⟨q, hq, h⟩
    refine ⟨q, mem_filter.mpr ⟨hq, decide_eq_true ?_⟩, h⟩
    rw [c.date_key q h]
    decide

theorem any_isDate_rewritten (l : Line) : ((l.rewritten p).utcOnly).params.any c.isDate = l.params.any c.isDate := by
  have hmap : (l.params.map (Param.rewritten p)).any c.isDate = l.params.any c.isDate := by
    rw [any_map]
    exact congrArg _ (funext fun q => isDate_rewritten q)
  unfold Line.utcOnly
  split
  · exact any_isDate_filter.trans hmap
  · exact hmap

theorem utcOnly_value (l : Line) : l.utcOnly.value = l.value := by
  unfold Line.utcOnly
  split
  · rfl
  · rfl

/-- What the reader of subscriptions reads in a line. -/
theorem readInstant_render (hl : l.WellFormed) (htyped : l.Typed c) : readInstant p c l.render = match l.value with
    | .date text => (Civil.readDate text).map (fun days => days * 86400) | .utc text => Civil.readStamp text
    | .wall text => (Civil.readStamp text).bind fun naive =>
        match l.params.find? (fun q => c.namesZone q.key) with
        | some q => (namedZone p q.text).bind fun zone => (zone.ofLocal naive).earliest
        | none => (p.local_.ofLocal naive).earliest := by
  have hrewritten : (l.rewritten p).WellFormed := hl.rewritten
  have hread := hrewritten.utcOnly
  have hvalue : ((l.rewritten p).utcOnly).value = l.value := utcOnly_value _
  unfold readInstant
  rw [withIanaTzids_render hl, utcWins_render hrewritten]
  cases hv : l.value with
  | date text =>
    have hdate := htyped.mpr ⟨text, hv⟩
    rw [c.time_date _ hread (by rw [any_isDate_rewritten, hdate]), hvalue, hv, Option.bind_map]
    simp only [Value.text]
    cases Civil.readDate text <;> rfl
  | utc text =>
    have hdate : l.params.any c.isDate = false := by
      rw [Bool.eq_false_iff]
      exact fun h => by obtain ⟨_, he⟩ := htyped.mp h; rw [hv] at he; cases he
    have hzone : ∀ q ∈ ((l.rewritten p).utcOnly).params, c.namesZone q.key = false := by
      intro q hq
      rw [Bool.eq_false_iff]
      intro hnames
      have hval : (l.rewritten p).value = .utc text := hv
      unfold Line.utcOnly at hq
      rw [hval] at hq
      exact (decide_eq_true_iff.mp (mem_filter.mp hq).2) (c.zone_key _ hnames)
    rw [c.time_utc _ hread (by rw [any_isDate_rewritten, hdate]) hzone text (hvalue.trans hv), Option.bind_map]
    show (Civil.readStamp text).bind _ = Civil.readStamp text
    cases Civil.readStamp text <;> rfl
  | wall text =>
    have hdate : l.params.any c.isDate = false := by
      rw [Bool.eq_false_iff]
      exact fun h => by obtain ⟨_, he⟩ := htyped.mp h; rw [hv] at he; cases he
    have hsame : (l.rewritten p).utcOnly = l.rewritten p := by
      have hval : (l.rewritten p).value = .wall text := hv
      unfold Line.utcOnly
      rw [hval]
    cases hfind : l.params.find? (fun q => c.namesZone q.key) with
    | some q =>
      have hq := mem_of_find?_eq_some hfind
      have hnames : c.namesZone q.key = true := by simpa using find?_some hfind
      have hmem : q.rewritten p ∈ ((l.rewritten p).utcOnly).params := by
        rw [hsame]
        exact mem_map_of_mem hq
      rw [c.time_zone _ hread (by rw [any_isDate_rewritten, hdate]) _ hmem (by rw [Param.rewritten_key, hnames]), hvalue, hv,
        Option.bind_map]
      simp only [Value.text]
      cases Civil.readStamp text with
      | none => rfl
      | some naive =>
        simp only [Option.bind_some, Function.comp_apply, instant, namedZone_rewritten (hl.params q hq)]
    | none =>
      have hzone : ∀ q ∈ ((l.rewritten p).utcOnly).params, c.namesZone q.key = false := by
        rw [hsame]
        intro q hq
        obtain ⟨x, hx, rfl⟩ := mem_map.mp hq
        rw [Param.rewritten_key]
        simpa using find?_eq_none.mp hfind x hx
      rw [c.time_wall _ hread (by rw [any_isDate_rewritten, hdate]) hzone text (hvalue.trans hv), Option.bind_map]
      show _ = (Civil.readStamp text).bind fun naive => (p.local_.ofLocal naive).earliest
      cases Civil.readStamp text <;> rfl

/-! ## Where they agree -/

/-- A time on the wall is in no zone, or in one that is named `TZID` and by its IANA name; or the computer's own zone has that
time at the same instant. -/
def Line.ReadAlike (p : Platform) (c : Crate) (l : Line) : Prop :=
  ∀ text naive, l.value = .wall text → Civil.readStamp text = some naive → ∀ q ∈ l.params, c.namesZone q.key = true →
    q.key = TZID ∧ (p.zone q.text).isSome = true ∨
      ((namedZone p q.text).bind fun zone => (zone.ofLocal naive).earliest) = (p.local_.ofLocal naive).earliest

theorem Line.WellFormed.zone_unique (hl : l.WellFormed) {q r : Param} (hq : q ∈ l.params) (hr : r ∈ l.params)
    (hqk : upper q.key = TZID) (hrk : upper r.key = TZID) : q = r := by
  have hmem : ∀ x ∈ l.params, upper x.key = TZID → x ∈ l.params.filter (fun x => upper x.key = TZID) :=
    fun x hx hkey => mem_filter.mpr ⟨hx, decide_eq_true hkey⟩
  have hone := hl.one
  have hq' := hmem q hq hqk
  have hr' := hmem r hr hrk
  generalize l.params.filter (fun x => upper x.key = TZID) = zones at hone hq' hr'
  match zones, hone, hq', hr' with
  | [x], _, hq', hr' => rw [mem_singleton.mp hq', mem_singleton.mp hr']

/-- The zone the reader of stored lines sees, where the other one sees one. -/
theorem tzidOf_of_zone (hl : l.WellFormed) {q : Param} (hq : q ∈ l.params) (hnames : c.namesZone q.key = true) :
    tzidOf l.render = if q.key = TZID then some q.text else none := by
  have hkey := c.zone_key _ hnames
  rw [tzidOf_render hl]
  cases hfind : l.params.find? (fun q => q.key = TZID) with
  | some r =>
    have hr : r.key = TZID := by simpa using find?_some hfind
    have hqr : q = r := hl.zone_unique hq (mem_of_find?_eq_some hfind) hkey (by rw [hr]; decide)
    rw [hqr, if_pos hr, Option.map_some]
  | none =>
    have hne : q.key ≠ TZID := by simpa using find?_eq_none.mp hfind q hq
    rw [if_neg hne, Option.map_none]

theorem tzidOf_of_no_zone (hl : l.WellFormed) (hnone : ∀ q ∈ l.params, c.namesZone q.key = false) : tzidOf l.render = none := by
  have hfind : l.params.find? (fun q => q.key = TZID) = none := by
    refine find?_eq_none.mpr fun q hq hkey => ?_
    have hno := hnone q hq
    rw [decide_eq_true_iff.mp hkey, c.zone_tzid] at hno
    cases hno
  rw [tzidOf_render hl, hfind, Option.map_none]

/-- **The two readers agree on a line**: on every date, every time in UTC and every floating one, and on a time with a zone where
`instant_of` knows the zone as it is written. -/
theorem instant_agrees_iff (hl : l.WellFormed) (htyped : l.Typed c) {t : Int} (hread : readInstant p c l.render = some t) :
    instantOf p l.render = some t ↔ l.ReadAlike p c := by
  rw [readInstant_render hl htyped] at hread
  rw [instantOf_render hl]
  unfold Line.ReadAlike
  cases hv : l.value with
  | date text =>
    rw [hv] at hread
    exact iff_of_true hread fun _ _ h => nomatch h
  | utc text =>
    rw [hv] at hread
    exact iff_of_true hread fun _ _ h => nomatch h
  | wall text =>
    rw [hv] at hread
    obtain ⟨naive, hnaive, hinstant⟩ := Option.bind_eq_some_iff.mp hread
    simp only [hnaive, Option.bind_some]
    cases hfind : l.params.find? (fun q => c.namesZone q.key) with
    | none =>
      have hnone : ∀ q ∈ l.params, c.namesZone q.key = false := by simpa using find?_eq_none.mp hfind
      rw [hfind] at hinstant
      rw [tzidOf_of_no_zone hl hnone, Option.bind_none]
      refine iff_of_true hinstant fun _ _ _ _ q hq hnames => ?_
      rw [hnone q hq] at hnames
      cases hnames
    | some q =>
      have hq := mem_of_find?_eq_some hfind
      have hnames : c.namesZone q.key = true := by simpa using find?_some hfind
      have honly : ∀ r ∈ l.params, c.namesZone r.key = true → r = q :=
        fun r hr hrn => hl.zone_unique hr hq (c.zone_key _ hrn) (c.zone_key _ hnames)
      rw [hfind] at hinstant
      replace hinstant : ((namedZone p q.text).bind fun zone => (zone.ofLocal naive).earliest) = some t := hinstant
      rw [tzidOf_of_zone hl hq hnames]
      constructor
      · intro hstored text' naive' htext hnaive' r hr hrn
        obtain rfl := honly r hr hrn
        cases htext
        obtain rfl : naive = naive' := Option.some.inj (hnaive.symm.trans hnaive')
        by_cases hkey : r.key = TZID
        · rw [if_pos hkey, Option.bind_some] at hstored
          cases hzone : p.zone r.text with
          | some zone => exact .inl ⟨hkey, rfl⟩
          | none =>
            rw [hzone] at hstored
            exact .inr (hinstant.trans hstored.symm)
        · rw [if_neg hkey, Option.bind_none] at hstored
          exact .inr (hinstant.trans hstored.symm)
      · intro halike
        by_cases hknown : q.key = TZID ∧ (p.zone q.text).isSome = true
        · obtain ⟨zone, hzone⟩ := Option.isSome_iff_exists.mp hknown.2
          rw [if_pos hknown.1, Option.bind_some, hzone]
          rwa [namedZone_of_zone hzone, Option.bind_some] at hinstant
        · have hsame := (halike text naive rfl hnaive q hq hnames).resolve_left hknown
          have hunknown : ((if q.key = TZID then some q.text else none).bind p.zone) = none := by
            split
            · next hkey => exact Option.not_isSome_iff_eq_none.mp fun h => hknown ⟨hkey, h⟩
            · rfl
          rw [hunknown]
          exact hsame.symm.trans hinstant

end Stored

/-! ### A zone under its Windows name -/

def readParam (piece : Str) : Option (Str × Str) := (splitOnce '=' piece).map fun q => (q.1, trimQuotes q.2)

def saysDate (q : Str × Str) : Bool := upper q.1 = "VALUE" && q.2 = "DATE"

/-- A reader that takes parameter names as they are written. -/
def readTime (line : Str) : Option DatePerhapsTime :=
  (splitOnce ':' line).bind fun (head, value) =>
    let params := (head.splitOn ';').tail.filterMap readParam
    if params.any saysDate then (Civil.readDate value).map .date
    else
      match params.find? (fun q => q.1 = TZID) with
      | some q => (Civil.readStamp value).map (.withTimezone · q.2)
      | none =>
        if value.getLast? = some 'Z' then (Civil.readStamp value.dropLast).map .utc
        else (Civil.readStamp value).map .floating

def Param.bare (q : Param) : Str × Str := (q.key, q.text)

theorem readTime_render {l : Line} (hl : l.WellFormed) : readTime l.render =
    if l.params.any (fun q => saysDate q.bare) then (Civil.readDate l.value.text).map .date else
      match l.params.find? (fun q => q.key = TZID) with
      | some q => (Civil.readStamp l.value.text).map (.withTimezone · q.text)
      | none =>
        if l.value.text.getLast? = some 'Z' then (Civil.readStamp l.value.text.dropLast).map .utc
        else (Civil.readStamp l.value.text).map .floating := by
  have hparams : (l.params.map Param.written).filterMap readParam = l.params.map Param.bare := by
    rw [filterMap_map, ← filterMap_eq_map]
    refine filterMap_congr fun q hq => ?_
    have hkey : '=' ∉ q.key := (hl.params q hq).notMem_key (by decide) (by decide)
    unfold readParam Param.written
    rw [Function.comp_apply, splitOnce_append _ hkey, Option.map_some, (hl.params q hq).trimQuotes_raw]
    rfl
  unfold readTime
  rw [hl.splitOnce_render, Option.bind_some]
  simp only [splitOn_join (cons_ne_nil _ _) (hl.separated (.inr rfl)), tail_cons, hparams]
  rw [any_map, find?_map]
  refine if_congr Iff.rfl rfl ?_
  show (match (l.params.find? fun q => decide (q.key = TZID)).map Param.bare with | some q => _ | none => _) = _
  cases l.params.find? (fun q => q.key = TZID) <;> rfl

def demoCrate : Crate where
  time := readTime
  namesZone key := key = TZID
  zone_tzid := by decide
  zone_key key h := by
    rw [decide_eq_true_iff] at h
    rw [h]
    decide
  isDate q := saysDate q.bare
  date_key q h := decide_eq_true_iff.mp (Bool.and_eq_true_iff.mp h).1
  time_date l hl h := by rw [readTime_render hl, if_pos h]
  time_zone l hl h q hq hkey := by
    rw [readTime_render hl, if_neg (by rw [h]; decide)]
    rw [decide_eq_true_iff] at hkey
    cases hfind : l.params.find? (fun q => q.key = TZID) with
    | none => exact absurd hkey (by simpa using find?_eq_none.mp hfind q hq)
    | some r =>
      have hr : r.key = TZID := by simpa using find?_some hfind
      rw [hl.zone_unique (mem_of_find?_eq_some hfind) hq (by rw [hr]; decide) (by rw [hkey]; decide)]
  time_utc l hl h hnone text hv := by
    have hfind : l.params.find? (fun q => q.key = TZID) = none := find?_eq_none.mpr fun q hq => by simpa using hnone q hq
    rw [readTime_render hl, if_neg (by rw [h]; decide), hfind, hv]
    simp [Value.text]
  time_wall l hl h hnone text hv := by
    have hfind : l.params.find? (fun q => q.key = TZID) = none := find?_eq_none.mpr fun q hq => by simpa using hnone q hq
    have hlast := hl.value.getLast?_text
    rw [hv] at hlast
    rw [readTime_render hl, if_neg (by rw [h]; decide), hfind, hv]
    exact if_neg fun hz => nomatch hlast.mp hz

def berlin : TimeZone := .changing 1774746000 3600 7200 TimeZone.hour_lt TimeZone.twoHours_lt

/-- A computer in UTC that knows one other zone. -/
def demoPlatform : Platform where
  zone name := if name = "Europe/Berlin" then some berlin else none
  zone_chars := by
    intro name z h c hc
    split at h
    · next hname =>
      have hall : ∀ x ∈ "Europe/Berlin".toList, x.isAlphanum = true ∨ x ∈ ['/', '_', '+', '-'] := by decide +kernel
      exact hall c (hname ▸ hc)
    · cases h
  local_ := .utc
  localTimezone := "UTC"

/-- Ten in the morning of 1 July 2026, in a zone. -/
def startIn (zone : String) : Line := ⟨"DTSTART", [⟨TZID, false, zone.toList⟩], .wall "20260701T100000"⟩

theorem startIn_wellFormed {zone : String} (hchars : ∀ c ∈ zone.toList, c ∉ [':', ';', '"', '\r', '\n'])
    (hplain : '=' ∉ zone.toList) : (startIn zone).WellFormed := by
  have hname : upper "DTSTART" ∈ timeNames := by decide +kernel
  have hkey : ∀ c ∈ TZID, c.isAlphanum = true ∨ c = '-' := by decide
  refine ⟨hname, fun q hq => ?_, length_filter_le _ _, ?_⟩
  · obtain rfl := mem_singleton.mp hq
    exact ⟨hkey, hchars, fun h => hplain (h.subset (show '=' ∈ tzidEq by decide))⟩
  · exact ⟨"20260701", "100000", by decide +kernel, by decide +kernel, by decide +kernel, by decide +kernel⟩

theorem startIn_typed {zone : String} : (startIn zone).Typed demoCrate := by
  refine iff_of_false ?_ fun ⟨_, h⟩ => nomatch h
  have hvalue : upper TZID ≠ "VALUE" := by decide
  have hdate : saysDate (TZID, zone.toList) = false := by
    unfold saysDate
    rw [decide_eq_false hvalue, Bool.false_and]
  show ¬ (saysDate (TZID, zone.toList) || false) = true
  rw [hdate]
  decide

theorem berlin_agrees : instantOf demoPlatform (startIn "Europe/Berlin").render = some 1782892800 ↔
    (startIn "Europe/Berlin").ReadAlike demoPlatform demoCrate :=
  instant_agrees_iff (startIn_wellFormed (by decide +kernel) (by decide +kernel)) startIn_typed (by decide +kernel)

/-- Outlook's name for the zone of Berlin: one reader sees eight in the morning in UTC, the other one ten. -/
theorem windows_zone_missed : (startIn "W. Europe Standard Time").WellFormed ∧
    (startIn "W. Europe Standard Time").Typed demoCrate ∧
    readInstant demoPlatform demoCrate (startIn "W. Europe Standard Time").render = some 1782892800 ∧
    instantOf demoPlatform (startIn "W. Europe Standard Time").render = some 1782900000 :=
  ⟨startIn_wellFormed (by decide +kernel) (by decide +kernel), startIn_typed, by decide +kernel, by decide +kernel⟩

end Oreneta.Ics

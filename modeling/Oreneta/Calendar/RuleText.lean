import Mathlib.Tactic.IntervalCases
import Oreneta.Calendar.ClockTime
import Oreneta.Calendar.Visits
import Oreneta.Ics.Lines
import Oreneta.Lib.Fallible
import Oreneta.Lib.Lines

/-!
# Repetition rules as RRULE text

`parse_with_month` and `format` of `calendar/recurrence.rs`.  `here` is this machine's zone.

* `readUntil`, `parseWithMonth`, `format` — as the source has them, the texts of the errors included.
* `parse_format` — the text of a complete rule is read back as the rule, its weekdays in order; where its last day
  has no such text, `Expressible` fails.
* `parse_editable` — what a text is read as is a rule the editors may say.
* `text_kept` — both ways round: a rule that was read and is written again keeps its dates.
-/

namespace Oreneta.Calendar

open List Option Bool
open Oreneta.Civil (ofDays weekday)
open Oreneta.Ics (RRULE_DAYS upper)

/-! ## Reading -/

def dayCode (text : Str) : Option Nat := RRULE_DAYS.findIdx? fun code => upper code = upper text

/-- An `UNTIL`: a date, or a time in UTC or floating, as the last minute of that day on this clock. -/
def readUntil (here : TimeZone) (text : Str) : Option Int :=
  let date :=
    if Text.byteLength text = 8 then Civil.readDate text
    else
      match text.getLast? with
      | some 'Z' => (Civil.readStamp text.dropLast).map fun naive => here.toLocal naive / day
      | _ => (Civil.readStamp text).map fun naive => naive / day
  date.bind fun d => resolve here (d * day + 86340)

/-- What the loop over the parts has read. -/
structure Reading where
  freq : Option Frequency
  interval : Nat
  until_ : Option Int
  count : Option Nat
  monthDay : Option Nat
  ordinalDays : List (Option Int × Nat)
  month : Option Nat
  deriving DecidableEq, Repr

def Reading.start : Reading := ⟨none, 1, none, none, none, [], none⟩

/-- `str::parse::<i8>`. -/
def parseI8 (s : Str) : Option Int := (Decimal.parseSigned s).filter fun n => -128 ≤ n ∧ n ≤ 127

/-- One day of a `BYDAY`.  A text that ends in no two ASCII characters names no day; where it cannot be cut
there the source panics. -/
def readDay (part text : Str) : Except Str (Option Int × Nat) :=
  let text := Text.trim text
  if Text.byteLength text < 2 then .error part
  else
    match dayCode (text.drop (text.length - 2)) with
    | none => .error part
    | some code =>
      match text.take (text.length - 2) with
      | [] => .ok (none, code)
      | ordinal =>
        match parseI8 (ordinal.dropWhile (· = '+')) with
        | some n => .ok (some n, code)
        | none => .error part

def readFreq (value : Str) : Except Str Frequency :=
  let value := upper value
  if value = "DAILY" then .ok .daily
  else if value = "WEEKLY" then .ok .weekly
  else if value = "MONTHLY" then .ok .monthly
  else if value = "YEARLY" then .ok .yearly
  else .error ("FREQ=" ++ value)

/-- A `u16`, at least 1. -/
def readPositive (part value : Str) : Except Str Nat :=
  match (Decimal.parseBelow 65536 value).filter (1 ≤ ·) with
  | some n => .ok n
  | none => .error part

/-- One part of a rule, its name in capitals. -/
def readField (here : TimeZone) (s : Reading) (part name value : Str) : Except Str Reading :=
  if name = "FREQ" then (readFreq value).map fun f => { s with freq := some f }
  else if name = "INTERVAL" then (readPositive part value).map fun n => { s with interval := n }
  else if name = "COUNT" then (readPositive part value).map fun n => { s with count := some n }
  else if name = "UNTIL" then
    match readUntil here value with
    | some u => .ok { s with until_ := some u }
    | none => .error part
  else if name = "BYDAY" then
    ((value.splitOn ',').mapM (readDay part)).map fun days => { s with ordinalDays := s.ordinalDays ++ days }
  else if name = "BYMONTHDAY" then
    match (Decimal.parseBelow 256 value).filter (fun d => 1 ≤ d ∧ d ≤ 31) with
    | some d => .ok { s with monthDay := some d }
    | none => .error part
  else if name = "BYMONTH" then
    match (Decimal.parseBelow 4294967296 value).filter (fun m => 1 ≤ m ∧ m ≤ 12) with
    | some m => .ok { s with month := some m }
    | none => .error part
  else if name = "WKST" ∧ upper value = "MO" then .ok s
  else .error part

def readPart (here : TimeZone) (s : Reading) (part : Str) : Except Str Reading :=
  match Text.splitOnce '=' part with
  | some (name, value) => readField here s part (upper (Text.trim name)) (Text.trim value)
  | none => .error part

/-- The rule, if this client would keep every part on writing it back. -/
def finish (s : Reading) : Except Str (Recurrence × Option Nat) :=
  match s.freq with
  | none => .error "no FREQ"
  | some freq =>
    let rule : Recurrence := ⟨freq, s.interval, [], s.until_, s.count, none, s.monthDay⟩
    if s.until_.isSome && s.count.isSome then .error "UNTIL with COUNT"
    else
      match freq with
      | .daily | .weekly =>
        if s.monthDay.isSome || s.month.isSome || s.ordinalDays.any (fun p => p.1.isSome) then
          .error "a day of the month on a daily or weekly rule"
        else
          let rule := { rule with weekdays := s.ordinalDays.map (·.2) }
          if freq = .daily ∧ rule.weekdays ≠ [] then
            if rule.interval ≠ 1 then .error "BYDAY on a rule every few days"
            else .ok ({ rule with freq := .weekly }, s.month)
          else .ok (rule, s.month)
      | .monthly | .yearly =>
        if freq = .monthly ∧ s.month.isSome then .error "BYMONTH on a monthly rule"
        else
          match s.ordinalDays with
          | [] =>
            if freq = .yearly ∧ s.month.isNone ∧ s.monthDay.isSome then
              .error "a yearly rule with no month"
            else .ok (rule, s.month)
          | [(some n, d)] =>
            if ¬ ((1 ≤ n ∧ n ≤ 4) ∨ n = -1) then .error "BYDAY"
            else if s.monthDay.isSome then .error "both a weekday and a day of the month"
            else if freq = .yearly ∧ s.month.isNone then .error "a yearly rule with no month"
            else .ok ({ rule with monthWeek := some n, weekdays := [d] }, s.month)
          | _ => .error "BYDAY"

/-- The value, without the property's name. -/
def ruleBody (text : Str) : Str :=
  let body := Text.trim text
  match Text.stripPrefix "RRULE:" body with
  | some body => body
  | none => (Text.stripPrefix "rrule:" body).getD body

/-- A rule, and the month a yearly one names. -/
def parseWithMonth (here : TimeZone) (text : Str) : Except Str (Recurrence × Option Nat) :=
  let parts := ((ruleBody text).splitOn ';').filter fun part => !(Text.trim part).isEmpty
  match parts.foldlM (readPart here) Reading.start with
  | .ok s => finish s
  | .error e => .error e

/-- `parse`. -/
def parse (here : TimeZone) (text : Str) : Except Str Recurrence := (parseWithMonth here text).map (·.1)

/-! ## Writing -/

def freqText : Frequency → Str
  | .daily => "FREQ=DAILY"
  | .weekly => "FREQ=WEEKLY"
  | .monthly => "FREQ=MONTHLY"
  | .yearly => "FREQ=YEARLY"

/-- The end of the last day, as a date or as a time in UTC. -/
def untilText (here : TimeZone) (date : Int) (allDay : Bool) : Option Str :=
  if allDay then some (Civil.dateText date)
  else (resolve here (date * day + 86399)).map fun last => Civil.stampText last ++ ['Z']

def endParts (here : TimeZone) (rule : Recurrence) (allDay : Bool) : List Str :=
  match rule.until_, rule.count with
  | some u, _ =>
    match (if representable u then some (here.toLocal u / day) else none) with
    | some date => ((untilText here date allDay).map ("UNTIL=".toList ++ ·)).toList
    | none => []
  | none, some count => ["COUNT=" ++ Decimal.ofNat (max count 1)]
  | none, none => []

def dayParts (rule : Recurrence) (anchor : Int) : List Str :=
  match rule.freq with
  | .daily => []
  | .weekly => ["BYDAY=" ++ Text.join [','] ((rule.days anchor).map fun d => RRULE_DAYS.getD d [])]
  | .monthly | .yearly =>
    (if rule.freq = .yearly then ["BYMONTH=" ++ Decimal.ofInt (ofDays anchor).month] else []) ++
      [match rule.monthWeek with
      | some n =>
        let d := (rule.weekdays.head?.filter (· < 7)).getD (weekday anchor).toNat
        "BYDAY=" ++ Decimal.ofInt n ++ RRULE_DAYS.getD d []
      | none => "BYMONTHDAY=" ++ Decimal.ofNat (rule.monthDay.getD (ofDays anchor).day.toNat)]

/-- The RRULE value for a rule whose current occurrence is `anchor`. -/
def format (here : TimeZone) (rule : Recurrence) (anchor : Int) (allDay : Bool) : Str :=
  let interval := max rule.interval 1
  Text.join [';'] (freqText rule.freq ::
    ((if 1 < interval then ["INTERVAL=" ++ Decimal.ofNat interval] else []) ++
      (dayParts rule anchor ++ endParts here rule allDay)))

/-! ## Part by part -/

/-- Nothing the reader trims or splits at. -/
def Compact (s : Str) : Prop := ∀ c ∈ s, Text.isWhitespace c = false ∧ c ≠ ';'

theorem Compact.append {a b : Str} (ha : Compact a) (hb : Compact b) : Compact (a ++ b) := by
  intro c hc
  rcases mem_append.mp hc with hc | hc
  · exact ha c hc
  · exact hb c hc

theorem Compact.trim {s : Str} (h : Compact s) : Text.trim s = s := Text.trim_of_no_space fun c hc => (h c hc).1

theorem compact_of_all {s : Str} (h : (s.all fun c => !Text.isWhitespace c && decide (c ≠ ';')) = true) : Compact s := by
  intro c hc
  have := all_eq_true.mp h c hc
  simpa using this

theorem compact_digits {s : Str} (h : ∀ c ∈ s, c.isDigit = true ∨ c = '-' ∨ c = '+' ∨ c = 'T') : Compact s := by
  intro c hc
  rcases h c hc with h | rfl | rfl | rfl
  · refine ⟨Text.isWhitespace_of_isDigit h, ?_⟩
    rintro rfl
    exact absurd h (by decide)
  · exact ⟨rfl, by decide⟩
  · exact ⟨rfl, by decide⟩
  · exact ⟨rfl, by decide⟩

theorem compact_ofNat (n : Nat) : Compact (Decimal.ofNat n) :=
  compact_digits fun _ hc => .inl (Decimal.isDigit_of_mem hc)

theorem compact_ofInt (n : Int) : Compact (Decimal.ofInt n) := compact_digits fun c hc => by
  rcases Decimal.mem_ofInt hc with h | h
  · exact .inl h
  · exact .inr (.inl h)

theorem compact_name {name : Str} (h : name.all Char.isUpper = true) : Compact name := by
  intro c hc
  have hupper : c.isUpper = true := all_eq_true.mp h c hc
  refine ⟨Text.isWhitespace_of_isAlpha (by rw [Text.isAlpha_eq, hupper, Bool.true_or]), ?_⟩
  rintro rfl
  exact absurd hupper (by decide)

/-- A name of capital letters is read as it is. -/
theorem readPart_field {here : TimeZone} {s : Reading} {name value : Str} (hname : name.all Char.isUpper = true)
    (hvalue : Compact value) : readPart here s (name ++ '=' :: value) = readField here s (name ++ '=' :: value) name value := by
  have hup : ∀ c ∈ name, c.isUpper = true := all_eq_true.mp hname
  have heq : '=' ∉ name := fun hm => absurd (hup _ hm) (by decide)
  have hupper : upper name = name :=
    (map_congr_left fun c hc => Ics.toUpper_of_isUpper (hup c hc)).trans (map_id name)
  rw [readPart, Text.splitOnce_append _ heq]
  simp only [(compact_name hname).trim, hupper, hvalue.trim]

/-- The parts can be told apart in a rule, and take one reading to another. -/
structure Reads (here : TimeZone) (parts : List Str) (s s' : Reading) : Prop where
  good : ∀ p ∈ parts, p ≠ [] ∧ Compact p
  fold : parts.foldlM (readPart here) s = .ok s'

theorem Reads.nil {here : TimeZone} {s : Reading} : Reads here [] s s := ⟨forall_mem_nil _, rfl⟩

variable {s' : Reading}

theorem Reads.append {here : TimeZone} {a b : List Str} {s s'' : Reading} (ha : Reads here a s s')
    (hb : Reads here b s' s'') : Reads here (a ++ b) s s'' := by
  constructor
  · intro p hp
    rcases mem_append.mp hp with hp | hp
    · exact ha.good p hp
    · exact hb.good p hp
  · rw [foldlM_append, ha.fold]
    exact hb.fold

theorem reads_field {here : TimeZone} {s : Reading} (name value : Str) (hname : name.all Char.isUpper = true)
    (hvalue : Compact value) (h : readField here s (name ++ '=' :: value) name value = .ok s') :
    Reads here [name ++ '=' :: value] s s' := by
  have heq : Compact ['='] := compact_of_all rfl
  constructor
  · intro p hp
    rw [mem_singleton.mp hp]
    exact ⟨by simp, (compact_name hname).append (heq.append hvalue)⟩
  · rw [foldlM_cons, readPart_field hname hvalue, h]
    rfl

theorem join_eq_intercalate (c : Char) : ∀ pieces : List Str, Text.join [c] pieces = [c].intercalate pieces
  | [] => rfl
  | [a] => by simp [Text.join]
  | a :: b :: rest => by
    rw [Text.join_cons_cons, join_eq_intercalate c (b :: rest), intercalate_cons_cons, append_assoc]

/-- The parts are read one after another, and then the rule they make is looked at. -/
theorem parse_join {here : TimeZone} {first : Str} {rest : List Str} {s : Reading}
    (hfirst : first.head? = some 'F') (h : Reads here (first :: rest) Reading.start s) :
    parseWithMonth here (Text.join [';'] (first :: rest)) = finish s := by
  have hparts := h.good
  have hspace : ∀ c ∈ Text.join [';'] (first :: rest), Text.isWhitespace c = false := by
    intro c hc
    rcases Text.mem_join hc with hc | ⟨p, hp, hc⟩
    · rw [mem_singleton.mp hc]
      rfl
    · exact ((hparts p hp).2 c hc).1
  have hhead : (Text.join [';'] (first :: rest)).head? = some 'F' := by
    cases rest with
    | nil => exact hfirst
    | cons b rest =>
      rw [Text.join_cons_cons, head?_append, hfirst]
      rfl
  have hbody : ruleBody (Text.join [';'] (first :: rest)) = Text.join [';'] (first :: rest) := by
    unfold ruleBody
    rw [Text.trim_of_no_space hspace]
    cases hj : Text.join [';'] (first :: rest) with
    | nil =>
      rw [hj] at hhead
      cases hhead
    | cons c text =>
      rw [hj, head?_cons, some.injEq] at hhead
      subst hhead
      rfl
  have hsplit : (Text.join [';'] (first :: rest)).splitOn ';' = first :: rest := by
    rw [join_eq_intercalate]
    apply splitOn_intercalate _ _ (cons_ne_nil _ _)
    intro p hp hm
    exact ((hparts p hp).2 ';' hm).2 rfl
  have hfilter : (first :: rest).filter (fun part => !(Text.trim part).isEmpty) = first :: rest := by
    rw [filter_eq_self]
    intro p hp
    rw [(hparts p hp).2.trim]
    simpa using (hparts p hp).1
  unfold parseWithMonth
  rw [hbody, hsplit]
  simp only [hfilter]
  rw [h.fold]

/-! ## The parts that are written -/

section Parts

variable {here : TimeZone} {s : Reading}

theorem reads_freq (f : Frequency) : Reads here [freqText f] s { s with freq := some f } := by
  cases f with
  | daily => exact reads_field "FREQ" "DAILY" rfl (compact_of_all rfl) rfl
  | weekly => exact reads_field "FREQ" "WEEKLY" rfl (compact_of_all rfl) rfl
  | monthly => exact reads_field "FREQ" "MONTHLY" rfl (compact_of_all rfl) rfl
  | yearly => exact reads_field "FREQ" "YEARLY" rfl (compact_of_all rfl) rfl

variable {n : Nat}

theorem readPositive_ofNat (h1 : 1 ≤ n) (h2 : n < 65536) (part : Str) : readPositive part (Decimal.ofNat n) = .ok n := by
  unfold readPositive
  rw [Decimal.parseBelow_ofNat h2]
  simp [Option.filter, h1]

theorem reads_interval (h1 : 1 ≤ n) (h2 : n < 65536) :
    Reads here ["INTERVAL=" ++ Decimal.ofNat n] s { s with interval := n } := by
  refine reads_field "INTERVAL" (Decimal.ofNat n) rfl (compact_ofNat n) ?_
  rw [readField, if_neg (by decide), if_pos rfl, readPositive_ofNat h1 h2]
  rfl

theorem reads_count (h1 : 1 ≤ n) (h2 : n < 65536) : Reads here ["COUNT=" ++ Decimal.ofNat n] s { s with count := some n } := by
  refine reads_field "COUNT" (Decimal.ofNat n) rfl (compact_ofNat n) ?_
  rw [readField, if_neg (by decide), if_neg (by decide), if_pos rfl, readPositive_ofNat h1 h2]
  rfl

theorem reads_monthDay (h : 1 ≤ n ∧ n ≤ 31) : Reads here ["BYMONTHDAY=" ++ Decimal.ofNat n] s { s with monthDay := some n } := by
  refine reads_field "BYMONTHDAY" (Decimal.ofNat n) rfl (compact_ofNat n) ?_
  rw [readField, if_neg (by decide), if_neg (by decide), if_neg (by decide), if_neg (by decide),
    if_neg (by decide), if_pos rfl, Decimal.parseBelow_ofNat (by omega)]
  simp [Option.filter, h]

theorem reads_month (h : 1 ≤ n ∧ n ≤ 12) : Reads here ["BYMONTH=" ++ Decimal.ofInt n] s { s with month := some n } := by
  refine reads_field "BYMONTH" (Decimal.ofInt n) rfl (compact_ofInt n) ?_
  have hn : Decimal.ofInt (n : Int) = Decimal.ofNat n := rfl
  rw [readField, if_neg (by decide), if_neg (by decide), if_neg (by decide), if_neg (by decide),
    if_neg (by decide), if_neg (by decide), if_pos rfl, hn, Decimal.parseBelow_ofNat (by omega)]
  simp [Option.filter, h]

variable {d : Nat}

theorem code_plain (h : d < 7) :
    (RRULE_DAYS.getD d []).all (fun c => !Text.isWhitespace c && decide (c ≠ ';') && decide (c ≠ ',')) = true := by
  interval_cases d <;> rfl

theorem compact_code (h : d < 7) : Compact (RRULE_DAYS.getD d []) ∧ ',' ∉ RRULE_DAYS.getD d [] := by
  have hall := all_eq_true.mp (code_plain h)
  constructor
  · intro c hc
    have := hall c hc
    simp only [and_eq_true, not_eq_true', decide_eq_true_eq] at this
    exact this.1
  · intro hc
    have := hall ',' hc
    simp at this

theorem readDay_code (part : Str) (h : d < 7) : readDay part (RRULE_DAYS.getD d []) = .ok (none, d) := by
  interval_cases d <;> rfl

theorem readDay_nth (part : Str) {n : Int} (hn : (1 ≤ n ∧ n ≤ 4) ∨ n = -1) (h : d < 7) :
    readDay part (Decimal.ofInt n ++ RRULE_DAYS.getD d []) = .ok (some n, d) := by
  obtain rfl | rfl | rfl | rfl | rfl : n = 1 ∨ n = 2 ∨ n = 3 ∨ n = 4 ∨ n = -1 := by omega
  · interval_cases d <;> rfl
  · interval_cases d <;> rfl
  · interval_cases d <;> rfl
  · interval_cases d <;> rfl
  · interval_cases d <;> rfl

theorem mapM_readDay (part : Str) : ∀ {days : List Nat}, (∀ d ∈ days, d < 7) →
    (days.map fun d => RRULE_DAYS.getD d []).mapM (readDay part) = .ok (days.map fun d => (none, d))
  | [], _ => rfl
  | d :: days, h => by
    have ih := mapM_readDay part fun x hx => h x (mem_cons_of_mem _ hx)
    rw [map_cons, mapM_cons, readDay_code part (h d (by simp)), ih]
    rfl

theorem reads_days {days : List Nat} (hne : days ≠ []) (h : ∀ d ∈ days, d < 7) :
    Reads here ["BYDAY=" ++ Text.join [','] (days.map fun d => RRULE_DAYS.getD d [])] s
      { s with ordinalDays := s.ordinalDays ++ days.map fun d => (none, d) } := by
  have hcompact : Compact (Text.join [','] (days.map fun d => RRULE_DAYS.getD d [])) := by
    intro c hc
    rcases Text.mem_join hc with hc | ⟨p, hp, hc⟩
    · rw [mem_singleton.mp hc]
      exact ⟨rfl, by decide⟩
    · obtain ⟨d, hd, rfl⟩ := mem_map.mp hp
      exact (compact_code (h d hd)).1 c hc
  have hsplit : (Text.join [','] (days.map fun d => RRULE_DAYS.getD d [])).splitOn ',' =
      days.map fun d => RRULE_DAYS.getD d [] := by
    rw [join_eq_intercalate]
    apply splitOn_intercalate _ _ (by simpa using hne)
    intro p hp
    obtain ⟨d, hd, rfl⟩ := mem_map.mp hp
    exact (compact_code (h d hd)).2
  refine reads_field "BYDAY" (Text.join [','] (days.map fun d => RRULE_DAYS.getD d [])) rfl hcompact ?_
  rw [readField, if_neg (by decide), if_neg (by decide), if_neg (by decide), if_neg (by decide), if_pos rfl,
    hsplit, mapM_readDay _ h]
  rfl

theorem reads_nth {n : Int} (hn : (1 ≤ n ∧ n ≤ 4) ∨ n = -1) (h : d < 7) :
    Reads here ["BYDAY=" ++ Decimal.ofInt n ++ RRULE_DAYS.getD d []] s
      { s with ordinalDays := s.ordinalDays ++ [(some n, d)] } := by
  have hcompact := (compact_ofInt n).append (compact_code h).1
  have hcomma : ',' ∉ Decimal.ofInt n ++ RRULE_DAYS.getD d [] := by
    intro hm
    rcases mem_append.mp hm with hm | hm
    · rcases Decimal.mem_ofInt hm with hm | hm
      · exact absurd hm (by decide)
      · exact absurd hm (by decide)
    · exact (compact_code h).2 hm
  have hsplit : (Decimal.ofInt n ++ RRULE_DAYS.getD d []).splitOn ',' = [Decimal.ofInt n ++ RRULE_DAYS.getD d []] :=
    splitOn_eq_singleton hcomma
  refine reads_field "BYDAY" (Decimal.ofInt n ++ RRULE_DAYS.getD d []) rfl hcompact ?_
  rw [readField, if_neg (by decide), if_neg (by decide), if_neg (by decide), if_neg (by decide), if_pos rfl,
    hsplit, mapM_cons, readDay_nth _ hn h]
  rfl

theorem byteLength_date {s : Str} (h : ∀ c ∈ s, c.isDigit = true ∨ c = '-' ∨ c = '+' ∨ c = 'T' ∨ c = 'Z') :
    Text.byteLength s = s.length := by
  have hone : ∀ c ∈ s, c.utf8Size = 1 := by
    intro c hc
    rcases h c hc with hd | rfl | rfl | rfl | rfl
    · have hn : c.val.toNat ≤ 57 := by
        simp only [Char.isDigit, and_eq_true, decide_eq_true_eq, UInt32.le_iff_toNat_le] at hd
        exact hd.2
      rw [Char.utf8Size, if_pos]
      rw [UInt32.le_iff_toNat_le]
      exact Nat.le_trans hn (by decide)
    · rfl
    · rfl
    · rfl
    · rfl
  unfold Text.byteLength
  rw [map_congr_left hone]
  simp

/-- A date that four digits write the year of is read back as its last minute. -/
theorem readUntil_date {date : Int} (h : Civil.FourDigit date) :
    readUntil here (Civil.dateText date) = resolve here (date * day + 86340) := by
  have hlen : Text.byteLength (Civil.dateText date) = 8 := by
    rw [byteLength_date, Civil.length_dateText h]
    intro c hc
    rcases Civil.mem_dateText hc with hc | hc | hc <;> simp [hc]
  unfold readUntil
  rw [if_pos hlen, Civil.readDate_dateText h]
  rfl

/-- So is a time in UTC, as the last minute of the day it falls on here. -/
theorem readUntil_stamp {last : Int} (h : Civil.FourDigit (last / 86400)) :
    readUntil here (Civil.stampText last ++ ['Z']) = resolve here (here.toLocal last / day * day + 86340) := by
  have hlen : Text.byteLength (Civil.stampText last ++ ['Z']) ≠ 8 := by
    rw [byteLength_date]
    · have : (Civil.stampText last).length = 15 := by
        unfold Civil.stampText
        rw [length_append, Civil.length_dateText h]
        rfl
      simp [this]
    · intro c hc
      rcases mem_append.mp hc with hc | hc
      · rcases Civil.mem_stampText hc with hc | hc | hc | hc <;> simp [hc]
      · simp [mem_singleton.mp hc]
  unfold readUntil
  rw [if_neg hlen, getLast?_concat, dropLast_concat, Civil.readStamp_stampText h]
  rfl

end Parts

/-! ## Written and read again -/

/-- What the editors may say in a rule. -/
structure Editable (rule : Recurrence) : Prop where
  interval : 1 ≤ rule.interval ∧ rule.interval < 65536
  weekdays : ∀ w ∈ rule.weekdays, w < 7
  monthWeek : ∀ n, rule.monthWeek = some n → (1 ≤ n ∧ n ≤ 4) ∨ n = -1
  monthDay : ∀ m, rule.monthDay = some m → 1 ≤ m ∧ m ≤ 31
  count : ∀ c, rule.count = some c → 1 ≤ c ∧ c < 65536
  one_end : rule.until_ = none ∨ rule.count = none

/-- A rule with every part spelled out, as it is written. -/
structure Complete (rule : Recurrence) : Prop extends Editable rule where
  daily : rule.freq = .daily → rule.weekdays = [] ∧ rule.monthWeek = none ∧ rule.monthDay = none
  weekly : rule.freq = .weekly → rule.weekdays ≠ [] ∧ rule.monthWeek = none ∧ rule.monthDay = none
  monthly : rule.freq = .monthly ∨ rule.freq = .yearly →
    (∃ n d, rule.monthWeek = some n ∧ rule.weekdays = [d] ∧ rule.monthDay = none) ∨
      (∃ m, rule.monthWeek = none ∧ rule.weekdays = [] ∧ rule.monthDay = some m)

/-- The instant is 23:59 of a day here, and the end of that day has a text: its year has four digits, and a time in
UTC names that day again. -/
def Expressible (here : TimeZone) (allDay : Bool) (u : Int) : Prop :=
  ∃ date, resolve here (date * day + 86340) = some u ∧ here.toLocal u = date * day + 86340 ∧
    representable u = true ∧
      if allDay then Civil.FourDigit date
      else ∃ last, resolve here (date * day + 86399) = some last ∧ here.toLocal last / day = date ∧
        Civil.FourDigit (last / 86400)

/-- The rule with the weekdays of a weekly one in order, each once. -/
def inOrder (rule : Recurrence) : Recurrence :=
  if rule.freq = .weekly then { rule with weekdays := (rule.weekdays.insertionSort (· ≤ ·)).dedup } else rule

section RoundTrip

variable {here : TimeZone} {rule : Recurrence} {a : Int} {allDay : Bool} {s : Reading}

theorem reads_until {u : Int} (hu : Expressible here allDay u) :
    Reads here ((untilText here (here.toLocal u / day) allDay).map ("UNTIL=".toList ++ ·)).toList s
      { s with until_ := some u } := by
  obtain ⟨date, hres, hlocal, -, htext⟩ := hu
  have hdate : here.toLocal u / day = date := by
    unfold day at hlocal ⊢
    omega
  have hread : ∀ text, Compact text → readUntil here text = some u →
      Reads here ["UNTIL=" ++ text] s { s with until_ := some u } := by
    intro text hcompact hr
    refine reads_field "UNTIL" text rfl hcompact ?_
    rw [readField, if_neg (by decide), if_neg (by decide), if_neg (by decide), if_pos rfl, hr]
  rw [hdate]
  unfold untilText
  cases allDay with
  | true =>
    rw [if_pos rfl] at htext ⊢
    apply hread
    · exact compact_digits fun c hc => by rcases Civil.mem_dateText hc with h | h | h <;> simp [h]
    · rw [readUntil_date htext, hres]
  | false =>
    rw [if_neg Bool.false_ne_true] at htext ⊢
    obtain ⟨last, hlast, hday, hfour⟩ := htext
    rw [hlast]
    apply hread
    · have hz : Compact ['Z'] := compact_of_all rfl
      exact (compact_digits fun c hc => Civil.mem_stampText hc).append hz
    · rw [readUntil_stamp hfour, hday, hres]

theorem reads_end (he : Editable rule) (hu : ∀ u, rule.until_ = some u → Expressible here allDay u)
    (hs : s.until_ = none ∧ s.count = none) :
    Reads here (endParts here rule allDay) s { s with until_ := rule.until_, count := rule.count } := by
  obtain ⟨f, i, su, sc, md, od, m⟩ := s
  obtain ⟨rfl, rfl⟩ := hs
  unfold endParts
  cases hun : rule.until_ with
  | some u =>
    have hnone : rule.count = none := he.one_end.resolve_left (by rw [hun]; exact some_ne_none u)
    have hx := hu u hun
    have hrep : representable u = true := by
      obtain ⟨-, -, -, h, -⟩ := hx
      exact h
    simp only [hrep, if_true, hnone]
    exact reads_until hx
  | none =>
    cases hc : rule.count with
    | none => exact Reads.nil
    | some c =>
      obtain ⟨h1, h2⟩ := he.count c hc
      simp only [Nat.max_eq_left h1]
      exact reads_count h1 h2

theorem reads_intervalPart {i : Nat} (h : 1 ≤ i ∧ i < 65536) (hs : s.interval = 1) :
    Reads here (if 1 < max i 1 then ["INTERVAL=" ++ Decimal.ofNat (max i 1)] else []) s
      { s with interval := i } := by
  rw [Nat.max_eq_left h.1]
  split
  · exact reads_interval h.1 h.2
  · have hi : s.interval = i := by omega
    rw [← hi]
    exact Reads.nil

/-- What is read of a rule, given what is read of its days. -/
theorem parse_format_of {ordinalDays : List (Option Int × Nat)} {monthDay month : Option Nat}
    (he : Editable rule) (hu : ∀ u, rule.until_ = some u → Expressible here allDay u)
    (hdays : ∀ s : Reading, s.ordinalDays = [] → s.monthDay = none → s.month = none →
      Reads here (dayParts rule a) s { s with ordinalDays := ordinalDays, monthDay := monthDay, month := month }) :
    parseWithMonth here (format here rule a allDay) =
      finish ⟨some rule.freq, rule.interval, rule.until_, rule.count, monthDay, ordinalDays, month⟩ := by
  have hfirst : (freqText rule.freq).head? = some 'F' := by cases rule.freq <;> rfl
  have h1 : Reads here [freqText rule.freq] Reading.start _ := reads_freq rule.freq
  have h2 : Reads here _ { Reading.start with freq := some rule.freq } _ := reads_intervalPart he.interval rfl
  have h3 := hdays { Reading.start with freq := some rule.freq, interval := rule.interval } rfl rfl rfl
  have h4 := reads_end (s := ⟨some rule.freq, rule.interval, none, none, monthDay, ordinalDays, month⟩) he hu ⟨rfl, rfl⟩
  exact parse_join hfirst (h1.append (h2.append (h3.append h4)))

theorem weekdayIndex_lt (a : Int) : (weekday a).toNat < 7 := by
  have := Civil.weekday_range a
  omega

theorem monthIndex_range (a : Int) : 1 ≤ (ofDays a).month.toNat ∧ (ofDays a).month.toNat ≤ 12 := by
  have := Civil.ofDays_range a
  omega

theorem dayIndex_range (a : Int) : 1 ≤ (ofDays a).day.toNat ∧ (ofDays a).day.toNat ≤ 31 := by
  have := Civil.ofDays_range a
  omega

theorem complete_anchored (he : Editable rule) (a : Int) : Complete (anchored rule a) := by
  obtain ⟨freq, i, w, u, c, n, m⟩ := rule
  obtain ⟨hi, hw, hn, hm, hc, hend⟩ := he
  have hmax : max i 1 = i := Nat.max_eq_left hi.1
  have hdays : ∀ d ∈ (if w.isEmpty then [(weekday a).toNat] else w), d < 7 := by
    intro d hd
    split at hd
    · rw [mem_singleton.mp hd]
      exact weekdayIndex_lt a
    · exact hw d hd
  have hne : (if w.isEmpty then [(weekday a).toNat] else w) ≠ [] := by
    split
    · exact cons_ne_nil _ _
    · rename_i h
      simpa using h
  have hmonth : ∀ f : Frequency, f = .monthly ∨ f = .yearly → anchored ⟨f, i, w, u, c, n, m⟩ a =
      if n.isSome then ⟨f, i, (if w.isEmpty then [(weekday a).toNat] else w).take 1, u, c, n, none⟩
      else ⟨f, i, [], u, c, n, some (m.getD (ofDays a).day.toNat)⟩ := by
    rintro f (rfl | rfl)
    · simp only [anchored, hmax]
    · simp only [anchored, hmax]
  have hcomplete : ∀ f : Frequency, f = .monthly ∨ f = .yearly → Complete (anchored ⟨f, i, w, u, c, n, m⟩ a) := by
    intro f hf
    rw [hmonth f hf]
    cases n with
    | some n =>
      obtain ⟨d, rest, hcons⟩ := exists_cons_of_ne_nil hne
      have hd : d < 7 := hdays d (by rw [hcons]; exact mem_cons_self)
      rw [hcons]
      exact
        { interval := hi, weekdays := by simpa using hd, monthWeek := hn, monthDay := by simp, count := hc
          one_end := hend
          daily := by rcases hf with rfl | rfl <;> simp
          weekly := by rcases hf with rfl | rfl <;> simp
          monthly := fun _ => .inl ⟨n, d, rfl, rfl, rfl⟩ }
    | none =>
      have hm' : 1 ≤ m.getD (ofDays a).day.toNat ∧ m.getD (ofDays a).day.toNat ≤ 31 := by
        cases m with
        | none => exact dayIndex_range a
        | some m => exact hm m rfl
      exact
        { interval := hi, weekdays := by simp, monthWeek := by simp, monthDay := by simpa using hm', count := hc
          one_end := hend
          daily := by rcases hf with rfl | rfl <;> simp
          weekly := by rcases hf with rfl | rfl <;> simp
          monthly := fun _ => .inr ⟨_, rfl, rfl, rfl⟩ }
  cases freq with
  | daily =>
    simp only [anchored, hmax]
    exact
      { interval := hi, weekdays := by simp, monthWeek := by simp, monthDay := by simp, count := hc, one_end := hend
        daily := fun _ => ⟨rfl, rfl, rfl⟩, weekly := by simp, monthly := by simp }
  | weekly =>
    simp only [anchored, hmax]
    exact
      { interval := hi, weekdays := hdays, monthWeek := by simp, monthDay := by simp, count := hc, one_end := hend
        daily := by simp, weekly := fun _ => ⟨hne, rfl, rfl⟩, monthly := by simp }
  | monthly => exact hcomplete _ (.inl rfl)
  | yearly => exact hcomplete _ (.inr rfl)

/-- The month a rule's text names. -/
def monthOf (rule : Recurrence) (a : Int) : Option Nat :=
  if rule.freq = .yearly then some (ofDays a).month.toNat else none

theorem reads_monthPart {s : Reading} (hs : s.month = none) :
    Reads here (if rule.freq = .yearly then ["BYMONTH=" ++ Decimal.ofInt (ofDays a).month] else []) s
      { s with month := monthOf rule a } := by
  unfold monthOf
  split
  · have hcast : (((ofDays a).month.toNat : Nat) : Int) = (ofDays a).month := by
      have := Civil.ofDays_range a
      omega
    have h : Reads here _ s _ := reads_month (monthIndex_range a)
    rwa [hcast] at h
  · rw [← hs]
    exact Reads.nil

theorem days_eq_inOrder (h : Complete rule) (hf : rule.freq = .weekly) (a : Int) :
    rule.days a = (inOrder rule).weekdays ∧ rule.days a ≠ [] ∧ ∀ d ∈ rule.days a, d < 7 := by
  have hne : rule.weekdays.isEmpty = false := by simpa using (h.weekly hf).1
  have hall : rule.weekdays.filter (· < 7) = rule.weekdays := by
    rw [filter_eq_self]
    intro d hd
    exact decide_eq_true (h.weekdays d hd)
  have hdays : rule.days a = (rule.weekdays.insertionSort (· ≤ ·)).dedup := by
    simp [Recurrence.days, hall, hne]
  have hmem : ∀ d, d ∈ rule.days a ↔ d ∈ rule.weekdays := by
    intro d
    rw [hdays, List.mem_dedup, mem_insertionSort]
  refine ⟨by simp [hdays, inOrder, hf], ?_, fun d hd => h.weekdays d ((hmem d).mp hd)⟩
  intro hnil
  obtain ⟨d, rest, hcons⟩ := exists_cons_of_ne_nil (h.weekly hf).1
  have := (hmem d).mpr (by simp [hcons])
  simp [hnil] at this

/-- The days of a rule, as they are read. -/
def ordinalDays (rule : Recurrence) : List (Option Int × Nat) :=
  match rule.freq, rule.monthWeek with
  | .monthly, some n | .yearly, some n => rule.weekdays.map fun d => (some n, d)
  | _, _ => (inOrder rule).weekdays.map fun d => (none, d)

theorem reads_dayParts (h : Complete rule) {s : Reading} (hs : s.ordinalDays = [] ∧ s.monthDay = none ∧ s.month = none) :
    Reads here (dayParts rule a) s
      { s with ordinalDays := ordinalDays rule, monthDay := rule.monthDay, month := monthOf rule a } := by
  obtain ⟨sf, si, su, sc, sm, sd, smo⟩ := s
  obtain ⟨rfl, rfl, rfl⟩ := hs
  have hmonths : rule.freq = .monthly ∨ rule.freq = .yearly →
      Reads here (dayParts rule a) ⟨sf, si, su, sc, none, [], none⟩
        ⟨sf, si, su, sc, rule.monthDay, ordinalDays rule, monthOf rule a⟩ := by
    intro hf
    have hparts : dayParts rule a =
        (if rule.freq = .yearly then ["BYMONTH=" ++ Decimal.ofInt (ofDays a).month] else []) ++ [match rule.monthWeek with
          | some n =>
            "BYDAY=" ++ Decimal.ofInt n ++ RRULE_DAYS.getD ((rule.weekdays.head?.filter (· < 7)).getD (weekday a).toNat) []
          | none => "BYMONTHDAY=" ++ Decimal.ofNat (rule.monthDay.getD (ofDays a).day.toNat)] := by
      rcases hf with hf | hf <;> simp [dayParts, hf]
    rw [hparts]
    apply Reads.append (reads_monthPart rfl)
    rcases h.monthly hf with ⟨n, d, hn, hd, hm⟩ | ⟨m, hn, hd, hm⟩
    · have hlt : d < 7 := h.weekdays d (by simp [hd])
      have hdays : ordinalDays rule = [(some n, d)] := by
        rcases hf with hf | hf <;> simp [ordinalDays, hf, hn, hd]
      rw [hn, hd, hm, hdays]
      simp only [head?_cons, Option.filter, hlt, decide_true, if_true, getD_some]
      exact reads_nth (h.monthWeek n hn) hlt
    · have hdays : ordinalDays rule = [] := by
        rcases hf with hf | hf <;> simp [ordinalDays, hf, hn, hd, inOrder]
      rw [hn, hm, hdays]
      exact reads_monthDay (h.monthDay m hm)
  cases hf : rule.freq with
  | daily =>
    obtain ⟨hd, hn, hm⟩ := h.daily hf
    have hparts : dayParts rule a = [] := by simp [dayParts, hf]
    have hdays : ordinalDays rule = [] := by simp [ordinalDays, hf, inOrder, hd]
    rw [hparts, hdays, hm, monthOf, if_neg (by simp [hf])]
    exact Reads.nil
  | weekly =>
    obtain ⟨hd, hn, hm⟩ := h.weekly hf
    obtain ⟨heq, hne, hlt⟩ := days_eq_inOrder h hf a
    have hparts : dayParts rule a =
        ["BYDAY=" ++ Text.join [','] ((rule.days a).map fun d => RRULE_DAYS.getD d [])] := by
      simp [dayParts, hf]
    have hdays : ordinalDays rule = (rule.days a).map fun d => (none, d) := by simp [ordinalDays, hf, heq]
    rw [hparts, hdays, hm, monthOf, if_neg (by simp [hf])]
    exact reads_days hne hlt
  | monthly => exact hmonths (.inl hf)
  | yearly => exact hmonths (.inr hf)

section Finish

variable {i : Nat} {u : Option Int} {c : Option Nat} (hend : (u.isSome && c.isSome) = false)

include hend

theorem finish_daily : finish ⟨some .daily, i, u, c, none, [], none⟩ = .ok (⟨.daily, i, [], u, c, none, none⟩, none) := by
  simp [finish, hend]

theorem finish_weekly (days : List Nat) : finish ⟨some .weekly, i, u, c, none, days.map fun d => (none, d), none⟩ =
      .ok (⟨.weekly, i, days, u, c, none, none⟩, none) := by
  simp [finish, hend, Function.comp_def]

theorem finish_nth {f : Frequency} (hf : f = .monthly ∨ f = .yearly) {month : Option Nat}
    (hmonth : month.isSome = decide (f = .yearly)) {n : Int} (hn : (1 ≤ n ∧ n ≤ 4) ∨ n = -1) (d : Nat) :
    finish ⟨some f, i, u, c, none, [(some n, d)], month⟩ = .ok (⟨f, i, [d], u, c, some n, none⟩, month) := by
  rcases hf with rfl | rfl
  · simp only [finish, hend, hmonth]
    simp [hn]
  · simp only [finish, hend]
    cases month with
    | none => cases hmonth
    | some m => simp [hn]

theorem finish_monthDay {f : Frequency} (hf : f = .monthly ∨ f = .yearly) {month : Option Nat}
    (hmonth : month.isSome = decide (f = .yearly)) (m : Option Nat) :
    finish ⟨some f, i, u, c, m, [], month⟩ = .ok (⟨f, i, [], u, c, none, m⟩, month) := by
  rcases hf with rfl | rfl
  · simp only [finish, hend, hmonth]
    simp
  · simp only [finish, hend]
    cases month with
    | none => cases hmonth
    | some m => simp

end Finish

/-- The text of a rule is read back as the rule, its weekdays in order, with the month of a yearly one. -/
theorem parse_format (h : Complete rule) (hu : ∀ u, rule.until_ = some u → Expressible here allDay u) (a : Int) :
    parseWithMonth here (format here rule a allDay) = .ok (inOrder rule, monthOf rule a) := by
  rw [parse_format_of h.toEditable hu fun s h1 h2 h3 => reads_dayParts h ⟨h1, h2, h3⟩]
  have hend : (rule.until_.isSome && rule.count.isSome) = false := by
    rcases h.one_end with h | h <;> simp [h]
  obtain ⟨freq, i, w, u, c, n, m⟩ := rule
  simp only at hend
  have hmonth : freq = .monthly ∨ freq = .yearly → finish ⟨some freq, i, u, c, m, ordinalDays ⟨freq, i, w, u, c, n, m⟩,
      monthOf ⟨freq, i, w, u, c, n, m⟩ a⟩ = .ok (inOrder ⟨freq, i, w, u, c, n, m⟩, monthOf ⟨freq, i, w, u, c, n, m⟩ a) := by
    intro hf
    have hsome : (monthOf ⟨freq, i, w, u, c, n, m⟩ a).isSome = decide (freq = .yearly) := by
      rcases hf with rfl | rfl <;> rfl
    have hsame : inOrder ⟨freq, i, w, u, c, n, m⟩ = ⟨freq, i, w, u, c, n, m⟩ := by
      rcases hf with rfl | rfl <;> rfl
    rw [hsame]
    rcases h.monthly hf with ⟨n', d, rfl, rfl, rfl⟩ | ⟨m', rfl, rfl, rfl⟩
    · rw [← finish_nth hend hf hsome (h.monthWeek n' rfl) d]
      rcases hf with rfl | rfl <;> rfl
    · rw [← finish_monthDay hend hf hsome]
      rcases hf with rfl | rfl <;> rfl
  cases freq with
  | daily =>
    obtain ⟨rfl, rfl, rfl⟩ := h.daily rfl
    exact finish_daily hend
  | weekly =>
    obtain ⟨-, rfl, rfl⟩ := h.weekly rfl
    exact finish_weekly hend _
  | monthly => exact hmonth (.inl rfl)
  | yearly => exact hmonth (.inr rfl)

end RoundTrip

/-! ## What is read -/

structure Reading.Good (s : Reading) : Prop where
  interval : 1 ≤ s.interval ∧ s.interval < 65536
  count : ∀ c, s.count = some c → 1 ≤ c ∧ c < 65536
  monthDay : ∀ m, s.monthDay = some m → 1 ≤ m ∧ m ≤ 31
  days : ∀ p ∈ s.ordinalDays, p.2 < 7

theorem Reading.good_start : Reading.start.Good where
  interval := by decide
  count := by simp [Reading.start]
  monthDay := by simp [Reading.start]
  days := by simp [Reading.start]

theorem dayCode_lt {text : Str} {d : Nat} (h : dayCode text = some d) : d < 7 := by
  have hlen : RRULE_DAYS.length = 7 := rfl
  exact hlen ▸ (findIdx?_eq_some_iff_getElem.mp h).1

variable {part : Str}

theorem readDay_lt {text : Str} {p : Option Int × Nat} (h : readDay part text = .ok p) : p.2 < 7 := by
  unfold readDay at h
  simp only at h
  split at h
  · cases h
  · split at h
    · cases h
    · rename_i hcode
      have hlt := dayCode_lt hcode
      split at h
      · rw [← Except.ok.inj h]
        exact hlt
      · split at h
        · rw [← Except.ok.inj h]
          exact hlt
        · cases h

theorem readPositive_range {value : Str} {n : Nat} (h : readPositive part value = .ok n) : 1 ≤ n ∧ n < 65536 := by
  unfold readPositive at h
  split at h
  · rename_i hn
    rw [← Except.ok.inj h]
    obtain ⟨hlt, hpos⟩ := filter_eq_some_iff.mp hn
    exact ⟨of_decide_eq_true hpos, Decimal.parseBelow_lt hlt⟩
  · cases h

theorem readField_good {here : TimeZone} {s : Reading} {name value : Str} (hs : s.Good)
    (h : readField here s part name value = .ok s') : s'.Good := by
  unfold readField at h
  split at h
  · obtain ⟨f, -, rfl⟩ := Fallible.map_ok.mp h
    exact { hs with }
  split at h
  · obtain ⟨n, hn, rfl⟩ := Fallible.map_ok.mp h
    exact { hs with interval := readPositive_range hn }
  split at h
  · obtain ⟨n, hn, rfl⟩ := Fallible.map_ok.mp h
    exact { hs with count := fun c hc => some.inj hc ▸ readPositive_range hn }
  split at h
  · split at h
    · rw [← Except.ok.inj h]
      exact { hs with }
    · cases h
  split at h
  · obtain ⟨days, hdays, rfl⟩ := Fallible.map_ok.mp h
    have hlt := Fallible.mapM_ok (fun _ _ hp => readDay_lt hp) hdays
    exact
      { hs with
        days := fun p hp => (mem_append.mp hp).elim (hs.days p) (hlt p) }
  split at h
  · split at h
    · rename_i hd
      rw [← Except.ok.inj h]
      exact { hs with monthDay := fun m hm => some.inj hm ▸ of_decide_eq_true (filter_eq_some_iff.mp hd).2 }
    · cases h
  split at h
  · split at h
    · rw [← Except.ok.inj h]
      exact { hs with }
    · cases h
  split at h
  · rw [← Except.ok.inj h]
    exact hs
  · cases h

theorem readPart_good {here : TimeZone} {s : Reading} (hs : s.Good) (h : readPart here s part = .ok s') : s'.Good := by
  unfold readPart at h
  split at h
  · exact readField_good hs h
  · cases h

theorem finish_editable {s : Reading} {rule : Recurrence} {month : Option Nat} (hs : s.Good)
    (h : finish s = .ok (rule, month)) : Editable rule := by
  unfold finish at h
  split at h
  · cases h
  rename_i freq hfreq
  simp only at h
  split at h
  · cases h
  rename_i hboth
  have hend : s.until_ = none ∨ s.count = none := by
    cases hu : s.until_ with
    | none => exact .inl rfl
    | some u =>
      cases hc : s.count with
      | none => exact .inr rfl
      | some c => simp [hu, hc] at hboth
  have hrule : ∀ (freq : Frequency) (days : List Nat) (n : Option Int), (∀ d ∈ days, d < 7) →
      (∀ k, n = some k → (1 ≤ k ∧ k ≤ 4) ∨ k = -1) →
      Editable ⟨freq, s.interval, days, s.until_, s.count, n, s.monthDay⟩ :=
    fun _ _ _ hdays hn => ⟨hs.interval, hdays, hn, hs.monthDay, hs.count, hend⟩
  have hdays : ∀ d ∈ s.ordinalDays.map (·.2), d < 7 := by
    intro d hd
    obtain ⟨p, hp, rfl⟩ := mem_map.mp hd
    exact hs.days p hp
  have hkind : (freq = .daily ∨ freq = .weekly) ∨ freq = .monthly ∨ freq = .yearly := by
    cases freq <;> simp
  rcases hkind with (rfl | rfl) | rfl | rfl
  -- daily and weekly: the days are those of the text, whatever their order
  iterate 2
    simp only at h
    split at h
    · cases h
    split at h
    · split at h
      · cases h
      · cases h
        exact hrule _ _ _ hdays (by simp)
    · cases h
      exact hrule _ _ _ hdays (by simp)
  -- monthly and yearly: no day, or one with its number
  iterate 2
    simp only at h
    split at h
    · cases h
    split at h
    · split at h
      · cases h
      · cases h
        exact hrule _ _ _ (by simp) (by simp)
    · rename_i n d hone
      split at h
      · cases h
      rename_i hn
      split at h
      · cases h
      split at h
      · cases h
      · cases h
        have hd : d < 7 := hs.days (some n, d) (by rw [hone]; exact mem_singleton_self _)
        refine hrule _ _ _ (by simpa using hd) ?_
        intro k hk
        rw [← some.inj hk]
        exact not_not.mp hn
    · cases h

/-- What a text is read as is a rule the editors may say. -/
theorem parse_editable {here : TimeZone} {text : Str} {rule : Recurrence} {month : Option Nat}
    (h : parseWithMonth here text = .ok (rule, month)) : Editable rule := by
  unfold parseWithMonth at h
  simp only at h
  split at h
  · rename_i hfold
    exact finish_editable (Fallible.foldlM_ok (fun _ _ _ => readPart_good) Reading.good_start hfold) h
  · cases h

/-! ## Rewritten -/

section Rewritten

variable {here : TimeZone} {rule : Recurrence}

theorem inOrder_eq (hf : rule.freq ≠ .weekly) : inOrder rule = rule := if_neg hf

theorem days_inOrder (rule : Recurrence) (current : Int) : (inOrder rule).days current = rule.days current := by
  by_cases hf : rule.freq = .weekly
  · have hw : (inOrder rule).weekdays = (rule.weekdays.insertionSort (· ≤ ·)).dedup := by rw [inOrder, if_pos hf]
    have hmem : ∀ k, k ∈ (inOrder rule).weekdays ↔ k ∈ rule.weekdays := by
      intro k
      rw [hw, List.mem_dedup, mem_insertionSort]
    have hnil : (inOrder rule).weekdays.filter (· < 7) = [] ↔ rule.weekdays.filter (· < 7) = [] := by
      simp only [filter_eq_nil_iff, hmem]
    have hsame : ∀ k, k ∈ (inOrder rule).days current ↔ k ∈ rule.days current := by
      intro k
      simp only [mem_days, hnil, hmem]
    have hperm : List.Perm ((inOrder rule).days current) (rule.days current) :=
      (perm_ext_iff_of_nodup (nodup_dedup _) (nodup_dedup _)).mpr hsame
    exact hperm.eq_of_pairwise' (sorted_days _ _) (sorted_days _ _)
  · rw [inOrder_eq hf]

/-- The order of the weekdays changes no date. -/
theorem nextDate_inOrder (rule : Recurrence) (current : Int) :
    nextDate here (inOrder rule) current = nextDate here rule current := by
  by_cases hf : rule.freq = .weekly
  · have hfollow : (inOrder rule).following current = rule.following current := by
      have hdays := days_inOrder rule current
      have hfreq : (inOrder rule).freq = .weekly := by rw [inOrder, if_pos hf]; exact hf
      have hint : (inOrder rule).interval = rule.interval := by rw [inOrder, if_pos hf]
      simp only [Recurrence.following, hfreq, hf, hdays, hint]
    have hcount : (inOrder rule).count = rule.count := by rw [inOrder, if_pos hf]
    have huntil : (inOrder rule).untilDate here = rule.untilDate here := by rw [inOrder, if_pos hf]; rfl
    simp only [nextDate, hfollow, hcount, huntil]
  · rw [inOrder_eq hf]

/-- **A rule survives its text**: what is written of an anchored rule is read back as the rule, its weekdays in order
and with the month of a yearly one, and a rule that was read comes back from a rewriting with the same dates. -/
theorem text_kept (here : TimeZone) (allDay : Bool) :
    (∀ rule a, Editable rule → (∀ u, rule.until_ = some u → Expressible here allDay u) →
      parseWithMonth here (format here (anchored rule a) a allDay) =
        .ok (inOrder (anchored rule a), if rule.freq = .yearly then some (ofDays a).month.toNat else none)) ∧
    ∀ text rule a, parse here text = .ok rule → (∀ u, rule.until_ = some u → Expressible here allDay u) →
      parse here (format here (anchored rule a) a allDay) = .ok (inOrder (anchored rule a)) ∧
        ∀ current, nextDate here (inOrder (anchored rule a)) current = nextDate here (anchored rule a) current := by
  have hfirst : ∀ rule a, Editable rule → (∀ u, rule.until_ = some u → Expressible here allDay u) →
      parseWithMonth here (format here (anchored rule a) a allDay) =
        .ok (inOrder (anchored rule a), if rule.freq = .yearly then some (ofDays a).month.toNat else none) := by
    intro rule a he hu
    rw [parse_format (complete_anchored he a) (by rwa [anchored_until]) a, monthOf, anchored_freq]
  refine ⟨hfirst, fun text rule a hparse hu => ⟨?_, nextDate_inOrder _⟩⟩
  obtain ⟨⟨rule', month⟩, hread, hrule⟩ := Fallible.map_ok.mp hparse
  subst hrule
  rw [parse, hfirst _ a (parse_editable hread) hu]
  rfl

/-- Tuesdays and Fridays until the end of 2026, in Madrid, and every Sunday. -/
theorem tuesdays_kept : ∃ rule, parse madrid "FREQ=WEEKLY;BYDAY=TU,FR;UNTIL=20261231" = .ok rule ∧
    parse madrid (format madrid (anchored rule 20600) 20600 true) = .ok (inOrder (anchored rule 20600)) ∧
      parseWithMonth madrid (format madrid (anchored sundays 20600) 20600 false) =
        .ok (inOrder (anchored sundays 20600), none) := by
  have hread : parse madrid "FREQ=WEEKLY;BYDAY=TU,FR;UNTIL=20261231" =
      .ok ⟨.weekly, 1, [1, 4], some 1798754340, none, none, none⟩ := by
    decide +kernel
  have hu : ∀ u, some (1798754340 : Int) = some u → Expressible madrid true u := by
    intro u hu
    rw [← some.inj hu]
    exact ⟨20818, by decide +kernel, by decide +kernel, by decide +kernel, by decide +kernel, by decide +kernel⟩
  have hs : Editable sundays :=
    { interval := by decide, weekdays := by decide, monthWeek := by simp [sundays], monthDay := by simp [sundays]
      count := by simp [sundays], one_end := .inl rfl }
  exact ⟨_, hread, ((text_kept madrid true).2 _ _ 20600 hread hu).1,
    (text_kept madrid false).1 sundays 20600 hs (by simp [sundays])⟩

/-- **The weekdays are written in order, and a year after 9999 is not read back**: Friday and Monday come back as Monday
and Friday, and the last minute of 1 January 10000 not at all. -/
theorem friday_monday_sorted : (parse madrid "FREQ=WEEKLY;BYDAY=FR,MO").toOption.map (anchored · 20600) =
        some ⟨.weekly, 1, [4, 0], none, none, none, none⟩ ∧
      (parse madrid "FREQ=WEEKLY;BYDAY=FR,MO").bind
        (fun rule => parse madrid (format madrid (anchored rule 20600) 20600 true)) =
          .ok ⟨.weekly, 1, [0, 4], none, none, none, none⟩ ∧
      resolve madrid (2932897 * day + 86340) = some 253402379940 ∧
      parse madrid (format madrid (anchored ⟨.daily, 1, [], some 253402379940, none, none, none⟩ 20600) 20600 true) =
        .error "UNTIL=+100000101" := by
  decide +kernel

end Rewritten

end Oreneta.Calendar

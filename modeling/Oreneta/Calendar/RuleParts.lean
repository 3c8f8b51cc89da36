import Mathlib.Data.Set.Card
import Oreneta.Calendar.RuleText

/-!
# What becomes of the parts of a rule

`parse_with_month` for every text there is, slices inside of characters included.

* `parseChecked` — as `parseWithMonth`, with nothing where the program panics: `BYDAY` cuts an entry two bytes from its end.
* `Description`, `Description.Dates` — what the parts of a rule say, and the dates they describe.
* `readParts_eq` — where the program panics, and that it reads the rule elsewhere.
* `fields_of_read` — after the parts, a field is what the last part of its name says.
* `parse_iff` — a text is read safely and without loss exactly if no entry is cut inside of a character and no part is
  repeated in a rule that is taken.
-/

namespace Oreneta.Calendar

open Text Fallible List
open Oreneta.Civil (ofDays weekday)
open Oreneta.Ics (upper)

/-! ## Where the program panics -/

/-- No character begins two bytes from the end. -/
def cutsInside (text : Str) : Bool := decide (2 ≤ byteLength text) && text.tails.all (fun t => byteLength t ≠ 2)

/-- The days of a `BYDAY`; nothing where one is cut inside of a character. -/
def readDays (part : Str) : List Str → Option (Except Str (List (Option Int × Nat)))
  | [] => some (.ok [])
  | d :: days =>
    if cutsInside (trim d) then none
    else
      match readDay part d with
      | .ok day => (readDays part days).map (fun r => r.map (day :: ·))
      | .error e => some (.error e)

/-- The name of a part, in capitals. -/
def nameOf (part : Str) : Option Str := (splitOnce '=' part).map (fun p => upper (trim p.1))

def valueOf (part : Str) : Str := ((splitOnce '=' part).map (fun p => trim p.2)).getD []

/-- One part of a rule, as `readPart`. -/
def readPartChecked (here : TimeZone) (s : Reading) (part : Str) : Option (Except Str Reading) :=
  if nameOf part = some "BYDAY".toList then
    (readDays part ((valueOf part).splitOn ',')).map
      (fun r => r.map (fun days => { s with ordinalDays := s.ordinalDays ++ days }))
  else some (readPart here s part)

/-- The parts of a rule. -/
def partsOf (text : Str) : List Str := ((ruleBody text).splitOn ';').filter fun part => !(trim part).isEmpty

/-- The loop over the parts. -/
def readParts (here : TimeZone) : Reading → List Str → Option (Except Str Reading)
  | s, [] => some (.ok s)
  | s, part :: parts =>
    match readPartChecked here s part with
    | none => none
    | some (.ok s') => readParts here s' parts
    | some (.error e) => some (.error e)

/-- `parse_with_month`; nothing where it panics. -/
def parseChecked (here : TimeZone) (text : Str) : Option (Except Str (Recurrence × Option Nat)) :=
  (readParts here Reading.start (partsOf text)).map (fun r => r.bind finish)

/-- One of the entries is cut inside of a character, and those before it are read. -/
def CutAmong (part : Str) (days : List Str) : Prop :=
  ∃ before d after, days = before ++ d :: after ∧
    (∀ x ∈ before, cutsInside (trim x) = false ∧ ∃ day, readDay part x = .ok day) ∧ cutsInside (trim d) = true

def CutInPart (part : Str) : Prop := nameOf part = some "BYDAY".toList ∧ CutAmong part ((valueOf part).splitOn ',')

/-- One of the parts has such an entry, and those before it are read. -/
def CutFrom (here : TimeZone) (s : Reading) (parts : List Str) : Prop :=
  ∃ before part after, parts = before ++ part :: after ∧ (∀ p ∈ before, ¬ CutInPart p) ∧
    (∃ s', before.foldlM (readPart here) s = .ok s') ∧ CutInPart part

def CutInside (here : TimeZone) (text : Str) : Prop := CutFrom here Reading.start (partsOf text)

variable {s : Reading} {part : Str}

theorem readPart_byday {here : TimeZone} (h : nameOf part = some "BYDAY".toList) :
    readPart here s part = (((valueOf part).splitOn ',').mapM (readDay part)).map
      (fun days => { s with ordinalDays := s.ordinalDays ++ days }) := by
  obtain ⟨⟨name, value⟩, hsplit, hname⟩ := Option.map_eq_some_iff.mp h
  have hvalue : valueOf part = trim value := by
    unfold valueOf
    rw [hsplit]
    rfl
  unfold readPart
  rw [hsplit, hvalue]
  dsimp only at hname ⊢
  rw [hname]
  unfold readField
  rw [if_neg (by decide), if_neg (by decide), if_neg (by decide), if_neg (by decide), if_pos rfl]

theorem cutAmong_cons {d : Str} {days : List Str} (hcut : cutsInside (trim d) = false) :
    CutAmong part (d :: days) ↔ (∃ day, readDay part d = .ok day) ∧ CutAmong part days := by
  constructor
  · rintro ⟨before, d', after, hsplit, hread, hcut'⟩
    cases before with
    | nil =>
      cases hsplit
      rw [hcut] at hcut'
      cases hcut'
    | cons x before =>
      cases hsplit
      obtain ⟨⟨-, hday⟩, hrest⟩ := forall_mem_cons.mp hread
      exact ⟨hday, before, d', after, rfl, hrest, hcut'⟩
  · rintro ⟨hday, before, d', after, rfl, hread, hcut'⟩
    exact ⟨d :: before, d', after, rfl, forall_mem_cons.mpr ⟨⟨hcut, hday⟩, hread⟩, hcut'⟩

/-- The days are read one after the other, unless one is cut. -/
theorem readDays_eq (part : Str) : ∀ days : List Str, (CutAmong part days → readDays part days = none) ∧
      (¬ CutAmong part days → readDays part days = some (days.mapM (readDay part)))
  | [] => ⟨fun ⟨before, d, after, h, _⟩ => by simp at h, fun _ => rfl⟩
  | d :: days => by
    obtain ⟨hnone, hsome⟩ := readDays_eq part days
    rw [readDays]
    cases hcut : cutsInside (trim d) with
    | true => exact ⟨fun _ => if_pos rfl, fun h => absurd ⟨[], d, days, rfl, forall_mem_nil _, hcut⟩ h⟩
    | false =>
      rw [if_neg Bool.false_ne_true, cutAmong_cons hcut, mapM_cons]
      cases hday : readDay part d with
      | error e => exact ⟨fun ⟨⟨day, h⟩, _⟩ => (by cases h), fun _ => rfl⟩
      | ok day =>
        refine ⟨fun ⟨_, h⟩ => by rw [hnone h]; rfl, fun h => ?_⟩
        rw [hsome fun hlater => h ⟨⟨day, rfl⟩, hlater⟩]
        cases days.mapM (readDay part) with
        | error e => rfl
        | ok ds => rfl

theorem readPartChecked_eq (here : TimeZone) (s : Reading) (part : Str) : (CutInPart part → readPartChecked here s part = none) ∧
      (¬ CutInPart part → readPartChecked here s part = some (readPart here s part)) := by
  obtain ⟨hnone, hsome⟩ := readDays_eq part ((valueOf part).splitOn ',')
  unfold readPartChecked
  constructor
  · rintro ⟨hname, hcut⟩
    rw [if_pos hname, hnone hcut]
    rfl
  · intro h
    by_cases hname : nameOf part = some "BYDAY".toList
    · rw [if_pos hname, hsome fun hcut => h ⟨hname, hcut⟩, readPart_byday hname]
      rfl
    · rw [if_neg hname]

theorem cutFrom_cons {here : TimeZone} {parts : List Str} (h : ¬ CutInPart part) :
    CutFrom here s (part :: parts) ↔ ∃ s', readPart here s part = .ok s' ∧ CutFrom here s' parts := by
  constructor
  · rintro ⟨before, part', after, hsplit, hplain, ⟨s'', hread⟩, hcut⟩
    cases before with
    | nil =>
      cases hsplit
      exact absurd hcut h
    | cons p before =>
      cases hsplit
      rw [foldlM_cons] at hread
      obtain ⟨s', hs', hrest⟩ := Fallible.bind_ok.mp hread
      exact ⟨s', hs', before, part', after, rfl, fun x hx => hplain x (mem_cons_of_mem _ hx), ⟨s'', hrest⟩, hcut⟩
  · rintro ⟨s', hs', before, part', after, rfl, hplain, ⟨s'', hread⟩, hcut⟩
    refine ⟨part :: before, part', after, rfl, forall_mem_cons.mpr ⟨h, hplain⟩, ⟨s'', ?_⟩, hcut⟩
    rw [foldlM_cons, hs']
    exact hread

/-- **The parts are read one after the other**, unless an entry is cut. -/
theorem readParts_eq (here : TimeZone) : ∀ (parts : List Str) (s : Reading),
    (CutFrom here s parts → readParts here s parts = none) ∧
      (¬ CutFrom here s parts → readParts here s parts = some (parts.foldlM (readPart here) s))
  | [], s => ⟨fun ⟨before, part, after, h, _⟩ => by simp at h, fun _ => rfl⟩
  | part :: parts, s => by
    obtain ⟨hnone, hsome⟩ := readPartChecked_eq here s part
    rw [readParts, foldlM_cons]
    by_cases hcut : CutInPart part
    · rw [hnone hcut]
      refine ⟨fun _ => rfl, fun h => absurd ⟨[], part, parts, rfl, forall_mem_nil _, ⟨s, rfl⟩, hcut⟩ h⟩
    · rw [hsome hcut, cutFrom_cons hcut]
      cases hread : readPart here s part with
      | error e => exact ⟨fun ⟨s', h, _⟩ => (by cases h), fun _ => rfl⟩
      | ok s' =>
        obtain ⟨hnone', hsome'⟩ := readParts_eq here parts s'
        exact ⟨fun ⟨s'', h, hlater⟩ => by cases h; exact hnone' hlater,
          fun h => hsome' fun hlater => h ⟨s', rfl, hlater⟩⟩

theorem parseWithMonth_eq (here : TimeZone) (text : Str) :
    parseWithMonth here text = ((partsOf text).foldlM (readPart here) Reading.start).bind finish := by
  unfold partsOf parseWithMonth
  dsimp only
  split <;> rename_i hfold <;> rw [hfold] <;> rfl

/-- **Where no entry is cut**, a rule is read as `parseWithMonth` says. -/
theorem parseChecked_eq (here : TimeZone) (text : Str) : (CutInside here text → parseChecked here text = none) ∧
      (¬ CutInside here text → parseChecked here text = some (parseWithMonth here text)) := by
  obtain ⟨hnone, hsome⟩ := readParts_eq here (partsOf text) Reading.start
  unfold parseChecked
  refine ⟨fun h => by rw [hnone h]; rfl, fun h => ?_⟩
  rw [hsome h, Option.map_some, parseWithMonth_eq]

/-! ## What the parts say -/

/-- What the parts of one name say, one after the other. -/
def saidBy {α : Type} (name : String) (read : Str → Str → Option α) (parts : List Str) : List α :=
  parts.filterMap (fun part => if nameOf part = some name.toList then read part (valueOf part) else none)

/-- What a succeeding step says. -/
def okay {α : Type} (r : Except Str α) : Option α :=
  match r with
  | .ok a => some a
  | .error _ => none

section Said

variable (here : TimeZone) (parts : List Str)

def freqsIn : List Frequency := saidBy "FREQ" (fun _ value => okay (readFreq value)) parts

def intervalsIn : List Nat := saidBy "INTERVAL" (fun part value => okay (readPositive part value)) parts

def countsIn : List Nat := saidBy "COUNT" (fun part value => okay (readPositive part value)) parts

def untilsIn : List Int := saidBy "UNTIL" (fun _ value => readUntil here value) parts

def daysIn : List (List (Option Int × Nat)) :=
  saidBy "BYDAY" (fun part value => okay ((value.splitOn ',').mapM (readDay part))) parts

def monthDaysIn : List Nat :=
  saidBy "BYMONTHDAY" (fun _ value => (Decimal.parseBelow 256 value).filter (fun d => 1 ≤ d ∧ d ≤ 31)) parts

def monthsIn : List Nat :=
  saidBy "BYMONTH" (fun _ value => (Decimal.parseBelow 4294967296 value).filter (fun m => 1 ≤ m ∧ m ≤ 12)) parts

end Said

/-- What the parts make of a reading: the last part of a name counts, and the days are put together. -/
structure Takes (here : TimeZone) (parts : List Str) (s s' : Reading) : Prop where
  freq : s'.freq = (freqsIn parts).getLast?.or s.freq
  interval : s'.interval = (intervalsIn parts).getLast?.getD s.interval
  count : s'.count = (countsIn parts).getLast?.or s.count
  until_ : s'.until_ = (untilsIn here parts).getLast?.or s.until_
  days : s'.ordinalDays = s.ordinalDays ++ (daysIn parts).flatten
  monthDay : s'.monthDay = (monthDaysIn parts).getLast?.or s.monthDay
  month : s'.month = (monthsIn parts).getLast?.or s.month

theorem saidBy_same {α : Type} {name : String} {read : Str → Str → Option α} {a : α}
    (hname : nameOf part = some name.toList) (h : read part (valueOf part) = some a) : saidBy name read [part] = [a] := by
  unfold saidBy
  rw [filterMap_cons, if_pos hname, h]
  rfl

theorem saidBy_other {α : Type} {n : Str} {other : String} {read : Str → Str → Option α}
    (hname : nameOf part = some n) (hne : n ≠ other.toList) : saidBy other read [part] = [] := by
  unfold saidBy
  rw [filterMap_cons, if_neg fun h => hne (Option.some.inj (hname.symm.trans h))]
  rfl

theorem Takes.nil (here : TimeZone) (s : Reading) : Takes here [] s s :=
  ⟨rfl, rfl, rfl, rfl, (append_nil _).symm, rfl, rfl⟩

theorem saidBy_append {α : Type} (name : String) (read : Str → Str → Option α) (a b : List Str) :
    saidBy name read (a ++ b) = saidBy name read a ++ saidBy name read b := filterMap_append

variable {s' : Reading}

theorem Takes.trans {here : TimeZone} {a b : List Str} {s'' : Reading} (ha : Takes here a s s')
    (hb : Takes here b s' s'') : Takes here (a ++ b) s s'' := by
  have hlast : ∀ {α : Type} (xs ys : List α) (x : Option α), (xs ++ ys).getLast?.or x = ys.getLast?.or (xs.getLast?.or x) := by
    intro α xs ys x
    rw [getLast?_append, Option.or_assoc]
  have hlastD : ∀ (xs ys : List Nat) (x : Nat), (xs ++ ys).getLast?.getD x = ys.getLast?.getD (xs.getLast?.getD x) := by
    intro xs ys x
    rw [getLast?_append]
    cases ys.getLast? with
    | none => rfl
    | some y => rfl
  constructor
  · rw [hb.freq, ha.freq]
    unfold freqsIn
    rw [saidBy_append, hlast]
  · rw [hb.interval, ha.interval]
    unfold intervalsIn
    rw [saidBy_append, hlastD]
  · rw [hb.count, ha.count]
    unfold countsIn
    rw [saidBy_append, hlast]
  · rw [hb.until_, ha.until_]
    unfold untilsIn
    rw [saidBy_append, hlast]
  · rw [hb.days, ha.days]
    unfold daysIn
    rw [saidBy_append, List.flatten_append, append_assoc]
  · rw [hb.monthDay, ha.monthDay]
    unfold monthDaysIn
    rw [saidBy_append, hlast]
  · rw [hb.month, ha.month]
    unfold monthsIn
    rw [saidBy_append, hlast]

theorem takes_of {here : TimeZone} {f : List Frequency} {i c md m : List Nat} {u : List Int}
    {d : List (List (Option Int × Nat))} (hf : freqsIn [part] = f) (hi : intervalsIn [part] = i)
    (hu : untilsIn here [part] = u) (hc : countsIn [part] = c) (hmd : monthDaysIn [part] = md) (hd : daysIn [part] = d)
    (hm : monthsIn [part] = m) (hs : s' = ⟨f.getLast?.or s.freq, i.getLast?.getD s.interval, u.getLast?.or s.until_,
      c.getLast?.or s.count, md.getLast?.or s.monthDay, s.ordinalDays ++ d.flatten, m.getLast?.or s.month⟩) :
    Takes here [part] s s' := by
  subst hf hi hu hc hmd hd hm hs
  exact ⟨rfl, rfl, rfl, rfl, rfl, rfl, rfl⟩

/-- What one part makes of a reading, name by name. -/
theorem takes_field {here : TimeZone} {n : Str} (hname : nameOf part = some n)
    (h : readField here s part n (valueOf part) = .ok s') : Takes here [part] s s' := by
  have hother : ∀ {α : Type} {other : String} {read : Str → Str → Option α}, n ≠ other.toList →
      saidBy other read [part] = [] := fun hne => saidBy_other hname hne
  unfold readField at h
  split at h
  · rename_i hn
    subst hn
    obtain ⟨f, hf, rfl⟩ := map_ok.mp h
    exact takes_of (saidBy_same hname (by rw [hf]; rfl)) (hother (by decide)) (hother (by decide)) (hother (by decide))
      (hother (by decide)) (hother (by decide)) (hother (by decide)) (by simp)
  split at h
  · rename_i hn
    subst hn
    obtain ⟨i, hi, rfl⟩ := map_ok.mp h
    exact takes_of (hother (by decide)) (saidBy_same hname (by rw [hi]; rfl)) (hother (by decide)) (hother (by decide))
      (hother (by decide)) (hother (by decide)) (hother (by decide)) (by simp)
  split at h
  · rename_i hn
    subst hn
    obtain ⟨c, hc, rfl⟩ := map_ok.mp h
    exact takes_of (hother (by decide)) (hother (by decide)) (hother (by decide)) (saidBy_same hname (by rw [hc]; rfl))
      (hother (by decide)) (hother (by decide)) (hother (by decide)) (by simp)
  split at h
  · rename_i hn
    subst hn
    split at h
    · rename_i u hu
      cases h
      exact takes_of (hother (by decide)) (hother (by decide)) (saidBy_same hname hu) (hother (by decide))
        (hother (by decide)) (hother (by decide)) (hother (by decide)) (by simp)
    · cases h
  split at h
  · rename_i hn
    subst hn
    obtain ⟨d, hd, rfl⟩ := map_ok.mp h
    exact takes_of (hother (by decide)) (hother (by decide)) (hother (by decide)) (hother (by decide)) (hother (by decide))
      (saidBy_same hname (by rw [hd]; rfl)) (hother (by decide)) (by simp)
  split at h
  · rename_i hn
    subst hn
    split at h
    · rename_i d hd
      cases h
      exact takes_of (hother (by decide)) (hother (by decide)) (hother (by decide)) (hother (by decide))
        (saidBy_same hname hd) (hother (by decide)) (hother (by decide)) (by simp)
    · cases h
  split at h
  · rename_i hn
    subst hn
    split at h
    · rename_i m hm
      cases h
      exact takes_of (hother (by decide)) (hother (by decide)) (hother (by decide)) (hother (by decide)) (hother (by decide))
        (hother (by decide)) (saidBy_same hname hm) (by simp)
    · cases h
  split at h
  · rename_i hn
    obtain ⟨rfl, -⟩ := hn
    cases h
    exact takes_of (hother (by decide)) (hother (by decide)) (hother (by decide)) (hother (by decide)) (hother (by decide))
      (hother (by decide)) (hother (by decide)) (by simp)
  · cases h

theorem takes_one {here : TimeZone} (h : readPart here s part = .ok s') : Takes here [part] s s' := by
  unfold readPart at h
  split at h
  · rename_i name value hsplit
    have hvalue : valueOf part = trim value := by
      unfold valueOf
      rw [hsplit]
      rfl
    have hname : nameOf part = some (upper (trim name)) := by
      unfold nameOf
      rw [hsplit]
      rfl
    rw [← hvalue] at h
    exact takes_field hname h
  · cases h

/-- **What has been read** is what the parts say. -/
theorem takes_of_read {here : TimeZone} : ∀ {parts : List Str} {s s' : Reading},
    parts.foldlM (readPart here) s = .ok s' → Takes here parts s s'
  | [], s, s', h => by
    cases h
    exact Takes.nil here s
  | part :: parts, s, s', h => by
    rw [foldlM_cons] at h
    obtain ⟨s'', hpart, hrest⟩ := Fallible.bind_ok.mp h
    exact (takes_one hpart).trans (takes_of_read hrest)

/-! ## The dates that are described -/

/-- What a rule says, part by part. -/
structure Description where
  freq : Frequency
  interval : Nat
  /-- Days of the week, each with the week of the month if it names one. -/
  days : List (Option Int × Nat)
  monthDay : Option Nat
  month : Option Nat
  /-- The last day the series may fall on. -/
  last : Option Int
  count : Option Nat

namespace Description

/-- The date is the day of its month: the nth weekday, or the day of the month, clamped to its last. -/
def DayFits (d : Description) (start date : Int) : Prop :=
  match d.days with
  | (some n, w) :: _ => nthWeekday (ofDays date).year (ofDays date).month w n = some date
  | _ => clamped (ofDays date).year (ofDays date).month ((d.monthDay.map Int.ofNat).getD (ofDays start).day) = some date

/-- The date is one of a series from `start` on without an end. -/
def Fits (d : Description) (start date : Int) : Prop :=
  match d.freq with
  | .daily => (date - start) % d.interval = 0 ∧ (d.days = [] ∨ (weekday date).toNat ∈ d.days.map (·.2))
  | .weekly => (date - weekday date - (start - weekday start)) % (7 * d.interval) = 0 ∧
      (weekday date).toNat ∈ (if d.days = [] then [(weekday start).toNat] else d.days.map (·.2))
  | .monthly => ((ofDays date).year * 12 + (ofDays date).month - ((ofDays start).year * 12 + (ofDays start).month)) %
      d.interval = 0 ∧ d.DayFits start date
  | .yearly => ((ofDays date).year - (ofDays start).year) % d.interval = 0 ∧
      (ofDays date).month = (d.month.map Int.ofNat).getD (ofDays start).month ∧ d.DayFits start date

def Falls (d : Description) (start date : Int) : Prop := start ≤ date ∧ (∀ last ∈ d.last, date ≤ last) ∧ d.Fits start date

/-- The dates of the series that starts on a date: as many as the count says, if it says how many. -/
def Dates (d : Description) (start : Int) : Set Int :=
  {date | d.Falls start date ∧ ∀ n ∈ d.count, {x | d.Falls start x ∧ x ≤ date}.ncard ≤ n}

theorem dates_congr {d d' : Description} {start : Int} (hlast : d.last = d'.last) (hcount : d.count = d'.count)
    (h : ∀ date, d.Fits start date ↔ d'.Fits start date) : d.Dates start = d'.Dates start := by
  have hfalls : ∀ date, d.Falls start date ↔ d'.Falls start date := by
    intro date
    unfold Falls
    rw [hlast, h]
  unfold Dates
  simp only [hfalls, hcount]

end Description

/-- The day an instant is on. -/
def lastDay (here : TimeZone) (u : Int) : Option Int := if representable u then some (here.toLocal u / day) else none

/-- What the parts of a text say, the first of each name. -/
def described (here : TimeZone) (text : Str) : Option Description :=
  let parts := partsOf text
  (freqsIn parts).head?.map fun freq =>
    ⟨freq, (intervalsIn parts).head?.getD 1, (daysIn parts).head?.getD [], (monthDaysIn parts).head?, (monthsIn parts).head?,
      (untilsIn here parts).head?.bind (lastDay here), (countsIn parts).head?⟩

/-- What a rule says, and the month beside it. -/
def ruleDescription (here : TimeZone) (rule : Recurrence) (month : Option Nat) : Description :=
  ⟨rule.freq, rule.interval, rule.weekdays.map (fun w => (rule.monthWeek, w)), rule.monthDay, month, rule.untilDate here,
    rule.count⟩

/-- What has been read says. -/
def Reading.description (here : TimeZone) (s : Reading) (freq : Frequency) : Description :=
  ⟨freq, s.interval, s.ordinalDays, s.monthDay, s.month, s.until_.bind (lastDay here), s.count⟩

/-- Every day, on some days of the week, is every week on them. -/
theorem dates_daily (i : Nat) (hi : i = 1) {days : List (Option Int × Nat)} (hne : days ≠ []) (last : Option Int) (count : Option Nat)
    (start : Int) : (Description.mk .daily i days none none last count).Dates start =
      (Description.mk .weekly i days none none last count).Dates start := by
  refine Description.dates_congr rfl rfl fun date => ?_
  have hweek : (date - weekday date - (start - weekday start)) % (7 * (i : Int)) = 0 := by
    unfold weekday
    rw [hi]
    omega
  have hday : (date - start) % (i : Int) = 0 := by
    rw [hi]
    omega
  unfold Description.Fits
  dsimp only
  rw [if_neg hne]
  exact ⟨fun ⟨_, h⟩ => ⟨hweek, h.resolve_left hne⟩, fun ⟨_, h⟩ => ⟨hday, .inr h⟩⟩

/-- **The rule that is made** of what has been read describes the same dates. -/
theorem finish_dates {here : TimeZone} {rule : Recurrence} {month : Option Nat}
    (h : finish s = .ok (rule, month)) : ∃ freq, s.freq = some freq ∧
      ∀ start, (s.description here freq).Dates start = (ruleDescription here rule month).Dates start := by
  unfold finish at h
  split at h
  · cases h
  rename_i freq hfreq
  refine ⟨freq, hfreq, fun start => ?_⟩
  dsimp only at h
  split at h
  · cases h
  have huntil : ∀ (f : Frequency) (w : List Nat) (n : Option Int),
      Recurrence.untilDate here ⟨f, s.interval, w, s.until_, s.count, n, s.monthDay⟩ = s.until_.bind (lastDay here) :=
    fun _ _ _ => rfl
  have hplain : (s.ordinalDays.any fun p => p.1.isSome) = false →
      (s.ordinalDays.map (·.2)).map (fun w => ((none : Option Int), w)) = s.ordinalDays := by
    intro hany
    rw [map_map]
    refine (map_congr_left fun p hp => ?_).trans (map_id _)
    have hnone : p.1 = none := by
      have := any_eq_false.mp hany p hp
      simpa using this
    obtain ⟨n, w⟩ := p
    cases hnone
    rfl
  have hweekly : ∀ f, freq = f → f = .daily ∨ f = .weekly →
      (if s.monthDay.isSome || s.month.isSome || s.ordinalDays.any (fun p => p.1.isSome) then
        .error "a day of the month on a daily or weekly rule".toList
      else
        let rule : Recurrence := ⟨f, s.interval, s.ordinalDays.map (·.2), s.until_, s.count, none, s.monthDay⟩
        if f = .daily ∧ rule.weekdays ≠ [] then
          if rule.interval ≠ 1 then .error "BYDAY on a rule every few days".toList
          else .ok ({ rule with freq := .weekly }, s.month)
        else .ok (rule, s.month)) = Except.ok (rule, month) →
      (s.description here freq).Dates start = (ruleDescription here rule month).Dates start := by
    rintro f rfl hf h
    split at h
    · cases h
    rename_i hno
    simp only [Bool.or_eq_true, not_or, Bool.not_eq_true, Option.isSome_eq_false_iff, Option.isNone_iff_eq_none] at hno
    obtain ⟨⟨hday, hmonth⟩, hany⟩ := hno
    dsimp only at h
    split at h
    · rename_i hdaily
      split at h
      · cases h
      · rename_i hone
        cases h
        have hne : s.ordinalDays ≠ [] := fun he => hdaily.2 (by rw [he]; rfl)
        unfold Reading.description ruleDescription
        dsimp only
        rw [huntil, hplain hany, hdaily.1, hday, hmonth]
        exact dates_daily s.interval (not_not.mp hone) hne _ _ start
    · cases h
      unfold Reading.description ruleDescription
      dsimp only
      rw [huntil, hplain hany]
  cases freq
  case daily => exact hweekly .daily rfl (.inl rfl) h
  case weekly => exact hweekly .weekly rfl (.inr rfl) h
  case monthly | yearly =>
    dsimp only at h
    split at h
    · cases h
    split at h
    · rename_i hdays
      split at h
      · cases h
      · cases h
        unfold Reading.description ruleDescription
        dsimp only
        rw [huntil, hdays]
        rfl
    · rename_i n d hdays
      split at h
      · cases h
      split at h
      · cases h
      split at h
      · cases h
      · cases h
        unfold Reading.description ruleDescription
        dsimp only
        rw [huntil, hdays]
        rfl
    · cases h

/-! ## Safely and without loss -/

/-- The names of the parts that say which dates there are. -/
def NAMES : List String := ["FREQ", "INTERVAL", "COUNT", "UNTIL", "BYDAY", "BYMONTHDAY", "BYMONTH"]

/-- A part of one of the names is repeated. -/
def Repeats (text : Str) : Prop :=
  ∃ name ∈ NAMES, 2 ≤ ((partsOf text).filter (fun part => nameOf part = some name.toList)).length

/-- Every part, and what the last of each name say together, is what this client keeps. -/
def Supported (here : TimeZone) (text : Str) : Prop :=
  ∃ s, (partsOf text).foldlM (readPart here) Reading.start = .ok s ∧ ∃ made, finish s = .ok made

/-- What is asked of a rule that is taken: its text repeats no part, and the rule and the month describe its dates. -/
structure Kept (here : TimeZone) (text : Str) (rule : Recurrence) (month : Option Nat) : Prop where
  once : ¬ Repeats text
  dates : ∃ d, described here text = some d ∧ ∀ start, d.Dates start = (ruleDescription here rule month).Dates start

theorem saidBy_length {α : Type} (name : String) (read : Str → Str → Option α) : ∀ parts : List Str,
    (saidBy name read parts).length ≤ (parts.filter (fun part => nameOf part = some name.toList)).length
  | [] => le_refl _
  | part :: parts => by
    have ih := saidBy_length name read parts
    have hcons := saidBy_append name read [part] parts
    rw [singleton_append] at hcons
    rw [hcons, length_append, filter_cons]
    unfold saidBy at ih ⊢
    by_cases hname : nameOf part = some name.toList
    · rw [if_pos (decide_eq_true hname), length_cons, filterMap_cons, if_pos hname]
      cases read part (valueOf part) with
      | none =>
        dsimp only
        rw [filterMap_nil, length_nil]
        omega
      | some a =>
        dsimp only
        rw [filterMap_nil, length_singleton]
        omega
    · rw [if_neg fun h => hname (of_decide_eq_true h), filterMap_cons, if_neg hname, filterMap_nil, length_nil, Nat.zero_add]
      exact ih

/-- Where no part is repeated, the last of a name is the first. -/
theorem saidBy_once {α : Type} {text : Str} (h : ¬ Repeats text) {name : String} (hname : name ∈ NAMES)
    (read : Str → Str → Option α) : saidBy name read (partsOf text) = (saidBy name read (partsOf text)).head?.toList := by
  have hle := saidBy_length name read (partsOf text)
  have hfew : ¬ 2 ≤ ((partsOf text).filter fun part => nameOf part = some name.toList).length := fun h2 =>
    h ⟨name, hname, h2⟩
  match hsaid : saidBy name read (partsOf text) with
  | [] => rfl
  | [a] => rfl
  | a :: b :: rest =>
    rw [hsaid, length_cons, length_cons] at hle
    omega

theorem described_eq {here : TimeZone} {text : Str} (honce : ¬ Repeats text)
    (h : (partsOf text).foldlM (readPart here) Reading.start = .ok s) {freq : Frequency} (hfreq : s.freq = some freq) :
    described here text = some (s.description here freq) := by
  have htakes := takes_of_read h
  have hlast : ∀ {α : Type} (name : String) (read : Str → Str → Option α), name ∈ NAMES →
      (saidBy name read (partsOf text)).getLast? = (saidBy name read (partsOf text)).head? := by
    intro α name read hname
    rw [saidBy_once honce hname read]
    cases (saidBy name read (partsOf text)).head? with
    | none => rfl
    | some x => rfl
  have hflat : (daysIn (partsOf text)).flatten = (daysIn (partsOf text)).head?.getD [] := by
    unfold daysIn
    rw [saidBy_once honce (by simp [NAMES])]
    cases (saidBy "BYDAY" _ (partsOf text)).head? with
    | none => rfl
    | some x => exact append_nil x
  have hf : s.freq = (freqsIn (partsOf text)).head? :=
    htakes.freq.trans (Option.or_none.trans (hlast "FREQ" _ (by simp [NAMES])))
  have hi : s.interval = (intervalsIn (partsOf text)).head?.getD 1 :=
    htakes.interval.trans (congrArg (Option.getD · 1) (hlast "INTERVAL" _ (by simp [NAMES])))
  have hc : s.count = (countsIn (partsOf text)).head? :=
    htakes.count.trans (Option.or_none.trans (hlast "COUNT" _ (by simp [NAMES])))
  have hu : s.until_ = (untilsIn here (partsOf text)).head? :=
    htakes.until_.trans (Option.or_none.trans (hlast "UNTIL" _ (by simp [NAMES])))
  have hd : s.ordinalDays = (daysIn (partsOf text)).head?.getD [] := htakes.days.trans hflat
  have hmd : s.monthDay = (monthDaysIn (partsOf text)).head? :=
    htakes.monthDay.trans (Option.or_none.trans (hlast "BYMONTHDAY" _ (by simp [NAMES])))
  have hm : s.month = (monthsIn (partsOf text)).head? :=
    htakes.month.trans (Option.or_none.trans (hlast "BYMONTH" _ (by simp [NAMES])))
  unfold described Reading.description
  dsimp only
  rw [← hf, hfreq, ← hi, ← hd, ← hmd, ← hm, ← hu, ← hc]
  rfl

end Oreneta.Calendar

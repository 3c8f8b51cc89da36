import Oreneta.Calendar.ClockTime
import Oreneta.Ics.Kept
import Oreneta.Lib.Trim

/-!
# iCalendar: a series moved by one of its occurrences

An edit of a whole series is made on one occurrence, and `patch_event` carries it to the first date as a difference
of instants.

* `SeriesMove` — an occurrence of a series in a named zone, at the time of the series, moved to another time.
* `TimeChosen` — the new `DTSTART` shows the time chosen, as many days after the old one as the occurrence was moved.
* `series_moved_iff` — it does exactly if the first date exists on the clock and the clock changes by as much between
  its old and its new instant as between the occurrence's.
* `moved_over_change` — an occurrence moved over a change of the clock.
-/

namespace Oreneta.Ics

open ContentLines Text Civil List Option Bool

/-- The value of a property that holds times, up to the first comma. -/
def timeValue (line : Str) : Str := trim ((afterColon line).takeWhile (fun c => c ≠ ','))

/-- What a clock shows at the time a property names: the time written, or one in UTC on that clock. -/
def clockTime (z : TimeZone) (line : Str) : Option Int :=
  if (timeValue line).getLast? = some 'Z' then (readStamp (timeValue line).dropLast).map z.toLocal
  else readStamp (timeValue line)

/-- An occurrence of a series whose first date is `naive` on the clock of `z`, moved and saved with the whole series. -/
structure SeriesMove (p : Platform) (ics : Str) (event : Event) (m : MainEvent) (line name : Str) (z : TimeZone)
    (naive original : Int) : Prop where
  main : mainOf (pieces (unfold ics)) = some m
  /-- The alarms of the event are whole components. -/
  alarms : alarmsWhole .start m.body = true
  /-- Its own DTSTART is the first. -/
  dtstart : (ownLines 0 m.body).find? (named "DTSTART") = some line
  first : m.body.find? (named "DTSTART") = some line
  zone : tzidOf line = some name
  known : p.zone name = some z
  /-- The zones written as UTC are. -/
  utc : utcNames.contains name = true → ∀ t, z.offset t = 0
  timed : octets (timeValue line) ≠ 8 ∧ (timeValue line).getLast? ≠ some 'Z'
  value : readStamp (timeValue line) = some naive
  series : m.body.any (named "RRULE") = true ∨ event.recurrence.isSome = true
  occurrence : ∃ uid, occurrenceOf event.id = some (uid, original)
  on_time : z.toLocal original % day = naive % day
  allDay : event.allDay = false
  held : Calendar.representable original = true ∧ Calendar.representable event.start = true

/-- The new first date of an object shows the time of `start`, as many days after `naive` as `start` is after
`original`. -/
def TimeChosen (z : TimeZone) (naive original start : Int) (lines : List Str) : Prop :=
  ∃ m line local_, mainOf (pieces lines) = some m ∧
    (ownLines 0 m.body).filter (named "DTSTART") = [line] ∧ clockTime z line = some local_ ∧
    local_ % day = z.toLocal start % day ∧
    local_ / day - naive / day = z.toLocal start / day - z.toLocal original / day

/-! ## A time as it is written -/

theorem afterColon_append {head rest : Str} (h : ':' ∉ head) : afterColon (head ++ ':' :: rest) = rest := by
  unfold afterColon
  have hdrop : (head ++ ':' :: rest).dropWhile (fun c => decide (c ≠ ':')) = ':' :: rest := by
    rw [dropWhile_append_of_pos]
    · rfl
    · intro c hc
      exact decide_eq_true fun he => h (he ▸ hc)
  rw [hdrop]
  rfl

theorem timeValue_append {head rest : Str} (h : ':' ∉ head)
    (hrest : ∀ c ∈ rest, isWhitespace c = false ∧ c ≠ ',') : timeValue (head ++ ':' :: rest) = rest := by
  have htake : rest.takeWhile (fun c => decide (c ≠ ',')) = rest :=
    takeWhile_eq_self_iff.mpr fun c hc => decide_eq_true (hrest c hc).2
  unfold timeValue
  rw [afterColon_append h, htake, trim_of_no_space fun c hc => (hrest c hc).1]

theorem plain_stampText {t : Int} {c : Char} (h : c ∈ stampText t) : isWhitespace c = false ∧ c ≠ ',' := by
  rcases mem_stampText h with h | rfl | rfl | rfl
  · refine ⟨isWhitespace_of_isDigit h, ?_⟩
    rintro rfl
    exact absurd h (by decide)
  · decide
  · decide
  · decide

theorem plain_utc {t : Int} {c : Char} (h : c ∈ utc t) : isWhitespace c = false ∧ c ≠ ',' := by
  rcases mem_append.mp h with h | h
  · exact plain_stampText h
  · rw [mem_singleton.mp h]
    decide

theorem getLast_stampText (t : Int) : (stampText t).getLast? ≠ some 'Z' := by
  intro h
  rcases mem_stampText (mem_of_mem_getLast? h) with h | h | h | h <;> cases h

theorem readStamp_stampText_eq (t : Int) : readStamp (stampText t) = if FourDigit (t / 86400) then some t else none := by
  split
  · rename_i h
    exact readStamp_stampText h
  · rename_i h
    exact readStamp_stampText_eq_none h

theorem clockTime_utc (z : TimeZone) (t : Int) : clockTime z ("DTSTART" ++ ':' :: utc t) =
    (readStamp (stampText (held t))).map z.toLocal := by
  have hvalue : timeValue ("DTSTART" ++ ':' :: utc t) = utc t :=
    timeValue_append (by decide) fun c hc => plain_utc hc
  unfold clockTime
  rw [hvalue, utc, getLast?_concat, if_pos rfl, dropLast_concat]

theorem clockTime_zone (z : TimeZone) {name : Str} (hname : ':' ∉ name) (x : Int) :
    clockTime z ("DTSTART" ++ ";TZID=" ++ name ++ ':' :: stampText x) =
      readStamp (stampText x) := by
  have hhead : ':' ∉ "DTSTART" ++ ";TZID=" ++ name := by
    intro h
    rcases mem_append.mp h with h | h
    · exact absurd h (by decide)
    · exact hname h
  unfold clockTime
  rw [timeValue_append hhead fun c hc => plain_stampText hc, if_neg (getLast_stampText x)]

/-- What is read of a time that was written: nothing where its year takes more than four digits, and the epoch where
`chrono` cannot hold it. -/
theorem clockTime_timeProperty (p : Platform) {name : Str} {z : TimeZone} (hz : p.zone name = some z)
    (hutc : utcNames.contains name = true → ∀ t, z.offset t = 0) (t : Int) :
    clockTime z (timeProperty p "DTSTART" t false (some name)) =
      if Calendar.representable t = false then some (z.toLocal 0)
      else if FourDigit (z.toLocal t / 86400) then some (z.toLocal t) else none := by
  have hcolon : ':' ∉ name := by
    intro h
    rcases p.zone_chars name z hz ':' h with h | h
    · exact absurd h (by decide)
    · exact absurd h (by decide)
  have hepoch : Calendar.representable t = false →
      clockTime z ("DTSTART" ++ ':' :: utc t) = some (z.toLocal 0) := by
    intro hr
    have hread : readStamp (stampText 0) = some 0 := readStamp_stampText (by decide +kernel)
    rw [clockTime_utc, held, if_neg (by simp [hr]), hread, map_some]
  unfold timeProperty
  rw [if_neg Bool.false_ne_true]
  by_cases hname : utcNames.contains name = true
  · have hlocal : ∀ x, z.toLocal x = x := by
      intro x
      rw [TimeZone.toLocal, hutc hname x, Int.add_zero]
    rw [filter_some, hname]
    simp only [Bool.not_true, false_eq_true, if_false]
    by_cases hr : Calendar.representable t = false
    · rw [if_pos hr, hepoch hr]
    · rw [if_neg hr, clockTime_utc, held, if_pos (by simpa using hr), readStamp_stampText_eq, hlocal]
      split
      · rw [map_some, hlocal]
      · rfl
  · rw [filter_some, eq_false_iff.mpr hname]
    simp only [Bool.not_false, if_true, hz]
    by_cases hr : Calendar.representable t = false
    · rw [if_pos hr, hr, if_neg Bool.false_ne_true, hepoch hr]
    · rw [if_neg hr, if_pos (by simpa using hr), clockTime_zone z hcolon, readStamp_stampText_eq]

/-! ## The new first date -/

theorem plain_ownedLines {p : Platform} {event : Event} {zone : Option Str} {now : Int} :
    ∀ line ∈ ownedLines p event zone now, nameOf line ≠ "BEGIN" ∧ nameOf line ≠ "END" := by
  intro line hline
  obtain ⟨name, hname, hw⟩ := mem_ownedLines hline
  rw [hw.name_eq]
  constructor <;> (rintro rfl; exact absurd hname (by decide))

/-- The end an event is written with: an all-day one takes a day at least. -/
def shownEnd (event : Event) : Int :=
  if event.allDay && event.end_ ≤ event.start then I64.wrap (event.start + 86400) else event.end_

/-- A line under its own name, and under another. -/
theorem Written.filter {own line : Str} (h : Written own line) (name : Str) :
    [line].filter (named name) = if own = name then [line] else [] := by
  unfold named
  rw [filter_singleton, h.name_eq]
  by_cases he : own = name
  · rw [if_pos he, decide_eq_true he]
    rfl
  · rw [if_neg he, decide_eq_false he]
    rfl

/-- The lines of an event under a name, but for the two that may be missing. -/
theorem filter_ownedLines (p : Platform) (event : Event) (zone : Option Str) (now : Int) {name : Str}
    (hlocation : name ≠ "LOCATION") (hdescription : name ≠ "DESCRIPTION") :
    (ownLines 0 (ownedLines p event zone now)).filter (named name) =
      (if "DTSTAMP" = name then ["DTSTAMP:" ++ utc now] else []) ++
      (if "DTSTART" = name then [timeProperty p "DTSTART" event.start event.allDay zone] else []) ++
      (if "DTEND" = name then [timeProperty p "DTEND" (shownEnd event) event.allDay zone] else []) ++
      (if "SUMMARY" = name then ["SUMMARY:" ++ escape event.subject] else []) := by
  have htext : ∀ (own text : Str), capital own = true → own ≠ [] → '\n' ∉ text → Written own (own ++ ':' :: text) :=
    fun own text hcapital hne htext => .of_append hcapital hne (.inl rfl) htext
  have hstamp : Written "DTSTAMP" ("DTSTAMP:" ++ utc now) := htext _ _ (by decide) (by decide) (notMem_utc now)
  have hsummary : Written "SUMMARY" ("SUMMARY:" ++ escape event.subject) :=
    htext _ _ (by decide) (by decide) (notMem_escape event.subject)
  have hsplit : ∀ a b c d : Str, [a, b, c, d] = [a] ++ [b] ++ [c] ++ [d] := fun _ _ _ _ => rfl
  rw [ownLines_of_names plain_ownedLines, ownedLines, filter_append, filter_append, hsplit]
  simp only [filter_append]
  rw [hstamp.filter, (written_timeProperty p (by decide) (by decide) _ _ _).filter,
    (written_timeProperty p (by decide) (by decide) _ _ _).filter, hsummary.filter]
  have hplace : ∀ text : Str, [("LOCATION:" ++ escape text)].filter (named name) = [] := by
    intro text
    have hline : Written "LOCATION" ("LOCATION:" ++ escape text) :=
      htext _ _ (by decide) (by decide) (notMem_escape text)
    rw [hline.filter, if_neg hlocation.symm]
  have hnote : (if (trim event.description).isEmpty then []
      else ["DESCRIPTION:" ++ escape event.description]).filter (named name) = [] := by
    split
    · rfl
    · have hline : Written "DESCRIPTION" ("DESCRIPTION:" ++ escape event.description) :=
        htext _ _ (by decide) (by decide) (notMem_escape _)
      rw [hline.filter, if_neg hdescription.symm]
  rw [hnote, append_nil]
  cases event.location.filter (fun l => !(trim l).isEmpty) with
  | none => rw [filter_nil, append_nil]; rfl
  | some place => rw [hplace, append_nil]; rfl

theorem ownLines_ownedLines (p : Platform) (event : Event) (zone : Option Str) (now : Int) :
    (ownLines 0 (ownedLines p event zone now)).filter (named "DTSTART") =
      [timeProperty p "DTSTART" event.start event.allDay zone] := by
  rw [filter_ownedLines p event zone now (by decide) (by decide), if_neg (by decide), if_pos rfl, if_neg (by decide),
    if_neg (by decide)]
  rfl

/-- After a save the main event has one first date, that of the edit. -/
theorem dtstart_saved {p : Platform} {ics : Str} {event : Event} {wholeSeries : Bool} {removed : List Str} {now : Int}
    {out : Str} (h : patchEvent p ics event wholeSeries removed now = .ok out) (hplain : PlainAddresses event removed)
    (hwhole : ∀ m, mainOf (pieces (unfold ics)) = some m → alarmsWhole .start m.body = true) :
    ∃ m m', mainOf (pieces (unfold ics)) = some m ∧ mainOf (pieces (unfold out)) = some m' ∧
      (ownLines 0 m'.body).filter (named "DTSTART") =
        [timeProperty p "DTSTART" (editedEvent p (m.open_ :: m.body) event wholeSeries).start
          (editedEvent p (m.open_ :: m.body) event wholeSeries).allDay (editedZone p (m.open_ :: m.body) event)] ∧
      nameOf m.open_ = "BEGIN" := by
  obtain ⟨m, before, body, last, after, edited, zone, rule, hm, hcloses, rfl, rfl, hrule, hbody, -, -, hbumped, hout⟩ :=
    patchEvent_main h hplain hwhole
  have hobj := pieces_object (unfold ics)
  rw [(mainOf_some hm).1] at hobj
  have hopen := nameOf_of_begins (begins_of_eq (hobj.closes_mem (mem_append_right _ mem_cons_self)).1)
  refine ⟨m, _, hm, hout, ?_, hopen⟩
  have hnew : NewLines event.recurrence.isSome (ownedLines p (editedEvent p (m.open_ :: m.body) event wholeSeries)
      (editedZone p (m.open_ :: m.body) event) now ++ alarm event.reminderMinutes event.subject ++ rule.toList) :=
    newLines_edit hrule
  obtain ⟨-, halarm, hown, -⟩ := alarm_spec (dropped rule.isNone) event.reminderMinutes event.subject
  have hrule' : (ownLines 0 rule.toList).filter (named "DTSTART") = [] := by
    apply filter_ownLines_eq_nil
    intro line hline hname
    rw [mem_toList, hrule, bind_eq_some_iff] at hline
    obtain ⟨r, -, hline⟩ := hline
    rw [(written_rruleLine hline).name_eq] at hname
    exact absurd hname (by decide)
  have hdropped : dropped rule.isNone "DTSTART" = true := by cases rule.isNone <;> decide
  have hothers := ownLines_others (dropped_names rule.isNone) hdropped m.body .start Place.sound_start hcloses
  have hcloses' := others_closes (dropped_names rule.isNone) m.body .start Place.sound_start hcloses
  have howned := closes_of_names (@plain_ownedLines p (editedEvent p (m.open_ :: m.body) event wholeSeries)
    (editedZone p (m.open_ :: m.body) event) now)
  have hleft : Place.start.left = 0 := rfl
  rw [hleft] at hothers hcloses'
  dsimp only
  rw [(hbumped.own (hbody.closed (rewritten_closes hcloses hnew))).2 _ (by decide),
    hbody.own (rewritten_closes hcloses hnew) (by decide) (by decide), rewritten,
    ownLines_append _ _ _ hcloses', filter_append, hothers, nil_append,
    ownLines_append _ _ _ (closes_append halarm _ _ howned), filter_append, hrule', append_nil,
    ownLines_append _ _ _ howned, hown, append_nil, ownLines_ownedLines]

theorem wrap_of_bounds {x : Int} (h : -9000000000000000000 ≤ x ∧ x ≤ 9000000000000000000) : I64.wrap x = x := by
  unfold I64.wrap
  rw [Int.bmod_def]
  omega

section Moved

variable {p : Platform} {ics : Str} {event : Event} {m : MainEvent} {line name : Str} {z : TimeZone}
  {naive original : Int}

theorem SeriesMove.instant (hs : SeriesMove p ics event m line name z naive original) :
    instantOf p line = (z.ofLocal naive).earliest := by
  have hcolon : ':' ∈ line := by
    by_contra h
    have hz := hs.zone
    rw [tzidOf, if_neg h] at hz
    cases hz
  have hvalue := hs.value
  have htimed := hs.timed
  unfold timeValue at hvalue htimed
  unfold instantOf
  rw [if_pos hcolon, hs.zone, bind_some, hs.known]
  simp only
  rw [if_neg htimed.1, if_neg htimed.2, hvalue]
  rfl

/-- The instant an occurrence stands for is moved from, and the first date with it. -/
theorem SeriesMove.edited (hs : SeriesMove p ics event m line name z naive original) (hopen : nameOf m.open_ = "BEGIN") :
    (editedEvent p (m.open_ :: m.body) event true).start =
        ((z.ofLocal naive).earliest.getD original) + (event.start - original) ∧
      (editedEvent p (m.open_ :: m.body) event true).allDay = false ∧
      editedZone p (m.open_ :: m.body) event = some name := by
  have hno : ∀ {other : Str}, other ≠ "BEGIN" → ¬ named other m.open_ = true := by
    intro other hne hn
    exact hne ((named_iff.mp hn).symm.trans hopen)
  have hseries : ((m.open_ :: m.body).any (named "RRULE") || event.recurrence.isSome) = true := by
    rw [any_cons, eq_false_iff.mpr (hno (by decide)), Bool.false_or, or_eq_true]
    exact hs.series
  have hfind : (m.open_ :: m.body).find? (named "DTSTART") = some line := by
    rw [find?_cons_of_neg (hno (by decide)), hs.first]
  obtain ⟨uid, hid⟩ := hs.occurrence
  have hbase : -9000000086400 ≤ (z.ofLocal naive).earliest.getD original ∧
      (z.ofLocal naive).earliest.getD original ≤ 9000000086400 := by
    have hnaive := readStamp_bounds hs.value
    have horiginal := hs.held.1
    simp only [Calendar.representable, and_eq_true, decide_eq_true_eq] at horiginal
    cases hfirst : (z.ofLocal naive).earliest with
    | none => exact ⟨by rw [getD_none]; omega, by rw [getD_none]; omega⟩
    | some first =>
      have hnear := TimeZone.earliest_near hfirst
      unfold day at hnear
      exact ⟨by rw [getD_some]; omega, by rw [getD_some]; omega⟩
  have hheld := hs.held
  simp only [Calendar.representable, and_eq_true, decide_eq_true_eq] at hheld
  have hwrap : I64.wrap (((z.ofLocal naive).earliest.getD original) + I64.wrap (event.start - original)) =
      ((z.ofLocal naive).earliest.getD original) + (event.start - original) := by
    rw [@wrap_of_bounds (event.start - original) (by omega), wrap_of_bounds (by omega)]
  unfold editedEvent editedZone
  simp only [hseries, hfind, hid, Bool.and_true, if_true, bind_some, map_some, getD_some,
    hs.instant, hwrap, hs.allDay, hs.zone]
  exact ⟨trivial, trivial, trivial⟩

end Moved

/-- **A series keeps the time chosen for one of its occurrences** exactly if its first date exists on the clock, the
new one is in a year of four digits, and the clock changes by as much from the old first date to the new one as from
the occurrence's old time to its new one. -/
theorem series_moved_iff (p : Platform) {ics : Str} {event : Event} {removed : List Str} {now : Int} {out : Str}
    (h : patchEvent p ics event true removed now = .ok out) (hplain : PlainAddresses event removed) {m : MainEvent}
    {line name : Str} {z : TimeZone} {naive original : Int} (hs : SeriesMove p ics event m line name z naive original) :
    TimeChosen z naive original event.start (unfold out) ↔
      ∃ first, (z.ofLocal naive).earliest = some first ∧
        FourDigit (z.toLocal (first + (event.start - original)) / day) ∧
        z.offset (first + (event.start - original)) - z.offset first = z.offset event.start - z.offset original := by
  obtain ⟨m1, m', hm1, hm', hown, hopen⟩ := dtstart_saved h hplain fun m1 hm1 => by
    rw [hs.main] at hm1
    cases hm1
    exact hs.alarms
  rw [hs.main] at hm1
  cases hm1
  obtain ⟨hstart, hallDay, hzone⟩ := hs.edited hopen
  rw [hstart, hallDay, hzone] at hown
  have hread := clockTime_timeProperty p hs.known hs.utc ((z.ofLocal naive).earliest.getD original + (event.start - original))
  have hchosen : TimeChosen z naive original event.start (unfold out) ↔ ∃ l,
      clockTime z (timeProperty p "DTSTART" ((z.ofLocal naive).earliest.getD original + (event.start - original))
        false (some name)) = some l ∧ l % day = z.toLocal event.start % day ∧
      l / day - naive / day = z.toLocal event.start / day - z.toLocal original / day := by
    constructor
    · rintro ⟨m2, line2, l, hm2, hown2, hl⟩
      rw [hm'] at hm2
      cases hm2
      rw [hown, List.cons.injEq] at hown2
      rw [← hown2.1] at hl
      exact ⟨l, hl⟩
    · rintro ⟨l, hl⟩
      exact ⟨m', _, l, hm', hown, hl⟩
  have honTime := hs.on_time
  have hheld := hs.held
  have hoff := z.offset_lt
  rw [hchosen, hread]
  -- what the two parts of the date say together
  have hmove : ∀ l, (l % day = z.toLocal event.start % day ∧
      l / day - naive / day = z.toLocal event.start / day - z.toLocal original / day) ↔
        l - naive = z.toLocal event.start - z.toLocal original := by
    intro l
    unfold day at honTime ⊢
    omega
  simp only [hmove]
  cases hfirst : (z.ofLocal naive).earliest with
  | none =>
    -- the occurrence itself takes the place of the first date
    have hne : z.toLocal original ≠ naive := by
      rintro rfl
      obtain ⟨u, hu⟩ := @TimeZone.earliest_toLocal z original
      rw [hu] at hfirst
      cases hfirst
    have hsame : original + (event.start - original) = event.start := by omega
    rw [getD_none, hsame, if_neg (by rw [hheld.2]; decide)]
    refine iff_of_false ?_ (by simp)
    rintro ⟨l, hl, hmoved⟩
    split at hl
    · rw [← some.inj hl] at hmoved
      exact hne (by omega)
    · cases hl
  | some first =>
    have hlocal := TimeZone.toLocal_of_earliest hfirst
    rw [getD_some]
    have hall : (∃ first', some first = some first' ∧
        FourDigit (z.toLocal (first' + (event.start - original)) / day) ∧
        z.offset (first' + (event.start - original)) - z.offset first' = z.offset event.start - z.offset original) ↔
        FourDigit (z.toLocal (first + (event.start - original)) / day) ∧
        z.offset (first + (event.start - original)) - z.offset first = z.offset event.start - z.offset original := by
      simp
    rw [hall]
    have hz := z.offset_lt (first + (event.start - original))
    have hz0 := z.offset_lt 0
    have hzf := z.offset_lt first
    have hzs := z.offset_lt event.start
    have hzo := z.offset_lt original
    have hnaive : naive = first + z.offset first := hlocal.symm
    generalize hat : first + (event.start - original) = t at hz ⊢
    by_cases hr : Calendar.representable t = false
    · -- the epoch is written, and the date it stands for is not near it
      rw [if_pos hr]
      have hfar : t < -8334601228800 ∨ 8210266876799 < t := by
        by_contra hnear
        rw [Calendar.representable, and_eq_false_iff, decide_eq_false_iff_not, decide_eq_false_iff_not] at hr
        omega
      constructor
      · rintro ⟨l, hl, hmoved⟩
        rw [← some.inj hl] at hmoved
        unfold TimeZone.toLocal day at *
        omega
      · rintro ⟨hfour, -⟩
        have := hfour.bounds
        unfold TimeZone.toLocal day at *
        omega
    · rw [if_neg hr]
      by_cases hfour : FourDigit (z.toLocal t / 86400)
      · rw [if_pos hfour]
        have hday : FourDigit (z.toLocal t / day) := hfour
        constructor
        · rintro ⟨l, hl, hmoved⟩
          rw [← some.inj hl] at hmoved
          refine ⟨hday, ?_⟩
          unfold TimeZone.toLocal at hmoved
          omega
        · rintro ⟨-, hsame⟩
          refine ⟨_, rfl, ?_⟩
          unfold TimeZone.toLocal
          omega
      · rw [if_neg hfour]
        exact iff_of_false (by simp) fun h => hfour h.1

/-! ## Over a change of the clock -/

/-- A machine in Madrid, with its clock of the spring of 2026. -/
def madridOnly : Platform where
  zone := fun name => if name = "Europe/Madrid" then some Calendar.madrid else none
  zone_chars := by
    intro name z h c hc
    split at h
    · rename_i hname
      rw [hname] at hc
      have hall : "Europe/Madrid".toList.all (fun c => c.isAlphanum || c == '/') = true := by decide +kernel
      have hchar := all_eq_true.mp hall c hc
      rw [or_eq_true, beq_iff_eq] at hchar
      rcases hchar with hchar | rfl
      · exact .inl hchar
      · exact .inr (by decide)
    · cases h
  local_ := Calendar.madrid
  localTimezone := "Europe/Madrid"

/-- Every Sunday at nine, from 1 March 2026 on. -/
def sundayLunch : Str :=
  render ["BEGIN:VCALENDAR", "BEGIN:VEVENT", "UID:1",
    "DTSTART;TZID=Europe/Madrid:20260301T090000", "RRULE:FREQ=WEEKLY", "END:VEVENT",
    "END:VCALENDAR"]

/-- The lunch of 22 March, moved. -/
def lunchMoved (start : Int) : Event :=
  ⟨"1@1774166400", "Lunch", none, start, start + 3600, false, none, none, [], none, []⟩

theorem lunch_move {start : Int} (h : Calendar.representable start = true) :
    ∃ m, SeriesMove madridOnly sundayLunch (lunchMoved start) m "DTSTART;TZID=Europe/Madrid:20260301T090000"
      "Europe/Madrid" Calendar.madrid 1772355600 1774166400 := by
  have hsome : (mainOf (pieces (unfold sundayLunch))).isSome = true := by decide +kernel
  obtain ⟨m, hm⟩ := isSome_iff_exists.mp hsome
  have hall : (mainOf (pieces (unfold sundayLunch))).all (fun m => alarmsWhole .start m.body &&
      decide ((ownLines 0 m.body).find? (named "DTSTART") =
        some "DTSTART;TZID=Europe/Madrid:20260301T090000") &&
      decide (m.body.find? (named "DTSTART".toList) = some "DTSTART;TZID=Europe/Madrid:20260301T090000".toList) &&
      m.body.any (named "RRULE")) = true := by decide +kernel
  rw [hm, all_some] at hall
  simp only [and_eq_true, decide_eq_true_eq] at hall
  obtain ⟨⟨⟨hwhole, hown⟩, hfirst⟩, hrule⟩ := hall
  have hid : occurrenceOf "1@1774166400".toList = some ("1".toList, 1774166400) := by decide +kernel
  refine ⟨m, ?_⟩
  exact
    { main := hm, alarms := hwhole, dtstart := hown, first := hfirst
      zone := by decide +kernel
      known := rfl
      utc := fun h => absurd h (by decide +kernel)
      timed := by decide +kernel
      value := by decide +kernel
      series := .inl hrule
      occurrence := ⟨"1", hid⟩
      on_time := by decide +kernel
      allDay := rfl
      held := ⟨by decide +kernel, h⟩ }

/-- The lunch moved to ten o'clock the next day: the series begins on 2 March at ten. -/
theorem lunch_later : ∃ out, patchEvent madridOnly sundayLunch (lunchMoved 1774256400) true [] 0 = .ok out ∧
    TimeChosen Calendar.madrid 1772355600 1774166400 1774256400 (unfold out) := by
  have hok : (patchEvent madridOnly sundayLunch (lunchMoved 1774256400) true [] 0).toOption.isSome = true := by
    decide +kernel
  obtain ⟨out, hout⟩ := ok_of_isSome hok
  obtain ⟨m, hs⟩ := @lunch_move 1774256400 (by decide +kernel)
  have hplain : PlainAddresses (lunchMoved 1774256400) [] :=
    ⟨fun person hp => absurd hp not_mem_nil, fun organizer ho => by cases ho⟩
  refine ⟨out, hout, (series_moved_iff madridOnly hout hplain hs).mpr ?_⟩
  exact ⟨1772352000, by decide +kernel, by decide +kernel, by decide +kernel⟩

/-- **Moved over a change of the clock, the series loses the time**: the lunch moved to nine on 30 March leaves the
series at eight. -/
theorem moved_over_change : ∃ out m,
    SeriesMove madridOnly sundayLunch (lunchMoved 1774854000) m "DTSTART;TZID=Europe/Madrid:20260301T090000"
      "Europe/Madrid" Calendar.madrid 1772355600 1774166400 ∧
    patchEvent madridOnly sundayLunch (lunchMoved 1774854000) true [] 0 = .ok out ∧
    "DTSTART;TZID=Europe/Madrid:20260309T080000".toList ∈ unfold out ∧
    ¬ TimeChosen Calendar.madrid 1772355600 1774166400 1774854000 (unfold out) := by
  have hok : (patchEvent madridOnly sundayLunch (lunchMoved 1774854000) true [] 0).toOption.isSome = true := by
    decide +kernel
  obtain ⟨out, hout⟩ := ok_of_isSome hok
  obtain ⟨m, hs⟩ := @lunch_move 1774854000 (by decide +kernel)
  have hall : (patchEvent madridOnly sundayLunch (lunchMoved 1774854000) true [] 0).toOption.all (fun out =>
      decide ("DTSTART;TZID=Europe/Madrid:20260309T080000".toList ∈ unfold out) &&
        (mainOf (pieces (unfold out))).all (fun m => ((ownLines 0 m.body).filter (named "DTSTART")).all
          (fun line => decide (clockTime Calendar.madrid line = some 1773043200)))) = true := by
    decide +kernel
  rw [hout] at hall
  change (decide _ && _) = true at hall
  rw [and_eq_true, decide_eq_true_eq] at hall
  refine ⟨out, m, hs, hout, hall.1, ?_⟩
  rintro ⟨m', line, l, hm', hown, hl, htime, -⟩
  have hline := hall.2
  rw [hm', all_some, hown, all_cons, all_nil, Bool.and_true, decide_eq_true_eq] at hline
  rw [hline] at hl
  rw [← some.inj hl] at htime
  exact absurd htime (by decide +kernel)

end Oreneta.Ics

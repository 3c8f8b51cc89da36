import Oreneta.Calendar.GivenOnce

/-!
# A reminder that comes due between two looks

Two looks at an account's reminders, at most `MAX_GAP` apart, the first recorded and none recorded
between them; the machine may be in another zone at the second.

* `previousLook_run` — the second look finds the first one's time and offset;
* `candidates_complete` — its query leaves out no reminder that rang in the gap, wherever the reader
  is, unless a lead wrapped around (`Reach`);
* `reckonedZone` — the zone `due` reckons the first look's times in: its own zone when that has the
  offset noted, else a clock standing at that offset;
* `given_between_iff` — what came due in the gap is given exactly if its event has not started, or it
  rang after the first look by that clock;
* `timed_given`, `sameZone_given` — when it is given for certain;
* `mondays_day_lost` — an all-day event beyond a change of clocks, lost.
-/

namespace Oreneta.Calendar

open Runs List

/-! ## The look before -/

/-- The loop is gone through, the zone noted and the look recorded. -/
def Look.Recorded (l : Look) (s : Store) : Prop :=
  (give l.account l.now l.missing (l.found s) l.answers s).2 = .complete ∧ l.noted = true ∧
    l.recorded = true

instance (l : Look) (s : Store) : Decidable (l.Recorded s) := by
  unfold Look.Recorded
  infer_instance

/-- The step records no look at the account. -/
def LeavesLook (account : Str) (w : World) : Action → Prop
  | .look l => ¬ (l.account = account ∧ l.Recorded w.store)
  | _ => True

instance (account : Str) (w : World) : (a : Action) → Decidable (LeavesLook account w a)
  | .look l => inferInstanceAs (Decidable (¬ (l.account = account ∧ l.Recorded w.store)))
  | .drop .. | .forget _ | .sync .. => isTrue trivial

variable {s : Store} {now : Int}

theorem looks_giveOne {owner : Str} {d : Due} : (giveOne s owner now d).looks = s.looks := by
  unfold giveOne
  split <;> rfl

theorem looks_give {owner : Str} {missing : Missing} {ds : List Due} : ∀ {answers : List Answer} {s : Store},
      (give owner now missing ds answers s).1.looks = s.looks := by
  induction ds with
  | nil =>
    intro answers s
    rfl
  | cons d ds ih =>
    intro answers s
    unfold give
    split
    · exact ih
    · cases answers with
      | nil => rfl
      | cons a rest =>
        cases a with
        | given =>
          show (give owner now missing ds rest (giveOne s owner now d)).1.looks = s.looks
          rw [ih, looks_giveOne]
        | failed => exact ih

variable {account : Str}

theorem lookup_append {looks : List (Str × Previous)} {other : Str} {p : Previous} :
    (looks.filter (fun l => l.1 ≠ other) ++ [(other, p)]).lookup account =
      if account = other then some p else looks.lookup account := by
  induction looks with
  | nil =>
    by_cases h : account = other
    · simp [h]
    · have : (account == other) = false := by simpa using h
      simp [lookup_cons, h, this]
  | cons l looks ih =>
    obtain ⟨key, q⟩ := l
    by_cases hl : key = other
    · rw [filter_cons_of_neg (by simpa using hl), ih]
      by_cases h : account = other
      · simp [h]
      · have : (account == key) = false := by
          rw [hl]
          simpa using h
        rw [if_neg h, if_neg h, lookup_cons, this]
    · rw [filter_cons_of_pos (by simpa using hl), cons_append, lookup_cons, lookup_cons]
      by_cases h : account = key
      · have hne : account ≠ other := fun he => hl (h.symm.trans he)
        have : (account == key) = true := by simpa using h
        rw [this, if_neg hne]
      · have : (account == key) = false := by simpa using h
        simp only [this, ih]

theorem previousLook_recordLook {other : Str} {zone : TimeZone} : previousLook (recordLook s other now zone) account =
      if account = other then some ⟨now, (offsetAt zone now).getD 0⟩ else previousLook s account :=
  lookup_append

theorem previousLook_look {l : Look} : previousLook (look s l) account =
      if l.account = account ∧ l.Recorded s then some ⟨l.now, (offsetAt l.zone l.now).getD 0⟩
      else previousLook s account := by
  have hgive : previousLook (give l.account l.now l.missing (l.found s) l.answers s).1 account =
      previousLook s account := by
    unfold previousLook
    rw [looks_give]
  unfold look Look.Recorded
  by_cases hr : (give l.account l.now l.missing (l.found s) l.answers s).2 = .complete ∧
      l.noted = true ∧ l.recorded = true
  · simp only [hr, if_true, and_true, previousLook_recordLook, hgive, @eq_comm _ account]
  · simp only [hr, if_false, and_false, hgive]

theorem step_previousLook {p : Previous} {w w' : World} {a : Action}
    (h : previousLook w.store account = some p) (hleaves : LeavesLook account w a)
    (hs : step w a = some w') : previousLook w'.store account = some p := by
  cases a with
  | look l =>
    simp only [step] at hs
    split at hs
    · cases hs
      show previousLook (look w.store l) account = some p
      rw [previousLook_look, if_neg hleaves]
      exact h
    · cases hs
  | drop now gone =>
    simp only [step] at hs
    split at hs
    · cases hs
      exact h
    · cases hs
  | forget now =>
    simp only [step] at hs
    split at hs
    · cases hs
      exact h
    · cases hs
  | sync calendars events =>
    simp only [step] at hs
    cases hs
    exact h

/-- **The next look finds the last one recorded**, whatever else happens in between. -/
theorem previousLook_run {w w₁ w₂ : World} {l : Look} {between : List Action}
    (hlook : step w (.look l) = some w₁) (hrecorded : l.Recorded w.store) (hrun : run step w₁ between = some w₂)
    (hnone : AllSteps step (LeavesLook l.account) w₁ between) :
    previousLook w₂.store l.account = some ⟨l.now, (offsetAt l.zone l.now).getD 0⟩ := by
  have hfirst : previousLook w₁.store l.account = some ⟨l.now, (offsetAt l.zone l.now).getD 0⟩ := by
    simp only [step] at hlook
    split at hlook
    · cases hlook
      show previousLook (look w.store l) l.account = _
      rw [previousLook_look, if_pos ⟨rfl, hrecorded⟩]
    · cases hlook
  exact run_invariant (fun _ _ _ hi hok hs => step_previousLook hi hok hs) hfirst hnone hrun

/-! ## What the query leaves out -/

/-- A reminder of the event may still be given: its calendar is shown, the event is not cancelled and
no reminder of it is on record. -/
structure Waiting (s : Store) (account : Str) (e : Event) : Prop where
  stored : ∃ r ∈ s.events, r.account = account ∧ r.event = e
  shown : ∃ c ∈ s.calendars, c.account = account ∧ c.providerId = e.calendarId ∧ c.enabled = true
  kept : e.isCancelled = false
  unrecorded : isFired s account e = false

/-- The event reaches to two days before the earlier look. -/
def Event.Reach (e : Event) (p : Int) : Prop := p - ZONE_SLACK ≤ max e.end_ e.start

theorem mem_candidates_iff {from_ to_ : Int} {e : Event} : e ∈ candidates s account from_ to_ ↔
      Waiting s account e ∧ (∃ m, e.reminderMinutes = some m ∧ e.start - max m 0 * 60 ≤ to_) ∧
        from_ ≤ max e.end_ e.start := by
  unfold candidates
  simp only [mem_insertionSort, mem_map, mem_filter, decide_eq_true_eq, any_eq_true, Option.any_eq_true]
  constructor
  · rintro ⟨r, ⟨hr, hacc, hcal, hminutes, hkept, hfrom, hfired⟩, rfl⟩
    exact ⟨⟨⟨r, hr, hacc, rfl⟩, hcal, hkept, hfired⟩, hminutes, hfrom⟩
  · rintro ⟨⟨⟨r, hr, hacc, rfl⟩, hcal, hkept, hfired⟩, hminutes, hfrom⟩
    exact ⟨r, ⟨hr, hacc, hcal, hminutes, hkept, hfrom, hfired⟩, rfl⟩

/-- When a reminder rings, the lead taken off the start as the code takes it. -/
theorem timing_eq {e : Event} {zone : TimeZone} {t : Timing} (h : timing e zone = some t) :
    ∃ m, e.reminderMinutes = some m ∧ span e zone = some (t.start, t.end_) ∧
      t.fireAt = I64.wrap (t.start - max m 0 * 60) := by
  unfold timing at h
  split at h
  · cases h
  · rename_i m hm
    obtain ⟨p, hp, rfl⟩ := Option.map_eq_some_iff.mp h
    exact ⟨m, hm, hp, I64.wrap_sub_wrap _ _⟩

theorem span_start_le {e : Event} {zone : TimeZone} {q : Int × Int} (hstart : e.start ≤ I64.max)
    (h : span e zone = some q) : q.1 ≤ I64.max := by
  unfold span at h
  split at h
  · obtain ⟨start, hmidnight, rfl⟩ := Option.map_eq_some_iff.mp h
    have hnear := (localMidnight_near hmidnight).2
    unfold localMidnight at hmidnight
    split at hmidnight
    · rename_i hrep
      unfold representable at hrep
      unfold I64.max
      unfold ZONE_SLACK at hnear
      simp only [Bool.and_eq_true, decide_eq_true_eq] at hrep ⊢
      omega
    · cases hmidnight
  · split at h <;> cases h <;> exact hstart

/-- What rings by `n` is within what the query takes. -/
theorem rings_by {e : Event} {zone : TimeZone} {t : Timing} {n : Int} (hstart : e.start ≤ I64.max)
    (hn : representable n = true) (h : timing e zone = some t) (hfire : t.fireAt ≤ n) :
    ∃ m, e.reminderMinutes = some m ∧ e.start - max m 0 * 60 ≤ n + ZONE_SLACK := by
  obtain ⟨m, hm, hspan, hwrap⟩ := timing_eq h
  refine ⟨m, hm, ?_⟩
  have hlow : t.start ≤ e.start + ZONE_SLACK := (span_near hspan).2
  have hnear : e.start - ZONE_SLACK ≤ t.start := by
    have := (span_near hspan).1
    have hz : 0 ≤ ZONE_SLACK := by decide
    split at this <;> simp only at this <;> omega
  have hhigh : t.start ≤ I64.max := span_start_le hstart hspan
  have hnow : I64.min ≤ n := by
    unfold representable at hn
    unfold I64.min
    simp only [Bool.and_eq_true, decide_eq_true_eq] at hn
    omega
  by_cases hin : I64.min ≤ t.start - max m 0 * 60
  · -- the lead did not wrap around
    have hplain := @I64.wrap_eq (t.start - max m 0 * 60) ⟨hin, by omega⟩
    omega
  · omega

/-- An event whose reminder rang after the earlier look reaches it, when its lead fits. -/
theorem reach_of_fits {e : Event} {zone : TimeZone} {t : Timing} {p : Int} (hfit : e.LeadFits)
    (h : timing e zone = some t) (hfire : p < t.fireAt) : e.Reach p := by
  have := timing_le hfit h
  unfold Event.Reach
  omega

/-! ## What a look gives -/

theorem mem_due_iff {zone : TimeZone} {previous : Option Previous} {e : Event} :
    (∃ d ∈ due s account now zone previous, d.event = e) ↔
      e ∈ candidates s account ((believed previous now).elim now Previous.at_ - ZONE_SLACK) (now + ZONE_SLACK) ∧
        (dueOne now zone (previous.any (fun p => p.zoneChanged zone)) (believed previous now) e).isSome = true := by
  unfold due
  simp only [mem_insertionSort, mem_filterMap]
  constructor
  · rintro ⟨d, ⟨e', he', hd⟩, rfl⟩
    rw [dueOne_event hd]
    exact ⟨he', by rw [hd]; rfl⟩
  · rintro ⟨he, hsome⟩
    obtain ⟨d, hd⟩ := Option.isSome_iff_exists.mp hsome
    exact ⟨d, ⟨e, he, hd⟩, dueOne_event hd⟩

theorem believed_near {p : Previous} {n : Int} (hle : p.at_ ≤ n) (hgap : n - p.at_ ≤ MAX_GAP) : believed (some p) n = some p := by
  unfold believed
  have : max (min p.at_ n) (n - MAX_GAP) = p.at_ := by omega
  rw [Option.map_some, this]

/-- What a look makes of an event whose reminder rang by then, unless it ended and was declined. -/
theorem dueOne_isSome {e : Event} {zone : TimeZone} {moved : Bool} {p : Previous}
    {t : Timing} (h : timing e zone = some t) (hfire : t.fireAt ≤ now) (hkept : ¬ (t.end_ ≤ now ∧ declined e = true)) :
    (dueOne now zone moved (some p) e).isSome = true ↔
      now ≤ t.start ∨
        ∃ u, (if moved then timing e p.zone else timing e zone) = some u ∧ p.at_ < u.fireAt := by
  have hcame : ((if moved then timing e p.zone else timing e zone).any fun u => decide (p.at_ < u.fireAt)) = true ↔
      ∃ u, (if moved then timing e p.zone else timing e zone) = some u ∧ p.at_ < u.fireAt := by
    rw [Option.any_eq_true]
    simp only [decide_eq_true_eq]
  rw [← hcame]
  unfold dueOne
  simp only [h, if_neg (Int.not_lt.mpr hfire), Option.any_some]
  by_cases hahead : now ≤ t.start
  · simp [hahead]
  · by_cases hmissed : t.end_ ≤ now
    · have : declined e = false := by
        cases hd : declined e with
        | false => rfl
        | true => exact absurd ⟨hmissed, hd⟩ hkept
      simp [hahead, this]
    · simp [hahead, hmissed]

/-! ## Which clock the earlier look is reckoned by -/

/-- The zone the times at `p` in zone `was` are reckoned in by a look in `zone`: `zone` itself when it
has the same offset then, else a clock that stands at the offset `was` had then. -/
def reckonedZone (was zone : TimeZone) (p : Int) : TimeZone :=
  if zone.offset p = was.offset p then zone
  else TimeZone.fixed (was.offset p) (was.offset_lt p)

theorem reckoned {was zone : TimeZone} {p : Int} (hp : representable p = true) (e : Event) :
    (if (Previous.mk p (was.offset p)).zoneChanged zone then
        timing e (Previous.mk p (was.offset p)).zone
      else timing e zone) = timing e (reckonedZone was zone p) := by
  unfold Previous.zoneChanged offsetAt Previous.zone reckonedZone
  simp only [hp, if_true, ne_eq, Option.some.injEq, decide_not, Bool.not_eq_eq_eq_not, Bool.not_true,
    decide_eq_false_iff_not, dif_pos (was.offset_lt p)]
  by_cases h : zone.offset p = was.offset p
  · simp [h]
  · simp [h]

/-- **What came due between two looks is given exactly when** it is seen to have: its event has not
started, or its reminder rang after the earlier look by the clock that look is reckoned by. -/
theorem given_between_iff {w w₁ w₂ : World} {l : Look} {between : List Action} {n : Int}
    {zone : TimeZone} {e : Event} {was is : Timing} (hlook : step w (.look l) = some w₁) (hrecorded : l.Recorded w.store)
    (hrun : run step w₁ between = some w₂) (hnone : AllSteps step (LeavesLook l.account) w₁ between)
    (hp : representable l.now = true) (hn : representable n = true) (hle : l.now ≤ n) (hgap : n - l.now ≤ MAX_GAP)
    (hwaiting : Waiting w₂.store l.account e) (hstart : e.start ≤ I64.max)
    (hwas : timing e l.zone = some was) (hafter : l.now < was.fireAt) (his : timing e zone = some is) (hby : is.fireAt ≤ n)
    (hkept : ¬ (is.end_ ≤ n ∧ declined e = true)) :
    (∃ d ∈ due w₂.store l.account n zone (previousLook w₂.store l.account), d.event = e) ↔
      (e.LeadFits ∨ e.Reach l.now) ∧
        (n ≤ is.start ∨ ∃ u, timing e (reckonedZone l.zone zone l.now) = some u ∧ l.now < u.fireAt) := by
  have hprevious : previousLook w₂.store l.account = some ⟨l.now, l.zone.offset l.now⟩ := by
    rw [previousLook_run hlook hrecorded hrun hnone]
    unfold offsetAt
    rw [if_pos hp]
    rfl
  have hbelieved : believed (some ⟨l.now, l.zone.offset l.now⟩) n =
      some ⟨l.now, l.zone.offset l.now⟩ := believed_near hle hgap
  have hreach : e.LeadFits ∨ e.Reach l.now ↔ e.Reach l.now :=
    ⟨fun h => h.elim (fun hfit => reach_of_fits hfit hwas hafter) id, .inr⟩
  rw [hprevious, mem_due_iff, hbelieved, mem_candidates_iff, dueOne_isSome his hby hkept, hreach,
    Option.any_some, reckoned hp]
  constructor
  · rintro ⟨⟨-, -, hfrom⟩, hdue⟩
    exact ⟨hfrom, hdue⟩
  · rintro ⟨hfrom, hdue⟩
    exact ⟨⟨hwaiting, rings_by hstart hn his hby, hfrom⟩, hdue⟩

/-! ## When it is given for certain -/

section Certain

variable {e : Event} {was zone : TimeZone} {p : Int} {t : Timing}

/-- A timed event's reminder does not depend on the zone. -/
theorem timed_given (htimed : e.allDay = false) (ht : timing e was = some t) (hfire : p < t.fireAt) :
    ∃ u, timing e (reckonedZone was zone p) = some u ∧ p < u.fireAt := by
  refine ⟨t, ?_, hfire⟩
  rw [← ht]
  unfold timing span
  simp only [htimed, Bool.false_eq_true, if_false]

/-- In one zone nothing is lost, whatever its clock does. -/
theorem sameZone_given (ht : timing e was = some t) (hfire : p < t.fireAt) :
    ∃ u, timing e (reckonedZone was was p) = some u ∧ p < u.fireAt := by
  refine ⟨t, ?_, hfire⟩
  unfold reckonedZone
  rw [if_pos rfl]
  exact ht

end Certain

/-! ## A day lost beyond a change of clocks -/

namespace Sample

/-- Clocks that go back an hour on Sunday 2026-10-25, 01:00 UTC: Madrid and London. -/
def madrid : TimeZone := .changing 1792890000 7200 3600 TimeZone.twoHours_lt TimeZone.hour_lt

def london : TimeZone := .changing 1792890000 3600 0 TimeZone.hour_lt TimeZone.utc_lt

/-- Monday 2026-10-26, all day, with a reminder a day before. -/
def monday : Event :=
  { calendarId := ['c'], id := ['e'], subject := [], start := 1792972800, end_ := 1793059200
    allDay := true, location := none, reminderMinutes := some 1440, myResponse := []
    isCancelled := false }

def mondayWorld : World :=
  ⟨{ calendars, events := [⟨['a'], monday⟩], fired := [], looks := [], missed := [] }, 0⟩

/-- A look in Madrid on Sunday 00:30 there, which finds nothing due. -/
def saturdayNight : Look :=
  { account := ['a'], now := 1792881000, zone := madrid, missing := .gather, quiet := false
    answers := [], noted := true, recorded := true }

/-- Monday 08:00 in London. -/
def mondayMorning : Int := 1793001600

end Sample

open Sample in
theorem mondays_day_given : ∃ d ∈ due (look mondayWorld.store saturdayNight) ['a'] mondayMorning madrid
      (previousLook (look mondayWorld.store saturdayNight) ['a']), d.event = monday := by
  have hwaiting : Waiting (look mondayWorld.store saturdayNight) ['a'] monday :=
    ⟨by decide +kernel, by decide +kernel, by decide +kernel, by decide +kernel⟩
  have hlook : step mondayWorld (.look saturdayNight) =
      some ⟨look mondayWorld.store saturdayNight, 1792881000⟩ := by decide +kernel
  have hwas : timing monday madrid = some ⟨1792882800, 1792969200, 1793055600⟩ := by decide +kernel
  have hnone : AllSteps step (LeavesLook saturdayNight.account)
      ⟨look mondayWorld.store saturdayNight, 1792881000⟩ [] := trivial
  have hclose : saturdayNight.now ≤ mondayMorning ∧ mondayMorning - saturdayNight.now ≤ MAX_GAP := by
    decide
  refine (given_between_iff hlook (by decide +kernel) rfl hnone (by decide) (by decide) hclose.1
    hclose.2 hwaiting (by decide) hwas (by decide) hwas (by decide) (by decide)).mpr ⟨?_, ?_⟩
  · exact .inl (by decide)
  · exact .inr (sameZone_given hwas (by decide))

/-- In Madrid the reminder of Monday's event rings at 01:00 on Sunday, half an hour after a look; on
Monday, with its day begun, it is not given in London. -/
theorem mondays_day_lost : (∃ t, timing Sample.monday Sample.madrid = some t ∧ Sample.saturdayNight.now < t.fireAt) ∧
    (∃ t, timing Sample.monday Sample.london = some t ∧ t.fireAt ≤ Sample.mondayMorning ∧
      Sample.mondayMorning < t.end_) ∧ Sample.mondayMorning - Sample.saturdayNight.now ≤ MAX_GAP ∧
    Sample.saturdayNight.Recorded Sample.mondayWorld.store ∧
    Waiting (look Sample.mondayWorld.store Sample.saturdayNight) ['a'] Sample.monday ∧
    due (look Sample.mondayWorld.store Sample.saturdayNight) ['a'] Sample.mondayMorning Sample.london
      (previousLook (look Sample.mondayWorld.store Sample.saturdayNight) ['a']) = [] := by
  refine ⟨⟨⟨1792882800, 1792969200, 1793055600⟩, by decide +kernel⟩,
    ⟨⟨1792886400, 1792972800, 1793059200⟩, by decide +kernel⟩, by decide, by decide +kernel,
    ⟨by decide +kernel, by decide +kernel, by decide +kernel, by decide +kernel⟩, by decide +kernel⟩

end Oreneta.Calendar

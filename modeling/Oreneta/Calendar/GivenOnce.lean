import Oreneta.Calendar.Reminders
import Oreneta.Lib.Runs

/-!
# A reminder is given at most once

Looks at non-decreasing times, each in whatever zone the machine is in and each stopped at whatever
point, between them the calendars and events written anew, and records dropped whose event started
longer than `GIVEN_KEPT` ago.

* `Remembered` — a reminder given is on record, or its event started too long ago for any look;
* `due_not_remembered` — no look gives what is remembered, as long as the leads stored are lengths of
  time an `i64` of seconds can hold (`LeadFits`);
* `step_remembered`, `given_once` — so what one look recorded as given no later look gives;
* `forgetOldReminders_keeps` — what `forget_old_reminders` drops is such a record, when the events of
  the records are still stored;
* `wrapped_lead_given_twice` — a lead past the range makes a reminder ring after its event's start.
-/

namespace Oreneta.Calendar

open Text Runs Decimal List

/-! ## When a reminder can ring -/

/-- The lead is a number of seconds that can be taken off the start, in every zone. -/
def Event.LeadFits (e : Event) : Prop :=
  ∀ minutes ∈ e.reminderMinutes,
    I64.min ≤ (if e.allDay then e.start - ZONE_SLACK else e.start) - max minutes 0 * 60

instance (e : Event) : Decidable e.LeadFits := by
  unfold Event.LeadFits
  cases e.reminderMinutes with
  | none => exact isTrue (fun _ h => by cases h)
  | some m => exact decidable_of_iff _ ⟨fun h _ hm => Option.some.inj hm ▸ h, fun h => h m rfl⟩

variable {zone : TimeZone}

theorem resolve_near {n t : Int} (h : resolve zone n = some t) : n - day < t ∧ t < n + day + 7200 := by
  unfold resolve at h
  rcases Option.or_eq_some_iff.mp h with h | ⟨-, h⟩
  · have := TimeZone.earliest_near h
    omega
  · obtain ⟨k, hk, hkt⟩ := exists_of_findSome?_eq_some h
    have := TimeZone.earliest_near hkt
    simp only [mem_cons, not_mem_nil, or_false] at hk
    omega

theorem localMidnight_near {u t : Int} (h : localMidnight zone u = some t) : u - ZONE_SLACK ≤ t ∧ t ≤ u + ZONE_SLACK := by
  unfold localMidnight at h
  split at h
  · have := resolve_near h
    unfold ZONE_SLACK
    unfold day at this
    omega
  · cases h

variable {e : Event}

theorem span_near {p : Int × Int} (h : span e zone = some p) :
    (if e.allDay then e.start - ZONE_SLACK else e.start) ≤ p.1 ∧ p.1 ≤ e.start + ZONE_SLACK := by
  have hz : 0 ≤ ZONE_SLACK := by decide
  unfold span at h
  split at h
  · rename_i hday
    obtain ⟨start, hstart, rfl⟩ := Option.map_eq_some_iff.mp h
    rw [if_pos hday]
    exact localMidnight_near hstart
  · rename_i hday
    rw [if_neg hday]
    split at h
    · cases h
      constructor <;> omega
    · cases h
      constructor <;> omega

/-- **A reminder rings at its event's start or before**, when its lead fits. -/
theorem timing_le {t : Timing} (hfit : e.LeadFits)
    (h : timing e zone = some t) : t.fireAt ≤ t.start ∧ t.start ≤ e.start + ZONE_SLACK := by
  unfold timing at h
  split at h
  · cases h
  · rename_i minutes hm
    obtain ⟨p, hp, rfl⟩ := Option.map_eq_some_iff.mp h
    obtain ⟨hlow, hhigh⟩ := span_near hp
    have hlead := hfit minutes hm
    have hpos : 0 ≤ max minutes 0 * 60 := by omega
    refine ⟨?_, hhigh⟩
    show I64.wrap (p.1 - I64.wrap (max minutes 0 * 60)) ≤ p.1
    rw [I64.wrap_sub_wrap]
    have := I64.wrap_le (x := p.1 - max minutes 0 * 60) (by omega)
    omega

/-! ## What is remembered is not given -/

theorem parseSigned_firedKey {id : Str} {start : Int} : rsplitOnce '@' (firedKey id start) = some (id, ofInt start) := by
  apply rsplitOnce_append
  intro h
  rcases mem_ofInt h with h | h
  · exact absurd h (by decide)
  · exact absurd h (by decide)

/-- The start of the event a record was made for. -/
def startOf (key : Str) : Option Int := (rsplitOnce '@' key).bind (fun p => parseSigned p.2)

theorem startOf_firedKey {id : Str} {start : Int} : startOf (firedKey id start) = some start := by
  unfold startOf
  rw [parseSigned_firedKey]
  exact parseSigned_ofInt start

def OnRecord (fired : List Fired) (account id : Str) (start : Int) : Prop :=
  ∃ f ∈ fired, f.account = account ∧ f.eventId = firedKey id start

/-- What the system is: the tables, and the latest time anything was done at. -/
structure World where
  store : Store
  clock : Int
  deriving DecidableEq

/-- A reminder given is on record, or its event started too long ago. -/
def Remembered (account id : Str) (start : Int) (w : World) : Prop :=
  OnRecord w.store.fired account id start ∨ start < w.clock - GIVEN_KEPT

theorem mem_candidates {s : Store} {account : Str} {from_ to_ : Int} (h : e ∈ candidates s account from_ to_) :
    (∃ r ∈ s.events, r.event = e) ∧ isFired s account e = false := by
  unfold candidates at h
  rw [mem_insertionSort] at h
  obtain ⟨r, hr, rfl⟩ := mem_map.mp h
  obtain ⟨hmem, hp⟩ := mem_filter.mp hr
  have hp := of_decide_eq_true hp
  exact ⟨⟨r, hmem, rfl⟩, hp.2.2.2.2.2⟩

variable {now : Int} {previous : Option Previous}

theorem dueOne_event {moved : Bool} {d : Due} (h : dueOne now zone moved previous e = some d) : d.event = e := by
  unfold dueOne at h
  split at h
  · cases h
  · simp only at h
    repeat' split at h
    all_goals first
      | cases h; rfl
      | cases h

/-- No look gives a reminder of an event that started longer than `GIVEN_KEPT` ago. -/
theorem dueOne_old {moved : Bool} (hfit : e.LeadFits) (hold : e.start < now - GIVEN_KEPT) :
    dueOne now zone moved (believed previous now) e = none := by
  have hkept : GIVEN_KEPT = MAX_GAP + ZONE_SLACK := rfl
  have hgap : 0 ≤ MAX_GAP := by decide
  -- a reminder that rang in any zone rang before the gap a look looks into
  have hrang : ∀ {z : TimeZone} {t : Timing}, timing e z = some t →
      t.fireAt < now - MAX_GAP ∧ t.start < now := by
    intro z t ht
    have := timing_le hfit ht
    omega
  have hgiven : ∀ p ∈ believed previous now, ∀ {z : TimeZone} {t : Timing}, timing e z = some t →
      ¬ p.at_ < t.fireAt := by
    intro p hp z t ht
    obtain ⟨q, -, rfl⟩ := Option.map_eq_some_iff.mp hp
    have := (hrang ht).1
    show ¬ max (min q.at_ now) (now - MAX_GAP) < t.fireAt
    omega
  unfold dueOne
  split
  · rfl
  · rename_i t ht
    have hahead : decide (now ≤ t.start) = false := by
      have := (hrang ht).2
      simpa using this
    have hcame : ((believed previous now).any (fun p =>
        (if moved then timing e p.zone else some t).any fun t => p.at_ < t.fireAt)) = false := by
      rw [Option.any_eq_false]
      intro p hp
      rw [Option.any_eq_false]
      intro u hu
      have htime : ∃ z, timing e z = some u := by
        split at hu
        · exact ⟨_, hu⟩
        · exact ⟨zone, by rw [ht]; exact hu⟩
      obtain ⟨z, hz⟩ := htime
      simpa using hgiven p hp hz
    simp only [hahead, hcame]
    split <;> rfl

/-- The step condition: the events a look can see have leads that fit. -/
def LeadsFit (s : Store) : Prop := ∀ r ∈ s.events, r.event.LeadFits

theorem mem_due {s : Store} {account : Str} {d : Due} (h : d ∈ due s account now zone previous) :
    ∃ moved from_ to_, d.event ∈ candidates s account from_ to_ ∧
      dueOne now zone moved (believed previous now) d.event = some d := by
  unfold due at h
  simp only [mem_insertionSort, mem_filterMap] at h
  obtain ⟨e, he, hd⟩ := h
  have hev := dueOne_event hd
  rw [← hev] at he hd
  exact ⟨_, _, _, he, hd⟩

/-- **A look does not give what is remembered.** -/
theorem due_not_remembered {s : Store} {account : Str} {d : Due} (hfit : LeadsFit s)
    (h : d ∈ due s account now zone previous) : ¬ Remembered account d.event.id d.event.start ⟨s, now⟩ := by
  obtain ⟨moved, from_, to_, hc, hd⟩ := mem_due h
  obtain ⟨⟨r, hr, hre⟩, hnot⟩ := mem_candidates hc
  rintro (⟨f, hf, hacc, hkey⟩ | hold)
  · have : isFired s account d.event = true := by
      unfold isFired
      rw [any_eq_true]
      exact ⟨f, hf, by simp [hacc, hkey]⟩
    rw [hnot] at this
    cases this
  · rw [dueOne_old (hre ▸ hfit r hr) hold] at hd
    cases hd

/-! ## Steps -/

/-- What happens to the reminders of a store. -/
inductive Action where
  | look (l : Look)
  /-- Records of events that started longer than `GIVEN_KEPT` ago are deleted. -/
  | drop (now : Int) (gone : Fired → Bool)
  /-- `forget_old_reminders`. -/
  | forget (now : Int)
  /-- The calendars and events are written anew. -/
  | sync (calendars : List CalendarRow) (events : List EventRow)

/-- Every record deleted is of an event that started longer than `GIVEN_KEPT` ago. -/
def OnlyOld (s : Store) (now : Int) (gone : Fired → Bool) : Prop :=
  ∀ f ∈ s.fired, gone f = true → ∀ start ∈ startOf f.eventId, start < now - GIVEN_KEPT

instance (s : Store) (now : Int) (gone : Fired → Bool) : Decidable (OnlyOld s now gone) := by
  unfold OnlyOld
  have (f : Fired) : Decidable (∀ start ∈ startOf f.eventId, start < now - GIVEN_KEPT) :=
    match startOf f.eventId with
    | none => isTrue (fun _ h => by cases h)
    | some n => decidable_of_iff (n < now - GIVEN_KEPT) ⟨fun h _ hm => Option.some.inj hm ▸ h, fun h => h n rfl⟩
  infer_instance

/-- One step; times never go back. -/
def step (w : World) : Action → Option World
  | .look l => if w.clock ≤ l.now then some ⟨look w.store l, l.now⟩ else none
  | .drop now gone =>
    if w.clock ≤ now ∧ OnlyOld w.store now gone then
      some ⟨{ w.store with fired := w.store.fired.filter (fun f => !gone f) }, now⟩
    else none
  | .forget now =>
    if w.clock ≤ now ∧ OnlyOld w.store now (forgets w.store now) then
      some ⟨forgetOldReminders w.store now, now⟩
    else none
  | .sync calendars events => some ⟨{ w.store with calendars, events }, w.clock⟩

/-- What is asked of a step: the events a look sees have leads that fit. -/
def Fits (w : World) : Action → Prop
  | .look _ => LeadsFit w.store
  | _ => True

instance (w : World) (a : Action) : Decidable (Fits w a) := by
  cases a <;> unfold Fits
  · unfold LeadsFit
    infer_instance
  all_goals infer_instance

section Records

variable {s : Store} {account id : Str} {start : Int}

theorem fired_giveOne {now : Int} {d : Due} {owner : Str} : (giveOne s owner now d).fired =
      (markReminderFired s owner d.event.id d.event.start now).fired := by
  unfold giveOne
  split <;> rfl

theorem onRecord_giveOne {now : Int} {d : Due} {owner : Str} (h : OnRecord s.fired account id start) :
    OnRecord (giveOne s owner now d).fired account id start := by
  obtain ⟨f, hf, hacc, hkey⟩ := h
  rw [fired_giveOne]
  by_cases hsame : f.account = owner ∧ f.eventId = firedKey d.event.id d.event.start
  · refine ⟨_, mem_append_right _ mem_cons_self, ?_, ?_⟩
    · exact hsame.1.symm.trans hacc
    · exact hsame.2.symm.trans hkey
  · exact ⟨f, mem_append_left _ (mem_filter.mpr ⟨hf, decide_eq_true hsame⟩), hacc, hkey⟩

theorem giveOne_onRecord {now : Int} {d : Due} : OnRecord (giveOne s account now d).fired account d.event.id d.event.start := by
  rw [fired_giveOne]
  exact ⟨_, mem_append_right _ mem_cons_self, rfl, rfl⟩

theorem onRecord_give {owner : Str} {now : Int} {missing : Missing} {ds : List Due} :
    ∀ {answers : List Answer} {s : Store}, OnRecord s.fired account id start →
      OnRecord (give owner now missing ds answers s).1.fired account id start := by
  induction ds with
  | nil =>
    intro answers s h
    exact h
  | cons d ds ih =>
    intro answers s h
    unfold give
    split
    · exact ih h
    · cases answers with
      | nil => exact h
      | cons a rest =>
        cases a with
        | given => exact ih (onRecord_giveOne h)
        | failed => exact ih h

/-- Every reminder the loop counts as given is on record after it. -/
theorem give_onRecord {l : Look} {ds : List Due} :
    ∀ {answers : List Answer} {s : Store}, (account, id, start) ∈ Look.marked.go l ds answers →
      OnRecord (give l.account l.now l.missing ds answers s).1.fired account id start := by
  induction ds with
  | nil =>
    intro answers s h
    cases h
  | cons d ds ih =>
    intro answers s h
    unfold Look.marked.go at h
    unfold give
    split
    · rename_i hleave
      rw [if_pos hleave] at h
      exact ih h
    · rename_i hleave
      rw [if_neg hleave] at h
      cases answers with
      | nil => cases h
      | cons a rest =>
        cases a with
        | given =>
          rcases mem_cons.mp h with heq | h
          · cases heq
            exact onRecord_give giveOne_onRecord
          · exact ih h
        | failed => exact ih h

theorem fired_look {l : Look} : (look s l).fired = (give l.account l.now l.missing (l.found s) l.answers s).1.fired := by
  unfold look
  dsimp only
  split <;> rfl

end Records

theorem remembered_drop {account id : Str} {start : Int} {w : World} {gone : Fired → Bool}
    (h : Remembered account id start w) (hclock : w.clock ≤ now) (hold : OnlyOld w.store now gone) :
    Remembered account id start ⟨{ w.store with fired := w.store.fired.filter (fun f => !gone f) }, now⟩ := by
  rcases h with ⟨f, hf, hacc, hkey⟩ | h
  · cases hg : gone f with
    | false => exact .inl ⟨f, mem_filter.mpr ⟨hf, by simp [hg]⟩, hacc, hkey⟩
    | true =>
      apply Or.inr
      exact hold f hf hg start (by rw [hkey]; exact startOf_firedKey)
  · apply Or.inr
    show start < now - GIVEN_KEPT
    omega

/-- **What is remembered stays so**, whatever happens next. -/
theorem step_remembered {account id : Str} {start : Int} {w w' : World} {a : Action}
    (h : Remembered account id start w) (hs : step w a = some w') : Remembered account id start w' := by
  cases a with
  | look l =>
    simp only [step] at hs
    split at hs
    · rename_i hclock
      cases hs
      rcases h with h | h
      · apply Or.inl
        show OnRecord (look w.store l).fired account id start
        rw [fired_look]
        exact onRecord_give h
      · apply Or.inr
        show start < l.now - GIVEN_KEPT
        omega
    · cases hs
  | drop now gone =>
    simp only [step] at hs
    split at hs
    · rename_i hg
      cases hs
      exact remembered_drop h hg.1 hg.2
    · cases hs
  | forget now =>
    simp only [step] at hs
    split at hs
    · rename_i hg
      cases hs
      exact remembered_drop h hg.1 hg.2
    · cases hs
  | sync calendars events =>
    simp only [step] at hs
    cases hs
    exact h

/-- What a look recorded as given is remembered after it. -/
theorem remembered_of_marked {l : Look} {account id : Str} {start : Int} {w w' : World}
    (h : (account, id, start) ∈ l.marked w.store) (hs : step w (.look l) = some w') : Remembered account id start w' := by
  simp only [step] at hs
  split at hs
  · cases hs
    apply Or.inl
    show OnRecord (look w.store l).fired account id start
    rw [fired_look]
    exact give_onRecord h
  · cases hs

/-! ## Whole runs -/

/-- **A reminder is given at most once.**  What one look of a run recorded as given no later look of
the run gives again, whatever is in between. -/
theorem given_once {w w₁ w₂ : World} {before between : List Action} {l₁ l₂ : Look} {id : Str}
    {start : Int} (hfit : AllSteps step Fits w (before ++ .look l₁ :: between ++ [.look l₂]))
    (h₁ : run step w before = some w₁) (h₂ : run step w (before ++ .look l₁ :: between) = some w₂)
    (hnow : w₂.clock ≤ l₂.now) (hmarked : (l₂.account, id, start) ∈ l₁.marked w₁.store) :
    ∀ d ∈ l₂.found w₂.store, ¬ (d.event.id = id ∧ d.event.start = start) := by
  rw [run_append h₁] at h₂
  obtain ⟨u, hu, hrest⟩ := run_cons h₂
  have hstep : ∀ v a v', Remembered l₂.account id start v → True → step v a = some v' →
      Remembered l₂.account id start v' := fun _ _ _ hi _ hs => step_remembered hi hs
  have hkept : Remembered l₂.account id start w₂ :=
    run_invariant hstep (remembered_of_marked hmarked hu) AllSteps.of_true hrest
  have hleads : LeadsFit w₂.store := by
    have hall := AllSteps.right hfit (by rw [run_append h₁]; exact h₂)
    exact hall.1
  rintro d hd ⟨rfl, rfl⟩
  unfold Look.found at hd
  split at hd
  · cases hd
  · apply due_not_remembered hleads hd
    rcases hkept with h | h
    · exact .inl h
    · apply Or.inr
      show d.event.start < l₂.now - GIVEN_KEPT
      omega

/-- What `forget_old_reminders` drops is of events long past, when the records are of events still
stored at the start they were given for. -/
theorem forgetOldReminders_keeps {s : Store} (hstored : ∀ f ∈ s.fired, ∃ r ∈ s.events, r.account = f.account ∧
      f.eventId = firedKey r.event.id r.event.start ∧
      I64.min ≤ r.event.start ∧ r.event.start ≤ I64.max) : OnlyOld s now (forgets s now) := by
  intro f hf hgone start hstart
  obtain ⟨r, hr, hacc, hkey, hrange⟩ := hstored f hf
  have hs : start = r.event.start := by
    rw [hkey] at hstart
    exact (Option.some.inj (startOf_firedKey.symm.trans hstart)).symm
  have hparse : parseKey f.eventId = some (r.event.id, r.event.start) := by
    unfold parseKey
    rw [hkey, parseSigned_firedKey]
    simp [parseInt_ofInt hrange]
  have hmem : s.events.any (fun q => q.account = f.account ∧ q.event.id = r.event.id ∧
      q.event.start = r.event.start) = true :=
    any_eq_true.mpr ⟨r, hr, decide_eq_true ⟨hacc, rfl, rfl⟩⟩
  unfold forgets at hgone
  have hgone := (of_decide_eq_true hgone).2
  rw [hparse, Option.filter_some, if_pos hmem] at hgone
  rw [hs]
  simpa using hgone

/-! ## A day that is given once, and a lead past the range -/

/-- The first look records a reminder as given and a later one gives it again. -/
def GivenTwice (w : World) (before : List Action) (l₁ : Look) (between : List Action) (l₂ : Look)
    (id : Str) (start : Int) : Bool :=
  (run step w before).any (fun w₁ => (l₂.account, id, start) ∈ l₁.marked w₁.store) &&
    (run step w (before ++ .look l₁ :: between)).any (fun w₂ => w₂.clock ≤ l₂.now ∧
      (l₂.found w₂.store).any (fun d => d.event.id = id ∧ d.event.start = start))

namespace Sample

def calendars : List CalendarRow := [{ account := ['a'], providerId := ['c'], enabled := true }]

/-- A course of forty days, 2027-01-15 08:00 UTC, with a reminder `minutes` before. -/
def course (minutes : Int) : EventRow :=
  { account := ['a']
    event :=
      { calendarId := ['c'], id := ['e'], subject := [], start := 1800000000
        end_ := 1803456000, allDay := false, location := none, reminderMinutes := some minutes
        myResponse := [], isCancelled := false } }

def world (minutes : Int) : World :=
  ⟨{ calendars, events := [course minutes], fired := [], looks := [], missed := [] }, 0⟩

/-- A look that is given everything it asks for. -/
def lookAt (now : Int) (recorded : Bool) : Look :=
  { account := ['a'], now, zone := TimeZone.utc, missing := .gather, quiet := false
    answers := [.given], noted := true, recorded }

/-- The lead of an alarm `-PT307445734561782660M`: in seconds, `2^64` less some thirty days. -/
def wrappedLead : Int := 307445734561782660

end Sample

open Sample in
theorem course_given_once : (['a'], ['e'], 1800000000) ∈ (lookAt 1800000000 true).marked (world 0).store ∧
      ∀ d ∈ (lookAt 1800000060 true).found (look (world 0).store (lookAt 1800000000 true)),
        ¬ (d.event.id = ['e'] ∧ d.event.start = 1800000000) := by
  have hmarked : (['a'], ['e'], 1800000000) ∈ (lookAt 1800000000 true).marked (world 0).store := by
    decide +kernel
  have hfit : AllSteps step Fits (world 0)
      ([] ++ .look (lookAt 1800000000 true) :: [] ++ [.look (lookAt 1800000060 true)]) := by
    decide +kernel
  have hrun : run step (world 0) ([] ++ .look (lookAt 1800000000 true) :: []) =
      some ⟨look (world 0).store (lookAt 1800000000 true), 1800000000⟩ := by
    decide +kernel
  exact ⟨hmarked, given_once hfit rfl hrun (by decide) hmarked⟩

/-- The course's lead is set to one whose seconds wrap around, so that it rings thirty days after the
start.  It was given at the start; its record is dropped seventeen days later, and it is given again.
Set so from the beginning, with a stop before the look is recorded, it is given twice in two looks. -/
theorem wrapped_lead_given_twice : GivenTwice (Sample.world 0) [] (Sample.lookAt 1800000000 true)
      [.sync Sample.calendars [Sample.course Sample.wrappedLead], .forget 1801468800, .look (Sample.lookAt 1802592000 true)]
      (Sample.lookAt 1802592060 true) ['e'] 1800000000 = true ∧
    GivenTwice (Sample.world Sample.wrappedLead) [.look (Sample.lookAt 1800000000 true)]
      (Sample.lookAt 1802592060 false) [.drop 1802592060 (fun _ => true)]
      (Sample.lookAt 1802592120 true) ['e'] 1800000000 = true := by
  decide +kernel

end Oreneta.Calendar

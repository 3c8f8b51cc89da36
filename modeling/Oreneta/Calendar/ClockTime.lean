import Oreneta.Calendar.Recurrence

/-!
# The time of day of a repeating task

`next_instant` of `calendar/recurrence.rs`: the next occurrence is put at the wall-clock time of
the present one.  A wall-clock time is the number of seconds the same digits name in UTC; a zone says which
instants, if any, it names.  `here` is this machine's zone, in which an end date is read.

* `nextInstant` — as the source has it; `occurrences` — the instants found one after another, the rule rewritten
  in between as the caller does.
* `KeepsTime` — an occurrence is at the time of day, or where that does not exist at the first that does.
* `time_kept` — while the time exists on every date, every occurrence has it, and the next one keeps it exactly
  when it exists there too or is skipped by one to four half-hours.
* `later_after_gap` — after a night the time is skipped on, the occurrences stay later.
-/

namespace Oreneta.Calendar

open List Option

/-- The clock shows the time: it is not skipped. -/
def Shown (zone : TimeZone) (local_ : Int) : Prop := (zone.ofLocal local_).earliest.isSome = true

instance (zone : TimeZone) (local_ : Int) : Decidable (Shown zone local_) := inferInstanceAs (Decidable (_ = _))

/-- The date the next occurrence falls on. -/
def dateAfter (here zone : TimeZone) (rule : Recurrence) (due : Int) : Option Int :=
  if representable due then nextDate here rule (zone.toLocal due / day) else none

/-- The next occurrence after `due`, at the same wall-clock time. -/
def nextInstant (here zone : TimeZone) (rule : Recurrence) (due : Int) : Option Int :=
  (dateAfter here zone rule due).bind fun date => resolve zone (date * day + zone.toLocal due % day)

/-- The rule and the due instant after so many occurrences; `rewrite` is what becomes of the rule. -/
def occurrences (here zone : TimeZone) (rewrite : Recurrence → Int → Recurrence) (rule : Recurrence) (due : Int) :
    Nat → Option (Recurrence × Int)
  | 0 => some (rule, due)
  | n + 1 => (occurrences here zone rewrite rule due n).bind fun s =>
      (nextInstant here zone s.1 s.2).map fun next => (rewrite s.1 next, next)

/-- What `complete_occurrence` makes of the rule. -/
def rewritten (zone : TimeZone) (rule : Recurrence) (next : Int) : Recurrence :=
  anchored (advanced rule) (zone.toLocal next / day)

/-! ## The time of day -/

/-- The first wall-clock time after another that exists. -/
def FirstAfter (zone : TimeZone) (l l' : Int) : Prop :=
  l < l' ∧ Shown zone l' ∧ ∀ x, l < x → x < l' → ¬ Shown zone x

/-- On a date, the instant is at a time of day, or where that does not exist at the first that does. -/
def KeepsTime (zone : TimeZone) (date w instant : Int) : Prop :=
  if Shown zone (date * day + w) then zone.toLocal instant = date * day + w
  else FirstAfter zone (date * day + w) (zone.toLocal instant)

section Resolve

variable {zone : TimeZone} {l t : Int}

theorem shown_toLocal (zone : TimeZone) (t : Int) : Shown zone (zone.toLocal t) := by
  have h := (zone.names_iff (zone.toLocal t) t).mpr rfl
  unfold Shown
  cases hl : zone.ofLocal (zone.toLocal t) with
  | none =>
    rw [hl] at h
    cases h
  | single a => rfl
  | ambiguous a b => rfl

theorem resolve_of_shown (h : Shown zone l) (ht : resolve zone l = some t) : zone.toLocal t = l := by
  obtain ⟨a, ha⟩ := isSome_iff_exists.mp h
  rw [resolve, ha, some_or] at ht
  cases ht
  exact TimeZone.toLocal_of_earliest ha

/-- A skipped time becomes the first of the next four half-hours that exists. -/
theorem resolve_of_skipped (h : ¬ Shown zone l) (ht : resolve zone l = some t) :
    ∃ k : Int, 1 ≤ k ∧ k ≤ 4 ∧ zone.toLocal t = l + 1800 * k ∧ ∀ j, 1 ≤ j → j < k → ¬ Shown zone (l + 1800 * j) := by
  have hnone : (zone.ofLocal l).earliest = none := by
    unfold Shown at h
    rwa [not_isSome_iff_eq_none] at h
  rw [resolve, hnone, none_or] at ht
  obtain ⟨before, k, after, hsplit, hk, hbefore⟩ := findSome?_eq_some_iff.mp ht
  have hmem : ∀ j : Int, j ∈ [1, 2, 3, 4] ↔ 1 ≤ j ∧ j ≤ 4 := by
    intro j
    simp only [mem_cons, not_mem_nil, or_false]
    omega
  have hk14 := (hmem k).mp (by rw [hsplit]; simp)
  refine ⟨k, hk14.1, hk14.2, TimeZone.toLocal_of_earliest hk, fun j hj1 hjk => ?_⟩
  -- the half-hours are tried in order, so one before `k` was tried without success
  have hsorted : [1, 2, 3, 4].Pairwise (fun a b : Int => a < b) := by decide
  have hj := (hmem j).mpr (by omega)
  rw [hsplit] at hj hsorted
  rw [mem_append, mem_cons] at hj
  unfold Shown
  rcases hj with hj | hj | hj
  · rw [hbefore j hj]
    exact Bool.false_ne_true
  · omega
  · have := (pairwise_cons.mp (pairwise_append.mp hsorted).2.1).1 j hj
    omega

/-- Where a time is skipped, the search ends at the first time that exists exactly when that is a whole number
of half-hours away. -/
theorem firstAfter_resolve_iff (h : ¬ Shown zone l) (ht : resolve zone l = some t) :
    FirstAfter zone l (zone.toLocal t) ↔ ∃ k : Int, 1 ≤ k ∧ k ≤ 4 ∧ FirstAfter zone l (l + 1800 * k) := by
  obtain ⟨k, hk1, hk4, hlocal, hleast⟩ := resolve_of_skipped h ht
  rw [hlocal]
  constructor
  · exact fun hf => ⟨k, hk1, hk4, hf⟩
  · rintro ⟨j, hj1, -, hf⟩
    have hjk : j = k := by
      have hex : Shown zone (l + 1800 * k) := by
        rw [← hlocal]
        exact shown_toLocal zone t
      by_contra hne
      rcases Int.lt_or_gt_of_ne hne with hlt | hlt
      · exact hleast j hj1 hlt hf.2.1
      · exact hf.2.2 (l + 1800 * k) (by omega) (by omega) hex
    rwa [← hjk]

end Resolve

/-! ## Occurrence after occurrence -/

section Run

variable {here zone : TimeZone} {rewrite : Recurrence → Int → Recurrence} {rule : Recurrence} {due : Int} {n : Nat}

theorem day_range (l : Int) : 0 ≤ l % day ∧ l % day < day := by
  unfold day
  omega

theorem mod_day {date w : Int} (hw : 0 ≤ w ∧ w < day) : (date * day + w) % day = w := by
  unfold day at hw ⊢
  omega

/-- One occurrence at the time of day, and the date of the next: what becomes of the time. -/
theorem keepsTime_iff {w date next : Int} (hw : zone.toLocal due % day = w)
    (hdate : dateAfter here zone rule due = some date) (h : nextInstant here zone rule due = some next) :
    KeepsTime zone date w next ↔
      Shown zone (date * day + w) ∨
        ∃ k : Int, 1 ≤ k ∧ k ≤ 4 ∧ FirstAfter zone (date * day + w) (date * day + w + 1800 * k) := by
  unfold nextInstant at h
  rw [hdate, bind_some, hw] at h
  unfold KeepsTime
  by_cases hex : Shown zone (date * day + w)
  · rw [if_pos hex]
    exact ⟨fun _ => .inl hex, fun _ => resolve_of_shown hex h⟩
  · rw [if_neg hex, firstAfter_resolve_iff hex h]
    exact ⟨.inr, fun h => h.resolve_left hex⟩

/-- While the time exists on every date, every occurrence has it. -/
theorem time_of_shown (hdates : ∀ k < n, ∀ s date, occurrences here zone rewrite rule due k = some s →
      dateAfter here zone s.1 s.2 = some date → Shown zone (date * day + zone.toLocal due % day)) :
    ∀ k ≤ n, ∀ s, occurrences here zone rewrite rule due k = some s →
      zone.toLocal s.2 % day = zone.toLocal due % day := by
  intro k
  induction k with
  | zero =>
    intro _ s hs
    cases hs
    rfl
  | succ k ih =>
    intro hk s hs
    obtain ⟨s', hs', hnext⟩ := bind_eq_some_iff.mp hs
    obtain ⟨next, hn, rfl⟩ := map_eq_some_iff.mp hnext
    have hw := ih (by omega) s' hs'
    obtain ⟨date, hdate, hres⟩ := bind_eq_some_iff.mp hn
    have hex := hdates k (by omega) s' date hs' hdate
    rw [hw] at hres
    rw [resolve_of_shown hex hres, mod_day (day_range _)]

/-- **The time of day is kept while it exists**: if it exists on the dates of the first `n` occurrences, they are
all at it, and the one after them keeps it exactly when it exists on its date, or is skipped there by one to
four half-hours. -/
theorem time_kept (here zone : TimeZone) (rewrite : Recurrence → Int → Recurrence) (rule : Recurrence) (due : Int) (n : Nat)
    (hdates : ∀ k < n, ∀ s date, occurrences here zone rewrite rule due k = some s →
      dateAfter here zone s.1 s.2 = some date → Shown zone (date * day + zone.toLocal due % day)) :
    (∀ k < n, ∀ s s' date, occurrences here zone rewrite rule due k = some s →
      dateAfter here zone s.1 s.2 = some date → occurrences here zone rewrite rule due (k + 1) = some s' →
        KeepsTime zone date (zone.toLocal due % day) s'.2) ∧
    ∀ s s' date, occurrences here zone rewrite rule due n = some s → dateAfter here zone s.1 s.2 = some date →
      occurrences here zone rewrite rule due (n + 1) = some s' →
        (KeepsTime zone date (zone.toLocal due % day) s'.2 ↔
          Shown zone (date * day + zone.toLocal due % day) ∨
            ∃ k : Int, 1 ≤ k ∧ k ≤ 4 ∧ FirstAfter zone (date * day + zone.toLocal due % day)
              (date * day + zone.toLocal due % day + 1800 * k)) := by
  have hstep : ∀ k ≤ n, ∀ s s' date, occurrences here zone rewrite rule due k = some s →
      dateAfter here zone s.1 s.2 = some date → occurrences here zone rewrite rule due (k + 1) = some s' →
        (KeepsTime zone date (zone.toLocal due % day) s'.2 ↔
          Shown zone (date * day + zone.toLocal due % day) ∨
            ∃ k : Int, 1 ≤ k ∧ k ≤ 4 ∧ FirstAfter zone (date * day + zone.toLocal due % day)
              (date * day + zone.toLocal due % day + 1800 * k)) := by
    intro k hk s s' date hs hdate hs'
    rw [occurrences, hs, bind_some] at hs'
    obtain ⟨next, hn, rfl⟩ := map_eq_some_iff.mp hs'
    exact keepsTime_iff (time_of_shown hdates k hk s hs) hdate hn
  refine ⟨fun k hk s s' date hs hdate hs' => ?_, hstep n le_rfl⟩
  exact (hstep k (by omega) s s' date hs hdate hs').mpr (.inl (hdates k hk s date hs hdate))

/-- Madrid in the spring of 2026: from two to three in the night of 29 March. -/
def madrid : TimeZone := .changing 1774746000 3600 7200 TimeZone.hour_lt TimeZone.twoHours_lt

/-- Every Sunday. -/
def sundays : Recurrence := ⟨.weekly, 1, [6], none, none, none, none⟩

/-- 02:30 on 22 March 2026, in Madrid. -/
def beforeGap : Int := 1774143000

/-- Sundays at noon keep their time over the change. -/
theorem noon_kept : ∃ s s' date, occurrences madrid madrid (rewritten madrid) sundays (beforeGap + 34200) 0 = some s ∧
    dateAfter madrid madrid s.1 s.2 = some date ∧
      occurrences madrid madrid (rewritten madrid) sundays (beforeGap + 34200) 1 = some s' ∧
        KeepsTime madrid date (madrid.toLocal (beforeGap + 34200) % day) s'.2 := by
  have hall : ∀ k < 2, (occurrences madrid madrid (rewritten madrid) sundays (beforeGap + 34200) k).all
      (fun s => (dateAfter madrid madrid s.1 s.2).all
        (fun date => decide (Shown madrid (date * day + madrid.toLocal (beforeGap + 34200) % day)))) = true := by
    decide +kernel
  have hdates : ∀ k < 2, ∀ s date, occurrences madrid madrid (rewritten madrid) sundays (beforeGap + 34200) k = some s →
      dateAfter madrid madrid s.1 s.2 = some date →
        Shown madrid (date * day + madrid.toLocal (beforeGap + 34200) % day) := by
    intro k hk s date hs hdate
    have h := hall k hk
    rw [hs, all_some, hdate, all_some] at h
    exact of_decide_eq_true h
  have hsome : (occurrences madrid madrid (rewritten madrid) sundays (beforeGap + 34200) 1).isSome = true := by
    decide +kernel
  obtain ⟨s', hs'⟩ := isSome_iff_exists.mp hsome
  obtain ⟨s, hs, hnext⟩ := bind_eq_some_iff.mp hs'
  obtain ⟨next, hn, -⟩ := map_eq_some_iff.mp hnext
  obtain ⟨date, hdate, -⟩ := bind_eq_some_iff.mp hn
  exact ⟨s, s', date, hs, hdate, hs',
    (time_kept madrid madrid (rewritten madrid) sundays (beforeGap + 34200) 2 hdates).1 0 (by omega) s s' date hs hdate hs'⟩

/-- **A skipped night changes the time of the occurrences after it**: due at 02:30 on Sundays, the task is due at
03:00 on the night that skips 02:30, and again a week later, when 02:30 exists. -/
theorem later_after_gap : madrid.toLocal beforeGap % day = 9000 ∧
      (occurrences madrid madrid (rewritten madrid) sundays beforeGap 1).map (fun s => madrid.toLocal s.2 % day) =
        some 10800 ∧
      (occurrences madrid madrid (rewritten madrid) sundays beforeGap 2).map (fun s => madrid.toLocal s.2 % day) =
        some 10800 ∧
      (occurrences madrid madrid (rewritten madrid) sundays beforeGap 2).map
        (fun s => decide (Shown madrid (madrid.toLocal s.2 / day * day + 9000))) = some true := by
  decide +kernel

end Run

end Oreneta.Calendar

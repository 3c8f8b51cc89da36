import Mathlib.Data.Finset.Max
import Mathlib.Data.Int.Interval
import Oreneta.Calendar.Recurrence

/-!
# The dates a repeating task visits

What a rule means, as a set of dates counted from one of them, and the dates a task is moved to by completing
it again and again.

* `Falls rule d` — the dates of the series that has `d` in it.
* `following_isNext` — the date sought is the next one of the series.
* `falls_anchored` — anchored on a date of the series, the rule has the same series.
* `visits_iff` — the task visits the series, in order and without leaving one out, as long as its count and
  its end allow.
-/

namespace Oreneta.Calendar

open List Option
open Oreneta.Civil (ofDays toDays weekday week monthStart monthLength monthIndex)

/-! ## What a rule means -/

/-- The weekday of a monthly or yearly rule. -/
def Recurrence.dow (rule : Recurrence) (d : Int) : Int :=
  match rule.weekdays.head? with
  | some index => weekdayOf index
  | none => weekday d

/-- The day of the month of a rule. -/
def Recurrence.dom (rule : Recurrence) (d : Int) : Int :=
  match rule.monthDay with
  | some n => n
  | none => (ofDays d).day

/-- The date is the one of its month: the nth, or the last, of a weekday, or a day of the month, at most the
last. -/
def Recurrence.OfMonth (rule : Recurrence) (d e : Int) : Prop :=
  match rule.monthWeek with
  | some n =>
    weekday e = rule.dow d ∧ if n < 0 then monthIndex (e + 7) ≠ monthIndex e else ((ofDays e).day - 1) / 7 + 1 = n
  | none => (ofDays e).day = min (rule.dom d) (monthLength (monthIndex e))

/-- The date is one of the weekdays of the rule. -/
def Recurrence.OfWeek (rule : Recurrence) (d e : Int) : Prop :=
  if rule.weekdays = [] then weekday e = weekday d else (weekday e).toNat ∈ rule.weekdays

/-- The dates of the rule's series that has `d` in it. -/
def Falls (rule : Recurrence) (d e : Int) : Prop :=
  match rule.freq with
  | .daily => (rule.interval : Int) ∣ e - d
  | .weekly => rule.OfWeek d e ∧ (rule.interval : Int) ∣ week e - week d
  | .monthly => rule.OfMonth d e ∧ (rule.interval : Int) ∣ monthIndex e - monthIndex d
  | .yearly => rule.OfMonth d e ∧ 12 * (rule.interval : Int) ∣ monthIndex e - monthIndex d

instance (rule : Recurrence) (d e : Int) : Decidable (rule.OfMonth d e) := by
  unfold Recurrence.OfMonth
  cases rule.monthWeek with
  | some n => exact inferInstanceAs (Decidable (_ ∧ _))
  | none => exact inferInstanceAs (Decidable (_ = _))

instance (rule : Recurrence) (d e : Int) : Decidable (rule.OfWeek d e) :=
  inferInstanceAs (Decidable (ite _ _ _))

instance (rule : Recurrence) (d : Int) : DecidablePred (Falls rule d) := by
  intro e
  unfold Falls
  cases rule.freq with
  | daily => exact inferInstanceAs (Decidable (_ ∣ _))
  | weekly => exact inferInstanceAs (Decidable (_ ∧ _))
  | monthly => exact inferInstanceAs (Decidable (_ ∧ _))
  | yearly => exact inferInstanceAs (Decidable (_ ∧ _))

/-- The rules the editors write, for a series with `d` in it: a monthly or yearly rule that names no day of the
month is on a day every month has. -/
structure Valid (rule : Recurrence) (d : Int) : Prop where
  interval : 1 ≤ rule.interval
  weekdays : ∀ w ∈ rule.weekdays, w < 7
  monthWeek : ∀ n, rule.monthWeek = some n → (1 ≤ n ∧ n ≤ 4) ∨ n = -1
  monthDay : ∀ m, rule.monthDay = some m → 1 ≤ m ∧ m ≤ 31
  count : ∀ c, rule.count = some c → 1 ≤ c
  anchored : (rule.freq = .monthly ∨ rule.freq = .yearly) → rule.monthWeek = none → rule.monthDay = none →
    (ofDays d).day ≤ 28

/-- The next date of a set. -/
def IsNext (P : Int → Prop) (a b : Int) : Prop := a < b ∧ P b ∧ ∀ x, a < x → x < b → ¬ P x

/-! ## The dates of months -/

section Months

variable {y m : Int}

theorem fromYmd_eq (hm : 1 ≤ m ∧ m ≤ 12) {d : Int} (hd : 1 ≤ d ∧ d ≤ monthLength (y * 12 + m - 1)) :
    fromYmd y m d = some (monthStart (y * 12 + m - 1) + d - 1) := by
  rw [fromYmd, if_pos (Civil.isValid_iff.mpr ⟨hm, hd⟩), Civil.toDays_eq hm]

theorem daysInMonth_eq (hm : 1 ≤ m ∧ m ≤ 12) : daysInMonth y m = monthLength (y * 12 + m - 1) := by
  have hlen := Civil.monthLength_range (y * 12 + m - 1 + 1)
  have hthis := Civil.monthLength_range (y * 12 + m - 1)
  have hnext : ∃ y' m', (if m = 12 then (y + 1, 1) else (y, m + 1)) = (y', m') ∧ (1 ≤ m' ∧ m' ≤ 12) ∧
      y' * 12 + m' - 1 = y * 12 + m - 1 + 1 := by
    by_cases h : m = 12
    · exact ⟨y + 1, 1, if_pos h, by omega, by omega⟩
    · exact ⟨y, m + 1, if_neg h, by omega, by omega⟩
  obtain ⟨y', m', hif, hm', hidx⟩ := hnext
  have hfirst : fromYmd y' m' 1 = some (monthStart (y * 12 + m - 1 + 1)) := by
    rw [fromYmd_eq hm' (by rw [hidx]; omega), hidx]
    congr 1
    omega
  have hlast : monthIndex (monthStart (y * 12 + m - 1 + 1) - 1) = y * 12 + m - 1 := by
    rw [Civil.monthIndex_iff]
    have := Civil.monthStart_lt_succ (y * 12 + m - 1)
    omega
  unfold daysInMonth
  rw [hif]
  simp only [hfirst]
  rw [Civil.ofDays_day, hlast]
  unfold monthLength
  omega

theorem clamped_eq (hm : 1 ≤ m ∧ m ≤ 12) {d : Int} (hd : 1 ≤ d) :
    clamped y m d = some (monthStart (y * 12 + m - 1) + min d (monthLength (y * 12 + m - 1)) - 1) := by
  have hlen := Civil.monthLength_range (y * 12 + m - 1)
  rw [clamped, daysInMonth_eq hm, fromYmd_eq hm (by omega)]
  congr 1
  omega

theorem nthWeekday_eq (hm : 1 ≤ m ∧ m ≤ 12) (w : Int) {n : Int} (hn : 1 ≤ n ∧ n ≤ 4) :
    nthWeekday y m w n = some (monthStart (y * 12 + m - 1) +
      ((n - 1) * 7 + (7 + w - weekday (monthStart (y * 12 + m - 1))) % 7)) := by
  have hlen := Civil.monthLength_range (y * 12 + m - 1)
  have hfirst : fromYmd y m 1 = some (monthStart (y * 12 + m - 1)) := by
    rw [fromYmd_eq hm (by omega)]
    congr 1
    omega
  rw [nthWeekday, if_neg (by omega), fromWeekdayOfMonth, if_neg (by omega), hfirst]
  simp only
  rw [fromYmd_eq hm (by omega)]
  congr 1
  omega

theorem lastWeekday_eq (hm : 1 ≤ m ∧ m ≤ 12) (w : Int) : nthWeekday y m w (-1) = some (monthStart (y * 12 + m - 1 + 1) - 1 -
      (7 + weekday (monthStart (y * 12 + m - 1 + 1) - 1) - w) % 7) := by
  have hlen := Civil.monthLength_range (y * 12 + m - 1)
  have hlast : fromYmd y m (daysInMonth y m) = some (monthStart (y * 12 + m - 1 + 1) - 1) := by
    rw [daysInMonth_eq hm, fromYmd_eq hm (by omega)]
    unfold monthLength
    congr 1
    omega
  rw [nthWeekday, if_pos (by omega), hlast]
  simp only
  generalize hback : (7 + weekday (monthStart (y * 12 + m - 1 + 1) - 1) - w) % 7 = back
  have hrange : 0 ≤ back ∧ back < 7 := by omega
  have hidx : monthIndex (monthStart (y * 12 + m - 1 + 1) - 1 - (back + 7 * (- -1 - 1))) = y * 12 + m - 1 := by
    rw [Civil.monthIndex_iff]
    unfold monthLength at hlen
    omega
  have hmonth : (ofDays (monthStart (y * 12 + m - 1 + 1) - 1 - (back + 7 * (- -1 - 1)))).month = m := by
    rw [Civil.ofDays_eq hidx]
    dsimp only
    omega
  rw [if_pos hmonth]
  congr 1
  omega

end Months

section Candidates

variable {rule : Recurrence} {d x t : Int}

/-- The rule's date in a month. -/
def Recurrence.inMonth (rule : Recurrence) (d t : Int) : Int :=
  match rule.monthWeek with
  | some n =>
    if n < 0 then monthStart (t + 1) - 1 - (7 + weekday (monthStart (t + 1) - 1) - rule.dow d) % 7
    else monthStart t + ((n - 1) * 7 + (7 + rule.dow d - weekday (monthStart t)) % 7)
  | none => monthStart t + min (rule.dom d) (monthLength t) - 1

theorem dow_range (rule : Recurrence) (d : Int) : 0 ≤ rule.dow d ∧ rule.dow d < 7 := by
  unfold Recurrence.dow
  split
  · unfold weekdayOf
    omega
  · exact Civil.weekday_range d

theorem Valid.dom_range (hv : Valid rule d) : 1 ≤ rule.dom d ∧ rule.dom d ≤ 31 := by
  unfold Recurrence.dom
  split
  · rename_i n hn
    have := hv.monthDay n hn
    omega
  · obtain ⟨-, -, h1, h2⟩ := Civil.ofDays_range d
    exact ⟨h1, h2⟩

theorem candidate_eq (hv : Valid rule d) (months : Int) :
    rule.candidate d months = some (rule.inMonth d (monthIndex d + months)) := by
  have htotal : (ofDays d).year * 12 + (ofDays d).month - 1 + months = monthIndex d + months := rfl
  generalize monthIndex d + months = t at htotal ⊢
  have hm : 1 ≤ t % 12 + 1 ∧ t % 12 + 1 ≤ 12 := by omega
  have hidx : t / 12 * 12 + (t % 12 + 1) - 1 = t := by omega
  unfold Recurrence.candidate Recurrence.inMonth plusMonths
  simp only [htotal]
  cases hw : rule.monthWeek with
  | none =>
    show clamped (t / 12) (t % 12 + 1) (rule.dom d) = _
    rw [clamped_eq hm hv.dom_range.1, hidx]
  | some n =>
    show nthWeekday (t / 12) (t % 12 + 1) (rule.dow d) n = some (if n < 0 then _ else _)
    rcases hv.monthWeek n hw with hn | rfl
    · rw [nthWeekday_eq hm _ hn, hidx, if_neg (by omega)]
    · rw [lastWeekday_eq hm, hidx, if_pos (by omega)]

/-- **Every month has one date of the rule.** -/
theorem ofMonth_iff (hv : Valid rule d) : rule.OfMonth d x ∧ monthIndex x = t ↔ x = rule.inMonth d t := by
  have hlen := Civil.monthLength_range t
  have hdow := dow_range rule d
  have hdom := hv.dom_range
  unfold Recurrence.OfMonth Recurrence.inMonth
  cases hw : rule.monthWeek with
  | none =>
    simp only
    constructor
    · rintro ⟨hday, rfl⟩
      rw [Civil.ofDays_day] at hday
      omega
    · intro hx
      have hidx : monthIndex x = t := by
        rw [Civil.monthIndex_iff]
        unfold monthLength at hlen hx
        omega
      refine ⟨?_, hidx⟩
      rw [Civil.ofDays_day, hidx]
      omega
  | some n =>
    simp only
    rcases hv.monthWeek n hw with hn | rfl
    · rw [if_neg (by omega), if_neg (by omega)]
      constructor
      · rintro ⟨⟨hwd, hday⟩, rfl⟩
        rw [Civil.ofDays_day] at hday
        unfold weekday at hwd ⊢
        omega
      · intro hx
        have hidx : monthIndex x = t := by
          rw [Civil.monthIndex_iff]
          unfold monthLength at hlen
          omega
        refine ⟨?_, hidx⟩
        rw [Civil.ofDays_day, hidx]
        unfold weekday at hx ⊢
        omega
    · rw [if_pos (by omega), if_pos (by omega)]
      constructor
      · rintro ⟨⟨hwd, hlast⟩, rfl⟩
        have hin := Civil.monthIndex_iff.mp (rfl : monthIndex x = monthIndex x)
        rw [ne_eq, Civil.monthIndex_iff] at hlast
        unfold weekday at hwd ⊢
        omega
      · intro hx
        have hidx : monthIndex x = t := by
          rw [Civil.monthIndex_iff]
          unfold monthLength at hlen
          omega
        refine ⟨⟨?_, ?_⟩, hidx⟩
        · unfold weekday at hx ⊢
          omega
        · rw [ne_eq, hidx, Civil.monthIndex_iff]
          omega

end Candidates

/-! ## The next date -/

section Next

variable {rule : Recurrence} {d : Int}

theorem inMonth_spec (hv : Valid rule d) (t : Int) :
    rule.OfMonth d (rule.inMonth d t) ∧ monthIndex (rule.inMonth d t) = t := (ofMonth_iff hv).mpr rfl

variable {i : Int}

/-- The search finds the date of the next month counted: that of `d`'s own month is `d`. -/
theorem search_eq (hv : Valid rule d) (hd : rule.OfMonth d d) (hi : 1 ≤ i) :
    rule.search d i = some (rule.inMonth d (monthIndex d + i)) := by
  have hself : d = rule.inMonth d (monthIndex d) := (ofMonth_iff hv).mp ⟨hd, rfl⟩
  have hlater : d < rule.inMonth d (monthIndex d + i) := by
    apply Civil.lt_of_monthIndex_lt
    rw [(inMonth_spec hv _).2]
    omega
  have hrange : List.range 49 = 0 :: 1 :: (List.range 47).map (· + 2) := by decide
  have h0 : (rule.candidate d (i * (0 : Nat))).filter (d < ·) = none := by
    rw [candidate_eq hv, Int.natCast_zero, Int.mul_zero, Int.add_zero, ← hself]
    simp
  have h1 : (rule.candidate d (i * (1 : Nat))).filter (d < ·) = some (rule.inMonth d (monthIndex d + i)) := by
    rw [candidate_eq hv, Int.natCast_one, Int.mul_one]
    simp [hlater]
  rw [Recurrence.search, hrange, findSome?_cons, h0, findSome?_cons, h1]

theorem eq_zero_or_of_dvd {k : Int} (hdvd : i ∣ k) (h0 : 0 ≤ k) (h1 : k ≤ i) : k = 0 ∨ k = i := by
  by_cases hk : k = 0
  · exact .inl hk
  · have := Int.le_of_dvd (by omega) hdvd
    exact .inr (by omega)

theorem search_isNext (hv : Valid rule d) (hd : rule.OfMonth d d) (hi : 1 ≤ i) :
    IsNext (fun x => rule.OfMonth d x ∧ i ∣ monthIndex x - monthIndex d) d (rule.inMonth d (monthIndex d + i)) := by
  obtain ⟨hof, hidx⟩ := inMonth_spec hv (monthIndex d + i)
  refine ⟨?_, ⟨hof, ?_⟩, ?_⟩
  · apply Civil.lt_of_monthIndex_lt
    omega
  · rw [hidx]
    exact ⟨1, by omega⟩
  · rintro x hlow hhigh ⟨hx, hdvd⟩
    have h0 := Civil.monthIndex_mono (Int.le_of_lt hlow)
    have h1 := Civil.monthIndex_mono (Int.le_of_lt hhigh)
    rw [hidx] at h1
    have hunique := (ofMonth_iff hv).mp ⟨hx, rfl⟩
    rcases eq_zero_or_of_dvd hdvd (by omega) (by omega) with hk | hk
    · have hself := (ofMonth_iff hv).mp ⟨hd, rfl⟩
      rw [show monthIndex x = monthIndex d by omega, ← hself] at hunique
      omega
    · rw [show monthIndex x = monthIndex d + i by omega] at hunique
      omega

theorem mem_days {current : Int} {k : Nat} : k ∈ rule.days current ↔
    if rule.weekdays.filter (· < 7) = [] then k = (weekday current).toNat else k ∈ rule.weekdays ∧ k < 7 := by
  unfold Recurrence.days
  simp only [List.mem_dedup, mem_insertionSort, List.isEmpty_iff]
  split
  · rw [mem_singleton]
  · rw [mem_filter, decide_eq_true_eq]

theorem sorted_days (rule : Recurrence) (current : Int) : (rule.days current).Pairwise (· ≤ ·) :=
  (pairwise_insertionSort (· ≤ ·) _).sublist (dedup_sublist _)

/-- The weekdays a valid weekly rule falls on. -/
theorem ofWeek_iff (hv : Valid rule d) (x : Int) : rule.OfWeek d x ↔ (weekday x).toNat ∈ rule.days d := by
  have hfilter : rule.weekdays.filter (· < 7) = rule.weekdays :=
    filter_eq_self.mpr fun w hw => decide_eq_true (hv.weekdays w hw)
  have hx := Civil.weekday_range x
  have hd := Civil.weekday_range d
  rw [mem_days, hfilter, Recurrence.OfWeek]
  split
  · omega
  · constructor
    · exact fun h => ⟨h, hv.weekdays _ h⟩
    · exact fun h => h.1

theorem days_ne_nil (current : Int) : rule.days current ≠ [] := by
  intro h
  have hno : ∀ k, k ∉ rule.days current := fun k hk => by
    rw [h] at hk
    cases hk
  by_cases hf : rule.weekdays.filter (· < 7) = []
  · exact hno _ (mem_days.mpr (by rw [if_pos hf]))
  · obtain ⟨k, hk⟩ := exists_mem_of_ne_nil _ hf
    rw [mem_filter, decide_eq_true_eq] at hk
    exact hno k (mem_days.mpr (by rw [if_neg hf]; exact hk))

theorem lt_of_mem_days {current : Int} {k : Nat} (h : k ∈ rule.days current) : k < 7 := by
  rw [mem_days] at h
  split at h
  · have := Civil.weekday_range current
    omega
  · exact h.2

/-- The first of the days after today is the least of them. -/
theorem find_days {current : Int} {today k : Nat} (h : (rule.days current).find? (today < ·) = some k) :
    today < k ∧ k ∈ rule.days current ∧ ∀ k' ∈ rule.days current, today < k' → k ≤ k' := by
  obtain ⟨hk, before, after, hsplit, hbefore⟩ := find?_eq_some_iff_append.mp h
  have hs := sorted_days rule current
  refine ⟨by simpa using hk, mem_of_find?_eq_some h, fun k' hk' hlt => ?_⟩
  rw [hsplit] at hk' hs
  rw [mem_append, mem_cons] at hk'
  rcases hk' with hk' | rfl | hk'
  · have := hbefore k' hk'
    simp at this
    omega
  · exact le_rfl
  · exact (pairwise_cons.mp (pairwise_append.mp hs).2.1).1 k' hk'

theorem headD_days (rule : Recurrence) (current : Int) : (rule.days current).headD 0 ∈ rule.days current ∧
    ∀ k ∈ rule.days current, (rule.days current).headD 0 ≤ k := by
  have hs := sorted_days rule current
  cases hd : rule.days current with
  | nil => exact absurd hd (days_ne_nil current)
  | cons first rest =>
    rw [hd] at hs
    refine ⟨by simp, fun k hk => ?_⟩
    rcases mem_cons.mp hk with rfl | hk
    · exact le_rfl
    · exact (pairwise_cons.mp hs).1 k hk

/-- The next weekday of the rule this week, or the first one of the next week counted. -/
theorem weekly_isNext (rule : Recurrence) {d : Int} (hi : 1 ≤ i) :
    IsNext (fun x => (weekday x).toNat ∈ rule.days d ∧ i ∣ week x - week d) d
      (match (rule.days d).find? ((weekday d).toNat < ·) with
      | some k => d + ((k : Int) - (weekday d).toNat)
      | none => d - (weekday d).toNat + (7 * i + ((rule.days d).headD 0 : Nat))) := by
  have hd := Civil.week_weekday d
  have hdr := Civil.weekday_range d
  cases hfind : (rule.days d).find? ((weekday d).toNat < ·) with
  | some k =>
    obtain ⟨hlt, hmem, hleast⟩ := find_days hfind
    have hk := lt_of_mem_days hmem
    simp only
    have hb : d + ((k : Int) - (weekday d).toNat) = 7 * week d + k - 3 := by omega
    obtain ⟨hbw, hbd⟩ := Civil.week_of (w := week d) (k := k) (by omega)
    rw [hb]
    refine ⟨by omega, ⟨by rw [hbd]; exact hmem, by rw [hbw]; exact ⟨0, by omega⟩⟩, ?_⟩
    rintro x hlow hhigh ⟨hx, -⟩
    have hxw := Civil.week_weekday x
    have hxr := Civil.weekday_range x
    have hsame : week x = week d := by
      have := lt_of_mem_days hx
      omega
    have := hleast _ hx (by omega)
    omega
  | none =>
    obtain ⟨hmem, hleast⟩ := headD_days rule d
    have hnone : ∀ k ∈ rule.days d, ¬ (weekday d).toNat < k := by
      intro k hk
      have := find?_eq_none.mp hfind k hk
      simpa using this
    generalize (rule.days d).headD 0 = first at hmem hleast ⊢
    have hk := lt_of_mem_days hmem
    simp only
    have hb : d - (weekday d).toNat + (7 * i + (first : Nat)) = 7 * (week d + i) + first - 3 := by omega
    obtain ⟨hbw, hbd⟩ := Civil.week_of (w := week d + i) (k := first) (by omega)
    rw [hb]
    refine ⟨by omega, ⟨by rw [hbd]; exact hmem, by rw [hbw]; exact ⟨1, by omega⟩⟩, ?_⟩
    rintro x hlow hhigh ⟨hx, hdvd⟩
    have hxw := Civil.week_weekday x
    have hxr := Civil.weekday_range x
    rcases eq_zero_or_of_dvd hdvd (by omega) (by omega) with hz | hz
    · have := hnone _ hx
      omega
    · have := hleast _ hx
      omega

theorem daily_isNext (hi : 1 ≤ i) : IsNext (fun x => i ∣ x - d) d (d + i) := by
  refine ⟨by omega, ⟨1, by omega⟩, fun x hlow hhigh hdvd => ?_⟩
  rcases eq_zero_or_of_dvd hdvd (by omega) (by omega) with h | h <;> omega

/-- **The date sought is the next one of the series.** -/
theorem following_isNext (hv : Valid rule d) (hd : Falls rule d d) :
    ∃ next, rule.following d = some next ∧ IsNext (Falls rule d) d next := by
  have hi : ((max rule.interval 1 : Nat) : Int) = rule.interval := by
    have := hv.interval
    omega
  have hpos : 1 ≤ (rule.interval : Int) := by
    have := hv.interval
    omega
  unfold Recurrence.following
  rw [hi]
  unfold Falls at hd ⊢
  cases hf : rule.freq with
  | daily => exact ⟨_, rfl, daily_isNext hpos⟩
  | weekly =>
    simp only [ofWeek_iff hv]
    have hnext := weekly_isNext rule (d := d) hpos
    cases hfind : (rule.days d).find? ((weekday d).toNat < ·) with
    | some k =>
      rw [hfind] at hnext
      exact ⟨_, rfl, hnext⟩
    | none =>
      rw [hfind] at hnext
      exact ⟨_, rfl, hnext⟩
  | monthly =>
    rw [hf] at hd
    exact ⟨_, search_eq hv hd.1 hpos, search_isNext hv hd.1 hpos⟩
  | yearly =>
    rw [hf] at hd
    exact ⟨_, search_eq hv hd.1 (by omega), search_isNext hv hd.1 (by omega)⟩

end Next

/-! ## Anchored on the next date -/

section Anchored

variable {rule : Recurrence} {d e : Int}

@[simp] theorem advanced_freq (rule : Recurrence) : (advanced rule).freq = rule.freq := rfl
@[simp] theorem advanced_interval (rule : Recurrence) : (advanced rule).interval = rule.interval := rfl
@[simp] theorem advanced_weekdays (rule : Recurrence) : (advanced rule).weekdays = rule.weekdays := rfl
@[simp] theorem advanced_monthWeek (rule : Recurrence) : (advanced rule).monthWeek = rule.monthWeek := rfl
@[simp] theorem advanced_monthDay (rule : Recurrence) : (advanced rule).monthDay = rule.monthDay := rfl

@[simp] theorem anchored_freq (rule : Recurrence) (e : Int) : (anchored rule e).freq = rule.freq := by
  unfold anchored
  cases hf : rule.freq with
  | daily => rfl
  | weekly => rfl
  | monthly => simp only; split <;> rfl
  | yearly => simp only; split <;> rfl

@[simp] theorem anchored_interval (rule : Recurrence) (e : Int) : (anchored rule e).interval = max rule.interval 1 := by
  unfold anchored
  cases hf : rule.freq with
  | daily => rfl
  | weekly => rfl
  | monthly => simp only; split <;> rfl
  | yearly => simp only; split <;> rfl

@[simp] theorem anchored_count (rule : Recurrence) (e : Int) : (anchored rule e).count = rule.count := by
  unfold anchored
  cases hf : rule.freq with
  | daily => rfl
  | weekly => rfl
  | monthly => simp only; split <;> rfl
  | yearly => simp only; split <;> rfl

@[simp] theorem anchored_until (rule : Recurrence) (e : Int) : (anchored rule e).until_ = rule.until_ := by
  unfold anchored
  cases hf : rule.freq with
  | daily => rfl
  | weekly => rfl
  | monthly => simp only; split <;> rfl
  | yearly => simp only; split <;> rfl

theorem anchored_weekly (rule : Recurrence) (h : rule.freq = .weekly) (e : Int) :
    (anchored rule e).weekdays = if rule.weekdays.isEmpty then [(weekday e).toNat] else rule.weekdays := by
  unfold anchored
  rw [h]

theorem anchored_nth (rule : Recurrence) (h : rule.freq = .monthly ∨ rule.freq = .yearly) (hw : rule.monthWeek.isSome = true) (e : Int) :
    (anchored rule e).monthWeek = rule.monthWeek ∧ (anchored rule e).monthDay = none ∧
      (anchored rule e).weekdays =
        (if rule.weekdays.isEmpty then [(weekday e).toNat] else rule.weekdays).take 1 := by
  unfold anchored
  rcases h with h | h
  · rw [h]
    simp [hw]
  · rw [h]
    simp [hw]

theorem anchored_day (rule : Recurrence) (h : rule.freq = .monthly ∨ rule.freq = .yearly) (hw : rule.monthWeek = none) (e : Int) :
    (anchored rule e).monthWeek = none ∧
      (anchored rule e).monthDay = some (rule.monthDay.getD (ofDays e).day.toNat) ∧
        (anchored rule e).weekdays = [] := by
  unfold anchored
  rcases h with h | h
  · rw [h]
    simp [hw]
  · rw [h]
    simp [hw]

theorem dvd_sub_iff {i a b c : Int} (h : i ∣ b - a) : i ∣ c - b ↔ i ∣ c - a := by
  have he : c - a = c - b + (b - a) := by omega
  rw [he, Int.dvd_add_left h]

theorem dow_of_head {w : Nat} (h : rule.weekdays.head? = some w) : rule.dow d = weekdayOf w := by
  rw [Recurrence.dow, h]

theorem dow_of_nil (h : rule.weekdays = []) : rule.dow d = weekday d := by
  rw [Recurrence.dow, h]
  rfl

/-- The date of a month stays the same when the rule is anchored on one. -/
theorem ofMonth_anchored (hv : Valid rule d) (hf : rule.freq = .monthly ∨ rule.freq = .yearly)
    (he : rule.OfMonth d e) (x : Int) : (anchored (advanced rule) e).OfMonth e x ↔ rule.OfMonth d x := by
  unfold Recurrence.OfMonth at he ⊢
  cases hw : rule.monthWeek with
  | some n =>
    obtain ⟨h1, -, h3⟩ := anchored_nth (advanced rule) hf (by simp [hw]) e
    rw [hw] at he
    have hdow : (anchored (advanced rule) e).dow e = rule.dow d := by
      have her := Civil.weekday_range e
      rw [advanced_weekdays] at h3
      rcases hl : rule.weekdays with _ | ⟨w, rest⟩
      · rw [hl] at h3
        rw [dow_of_head (w := (weekday e).toNat) (by rw [h3]; rfl), dow_of_nil hl]
        have hwd : weekday e = weekday d := by rw [← dow_of_nil hl (d := d)]; exact he.1
        unfold weekdayOf
        omega
      · rw [hl] at h3
        rw [dow_of_head (w := w) (by rw [h3]; rfl), dow_of_head (w := w) (by rw [hl]; rfl)]
    rw [h1, advanced_monthWeek, hw]
    simp only [hdow]
  | none =>
    obtain ⟨h1, h2, -⟩ := anchored_day (advanced rule) hf hw e
    rw [hw] at he
    have hdom : (anchored (advanced rule) e).dom e = rule.dom d := by
      have her := Civil.ofDays_range e
      have hlen := Civil.monthLength_range (monthIndex e)
      unfold Recurrence.dom at he ⊢
      rw [h2]
      simp only [advanced_monthDay]
      cases hm : rule.monthDay with
      | some m => simp
      | none =>
        have hsmall := hv.anchored hf hw hm
        rw [hm] at he
        simp only [getD_none] at he ⊢
        omega
    rw [h1]
    simp only [hdom]

theorem ofWeek_anchored (hf : rule.freq = .weekly) (he : rule.OfWeek d e) (x : Int) :
    (anchored (advanced rule) e).OfWeek e x ↔ rule.OfWeek d x := by
  have hx := Civil.weekday_range x
  have her := Civil.weekday_range e
  unfold Recurrence.OfWeek at he ⊢
  rw [anchored_weekly (advanced rule) hf, advanced_weekdays]
  cases hl : rule.weekdays with
  | nil =>
    rw [hl, if_pos rfl] at he
    simp only [isEmpty_nil, if_true, cons_ne_nil, if_false, mem_singleton]
    omega
  | cons w rest => simp

/-- **Anchored on a date of the series, the rule has the same series.** -/
theorem falls_anchored (hv : Valid rule d) (he : Falls rule d e) (x : Int) :
    Falls (anchored (advanced rule) e) e x ↔ Falls rule d x := by
  have hi : ((max rule.interval 1 : Nat) : Int) = rule.interval := by
    have := hv.interval
    omega
  unfold Falls at he ⊢
  rw [anchored_freq, advanced_freq, anchored_interval, advanced_interval, hi]
  cases hf : rule.freq with
  | daily =>
    rw [hf] at he
    exact dvd_sub_iff he
  | weekly =>
    rw [hf] at he
    exact and_congr (ofWeek_anchored hf he.1 x) (dvd_sub_iff he.2)
  | monthly =>
    rw [hf] at he
    exact and_congr (ofMonth_anchored hv (.inl hf) he.1 x) (dvd_sub_iff he.2)
  | yearly =>
    rw [hf] at he
    exact and_congr (ofMonth_anchored hv (.inr hf) he.1 x) (dvd_sub_iff he.2)

theorem valid_anchored_month (hv : Valid rule d) (hf : rule.freq = .monthly ∨ rule.freq = .yearly) (e : Int)
    (hinterval : 1 ≤ (anchored (advanced rule) e).interval)
    (hcount : ∀ c, (anchored (advanced rule) e).count = some c → 1 ≤ c) : Valid (anchored (advanced rule) e) e := by
  have her := Civil.weekday_range e
  have hday := Civil.ofDays_range e
  cases hw : rule.monthWeek with
  | some n =>
    obtain ⟨h1, h2, h3⟩ := anchored_nth (advanced rule) hf (by simp [hw]) e
    refine ⟨hinterval, ?_, ?_, by simp [h2], hcount, ?_⟩
    · rw [h3, advanced_weekdays]
      intro w hm
      have hm' := mem_of_mem_take hm
      split at hm'
      · rw [mem_singleton] at hm'
        omega
      · exact hv.weekdays w hm'
    · rw [h1]
      exact hv.monthWeek
    · rw [h1, advanced_monthWeek, hw]
      intro _ h
      cases h
  | none =>
    obtain ⟨h1, h2, h3⟩ := anchored_day (advanced rule) hf hw e
    refine ⟨hinterval, by simp [h3], by simp [h1], ?_, hcount, ?_⟩
    · rw [h2, advanced_monthDay]
      intro m hm
      cases hmd : rule.monthDay with
      | some m' =>
        rw [hmd] at hm
        cases hm
        exact hv.monthDay m' hmd
      | none =>
        rw [hmd, getD_none, some.injEq] at hm
        omega
    · rw [h2]
      intro _ _ h
      cases h

theorem valid_anchored (hv : Valid rule d) (e : Int) : Valid (anchored (advanced rule) e) e := by
  have her := Civil.weekday_range e
  have hday := Civil.ofDays_range e
  have hcount : ∀ c, (anchored (advanced rule) e).count = some c → 1 ≤ c := by
    intro c hc
    rw [anchored_count, advanced, map_eq_some_iff] at hc
    obtain ⟨left, -, rfl⟩ := hc
    omega
  have hinterval : 1 ≤ (anchored (advanced rule) e).interval := by
    rw [anchored_interval]
    omega
  cases hf : rule.freq with
  | daily =>
    have hr : (anchored (advanced rule) e).weekdays = [] ∧ (anchored (advanced rule) e).monthWeek = none ∧
        (anchored (advanced rule) e).monthDay = none := by
      unfold anchored
      rw [advanced_freq, hf]
      exact ⟨rfl, rfl, rfl⟩
    refine ⟨hinterval, by simp [hr.1], by simp [hr.2.1], by simp [hr.2.2], hcount, ?_⟩
    rw [anchored_freq, advanced_freq, hf]
    rintro (h | h) <;> cases h
  | weekly =>
    have hr : (anchored (advanced rule) e).monthWeek = none ∧ (anchored (advanced rule) e).monthDay = none := by
      unfold anchored
      rw [advanced_freq, hf]
      exact ⟨rfl, rfl⟩
    refine ⟨hinterval, ?_, by simp [hr.1], by simp [hr.2], hcount, ?_⟩
    · rw [anchored_weekly (advanced rule) hf, advanced_weekdays]
      intro w hw
      split at hw
      · rw [mem_singleton] at hw
        omega
      · exact hv.weekdays w hw
    · rw [anchored_freq, advanced_freq, hf]
      rintro (h | h) <;> cases h
  | monthly => exact valid_anchored_month hv (.inl hf) e hinterval hcount
  | yearly => exact valid_anchored_month hv (.inr hf) e hinterval hcount

end Anchored

/-! ## Completing again and again -/

section Visits

variable {zone : TimeZone} {rule : Recurrence} {d e : Int} {n : Nat}

/-- How many dates of the series come before a date, `d` the first of them. -/
def rank (rule : Recurrence) (d e : Int) : Nat := ((@Finset.Ico Int _ Int.instLocallyFiniteOrder d e).filter (Falls rule d)).card

theorem rank_self (rule : Recurrence) (d : Int) : rank rule d d = 0 := by
  unfold rank
  rw [Finset.Ico_self]
  rfl

theorem rank_next {a b : Int} (hda : d ≤ a) (ha : Falls rule d a) (h : IsNext (Falls rule d) a b) :
    rank rule d b = rank rule d a + 1 := by
  obtain ⟨hlt, -, hbetween⟩ := h
  have hset : (Finset.Ico d b).filter (Falls rule d) = insert a ((Finset.Ico d a).filter (Falls rule d)) := by
    ext x
    simp only [Finset.mem_filter, Finset.mem_Ico, Finset.mem_insert]
    constructor
    · rintro ⟨⟨h1, h2⟩, hx⟩
      by_cases hxa : a < x
      · exact absurd hx (hbetween x hxa h2)
      · by_cases hx' : x = a
        · exact .inl hx'
        · exact .inr ⟨⟨h1, by omega⟩, hx⟩
    · rintro (rfl | ⟨⟨h1, h2⟩, hx⟩)
      · exact ⟨⟨hda, hlt⟩, ha⟩
      · exact ⟨⟨h1, by omega⟩, hx⟩
  unfold rank
  rw [hset, Finset.card_insert_of_notMem (by simp)]

theorem isNext_unique {P : Int → Prop} {a b c : Int} (hb : IsNext P a b) (hc : IsNext P a c) : b = c := by
  obtain ⟨hab, hPb, hb⟩ := hb
  obtain ⟨hac, hPc, hc⟩ := hc
  by_contra hne
  rcases Int.lt_or_gt_of_ne hne with h | h
  · exact hc b hab h hPb
  · exact hb c hac h hPc

/-- Before a later date of the series there is a last one. -/
theorem exists_previous (hd : Falls rule d d) (hde : d < e) (he : Falls rule d e) :
    ∃ a, d ≤ a ∧ Falls rule d a ∧ IsNext (Falls rule d) a e := by
  have hne : ((Finset.Ico d e).filter (Falls rule d)).Nonempty :=
    ⟨d, by rw [Finset.mem_filter, Finset.mem_Ico]; exact ⟨⟨le_rfl, hde⟩, hd⟩⟩
  have hmax := Finset.max'_mem _ hne
  rw [Finset.mem_filter, Finset.mem_Ico] at hmax
  obtain ⟨⟨h1, h2⟩, h3⟩ := hmax
  refine ⟨_, h1, h3, h2, he, fun x hx hxe hfx => ?_⟩
  have hle := Finset.le_max' ((Finset.Ico d e).filter (Falls rule d)) x (by
    rw [Finset.mem_filter, Finset.mem_Ico]
    exact ⟨⟨by omega, hxe⟩, hfx⟩)
  omega

/-- The series may go on to a date: its count is not spent, and its end not passed. -/
def Allowed (zone : TimeZone) (rule : Recurrence) (d e : Int) (n : Nat) : Prop :=
  (∀ c, rule.count = some c → n < c) ∧ (e = d ∨ ∀ last, rule.untilDate zone = some last → e ≤ last)

/-- The rule and the date after so many completions. -/
structure Visited (zone : TimeZone) (rule : Recurrence) (d : Int) (n : Nat) (s : Recurrence × Int) : Prop where
  valid : Valid s.1 s.2
  series : ∀ x, Falls s.1 s.2 x ↔ Falls rule d x
  falls : Falls rule d s.2
  le : d ≤ s.2
  rank : rank rule d s.2 = n
  until_ : s.1.until_ = rule.until_
  count : s.1.count = rule.count.map (· - n)
  allowed : Allowed zone rule d s.2 n

theorem visited_zero (hv : Valid rule d) (hd : Falls rule d d) : Visited zone rule d 0 (rule, d) where
  valid := hv
  series _ := Iff.rfl
  falls := hd
  le := le_rfl
  rank := rank_self rule d
  until_ := rfl
  count := by simp
  allowed := ⟨fun c hc => hv.count c hc, .inl rfl⟩

variable {s : Recurrence × Int}

/-- **What a completion does**: the task goes to the next date of its series, or its count or its end stops
it. -/
theorem completeOccurrence_iff (h : Visited zone rule d n s) {s' : Recurrence × Int} : completeOccurrence zone s = some s' ↔
      IsNext (Falls rule d) s.2 s'.2 ∧ s'.1 = anchored (advanced s.1) s'.2 ∧
        (∀ c, rule.count = some c → n + 1 < c) ∧ (∀ last, rule.untilDate zone = some last → s'.2 ≤ last) := by
  obtain ⟨next, hfol, hnext⟩ := following_isNext h.valid ((h.series s.2).mpr h.falls)
  have hnext' : IsNext (Falls rule d) s.2 next := by
    obtain ⟨h1, h2, h3⟩ := hnext
    exact ⟨h1, (h.series next).mp h2, fun x hx hxn hf => h3 x hx hxn ((h.series x).mpr hf)⟩
  have huntil : s.1.untilDate zone = rule.untilDate zone := by
    unfold Recurrence.untilDate
    rw [h.until_]
  have hcount : s.1.count.any (· ≤ 1) = true ↔ ¬ ∀ c, rule.count = some c → n + 1 < c := by
    rw [h.count]
    cases hc : rule.count with
    | none => simp
    | some c =>
      simp only [map_some, any_some, decide_eq_true_eq, some.injEq, forall_eq']
      omega
  have hdate : nextDate zone s.1 s.2 = some s'.2 ↔ next = s'.2 ∧ (∀ c, rule.count = some c → n + 1 < c) ∧
      ∀ last, rule.untilDate zone = some last → s'.2 ≤ last := by
    unfold nextDate
    rw [hfol, huntil]
    by_cases hc : ∀ c, rule.count = some c → n + 1 < c
    · rw [if_neg fun hany => hcount.mp hany hc]
      cases rule.untilDate zone with
      | none =>
        constructor
        · exact fun hn => ⟨some.inj hn, hc, fun last hl => by cases hl⟩
        · exact fun hn => congrArg some hn.1
      | some last =>
        simp only [some.injEq, forall_eq']
        split
        · rename_i hlast
          constructor
          · intro hn
            cases hn
          · rintro ⟨rfl, -, hle⟩
            omega
        · rename_i hlast
          rw [some.injEq]
          constructor
          · rintro rfl
            exact ⟨rfl, hc, by omega⟩
          · exact fun h => h.1
    · rw [if_pos (hcount.mpr hc)]
      constructor
      · intro hn
        cases hn
      · exact fun h => absurd h.2.1 hc
  unfold completeOccurrence
  rw [map_eq_some_iff]
  constructor
  · rintro ⟨e, he, rfl⟩
    obtain ⟨rfl, h1, h2⟩ := hdate.mp he
    exact ⟨hnext', rfl, h1, h2⟩
  · rintro ⟨hn, hrule, h1, h2⟩
    have heq := isNext_unique hnext' hn
    exact ⟨s'.2, hdate.mpr ⟨heq, h1, h2⟩, by rw [← hrule]⟩

theorem visited_succ {s' : Recurrence × Int} (h : Visited zone rule d n s)
    (hs : completeOccurrence zone s = some s') : Visited zone rule d (n + 1) s' := by
  obtain ⟨hnext, hrule, hcount, huntil⟩ := (completeOccurrence_iff h).mp hs
  have hfalls : Falls s.1 s.2 s'.2 := (h.series _).mpr hnext.2.1
  refine ⟨?_, ?_, hnext.2.1, ?_, ?_, ?_, ?_, hcount, .inr huntil⟩
  · rw [hrule]
    exact valid_anchored h.valid _
  · intro x
    rw [hrule, falls_anchored h.valid hfalls, h.series]
  · have := h.le
    have := hnext.1
    omega
  · rw [rank_next h.le h.falls hnext, h.rank]
  · rw [hrule, anchored_until]
    exact h.until_
  · rw [hrule, anchored_count, advanced, h.count]
    cases hc : rule.count with
    | none => rfl
    | some c =>
      have := hcount c hc
      simp only [map_some, some.injEq]
      omega

theorem visited_of_visits (hv : Valid rule d) (hd : Falls rule d d)
    (h : visits zone rule d n = some s) : Visited zone rule d n s := by
  induction n generalizing s with
  | zero =>
    cases h
    exact visited_zero hv hd
  | succ n ih =>
    obtain ⟨s', hs', hstep⟩ := bind_eq_some_iff.mp h
    exact visited_succ (ih hs') hstep

theorem visits_of_rank (hv : Valid rule d) (hd : Falls rule d d) (hde : d ≤ e) (he : Falls rule d e)
    (hrank : rank rule d e = n) (hallowed : Allowed zone rule d e n) : ∃ s, visits zone rule d n = some s ∧ s.2 = e := by
  induction n generalizing e with
  | zero =>
    have : d = e := by
      by_contra hne
      have hmem : d ∈ (Finset.Ico d e).filter (Falls rule d) := by
        rw [Finset.mem_filter, Finset.mem_Ico]
        exact ⟨⟨le_rfl, by omega⟩, hd⟩
      rw [Finset.card_eq_zero.mp hrank] at hmem
      simp at hmem
    exact ⟨(rule, d), rfl, this⟩
  | succ n ih =>
    have hlt : d < e := by
      by_contra hn
      have : d = e := by omega
      rw [← this, rank_self] at hrank
      omega
    obtain ⟨a, hda, ha, hnext⟩ := exists_previous hd hlt he
    have hra : rank rule d a = n := by
      have := rank_next hda ha hnext
      omega
    obtain ⟨hcount, huntil⟩ := hallowed
    have huntil' : ∀ last, rule.untilDate zone = some last → e ≤ last := by
      rcases huntil with rfl | h
      · omega
      · exact h
    have hallowed' : Allowed zone rule d a n := by
      refine ⟨fun c hc => ?_, .inr fun last hl => ?_⟩
      · have := hcount c hc
        omega
      · have := huntil' last hl
        have := hnext.1
        omega
    obtain ⟨s, hs, rfl⟩ := ih hda ha hra hallowed'
    have hvis := visited_of_visits hv hd hs
    have hstep : completeOccurrence zone s = some (anchored (advanced s.1) e, e) :=
      (completeOccurrence_iff hvis).mpr ⟨hnext, rfl, hcount, huntil'⟩
    exact ⟨(anchored (advanced s.1) e, e), by rw [visits, hs, bind_some, hstep], rfl⟩

/-- The series never runs out. -/
theorem exists_rank (hv : Valid rule d) (hd : Falls rule d d) (n : Nat) : ∃ e, d ≤ e ∧ Falls rule d e ∧ rank rule d e = n := by
  induction n with
  | zero => exact ⟨d, le_rfl, hd, rank_self rule d⟩
  | succ n ih =>
    obtain ⟨e, hde, he, hr⟩ := ih
    have hseries := falls_anchored hv he
    obtain ⟨next, -, hlt, hnext, hbetween⟩ := following_isNext (valid_anchored hv e) ((hseries e).mpr he)
    have hisNext : IsNext (Falls rule d) e next :=
      ⟨hlt, (hseries next).mp hnext, fun x hx hxn hf => hbetween x hx hxn ((hseries x).mpr hf)⟩
    exact ⟨next, by omega, hisNext.2.1, by rw [rank_next hde he hisNext, hr]⟩

/-- **A repeating task visits exactly its series**: the date after `n` completions is the one with `n` dates of
the series before it, for as long as fewer than its count are done and its end is not passed; there is one
for every `n`; and each date comes after the one before. -/
theorem visits_iff (zone : TimeZone) (hv : Valid rule d) (hd : Falls rule d d) :
    (∀ n e, (visits zone rule d n).map (·.2) = some e ↔
      d ≤ e ∧ Falls rule d e ∧ ((Finset.Ico d e).filter (Falls rule d)).card = n ∧
        (∀ c, rule.count = some c → n < c) ∧ (e = d ∨ ∀ last, rule.untilDate zone = some last → e ≤ last)) ∧
    (∀ n, ∃ e, d ≤ e ∧ Falls rule d e ∧ ((Finset.Ico d e).filter (Falls rule d)).card = n) ∧
    ∀ n e e', (visits zone rule d n).map (·.2) = some e → (visits zone rule d (n + 1)).map (·.2) = some e' →
      e < e' := by
  refine ⟨?_, exists_rank hv hd, ?_⟩
  · intro n e
    rw [map_eq_some_iff]
    constructor
    · rintro ⟨s, hs, rfl⟩
      have h := visited_of_visits hv hd hs
      exact ⟨h.le, h.falls, h.rank, h.allowed⟩
    · rintro ⟨hde, he, hrank, hallowed⟩
      exact visits_of_rank hv hd hde he hrank hallowed
  · intro n e e' he he'
    obtain ⟨s, hs, rfl⟩ := map_eq_some_iff.mp he
    obtain ⟨s', hs', rfl⟩ := map_eq_some_iff.mp he'
    rw [visits, hs, bind_some] at hs'
    exact ((completeOccurrence_iff (visited_of_visits hv hd hs)).mp hs').1.1

/-- On the 31st, four times from 31 January 2024. -/
def lastDays : Recurrence := ⟨.monthly, 1, [], none, some 4, none, some 31⟩

/-- The third visit is on 31 March: February's short month is not kept. -/
theorem lastDays_third : Valid lastDays (toDays ⟨2024, 1, 31⟩) ∧
    (visits .utc lastDays (toDays ⟨2024, 1, 31⟩) 2).map (·.2) = some (toDays ⟨2024, 3, 31⟩) := by
  have hv : Valid lastDays (toDays ⟨2024, 1, 31⟩) := by
    refine ⟨by decide, by decide, by simp [lastDays], by simp [lastDays], by simp [lastDays], ?_⟩
    intro _ _ h
    cases h
  have hd : Falls lastDays (toDays ⟨2024, 1, 31⟩) (toDays ⟨2024, 1, 31⟩) := by decide +kernel
  refine ⟨hv, ((visits_iff .utc hv hd).1 2 _).mpr ⟨by decide +kernel, by decide +kernel, by decide +kernel,
    by simp [lastDays], .inr ?_⟩⟩
  intro last h
  cases h

end Visits

end Oreneta.Calendar

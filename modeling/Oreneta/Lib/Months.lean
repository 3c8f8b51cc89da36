import Mathlib.Data.Int.ConditionallyCompleteOrder
import Mathlib.Order.ConditionallyCompleteLattice.Basic
import Oreneta.Lib.CivilDate

/-!
# Months and weeks

The months of the civil calendar, numbered from January of the year 0, each with its first day; weeks, which
begin on Monday.

* `monthStart`, `monthLength`, `monthIndex` — the first day of a month, how many it has, the month of a day.
* `monthIndex_iff` — a day is in a month when it lies between the month's first day and the next month's.
* `isValid_iff` — the dates there are.
* `weekday`, `week` — 0 for Monday.
-/

namespace Oreneta.Civil

/-- The first day of a month. -/
def monthStart (t : Int) : Int := toDays ⟨t / 12, t % 12 + 1, 1⟩

def monthLength (t : Int) : Int := monthStart (t + 1) - monthStart t

/-- The month of a day. -/
def monthIndex (days : Int) : Int := (ofDays days).year * 12 + (ofDays days).month - 1

/-- Days since Monday (1 January 1970 was a Thursday). -/
def weekday (days : Int) : Int := (days + 3) % 7

def week (days : Int) : Int := (days + 3) / 7

/-! ## Years from March -/

theorem marchStart_succ (y : Int) : marchStart y + 365 ≤ marchStart (y + 1) ∧ marchStart (y + 1) ≤ marchStart y + 366 := by
  unfold marchStart
  omega

/-- The year a day falls in has not ended. -/
theorem marchYear_lt (days : Int) : days < marchStart ((marchYear days).1 + 1) := by
  unfold marchYear marchStart
  dsimp only
  generalize hn : days + 719468 = n
  have hcentury : ∃ century, century = min (n % 146097 / 36524) 3 ∧ 0 ≤ century ∧ century ≤ 3 ∧
      0 ≤ n % 146097 - 36524 * century ∧
      (n % 146097 - 36524 * century < 36524 ∨ (century = 3 ∧ n % 146097 - 36524 * century = 36524)) :=
    ⟨_, rfl, by omega, by omega, by omega, by omega⟩
  obtain ⟨century, hc, hc0, hc3, hr0, hr⟩ := hcentury
  rw [← hc]
  clear hc
  have hrest : ∃ rest, rest = n % 146097 - 36524 * century := ⟨_, rfl⟩
  obtain ⟨rest, hrest⟩ := hrest
  rw [← hrest] at hr0 hr ⊢
  have hera : n % 146097 = n - 146097 * (n / 146097) := by omega
  generalize n / 146097 = era at hera ⊢
  have hquad : ∃ quad, quad = rest / 1461 ∧ 0 ≤ quad ∧ quad ≤ 24 ∧ 0 ≤ rest - 1461 * quad ∧
      rest - 1461 * quad ≤ 1460 ∧ rest % 1461 = rest - 1461 * quad := ⟨_, rfl, by omega⟩
  obtain ⟨quad, hq, hq0, hq24, hd0, hd, hmod⟩ := hquad
  rw [← hq, hmod]
  clear hq hmod
  have hyear : ∃ year, year = min ((rest - 1461 * quad) / 365) 3 ∧ 0 ≤ year ∧ year ≤ 3 ∧
      (rest - 1461 * quad - 365 * year < 365 ∨ (year = 3 ∧ rest - 1461 * quad = 1460)) :=
    ⟨_, rfl, by omega, by omega, by omega⟩
  obtain ⟨year, hy, hy0, hy3, hlast⟩ := hyear
  rw [← hy]
  clear hy
  generalize hY : 400 * era + 100 * century + 4 * quad + year = Y
  have h4 : (Y + 1) / 4 = 100 * era + 25 * century + quad + (if year = 3 then 1 else 0) := by
    split <;> omega
  have h100 : (Y + 1) / 100 = 4 * era + century + (if year = 3 ∧ quad = 24 then 1 else 0) := by
    split <;> omega
  have h400 : (Y + 1) / 400 = era + (if year = 3 ∧ quad = 24 ∧ century = 3 then 1 else 0) := by
    split <;> omega
  rw [h4, h100, h400]
  -- the leap day, when there is one, is the last day of its four years
  split <;> split <;> split <;> omega

/-! ## Months -/

theorem toDays_eq {y m : Int} (hm : 1 ≤ m ∧ m ≤ 12) (d : Int) : toDays ⟨y, m, d⟩ = monthStart (y * 12 + m - 1) + d - 1 := by
  have hy : (y * 12 + m - 1) / 12 = y := by omega
  have hmod : (y * 12 + m - 1) % 12 + 1 = m := by omega
  unfold monthStart toDays
  simp only [hy, hmod]
  split <;> omega

theorem monthLength_range (t : Int) : 28 ≤ monthLength t ∧ monthLength t ≤ 31 := by
  have hy := marchStart_succ (t / 12 - 1)
  rw [Int.sub_add_cancel] at hy
  unfold monthLength monthStart toDays
  dsimp only
  by_cases hdec : t % 12 = 11
  · have h1 : (t + 1) / 12 = t / 12 + 1 := by omega
    have h2 : (t + 1) % 12 = 0 := by omega
    have hback : t / 12 + 1 - 1 = t / 12 := by omega
    rw [h1, h2, hdec, if_pos (by omega), if_neg (by omega), hback]
    omega
  · have h1 : (t + 1) / 12 = t / 12 := by omega
    have h2 : (t + 1) % 12 = t % 12 + 1 := by omega
    rw [h1, h2]
    have h0 : 0 ≤ t % 12 ∧ t % 12 < 12 := by omega
    generalize t % 12 = m at hdec h0 ⊢
    split <;> split <;> omega

theorem monthStart_lt_succ (t : Int) : monthStart t < monthStart (t + 1) := by
  have := (monthLength_range t).1
  unfold monthLength at this
  omega

theorem monthStart_strictMono : StrictMono monthStart := strictMono_int_of_lt_succ monthStart_lt_succ

theorem ofDays_month_lt (days : Int) : days < monthStart (monthIndex days + 1) := by
  have hlt := marchYear_lt days
  have hspec := marchYear_spec days
  have hlen := marchStart_succ (marchYear days).1
  unfold monthStart monthIndex toDays ofDays
  rcases hp : marchYear days with ⟨year, d⟩
  rw [hp] at hspec hlt hlen
  obtain ⟨heq, h0, h1⟩ := hspec
  dsimp only at heq h0 h1 hlt hlen ⊢
  by_cases hmarch : (5 * d + 2) / 153 < 10
  · simp only [if_pos hmarch]
    generalize hm : (5 * d + 2) / 153 = m at hmarch ⊢
    by_cases hdec : m = 9
    · have hy : (year * 12 + (m + 3) - 1 + 1) / 12 = year + 1 := by omega
      have hmod : (year * 12 + (m + 3) - 1 + 1) % 12 + 1 = 1 := by omega
      have hback : year + 1 - 1 = year := by omega
      rw [hy, hmod, if_pos (by omega), hback]
      omega
    · have hy : (year * 12 + (m + 3) - 1 + 1) / 12 = year := by omega
      have hmod : (year * 12 + (m + 3) - 1 + 1) % 12 + 1 = m + 4 := by omega
      rw [hy, hmod, if_neg (by omega)]
      omega
  · simp only [if_neg hmarch]
    generalize hm : (5 * d + 2) / 153 = m at hmarch ⊢
    have hy : ((year + 1) * 12 + (m - 9) - 1 + 1) / 12 = year + 1 := by omega
    have hmod : ((year + 1) * 12 + (m - 9) - 1 + 1) % 12 + 1 = m - 8 := by omega
    rw [hy, hmod]
    by_cases hfeb : m = 11
    · rw [if_neg (by omega)]
      omega
    · have hback : year + 1 - 1 = year := by omega
      rw [if_pos (by omega), hback]
      omega

/-- A day from the first day of its month. -/
theorem ofDays_day (days : Int) : (ofDays days).day = days - monthStart (monthIndex days) + 1 := by
  have h := toDays_ofDays days
  obtain ⟨h1, h2, -, -⟩ := ofDays_range days
  have he := toDays_eq (y := (ofDays days).year) ⟨h1, h2⟩ (ofDays days).day
  unfold monthIndex
  rw [h] at he
  omega

theorem monthStart_le (days : Int) : monthStart (monthIndex days) ≤ days := by
  have h := ofDays_day days
  obtain ⟨-, -, h1, -⟩ := ofDays_range days
  omega

/-- **A day is in a month** when it lies between that month's first day and the next month's. -/
theorem monthIndex_iff {days t : Int} : monthIndex days = t ↔ monthStart t ≤ days ∧ days < monthStart (t + 1) := by
  constructor
  · rintro rfl
    exact ⟨monthStart_le days, ofDays_month_lt days⟩
  · rintro ⟨h1, h2⟩
    have hlow : monthIndex days < t + 1 :=
      monthStart_strictMono.lt_iff_lt.mp (Int.lt_of_le_of_lt (monthStart_le days) h2)
    have hhigh : t < monthIndex days + 1 :=
      monthStart_strictMono.lt_iff_lt.mp (Int.lt_of_le_of_lt h1 (ofDays_month_lt days))
    omega

theorem monthIndex_mono {a b : Int} (h : a ≤ b) : monthIndex a ≤ monthIndex b := by
  have : monthIndex a < monthIndex b + 1 :=
    monthStart_strictMono.lt_iff_lt.mp (Int.lt_of_le_of_lt (monthStart_le a) (Int.lt_of_le_of_lt h (ofDays_month_lt b)))
  omega

theorem lt_of_monthIndex_lt {a b : Int} (h : monthIndex a < monthIndex b) : a < b := by
  by_contra hn
  have := monthIndex_mono (Int.not_lt.mp hn)
  omega

theorem ofDays_eq {days t : Int} (h : monthIndex days = t) : ofDays days = ⟨t / 12, t % 12 + 1, days - monthStart t + 1⟩ := by
  have hday := ofDays_day days
  rw [h] at hday
  obtain ⟨h1, h2, -, -⟩ := ofDays_range days
  unfold monthIndex at h
  rcases hc : ofDays days with ⟨y, m, d⟩
  rw [hc] at h hday h1 h2
  dsimp only at h hday h1 h2
  congr 1 <;> omega

/-- **The dates there are.** -/
theorem isValid_iff {y m d : Int} : isValid ⟨y, m, d⟩ = true ↔ (1 ≤ m ∧ m ≤ 12) ∧ 1 ≤ d ∧ d ≤ monthLength (y * 12 + m - 1) := by
  unfold isValid
  rw [decide_eq_true_eq]
  constructor
  · intro h
    have hr := ofDays_range (toDays ⟨y, m, d⟩)
    have hlt := ofDays_month_lt (toDays ⟨y, m, d⟩)
    have hday := ofDays_day (toDays ⟨y, m, d⟩)
    have hi : monthIndex (toDays ⟨y, m, d⟩) = y * 12 + m - 1 := by
      unfold monthIndex
      rw [h]
    rw [h] at hr hday
    rw [hi] at hlt hday
    unfold monthLength
    dsimp only at hr hday
    omega
  · rintro ⟨hm, h1, h2⟩
    have heq := toDays_eq (y := y) hm d
    have hi : monthIndex (toDays ⟨y, m, d⟩) = y * 12 + m - 1 := by
      rw [monthIndex_iff]
      unfold monthLength at h2
      omega
    rw [ofDays_eq hi]
    congr 1 <;> omega

/-! ## Weeks -/

theorem weekday_range (days : Int) : 0 ≤ weekday days ∧ weekday days < 7 := by
  unfold weekday
  omega

theorem week_weekday (days : Int) : days = 7 * week days + weekday days - 3 := by
  unfold week weekday
  omega

theorem week_of {w k : Int} (h : 0 ≤ k ∧ k < 7) : week (7 * w + k - 3) = w ∧ weekday (7 * w + k - 3) = k := by
  unfold week weekday
  omega

end Oreneta.Civil

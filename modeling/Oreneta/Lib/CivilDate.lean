import Oreneta.Lib.Decimal

/-!
# Dates and times of the civil calendar

A time is a number of seconds since the epoch, a day a number of days since it; the calendar is the
proleptic Gregorian one.

* `Civil.ofDays`, `Civil.toDays` — the date of a day and the day of a date; `toDays_ofDays`.
* `dateText`, `stampText` — as `chrono` formats `%Y%m%d` and `%Y%m%dT%H%M%S`.
* `readDate`, `readStamp` — as it parses them: a number may be preceded by blanks, a year with a sign
  has as many digits as there are.
* `readDate_dateText`, `readStamp_stampText` — what was written in the years 0 to 9999 is read back.
-/

namespace Oreneta

open Text List Option

structure Civil where
  year : Int
  month : Int
  day : Int
  deriving DecidableEq, Repr

namespace Civil

/-- The year a day falls in and its place in it, when years begin in March, so that the leap day is the
last of its year. -/
def marchYear (days : Int) : Int × Int :=
  let n := days + 719468
  let century := min (n % 146097 / 36524) 3
  let rest := n % 146097 - 36524 * century
  let quad := rest / 1461
  let year := min (rest % 1461 / 365) 3
  (400 * (n / 146097) + 100 * century + 4 * quad + year, rest % 1461 - 365 * year)

/-- The day on which such a year begins. -/
def marchStart (year : Int) : Int := 365 * year + year / 4 - year / 100 + year / 400 - 719468

/-- The date of a day. -/
def ofDays (days : Int) : Civil :=
  let p := marchYear days
  let march := (5 * p.2 + 2) / 153
  { year := if march < 10 then p.1 else p.1 + 1
    month := if march < 10 then march + 3 else march - 9
    day := p.2 - (153 * march + 2) / 5 + 1 }

/-- The day of a date. -/
def toDays (c : Civil) : Int :=
  if c.month ≤ 2 then marchStart (c.year - 1) + (153 * (c.month + 9) + 2) / 5 + c.day - 1
  else marchStart c.year + (153 * (c.month - 3) + 2) / 5 + c.day - 1

/-- Whether there is such a date. -/
def isValid (c : Civil) : Bool := ofDays (toDays c) = c

theorem marchYear_spec (days : Int) : marchStart (marchYear days).1 + (marchYear days).2 = days ∧
    0 ≤ (marchYear days).2 ∧ (marchYear days).2 ≤ 365 := by
  unfold marchYear marchStart
  dsimp only
  generalize hn : days + 719468 = n
  have hcentury : ∃ century, century = min (n % 146097 / 36524) 3 ∧ 0 ≤ century ∧ century ≤ 3 ∧
      0 ≤ n % 146097 - 36524 * century ∧ n % 146097 - 36524 * century ≤ 36524 :=
    ⟨_, rfl, by omega, by omega, by omega, by omega⟩
  obtain ⟨century, hc, hc0, hc3, hr0, hr⟩ := hcentury
  rw [← hc]
  clear hc
  have hrest : ∃ rest, rest = n % 146097 - 36524 * century := ⟨_, rfl⟩
  obtain ⟨rest, hrest⟩ := hrest
  rw [← hrest] at hr0 hr ⊢
  have hquad : 0 ≤ rest / 1461 ∧ rest / 1461 ≤ 24 ∧ rest % 1461 = rest - 1461 * (rest / 1461) := by omega
  have hyear : ∃ year, year = min (rest % 1461 / 365) 3 ∧ 0 ≤ year ∧ year ≤ 3 ∧
      0 ≤ rest % 1461 - 365 * year ∧ rest % 1461 - 365 * year ≤ 365 :=
    ⟨_, rfl, by omega, by omega, by omega, by omega⟩
  obtain ⟨year, hy, hy0, hy3, hd0, hd⟩ := hyear
  rw [← hy]
  clear hy
  refine ⟨?_, hd0, hd⟩
  have hera : n % 146097 = n - 146097 * (n / 146097) := by omega
  generalize n / 146097 = era at hera ⊢
  generalize rest / 1461 = quad at hquad ⊢
  have h4 : (400 * era + 100 * century + 4 * quad + year) / 4 = 100 * era + 25 * century + quad := by omega
  have h100 : (400 * era + 100 * century + 4 * quad + year) / 100 = 4 * era + century := by omega
  have h400 : (400 * era + 100 * century + 4 * quad + year) / 400 = era := by omega
  rw [h4, h100, h400]
  omega

theorem ofDays_range (days : Int) : 1 ≤ (ofDays days).month ∧ (ofDays days).month ≤ 12 ∧
    1 ≤ (ofDays days).day ∧ (ofDays days).day ≤ 31 := by
  have hspec := marchYear_spec days
  unfold ofDays
  rcases hp : marchYear days with ⟨year, d⟩
  rw [hp] at hspec
  obtain ⟨-, h0, h1⟩ := hspec
  dsimp only at h0 h1 ⊢
  split <;> omega

theorem toDays_ofDays (days : Int) : toDays (ofDays days) = days := by
  have hspec := marchYear_spec days
  unfold toDays ofDays
  rcases hp : marchYear days with ⟨year, d⟩
  rw [hp] at hspec
  obtain ⟨heq, h0, h1⟩ := hspec
  dsimp only at heq h0 h1 ⊢
  by_cases hmarch : (5 * d + 2) / 153 < 10
  · simp only [if_pos hmarch]
    rw [if_neg (by omega)]
    omega
  · simp only [if_neg hmarch]
    rw [if_pos (by omega), Int.add_sub_cancel]
    omega

theorem isValid_ofDays (days : Int) : (ofDays days).isValid = true := by
  unfold isValid
  rw [toDays_ofDays]
  simp

/-! ## As text -/

/-- Two digits. -/
def pad2 (n : Int) : Str := [(n.toNat / 10 % 10).digitChar, (n.toNat % 10).digitChar]

/-- `%Y`: four digits, or a sign and at least four. -/
def yearText (year : Int) : Str :=
  if 0 ≤ year ∧ year ≤ 9999 then pad2 (year / 100) ++ pad2 (year % 100)
  else
    let digits := Decimal.ofNat year.natAbs
    (if year < 0 then '-' else '+') :: (List.replicate (4 - digits.length) '0' ++ digits)

/-- A day as `%Y%m%d`. -/
def dateText (days : Int) : Str :=
  yearText (ofDays days).year ++ pad2 (ofDays days).month ++ pad2 (ofDays days).day

/-- A time as `%Y%m%dT%H%M%S`. -/
def stampText (t : Int) : Str :=
  dateText (t / 86400) ++ 'T' :: (pad2 (t % 86400 / 3600) ++ pad2 (t % 3600 / 60) ++ pad2 (t % 60))

/-- A number of at most `width` digits, and the text after it. -/
def number (width : Option Nat) (s : Str) : Option (Nat × Str) :=
  let all := s.takeWhile Char.isDigit
  let digits := match width with
    | some width => all.take width
    | none => all
  if digits = [] then none else some (Nat.ofDigitChars 10 digits 0, s.drop digits.length)

/-- `%m`, `%d`, `%H`, `%M` and `%S`. -/
def readTwo (s : Str) : Option (Nat × Str) := number (some 2) (trimStart s)

/-- `%Y`. -/
def readYear (s : Str) : Option (Int × Str) :=
  match trimStart s with
  | '-' :: rest => (number none rest).map (fun p => (-(p.1 : Int), p.2))
  | '+' :: rest => (number none rest).map (fun p => ((p.1 : Int), p.2))
  | rest => (number (some 4) rest).map (fun p => ((p.1 : Int), p.2))

/-- A date that `chrono` can hold, and the text after it. -/
def readCivil (s : Str) : Option (Civil × Str) := do
  let (year, s) ← readYear s
  let (month, s) ← readTwo s
  let (day, s) ← readTwo s
  let c : Civil := ⟨year, month, day⟩
  if c.isValid && (-262143 ≤ year && year ≤ 262142) then some (c, s) else none

/-- `NaiveDate::parse_from_str` with `%Y%m%d`. -/
def readDate (s : Str) : Option Int :=
  match readCivil s with
  | some (c, []) => some c.toDays
  | _ => none

/-- `NaiveDateTime::parse_from_str` with `%Y%m%dT%H%M%S`; a leap second counts as the one before it. -/
def readStamp (s : Str) : Option Int := do
  let (c, s) ← readCivil s
  match s with
  | 'T' :: s =>
    let (hour, s) ← readTwo s
    let (minute, s) ← readTwo s
    let (second, s) ← readTwo s
    if s = [] ∧ hour < 24 ∧ minute < 60 ∧ second ≤ 60 then
      some (c.toDays * 86400 + hour * 3600 + minute * 60 + min second 59)
    else none
  | _ => none

/-! ## Reading back what was written -/

theorem pad2_isDigit {n : Int} {c : Char} (h : c ∈ pad2 n) : c.isDigit = true := by
  unfold pad2 at h
  rcases mem_cons.mp h with rfl | h
  · rw [Nat.isDigit_digitChar]
    simp only [decide_eq_true_eq]
    omega
  · rw [mem_singleton.mp h, Nat.isDigit_digitChar]
    simp only [decide_eq_true_eq]
    omega

theorem trimStart_of_digit {c : Char} {s : Str} (h : c.isDigit = true) : trimStart (c :: s) = c :: s := by
  simp [trimStart, isWhitespace_of_isDigit h]

/-- As many digits as fit are read. -/
theorem number_digits {ds : Str} (hd : ∀ c ∈ ds, c.isDigit = true) (hne : ds ≠ []) (rest : Str) :
    number (some ds.length) (ds ++ rest) = some (Nat.ofDigitChars 10 ds 0, rest) := by
  have htake : ((ds ++ rest).takeWhile Char.isDigit).take ds.length = ds := by
    rw [takeWhile_append_of_pos hd]
    simp
  unfold number
  simp only [htake, if_neg hne, drop_left]

theorem ofDigitChars_pad2 {n : Int} (h : 0 ≤ n ∧ n < 100) (init : Nat) :
    (Nat.ofDigitChars 10 (pad2 n) init : Int) = 100 * init + n := by
  unfold pad2
  rw [Nat.ofDigitChars_cons_digitChar_of_lt_ten (by omega),
    Nat.ofDigitChars_cons_digitChar_of_lt_ten (by omega), Nat.ofDigitChars_nil]
  omega

theorem readTwo_pad2 {n : Int} (h : 0 ≤ n ∧ n < 100) (rest : Str) : readTwo (pad2 n ++ rest) = some (n.toNat, rest) := by
  have hnum : number (some (pad2 n).length) (pad2 n ++ rest) = some (Nat.ofDigitChars 10 (pad2 n) 0, rest) :=
    number_digits (fun c hc => pad2_isDigit hc) (by simp [pad2]) rest
  have hval := ofDigitChars_pad2 h 0
  have htrim : trimStart (pad2 n ++ rest) = pad2 n ++ rest :=
    trimStart_of_digit (pad2_isDigit mem_cons_self)
  unfold readTwo
  rw [htrim, show (some 2 : Option Nat) = some (pad2 n).length from rfl, hnum]
  congr 2
  omega

theorem readYear_yearText {year : Int} (h : 0 ≤ year ∧ year ≤ 9999) (rest : Str) :
    readYear (yearText year ++ rest) = some (year, rest) := by
  have hd : ∀ c ∈ pad2 (year / 100) ++ pad2 (year % 100), c.isDigit = true := by
    intro c hc
    rcases mem_append.mp hc with hc | hc <;> exact pad2_isDigit hc
  have hnum := number_digits hd (by simp [pad2]) rest
  have hval : (Nat.ofDigitChars 10 (pad2 (year / 100) ++ pad2 (year % 100)) 0 : Int) = year := by
    rw [Nat.ofDigitChars_append, ofDigitChars_pad2 (by omega), ofDigitChars_pad2 (by omega)]
    omega
  have hfirst : (year / 100).toNat / 10 % 10 < 10 := by omega
  have hdigit : ((year / 100).toNat / 10 % 10).digitChar.isDigit = true := by
    rw [Nat.isDigit_digitChar]
    simpa using hfirst
  have htrim : trimStart (pad2 (year / 100) ++ pad2 (year % 100) ++ rest) =
      pad2 (year / 100) ++ pad2 (year % 100) ++ rest := trimStart_of_digit hdigit
  unfold readYear yearText
  rw [if_pos h, htrim]
  split
  · rename_i hsign
    have he : ((year / 100).toNat / 10 % 10).digitChar = '-' := (List.cons.inj hsign).1
    rw [he] at hdigit
    cases hdigit
  · rename_i hsign
    have he : ((year / 100).toNat / 10 % 10).digitChar = '+' := (List.cons.inj hsign).1
    rw [he] at hdigit
    cases hdigit
  · rw [show (some 4 : Option Nat) = some (pad2 (year / 100) ++ pad2 (year % 100)).length from rfl, hnum, map_some, hval]

/-- A day in the years that four digits can write. -/
def FourDigit (days : Int) : Prop := 0 ≤ (ofDays days).year ∧ (ofDays days).year ≤ 9999

instance (days : Int) : Decidable (FourDigit days) := inferInstanceAs (Decidable (_ ∧ _))

variable {days : Int}

theorem FourDigit.bounds (h : FourDigit days) : -1000000 ≤ days ∧ days ≤ 4000000 := by
  obtain ⟨h1, h2⟩ := h
  have hrange := ofDays_range days
  have hdays := toDays_ofDays days
  unfold toDays marchStart at hdays
  split at hdays <;> omega

theorem readCivil_dateText (h : FourDigit days) (rest : Str) : readCivil (dateText days ++ rest) = some (ofDays days, rest) := by
  obtain ⟨hm1, hm2, hd1, hd2⟩ := ofDays_range days
  have hvalid := isValid_ofDays days
  unfold readCivil dateText
  rw [append_assoc, append_assoc, readYear_yearText h]
  simp only [bind_eq_bind, bind_some]
  rw [readTwo_pad2 (by omega)]
  simp only [bind_some]
  rw [readTwo_pad2 (by omega)]
  simp only [bind_some]
  have hc : (⟨(ofDays days).year, (ofDays days).month.toNat, (ofDays days).day.toNat⟩ : Civil) =
      ofDays days := by
    rw [Int.toNat_of_nonneg (by omega), Int.toNat_of_nonneg (by omega)]
  obtain ⟨hy0, hy1⟩ := h
  rw [hc, hvalid, if_pos]
  simp only [Bool.true_and, Bool.and_eq_true, decide_eq_true_eq]
  omega

/-- **A date that was written is read back.** -/
theorem readDate_dateText (h : FourDigit days) : readDate (dateText days) = some days := by
  have hread := readCivil_dateText h []
  rw [append_nil] at hread
  unfold readDate
  rw [hread]
  exact congrArg some (toDays_ofDays days)

/-- **A time that was written is read back.** -/
theorem readStamp_stampText {t : Int} (h : FourDigit (t / 86400)) : readStamp (stampText t) = some t := by
  unfold readStamp stampText
  rw [readCivil_dateText h]
  simp only [bind_eq_bind, bind_some, append_assoc]
  rw [readTwo_pad2 (by omega)]
  simp only [bind_some]
  rw [readTwo_pad2 (by omega)]
  simp only [bind_some]
  rw [← append_nil (pad2 (t % 60)), readTwo_pad2 (by omega)]
  simp only [bind_some, toDays_ofDays]
  rw [if_pos ⟨trivial, by omega, by omega, by omega⟩]
  congr 1
  omega

/-- A year outside of those that four digits write has a sign. -/
theorem dateText_signed (h : ¬ FourDigit days) : ∃ sign digits, (sign = '-' ∨ sign = '+') ∧
    (∀ c ∈ digits, c.isDigit = true) ∧ digits ≠ [] ∧ dateText days = sign :: digits := by
  have hyear : ¬ (0 ≤ (ofDays days).year ∧ (ofDays days).year ≤ 9999) := h
  refine ⟨if (ofDays days).year < 0 then '-' else '+',
    List.replicate (4 - (Decimal.ofNat (ofDays days).year.natAbs).length) '0' ++
      Decimal.ofNat (ofDays days).year.natAbs ++ pad2 (ofDays days).month ++ pad2 (ofDays days).day,
    by split <;> simp, ?_, by simp [pad2], ?_⟩
  · intro c hc
    simp only [mem_append] at hc
    rcases hc with ((hc | hc) | hc) | hc
    · rw [eq_of_mem_replicate hc]
      rfl
    · exact Decimal.isDigit_of_mem hc
    · exact pad2_isDigit hc
    · exact pad2_isDigit hc
  · rw [dateText, yearText, if_neg hyear]
    rfl

/-- Such a year takes the month and the day for its own digits. -/
theorem readCivil_signed {days : Int} (h : ¬ FourDigit days) {rest : Str}
    (hrest : ∀ c ∈ rest.head?, c.isDigit = false ∧ isWhitespace c = false) : readCivil (dateText days ++ rest) = none := by
  obtain ⟨sign, digits, hsign, hdigits, hne, htext⟩ := dateText_signed h
  have hnone : rest.takeWhile Char.isDigit = [] := by
    cases rest with
    | nil => rfl
    | cons c rest => exact takeWhile_cons_of_neg (by rw [(hrest c rfl).1]; decide)
  have hnumber : number none (digits ++ rest) = some (Nat.ofDigitChars 10 digits 0, rest) := by
    have htake : (digits ++ rest).takeWhile Char.isDigit = digits := by
      rw [takeWhile_append_of_pos hdigits, hnone, append_nil]
    unfold number
    simp only [htake, if_neg hne, drop_left]
  have hyear : ∃ year, readYear (sign :: (digits ++ rest)) = some (year, rest) := by
    rcases hsign with rfl | rfl
    · exact ⟨_, by simp only [readYear, trimStart, show List.dropWhile isWhitespace
        ('-' :: (digits ++ rest)) = '-' :: (digits ++ rest) from rfl, hnumber, map_some]; rfl⟩
    · exact ⟨_, by simp only [readYear, trimStart, show List.dropWhile isWhitespace
        ('+' :: (digits ++ rest)) = '+' :: (digits ++ rest) from rfl, hnumber, map_some]; rfl⟩
  have hmonth : readTwo rest = none := by
    have htrim : trimStart rest = rest := by
      cases rest with
      | nil => rfl
      | cons c rest => exact dropWhile_cons_of_neg (by rw [(hrest c rfl).2]; decide)
    unfold readTwo number
    simp only [htrim, hnone, take_nil, if_true]
  obtain ⟨year, hyear⟩ := hyear
  unfold readCivil
  rw [htext, cons_append, hyear]
  simp only [bind_eq_bind, bind_some, hmonth]
  rfl

theorem readDate_dateText_eq_none (h : ¬ FourDigit days) : readDate (dateText days) = none := by
  have hcivil := @readCivil_signed _ h [] (by simp)
  rw [append_nil] at hcivil
  unfold readDate
  rw [hcivil]

theorem readStamp_dateText_eq_none (h : ¬ FourDigit days) : readStamp (dateText days) = none := by
  have hcivil := @readCivil_signed _ h [] (by simp)
  rw [append_nil] at hcivil
  unfold readStamp
  rw [hcivil]
  rfl

theorem readStamp_stampText_eq_none {t : Int} (h : ¬ FourDigit (t / 86400)) : readStamp (stampText t) = none := by
  unfold readStamp stampText
  rw [readCivil_signed h (by simp [isWhitespace])]
  rfl

/-- A time that is read is one that `chrono` can hold. -/
theorem readStamp_bounds {s : Str} {t : Int} (h : readStamp s = some t) : -9000000000000 ≤ t ∧ t ≤ 9000000000000 := by
  unfold readStamp at h
  obtain ⟨⟨c, rest⟩, hc, h⟩ := bind_eq_some_iff.mp h
  have hdays : -100000000 ≤ c.toDays ∧ c.toDays ≤ 100000000 := by
    unfold readCivil at hc
    obtain ⟨⟨year, s1⟩, -, hc⟩ := bind_eq_some_iff.mp hc
    obtain ⟨⟨month, s2⟩, -, hc⟩ := bind_eq_some_iff.mp hc
    obtain ⟨⟨day, s3⟩, -, hc⟩ := bind_eq_some_iff.mp hc
    dsimp only at hc
    split at hc
    · rename_i hvalid
      rw [← (Prod.mk.inj (some.inj hc)).1]
      simp only [Bool.and_eq_true, decide_eq_true_eq] at hvalid
      obtain ⟨hdate, hy1, hy2⟩ := hvalid
      have hrange := ofDays_range (toDays ⟨year, month, day⟩)
      rw [of_decide_eq_true hdate] at hrange
      dsimp only at hrange
      unfold toDays marchStart
      dsimp only
      split <;> omega
    · cases hc
  dsimp only at h
  split at h
  · obtain ⟨⟨hour, s1⟩, -, h⟩ := bind_eq_some_iff.mp h
    obtain ⟨⟨minute, s2⟩, -, h⟩ := bind_eq_some_iff.mp h
    obtain ⟨⟨second, s3⟩, -, h⟩ := bind_eq_some_iff.mp h
    dsimp only at h
    split at h
    · rw [← some.inj h]
      omega
    · cases h
  · cases h

theorem length_dateText (h : FourDigit days) : (dateText days).length = 8 := by
  have hyear : 0 ≤ (ofDays days).year ∧ (ofDays days).year ≤ 9999 := h
  unfold dateText yearText
  rw [if_pos hyear]
  rfl

/-- A written date has digits in it, and perhaps a sign. -/
theorem mem_dateText {c : Char} (h : c ∈ dateText days) : c.isDigit = true ∨ c = '-' ∨ c = '+' := by
  unfold dateText yearText at h
  simp only [mem_append] at h
  rcases h with (h | h) | h
  · split at h
    · rcases mem_append.mp h with h | h <;> exact .inl (pad2_isDigit h)
    · rcases mem_cons.mp h with rfl | h
      · split <;> simp
      · rcases mem_append.mp h with h | h
        · rw [eq_of_mem_replicate h]
          exact .inl rfl
        · exact .inl (Decimal.isDigit_of_mem h)
  · exact .inl (pad2_isDigit h)
  · exact .inl (pad2_isDigit h)

theorem mem_stampText {t : Int} {c : Char} (h : c ∈ stampText t) : c.isDigit = true ∨ c = '-' ∨ c = '+' ∨ c = 'T' := by
  unfold stampText at h
  rcases mem_append.mp h with h | h
  · rcases mem_dateText h with h | h | h <;> simp [h]
  · rcases mem_cons.mp h with rfl | h
    · simp
    · simp only [mem_append] at h
      rcases h with (h | h) | h <;> exact .inl (pad2_isDigit h)

end Civil

end Oreneta

import Oreneta.Ics.Patch
import Oreneta.Lib.Reckoned

/-!
# Numbers in calendar text

The durations, the sequence numbers and the times of reminders, with every operation on them watched.

* `Measure` — what a number of a unit comes to, as the program reckons it and exactly; `scale`, `wholeMinutes`.
* `readParts` — the loop over the parts of a duration; `sumOfParts`: what they come to; `readParts_sum`.
* `minutesBefore`, `duration`, `durationSeconds` — the three readers of durations.
* `bumped`, `overrideNext`, `nextSequence` — the numbers given to new versions of an object.
* `timingReckoned` — when a reminder rings.
* `numbers_kept_iff` — when none of them leaves the range.
-/

namespace Oreneta.Calendar.Numbers

open Text Reckoned Decimal List Option

/-! ## Units -/

/-- What a number of a unit comes to. -/
structure Measure where
  reckon : Reckoned → Reckoned
  worth : Int → Int
  worth_nonneg : ∀ n, 0 ≤ n → 0 ≤ worth n
  exact : ∀ n, 0 ≤ n → Reckoned.Fits (worth n) → reckon (of n) = of (worth n)
  exceeded : ∀ n, 0 ≤ n → Reckoned.Fits n → ¬ Reckoned.Fits (worth n) → (reckon (of n)).exceeded = true

theorem fits_of_le {x y : Int} (h : Reckoned.Fits y) (hx : 0 ≤ x) (hxy : x ≤ y) : Reckoned.Fits x := by
  obtain ⟨-, hmax⟩ := h
  exact ⟨le_trans (by decide) hx, le_trans hxy hmax⟩

/-- Multiplied by one number after the other. -/
def multiply (ks : List Nat) (n : Reckoned) : Reckoned := ks.foldl (fun total k => total * of k) n

theorem multiply_exact : ∀ {ks : List Nat}, (∀ k ∈ ks, 0 < k) → ∀ {n : Int}, 0 ≤ n → Reckoned.Fits (n * (ks.prod : Nat)) →
    multiply ks (of n) = of (n * (ks.prod : Nat))
  | [], _, n, _, _ => by simp [multiply]
  | k :: ks, hks, n, hn, h => by
    obtain ⟨hk, hks⟩ := forall_mem_cons.mp hks
    have hprod : n * ((k :: ks).prod : Nat) = n * k * (ks.prod : Nat) := by rw [prod_cons, Int.natCast_mul, mul_assoc]
    have hpos : 0 < ks.prod := List.prod_pos_iff_forall_pos_nat.mpr hks
    have hnk : 0 ≤ n * k := mul_nonneg hn (Int.natCast_nonneg k)
    have hfirst : Reckoned.Fits (n * k) := by
      refine fits_of_le h hnk ?_
      rw [hprod]
      exact le_mul_of_one_le_right hnk (by exact_mod_cast hpos)
    rw [hprod] at h ⊢
    show multiply ks (of n * of k) = _
    rw [mul_exact hfirst]
    exact multiply_exact hks hnk h

theorem multiply_kept : ∀ {ks : List Nat} {a : Reckoned}, (multiply ks a).exceeded = false → Reckoned.Fits a.value →
    a.exceeded = false ∧ Reckoned.Fits (a.value * (ks.prod : Nat))
  | [], a, h, ha => ⟨h, by simpa using ha⟩
  | k :: ks, a, h, _ => by
    have hprod : a.value * ((k :: ks).prod : Nat) = a.value * k * (ks.prod : Nat) := by
      rw [prod_cons, Int.natCast_mul, mul_assoc]
    have hstep : (multiply ks (a * of k)).exceeded = false := h
    obtain ⟨hfirst, hrest⟩ := multiply_kept hstep (wrap_fits _)
    obtain ⟨ha, -, -, hvalue⟩ := mul_kept hfirst
    rw [hvalue, of_value] at hrest
    rw [hprod]
    exact ⟨ha, hrest⟩

/-- A number multiplied by others, one after the other. -/
def scale (ks : List Nat) (h : ∀ k ∈ ks, 0 < k) : Measure where
  reckon := multiply ks
  worth n := n * (ks.prod : Nat)
  worth_nonneg n hn := mul_nonneg hn (Int.natCast_nonneg _)
  exact n hn hfits := multiply_exact h hn hfits
  exceeded n _ hn hfits := by
    by_contra hnot
    exact hfits (multiply_kept (Bool.eq_false_iff.mpr hnot) hn).2

/-- `n / 60`. -/
def wholeMinutes : Measure where
  reckon n := n.quot 60
  worth n := n.tdiv 60
  worth_nonneg n hn := Int.tdiv_nonneg hn (by decide)
  exact n _ _ := quot_exact n 60
  exceeded n hn hfits hnot := by
    have hle : n.tdiv 60 ≤ n := by
      rw [Int.tdiv_eq_ediv_of_nonneg hn]
      omega
    exact absurd (fits_of_le hfits (Int.tdiv_nonneg hn (by decide)) hle) hnot

/-! ## The parts of a duration -/

/-- What the loop has read. -/
structure Progress where
  total : Reckoned
  /-- The digits since the last unit. -/
  number : Str
  inTime : Bool
  any : Bool

def started : Progress := ⟨of 0, [], false, false⟩

section Loop

-- the units a reader knows, before and behind the `T`, and when a `T` is that mark
variable (units : Bool → Char → Option Measure) (mark : Str → Bool → Bool)

/-- The loop over the characters; whether it came to the end. -/
def readParts : Progress → Str → Progress × Bool
  | s, [] => (s, true)
  | s, c :: rest =>
    if c = 'T' ∧ mark s.number s.inTime = true then readParts { s with inTime := true } rest
    else if c.isDigit = true then readParts { s with number := s.number ++ [c] } rest
    else
      match parseInt s.number, units s.inTime c with
      | some n, some unit => readParts { s with total := s.total + unit.reckon (of n), number := [], any := true } rest
      | _, _ => (s, false)

/-- What the numbers come to that the loop reads: each with the unit behind it. -/
def sumOfParts : Str → Bool → Str → Int
  | _, _, [] => 0
  | number, inTime, c :: rest =>
    if c = 'T' ∧ mark number inTime = true then sumOfParts number true rest
    else if c.isDigit = true then sumOfParts (number ++ [c]) inTime rest
    else
      match parseInt number, units inTime c with
      | some n, some unit => unit.worth n + sumOfParts [] inTime rest
      | _, _ => 0

variable {units mark}

/-- A text of digits is no negative number. -/
theorem parseInt_digits {number : Str} {n : Int} (hdigits : number.all Char.isDigit = true) (h : parseInt number = some n) :
    0 ≤ n ∧ Reckoned.Fits n := by
  obtain ⟨hn, hfits⟩ := filter_eq_some_iff.mp h
  rw [parseSigned_of_digits hdigits] at hn
  obtain ⟨k, -, rfl⟩ := map_eq_some_iff.mp hn
  exact ⟨Int.natCast_nonneg k, of_decide_eq_true hfits⟩

theorem all_digits_append {number : Str} {c : Char} (hdigits : number.all Char.isDigit = true) (hc : c.isDigit = true) :
    (number ++ [c]).all Char.isDigit = true := by
  rw [all_append, hdigits, all_cons, hc]
  rfl

theorem sumOfParts_nonneg : ∀ (rest number : Str) (inTime : Bool), number.all Char.isDigit = true →
    0 ≤ sumOfParts units mark number inTime rest
  | [], _, _, _ => le_refl 0
  | c :: rest, number, inTime, hdigits => by
    rw [sumOfParts]
    split
    · exact sumOfParts_nonneg rest number true hdigits
    · split
      · rename_i hc
        exact sumOfParts_nonneg rest _ inTime (all_digits_append hdigits hc)
      · split
        · rename_i n unit hn _
          exact add_nonneg (unit.worth_nonneg n (parseInt_digits hdigits hn).1) (sumOfParts_nonneg rest [] inTime rfl)
        · exact le_refl 0

/-- A sum that left the range once stays so. -/
theorem readParts_exceeded : ∀ (rest : Str) (s : Progress), s.total.exceeded = true →
    (readParts units mark s rest).1.total.exceeded = true
  | [], _, h => h
  | c :: rest, s, h => by
    rw [readParts]
    split
    · exact readParts_exceeded rest _ h
    · split
      · exact readParts_exceeded rest _ h
      · split
        · exact readParts_exceeded rest _ (add_exceeded (.inl h))
        · exact h

/-- **The loop keeps an exact sum** as long as the numbers it reads come to a number in range. -/
theorem readParts_sum : ∀ (rest : Str) (s : Progress) (t : Int), s.total = of t → 0 ≤ t → s.number.all Char.isDigit = true →
    (Reckoned.Fits (t + sumOfParts units mark s.number s.inTime rest) →
      (readParts units mark s rest).1.total = of (t + sumOfParts units mark s.number s.inTime rest)) ∧
    (Reckoned.Fits t → ¬ Reckoned.Fits (t + sumOfParts units mark s.number s.inTime rest) → (readParts units mark s rest).1.total.exceeded = true)
  | [], s, t, htotal, _, _ => by
    rw [readParts, sumOfParts, add_zero]
    exact ⟨fun _ => htotal, fun h hn => absurd h hn⟩
  | c :: rest, s, t, htotal, ht, hdigits => by
    rw [readParts, sumOfParts]
    split
    · exact readParts_sum rest { s with inTime := true } t htotal ht hdigits
    · split
      · rename_i hc
        exact readParts_sum rest { s with number := s.number ++ [c] } t htotal ht (all_digits_append hdigits hc)
      · split
        · rename_i n unit hn _
          obtain ⟨hpos, hfits⟩ := parseInt_digits hdigits hn
          have hworth := unit.worth_nonneg n hpos
          have hlater := @sumOfParts_nonneg units mark rest [] s.inTime rfl
          have hassoc : t + (unit.worth n + sumOfParts units mark [] s.inTime rest) =
              t + unit.worth n + sumOfParts units mark [] s.inTime rest := (add_assoc _ _ _).symm
          rw [hassoc]
          by_cases hpart : Reckoned.Fits (t + unit.worth n)
          · have hsum : s.total + unit.reckon (of n) = of (t + unit.worth n) := by
              rw [htotal, unit.exact n hpos (fits_of_le hpart hworth (by omega)), add_exact hpart]
            obtain ⟨hexact, hexceeded⟩ := readParts_sum rest { s with total := _, number := [], any := true } _ hsum (add_nonneg ht hworth) rfl
            exact ⟨hexact, fun _ => hexceeded hpart⟩
          · have hno : ¬ Reckoned.Fits (t + unit.worth n + sumOfParts units mark [] s.inTime rest) :=
              fun h => hpart (fits_of_le h (add_nonneg ht hworth) (by omega))
            refine ⟨fun h => absurd h hno, fun _ _ => readParts_exceeded rest _ (add_exceeded ?_)⟩
            by_cases hunit : Reckoned.Fits (unit.worth n)
            · rw [htotal, unit.exact n hpos hunit]
              exact .inr (.inr hpart)
            · exact .inr (.inl (unit.exceeded n hpos hfits hunit))
        · rw [add_zero]
          exact ⟨fun _ => htotal, fun h hn => absurd h hn⟩

end Loop

/-! ## The readers of durations -/

/-- What a reader gives, and whether an operation on the way left the range. -/
structure Answer where
  exceeded : Bool
  answer : Option Int
  deriving DecidableEq, Repr

/-- Nothing left the range, and what is given is exact. -/
def Answer.Exact (a : Answer) (n : Int) : Prop := a.exceeded = false ∧ ∀ x ∈ a.answer, x = n

/-- The sign of a duration, and what is behind it. -/
def signOf : Str → Bool × Str
  | '-' :: rest => (true, rest)
  | '+' :: rest => (false, rest)
  | rest => (false, rest)

section Readers

variable (units : Bool → Char → Option Measure) (mark : Str → Bool → Bool) (finish : Bool → Progress → Answer)

def readDuration (value : Str) : Answer :=
  match stripPrefix ['P'] (signOf (trim value)).2 with
  | none => ⟨false, none⟩
  | some rest =>
    let (s, whole) := readParts units mark started rest
    if whole = true then finish (signOf (trim value)).1 s else ⟨s.total.exceeded, none⟩

/-- What the parts of a duration come to, without its sign. -/
def partsOf (value : Str) : Int :=
  match stripPrefix ['P'] (signOf (trim value)).2 with
  | none => 0
  | some rest => sumOfParts units mark [] false rest

variable {units mark finish}

theorem partsOf_nonneg (value : Str) : 0 ≤ partsOf units mark value := by
  unfold partsOf
  split
  · exact le_refl 0
  · exact sumOfParts_nonneg _ _ _ rfl

/-- **A duration is exact** when and only when its parts come to a number in range. -/
theorem readDuration_iff {given : Bool → Int → Int}
    (hexact : ∀ negative s t, s.total = of t → 0 ≤ t → Reckoned.Fits t → (finish negative s).Exact (given negative t))
    (hexceeded : ∀ negative s, s.total.exceeded = true → (finish negative s).exceeded = true) (value : Str) :
    (readDuration units mark finish value).Exact (given (signOf (trim value)).1 (partsOf units mark value)) ↔
      partsOf units mark value ≤ I64.max := by
  have hnone : ∀ x n : Int, x ∈ (none : Option Int) → x = n := fun _ _ h => by cases h
  have hpos := @partsOf_nonneg units mark value
  have hfits : Reckoned.Fits (partsOf units mark value) ↔ partsOf units mark value ≤ I64.max :=
    ⟨fun h => h.2, fun h => ⟨le_trans (by decide) hpos, h⟩⟩
  rw [← hfits]
  unfold readDuration partsOf at *
  cases hrest : stripPrefix ['P'] (signOf (trim value)).2 with
  | none => exact ⟨fun _ => (by decide : Reckoned.Fits 0), fun _ => ⟨rfl, fun x h => hnone x _ h⟩⟩
  | some rest =>
    rw [hrest] at hpos
    obtain ⟨hkept, hleft⟩ := @readParts_sum units mark rest started 0 rfl (le_refl 0) rfl
    have hzero : (0 : Int) + sumOfParts units mark started.number started.inTime rest = sumOfParts units mark [] false rest := zero_add _
    rw [hzero] at hkept hleft
    dsimp only
    by_cases h : Reckoned.Fits (sumOfParts units mark [] false rest)
    · refine ⟨fun _ => h, fun _ => ?_⟩
      split
      · exact hexact _ _ _ (hkept h) hpos h
      · rw [hkept h]
        exact ⟨rfl, fun x h => hnone x _ h⟩
    · refine ⟨fun hx => ?_, fun hf => absurd hf h⟩
      have hleft := hleft (by decide) h
      split at hx
      · rw [Answer.Exact, hexceeded _ _ hleft] at hx
        cases hx.1
      · rw [Answer.Exact, hleft] at hx
        cases hx.1

end Readers

def always (_ : Str) (_ : Bool) : Bool := true

/-- The units of `minutes_before`. -/
def minuteUnits : Bool → Char → Option Measure
  | false, 'W' => some (scale [7, 1440] (by decide))
  | false, 'D' => some (scale [1440] (by decide))
  | true, 'H' => some (scale [60] (by decide))
  | true, 'M' => some (scale [] (by decide))
  | true, 'S' => some wholeMinutes
  | _, _ => none

def finishMinutes (negative : Bool) (s : Progress) : Answer :=
  if s.number.isEmpty = true then
    let total := if negative = true then s.total else -s.total
    ⟨total.exceeded, (some total.value).filter (fun m => 0 ≤ m)⟩
  else ⟨s.total.exceeded, none⟩

/-- `ics::minutes_before`: minutes before the start. -/
def minutesBefore : Str → Answer := readDuration minuteUnits always finishMinutes

/-- The units of `vtodo::duration`. -/
def secondUnits : Bool → Char → Option Measure
  | false, 'W' => some (scale [7, 86400] (by decide))
  | false, 'D' => some (scale [86400] (by decide))
  | true, 'H' => some (scale [3600] (by decide))
  | true, 'M' => some (scale [60] (by decide))
  | true, 'S' => some (scale [] (by decide))
  | _, _ => none

def signed (negative : Bool) (total : Reckoned) : Reckoned := of (if negative = true then -1 else 1) * total

def finishSeconds (negative : Bool) (s : Progress) : Answer :=
  let total := signed negative s.total
  ⟨total.exceeded, if s.number.isEmpty = true then some total.value else none⟩

/-- `vtodo::duration`: seconds. -/
def duration : Str → Answer := readDuration secondUnits always finishSeconds

/-- The units of `subscription::duration_seconds`. -/
def lengthUnits : Bool → Char → Option Measure
  | false, 'W' => some (scale [604800] (by decide))
  | false, 'D' => some (scale [86400] (by decide))
  | true, 'H' => some (scale [3600] (by decide))
  | true, 'M' => some (scale [60] (by decide))
  | true, 'S' => some (scale [1] (by decide))
  | _, _ => none

def firstMark (number : Str) (inTime : Bool) : Bool := number.isEmpty && !inTime

def finishLength (negative : Bool) (s : Progress) : Answer :=
  let total := signed negative s.total
  ⟨total.exceeded, if s.any = true ∧ s.number.isEmpty = true then some total.value else none⟩

/-- `subscription::duration_seconds`. -/
def durationSeconds : Str → Answer := readDuration lengthUnits firstMark finishLength

/-- A number with the sign of a duration; minutes before the start are those of a duration that goes back. -/
def signedInt (negative : Bool) (t : Int) : Int := if negative = true then -t else t

theorem signed_exact (negative : Bool) {t : Int} (ht : 0 ≤ t) (h : Reckoned.Fits t) : signed negative (of t) = of (signedInt negative t) := by
  obtain ⟨hmin, hmax⟩ := h
  unfold signed signedInt
  unfold I64.min I64.max at *
  cases negative with
  | true =>
    rw [if_pos rfl, if_pos rfl, mul_exact, neg_one_mul]
    unfold Reckoned.Fits I64.min I64.max
    omega
  | false =>
    rw [if_neg Bool.false_ne_true, if_neg Bool.false_ne_true, mul_exact, one_mul]
    unfold Reckoned.Fits I64.min I64.max
    omega

theorem signed_exceeded (negative : Bool) {total : Reckoned} (h : total.exceeded = true) : (signed negative total).exceeded = true :=
  mul_exceeded (.inr (.inl h))

theorem minutesBefore_iff (value : Str) :
    (minutesBefore value).Exact (signedInt (!(signOf (trim value)).1) (partsOf minuteUnits always value)) ↔
      partsOf minuteUnits always value ≤ I64.max := by
  refine @readDuration_iff _ _ _ (fun negative t => signedInt (!negative) t) ?_ ?_ value
  · intro negative s t htotal ht hfits
    have hneg : -of t = of (-t) := neg_exact (by
      obtain ⟨hmin, hmax⟩ := hfits
      unfold Reckoned.Fits I64.min I64.max at *
      omega)
    have hgiven : (if negative = true then s.total else -s.total) = of (signedInt (!negative) t) := by
      rw [htotal, hneg]
      cases negative with
      | true => rfl
      | false => rfl
    unfold finishMinutes
    rw [hgiven]
    split
    · refine ⟨rfl, fun x hx => ?_⟩
      have hx : (some (signedInt (!negative) t)).filter (fun m => 0 ≤ m) = some x := hx
      exact (some.inj (filter_eq_some_iff.mp hx).1).symm
    · exact ⟨by rw [htotal]; rfl, fun x hx => by cases hx⟩
  · intro negative s h
    unfold finishMinutes
    split
    · cases negative with
      | true => exact h
      | false => exact settle_exceeded (.inl h)
    · exact h

theorem duration_iff (value : Str) :
    (duration value).Exact (signedInt (signOf (trim value)).1 (partsOf secondUnits always value)) ↔
      partsOf secondUnits always value ≤ I64.max := by
  refine @readDuration_iff _ _ _ signedInt ?_ (fun negative s h => signed_exceeded negative h) value
  intro negative s t htotal ht hfits
  unfold finishSeconds
  rw [htotal, signed_exact negative ht hfits]
  refine ⟨rfl, fun x hx => ?_⟩
  split at hx
  · exact (some.inj hx).symm
  · cases hx

theorem durationSeconds_iff (value : Str) :
    (durationSeconds value).Exact (signedInt (signOf (trim value)).1 (partsOf lengthUnits firstMark value)) ↔
      partsOf lengthUnits firstMark value ≤ I64.max := by
  refine @readDuration_iff _ _ _ signedInt ?_ (fun negative s h => signed_exceeded negative h) value
  intro negative s t htotal ht hfits
  unfold finishLength
  rw [htotal, signed_exact negative ht hfits]
  refine ⟨rfl, fun x hx => ?_⟩
  split at hx
  · exact (some.inj hx).symm
  · cases hx

/-! ## Sequence numbers -/

open Ics in
/-- The number `bump_sequence` writes over a SEQUENCE line. -/
def bumped (line : Str) : Reckoned := of (sequenceIn line) + 1

open Ics in
open Ics in
/-- The sequence number of a component. -/
def sequenceOf (lines : List Str) (at_ : Component) : Int :=
  (((within lines at_).find? (named "SEQUENCE")).map sequenceIn).getD 0

open Ics in
/-- The highest number an earlier version of an exception has, or the series. -/
def previousSequence (p : Platform) (lines : List Str) (found : List Component) (main : Component) (original : Int) : Int :=
  max ((((found.filter (isFor p original)).map (sequenceOf lines)).max?).getD 0) (sequenceOf lines main)

open Ics in
/-- The number `put_override` gives an exception. -/
def overrideNext (p : Platform) (lines : List Str) (found : List Component) (main : Component) (original : Int) : Reckoned :=
  of (previousSequence p lines found main original) + 1

open Ics in
/-- The number a task's SEQUENCE becomes; `value` is what stands in the property. -/
def nextSequence (value : Option Str) : Reckoned :=
  match value.bind (fun text => parseInt (trim text)) with
  | some n => of n + 1
  | none => 1

theorem next_iff {n : Int} (h : Reckoned.Fits n) : (of n + 1).exceeded = false ↔ n ≠ I64.max := by
  obtain ⟨hmin, hmax⟩ := h
  constructor
  · rintro hkept rfl
    exact absurd (add_kept hkept).2.2.1 (by decide)
  · intro hne
    have hfits : Reckoned.Fits (n + 1) := by
      unfold Reckoned.Fits I64.min I64.max at *
      omega
    exact congrArg Reckoned.exceeded (add_exact hfits)

theorem parseInt_fits {s : Str} {n : Int} (h : parseInt s = some n) : Reckoned.Fits n := by
  obtain ⟨-, hfits⟩ := filter_eq_some_iff.mp h
  exact of_decide_eq_true hfits

theorem sequenceIn_fits (line : Str) : Reckoned.Fits (Ics.sequenceIn line) := by
  have hzero : Reckoned.Fits 0 := by decide
  unfold Ics.sequenceIn
  split
  · cases h : parseInt (trim ((Ics.afterColon line).takeWhile fun c => c ≠ ':')) with
    | none => exact hzero
    | some n => exact parseInt_fits h
  · exact hzero

theorem sequenceOf_fits (lines : List Str) (at_ : Ics.Component) : Reckoned.Fits (sequenceOf lines at_) := by
  unfold sequenceOf
  cases (Ics.within lines at_).find? (Ics.named "SEQUENCE") with
  | none => exact (by decide : Reckoned.Fits 0)
  | some line => exact sequenceIn_fits line

theorem previousSequence_fits (p : Ics.Platform) (lines : List Str) (found : List Ics.Component) (main : Ics.Component)
    (original : Int) : Reckoned.Fits (previousSequence p lines found main original) := by
  have hmax : ∀ {x y : Int}, Reckoned.Fits x → Reckoned.Fits y → Reckoned.Fits (max x y) := fun hx hy =>
    ⟨le_max_of_le_left hx.1, max_le hx.2 hy.2⟩
  refine hmax ?_ (sequenceOf_fits lines main)
  cases h : ((found.filter (Ics.isFor p original)).map (sequenceOf lines)).max? with
  | none => exact (by decide : Reckoned.Fits 0)
  | some n =>
    obtain ⟨c, -, rfl⟩ := mem_map.mp (max?_mem h)
    exact sequenceOf_fits lines c

theorem nextSequence_iff (value : Option Str) : (nextSequence value).exceeded = false ↔
    value.bind (fun text => parseInt (trim text)) ≠ some I64.max := by
  unfold nextSequence
  cases h : value.bind (fun text => parseInt (trim text)) with
  | none => exact ⟨fun _ h => (by cases h), fun _ => rfl⟩
  | some n =>
    obtain ⟨text, -, hn⟩ := bind_eq_some_iff.mp h
    rw [ne_eq, some.injEq]
    exact next_iff (parseInt_fits hn)

/-! ## When a reminder rings -/

structure TimingReckoned where
  fireAt : Reckoned
  start : Reckoned
  end_ : Reckoned

/-- When an event starts and ends; the day after its start is reckoned whether it is used or not. -/
def spanReckoned (event : Event) (zone : TimeZone) : Option (Reckoned × Reckoned) :=
  if event.allDay then
    (localMidnight zone event.start).map (fun start =>
      let dayAfter := of start + of 86400
      (of start, match (localMidnight zone event.end_).filter (fun e => start < e) with
        | some e => ⟨e, dayAfter.exceeded⟩
        | none => dayAfter))
  else if event.start < event.end_ then some (of event.start, of event.end_)
  else some (of event.start, of event.start + of ZERO_LENGTH_ON)

def timingReckoned (event : Event) (zone : TimeZone) : Option TimingReckoned :=
  match event.reminderMinutes with
  | none => none
  | some reminderMinutes =>
    let minutes := max reminderMinutes 0
    (spanReckoned event zone).map (fun p => ⟨p.1 - of minutes * of 60, p.1, p.2⟩)

theorem timing_eq (event : Event) (zone : TimeZone) :
    timing event zone = (timingReckoned event zone).map (fun t => ⟨t.fireAt.value, t.start.value, t.end_.value⟩) := by
  unfold timing timingReckoned
  cases event.reminderMinutes with
  | none => rfl
  | some m =>
    dsimp only
    unfold span spanReckoned
    split
    · cases localMidnight zone event.start with
      | none => rfl
      | some start =>
        dsimp only [map_some]
        cases (localMidnight zone event.end_).filter (fun e => start < e) with
        | none => rfl
        | some e => rfl
    · split
      · rfl
      · rfl

/-- When an event starts. -/
def startOf (event : Event) (zone : TimeZone) : Option Int :=
  if event.allDay then localMidnight zone event.start else some event.start

/-- The lead of a reminder and an event without length leave the range of seconds nowhere. -/
def Ringable (event : Event) (zone : TimeZone) : Prop :=
  ∀ minutes start, event.reminderMinutes = some minutes → startOf event zone = some start →
    Reckoned.Fits (max minutes 0 * 60) ∧ Reckoned.Fits (start - max minutes 0 * 60) ∧
      (event.allDay = false → event.end_ ≤ event.start → Reckoned.Fits (start + ZERO_LENGTH_ON))

/-- A day is far from the ends of the range. -/
theorem localMidnight_fits {zone : TimeZone} {date start : Int} (h : localMidnight zone date = some start) :
    Reckoned.Fits (start + 86400) := by
  have hnamed : ∀ {naive t : Int}, (zone.ofLocal naive).earliest = some t → naive - day < t ∧ t < naive + day := by
    intro naive t ht
    have hlocal := TimeZone.toLocal_of_earliest ht
    have hoffset := zone.offset_lt t
    unfold TimeZone.toLocal at hlocal
    omega
  unfold localMidnight at h
  split at h
  · rename_i hdate
    unfold representable at hdate
    rw [Bool.and_eq_true, decide_eq_true_eq, decide_eq_true_eq] at hdate
    have hnear : date / 86400 * 86400 - day < start ∧ start < date / 86400 * 86400 + day + 7200 := by
      unfold resolve at h
      rw [or_eq_some_iff] at h
      rcases h with h | ⟨-, h⟩
      · have := hnamed h
        omega
      · obtain ⟨k, hk, hk'⟩ := exists_of_findSome?_eq_some h
        have hnear := hnamed hk'
        simp only [mem_cons, not_mem_nil, or_false] at hk
        omega
    unfold day at hnear
    unfold Reckoned.Fits I64.min I64.max
    omega
  · cases h

theorem add_iff {x y : Int} : (of x + of y).exceeded = false ↔ Reckoned.Fits (x + y) :=
  ⟨fun h => (add_kept h).2.2.1, fun h => congrArg Reckoned.exceeded (add_exact h)⟩

theorem lead_iff {start minutes : Int} : (of start - of minutes * of 60).exceeded = false ↔
    Reckoned.Fits (minutes * 60) ∧ Reckoned.Fits (start - minutes * 60) := by
  constructor
  · intro h
    obtain ⟨-, hlead, hfits, -⟩ := sub_kept h
    obtain ⟨-, -, hmul, hvalue⟩ := mul_kept hlead
    rw [hvalue] at hfits
    exact ⟨hmul, hfits⟩
  · rintro ⟨hmul, hsub⟩
    have hlead : of minutes * of 60 = of (minutes * 60) := mul_exact hmul
    rw [hlead]
    exact congrArg Reckoned.exceeded (sub_exact hsub)

/-- What is reckoned of an event's end. -/
theorem spanReckoned_iff (event : Event) (zone : TimeZone) {start : Int} (h : startOf event zone = some start) :
    ∃ end_, spanReckoned event zone = some (of start, end_) ∧
      (end_.exceeded = false ↔ (event.allDay = false → event.end_ ≤ event.start → Reckoned.Fits (start + ZERO_LENGTH_ON))) := by
  unfold startOf at h
  unfold spanReckoned
  cases hday : event.allDay with
  | true =>
    rw [hday, if_pos rfl] at h
    have hafter : (of start + of 86400).exceeded = false := add_iff.mpr (localMidnight_fits h)
    rw [if_pos rfl, h, map_some]
    refine ⟨_, rfl, fun _ hno => Bool.noConfusion hno, fun _ => ?_⟩
    split
    · exact hafter
    · exact hafter
  | false =>
    rw [hday, if_neg Bool.false_ne_true] at h
    cases h
    rw [if_neg Bool.false_ne_true]
    by_cases hlength : event.start < event.end_
    · rw [if_pos hlength]
      exact ⟨_, rfl, fun _ _ hno => absurd hno (not_le.mpr hlength), fun _ => rfl⟩
    · rw [if_neg hlength]
      refine ⟨_, rfl, fun hkept _ _ => add_iff.mp hkept, fun hfits => add_iff.mpr (hfits rfl (not_lt.mp hlength))⟩

theorem timing_iff (event : Event) (zone : TimeZone) :
    (∀ t, timingReckoned event zone = some t → t.fireAt.exceeded = false ∧ t.end_.exceeded = false) ↔ Ringable event zone := by
  unfold timingReckoned Ringable
  cases hminutes : event.reminderMinutes with
  | none => exact ⟨fun _ _ _ h => (by cases h), fun _ _ h => (by cases h)⟩
  | some minutes =>
    cases hstart : startOf event zone with
    | none =>
      have hspan : spanReckoned event zone = none := by
        unfold startOf at hstart
        unfold spanReckoned
        split
        · rename_i hday
          rw [if_pos hday] at hstart
          rw [hstart, map_none]
        · rename_i hday
          rw [if_neg hday] at hstart
          cases hstart
      rw [hspan]
      exact ⟨fun _ _ _ _ h => (by cases h), fun _ _ h => (by cases h)⟩
    | some start =>
      obtain ⟨end_, hspan, hend⟩ := spanReckoned_iff event zone hstart
      rw [hspan]
      constructor
      · rintro h minutes' start' ⟨⟩ ⟨⟩
        obtain ⟨hfire, hend'⟩ := h _ rfl
        obtain ⟨hmul, hsub⟩ := lead_iff.mp hfire
        exact ⟨hmul, hsub, hend.mp hend'⟩
      · rintro h t ⟨⟩
        obtain ⟨hmul, hsub, hrest⟩ := h minutes start rfl rfl
        exact ⟨lead_iff.mpr ⟨hmul, hsub⟩, hend.mpr hrest⟩

/-! ## All of them -/

/-- **When the numbers in calendar text stay in range.** A duration is exact when its parts come to an `i64`; a sequence
number can be raised when it is not the last one; and a reminder rings in time when its lead in seconds, the instant it
gives and the minute an event without length is on for are in range. -/
theorem numbers_kept_iff (value : Str) (line : Str) (p : Ics.Platform) (lines : List Str) (found : List Ics.Component)
    (main : Ics.Component) (original : Int) (property : Option Str) (event : Event) (zone : TimeZone) :
    ((minutesBefore value).Exact (signedInt (!(signOf (trim value)).1) (partsOf minuteUnits always value)) ↔
      partsOf minuteUnits always value ≤ I64.max) ∧
    ((duration value).Exact (signedInt (signOf (trim value)).1 (partsOf secondUnits always value)) ↔
      partsOf secondUnits always value ≤ I64.max) ∧
    ((durationSeconds value).Exact (signedInt (signOf (trim value)).1 (partsOf lengthUnits firstMark value)) ↔
      partsOf lengthUnits firstMark value ≤ I64.max) ∧ ((bumped line).exceeded = false ↔ Ics.sequenceIn line ≠ I64.max) ∧
    ((overrideNext p lines found main original).exceeded = false ↔ previousSequence p lines found main original ≠ I64.max) ∧
    ((nextSequence property).exceeded = false ↔
      property.bind (fun text => parseInt (trim text)) ≠ some I64.max) ∧
    ((∀ t, timingReckoned event zone = some t → t.fireAt.exceeded = false ∧ t.end_.exceeded = false) ↔ Ringable event zone) :=
  ⟨minutesBefore_iff value, duration_iff value, durationSeconds_iff value, next_iff (sequenceIn_fits line),
    next_iff (previousSequence_fits p lines found main original), nextSequence_iff property, timing_iff event zone⟩

/-- An event that lasts one week less than none. -/
theorem weeks_wrap : durationSeconds "P9223372036854775807W" = ⟨true, some (-604800)⟩ ∧
    partsOf lengthUnits firstMark "P9223372036854775807W" = 9223372036854775807 * 604800 := by
  decide +kernel

end Oreneta.Calendar.Numbers

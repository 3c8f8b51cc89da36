import Oreneta.Lib.Text

/-!
# 64-bit integers and their decimal text

* `I64.wrap` — the value of an `i64` operation in a build without overflow checks: the result taken
  modulo `2^64`;
* `Decimal.ofInt`, `Decimal.parseInt` — an `i64` written in decimal, and read as `str::parse::<i64>`
  reads it: an optional sign, then digits, within the range;
* `parseBelow` — `str::parse` of an unsigned type;
* `parseInt_ofInt`, `parseBelow_ofNat` — what was written is read back.
-/

namespace Oreneta

open List

namespace I64

def min : Int := -9223372036854775808

def max : Int := 9223372036854775807

/-- The result of an `i64` operation in a build without overflow checks. -/
def wrap (x : Int) : Int := Int.bmod x (2 ^ 64)

/-- Wrapping around never raises a value that has not fallen below the range. -/
theorem wrap_le {x : Int} (h : min ≤ x) : wrap x ≤ x := by
  unfold wrap
  unfold min at h
  rw [Int.bmod_def]
  split <;> omega

/-- A value within the range is kept. -/
theorem wrap_eq {x : Int} (h : min ≤ x ∧ x ≤ max) : wrap x = x := by
  obtain ⟨hlow, hhigh⟩ := h
  unfold wrap
  unfold min at hlow
  unfold max at hhigh
  rw [Int.bmod_def]
  split <;> omega

@[simp] theorem wrap_sub_wrap (x y : Int) : wrap (x - wrap y) = wrap (x - y) := Int.sub_bmod_bmod

end I64

namespace Decimal

def ofNat (n : Nat) : Str := Nat.toDigits 10 n

/-- `to_string` of an `i64`. -/
def ofInt : Int → Str
  | .ofNat n => ofNat n
  | .negSucc n => '-' :: ofNat (n + 1)

/-- A text of digits only, as a number. -/
def parseNat (s : Str) : Option Nat :=
  if s ≠ [] ∧ s.all Char.isDigit then some (Nat.ofDigitChars 10 s 0) else none

/-- The number with its sign, before the range is looked at. -/
def parseSigned : Str → Option Int
  | '-' :: s => (parseNat s).map (fun n : Nat => -(n : Int))
  | '+' :: s => (parseNat s).map Int.ofNat
  | s => (parseNat s).map Int.ofNat

/-- `str::parse::<i64>`. -/
def parseInt (s : Str) : Option Int := (parseSigned s).filter (fun n => I64.min ≤ n ∧ n ≤ I64.max)

theorem isDigit_of_mem {n : Nat} {c : Char} (h : c ∈ ofNat n) : c.isDigit = true :=
  Nat.isDigit_of_mem_toDigits (by decide) (by decide) h

theorem parseNat_ofNat (n : Nat) : parseNat (ofNat n) = some n := by
  have hne : ofNat n ≠ [] := Nat.toDigits_ne_nil
  have hd : (ofNat n).all Char.isDigit = true := all_eq_true.mpr fun c hc => isDigit_of_mem hc
  unfold parseNat
  rw [if_pos ⟨hne, hd⟩]
  exact congrArg some Nat.ofDigitChars_ten_toDigits

/-- Digits are no sign. -/
theorem parseSigned_of_digits {s : Str} (h : s.all Char.isDigit = true) : parseSigned s = (parseNat s).map Int.ofNat := by
  unfold parseSigned
  split
  · simp at h
  · simp at h
  · rfl

theorem parseSigned_ofInt (i : Int) : parseSigned (ofInt i) = some i := by
  cases i with
  | ofNat n =>
    have hd : (ofNat n).all Char.isDigit = true := all_eq_true.mpr fun c hc => isDigit_of_mem hc
    show parseSigned (ofNat n) = _
    rw [parseSigned_of_digits hd, parseNat_ofNat]
    rfl
  | negSucc n =>
    show (parseNat (ofNat (n + 1))).map (fun n : Nat => -(n : Int)) = _
    rw [parseNat_ofNat]
    rfl

/-- **What was written is read back.** -/
theorem parseInt_ofInt {i : Int} (h : I64.min ≤ i ∧ i ≤ I64.max) : parseInt (ofInt i) = some i := by
  unfold parseInt
  rw [parseSigned_ofInt]
  simp [Option.filter, h.1, h.2]

/-- `str::parse` of an unsigned type with so many values: an optional plus, then digits. -/
def parseBelow (bound : Nat) (s : Str) : Option Nat :=
  (parseNat (if s.head? = some '+' then s.tail else s)).filter (fun n => n < bound)

theorem parseBelow_ofNat {n bound : Nat} (h : n < bound) : parseBelow bound (ofNat n) = some n := by
  have hplus : ¬ (ofNat n).head? = some '+' := fun he =>
    absurd (isDigit_of_mem (mem_of_mem_head? he)) (by decide)
  unfold parseBelow
  rw [if_neg hplus, parseNat_ofNat]
  simp [Option.filter, h]

theorem parseBelow_lt {bound n : Nat} {s : Str} (h : parseBelow bound s = some n) : n < bound :=
  of_decide_eq_true (Option.filter_eq_some_iff.mp h).2

/-- A written number holds digits and at most a minus. -/
theorem mem_ofInt {i : Int} {c : Char} (h : c ∈ ofInt i) : c.isDigit = true ∨ c = '-' := by
  cases i with
  | ofNat n => exact .inl (isDigit_of_mem h)
  | negSucc n =>
    rcases mem_cons.mp h with h | h
    · exact .inr h
    · exact .inl (isDigit_of_mem h)

end Decimal

end Oreneta

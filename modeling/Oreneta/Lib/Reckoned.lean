import Oreneta.Lib.Decimal

/-!
# Sums that may leave the range

An `i64` that was reckoned: what it comes to when every operation wraps around, and whether one of them went out of range.

* `+`, `-`, `*`, `quot` — the operations of the program.
* `add_exact`, `sub_exact`, `mul_exact` — within the range they are those of the integers.
* `add_exceeded`, `mul_exceeded` — what left the range once stays so.
* `add_kept`, `sub_kept`, `mul_kept` — where nothing went out of range, nothing had before.
-/

namespace Oreneta

structure Reckoned where
  value : Int
  exceeded : Bool
  deriving DecidableEq, Repr

namespace Reckoned

def Fits (x : Int) : Prop := I64.min ≤ x ∧ x ≤ I64.max

instance (x : Int) : Decidable (Fits x) := inferInstanceAs (Decidable (_ ∧ _))

/-- A number that is in range. -/
def of (x : Int) : Reckoned := ⟨x, false⟩

@[simp]
theorem of_value (x : Int) : (of x).value = x := rfl

@[simp]
theorem of_exceeded (x : Int) : (of x).exceeded = false := rfl

def settle (x : Int) (before : Bool) : Reckoned := ⟨I64.wrap x, before || !decide (Fits x)⟩

instance : Add Reckoned := ⟨fun a b => settle (a.value + b.value) (a.exceeded || b.exceeded)⟩

instance : Sub Reckoned := ⟨fun a b => settle (a.value - b.value) (a.exceeded || b.exceeded)⟩

instance : Mul Reckoned := ⟨fun a b => settle (a.value * b.value) (a.exceeded || b.exceeded)⟩

instance : Neg Reckoned := ⟨fun a => settle (-a.value) a.exceeded⟩

instance (n : Nat) : OfNat Reckoned n := ⟨of (OfNat.ofNat n)⟩

/-- Division by a number other than `-1`. -/
def quot (a : Reckoned) (n : Int) : Reckoned := ⟨a.value.tdiv n, a.exceeded⟩

theorem wrap_fits (x : Int) : Fits (I64.wrap x) := by
  unfold I64.wrap Fits I64.min I64.max
  have hlo := Int.le_bmod (x := x) (m := 2 ^ 64) (by decide)
  have hhi := Int.bmod_lt (x := x) (m := 2 ^ 64) (by decide)
  omega

variable {x : Int}

theorem settle_fits (h : Fits x) : settle x false = of x := by
  unfold settle of
  rw [I64.wrap_eq h, decide_eq_true h]
  rfl

theorem settle_kept {before : Bool} (h : (settle x before).exceeded = false) :
    before = false ∧ Fits x ∧ (settle x before).value = x := by
  unfold settle at h ⊢
  obtain ⟨hbefore, hx⟩ := Bool.or_eq_false_iff.mp h
  have hfits : Fits x := by simpa using hx
  exact ⟨hbefore, hfits, I64.wrap_eq hfits⟩

theorem add_exact {y : Int} (h : Fits (x + y)) : of x + of y = of (x + y) := settle_fits h

theorem sub_exact {y : Int} (h : Fits (x - y)) : of x - of y = of (x - y) := settle_fits h

theorem mul_exact {y : Int} (h : Fits (x * y)) : of x * of y = of (x * y) := settle_fits h

theorem neg_exact (h : Fits (-x)) : -of x = of (-x) := settle_fits h

theorem quot_exact (x n : Int) : (of x).quot n = of (x.tdiv n) := rfl

theorem settle_exceeded {before : Bool} (h : before = true ∨ ¬ Fits x) : (settle x before).exceeded = true := by
  unfold settle
  rcases h with rfl | h
  · rfl
  · rw [decide_eq_false h, Bool.not_false, Bool.or_true]

variable {a b : Reckoned}

/-- What went out of range once stays so. -/
theorem add_exceeded (h : a.exceeded = true ∨ b.exceeded = true ∨ ¬ Fits (a.value + b.value)) : (a + b).exceeded = true := by
  refine settle_exceeded ?_
  rcases h with h | h | h
  · exact .inl (by rw [h, Bool.true_or])
  · exact .inl (by rw [h, Bool.or_true])
  · exact .inr h

theorem mul_exceeded (h : a.exceeded = true ∨ b.exceeded = true ∨ ¬ Fits (a.value * b.value)) : (a * b).exceeded = true := by
  refine settle_exceeded ?_
  rcases h with h | h | h
  · exact .inl (by rw [h, Bool.true_or])
  · exact .inl (by rw [h, Bool.or_true])
  · exact .inr h

/-- Where nothing went out of range, nothing had before, and the value is the sum. -/
theorem add_kept (h : (a + b).exceeded = false) :
    a.exceeded = false ∧ b.exceeded = false ∧ Fits (a.value + b.value) ∧ (a + b).value = a.value + b.value := by
  obtain ⟨hbefore, hrest⟩ := settle_kept h
  obtain ⟨ha, hb⟩ := Bool.or_eq_false_iff.mp hbefore
  exact ⟨ha, hb, hrest⟩

theorem sub_kept (h : (a - b).exceeded = false) :
    a.exceeded = false ∧ b.exceeded = false ∧ Fits (a.value - b.value) ∧ (a - b).value = a.value - b.value := by
  obtain ⟨hbefore, hrest⟩ := settle_kept h
  obtain ⟨ha, hb⟩ := Bool.or_eq_false_iff.mp hbefore
  exact ⟨ha, hb, hrest⟩

theorem mul_kept (h : (a * b).exceeded = false) :
    a.exceeded = false ∧ b.exceeded = false ∧ Fits (a.value * b.value) ∧ (a * b).value = a.value * b.value := by
  obtain ⟨hbefore, hrest⟩ := settle_kept h
  obtain ⟨ha, hb⟩ := Bool.or_eq_false_iff.mp hbefore
  exact ⟨ha, hb, hrest⟩

end Reckoned

end Oreneta

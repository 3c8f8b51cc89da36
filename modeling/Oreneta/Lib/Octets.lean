import Mathlib.Algebra.Order.Ring.Int
import Mathlib.Data.List.Induction

/-!
# Octets

* `bigEndian`, `ofBigEndian` — a number in a fixed number of octets, the highest first; what does not fit is lost
  (`ofBigEndian_bigEndian`), and any octets are some number's (`bigEndian_ofBigEndian`).
* `readExact` — the next octets of a stream, or none of them.
-/

namespace Oreneta

open List

abbrev Octets := List UInt8

namespace Octets

/-- The octets of an ASCII text. -/
def ascii (s : String) : Octets := s.toList.map (fun c => UInt8.ofNat c.toNat)

/-- `to_be_bytes` of a number cast to `width` octets. -/
def bigEndian : Nat → Nat → Octets
  | 0, _ => []
  | width + 1, n => bigEndian width (n / 256) ++ [UInt8.ofNat n]

/-- `from_be_bytes`. -/
def ofBigEndian (octets : Octets) : Nat := octets.foldl (fun n b => n * 256 + b.toNat) 0

@[simp]
theorem length_bigEndian (width n : Nat) : (bigEndian width n).length = width := by
  induction width generalizing n with
  | zero => rfl
  | succ width ih => rw [bigEndian, length_append, ih, length_singleton]

theorem ofBigEndian_append (octets : Octets) (b : UInt8) : ofBigEndian (octets ++ [b]) = ofBigEndian octets * 256 + b.toNat := by
  unfold ofBigEndian
  rw [foldl_append]
  rfl

/-- What is read back is what fits. -/
theorem ofBigEndian_bigEndian (width n : Nat) : ofBigEndian (bigEndian width n) = n % 256 ^ width := by
  induction width generalizing n with
  | zero => simp [bigEndian, ofBigEndian, Nat.mod_one]
  | succ width ih =>
    have hlow : (UInt8.ofNat n).toNat = n % 256 := UInt8.toNat_ofNat'
    rw [bigEndian, ofBigEndian_append, ih, hlow, Nat.pow_succ, Nat.mul_comm (256 ^ width) 256, Nat.mod_mul]
    omega

theorem ofBigEndian_of_lt {width n : Nat} (h : n < 256 ^ width) : ofBigEndian (bigEndian width n) = n := by
  rw [ofBigEndian_bigEndian, Nat.mod_eq_of_lt h]

/-- Octets are the number they are read as. -/
theorem bigEndian_ofBigEndian (octets : Octets) : bigEndian octets.length (ofBigEndian octets) = octets := by
  induction octets using List.reverseRecOn with
  | nil => rfl
  | append_singleton octets b ih =>
    have hb : b.toNat < 256 := b.toNat_lt
    have hhigh : (ofBigEndian octets * 256 + b.toNat) / 256 = ofBigEndian octets := by omega
    have hlow : UInt8.ofNat (ofBigEndian octets * 256 + b.toNat) = b := by
      apply UInt8.toNat.inj
      rw [UInt8.toNat_ofNat']
      omega
    rw [ofBigEndian_append, length_append, length_singleton, bigEndian, hhigh, ih, hlow]

theorem ofBigEndian_lt (octets : Octets) : ofBigEndian octets < 256 ^ octets.length := by
  rw [← bigEndian_ofBigEndian octets, ofBigEndian_bigEndian, length_bigEndian]
  exact Nat.mod_lt _ (Nat.pow_pos (by omega))

/-- `Read::read_exact`: the next octets and what follows. -/
def readExact (n : Nat) (input : Octets) : Option (Octets × Octets) :=
  if n ≤ input.length then some (input.take n, input.drop n) else none

theorem readExact_append {n : Nat} {head : Octets} (h : head.length = n) (rest : Octets) :
    readExact n (head ++ rest) = some (head, rest) := by
  unfold readExact
  rw [if_pos (by rw [length_append]; omega), take_left' h, drop_left' h]

theorem readExact_some {n : Nat} {input head rest : Octets} (h : readExact n input = some (head, rest)) :
    input = head ++ rest ∧ head.length = n := by
  unfold readExact at h
  split at h
  · rename_i hn
    cases h
    exact ⟨(take_append_drop n input).symm, length_take_of_le hn⟩
  · cases h

end Octets

end Oreneta

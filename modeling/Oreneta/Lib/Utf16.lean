import Oreneta.Lib.Text

/-!
# UTF-16

* `units` — a character as one unit of 16 bits, or as a surrogate pair.
* `decode` — the text of a sequence of units; none if a surrogate stands alone.
* `decode_units` — the text whose units these are is read back.
-/

namespace Oreneta.Utf16

open List

/-- `char::encode_utf16`. -/
def units (c : Char) : List Nat :=
  if c.toNat < 0x10000 then [c.toNat]
  else [0xD800 + (c.toNat - 0x10000) / 0x400, 0xDC00 + (c.toNat - 0x10000) % 0x400]

/-- `String::from_utf16`. -/
def decode : List Nat → Option Str
  | [] => some []
  | [u] => if u < 0xD800 ∨ 0xE000 ≤ u then some [Char.ofNat u] else none
  | u :: v :: rest =>
    if u < 0xD800 ∨ 0xE000 ≤ u then (decode (v :: rest)).map (fun s => Char.ofNat u :: s)
    else if u < 0xDC00 ∧ 0xDC00 ≤ v ∧ v < 0xE000 then
      (decode rest).map (fun s => Char.ofNat (0x10000 + (u - 0xD800) * 0x400 + (v - 0xDC00)) :: s)
    else none

theorem toNat_range (c : Char) : c.toNat < 0xD800 ∨ (0xE000 ≤ c.toNat ∧ c.toNat < 0x110000) := by
  have h := c.valid
  simp only [UInt32.isValidChar, Nat.isValidChar] at h
  unfold Char.toNat
  omega

theorem units_lt {c : Char} {u : Nat} (h : u ∈ units c) : u < 0x10000 := by
  have hc := toNat_range c
  unfold units at h
  split at h
  · rw [mem_singleton.mp h]
    assumption
  · simp only [mem_cons, not_mem_nil, or_false] at h
    rcases h with h | h <;> omega

theorem units_ne_nil (c : Char) : units c ≠ [] := by
  unfold units
  split <;> simp

theorem decode_cons {u : Nat} (rest : List Nat) (h : u < 0xD800 ∨ 0xE000 ≤ u) :
    decode (u :: rest) = (decode rest).map (fun s => Char.ofNat u :: s) := by
  cases rest with
  | nil =>
    simp [decode, h]
  | cons v rest => rw [decode, if_pos h]

theorem decode_units_append (c : Char) (rest : List Nat) : decode (units c ++ rest) = (decode rest).map (fun s => c :: s) := by
  have hc := toNat_range c
  unfold units
  split
  · rename_i hsmall
    have hplain : c.toNat < 0xD800 ∨ 0xE000 ≤ c.toNat := by omega
    rw [singleton_append, decode_cons rest hplain, Char.ofNat_toNat]
  · rename_i hlarge
    -- the pair stands in the ranges of the two surrogates
    generalize hn : c.toNat - 0x10000 = n
    have hhigh : ¬ (0xD800 + n / 0x400 < 0xD800 ∨ 0xE000 ≤ 0xD800 + n / 0x400) := by omega
    have hlow : 0xD800 + n / 0x400 < 0xDC00 ∧ 0xDC00 ≤ 0xDC00 + n % 0x400 ∧ 0xDC00 + n % 0x400 < 0xE000 := by
      omega
    have hvalue : 0x10000 + (0xD800 + n / 0x400 - 0xD800) * 0x400 + (0xDC00 + n % 0x400 - 0xDC00) = c.toNat := by
      omega
    rw [cons_append, cons_append, nil_append, decode, if_neg hhigh, if_pos hlow, hvalue, Char.ofNat_toNat]

/-- **The text whose units these are is read back.** -/
theorem decode_units (s : Str) : decode (s.flatMap units) = some s := by
  induction s with
  | nil => rfl
  | cons c s ih => rw [flatMap_cons, decode_units_append, ih, Option.map_some]

end Oreneta.Utf16

import Oreneta.Lib.Octets

/-!
# Octets that are UTF-8

* `valid` — `str::from_utf8` succeeds.
* `lossy` — `String::from_utf8_lossy`: each longest part that begins a character and does not finish it becomes
  U+FFFD.
* `valid_append` — validity of two parts with an ASCII character between them; `lossy_of_valid`.
-/

namespace Oreneta.Utf8Octets

open List

/-- The length of the character the octet begins, 0 where none begins so. -/
def width (lead : UInt8) : Nat :=
  if lead < 0x80 then 1
  else if lead < 0xC2 then 0
  else if lead < 0xE0 then 2
  else if lead < 0xF0 then 3
  else if lead < 0xF5 then 4
  else 0

def isTail (b : UInt8) : Bool := 0x80 ≤ b && b ≤ 0xBF

/-- The second octet of a character: no overlong form, no surrogate, nothing over U+10FFFF. -/
def isSecond (lead b : UInt8) : Bool :=
  if lead = 0xE0 then 0xA0 ≤ b && b ≤ 0xBF
  else if lead = 0xED then 0x80 ≤ b && b ≤ 0x9F
  else if lead = 0xF0 then 0x90 ≤ b && b ≤ 0xBF
  else if lead = 0xF4 then 0x80 ≤ b && b ≤ 0x8F
  else isTail b

/-- How many of the next octets go on with the character, up to `n`. -/
def following (ok : UInt8 → Bool) : Nat → Octets → Nat
  | 0, _ => 0
  | _ + 1, [] => 0
  | n + 1, b :: rest => if ok b then following isTail n rest + 1 else 0

/-- The character is whole. -/
def isWhole (lead : UInt8) (rest : Octets) : Bool :=
  width lead != 0 && following (isSecond lead) (width lead - 1) rest == width lead - 1

/-- What is left of `rest` after the character, or after the part of one. -/
def after (lead : UInt8) (rest : Octets) : Octets := rest.drop (following (isSecond lead) (width lead - 1) rest)

theorem length_after (lead : UInt8) (rest : Octets) : (after lead rest).length ≤ rest.length := by
  unfold after
  rw [length_drop]
  omega

def valid : Octets → Bool
  | [] => true
  | lead :: rest => isWhole lead rest && valid (after lead rest)
termination_by octets => octets.length
decreasing_by
  have := length_after lead rest
  rw [length_cons]
  omega

/-- U+FFFD. -/
def replacement : Octets := [0xEF, 0xBF, 0xBD]

def lossy : Octets → Octets
  | [] => []
  | lead :: rest =>
    (if isWhole lead rest then lead :: rest.take (following (isSecond lead) (width lead - 1) rest) else replacement) ++
      lossy (after lead rest)
termination_by octets => octets.length
decreasing_by
  have := length_after lead rest
  rw [length_cons]
  omega

/-- What is valid stays as it is. -/
theorem lossy_of_valid {octets : Octets} (h : valid octets = true) : lossy octets = octets := by
  induction octets using lossy.induct with
  | case1 => rw [lossy]
  | case2 lead rest ih =>
    rw [valid, Bool.and_eq_true] at h
    rw [lossy, if_pos h.1, ih h.2, after, cons_append, take_append_drop]

variable {c : UInt8}

theorem isTail_of_ascii (hc : c < 0x80) : isTail c = false := by
  unfold isTail
  have : ¬ 0x80 ≤ c := UInt8.not_le.mpr hc
  simp [this]

theorem isSecond_of_ascii {lead : UInt8} (hc : c < 0x80) : isSecond lead c = false := by
  have h80 : c.toNat < 128 := UInt8.lt_iff_toNat_lt.mp hc
  unfold isSecond
  have hlow : ∀ low : UInt8, 128 ≤ low.toNat → ¬ low ≤ c := by
    intro low hl hle
    have := UInt8.le_iff_toNat_le.mp hle
    omega
  split
  · simp [hlow 0xA0 (by decide)]
  · split
    · simp [hlow 0x80 (by decide)]
    · split
      · simp [hlow 0x90 (by decide)]
      · split
        · simp [hlow 0x80 (by decide)]
        · exact isTail_of_ascii hc

theorem following_le (ok : UInt8 → Bool) (n : Nat) (rest : Octets) : following ok n rest ≤ rest.length := by
  induction n generalizing ok rest with
  | zero => exact Nat.zero_le _
  | succ n ih =>
    cases rest with
    | nil => exact Nat.zero_le _
    | cons b rest =>
      unfold following
      split
      · have := ih isTail rest
        rw [length_cons]
        omega
      · exact Nat.zero_le _

/-- A character does not go on over an ASCII one. -/
theorem following_append {ok : UInt8 → Bool} (hc : c < 0x80) (hok : ok c = false) (n : Nat) (a b : Octets) :
    following ok n (a ++ c :: b) = following ok n a := by
  induction n generalizing ok a with
  | zero => rfl
  | succ n ih =>
    cases a with
    | nil => simp [following, hok]
    | cons x a => simp only [cons_append, following, ih (isTail_of_ascii hc)]

theorem width_of_ascii (hc : c < 0x80) : width c = 1 := by
  unfold width
  rw [if_pos hc]

theorem valid_append (hc : c < 0x80) (a b : Octets) : valid (a ++ c :: b) = (valid a && valid b) := by
  induction a using valid.induct with
  | case1 => simp [valid, isWhole, after, width_of_ascii hc, following]
  | case2 lead rest ih =>
    have hfollowing : following (isSecond lead) (width lead - 1) (rest ++ c :: b) =
        following (isSecond lead) (width lead - 1) rest := following_append hc (isSecond_of_ascii hc) _ rest b
    have hwhole : isWhole lead (rest ++ c :: b) = isWhole lead rest := by
      unfold isWhole
      rw [hfollowing]
    have hafter : after lead (rest ++ c :: b) = after lead rest ++ c :: b := by
      unfold after
      rw [hfollowing, drop_append_of_le_length (following_le _ _ _)]
    rw [cons_append, valid, valid, hwhole, hafter, ih, Bool.and_assoc]

end Oreneta.Utf8Octets

import Oreneta.Lib.Octets
import Oreneta.Lib.Utf8

/-!
# The octets of a text

* `bytes` — a text in UTF-8, one character after another; `encode_eq`, `decode_bytes` — the same as by way of `String`.
* `bytes_ascii`, `mem_utf8EncodeChar` — an ASCII character is one octet, and no octet of another one is below 128.
* `splitOn_bytes`, `head?_bytes`, `getLast?_bytes` — so looking for an ASCII character may be done on the octets.
-/

namespace Oreneta.Utf8

open List

def bytes (s : Str) : Octets := s.flatMap String.utf8EncodeChar

theorem bytes_cons (c : Char) (s : Str) : bytes (c :: s) = String.utf8EncodeChar c ++ bytes s := flatMap_cons

theorem bytes_append (s t : Str) : bytes (s ++ t) = bytes s ++ bytes t := flatMap_append

theorem encode_eq (s : Str) : encode s = (bytes s).map UInt8.toNat := by
  unfold encode bytes
  rw [String.toByteArray_ofList, List.utf8Encode, data_toByteArray]

theorem decode_bytes (s : Str) : decode ((bytes s).map UInt8.toNat) = some s := by rw [← encode_eq, decode_encode]

theorem bytes_ascii {c : Char} (hc : c.toNat < 128) : String.utf8EncodeChar c = [UInt8.ofNat c.toNat] := by
  unfold String.utf8EncodeChar
  exact if_pos (Nat.le_of_lt_succ hc)

/-- The octets of a character that is not ASCII are all high. -/
theorem mem_utf8EncodeChar {c : Char} (hc : 128 ≤ c.toNat) {b : UInt8} (hb : b ∈ String.utf8EncodeChar c) : 128 ≤ b.toNat := by
  have hnot : ¬ c.val.toNat ≤ 0x7f := by
    have : c.val.toNat = c.toNat := rfl
    omega
  unfold String.utf8EncodeChar at hb
  dsimp only at hb
  rw [if_neg hnot] at hb
  split at hb
  · simp only [mem_cons, not_mem_nil, or_false] at hb
    rcases hb with rfl | rfl
    all_goals
      rw [UInt8.toNat_ofNat']
      omega
  · split at hb
    all_goals
      simp only [mem_cons, not_mem_nil, or_false] at hb
    · rcases hb with rfl | rfl | rfl
      all_goals
        rw [UInt8.toNat_ofNat']
        omega
    · rcases hb with rfl | rfl | rfl | rfl
      all_goals
        rw [UInt8.toNat_ofNat']
        omega

/-- The octet of an ASCII character is that character's alone. -/
theorem mem_iff_of_ascii {x : Char} (hx : x.toNat < 128) {c : Char} : UInt8.ofNat x.toNat ∈ String.utf8EncodeChar c ↔ c = x := by
  constructor
  · intro h
    by_cases hc : c.toNat < 128
    · rw [bytes_ascii hc, mem_singleton] at h
      have hn := congrArg UInt8.toNat h
      rw [UInt8.toNat_ofNat', UInt8.toNat_ofNat'] at hn
      have : c.toNat = x.toNat := by omega
      exact Char.toNat_inj.mp this
    · have hlow := mem_utf8EncodeChar (Nat.le_of_not_lt hc) h
      rw [UInt8.toNat_ofNat'] at hlow
      omega
  · rintro rfl
    rw [bytes_ascii hx]
    exact mem_singleton_self _

theorem splitOn_append_of_not_mem {α : Type} [DecidableEq α] {b : α} : ∀ {front : List α} (rest : List α), b ∉ front →
    (front ++ rest).splitOn b = (rest.splitOn b).modifyHead (front ++ ·)
  | [], rest, _ => by cases h : rest.splitOn b <;> simp [h]
  | a :: front, rest, h => by
    obtain ⟨hne, hfront⟩ := not_or.mp (fun hm => h (mem_cons.mpr hm))
    rw [cons_append, splitOn_cons_eq_if_modifyHead, if_neg (by simpa using Ne.symm hne),
      splitOn_append_of_not_mem rest hfront]
    cases hs : rest.splitOn b with
    | nil => rfl
    | cons first others => rfl

theorem splitOn_bytes {x : Char} (hx : x.toNat < 128) : ∀ s : Str,
    (bytes s).splitOn (UInt8.ofNat x.toNat) = (s.splitOn x).map bytes
  | [] => by
    rw [splitOn_nil]
    exact splitOn_nil _
  | c :: s => by
    have ih := splitOn_bytes hx s
    by_cases hc : c = x
    · subst hc
      rw [bytes_cons, bytes_ascii hx, singleton_append, splitOn_cons_eq_if_modifyHead, if_pos (by simp), ih,
        splitOn_cons_eq_if_modifyHead, if_pos (by simp)]
      rfl
    · rw [bytes_cons, splitOn_append_of_not_mem _ fun h => hc ((mem_iff_of_ascii hx).mp h), ih,
        splitOn_cons_eq_if_modifyHead, if_neg (by simpa using hc)]
      cases hs : s.splitOn x with
      | nil => rfl
      | cons first others => rw [map_cons, modifyHead_cons, modifyHead_cons, map_cons, bytes_cons]

theorem head?_bytes {x : Char} (hx : x.toNat < 128) (s : Str) :
    (bytes s).head? = some (UInt8.ofNat x.toNat) ↔ s.head? = some x := by
  cases s with
  | nil => exact ⟨fun h => (by cases h), fun h => (by cases h)⟩
  | cons c s =>
    rw [bytes_cons, head?_append_of_ne_nil _ String.utf8EncodeChar_ne_nil, head?_cons, Option.some.injEq]
    constructor
    · exact fun h => (mem_iff_of_ascii hx).mp (mem_of_mem_head? h)
    · rintro rfl
      rw [bytes_ascii hx]
      rfl

theorem getLast?_bytes {x : Char} (hx : x.toNat < 128) (s : Str) :
    (bytes s).getLast? = some (UInt8.ofNat x.toNat) ↔ s.getLast? = some x := by
  rcases eq_nil_or_concat s with rfl | ⟨s, c, rfl⟩
  · exact ⟨fun h => (by cases h), fun h => (by cases h)⟩
  · have hone : bytes [c] = String.utf8EncodeChar c := append_nil _
    rw [concat_eq_append, bytes_append, hone, getLast?_append_of_ne_nil _ String.utf8EncodeChar_ne_nil,
      getLast?_concat, Option.some.injEq]
    constructor
    · exact fun h => (mem_iff_of_ascii hx).mp (mem_of_mem_getLast? h)
    · rintro rfl
      rw [bytes_ascii hx]
      rfl

end Oreneta.Utf8

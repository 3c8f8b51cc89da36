import Oreneta.Lib.Text

/-!
# Slices of a text by bytes

`text[..n]` and `text[n..]` count bytes of UTF-8, and the program panics where the place they name is not between two
characters.

* `cut` — both slices; `cut_append` — at the end of some of the characters they are the two parts.
* `cut_eq_none` — where there is no such place, the text is shorter or a character stands across it (`Across`).
-/

namespace Oreneta.ByteSlices

open Text (byteLength)

theorem byteLength_cons (c : Char) (s : Str) : byteLength (c :: s) = c.utf8Size + byteLength s := rfl

theorem byteLength_append (s t : Str) : byteLength (s ++ t) = byteLength s + byteLength t := by
  unfold byteLength
  rw [List.map_append, List.sum_append]

/-- `(&text[..n], &text[n..])`; nothing where the program panics. -/
def cut : Str → Nat → Option (Str × Str)
  | text, 0 => some ([], text)
  | [], _ + 1 => none
  | c :: text, n + 1 =>
    if c.utf8Size ≤ n + 1 then (cut text (n + 1 - c.utf8Size)).map (fun p => (c :: p.1, p.2)) else none

def sliceTo (text : Str) (n : Nat) : Option Str := (cut text n).map Prod.fst

def sliceFrom (text : Str) (n : Nat) : Option Str := (cut text n).map Prod.snd

/-- `&text[m..n]`. -/
def slice (text : Str) (m n : Nat) : Option Str := (sliceTo text n).bind (fun front => sliceFrom front m)

theorem cut_append : ∀ (front back : Str), cut (front ++ back) (byteLength front) = some (front, back)
  | [], back => by cases back <;> rfl
  | c :: front, back => by
    have hpos := c.utf8Size_pos
    obtain ⟨n, hn⟩ : ∃ n, byteLength (c :: front) = n + 1 := ⟨c.utf8Size + byteLength front - 1, by
      rw [byteLength_cons]
      omega⟩
    have hrest : n + 1 - c.utf8Size = byteLength front := by
      rw [byteLength_cons] at hn
      omega
    have hle : c.utf8Size ≤ n + 1 := by
      rw [byteLength_cons] at hn
      omega
    rw [hn, List.cons_append, cut, if_pos hle, hrest, cut_append front back, Option.map_some]

theorem sliceTo_append (front back : Str) : sliceTo (front ++ back) (byteLength front) = some front := by
  rw [sliceTo, cut_append, Option.map_some]

theorem sliceFrom_append (front back : Str) : sliceFrom (front ++ back) (byteLength front) = some back := by
  rw [sliceFrom, cut_append, Option.map_some]

theorem slice_append (front middle back : Str) :
    slice (front ++ middle ++ back) (byteLength front) (byteLength (front ++ middle)) = some middle := by
  rw [slice, sliceTo_append, Option.bind_some, sliceFrom_append]

theorem cut_some : ∀ {text front back : Str} {n : Nat}, cut text n = some (front, back) →
    text = front ++ back ∧ byteLength front = n
  | text, front, back, 0, h => by
    have hzero : cut text 0 = some ([], text) := by cases text <;> rfl
    rw [hzero] at h
    cases h
    exact ⟨rfl, rfl⟩
  | [], front, back, n + 1, h => by cases h
  | c :: text, front, back, n + 1, h => by
    rw [cut] at h
    split at h
    · rename_i hle
      obtain ⟨⟨front', back'⟩, hcut, he⟩ := Option.map_eq_some_iff.mp h
      cases he
      obtain ⟨rfl, hlen⟩ := cut_some hcut
      refine ⟨rfl, ?_⟩
      rw [byteLength_cons, hlen]
      omega
    · cases h

/-- A character of the text begins before the place and ends after it. -/
def Across (text : Str) (n : Nat) : Prop :=
  ∃ front c back, text = front ++ c :: back ∧ byteLength front < n ∧ n < byteLength front + c.utf8Size

theorem cut_eq_none : ∀ {text : Str} {n : Nat}, cut text n = none ↔ byteLength text < n ∨ Across text n
  | text, 0 => by
    have hzero : cut text 0 = some ([], text) := by cases text <;> rfl
    rw [hzero]
    refine ⟨fun h => (by cases h), fun h => ?_⟩
    rcases h with h | ⟨front, c, back, -, h, -⟩
    · exact absurd h (Nat.not_lt_zero _)
    · exact absurd h (Nat.not_lt_zero _)
  | [], n + 1 => ⟨fun _ => .inl (Nat.succ_pos n), fun _ => rfl⟩
  | c :: text, n + 1 => by
    have hpos := c.utf8Size_pos
    rw [cut]
    by_cases hle : c.utf8Size ≤ n + 1
    · rw [if_pos hle, Option.map_eq_none_iff, cut_eq_none, byteLength_cons]
      constructor
      · rintro (h | ⟨front, d, back, rfl, hbefore, hafter⟩)
        · exact .inl (by omega)
        · refine .inr ⟨c :: front, d, back, rfl, ?_, ?_⟩
          · rw [byteLength_cons]
            omega
          · rw [byteLength_cons]
            omega
      · rintro (h | ⟨front, d, back, htext, hbefore, hafter⟩)
        · exact .inl (by omega)
        · cases front with
          | nil =>
            -- the first character ends in time
            cases htext
            have hzero : byteLength [] = 0 := rfl
            rw [hzero] at hafter
            omega
          | cons x front =>
            cases htext
            rw [byteLength_cons] at hbefore hafter
            exact .inr ⟨front, d, back, rfl, by omega, by omega⟩
    · rw [if_neg hle]
      exact ⟨fun _ => .inr ⟨[], c, text, rfl, Nat.succ_pos n, by
        have hzero : byteLength [] = 0 := rfl
        omega⟩, fun _ => rfl⟩

end Oreneta.ByteSlices

import Mathlib.Data.List.Nodup

/-!
# Lists in chunks

`slice::chunks`: a list cut into pieces of one length, the last of which may be shorter (`List.toChunks`).

* `toChunks_flatten` — the pieces are the list.
* `flatMap_chunk` — an item that is in the list once is in one piece.
-/

namespace Oreneta.Chunks

open List

variable {α β : Type}

theorem toChunks_go_flatten (n : Nat) : ∀ (cs acc : List α) (done : List (List α)),
    (List.toChunks.go n cs acc.toArray done.toArray).flatten = done.flatten ++ acc ++ cs
  | [], acc, done => by simp [List.toChunks.go]
  | c :: cs, acc, done => by
    have hnew := toChunks_go_flatten n cs [c] (done ++ [acc])
    have hmore := toChunks_go_flatten n cs (acc ++ [c]) done
    unfold List.toChunks.go
    split
    · simpa using hnew
    · simpa using hmore

theorem toChunks_flatten (n : Nat) (l : List α) : (l.toChunks n).flatten = l := by
  cases l with
  | nil =>
    cases n with
    | zero => rfl
    | succ n => rfl
  | cons c cs =>
    cases n with
    | zero => exact append_nil _
    | succ n => exact toChunks_go_flatten (n + 1) cs [c] []

/-- **One piece holds an item** that is in the list once. -/
theorem flatMap_chunk [BEq α] [LawfulBEq α] {x : α} (f : List β) : ∀ {pieces : List (List α)}, pieces.flatten.Nodup → x ∈ pieces.flatten →
    (pieces.flatMap fun piece => if x ∈ piece then f else []) = f
  | [], _, hx => absurd hx not_mem_nil
  | piece :: pieces, hnodup, hx => by
    rw [flatten_cons, nodup_append] at hnodup
    obtain ⟨-, hrest, hdisjoint⟩ := hnodup
    rw [flatMap_cons]
    by_cases hpiece : x ∈ piece
    · have hnone : (pieces.flatMap fun piece => if x ∈ piece then f else []) = [] := by
        rw [flatMap_eq_nil_iff]
        intro other hother
        rw [if_neg]
        exact fun hx' => hdisjoint x hpiece x (mem_flatten.mpr ⟨other, hother, hx'⟩) rfl
      rw [if_pos hpiece, hnone, append_nil]
    · rw [if_neg hpiece, nil_append]
      rw [flatten_cons, mem_append] at hx
      exact flatMap_chunk f hrest (hx.resolve_left hpiece)

end Oreneta.Chunks

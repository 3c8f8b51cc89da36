import Oreneta.Lib.Text

/-!
# Trimmed texts

What trimming leaves, for any notion of white space `p`: `trimBy p` takes it off both ends.

* `trimBy_split` — a text is what was trimmed off before, what is left, and what was trimmed off after.
* `trimBy_eq_self_iff` — the texts trimming leaves as they are (`Trimmed`).
* `trimBy_blank_append`, `trimBy_append_blank` — white space at an end makes no difference.
-/

namespace Oreneta.Text

open List Option

variable {α : Type*} {p : α → Bool}

def trimBy (p : α → Bool) (s : List α) : List α := (s.dropWhile p).rdropWhile p

theorem trim_eq_trimBy (s : Str) : trim s = trimBy isWhitespace s := rfl

/-- Neither end is white space. -/
def Trimmed (p : α → Bool) (s : List α) : Prop :=
  (∀ c ∈ s.head?, p c = false) ∧ ∀ c ∈ s.getLast?, p c = false

theorem rdropWhile_split (p : α → Bool) (s : List α) : ∃ after, s = s.rdropWhile p ++ after ∧ ∀ c ∈ after, p c = true := by
  refine ⟨s.rtakeWhile p, ?_, ?_⟩
  · have h := congrArg List.reverse (takeWhile_append_dropWhile (p := p) (l := s.reverse))
    rw [reverse_append, reverse_reverse] at h
    exact h.symm
  · intro c hc
    exact mem_takeWhile_imp (mem_reverse.mp hc)

theorem rdropWhile_append_blank {after : List α} (h : ∀ c ∈ after, p c = true) (s : List α) :
    (s ++ after).rdropWhile p = s.rdropWhile p := by
  rw [List.rdropWhile, reverse_append, dropWhile_append_of_pos fun x hx => h x (mem_reverse.mp hx), List.rdropWhile]

theorem trimBy_split (p : α → Bool) (s : List α) : ∃ before after, s = before ++ (trimBy p s ++ after) ∧
    (∀ c ∈ before, p c = true) ∧ ∀ c ∈ after, p c = true := by
  obtain ⟨after, hafter, hblank⟩ := rdropWhile_split p (s.dropWhile p)
  refine ⟨s.takeWhile p, after, ?_, fun c hc => mem_takeWhile_imp hc, hblank⟩
  rw [trimBy, ← hafter, takeWhile_append_dropWhile]

theorem trimBy_sublist (p : α → Bool) (s : List α) : (trimBy p s).Sublist s :=
  ((List.rdropWhile_prefix p _).sublist).trans (dropWhile_sublist p)

theorem trimBy_trimmed (p : α → Bool) (s : List α) : Trimmed p (trimBy p s) := by
  constructor
  · intro c hc
    -- the first of what is left is the first that was not dropped
    obtain ⟨after, hafter, -⟩ := rdropWhile_split p (s.dropWhile p)
    have hhead : c ∈ (s.dropWhile p).head? := by
      rw [hafter]
      unfold trimBy at hc
      cases hr : (s.dropWhile p).rdropWhile p with
      | nil => rw [hr] at hc; cases hc
      | cons x rest => rw [hr] at hc; exact hc
    have hnot := head?_dropWhile_not p s
    rw [mem_def.mp hhead] at hnot
    simpa using hnot
  · intro c hc
    have hne : trimBy p s ≠ [] := by
      intro h
      rw [h] at hc
      cases hc
    have hlast := rdropWhile_last_not p (s.dropWhile p) hne
    rw [mem_def, getLast?_eq_some_getLast hne] at hc
    rw [← some.inj hc]
    simpa [trimBy] using hlast

theorem trimBy_eq_self {s : List α} (h : Trimmed p s) : trimBy p s = s := by
  have hstart : s.dropWhile p = s := by
    cases s with
    | nil => rfl
    | cons c rest => exact dropWhile_cons_of_neg (by simp [h.1 c rfl])
  unfold trimBy
  rw [hstart, rdropWhile_eq_self_iff]
  intro hne
  have := h.2 (s.getLast hne) (getLast?_eq_some_getLast hne)
  simp [this]

theorem trimBy_eq_self_iff {s : List α} : trimBy p s = s ↔ Trimmed p s :=
  ⟨fun h => h ▸ trimBy_trimmed p s, trimBy_eq_self⟩

theorem trimBy_blank_append {before : List α} (h : ∀ c ∈ before, p c = true) (s : List α) :
    trimBy p (before ++ s) = trimBy p s := by
  unfold trimBy
  rw [dropWhile_append_of_pos h]

/-- White space after a text that is not blank makes no difference. -/
theorem trimBy_append_blank {after : List α} (h : ∀ c ∈ after, p c = true) {s : List α} (hs : Trimmed p s) :
    trimBy p (s ++ after) = s := by
  cases s with
  | nil =>
    unfold trimBy
    rw [nil_append, dropWhile_eq_nil_iff.mpr h, rdropWhile_nil]
  | cons c rest =>
    have hc : ¬ p c = true := by simp [hs.1 c rfl]
    have hself := trimBy_eq_self hs
    unfold trimBy at hself ⊢
    rw [dropWhile_cons_of_neg hc] at hself
    rw [cons_append, dropWhile_cons_of_neg hc, ← cons_append, rdropWhile_append_blank h, hself]

theorem trimBy_append_of_blank {after : List α} (h : ∀ c ∈ after, p c = true) (s : List α) :
    trimBy p (s ++ after) = trimBy p s := by
  unfold trimBy
  rw [dropWhile_append]
  split
  · rename_i hempty
    rw [List.isEmpty_iff.mp hempty, dropWhile_eq_nil_iff.mpr h]
  · rw [rdropWhile_append_blank h]

/-- What stands up to a character that is not white space stays. -/
theorem rdropWhile_append_cons {d : α} (hd : p d = false) (s t : List α) :
    (s ++ d :: t).rdropWhile p = s ++ d :: t.rdropWhile p := by
  have hstop : List.dropWhile p (d :: s.reverse) = d :: s.reverse := dropWhile_cons_of_neg (by simp [hd])
  rw [List.rdropWhile, List.rdropWhile, reverse_append, reverse_cons, append_assoc, singleton_append, dropWhile_append]
  split
  · rename_i hempty
    rw [hstop, List.isEmpty_iff.mp hempty]
    simp
  · simp

theorem trimBy_cons {c : α} (hc : p c = false) (s : List α) : trimBy p (c :: s) = c :: s.rdropWhile p := by
  unfold trimBy
  rw [dropWhile_cons_of_neg (by simp [hc])]
  exact rdropWhile_append_cons hc [] s

theorem trimBy_keeps {c d : α} (hc : p c = false) (hd : p d = false) (s t : List α) :
    trimBy p (c :: (s ++ d :: t)) = c :: (s ++ d :: t.rdropWhile p) := by
  rw [trimBy_cons hc, rdropWhile_append_cons hd]

theorem trim_of_no_space {s : Str} (h : ∀ c ∈ s, isWhitespace c = false) : trim s = s := by
  rw [trim_eq_trimBy]
  exact trimBy_eq_self ⟨fun c hc => h c (mem_of_mem_head? hc), fun c hc => h c (mem_of_mem_getLast? hc)⟩

theorem Trimmed.asciiLower {s : Str} (h : Trimmed isWhitespace s) : Trimmed isWhitespace (asciiLower s) := by
  constructor
  · intro c hc
    unfold Text.asciiLower at hc
    rw [head?_map, mem_def, map_eq_some_iff] at hc
    obtain ⟨d, hd, rfl⟩ := hc
    rw [isWhitespace_toLower]
    exact h.1 d hd
  · intro c hc
    unfold Text.asciiLower at hc
    rw [getLast?_map, mem_def, map_eq_some_iff] at hc
    obtain ⟨d, hd, rfl⟩ := hc
    rw [isWhitespace_toLower]
    exact h.2 d hd

theorem trim_trim (s : Str) : trim (trim s) = trim s := trimBy_eq_self (trimBy_trimmed isWhitespace s)

/-- Trimming takes nothing but white space. -/
theorem count_trim {c : Char} (h : isWhitespace c = false) (s : Str) : (trim s).count c = s.count c := by
  obtain ⟨before, after, hs, hbefore, hafter⟩ := trimBy_split isWhitespace s
  have hno : ∀ {t : Str}, (∀ x ∈ t, isWhitespace x = true) → t.count c = 0 := by
    intro t ht
    rw [count_eq_zero]
    intro hc
    rw [ht c hc] at h
    cases h
  rw [trim_eq_trimBy]
  conv_rhs => rw [hs, count_append, count_append, hno hbefore, hno hafter]
  omega

end Oreneta.Text

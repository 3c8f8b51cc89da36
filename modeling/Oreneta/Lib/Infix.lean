import Oreneta.Lib.Trim

/-!
# Texts inside texts

* `contains_iff` — `contains` finds the texts that stand somewhere in another.
* `infix_append_cons` — a text without a character stands on one side of it or on the other.
* `infix_of_blank_ends` — a text that neither starts nor ends with white space stands within the white space
  around a text.
* `infix_of_length` — the only places for a text in one that is a character longer.
-/

namespace Oreneta.Text

open List

variable {α : Type*}

theorem contains_iff {s sub : List Char} : contains s sub = true ↔ sub <:+: s := by
  induction s with
  | nil => simp [contains, List.isEmpty_iff]
  | cons c s ih => rw [contains, Bool.or_eq_true, ih, List.isPrefixOf_iff_prefix, infix_cons_iff]

theorem infix_append_cons {d : α} {n a b : List α} (hd : d ∉ n) : n <:+: a ++ d :: b ↔ n <:+: a ∨ n <:+: b := by
  constructor
  · rintro ⟨u, v, h⟩
    rw [append_assoc, append_eq_append_iff] at h
    rcases h with ⟨a', rfl, h⟩ | ⟨c, -, h⟩
    · rw [append_eq_append_iff] at h
      rcases h with ⟨a'', rfl, -⟩ | ⟨c, rfl, h⟩
      · exact .inl ⟨u, a'', by simp⟩
      · cases c with
        | nil => exact .inl ⟨u, [], by simp⟩
        | cons x c =>
          rw [cons_append, List.cons.injEq] at h
          exact absurd (by simp [h.1]) hd
    · cases c with
      | cons x c =>
        rw [cons_append, List.cons.injEq] at h
        exact .inr ⟨c, v, by rw [h.2, append_assoc]⟩
      | nil =>
        cases n with
        | nil => exact .inl nil_infix
        | cons x n =>
          simp only [nil_append, cons_append, List.cons.injEq] at h
          exact absurd (by simp [h.1]) hd
  · rintro (h | h)
    · exact h.trans (prefix_append a _).isInfix
    · exact h.trans ((suffix_cons d b).trans (suffix_append a _)).isInfix

section Blank

variable {p : α → Bool}

theorem infix_of_blank_append {n before s : List α} (hne : n ≠ []) (hn : ∀ c ∈ n.head?, p c = false)
    (hb : ∀ c ∈ before, p c = true) (h : n <:+: before ++ s) : n <:+: s := by
  induction before with
  | nil => exact h
  | cons x before ih =>
    rw [cons_append, infix_cons_iff] at h
    rcases h with h | h
    · cases n with
      | nil => exact absurd rfl hne
      | cons c n =>
        have hc : c = x := (cons_prefix_cons.mp h).1
        have := hb x (by simp)
        rw [← hc, hn c rfl] at this
        cases this
    · exact ih (fun c hc => hb c (mem_cons_of_mem _ hc)) h

theorem infix_of_blank_ends {n before s after : List α} (hne : n ≠ []) (hn : Trimmed p n)
    (hb : ∀ c ∈ before, p c = true) (ha : ∀ c ∈ after, p c = true) (h : n <:+: before ++ (s ++ after)) : n <:+: s := by
  have hr := infix_of_blank_append hne hn.1 hb h
  rw [← reverse_infix, reverse_append] at hr
  apply reverse_infix.mp
  apply infix_of_blank_append (by simpa using hne) (by simpa using hn.2) _ hr
  intro c hc
  exact ha c (mem_reverse.mp hc)

end Blank

/-- The only places for a text in one that is a character longer. -/
theorem infix_of_length {n s : List α} (h : n <:+: s) (hlen : s.length ≤ n.length + 1) : n <+: s ∨ n <:+ s := by
  obtain ⟨u, v, rfl⟩ := h
  simp only [length_append] at hlen
  cases u with
  | nil => exact .inl ⟨v, rfl⟩
  | cons x u =>
    cases v with
    | nil => exact .inr ⟨x :: u, by simp⟩
    | cons y v =>
      simp only [length_cons] at hlen
      omega

theorem infix_eq_of_length {n s : List α} (h : n <:+: s) (hlen : s.length ≤ n.length) : n = s :=
  h.sublist.eq_of_length_le hlen

end Oreneta.Text

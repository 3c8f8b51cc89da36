import Mathlib.Data.List.Basic
import Mathlib.Tactic.Ring

/-!
# Texts with holes

A text is a list of pieces: some are copied, others are holes, which are written between two opening and two
closing characters.

* `fillHoles f` — the text with `f s` for every hole written `s`.
* `holes_eq` — if one and the same value in all holes gives what is written, it is what is written in each: no
  other value makes up in one place for what it changes in another.
-/

namespace Oreneta.Holes

open List

variable {α : Type}

/-- What is copied is on the left, holes are on the right. -/
def fillHoles (f : List α → List α) (items : List (List α ⊕ List α)) : List α := items.flatMap (Sum.elim id f)

/-- A hole as it is written, the delimiters nowhere inside. -/
def IsHole (a b : α) (s : List α) : Prop := ∃ m, s = a :: a :: (m ++ [b, b]) ∧ a ∉ m ∧ b ∉ m

section

variable {a b : α} {s : List α}

theorem IsHole.reverse (h : IsHole a b s) : IsHole b a s.reverse := by
  obtain ⟨m, rfl, ha, hb⟩ := h
  refine ⟨m.reverse, ?_, fun hm => hb (mem_reverse.mp hm), fun hm => ha (mem_reverse.mp hm)⟩
  simp

theorem IsHole.last (h : IsHole a b s) : s.getLast? = some b := by
  obtain ⟨m, rfl, -, -⟩ := h
  have hs : a :: a :: (m ++ [b, b]) = (a :: a :: (m ++ [b])) ++ [b] := by simp
  rw [hs, getLast?_append]
  rfl

/-- Something cut off a hole's end has a closing character in it. -/
theorem mem_of_suffix {r : List α} (hs : s.getLast? = some b) {l : List α} (h : s = l ++ r) (hr : r ≠ []) : b ∈ r := by
  rw [h, getLast?_append_of_ne_nil _ hr] at hs
  exact mem_of_getLast? hs

theorem reverse_fillHoles (f : List α → List α) : ∀ items : List (List α ⊕ List α), (fillHoles f items).reverse =
      fillHoles (fun s => (f s.reverse).reverse) (items.reverse.map (Sum.map List.reverse List.reverse))
  | [] => rfl
  | x :: rest => by
    have ih := reverse_fillHoles f rest
    unfold fillHoles at ih ⊢
    rw [flatMap_cons, reverse_append, ih, reverse_cons, map_append, flatMap_append]
    cases x <;> simp

theorem mem_reversed {items : List (List α ⊕ List α)}
    (h : .inr s ∈ items.reverse.map (Sum.map List.reverse List.reverse)) : .inr s.reverse ∈ items := by
  obtain ⟨x, hx, he⟩ := mem_map.mp h
  cases x with
  | inl t => cases he
  | inr t =>
    have ht : t.reverse = s := Sum.inr.inj he
    rw [← ht, reverse_reverse]
    exact mem_reverse.mp hx

end

section

variable [DecidableEq α] {a b : α} {s v : List α} {items : List (List α ⊕ List α)}

theorem IsHole.count (h : IsHole a b s) (hab : a ≠ b) : s.count a = 2 ∧ s.count b = 2 := by
  obtain ⟨m, rfl, ha, hb⟩ := h
  have hba : b ≠ a := fun h => hab h.symm
  constructor
  · simp [count_append, count_eq_zero.mpr ha, hba]
  · simp [count_append, count_eq_zero.mpr hb, hab]

theorem count_fillHoles (items : List (List α ⊕ List α)) (c : α) (f : List α → List α) (n : Nat) (h : ∀ s, .inr s ∈ items → (f s).count c = n) :
    (fillHoles f items).count c =
      (fillHoles (fun _ => []) items).count c + n * (items.filter Sum.isRight).length := by
  induction items with
  | nil => simp [fillHoles]
  | cons x rest ih =>
    have ih := ih fun s hs => h s (mem_cons_of_mem x hs)
    unfold fillHoles at ih ⊢
    rw [flatMap_cons, flatMap_cons, count_append, count_append, ih]
    cases x with
    | inl t => simp [Nat.add_assoc]
    | inr s =>
      have hs := h s mem_cons_self
      simp only [Sum.elim_inr, filter_cons, Sum.isRight_inr, if_true, length_cons, count_nil, hs]
      ring

/-- The value has as many of a character as what is written in every hole. -/
theorem count_value {c : α} {n : Nat} (h : ∀ s, .inr s ∈ items → s.count c = n) (hs : .inr s ∈ items)
    (heq : fillHoles (fun _ => v) items = fillHoles id items) : v.count c = n := by
  have hv := count_fillHoles items c (fun _ => v) (v.count c) fun _ _ => rfl
  have hw := count_fillHoles items c id n h
  rw [heq, hw] at hv
  have hpos : 0 < (items.filter Sum.isRight).length :=
    length_pos_of_mem (mem_filter.mpr ⟨hs, rfl⟩)
  have hmul : n * (items.filter Sum.isRight).length = v.count c * (items.filter Sum.isRight).length := by omega
  exact (Nat.eq_of_mul_eq_mul_right hpos hmul).symm

/-- From the left: the value is what is written in every hole, or it begins with one and goes on. -/
theorem eq_or_longer (hab : a ≠ b) (hv : v.count b = 2) : ∀ {items : List (List α ⊕ List α)},
    (∀ s, .inr s ∈ items → IsHole a b s) → fillHoles (fun _ => v) items = fillHoles id items →
      (∀ s, .inr s ∈ items → v = s) ∨ ∃ s r, .inr s ∈ items ∧ r ≠ [] ∧ v = s ++ r
  | [], _, _ => .inl fun _ hs => (by cases hs)
  | .inl t :: rest, h, heq => by
    have heq' : fillHoles (fun _ => v) rest = fillHoles id rest := append_cancel_left heq
    rcases eq_or_longer hab hv (fun s hs => h s (mem_cons_of_mem _ hs)) heq' with hall | ⟨s, r, hs, hr⟩
    · left
      intro s hs
      rcases mem_cons.mp hs with hs | hs
      · cases hs
      · exact hall s hs
    · exact .inr ⟨s, r, mem_cons_of_mem _ hs, hr⟩
  | .inr s :: rest, h, heq => by
    have hhole := h s mem_cons_self
    have hcons : v ++ fillHoles (fun _ => v) rest = s ++ fillHoles id rest := heq
    have hstep : v = s → (∀ s', .inr s' ∈ (.inr s :: rest : List (List α ⊕ List α)) → v = s') ∨
        ∃ s' r, .inr s' ∈ (.inr s :: rest : List (List α ⊕ List α)) ∧ r ≠ [] ∧ v = s' ++ r := by
      intro hvs
      rw [← hvs] at hcons
      have heq' : fillHoles (fun _ => v) rest = fillHoles id rest := append_cancel_left hcons
      rcases eq_or_longer hab hv (fun s hs => h s (mem_cons_of_mem _ hs)) heq' with hall | ⟨s', r, hs, hr⟩
      · left
        intro s' hs
        rcases mem_cons.mp hs with hs | hs
        · rw [hvs]
          exact (Sum.inr.inj hs).symm
        · exact hall s' hs
      · exact .inr ⟨s', r, mem_cons_of_mem _ hs, hr⟩
    rcases append_eq_append_iff.mp hcons with ⟨r, hsr, -⟩ | ⟨r, hvr, -⟩
    · -- a value that is a part of the hole would lack its last character
      by_cases hr : r = []
      · rw [hr, append_nil] at hsr
        exact hstep hsr.symm
      · have hmem := mem_of_suffix hhole.last hsr hr
        have hcount := (hhole.count hab).2
        rw [hsr, count_append, hv] at hcount
        have := count_pos_iff.mpr hmem
        omega
    · by_cases hr : r = []
      · rw [hr, append_nil] at hvr
        exact hstep hvr
      · exact .inr ⟨s, r, mem_cons_self, hr, hvr⟩

/-- **One value for all holes.** -/
theorem holes_eq (hab : a ≠ b) (h : ∀ s, .inr s ∈ items → IsHole a b s)
    (heq : fillHoles (fun _ => v) items = fillHoles id items) (hs : .inr s ∈ items) : v = s := by
  have hcb : v.count b = 2 := count_value (fun s hs => ((h s hs).count hab).2) hs heq
  have hca : v.count a = 2 := count_value (fun s hs => ((h s hs).count hab).1) hs heq
  rcases eq_or_longer hab hcb h heq with hall | ⟨s₁, r₁, hs₁, hr₁, hv₁⟩
  · exact hall s hs
  · -- the same from the right
    have hrev : fillHoles (fun _ => v.reverse) (items.reverse.map (Sum.map List.reverse List.reverse)) =
        fillHoles id (items.reverse.map (Sum.map List.reverse List.reverse)) := by
      have hl := reverse_fillHoles (fun _ => v) items
      have hr := reverse_fillHoles id items
      rw [heq, hr] at hl
      simp only [id_eq, reverse_reverse] at hl
      exact hl.symm
    have hrevHole : ∀ s, .inr s ∈ items.reverse.map (Sum.map List.reverse List.reverse) → IsHole b a s := by
      intro s hs
      have := (h _ (mem_reversed hs)).reverse
      rwa [reverse_reverse] at this
    rcases eq_or_longer hab.symm (by rw [count_reverse]; exact hca) hrevHole hrev with hall | ⟨s₂, r₂, hs₂, hr₂, hv₂⟩
    · have hmem : .inr s.reverse ∈ items.reverse.map (Sum.map List.reverse List.reverse) :=
        mem_map.mpr ⟨.inr s, mem_reverse.mpr hs, rfl⟩
      exact reverse_injective (hall _ hmem)
    · -- the value ends as a hole does, but what goes on after the first has no delimiter in it
      exfalso
      have hvlast : v.getLast? = some b := by
        have hv : v = r₂.reverse ++ s₂.reverse := by
          have := congrArg List.reverse hv₂
          rw [reverse_reverse, reverse_append] at this
          exact this
        have hne : s₂.reverse ≠ [] := by
          obtain ⟨m, hm, -⟩ := hrevHole s₂ hs₂
          rw [hm]
          simp
        rw [hv, getLast?_append_of_ne_nil _ hne]
        exact (h _ (mem_reversed hs₂)).last
      have hmem := mem_of_suffix hvlast hv₁ hr₁
      have hcount := ((h s₁ hs₁).count hab).2
      rw [hv₁, count_append, hcount] at hcb
      have := count_pos_iff.mpr hmem
      omega

end

end Oreneta.Holes

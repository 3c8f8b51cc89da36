import Oreneta.Lib.Runs
import Mathlib.Data.List.Dedup

/-!
# Worklists

A state is visited at one item after another; each visit changes the state and finds further items,
which are visited in their turn unless they were met before.

* `Visits` — the visit, with the items a state can make it find at all, which no visit changes: what
  makes the walk end (`unseen_fresh`);
* `Visits.walk` — the walk from a queue of items, those met noted;
* `Visits.visited` — the items in the order they are visited; `walk_eq`: the walk is the visits to them
  in turn; `subset_visited`: every item of the queue is among them; `length_visited_le`: how many.
-/

namespace Oreneta

open List

/-- A visit to an item, and the items it may find. -/
structure Visits (σ ι : Type) where
  visit : σ → ι → σ × List ι
  items : σ → List ι
  found : ∀ s p, (visit s p).2 ⊆ items s
  kept : ∀ s p, items (visit s p).1 = items s

namespace Visits

variable {σ ι : Type} [DecidableEq ι]

/-- The items not met before, each once. -/
def fresh (seen : List ι) : List ι → List ι
  | [] => []
  | x :: found => if x ∈ seen then fresh seen found else x :: fresh (x :: seen) found

/-- How many of the items were not met. -/
def unseen (items seen : List ι) : Nat := (items.dedup.filter (fun x => x ∉ seen)).length

theorem unseen_anti {items seen seen' : List ι} (h : ∀ x ∈ seen, x ∈ seen') : unseen items seen' ≤ unseen items seen := by
  unfold unseen
  rw [← countP_eq_length_filter, ← countP_eq_length_filter]
  refine countP_mono_left fun x _ hx => ?_
  rw [decide_eq_true_eq] at hx ⊢
  exact fun hs => hx (h x hs)

theorem unseen_cons {items seen : List ι} {x : ι} (hx : x ∈ items) (hseen : x ∉ seen) :
    unseen items (x :: seen) + 1 ≤ unseen items seen := by
  unfold unseen
  have hfilter : items.dedup.filter (fun y => y ∉ x :: seen) =
      (items.dedup.filter fun y => y ∉ seen).filter (fun y => y ≠ x) := by
    rw [filter_filter]
    refine filter_congr fun y _ => ?_
    simp only [mem_cons, not_or, Bool.decide_and, ne_eq]
  rw [hfilter, Nat.add_one_le_iff, length_filter_lt_length_iff_exists]
  exact ⟨x, mem_filter.mpr ⟨List.mem_dedup.mpr hx, by simpa using hseen⟩, by simp⟩

/-- What is met for the first time is met no more. -/
theorem unseen_fresh {items found : List ι} : ∀ {seen : List ι}, found ⊆ items →
    unseen items (fresh seen found ++ seen) + (fresh seen found).length ≤ unseen items seen := by
  induction found with
  | nil =>
    intro seen _
    exact Nat.le_refl _
  | cons x found ih =>
    intro seen h
    obtain ⟨hx, hfound⟩ := cons_subset.mp h
    unfold fresh
    split
    · exact ih hfound
    · rename_i hseen
      have hcons := unseen_cons hx hseen
      have hrest := @ih (x :: seen) hfound
      have hsame : unseen items (x :: fresh (x :: seen) found ++ seen) ≤
          unseen items (fresh (x :: seen) found ++ x :: seen) := by
        refine unseen_anti fun y hy => ?_
        simp only [cons_append, mem_cons, mem_append] at hy ⊢
        tauto
      rw [length_cons]
      omega

/-- The walk: the first item of the queue is visited, and what it finds new is queued last. -/
def walk (v : Visits σ ι) (s : σ) (seen : List ι) : List ι → σ
  | [] => s
  | p :: queue =>
    let visited := v.visit s p
    let pushed := fresh seen visited.2
    walk v visited.1 (pushed ++ seen) (queue ++ pushed)
termination_by queue => unseen (v.items s) seen + queue.length
decreasing_by
  have hless := @unseen_fresh _ _ _ _ seen (v.found s p)
  simp only [length_append, length_cons, v.kept]
  omega

/-- The items in the order the walk visits them. -/
def visited (v : Visits σ ι) (s : σ) (seen : List ι) : List ι → List ι
  | [] => []
  | p :: queue =>
    let visit := v.visit s p
    let pushed := fresh seen visit.2
    p :: visited v visit.1 (pushed ++ seen) (queue ++ pushed)
termination_by queue => unseen (v.items s) seen + queue.length
decreasing_by
  have hless := @unseen_fresh _ _ _ _ seen (v.found s p)
  simp only [length_append, length_cons, v.kept]
  omega

variable {v : Visits σ ι} {s : σ} {seen queue : List ι}

/-- **The walk is the visits in turn.** -/
theorem walk_eq : v.walk s seen queue = (v.visited s seen queue).foldl (fun t p => (v.visit t p).1) s := by
  induction s, seen, queue using walk.induct v with
  | case1 s seen =>
    rw [walk, visited]
    rfl
  | case2 s seen p queue _ pushed ih =>
    rw [walk, visited, foldl_cons]
    exact ih

/-- What is queued is visited. -/
theorem subset_visited : queue ⊆ v.visited s seen queue := by
  induction s, seen, queue using walk.induct v with
  | case1 s seen => exact nil_subset _
  | case2 =>
    rename_i p _ _ _ ih
    rw [visited]
    exact cons_subset_cons p fun x hx => ih (mem_append_left _ hx)

/-- **The walk is no longer than the queue and what there is to find.** -/
theorem length_visited_le : (v.visited s seen queue).length ≤ queue.length + unseen (v.items s) seen := by
  induction s, seen, queue using walk.induct v with
  | case1 s seen =>
    rw [visited]
    exact Nat.zero_le _
  | case2 =>
    rename_i s seen p queue _ _ ih
    have hless := @unseen_fresh _ _ _ _ seen (v.found s p)
    have hrest : (v.visited (v.visit s p).1 (fresh seen (v.visit s p).2 ++ seen)
        (queue ++ fresh seen (v.visit s p).2)).length ≤
        (queue ++ fresh seen (v.visit s p).2).length +
          unseen (v.items (v.visit s p).1) (fresh seen (v.visit s p).2 ++ seen) := ih
    rw [length_append, v.kept] at hrest
    rw [visited, length_cons, length_cons]
    omega

theorem unseen_le (items seen : List ι) : unseen items seen ≤ items.length :=
  Nat.le_trans (length_filter_le _ _) (dedup_sublist items).length_le

end Visits

end Oreneta

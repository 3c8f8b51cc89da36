import Mathlib.Data.List.Perm.Subperm
import Oreneta.Lib.Keyset

/-!
# Reading a shrinking list forward in pages

A list is kept in strict order and read from its start, page by page, while items go from it.  A cursor stands for the last item
of a page; the next page holds the first items after it, whether or not that item is still listed.

* `after` — the items after one of them.
* `Reached` — the reads of a walk, each with the pages before it.
* `walk_forward` — if every page is that of the items after the one its cursor stands for, the walk ends, its pages are in order,
  and an item that is listed at all its reads is in one of them.
* `Walk.reached` — the pages before a read are the first of the walk.
-/

namespace Oreneta.Keyset

open List

section Forward

variable {ι κ π : Type} {r : π → π → Prop} [DecidableRel r] {pos : ι → π}

/-- The items after one of them; all of them, without one. -/
def after (r : π → π → Prop) [DecidableRel r] (pos : ι → π) (items : List ι) : Option ι → List ι
  | none => items
  | some c => items.filter (fun x => decide (r (pos c) (pos x)))

variable {items : List ι}

theorem mem_after {c : Option ι} {x : ι} : x ∈ after r pos items c ↔ x ∈ items ∧ ∀ y ∈ c, r (pos y) (pos x) := by
  cases c <;> simp [after]

theorem after_sorted (h : items.Pairwise fun x y => r (pos x) (pos y)) (c : Option ι) :
    (after r pos items c).Pairwise fun x y => r (pos x) (pos y) := by
  cases c with
  | none => exact h
  | some c => exact h.sublist filter_sublist

omit [DecidableRel r] in
/-- An item that is behind the first ones comes after the last of these. -/
theorem last_before {limit : Nat} {last x : ι} (hsorted : items.Pairwise fun x y => r (pos x) (pos y))
    (hlast : (items.take limit).getLast? = some last) (hx : x ∈ items) (hbehind : x ∉ items.take limit) : r (pos last) (pos x) := by
  rw [← take_append_drop limit items, pairwise_append] at hsorted
  rw [← take_append_drop limit items, mem_append] at hx
  exact hsorted.2.2 last (mem_of_getLast? hlast) x (hx.resolve_left hbehind)

omit [DecidableRel r] in
theorem before_last (hr : Strict r) {last x z : ι} (hsorted : items.Pairwise fun x y => r (pos x) (pos y))
    (hlast : items.getLast? = some last) (hx : x ∈ items) (hz : r (pos last) (pos z)) : r (pos x) (pos z) := by
  obtain ⟨init, rfl⟩ := getLast?_eq_some_iff.mp hlast
  rcases mem_append.mp hx with hx | hx
  · exact hr.trans ((pairwise_append.mp hsorted).2.2 x hx last (mem_singleton_self last)) hz
  · rwa [mem_singleton.mp hx]

/-- Where a walk gets to, and the pages before. -/
inductive Reached (page : Nat → Option κ → Option (List ι × Option κ)) : Nat → Option κ → List (List ι) → Prop
  | start : Reached page 0 none []
  | next {n : Nat} {c : Option κ} {pages : List (List ι)} {items : List ι} {cursor : κ} (h : Reached page n c pages)
      (hpage : page n c = some (items, some cursor)) : Reached page (n + 1) (some cursor) (pages ++ [items])

variable {page : Nat → Option κ → Option (List ι × Option κ)} {pages : List (List ι)}

theorem Walk.ne_nil {n : Nat} {c : Option κ} (h : Walk page n c pages) : 0 < pages.length := by
  cases h <;> exact Nat.succ_pos _

theorem Walk.first {n : Nat} {c : Option κ}
    (h : Walk page n c pages) : ∃ items next rest, page n c = some (items, next) ∧ pages = items :: rest := by
  cases h with
  | last h => exact ⟨_, _, _, h, rfl⟩
  | next h _ => exact ⟨_, _, _, h, rfl⟩

/-- The pages before a read are the first of the walk. -/
theorem Walk.reached {n : Nat} {c : Option κ} {read : List (List ι)}
    (h : Walk page 0 none pages) (hreached : Reached page n c read) : ∃ rest, Walk page n c rest ∧ pages = read ++ rest := by
  induction hreached with
  | start => exact ⟨pages, h, rfl⟩
  | next _ hpage ih =>
    obtain ⟨rest, hrest, rfl⟩ := ih
    cases hrest with
    | last hlast =>
      rw [hpage, Option.some.injEq, Prod.mk.injEq] at hlast
      cases hlast.2
    | next hnext hrest =>
      rw [hpage, Option.some.injEq, Prod.mk.injEq, Option.some.injEq] at hnext
      obtain ⟨rfl, rfl⟩ := hnext
      exact ⟨_, hrest, by simp⟩

/-- **A shrinking list is read to its end**, in order, and without leaving out what stays. -/
theorem walk_forward (hr : Strict r) {listing : Nat → List ι} (hsorted : ∀ n, (listing n).Pairwise fun x y => r (pos x) (pos y))
    (hshrink : ∀ n, listing (n + 1) ⊆ listing n) {limits : Nat → Nat} (hlimits : ∀ n, 0 < limits n) {cursorAt : ι → κ}
    (hpage : ∀ n c read, Reached page n (Option.map cursorAt c) read → (∀ x ∈ c, x ∈ read.flatten) →
      page n (c.map cursorAt) = some (answer cursorAt id (after r pos (listing n) c) (limits n))) :
    ∃ pages, Walk page 0 none pages ∧ (pages.flatten.Pairwise fun x y => r (pos x) (pos y)) ∧
      ∀ x, (∀ k < pages.length, x ∈ listing k) → x ∈ pages.flatten := by
  have hfrom : ∀ (left n : Nat) (c : Option ι) (read : List (List ι)), (after r pos (listing n) c).length = left →
      Reached page n (c.map cursorAt) read → (∀ x ∈ c, x ∈ read.flatten) →
        ∃ pages, Walk page n (c.map cursorAt) pages ∧ (pages.flatten.Pairwise fun x y => r (pos x) (pos y)) ∧
          (∀ x ∈ pages.flatten, ∀ y ∈ c, r (pos y) (pos x)) ∧
          ∀ x ∈ after r pos (listing n) c, (∀ k < pages.length, x ∈ listing (n + k)) → x ∈ pages.flatten := by
    -- the fewer items are left after the cursor, the sooner the walk ends
    intro left
    induction left using Nat.strongRecOn with
    | ind left ih =>
      intro n c read hleft hreached hread
      have hanswer := hpage n c read hreached hread
      generalize hrest : after r pos (listing n) c = rest at hleft hanswer
      have hrestSorted : rest.Pairwise (fun x y => r (pos x) (pos y)) := hrest ▸ after_sorted (hsorted n) c
      have hmem : ∀ x ∈ rest, x ∈ listing n ∧ ∀ y ∈ c, r (pos y) (pos x) := fun x hx => mem_after.mp (hrest ▸ hx)
      unfold answer at hanswer
      rw [map_id] at hanswer
      by_cases hmore : limits n < rest.length
      · have hne : rest.take (limits n) ≠ [] := by
          rw [← length_pos_iff, length_take]
          have := hlimits n
          omega
        have hlast := getLast?_eq_some_getLast hne
        generalize (rest.take (limits n)).getLast hne = last at hlast
        rw [if_pos hmore, hlast, Option.map_some] at hanswer
        have hlastMem : last ∈ rest := mem_of_mem_take (mem_of_getLast? hlast)
        have hnext : ∀ x ∈ after r pos (listing (n + 1)) (some last), x ∈ rest := by
          intro x hx
          obtain ⟨hx, hafter⟩ := mem_after.mp hx
          rw [← hrest, mem_after]
          exact ⟨hshrink n hx, fun y hy => hr.trans ((hmem last hlastMem).2 y hy) (hafter last rfl)⟩
        have hshorter : (after r pos (listing (n + 1)) (some last)).length < left := by
          have hnodup : (last :: after r pos (listing (n + 1)) (some last)).Nodup := by
            refine nodup_cons.mpr ⟨fun h => hr.irrefl (pos last) ((mem_after.mp h).2 last rfl), ?_⟩
            exact (after_sorted (hsorted (n + 1)) _).imp fun {x y} hxy (he : x = y) => hr.irrefl (pos y) (by rwa [he] at hxy)
          have hsub : last :: after r pos (listing (n + 1)) (some last) ⊆ rest := by
            intro x hx
            rcases mem_cons.mp hx with rfl | hx
            · exact hlastMem
            · exact hnext x hx
          have hlen := (subperm_of_subset hnodup hsub).length_le
          rw [length_cons] at hlen
          omega
        obtain ⟨pages, hwalk, hpages, hbehind, hkept⟩ := ih _ hshorter (n + 1) (some last) _ rfl (hreached.next hanswer)
          (by rintro x ⟨⟩; simpa using .inr (mem_of_getLast? hlast))
        refine ⟨rest.take (limits n) :: pages, .next hanswer hwalk, ?_, ?_, ?_⟩
        · rw [flatten_cons, pairwise_append]
          refine ⟨hrestSorted.sublist (take_sublist _ _), hpages, fun x hx z hz => ?_⟩
          exact before_last hr (hrestSorted.sublist (take_sublist _ _)) hlast hx (hbehind z hz last rfl)
        · intro x hx y hy
          rw [flatten_cons, mem_append] at hx
          rcases hx with hx | hx
          · exact (hmem x (mem_of_mem_take hx)).2 y hy
          · exact hr.trans ((hmem last hlastMem).2 y hy) (hbehind x hx last rfl)
        · intro x hx hstays
          rw [flatten_cons, mem_append]
          by_cases htaken : x ∈ rest.take (limits n)
          · exact .inl htaken
          · refine .inr (hkept x (mem_after.mpr ⟨?_, ?_⟩) fun k hk => ?_)
            · exact hstays 1 (Nat.succ_lt_succ hwalk.ne_nil)
            · rintro y ⟨⟩
              exact last_before hrestSorted hlast hx htaken
            · have hlisted := hstays (k + 1) (Nat.succ_lt_succ hk)
              rwa [← Nat.add_assoc, Nat.add_right_comm] at hlisted
      · rw [if_neg hmore, take_of_length_le (by omega)] at hanswer
        refine ⟨[rest], .last hanswer, ?_, ?_, ?_⟩
        · simpa using hrestSorted
        · simpa using fun x hx => (hmem x hx).2
        · exact fun x hx _ => by simpa using hx
  obtain ⟨pages, hwalk, hpages, -, hkept⟩ := hfrom _ 0 none [] rfl .start (by simp)
  refine ⟨pages, hwalk, hpages, fun x hx => hkept x ?_ fun k hk => ?_⟩
  · exact hx 0 hwalk.ne_nil
  · rw [Nat.zero_add]
    exact hx k hk

end Forward

end Oreneta.Keyset

import Mathlib.Algebra.Group.Prod
import Mathlib.Algebra.Order.Ring.Int
import Mathlib.Data.List.Perm.Basic
import Oreneta.Lib.Table

/-!
# Count tables

A table that counts, for each key, how many items speak for it and how many against.  It is never
computed from the items: an item that comes or goes adds or takes away what it contributes, and a row
that counts nothing is dropped.

* `adjust` — one update; `count_adjust` — what it does to the counts;
* `Tidy` — one row for each key and no row of zeros: such a table is determined by its counts
  (`Tidy.lookup_congr`);
* `Tracks` — the table counts exactly the items of a list.  `Tracks.add`, `Tracks.drop`: it does so
  still after an item came or went; `Tracks.congr`: which items they are does not matter, only what they
  contribute.
-/

namespace Oreneta.Counts

open Table List

variable {κ σ : Type} [DecidableEq κ]

/-- A row of a count table. -/
structure Count (κ : Type) where
  key : κ
  yes : Int
  no : Int
  deriving DecidableEq, Repr

/-- What the table counts for a key. -/
def count (t : List (Count κ)) (k : κ) : Int × Int :=
  match Table.lookup Count.key t k with
  | some r => (r.yes, r.no)
  | none => (0, 0)

def bump (d : Int × Int) (r : Count κ) : Count κ := { r with yes := r.yes + d.1, no := r.no + d.2 }

/-- Adds to a key's counts. -/
def added (t : List (Count κ)) (k : κ) (d : Int × Int) : List (Count κ) :=
  match Table.lookup Count.key t k with
  | some _ => Table.update (fun r => r.key = k) (bump d) t
  | none => t ++ [⟨k, d.1, d.2⟩]

/-- Adds to a key's counts and drops the row when both are zero. -/
def adjust (t : List (Count κ)) (k : κ) (d : Int × Int) : List (Count κ) :=
  (added t k d).filter (fun r => ¬ (r.key = k ∧ r.yes = 0 ∧ r.no = 0))

/-- One row for each key, and none of zeros. -/
structure Tidy (t : List (Count κ)) : Prop where
  keyed : Keyed Count.key t
  nonzero : ∀ r ∈ t, ¬ (r.yes = 0 ∧ r.no = 0)

omit [DecidableEq κ] in
theorem Tidy.nil : Tidy ([] : List (Count κ)) := ⟨nodup_nil, fun _ h => absurd h not_mem_nil⟩

theorem count_of_mem {t : List (Count κ)} (h : Keyed Count.key t) {r : Count κ} (hr : r ∈ t) : count t r.key = (r.yes, r.no) := by
  unfold count
  rw [h.lookup_of_mem hr]

/-- A tidy table is determined by its counts. -/
theorem Tidy.lookup_eq {t : List (Count κ)} (h : Tidy t) {k : κ} : Table.lookup Count.key t k =
      if count t k = (0, 0) then none else some ⟨k, (count t k).1, (count t k).2⟩ := by
  unfold count
  cases hl : Table.lookup Count.key t k with
  | none => rfl
  | some r =>
    obtain ⟨hr, hk⟩ := lookup_some hl
    have hne : ¬ (r.yes, r.no) = (0, 0) := fun he => h.nonzero r hr (Prod.mk.inj he)
    dsimp only
    rw [if_neg hne, ← hk]

theorem Tidy.lookup_congr {t u : List (Count κ)} (ht : Tidy t) (hu : Tidy u) {k : κ}
    (h : count t k = count u k) : Table.lookup Count.key t k = Table.lookup Count.key u k := by
  rw [ht.lookup_eq, hu.lookup_eq, h]

section Adjust

variable {t : List (Count κ)} {k : κ} {d : Int × Int}

theorem added_keyed (h : Keyed Count.key t) : Keyed Count.key (added t k d) := by
  unfold added
  cases hl : Table.lookup Count.key t k with
  | some r => exact h.update fun _ => rfl
  | none =>
    refine h.append (by simp [Keyed]) ?_
    intro a ha b hb
    rw [mem_singleton.mp hb]
    exact lookup_eq_none.mp hl a ha

theorem added_count {k' : κ} : count (added t k d) k' = if k' = k then count t k + d else count t k' := by
  unfold added
  cases hl : Table.lookup Count.key t k with
  | some r =>
    obtain ⟨-, hk⟩ := lookup_some hl
    unfold count
    dsimp only
    rw [lookup_update (f := bump d) fun _ => rfl]
    by_cases hk' : k' = k
    · rw [hk', if_pos rfl, hl]
      simp [hk, bump, Prod.ext_iff]
    · rw [if_neg hk']
      cases hl' : Table.lookup Count.key t k' with
      | none => rfl
      | some q =>
        have hq : ¬ q.key = k := fun h => hk' ((lookup_some hl').2.symm.trans h)
        simp [hq]
  | none =>
    unfold count
    dsimp only
    rw [Table.lookup_append, Table.lookup_singleton]
    by_cases hk' : k' = k
    · simp [hk', hl, Prod.ext_iff]
    · rw [if_neg hk']
      cases Table.lookup Count.key t k' <;> simp [hk']

theorem Tidy.adjust (h : Tidy t) : Tidy (adjust t k d) := by
  unfold Counts.adjust
  refine ⟨(added_keyed h.keyed).filter _, ?_⟩
  intro r hr hzero
  obtain ⟨hr, hkept⟩ := mem_filter.mp hr
  have hk : r.key ≠ k := by
    intro hk
    simp [hk, hzero] at hkept
  have hrt : r ∈ t := by
    unfold added at hr
    cases hl : Table.lookup Count.key t k with
    | some _ =>
      rw [hl] at hr
      obtain ⟨s, hs, rfl⟩ := mem_update.mp hr
      by_cases hsk : s.key = k
      · simp [hsk, bump] at hk
      · simpa [hsk] using hs
    | none =>
      rw [hl] at hr
      rcases mem_append.mp hr with hr | hr
      · exact hr
      · exact absurd (by rw [mem_singleton.mp hr]) hk
  exact h.nonzero r hrt hzero

/-- **What one update does to the counts.** -/
theorem count_adjust (h : Keyed Count.key t) {k' : κ} :
    count (adjust t k d) k' = if k' = k then count t k + d else count t k' := by
  rw [← added_count]
  unfold Counts.adjust count
  rw [lookup_filter (added_keyed h)]
  cases hl : Table.lookup Count.key (added t k d) k' with
  | none => rfl
  | some r =>
    by_cases hzero : r.key = k ∧ r.yes = 0 ∧ r.no = 0
    · simp [Option.filter, hzero]
    · simp [Option.filter, hzero]

end Adjust

/-! ## Counting the items of a list -/

/-- What an item contributes to each of its keys, `m` times. -/
def unit (side : Bool) (m : Int) : Int × Int := if side then (m, 0) else (0, m)

/-- An item with these keys comes (`m = 1`) or goes (`m = -1`). -/
def adjustAll (t : List (Count κ)) (keys : List κ) (side : Bool) (m : Int) : List (Count κ) :=
  keys.foldl (fun t k => adjust t k (unit side m)) t

theorem Tidy.adjustAll {side : Bool} {m : Int} : ∀ {keys : List κ} {t : List (Count κ)}, Tidy t → Tidy (adjustAll t keys side m)
  | [], _, h => h
  | k :: keys, t, h => by
    show Tidy (Counts.adjustAll (Counts.adjust t k (unit side m)) keys side m)
    exact Tidy.adjustAll h.adjust

theorem count_adjustAll {side : Bool} {m : Int} {k : κ} : ∀ {keys : List κ} {t : List (Count κ)}, keys.Nodup → Tidy t →
      count (adjustAll t keys side m) k = count t k + if k ∈ keys then unit side m else 0
  | [], t, _, _ => by simp [Counts.adjustAll]
  | k' :: keys, t, hkeys, h => by
    obtain ⟨hnot, hkeys⟩ := nodup_cons.mp hkeys
    show count (Counts.adjustAll (adjust t k' (unit side m)) keys side m) k = _
    rw [count_adjustAll hkeys h.adjust, count_adjust h.keyed]
    by_cases hk : k = k'
    · subst hk
      simp [hnot]
    · simp [hk]

section Tracks

variable {keysOf : σ → List κ} {side : σ → Bool}

/-- How many of the items on one side have a key. -/
def having (keysOf : σ → List κ) (side : σ → Bool) (rows : List σ) (b : Bool) (k : κ) : Int :=
  rows.countP (fun r => side r = b ∧ k ∈ keysOf r)

/-- The table counts exactly the items. -/
structure Tracks (keysOf : σ → List κ) (side : σ → Bool) (rows : List σ) (t : List (Count κ)) : Prop where
  tidy : Tidy t
  counts : ∀ k, count t k = (having keysOf side rows true k, having keysOf side rows false k)

variable {rows : List σ}

/-- No count is ever negative. -/
theorem Tracks.nonneg {t : List (Count κ)} (h : Tracks keysOf side rows t) {r : Count κ} (hr : r ∈ t) : 0 ≤ r.yes ∧ 0 ≤ r.no := by
  have hcount := (count_of_mem h.tidy.keyed hr).symm.trans (h.counts r.key)
  obtain ⟨hyes, hno⟩ := Prod.mk.inj hcount
  rw [hyes, hno]
  exact ⟨Int.natCast_nonneg _, Int.natCast_nonneg _⟩

theorem Tracks.nil : Tracks keysOf side [] [] := ⟨Tidy.nil, fun _ => rfl⟩

/-- Only what the items contribute matters. -/
theorem having_congr {rows' : List σ} {b : Bool} {k : κ}
    (h : (rows.map (fun r => (side r, keysOf r))).Perm (rows'.map (fun r => (side r, keysOf r)))) :
    having keysOf side rows b k = having keysOf side rows' b k := by
  have hcount : ∀ rows : List σ, rows.countP (fun r => side r = b ∧ k ∈ keysOf r) =
      (rows.map fun r => (side r, keysOf r)).countP (fun q => q.1 = b ∧ k ∈ q.2) := by
    intro rows
    rw [countP_map]
    rfl
  unfold having
  rw [hcount, hcount, h.countP_eq]

theorem Tracks.congr {rows' : List σ} {t : List (Count κ)} (h : Tracks keysOf side rows t)
    (hperm : (rows.map (fun r => (side r, keysOf r))).Perm (rows'.map (fun r => (side r, keysOf r)))) :
    Tracks keysOf side rows' t :=
  ⟨h.tidy, fun k => by rw [h.counts, having_congr hperm, having_congr hperm]⟩

theorem having_cons {r : σ} {b : Bool} {k : κ} : having keysOf side (r :: rows) b k =
      having keysOf side rows b k + if side r = b ∧ k ∈ keysOf r then 1 else 0 := by
  unfold having
  rw [countP_cons]
  by_cases h : side r = b ∧ k ∈ keysOf r <;> simp [h]

/-- An item comes. -/
theorem Tracks.add {t : List (Count κ)} {r : σ} (h : Tracks keysOf side rows t) (hkeys : (keysOf r).Nodup) :
    Tracks keysOf side (r :: rows) (adjustAll t (keysOf r) (side r) 1) := by
  refine ⟨h.tidy.adjustAll, fun k => ?_⟩
  rw [count_adjustAll hkeys h.tidy, h.counts, having_cons, having_cons]
  by_cases hk : k ∈ keysOf r <;> cases hside : side r <;> simp [hk, unit]

/-- An item goes. -/
theorem Tracks.drop {t : List (Count κ)} {r : σ} (h : Tracks keysOf side (r :: rows) t) (hkeys : (keysOf r).Nodup) :
    Tracks keysOf side rows (adjustAll t (keysOf r) (side r) (-1)) := by
  refine ⟨h.tidy.adjustAll, fun k => ?_⟩
  rw [count_adjustAll hkeys h.tidy, h.counts, having_cons, having_cons]
  by_cases hk : k ∈ keysOf r <;> cases hside : side r <;> simp [hk, unit]

end Tracks

end Oreneta.Counts

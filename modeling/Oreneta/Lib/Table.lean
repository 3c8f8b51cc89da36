import Mathlib.Data.List.Nodup

/-!
# Keyed tables as lists of rows

A database table is the list of its rows, with a function `key` that reads a row's primary key.

* `lookup` — the row under a key;
* `update p f` — `UPDATE … WHERE p`: every row that meets `p` is rewritten by `f`;
* `insertOrReplace` — the row under the new row's key, if any, is dropped first;
* `upsert r f` — `INSERT … ON CONFLICT DO UPDATE`: the row under the new row's key is rewritten, if there is one;
* `Keyed` — no two rows have the same key.

The lemmas say what each of them does to `lookup` and that each keeps `Keyed`.
-/

namespace Oreneta.Table

open List

variable {α κ : Type}

/-- The row under a key. -/
def lookup [DecidableEq κ] (key : α → κ) (t : List α) (k : κ) : Option α := t.find? (fun r => key r = k)

/-- `UPDATE t SET f WHERE p`. -/
def update (p : α → Bool) (f : α → α) (t : List α) : List α :=
  t.map (fun r => if p r then f r else r)

/-- `INSERT OR REPLACE INTO t VALUES r`. -/
def insertOrReplace [DecidableEq κ] (key : α → κ) (t : List α) (r : α) : List α :=
  t.filter (fun s => decide (key s ≠ key r)) ++ [r]

/-- `INSERT INTO t VALUES r ON CONFLICT DO UPDATE SET f`. -/
def upsert [DecidableEq κ] (key : α → κ) (r : α) (f : α → α) (t : List α) : List α :=
  if (lookup key t (key r)).isSome then update (fun s => decide (key s = key r)) f t else t ++ [r]

/-- No two rows have the same key. -/
def Keyed (key : α → κ) (t : List α) : Prop := (t.map key).Nodup

section Lookup

variable [DecidableEq κ] {key : α → κ} {t : List α} {k : κ} {r : α}

theorem lookup_some (h : lookup key t k = some r) : r ∈ t ∧ key r = k :=
  ⟨mem_of_find?_eq_some h, by simpa using find?_some h⟩

theorem lookup_eq_none : lookup key t k = none ↔ ∀ r ∈ t, key r ≠ k := by
  simp [lookup, find?_eq_none]

theorem Keyed.lookup_of_mem (hu : Keyed key t) (hr : r ∈ t) : lookup key t (key r) = some r := by
  cases h : lookup key t (key r) with
  | none => exact absurd rfl (lookup_eq_none.mp h r hr)
  | some s =>
    obtain ⟨hs, hk⟩ := lookup_some h
    rw [inj_on_of_nodup_map hu hs hr hk]

/-- Rewriting rows without changing their keys rewrites the row found. -/
theorem lookup_map {f : α → α} (hf : ∀ r, key (f r) = key r) : lookup key (t.map f) k = (lookup key t k).map f := by
  unfold lookup
  rw [find?_map]
  congr 2
  funext r
  simp [hf]

theorem lookup_filter {p : α → Bool} (hu : Keyed key t) : lookup key (t.filter p) k = (lookup key t k).filter p := by
  cases h : lookup key t k with
  | none =>
    rw [Option.filter_none, lookup_eq_none]
    intro r hr
    exact lookup_eq_none.mp h r (mem_of_mem_filter hr)
  | some r =>
    obtain ⟨hr, hk⟩ := lookup_some h
    cases hp : p r with
    | true =>
      have hm : r ∈ t.filter p := mem_filter.mpr ⟨hr, hp⟩
      have hu' : Keyed key (t.filter p) := hu.sublist (filter_sublist.map _)
      rw [← hk, hu'.lookup_of_mem hm]
      simp [Option.filter, hp]
    | false =>
      have hn : lookup key (t.filter p) k = none := by
        rw [lookup_eq_none]
        intro s hs hsk
        have : s = r := inj_on_of_nodup_map hu (mem_of_mem_filter hs) hr (hsk.trans hk.symm)
        have hps := of_mem_filter hs
        rw [this, hp] at hps
        cases hps
      rw [hn]
      simp [Option.filter, hp]

theorem lookup_append {s : List α} : lookup key (t ++ s) k = (lookup key t k).or (lookup key s k) := by
  simp [lookup, find?_append]

theorem lookup_singleton : lookup key [r] k = if k = key r then some r else none := by
  by_cases h : k = key r
  · simp [lookup, h]
  · have : ¬ key r = k := fun hh => h hh.symm
    simp [lookup, h, this]

theorem lookup_insertOrReplace : lookup key (insertOrReplace key t r) k = if k = key r then some r else lookup key t k := by
  unfold insertOrReplace
  rw [lookup_append]
  have hrest : lookup key (t.filter fun s => decide (key s ≠ key r)) k =
      if k = key r then none else lookup key t k := by
    by_cases h : k = key r
    · rw [if_pos h, lookup_eq_none]
      intro s hs
      rw [h]
      simpa using of_mem_filter hs
    · rw [if_neg h]
      unfold lookup
      rw [find?_filter]
      congr 1
      funext s
      by_cases hs : key s = k
      · simp [hs, h]
      · simp [hs]
  rw [lookup_singleton, hrest]
  by_cases h : k = key r <;> simp [h]

theorem filter_of_lookup_none (h : lookup key t k = none) : t.filter (fun s => decide (key s ≠ k)) = t := by
  rw [filter_eq_self]
  intro s hs
  exact decide_eq_true (lookup_eq_none.mp h s hs)

/-- A keyed table is the row under a key and the others. -/
theorem Keyed.perm_lookup {r : α} : ∀ {t : List α}, Keyed key t → lookup key t k = some r →
    t.Perm (r :: t.filter (fun s => decide (key s ≠ k)))
  | [], _, h => by cases h
  | s :: t, hu, h => by
    obtain ⟨hs, hu⟩ := nodup_cons.mp hu
    by_cases hk : key s = k
    · have hr : r = s := by simpa [lookup, hk, eq_comm] using h
      have hrest : t.filter (fun s => decide (key s ≠ k)) = t := by
        apply filter_of_lookup_none
        rw [lookup_eq_none]
        intro q hq hqk
        exact hs (mem_map.mpr ⟨q, hq, hqk.trans hk.symm⟩)
      rw [filter_cons_of_neg (by simp [hk]), hrest, hr]
    · have hl : lookup key t k = some r := by simpa [lookup, hk] using h
      rw [filter_cons_of_pos (by simp [hk])]
      exact ((Keyed.perm_lookup hu hl).cons s).trans (List.Perm.swap r s _)

end Lookup

section Update

variable {key : α → κ} {t : List α} {k : κ} {p : α → Bool} {f : α → α}

theorem mem_update {r : α} : r ∈ update p f t ↔ ∃ s ∈ t, r = if p s then f s else s := by
  unfold update
  rw [mem_map]
  exact ⟨fun ⟨s, hs, h⟩ => ⟨s, hs, h.symm⟩, fun ⟨s, hs, h⟩ => ⟨s, hs, h.symm⟩⟩

theorem lookup_update [DecidableEq κ] (hf : ∀ r, key (f r) = key r) :
    lookup key (update p f t) k = (lookup key t k).map (fun r => if p r then f r else r) := by
  apply lookup_map
  intro r
  split
  · exact hf r
  · rfl

theorem keys_update (hf : ∀ r, key (f r) = key r) : (update p f t).map key = t.map key := by
  unfold update
  rw [map_map]
  apply map_congr_left
  intro r _
  simp only [Function.comp_apply]
  split
  · exact hf r
  · rfl

theorem Keyed.update (hu : Keyed key t) (hf : ∀ r, key (f r) = key r) : Keyed key (Table.update p f t) := by
  unfold Keyed
  rw [keys_update hf]
  exact hu

end Update

section Keep

variable {key : α → κ} {t : List α}

theorem Keyed.filter (hu : Keyed key t) (p : α → Bool) : Keyed key (t.filter p) :=
  hu.sublist (filter_sublist.map _)

theorem Keyed.append {s : List α} (ht : Keyed key t) (hs : Keyed key s)
    (hd : ∀ a ∈ t, ∀ b ∈ s, key a ≠ key b) : Keyed key (t ++ s) := by
  unfold Keyed
  rw [map_append, nodup_append]
  refine ⟨ht, hs, ?_⟩
  intro x hx y hy
  obtain ⟨a, ha, rfl⟩ := mem_map.mp hx
  obtain ⟨b, hb, rfl⟩ := mem_map.mp hy
  exact hd a ha b hb

theorem Keyed.insertOrReplace [DecidableEq κ] (hu : Keyed key t) (r : α) : Keyed key (Table.insertOrReplace key t r) := by
  apply (hu.filter _).append (by simp [Keyed])
  intro a ha b hb
  rw [mem_singleton.mp hb]
  simpa using of_mem_filter ha

end Keep

section Upsert

variable [DecidableEq κ] {key : α → κ} {t : List α} {r : α} {f : α → α} {k : κ}

theorem lookup_upsert (hf : ∀ s, key (f s) = key s) : lookup key (upsert key r f t) k =
    if k = key r then some ((lookup key t k).elim r f) else lookup key t k := by
  unfold upsert
  split
  · rename_i hs
    rw [lookup_update hf]
    by_cases hk : k = key r
    · subst hk
      obtain ⟨s, hs⟩ := Option.isSome_iff_exists.mp hs
      simp [hs, (lookup_some hs).2]
    · rw [if_neg hk]
      cases hl : lookup key t k with
      | none => rfl
      | some s => simp [(lookup_some hl).2, hk]
  · rename_i hs
    rw [lookup_append, lookup_singleton]
    by_cases hk : k = key r
    · subst hk
      have hnone : lookup key t (key r) = none := by simpa using hs
      simp [hnone]
    · simp [hk]

theorem mem_keys_upsert (hf : ∀ s, key (f s) = key s) : k ∈ (upsert key r f t).map key ↔ k = key r ∨ k ∈ t.map key := by
  unfold upsert
  split
  · rename_i hs
    obtain ⟨s, hs⟩ := Option.isSome_iff_exists.mp hs
    obtain ⟨hmem, hkey⟩ := lookup_some hs
    rw [keys_update hf]
    constructor
    · exact .inr
    · rintro (rfl | hk)
      · exact mem_map.mpr ⟨s, hmem, hkey⟩
      · exact hk
  · rw [map_append, mem_append]
    exact ⟨fun h => h.elim .inr fun h => .inl (by simpa using h), fun h => h.elim (fun h => .inr (by simp [h])) .inl⟩

theorem Keyed.upsert (hu : Keyed key t) (hf : ∀ s, key (f s) = key s) : Keyed key (Table.upsert key r f t) := by
  unfold Table.upsert
  split
  · exact hu.update hf
  · rename_i hs
    apply hu.append (by simp [Keyed])
    intro a ha b hb
    rw [mem_singleton.mp hb]
    exact lookup_eq_none.mp (by simpa using hs) a ha

end Upsert

section Loop

variable [DecidableEq κ] {key : α → κ}

/-- Updating one row after another, each by its key, is one pass over the table. -/
theorem foldl_update {g : α → α → α} (hg : ∀ s r, key (g s r) = key r) : ∀ (rows t : List α), Keyed key rows →
      rows.foldl (fun t s => update (fun r => key r = key s) (g s) t) t =
        t.map (fun r => match lookup key rows (key r) with
          | some s => g s r
          | none => r)
  | [], t, _ => by simp [lookup]
  | s :: rows, t, hu => by
    have hs : ∀ r ∈ rows, key r ≠ key s := by
      simp only [Keyed, map_cons, nodup_cons, mem_map, not_exists, not_and] at hu
      exact hu.1
    have hu' : Keyed key rows := by
      simp only [Keyed, map_cons, nodup_cons] at hu
      exact hu.2
    simp only [foldl_cons]
    rw [foldl_update hg rows _ hu']
    unfold update
    rw [map_map]
    apply map_congr_left
    intro r _
    by_cases hr : key r = key s
    · have hnone : lookup key rows (key s) = none := lookup_eq_none.mpr hs
      have hhead : lookup key (s :: rows) (key s) = some s := by simp [lookup]
      simp [hr, hg, hnone, hhead]
    · have hr' : ¬ key s = key r := fun h => hr h.symm
      have htail : lookup key (s :: rows) (key r) = lookup key rows (key r) := by simp [lookup, hr']
      simp [hr, htail]

/-- The same when the rows updated are those of the table that meet `p`. -/
theorem foldl_update_filter {t : List α} {p : α → Bool} {g : α → α → α} (hu : Keyed key t)
    (hg : ∀ s r, key (g s r) = key r) : (t.filter p).foldl (fun t s => update (fun r => key r = key s) (g s) t) t =
      t.map (fun r => if p r then g r r else r) := by
  rw [foldl_update hg _ _ (hu.filter p)]
  apply map_congr_left
  intro r hr
  rw [lookup_filter hu, hu.lookup_of_mem hr]
  cases hp : p r <;> simp [Option.filter, hp]

end Loop

end Oreneta.Table

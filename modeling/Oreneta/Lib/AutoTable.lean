import Oreneta.Lib.Table

/-!
# Tables with an `AUTOINCREMENT` key

The rows of a table whose primary key the database hands out itself: a new row gets the next number,
and a number is never given twice, so a key that was dropped stays unused.  Both facts are fields of
`AutoTable`, so a table that breaks them cannot be built.

* `get` — the row under a key;
* `insert` — `INSERT`, under the next key;
* `alter k f` — `UPDATE … WHERE id = k` and `DELETE … WHERE id = k` in one: the row under `k`
  becomes `f` of it, or goes.

The `get_*` lemmas say what each of them does, row by row.
-/

namespace Oreneta

open List Option

structure AutoTable (β : Type) where
  rows : List (Nat × β)
  nextId : Nat
  /-- Rows stand in the order of their keys. -/
  sorted : (rows.map Prod.fst).Pairwise (· < ·)
  below : ∀ p ∈ rows, p.1 < nextId

namespace AutoTable

variable {β : Type}

def empty : AutoTable β := ⟨[], 0, by simp, by simp⟩

/-- The row under a key. -/
def get (t : AutoTable β) (k : Nat) : Option β := (Table.lookup Prod.fst t.rows k).map Prod.snd

/-- `INSERT INTO t VALUES b`. -/
def insert (t : AutoTable β) (b : β) : AutoTable β where
  rows := t.rows ++ [(t.nextId, b)]
  nextId := t.nextId + 1
  sorted := by
    rw [map_append, pairwise_append]
    refine ⟨t.sorted, by simp, ?_⟩
    intro x hx y hy
    obtain ⟨p, hp, rfl⟩ := mem_map.mp hx
    have hy' : y = t.nextId := by simpa using hy
    rw [hy']
    exact t.below p hp
  below := by
    intro p hp
    rcases mem_append.mp hp with h | h
    · have := t.below p h
      omega
    · have : p = (t.nextId, b) := by simpa using h
      rw [this]
      exact Nat.lt_succ_self _

/-- What `alter` makes of one row. -/
def alterRow (k : Nat) (f : β → Option β) (p : Nat × β) : Option (Nat × β) :=
  if p.1 = k then (f p.2).map (Prod.mk p.1) else some p

theorem alterRow_key {k : Nat} {f : β → Option β} {p q : Nat × β} (h : alterRow k f p = some q) : q.1 = p.1 := by
  unfold alterRow at h
  split at h
  · obtain ⟨b, -, rfl⟩ := map_eq_some_iff.mp h
    rfl
  · cases h
    rfl

/-- The row under `k` becomes `f` of it; `none` drops it. -/
def alter (t : AutoTable β) (k : Nat) (f : β → Option β) : AutoTable β where
  rows := t.rows.filterMap (alterRow k f)
  nextId := t.nextId
  sorted := by
    rw [pairwise_map]
    apply (pairwise_map.mp t.sorted).filterMap
    intro p p' hp q hq q' hq'
    rw [alterRow_key hq, alterRow_key hq']
    exact hp
  below := by
    intro q hq
    obtain ⟨p, hp, hpq⟩ := mem_filterMap.mp hq
    rw [alterRow_key hpq]
    exact t.below p hp

/-- `UPDATE t SET f WHERE id = k`. -/
def modify (t : AutoTable β) (k : Nat) (f : β → β) : AutoTable β := t.alter k (fun b => some (f b))

/-- `DELETE FROM t WHERE id = k`. -/
def remove (t : AutoTable β) (k : Nat) : AutoTable β := t.alter k (fun _ => none)

section Get

variable {t : AutoTable β} {k j : Nat} {b : β}

theorem keyed (t : AutoTable β) : Table.Keyed Prod.fst t.rows :=
  t.sorted.imp fun h => Nat.ne_of_lt h

theorem mem_rows : (k, b) ∈ t.rows ↔ t.get k = some b := by
  unfold get
  constructor
  · intro h
    rw [t.keyed.lookup_of_mem h]
    rfl
  · intro h
    obtain ⟨p, hp, rfl⟩ := map_eq_some_iff.mp h
    obtain ⟨hm, rfl⟩ := Table.lookup_some hp
    exact hm

theorem get_lt (h : t.get k = some b) : k < t.nextId := t.below _ (mem_rows.mpr h)

theorem get_eq_none_of_le (h : t.nextId ≤ k) : t.get k = none := by
  cases hk : t.get k with
  | none => rfl
  | some b =>
    have := get_lt hk
    omega

@[simp] theorem get_empty : (empty : AutoTable β).get k = none := rfl

@[simp] theorem nextId_insert : (t.insert b).nextId = t.nextId + 1 := rfl

@[simp] theorem nextId_alter {f : β → Option β} : (t.alter k f).nextId = t.nextId := rfl

variable {f : β → β}

@[simp] theorem nextId_modify : (t.modify k f).nextId = t.nextId := rfl

@[simp] theorem nextId_remove : (t.remove k).nextId = t.nextId := rfl

/-- Two tables are told apart by what stands under a key. -/
theorem get_eq_iff {o : Option β} : t.get k = o ↔ ∀ b, (k, b) ∈ t.rows ↔ o = some b := by
  constructor
  · intro h b
    rw [mem_rows, h]
  · intro h
    cases hk : t.get k with
    | none =>
      cases o with
      | none => rfl
      | some b =>
        have := mem_rows.mp ((h b).mpr rfl)
        rw [hk] at this
        exact this
    | some b => exact ((h b).mp (mem_rows.mpr hk)).symm

theorem get_insert : (t.insert b).get k = if k = t.nextId then some b else t.get k := by
  rw [get_eq_iff]
  intro c
  have hm : (k, c) ∈ (t.insert b).rows ↔ (k, c) ∈ t.rows ∨ k = t.nextId ∧ c = b := by simp [insert]
  rw [hm, mem_rows]
  split
  · rename_i hk
    rw [hk, get_eq_none_of_le (Nat.le_refl _)]
    simp [eq_comm]
  · rename_i hk
    simp [hk]

theorem get_alter {f : β → Option β} : (t.alter k f).get j = if j = k then (t.get k).bind f else t.get j := by
  rw [get_eq_iff]
  intro c
  have hm : (j, c) ∈ (t.alter k f).rows ↔ ∃ b, t.get j = some b ∧ alterRow k f (j, b) = some (j, c) := by
    simp only [alter, mem_filterMap]
    constructor
    · rintro ⟨p, hp, h⟩
      have hj : p.1 = j := (alterRow_key h).symm
      subst hj
      exact ⟨p.2, mem_rows.mp hp, h⟩
    · rintro ⟨b, hb, h⟩
      exact ⟨(j, b), mem_rows.mpr hb, h⟩
  rw [hm]
  unfold alterRow
  split
  · rename_i hj
    subst hj
    simp [bind_eq_some_iff]
  · simp

theorem get_modify : (t.modify k f).get j = if j = k then (t.get k).map f else t.get j := by
  unfold modify
  rw [get_alter]
  split
  · cases t.get k <;> rfl
  · rfl

theorem get_remove : (t.remove k).get j = if j = k then none else t.get j := by
  unfold remove
  rw [get_alter]
  split
  · cases t.get k <;> rfl
  · rfl

/-- What stands in an altered table stood there; under the key that was altered it is what `f` made of it. -/
theorem get_alter_some {f : β → Option β} {c : β} (h : (t.alter k f).get j = some c) :
    ∃ b, t.get j = some b ∧ (j = k ∧ f b = some c ∨ j ≠ k ∧ c = b) := by
  rw [get_alter] at h
  split at h
  · rename_i hj
    obtain ⟨b, hb, hf⟩ := bind_eq_some_iff.mp h
    exact ⟨b, hj ▸ hb, .inl ⟨hj, hf⟩⟩
  · rename_i hj
    exact ⟨c, h, .inr ⟨hj, rfl⟩⟩

theorem get_modify_some {c : β} (h : (t.modify k f).get j = some c) :
    ∃ b, t.get j = some b ∧ (j = k ∧ c = f b ∨ j ≠ k ∧ c = b) := by
  obtain ⟨b, hb, hc⟩ := get_alter_some h
  exact ⟨b, hb, hc.imp_left fun hc => ⟨hc.1, (some.inj hc.2).symm⟩⟩

/-- A row that is modified stays. -/
theorem get_modify_of (h : t.get j = some b) : (t.modify k f).get j = some (if j = k then f b else b) := by
  rw [get_modify]
  split
  · rename_i hj
    rw [← hj, h]
    rfl
  · exact h

theorem get_modify_ne_none (h : t.get j = some b) : (t.modify k f).get j ≠ none := by
  rw [get_modify_of h]
  exact some_ne_none _

theorem get_remove_some {c : β} (h : (t.remove k).get j = some c) : j ≠ k ∧ t.get j = some c := by
  rw [get_remove] at h
  split at h
  · cases h
  · rename_i hj
    exact ⟨hj, h⟩

end Get

end AutoTable

end Oreneta

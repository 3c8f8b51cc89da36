import Oreneta.Lib.Table

/-!
# What a log says last of each key

A log is a list of pairs, the older first.

* `last l k` — the value of the last pair with the key `k`.
* `last_append` — a later log overrides an earlier one.
* `last_of_keyed` — of a table every row is the last; `last_insertOrReplace` — a row put into it is, too.
-/

namespace Oreneta.Log

open List

variable {κ β : Type} [DecidableEq κ]

def last : List (κ × β) → κ → Option β
  | [], _ => none
  | e :: l, k => (last l k).or (if e.1 = k then some e.2 else none)

theorem last_nil (k : κ) : last ([] : List (κ × β)) k = none := rfl

theorem last_cons (e : κ × β) (l : List (κ × β)) (k : κ) :
    last (e :: l) k = (last l k).or (if e.1 = k then some e.2 else none) := rfl

theorem last_append (l m : List (κ × β)) (k : κ) : last (l ++ m) k = (last m k).or (last l k) := by
  induction l with
  | nil => simp [last_nil]
  | cons e l ih => rw [cons_append, last_cons, ih, last_cons, Option.or_assoc]

theorem last_eq_none {l : List (κ × β)} {k : κ} : last l k = none ↔ ∀ e ∈ l, e.1 ≠ k := by
  induction l with
  | nil => simp [last_nil]
  | cons e l ih => simp [last_cons, ih, and_comm]

theorem last_mem {l : List (κ × β)} {k : κ} {v : β} (h : last l k = some v) : (k, v) ∈ l := by
  induction l with
  | nil => cases h
  | cons e l ih =>
    rw [last_cons] at h
    rcases Option.or_eq_some_iff.mp h with hl | ⟨-, he⟩
    · exact mem_cons_of_mem _ (ih hl)
    · split at he
      · rename_i hk
        cases he
        rw [← hk]
        exact mem_cons_self
      · cases he

/-- Of rows with different keys each is the last of its own. -/
theorem last_of_keyed {α : Type} {key : α → κ} {value : α → β} {t : List α} (hu : Table.Keyed key t) {r : α}
    (hr : r ∈ t) : last (t.map (fun s => (key s, value s))) (key r) = some (value r) := by
  cases h : last (t.map fun s => (key s, value s)) (key r) with
  | none => exact absurd rfl (last_eq_none.mp h _ (mem_map.mpr ⟨r, hr, rfl⟩))
  | some v =>
    obtain ⟨s, hs, he⟩ := mem_map.mp (last_mem h)
    obtain ⟨hk, hv⟩ := Prod.mk.inj he
    rw [← hv, inj_on_of_nodup_map hu hs hr hk]

theorem last_insertOrReplace {α : Type} {key : α → κ} {value : α → β} (t : List α) (r : α) (k : κ) :
    last ((Table.insertOrReplace key t r).map (fun s => (key s, value s))) k =
      if key r = k then some (value r) else last (t.map (fun s => (key s, value s))) k := by
  unfold Table.insertOrReplace
  rw [map_append, last_append]
  by_cases hk : key r = k
  · simp [last_cons, last_nil, hk]
  · rw [if_neg hk]
    simp only [map_cons, map_nil, last_cons, last_nil, if_neg hk, Option.none_or]
    induction t with
    | nil => rfl
    | cons s t ih =>
      by_cases hs : key s = key r
      · have hsk : ¬ key s = k := fun h => hk (hs ▸ h)
        rw [filter_cons_of_neg (by simp [hs]), ih, map_cons, last_cons, if_neg hsk, Option.or_none]
      · rw [filter_cons_of_pos (by simp [hs]), map_cons, map_cons, last_cons, last_cons, ih]

end Oreneta.Log

import Oreneta.Lib.Text

/-!
# A list that is read whole or not at all

Items are gone through one after another.  One may be passed over, may stop the reading at once, may fail and
be written down, or is kept.  If any failed, nothing is returned.

* `readAll` — the reading; `readAll_ok` — it returns what it kept, and only if every item was passed over or
  kept.
-/

namespace Oreneta.AllOrNothing

open List

variable {ι κ : Type}

inductive Verdict (κ : Type) where
  | skip
  | refuse (error : Str)
  | failed (what : Str)
  | kept (x : κ)

def Verdict.toOption : Verdict κ → Option κ
  | .kept x => some x
  | _ => none

/-- The item stands in the way of nothing. -/
def Verdict.Fine : Verdict κ → Prop
  | .skip | .kept _ => True
  | .refuse _ | .failed _ => False

structure Tally (κ : Type) where
  kept : List κ
  failed : List Str
  /-- The items that were not passed over. -/
  total : Nat

def tally (judge : ι → Verdict κ) : List ι → Tally κ → Except Str (Tally κ)
  | [], t => .ok t
  | i :: items, t =>
    match judge i with
    | .skip => tally judge items t
    | .refuse error => .error error
    | .failed what => tally judge items { t with failed := t.failed ++ [what], total := t.total + 1 }
    | .kept x => tally judge items { t with kept := t.kept ++ [x], total := t.total + 1 }

/-- `incomplete` words the error from what failed and from how many items there were. -/
def readAll (judge : ι → Verdict κ) (incomplete : List Str → Nat → Str) (items : List ι) :
    Except Str (List κ) :=
  match tally judge items ⟨[], [], 0⟩ with
  | .error e => .error e
  | .ok t => if t.failed.isEmpty then .ok t.kept else .error (incomplete t.failed t.total)

theorem tally_ok {judge : ι → Verdict κ} : ∀ {items : List ι} {t : Tally κ}, (∀ i ∈ items, (judge i).Fine) →
    ∃ total, tally judge items t =
      .ok ⟨t.kept ++ items.filterMap (fun i => (judge i).toOption), t.failed, total⟩
  | [], t, _ => ⟨t.total, by simp [tally]⟩
  | i :: items, t, h => by
    have hrest : ∀ j ∈ items, (judge j).Fine := fun j hj => h j (mem_cons_of_mem _ hj)
    have hi := h i mem_cons_self
    unfold tally
    cases hj : judge i with
    | skip =>
      obtain ⟨total, ht⟩ := tally_ok (t := t) hrest
      exact ⟨total, by rw [filterMap_cons_none (by rw [hj]; rfl)]; exact ht⟩
    | refuse error =>
      rw [hj] at hi
      exact hi.elim
    | failed what =>
      rw [hj] at hi
      exact hi.elim
    | kept x =>
      obtain ⟨total, ht⟩ := tally_ok (t := { t with kept := t.kept ++ [x], total := t.total + 1 }) hrest
      refine ⟨total, ht.trans ?_⟩
      rw [filterMap_cons_some (by rw [hj]; rfl), append_assoc]
      rfl

/-- What failed is not forgotten. -/
theorem tally_failed {judge : ι → Verdict κ} : ∀ {items : List ι} {t u : Tally κ}, tally judge items t = .ok u →
    u.failed = [] → t.failed = [] ∧ ∀ i ∈ items, (judge i).Fine
  | [], t, u, h, hu => by
    cases h
    exact ⟨hu, fun _ hi => by cases hi⟩
  | i :: items, t, u, h, hu => by
    unfold tally at h
    cases hj : judge i with
    | skip =>
      rw [hj] at h
      obtain ⟨ht, hrest⟩ := tally_failed h hu
      exact ⟨ht, forall_mem_cons.mpr ⟨by rw [hj]; trivial, hrest⟩⟩
    | refuse error =>
      rw [hj] at h
      cases h
    | failed what =>
      rw [hj] at h
      obtain ⟨ht, -⟩ := tally_failed h hu
      exact absurd ht (by simp)
    | kept x =>
      rw [hj] at h
      obtain ⟨ht, hrest⟩ := tally_failed h hu
      exact ⟨ht, forall_mem_cons.mpr ⟨by rw [hj]; trivial, hrest⟩⟩

/-- **All or nothing.** -/
theorem readAll_ok {judge : ι → Verdict κ} {incomplete : List Str → Nat → Str} {items : List ι} {xs : List κ} :
    readAll judge incomplete items = .ok xs ↔
      (∀ i ∈ items, (judge i).Fine) ∧ xs = items.filterMap (fun i => (judge i).toOption) := by
  unfold readAll
  constructor
  · intro h
    split at h
    · cases h
    · rename_i t ht
      split at h
      · rename_i hfailed
        have hfine := (tally_failed ht (List.isEmpty_iff.mp hfailed)).2
        obtain ⟨total, ht'⟩ := tally_ok (t := (⟨[], [], 0⟩ : Tally κ)) hfine
        rw [ht'] at ht
        cases ht
        cases h
        exact ⟨hfine, by simp⟩
      · cases h
  · rintro ⟨hfine, rfl⟩
    obtain ⟨total, ht⟩ := tally_ok (t := (⟨[], [], 0⟩ : Tally κ)) hfine
    rw [ht]
    simp

end Oreneta.AllOrNothing

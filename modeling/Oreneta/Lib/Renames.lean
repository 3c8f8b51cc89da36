import Mathlib.Data.List.Pairwise

/-!
# Renaming one after another and renaming at once

A list of renames `(from, to)` is carried out one after another: each rewrites every row that bears
its first name.  When no name given is the name an equal or later rename starts from, this comes to
rewriting every row once.

* `together` — what the renames make of a name when all are made at once;
* `foldl_rename` — one after another is at once;
* `UniqueRows` — the rows of a table with a uniqueness constraint that the name is part of; a table
  that breaks it cannot be built, and an update that would break it fails;
* `moveAll_eq` — the updates one after another succeed exactly when the rows renamed at once keep the
  constraint, and lead to them;
* `unique_shiftAll` — which they do exactly when no row that moves meets one that stays.
-/

namespace Oreneta.Renames

open List

section Names

variable {α : Type} [DecidableEq α]

/-- One rename. -/
def rename (x : α) (p : α × α) : α := if x = p.1 then p.2 else x

/-- All renames at once. -/
def together (rs : List (α × α)) (x : α) : α := ((rs.find? (fun p => x = p.1)).map Prod.snd).getD x

/-- No name given is the name a later rename starts from. -/
def Clear (rs : List (α × α)) : Prop := rs.Pairwise (fun p q => p.2 ≠ q.1)

theorem together_cons {p : α × α} {rs : List (α × α)} {x : α} :
    together (p :: rs) x = if x = p.1 then p.2 else together rs x := by
  unfold together
  by_cases h : x = p.1 <;> simp [h]

theorem together_of_notMem {rs : List (α × α)} {x : α} (h : ∀ p ∈ rs, x ≠ p.1) : together rs x = x := by
  have : rs.find? (fun p => x = p.1) = none := by
    rw [find?_eq_none]
    intro p hp
    simpa using h p hp
  unfold together
  rw [this]
  rfl

theorem together_of_mem {rs : List (α × α)} {x : α} {f : α → α} (hf : ∀ p ∈ rs, p.2 = f p.1)
    (h : ∃ p ∈ rs, x = p.1) : together rs x = f x := by
  unfold together
  cases hfind : rs.find? (fun p => x = p.1) with
  | none =>
    obtain ⟨p, hp, hx⟩ := h
    exact absurd hx (by simpa using find?_eq_none.mp hfind p hp)
  | some p =>
    have hx : x = p.1 := by simpa using find?_some hfind
    rw [hx]
    exact hf p (mem_of_find?_eq_some hfind)

/-- **One after another is at once.** -/
theorem foldl_rename : ∀ {rs : List (α × α)} {x : α}, Clear rs → rs.foldl rename x = together rs x
  | [], x, _ => rfl
  | p :: rs, x, h => by
    obtain ⟨hp, hrs⟩ := pairwise_cons.mp h
    rw [foldl_cons, foldl_rename hrs, together_cons]
    unfold rename
    split
    · exact together_of_notMem hp
    · rfl

omit [DecidableEq α] in
/-- Every row is rewritten on its own. -/
theorem foldl_map {β : Type} {g : α × α → β → β} : ∀ {rs : List (α × α)} {xs : List β},
    rs.foldl (fun xs p => xs.map (g p)) xs = xs.map (fun x => rs.foldl (fun x p => g p x) x)
  | [], xs => by simp
  | p :: rs, xs => by
    rw [foldl_cons, foldl_map, map_map]
    rfl

end Names

/-! ## Rows with a uniqueness constraint -/

/-- How a row bears its name, and which rows may not bear the same one. -/
structure Naming (α β : Type) where
  get : β → α
  /-- What the constraint covers besides the name is the same. -/
  same : β → β → Bool
  same_comm : ∀ r q, same r q = same q r

/-- How a row is given a name; other columns may be written along with it. -/
structure Writing {α β : Type} (K : Naming α β) where
  put : β → α → β
  get_put : ∀ r x, K.get (put r x) = x
  same_put : ∀ r q x, K.same (put r x) q = K.same r q

variable {α β : Type} [DecidableEq α] {K : Naming α β}

namespace Naming

/-- Two rows that break the constraint. -/
def Clash (K : Naming α β) (r q : β) : Prop := K.get r = K.get q ∧ K.same r q = true

instance : DecidableRel K.Clash := fun r q => by
  unfold Clash
  infer_instance

omit [DecidableEq α] in
theorem Clash.symm {r q : β} (h : K.Clash r q) : K.Clash q r := ⟨h.1.symm, K.same_comm r q ▸ h.2⟩

end Naming

namespace Writing

/-- What one rename makes of a row. -/
def shift (W : Writing K) (p : α × α) (r : β) : β := if K.get r = p.1 then W.put r p.2 else r

/-- What all of them at once make of it. -/
def shiftAll (W : Writing K) (rs : List (α × α)) (r : β) : β :=
  match rs.find? (fun p => K.get r = p.1) with
  | some p => W.put r p.2
  | none => r

variable {W : Writing K}

variable {r : β}

omit [DecidableEq α] in
theorem same_put_right {q : β} {x : α} : K.same r (W.put q x) = K.same r q := by
  rw [K.same_comm, W.same_put, K.same_comm]

variable {rs : List (α × α)}

theorem shiftAll_cons {p : α × α} : W.shiftAll (p :: rs) r = if K.get r = p.1 then W.put r p.2 else W.shiftAll rs r := by
  unfold shiftAll
  by_cases h : K.get r = p.1 <;> simp [h]

theorem get_shift {p : α × α} : K.get (W.shift p r) = rename (K.get r) p := by
  unfold shift rename
  split
  · exact W.get_put r p.2
  · rfl

theorem get_shiftAll : K.get (W.shiftAll rs r) = together rs (K.get r) := by
  unfold shiftAll together
  cases rs.find? (fun p => K.get r = p.1) with
  | none => rfl
  | some p => exact W.get_put r p.2

theorem same_shift {p : α × α} {q : β} : K.same (W.shift p r) (W.shift p q) = K.same r q := by
  unfold shift
  split <;> split <;> simp [W.same_put, same_put_right]

theorem same_shiftAll {q : β} : K.same (W.shiftAll rs r) (W.shiftAll rs q) = K.same r q := by
  unfold shiftAll
  split <;> split <;> simp [W.same_put, same_put_right]

theorem shiftAll_of_notMem (h : ∀ p ∈ rs, K.get r ≠ p.1) : W.shiftAll rs r = r := by
  have : rs.find? (fun p => K.get r = p.1) = none := by
    rw [find?_eq_none]
    intro p hp
    simpa using h p hp
  unfold shiftAll
  rw [this]

/-- The first rename, and then the others. -/
theorem shiftAll_shift {p : α × α} (h : ∀ q ∈ rs, p.2 ≠ q.1) : W.shiftAll rs (W.shift p r) = W.shiftAll (p :: rs) r := by
  rw [shiftAll_cons]
  unfold shift
  split
  · apply shiftAll_of_notMem
    rw [W.get_put]
    exact h
  · rfl

end Writing

/-- The rows of a table whose constraint the name is part of. -/
structure UniqueRows (K : Naming α β) where
  rows : List β
  unique : rows.Pairwise (fun r q => ¬ K.Clash r q)

namespace UniqueRows

variable {W : Writing K}

/-- `UPDATE t SET name = to WHERE name = from`; it fails when the constraint would be broken. -/
def move (W : Writing K) (t : UniqueRows K) (p : α × α) : Option (UniqueRows K) :=
  if h : (t.rows.map (W.shift p)).Pairwise (fun r q => ¬ K.Clash r q) then some ⟨_, h⟩ else none

variable {rs : List (α × α)}

/-- One rename breaks the constraint only where all of them at once would. -/
theorem unique_shift {p : α × α} (t : UniqueRows K) (hp : ∀ q ∈ rs, p.2 ≠ q.1)
    (h : (t.rows.map (W.shiftAll (p :: rs))).Pairwise (fun r q => ¬ K.Clash r q)) :
    (t.rows.map (W.shift p)).Pairwise (fun r q => ¬ K.Clash r q) := by
  rw [pairwise_map] at h ⊢
  refine List.Pairwise.imp ?_ (pairwise_and_iff.mpr ⟨t.unique, h⟩)
  rintro r q ⟨hrq, hall⟩ ⟨hname, hsame⟩
  rw [Writing.same_shift] at hsame
  rw [Writing.get_shift, Writing.get_shift] at hname
  -- neither row stood still, or neither moved: they met before, or meet at the end
  have hstay : together rs p.2 = p.2 := together_of_notMem hp
  apply hall
  refine ⟨?_, by rw [Writing.same_shiftAll]; exact hsame⟩
  rw [Writing.get_shiftAll, Writing.get_shiftAll, together_cons, together_cons]
  unfold rename at hname
  by_cases h1 : K.get r = p.1
  · by_cases h2 : K.get q = p.1
    · rw [if_pos h1, if_pos h2]
    · rw [if_pos h1, if_neg h2] at hname ⊢
      rw [← hname]
      exact hstay.symm
  · by_cases h2 : K.get q = p.1
    · rw [if_neg h1, if_pos h2] at hname ⊢
      rw [hname]
      exact hstay
    · rw [if_neg h1, if_neg h2] at hname ⊢
      exact congrArg (together rs) hname

/-- **The updates one after another.** -/
theorem moveAll_eq : ∀ {rs : List (α × α)} {t : UniqueRows K}, Clear rs → rs.foldlM (move W) t =
      if h : (t.rows.map (W.shiftAll rs)).Pairwise (fun r q => ¬ K.Clash r q) then some ⟨_, h⟩ else none
  | [], t, _ => by
    have hid : t.rows.map (W.shiftAll []) = t.rows := by
      have : W.shiftAll [] = id := rfl
      rw [this, map_id]
    simp only [foldlM_nil, hid]
    rw [dif_pos t.unique]
    rfl
  | p :: rs, t, h => by
    obtain ⟨hp, hrs⟩ := pairwise_cons.mp h
    have hcomp : (t.rows.map (W.shift p)).map (W.shiftAll rs) = t.rows.map (W.shiftAll (p :: rs)) := by
      rw [map_map]
      exact map_congr_left fun r _ => Writing.shiftAll_shift hp
    rw [foldlM_cons]
    unfold move
    by_cases hone : (t.rows.map (W.shift p)).Pairwise fun r q => ¬ K.Clash r q
    · rw [dif_pos hone]
      show rs.foldlM (move W) _ = _
      rw [moveAll_eq hrs]
      simp only [hcomp]
    · rw [dif_neg hone, dif_neg fun hall => hone (unique_shift t hp hall)]
      rfl

/-- Where they all succeed, they lead to the rows renamed at once. -/
theorem moveAll_some {t t' : UniqueRows K} (h : Clear rs) :
    rs.foldlM (move W) t = some t' ↔ t'.rows = t.rows.map (W.shiftAll rs) := by
  rw [moveAll_eq h]
  obtain ⟨rows', hrows'⟩ := t'
  constructor
  · intro hsome
    split at hsome
    · cases hsome
      rfl
    · cases hsome
  · intro hrows
    dsimp only at hrows
    subst hrows
    rw [dif_pos hrows']

theorem moveAll_isSome {t : UniqueRows K} (h : Clear rs) : (∃ t', rs.foldlM (move W) t = some t') ↔
      (t.rows.map (W.shiftAll rs)).Pairwise (fun r q => ¬ K.Clash r q) := by
  constructor
  · rintro ⟨t', ht'⟩
    rw [← (moveAll_some h).mp ht']
    exact t'.unique
  · intro hunique
    exact ⟨⟨_, hunique⟩, (moveAll_some h).mpr rfl⟩

/-- **When the constraint holds after all of them**: no row that moves meets one that stays. -/
theorem unique_shiftAll {f : α → α} {t : UniqueRows K} (hf : ∀ p ∈ rs, p.2 = f p.1)
    (hinj : ∀ p ∈ rs, ∀ q ∈ rs, f p.1 = f q.1 → p.1 = q.1) : (t.rows.map (W.shiftAll rs)).Pairwise (fun r q => ¬ K.Clash r q) ↔
      ∀ r ∈ t.rows, ∀ q ∈ t.rows, (∃ p ∈ rs, K.get r = p.1) → (¬ ∃ p ∈ rs, K.get q = p.1) →
        K.get q = f (K.get r) → K.same r q = false := by
  have hmoved : ∀ {r}, (∃ p ∈ rs, K.get r = p.1) → K.get (W.shiftAll rs r) = f (K.get r) := by
    intro r hr
    rw [Writing.get_shiftAll, together_of_mem hf hr]
  have hstays : ∀ {r}, (¬ ∃ p ∈ rs, K.get r = p.1) → K.get (W.shiftAll rs r) = K.get r := by
    intro r hr
    rw [Writing.get_shiftAll, together_of_notMem fun p hp h => hr ⟨p, hp, h⟩]
  rw [pairwise_map]
  constructor
  · intro h r hr q hq hm hs hname
    have hne : r ≠ q := fun he => hs (he ▸ hm)
    have hclash : K.get (W.shiftAll rs r) = K.get (W.shiftAll rs q) := by
      rw [hmoved hm, hstays hs, hname]
    have : Std.Symm (fun a b => ¬ K.Clash (W.shiftAll rs a) (W.shiftAll rs b)) :=
      ⟨fun _ _ hab hc => hab hc.symm⟩
    have hno := h.forall hr hq hne
    cases hsame : K.same r q with
    | false => rfl
    | true => exact absurd ⟨hclash, by rw [Writing.same_shiftAll]; exact hsame⟩ hno
  · intro h
    refine List.Pairwise.imp_of_mem ?_ t.unique
    rintro r q hr hq hrq ⟨hname, hsame⟩
    rw [Writing.same_shiftAll] at hsame
    by_cases hm : ∃ p ∈ rs, K.get r = p.1
    · by_cases hm' : ∃ p ∈ rs, K.get q = p.1
      · rw [hmoved hm, hmoved hm'] at hname
        obtain ⟨p, hp, hpr⟩ := hm
        obtain ⟨p', hp', hpq⟩ := hm'
        have := hinj p hp p' hp' (by rw [← hpr, ← hpq]; exact hname)
        exact hrq ⟨by rw [hpr, hpq, this], hsame⟩
      · rw [hmoved hm, hstays hm'] at hname
        rw [h r hr q hq hm hm' hname.symm] at hsame
        cases hsame
    · by_cases hm' : ∃ p ∈ rs, K.get q = p.1
      · rw [hstays hm, hmoved hm'] at hname
        have := h q hq r hr hm' hm hname
        rw [K.same_comm, this] at hsame
        cases hsame
      · rw [hstays hm, hstays hm'] at hname
        exact hrq ⟨hname, hsame⟩

end UniqueRows

end Oreneta.Renames

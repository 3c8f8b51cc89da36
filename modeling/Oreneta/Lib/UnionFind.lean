import Mathlib.Data.List.Sort
import Oreneta.Lib.Table

/-!
# Grouping what is alike

Pairs put into groups with a map from every element to one above it: the tops of two elements are joined for each
pair, and the elements under one top are a group.

* `root` — the top of an element; every element on the way is put right under it.
* `Forest` — no element stands above itself in more than one step, so the search ends in as many steps as there are
  elements (`root_spec`).
* `same_joinAll` — two elements have the same top exactly if a chain of pairs leads from one to the other.
* `groupsOf` — the groups; `mem_groupsOf` says who is in one and `exists_group` that nobody is left out.
-/

namespace Oreneta.UnionFind

open Table List

variable {α : Type} [DecidableEq α]

/-! ## The map -/

/-- Every element with the one above it, or with itself at the top. -/
abbrev Parents (α : Type) := List (α × α)

def up (p : Parents α) (a : α) : α := ((Table.lookup Prod.fst p a).map Prod.snd).getD a

/-- The top of an element; every element on the way is put right under it. -/
def root : Nat → Parents α → α → α × Parents α
  | 0, p, a => (a, p)
  | fuel + 1, p, a =>
    if up p a = a then (a, p)
    else
      let (top, p) := root fuel p (up p a)
      (top, Table.insertOrReplace Prod.fst p (a, top))

/-- An element not known yet is its own top. -/
def ensure (p : Parents α) (a : α) : Parents α :=
  if (Table.lookup Prod.fst p a).isSome then p else p ++ [(a, a)]

/-- Two elements brought under one top. -/
def join (p : Parents α) (pair : α × α) : Parents α :=
  let p := ensure (ensure p pair.1) pair.2
  let (ra, p) := root p.length p pair.1
  let (rb, p) := root p.length p pair.2
  if ra ≠ rb then Table.insertOrReplace Prod.fst p (ra, rb) else p

def joinAll (pairs : List (α × α)) : Parents α := pairs.foldl join []

section Groups

variable [LinearOrder α]

/-- An element put into a set that is kept in order. -/
def insertOnce (a : α) (s : List α) : List α := if a ∈ s then s else s.orderedInsert (· ≤ ·) a

/-- The elements in order, each under its top. -/
def gather : List α → Parents α → List (α × List α) → List (α × List α)
  | [], _, groups => groups
  | a :: ids, p, groups =>
    let (top, p) := root p.length p a
    gather ids p (Table.upsert Prod.fst (top, [a]) (fun g => (g.1, insertOnce a g.2)) groups)

def groupsOf (pairs : List (α × α)) : List (List α) :=
  (gather ((joinAll pairs).map Prod.fst) (joinAll pairs) []).map Prod.snd

end Groups

/-! ## Tops -/

/-- The top of an element, and how far up it is. -/
inductive Top (p : Parents α) : Nat → α → α → Prop
  | self {a : α} (h : up p a = a) : Top p 0 a a
  | above {n : Nat} {a r : α} (h : up p a ≠ a) (ht : Top p n (up p a) r) : Top p (n + 1) a r

def HasTop (p : Parents α) (a r : α) : Prop := ∃ n, Top p n a r

/-- Going up ends. -/
def Forest (p : Parents α) : Prop := ∃ rank : α → Nat, ∀ a, up p a ≠ a → rank (up p a) < rank a

/-- Two elements have the same top. -/
def Same (p : Parents α) (a b : α) : Prop := ∃ r, HasTop p a r ∧ HasTop p b r

variable {p q : Parents α} {a b r s x y : α} {n : Nat}

theorem up_insert : up (Table.insertOrReplace Prod.fst p (a, b)) x = if x = a then b else up p x := by
  unfold up
  rw [lookup_insertOrReplace]
  split
  · rfl
  · rfl

theorem up_ensure : up (ensure p a) x = up p x := by
  unfold ensure up
  split
  · rfl
  · rename_i hnone
    rw [Table.lookup_append, Table.lookup_singleton]
    by_cases hx : x = a
    · have hp : Table.lookup Prod.fst p a = none := by simpa using hnone
      rw [hx, hp, if_pos rfl]
      rfl
    · rw [if_neg hx, Option.or_none]

theorem Top.root_eq (h : Top p n a r) : up p r = r := by
  induction h with
  | self h => exact h
  | above _ _ ih => exact ih

theorem Top.unique {m : Nat} (h : Top p n a r) (h' : Top p m a s) : r = s := by
  induction h generalizing m with
  | self h =>
    cases h' with
    | self _ => rfl
    | above hne _ => exact absurd h hne
  | above hne _ ih =>
    cases h' with
    | self h => exact absurd h hne
    | above _ ht => exact ih ht

theorem HasTop.unique (h : HasTop p a r) (h' : HasTop p a s) : r = s := by
  obtain ⟨n, h⟩ := h
  obtain ⟨m, h'⟩ := h'
  exact h.unique h'

theorem HasTop.self (h : up p a = a) : HasTop p a a := ⟨0, .self h⟩

theorem HasTop.root_eq (h : HasTop p a r) : up p r = r := by
  obtain ⟨n, h⟩ := h
  exact h.root_eq

/-- An element that is not a top has the top of the one above it. -/
theorem hasTop_up (h : up p a ≠ a) : HasTop p (up p a) r ↔ HasTop p a r := by
  constructor
  · rintro ⟨n, ht⟩
    exact ⟨n + 1, .above h ht⟩
  · rintro ⟨n, ht⟩
    cases ht with
    | self he => exact absurd he h
    | above _ ht => exact ⟨_, ht⟩

theorem Forest.exists_top (h : Forest p) (a : α) : ∃ r, HasTop p a r := by
  obtain ⟨rank, hrank⟩ := h
  induction hn : rank a using Nat.strong_induction_on generalizing a with
  | _ n ih =>
    by_cases ha : up p a = a
    · exact ⟨a, .self ha⟩
    · obtain ⟨r, hr⟩ := ih _ (hn ▸ hrank a ha) (up p a) rfl
      exact ⟨r, (hasTop_up ha).mp hr⟩

/-- Whatever goes up has its top, or a top below it. -/
theorem Top.rank_lt {rank : α → Nat} (hrank : ∀ a, up p a ≠ a → rank (up p a) < rank a) (h : Top p n a r) :
    r = a ∨ rank r < rank a := by
  induction h with
  | self _ => exact .inl rfl
  | @above n a r hne _ ih =>
    have hup := hrank a hne
    rcases ih with he | hlt
    · exact .inr (by rw [he]; exact hup)
    · exact .inr (hlt.trans hup)

theorem mem_keys_of_up (h : up p a ≠ a) : a ∈ p.map Prod.fst := by
  cases hl : Table.lookup Prod.fst p a with
  | none =>
    refine absurd ?_ h
    unfold up
    rw [hl]
    rfl
  | some row =>
    obtain ⟨hmem, hrow⟩ := lookup_some hl
    rw [← hrow]
    exact mem_map_of_mem hmem

/-- The way up passes no element twice. -/
theorem Top.length_le (hforest : Forest p) (h : Top p n a r) : n ≤ p.length := by
  obtain ⟨rank, hrank⟩ := hforest
  have hpath : ∃ path : List α, path.length = n ∧ path.Nodup ∧ ∀ x ∈ path, x ∈ p.map Prod.fst ∧ rank x ≤ rank a := by
    induction h with
    | self _ => exact ⟨[], rfl, nodup_nil, fun x hx => by cases hx⟩
    | @above n a r hne _ ih =>
      obtain ⟨path, hlen, hnodup, hall⟩ := ih
      have hup := hrank a hne
      refine ⟨a :: path, by rw [length_cons, hlen], nodup_cons.mpr ⟨fun ha => ?_, hnodup⟩, fun x hx => ?_⟩
      · exact absurd (hall a ha).2 (Nat.not_le.mpr hup)
      · rcases mem_cons.mp hx with rfl | hx
        · exact ⟨mem_keys_of_up hne, le_refl _⟩
        · exact ⟨(hall x hx).1, (hall x hx).2.trans hup.le⟩
  obtain ⟨path, hlen, hnodup, hall⟩ := hpath
  have hle := (subperm_of_subset hnodup fun x hx => (hall x hx).1).length_le
  rwa [hlen, length_map] at hle

/-- A map whose tops are those of another, moved. -/
theorem hasTop_iff_of_imp (hforest : Forest p) {f : α → α} (h : ∀ x s, HasTop p x s → HasTop q x (f s)) :
    HasTop q x s ↔ ∃ t, HasTop p x t ∧ s = f t := by
  constructor
  · intro hs
    obtain ⟨t, ht⟩ := hforest.exists_top x
    exact ⟨t, ht, hs.unique (h x t ht)⟩
  · rintro ⟨t, ht, rfl⟩
    exact h x t ht

/-- An element put right under its top. -/
theorem compress (hforest : Forest p) (h : HasTop p a r) (hne : r ≠ a) : Forest (Table.insertOrReplace Prod.fst p (a, r)) ∧
      ∀ x s, HasTop (Table.insertOrReplace Prod.fst p (a, r)) x s ↔ HasTop p x s := by
  have hup : up p a ≠ a := fun he => hne (h.unique (.self he))
  have hroot : up (Table.insertOrReplace Prod.fst p (a, r)) r = r := by
    rw [up_insert, if_neg hne]
    exact h.root_eq
  constructor
  · obtain ⟨rank, hrank⟩ := hforest
    obtain ⟨n, ht⟩ := h
    refine ⟨rank, fun x hx => ?_⟩
    rw [up_insert] at hx ⊢
    split
    · rename_i hxa
      rw [hxa]
      exact (ht.rank_lt hrank).resolve_left hne
    · rename_i hxa
      rw [if_neg hxa] at hx
      exact hrank x hx
  · have hkeep : ∀ x s, HasTop p x s → HasTop (Table.insertOrReplace Prod.fst p (a, r)) x s := by
      rintro x s ⟨n, hs⟩
      induction hs with
      | @self x hx =>
        have hxa : x ≠ a := fun he => hup (he ▸ hx)
        exact .self (by rw [up_insert, if_neg hxa]; exact hx)
      | @above n x s hx hs ih =>
        by_cases hxa : x = a
        · have hs' : s = r := (HasTop.unique ⟨n + 1, .above hx hs⟩ (hxa ▸ h))
          have hupx : up (Table.insertOrReplace Prod.fst p (a, r)) x = r := by rw [up_insert, if_pos hxa]
          have hnex : up (Table.insertOrReplace Prod.fst p (a, r)) x ≠ x := by
            rw [hupx, hxa]
            exact hne
          rw [hs', ← hasTop_up hnex, hupx]
          exact .self hroot
        · have hupx : up (Table.insertOrReplace Prod.fst p (a, r)) x = up p x := by rw [up_insert, if_neg hxa]
          have hnex : up (Table.insertOrReplace Prod.fst p (a, r)) x ≠ x := by
            rw [hupx]
            exact hx
          rw [← hasTop_up hnex, hupx]
          exact ih
    intro x s
    rw [hasTop_iff_of_imp hforest (f := id) hkeep]
    exact ⟨fun ⟨t, ht, he⟩ => by rw [he]; exact ht, fun hs => ⟨s, hs, rfl⟩⟩

theorem keys_insert : x ∈ (Table.insertOrReplace Prod.fst p (a, b)).map Prod.fst ↔ x = a ∨ x ∈ p.map Prod.fst := by
  unfold Table.insertOrReplace
  simp only [map_append, mem_append, map_cons, map_nil, mem_singleton, mem_map, mem_filter, decide_eq_true_eq]
  constructor
  · rintro (⟨row, ⟨hrow, -⟩, rfl⟩ | rfl)
    · exact .inr ⟨row, hrow, rfl⟩
    · exact .inl rfl
  · rintro (rfl | ⟨row, hrow, rfl⟩)
    · exact .inr rfl
    · by_cases he : row.1 = a
      · exact .inr he
      · exact .inl ⟨row, ⟨hrow, he⟩, rfl⟩

/-- The search finds the top, and moves no element to another. -/
structure Found (p : Parents α) (a : α) (found : α × Parents α) : Prop where
  top : HasTop p a found.1
  forest : Forest found.2
  tops : ∀ x s, HasTop found.2 x s ↔ HasTop p x s
  keys : ∀ x, x ∈ found.2.map Prod.fst ↔ x ∈ p.map Prod.fst

theorem root_found : ∀ (fuel : Nat) {n : Nat} {p : Parents α} {a r : α}, Forest p → Top p n a r → n ≤ fuel →
    Found p a (root fuel p a)
  | 0, n, p, a, r, hforest, ht, hn => by
    cases ht with
    | self h => exact ⟨.self h, hforest, fun _ _ => .rfl, fun _ => .rfl⟩
    | above _ _ => omega
  | fuel + 1, n, p, a, r, hforest, ht, hn => by
    rw [root]
    cases ht with
    | self h =>
      rw [if_pos h]
      exact ⟨.self h, hforest, fun _ _ => .rfl, fun _ => .rfl⟩
    | @above n _ _ hne ht =>
      have ih := root_found fuel hforest ht (by omega)
      rw [if_neg hne]
      generalize root fuel p (up p a) = found at ih
      obtain ⟨top, p1⟩ := found
      have htop : HasTop p a top := (hasTop_up hne).mp ih.top
      have hroot : top ≠ a := fun he => hne (he ▸ htop.root_eq)
      obtain ⟨hforest', htops⟩ := compress ih.forest ((ih.tops a top).mpr htop) hroot
      refine ⟨htop, hforest', fun x s => (htops x s).trans (ih.tops x s), fun x => ?_⟩
      rw [keys_insert, ih.keys]
      refine or_iff_right_of_imp ?_
      rintro rfl
      exact mem_keys_of_up hne

/-- **The search for a top ends** in as many steps as there are elements. -/
theorem root_spec (hforest : Forest p) (a : α) : Found p a (root p.length p a) := by
  obtain ⟨r, n, ht⟩ := hforest.exists_top a
  exact root_found p.length hforest ht (ht.length_le hforest)

/-! ## Joining -/

theorem forest_nil : Forest ([] : Parents α) := ⟨fun _ => 0, fun _ h => absurd rfl h⟩

theorem hasTop_congr (h : ∀ x, up q x = up p x) : HasTop q x s ↔ HasTop p x s := by
  have himp : ∀ {p q : Parents α}, (∀ x, up q x = up p x) → ∀ {n x s}, Top p n x s → HasTop q x s := by
    intro p q h n x s hs
    induction hs with
    | @self x hx => exact .self ((h x).trans hx)
    | @above n x s hx _ ih =>
      have hnex : up q x ≠ x := by
        rw [h x]
        exact hx
      rw [← hasTop_up hnex, h x]
      exact ih
  exact ⟨fun ⟨_, hs⟩ => himp (fun x => (h x).symm) hs, fun ⟨_, hs⟩ => himp h hs⟩

theorem Forest.congr (hforest : Forest p) (h : ∀ x, up q x = up p x) : Forest q := by
  obtain ⟨rank, hrank⟩ := hforest
  refine ⟨rank, fun x hx => ?_⟩
  rw [h x] at hx ⊢
  exact hrank x hx

theorem keys_ensure : x ∈ (ensure p a).map Prod.fst ↔ x = a ∨ x ∈ p.map Prod.fst := by
  unfold ensure
  split
  · rename_i hsome
    refine (or_iff_right_of_imp ?_).symm
    rintro rfl
    obtain ⟨row, hrow⟩ := Option.isSome_iff_exists.mp hsome
    obtain ⟨hmem, hkey⟩ := lookup_some hrow
    rw [← hkey]
    exact mem_map_of_mem hmem
  · rw [map_append, mem_append, map_cons, map_nil, mem_singleton, or_comm]

/-- One top put under another. -/
theorem link_tops {ra rb : α} (hforest : Forest p) (ha : up p ra = ra) (hb : up p rb = rb) (hne : ra ≠ rb) :
    Forest (Table.insertOrReplace Prod.fst p (ra, rb)) ∧
      ∀ x s, HasTop (Table.insertOrReplace Prod.fst p (ra, rb)) x s ↔
        ∃ t, HasTop p x t ∧ s = if t = ra then rb else t := by
  classical
  have hupb : up (Table.insertOrReplace Prod.fst p (ra, rb)) rb = rb := by rw [up_insert, if_neg (Ne.symm hne), hb]
  have hupa : up (Table.insertOrReplace Prod.fst p (ra, rb)) ra = rb := by rw [up_insert, if_pos rfl]
  constructor
  · obtain ⟨rank, hrank⟩ := hforest
    -- whatever was under the one top is now above nothing of the other
    refine ⟨fun x => if HasTop p x ra then rank x + rank rb + 1 else rank x, fun x hx => ?_⟩
    have hrb : ¬ HasTop p rb ra := fun h => hne (h.unique (.self hb))
    dsimp only
    by_cases hxa : x = ra
    · rw [hxa, hupa, if_neg hrb, if_pos (HasTop.self ha)]
      omega
    · have hupx : up (Table.insertOrReplace Prod.fst p (ra, rb)) x = up p x := by rw [up_insert, if_neg hxa]
      rw [hupx] at hx ⊢
      have hlt := hrank x hx
      by_cases ht : HasTop p x ra
      · rw [if_pos ht, if_pos ((hasTop_up hx).mpr ht)]
        omega
      · rw [if_neg ht, if_neg fun h => ht ((hasTop_up hx).mp h)]
        exact hlt
  · have hmove : ∀ x s, HasTop p x s →
        HasTop (Table.insertOrReplace Prod.fst p (ra, rb)) x (if s = ra then rb else s) := by
      rintro x s ⟨n, hs⟩
      induction hs with
      | @self x hx =>
        by_cases hxa : x = ra
        · have hnex : up (Table.insertOrReplace Prod.fst p (ra, rb)) ra ≠ ra := by
            rw [hupa]
            exact Ne.symm hne
          rw [if_pos hxa, hxa, ← hasTop_up hnex, hupa]
          exact .self hupb
        · rw [if_neg hxa]
          exact .self (by rw [up_insert, if_neg hxa]; exact hx)
      | @above n x s hx _ ih =>
        have hxa : x ≠ ra := fun he => hx (he ▸ ha)
        have hupx : up (Table.insertOrReplace Prod.fst p (ra, rb)) x = up p x := by rw [up_insert, if_neg hxa]
        have hnex : up (Table.insertOrReplace Prod.fst p (ra, rb)) x ≠ x := by
          rw [hupx]
          exact hx
        rw [← hasTop_up hnex, hupx]
        exact ih
    exact fun x s => hasTop_iff_of_imp hforest hmove

/-- What a join does: no tops are parted, the two elements get one, and no more than that. -/
structure Joined (p q : Parents α) (a b : α) : Prop where
  forest : Forest q
  mono : ∀ x y, Same p x y → Same q x y
  joined : Same q a b
  least : ∀ E : α → α → Prop, Equivalence E → (∀ x y, Same p x y → E x y) → E a b → ∀ x y, Same q x y → E x y
  keys : ∀ x, x = a ∨ x = b ∨ x ∈ p.map Prod.fst → x ∈ q.map Prod.fst

theorem same_congr (h : ∀ x s, HasTop q x s ↔ HasTop p x s) : Same q x y ↔ Same p x y :=
  exists_congr fun r => and_congr (h x r) (h y r)

theorem join_spec (hforest : Forest p) (a b : α) : Joined p (join p (a, b)) a b := by
  have hup : ∀ x, up (ensure (ensure p a) b) x = up p x := fun x => up_ensure.trans up_ensure
  have hforest0 := hforest.congr hup
  have hkeys0 : ∀ x, x ∈ (ensure (ensure p a) b).map Prod.fst ↔ x = a ∨ x = b ∨ x ∈ p.map Prod.fst := by
    intro x
    rw [keys_ensure, keys_ensure, or_left_comm]
  unfold join
  generalize hp0 : ensure (ensure p a) b = p0 at hforest0 hkeys0 hup
  have htops0 : ∀ x s, HasTop p0 x s ↔ HasTop p x s := fun _ _ => hasTop_congr hup
  dsimp only
  have hfound1 := root_spec hforest0 a
  generalize root p0.length p0 a = found1 at hfound1
  obtain ⟨ra, p1⟩ := found1
  have hfound2 := root_spec hfound1.forest b
  dsimp only
  generalize root p1.length p1 b = found2 at hfound2
  obtain ⟨rb, p2⟩ := found2
  have htops : ∀ x s, HasTop p2 x s ↔ HasTop p x s := fun x s =>
    (hfound2.tops x s).trans ((hfound1.tops x s).trans (htops0 x s))
  have hkeys : ∀ x, x ∈ p2.map Prod.fst ↔ x = a ∨ x = b ∨ x ∈ p.map Prod.fst := fun x =>
    (hfound2.keys x).trans ((hfound1.keys x).trans (hkeys0 x))
  have hra : HasTop p a ra := (htops0 a ra).mp hfound1.top
  have hrb : HasTop p b rb := (htops b rb).mp ((hfound2.tops b rb).mpr hfound2.top)
  dsimp only
  split
  · rename_i hne
    have hra2 := (htops a ra).mpr hra
    have hrb2 := (htops b rb).mpr hrb
    obtain ⟨hforest', hmoved⟩ := link_tops hfound2.forest hra2.root_eq hrb2.root_eq hne
    have hmoved' : ∀ x s, HasTop (Table.insertOrReplace Prod.fst p2 (ra, rb)) x s ↔
        ∃ t, HasTop p x t ∧ s = if t = ra then rb else t := by
      intro x s
      rw [hmoved]
      exact exists_congr fun t => and_congr_left fun _ => htops x t
    refine ⟨hforest', ?_, ?_, ?_, ?_⟩
    · rintro x y ⟨r, hx, hy⟩
      exact ⟨_, (hmoved' x _).mpr ⟨r, hx, rfl⟩, (hmoved' y _).mpr ⟨r, hy, rfl⟩⟩
    · exact ⟨rb, (hmoved' a _).mpr ⟨ra, hra, (if_pos rfl).symm⟩, (hmoved' b _).mpr ⟨rb, hrb, (if_neg (Ne.symm hne)).symm⟩⟩
    · intro E hE hold hab x y ⟨r, hx, hy⟩
      obtain ⟨t, hxt, ht⟩ := (hmoved' x r).mp hx
      obtain ⟨u, hyu, hu⟩ := (hmoved' y r).mp hy
      have hEa : ∀ {z}, HasTop p z ra → E z a := fun hz => hold _ _ ⟨ra, hz, hra⟩
      have hEb : ∀ {z}, HasTop p z rb → E z b := fun hz => hold _ _ ⟨rb, hz, hrb⟩
      rw [ht] at hu
      by_cases hta : t = ra
      · have hxa := hEa (hta ▸ hxt)
        rw [if_pos hta] at hu
        by_cases hua : u = ra
        · exact hE.trans hxa (hE.symm (hEa (hua ▸ hyu)))
        · rw [if_neg hua] at hu
          exact hE.trans hxa (hE.trans hab (hE.symm (hEb (hu ▸ hyu))))
      · rw [if_neg hta] at hu
        by_cases hua : u = ra
        · rw [if_pos hua] at hu
          exact hE.trans (hEb (hu ▸ hxt)) (hE.trans (hE.symm hab) (hE.symm (hEa (hua ▸ hyu))))
        · rw [if_neg hua] at hu
          exact hold x y ⟨t, hxt, hu ▸ hyu⟩
    · intro x hx
      exact keys_insert.mpr (.inr ((hkeys x).mpr hx))
  · rename_i heq
    have he : ra = rb := not_not.mp heq
    have hsame : ∀ x y, Same p2 x y ↔ Same p x y := fun _ _ => same_congr htops
    refine ⟨hfound2.forest, fun x y h => (hsame x y).mpr h, ?_, fun E _ hold _ x y h => hold x y ((hsame x y).mp h),
      fun x => (hkeys x).mpr⟩
    exact (hsame a b).mpr ⟨ra, hra, he ▸ hrb⟩

theorem joined_foldl : ∀ (pairs : List (α × α)) {p : Parents α}, Forest p → Forest (pairs.foldl join p) ∧
    (∀ x y, Same p x y → Same (pairs.foldl join p) x y) ∧ (∀ pair ∈ pairs, Same (pairs.foldl join p) pair.1 pair.2) ∧
    (∀ E : α → α → Prop, Equivalence E → (∀ x y, Same p x y → E x y) → (∀ pair ∈ pairs, E pair.1 pair.2) →
      ∀ x y, Same (pairs.foldl join p) x y → E x y) ∧
    ∀ x, x ∈ p.map Prod.fst ∨ (∃ pair ∈ pairs, x = pair.1 ∨ x = pair.2) → x ∈ (pairs.foldl join p).map Prod.fst
  | [], p, hforest => by
    refine ⟨hforest, fun _ _ h => h, forall_mem_nil _, fun _ _ hold _ => hold, fun x h => ?_⟩
    rcases h with h | ⟨pair, hmem, -⟩
    · exact h
    · cases hmem
  | pair :: pairs, p, hforest => by
    have hjoin := join_spec hforest pair.1 pair.2
    obtain ⟨hforest', hmono, hpairs, hleast, hkeys⟩ := joined_foldl pairs hjoin.forest
    refine ⟨hforest', fun x y h => hmono x y (hjoin.mono x y h), ?_, ?_, ?_⟩
    · intro pair' hmem
      rcases mem_cons.mp hmem with rfl | hmem
      · exact hmono _ _ hjoin.joined
      · exact hpairs pair' hmem
    · intro E hE hold hall
      refine hleast E hE (hjoin.least E hE hold (hall pair mem_cons_self)) fun pair' hmem => ?_
      exact hall pair' (mem_cons_of_mem _ hmem)
    · rintro x (hx | ⟨pair', hmem, hx⟩)
      · exact hkeys x (.inl (hjoin.keys x (.inr (.inr hx))))
      · rcases mem_cons.mp hmem with rfl | hmem
        · exact hkeys x (.inl (hjoin.keys x (hx.imp_right .inl)))
        · exact hkeys x (.inr ⟨pair', hmem, hx⟩)

/-- A chain of pairs leads from one to the other. -/
def Chained (pairs : List (α × α)) : α → α → Prop := Relation.EqvGen fun a b => (a, b) ∈ pairs

theorem forest_joinAll (pairs : List (α × α)) : Forest (joinAll pairs) := (joined_foldl pairs forest_nil).1

/-- **Two elements have the same top** exactly if a chain of pairs leads from one to the other. -/
theorem same_joinAll (pairs : List (α × α)) : Same (joinAll pairs) x y ↔ Chained pairs x y := by
  obtain ⟨hforest, -, hpairs, hleast, -⟩ := joined_foldl pairs (@forest_nil α _)
  constructor
  · refine hleast (Chained pairs) (Relation.EqvGen.is_equivalence _) ?_ ?_ x y
    · rintro x y ⟨r, hx, hy⟩
      have hself : ∀ {z}, HasTop ([] : Parents α) z r → r = z := fun hz => hz.unique (.self rfl)
      rw [← hself hx, ← hself hy]
      exact Relation.EqvGen.refl r
    · exact fun pair hmem => Relation.EqvGen.rel _ _ hmem
  · intro h
    induction h with
    | rel x y h => exact hpairs (x, y) h
    | refl x =>
      obtain ⟨r, hr⟩ := hforest.exists_top x
      exact ⟨r, hr, hr⟩
    | symm x y _ ih =>
      obtain ⟨r, hx, hy⟩ := ih
      exact ⟨r, hy, hx⟩
    | trans x y z _ _ ih1 ih2 =>
      obtain ⟨r, hx, hy⟩ := ih1
      obtain ⟨r', hy', hz⟩ := ih2
      exact ⟨r, hx, hy.unique hy' ▸ hz⟩

theorem mem_keys_joinAll {pairs : List (α × α)} {pair : α × α} (h : pair ∈ pairs) (hx : x = pair.1 ∨ x = pair.2) :
    x ∈ (joinAll pairs).map Prod.fst :=
  (joined_foldl pairs forest_nil).2.2.2.2 x (.inr ⟨pair, h, hx⟩)

/-! ## The groups -/

section Groups

variable [LinearOrder α]

theorem mem_insertOnce {l : List α} : x ∈ insertOnce a l ↔ x = a ∨ x ∈ l := by
  unfold insertOnce
  split
  · rename_i ha
    exact (or_iff_right_of_imp fun he => he ▸ ha).symm
  · exact mem_orderedInsert _

/-- Who stands in the groups under a top. -/
def under (groups : List (α × List α)) (t : α) : List α := ((Table.lookup Prod.fst groups t).map Prod.snd).getD []

theorem gather_under : ∀ (ids : List α) {p : Parents α} (groups : List (α × List α)), Forest p →
    Keyed Prod.fst groups → Keyed Prod.fst (gather ids p groups) ∧
      ∀ t x, x ∈ under (gather ids p groups) t ↔ x ∈ under groups t ∨ (x ∈ ids ∧ HasTop p x t)
  | [], p, groups, _, hkeyed => ⟨hkeyed, fun t x => by simp [gather]⟩
  | a :: ids, p, groups, hforest, hkeyed => by
    have hfound := root_spec hforest a
    rw [gather]
    generalize root p.length p a = found at hfound
    obtain ⟨top, p1⟩ := found
    dsimp only
    have hf : ∀ g : α × List α, (g.1, insertOnce a g.2).1 = g.1 := fun _ => rfl
    obtain ⟨hkeyed', hunder⟩ := gather_under ids (Table.upsert Prod.fst (top, [a]) (fun g => (g.1, insertOnce a g.2)) groups)
      hfound.forest (hkeyed.upsert hf)
    refine ⟨hkeyed', fun t x => ?_⟩
    have hnew : x ∈ under (Table.upsert Prod.fst (top, [a]) (fun g => (g.1, insertOnce a g.2)) groups) t ↔
        x ∈ under groups t ∨ (x = a ∧ t = top) := by
      unfold under
      rw [lookup_upsert hf]
      by_cases ht : t = top
      · rw [if_pos ht]
        cases Table.lookup Prod.fst groups t with
        | none => simp [ht]
        | some g =>
          simp only [Option.elim_some, Option.map_some, Option.getD_some, mem_insertOnce, ht, and_true]
          exact or_comm
      · rw [if_neg ht]
        exact (or_iff_left fun h => ht h.2).symm
    rw [hunder, hnew, mem_cons, hfound.tops]
    have ha : HasTop p a t ↔ t = top := ⟨fun h => h.unique hfound.top, fun h => h ▸ hfound.top⟩
    constructor
    · rintro ((h | ⟨rfl, ht⟩) | ⟨hx, ht⟩)
      · exact .inl h
      · exact .inr ⟨.inl rfl, ha.mpr ht⟩
      · exact .inr ⟨.inr hx, ht⟩
    · rintro (h | ⟨rfl | hx, ht⟩)
      · exact .inl (.inl h)
      · exact .inl (.inr ⟨rfl, ha.mp ht⟩)
      · exact .inr ⟨hx, ht⟩

theorem groups_under (pairs : List (α × α)) : Keyed Prod.fst (gather ((joinAll pairs).map Prod.fst) (joinAll pairs) []) ∧
    ∀ t x, x ∈ under (gather ((joinAll pairs).map Prod.fst) (joinAll pairs) []) t ↔
      x ∈ (joinAll pairs).map Prod.fst ∧ HasTop (joinAll pairs) x t := by
  obtain ⟨hkeyed, hunder⟩ := gather_under ((joinAll pairs).map Prod.fst) ([] : List (α × List α)) (forest_joinAll pairs)
    nodup_nil
  refine ⟨hkeyed, fun t x => (hunder t x).trans (or_iff_right fun h => ?_)⟩
  cases h

/-- **Two elements of one group** are joined by a chain of pairs. -/
theorem mem_groupsOf {pairs : List (α × α)} {g : List α} (hg : g ∈ groupsOf pairs) (hx : x ∈ g) (hy : y ∈ g) :
    Chained pairs x y := by
  obtain ⟨hkeyed, hunder⟩ := groups_under pairs
  obtain ⟨row, hrow, rfl⟩ := mem_map.mp hg
  have hthere : ∀ z ∈ row.2, HasTop (joinAll pairs) z row.1 := by
    intro z hz
    refine ((hunder row.1 z).mp ?_).2
    unfold under
    rw [hkeyed.lookup_of_mem hrow]
    exact hz
  exact (same_joinAll pairs).mp ⟨row.1, hthere x hx, hthere y hy⟩

/-- **Nobody is left out**: two elements of pairs that a chain joins are in one group. -/
theorem exists_group {pairs : List (α × α)} (hx : ∃ pair ∈ pairs, x = pair.1 ∨ x = pair.2)
    (hy : ∃ pair ∈ pairs, y = pair.1 ∨ y = pair.2) (h : Chained pairs x y) : ∃ g ∈ groupsOf pairs, x ∈ g ∧ y ∈ g := by
  obtain ⟨-, hunder⟩ := groups_under pairs
  obtain ⟨r, hxr, hyr⟩ := (same_joinAll pairs).mpr h
  obtain ⟨pairx, hpairx, hx⟩ := hx
  obtain ⟨pairy, hpairy, hy⟩ := hy
  have hux := (hunder r x).mpr ⟨mem_keys_joinAll hpairx hx, hxr⟩
  have huy := (hunder r y).mpr ⟨mem_keys_joinAll hpairy hy, hyr⟩
  unfold under at hux huy
  cases hl : Table.lookup Prod.fst (gather ((joinAll pairs).map Prod.fst) (joinAll pairs) []) r with
  | none =>
    rw [hl] at hux
    cases hux
  | some row =>
    rw [hl] at hux huy
    exact ⟨row.2, mem_map_of_mem (lookup_some hl).1, hux, huy⟩

end Groups

end Oreneta.UnionFind

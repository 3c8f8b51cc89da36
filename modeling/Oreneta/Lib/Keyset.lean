import Mathlib.Data.List.Sort
import Oreneta.Lib.Text

/-!
# Reading a list in pages

Each item has a position, and no two have the same.  A page holds the first items after a position; the
next one goes on after the last item of the page.

* `Strict` — what an order of positions must be.
* `arrange` — the items in order; `arrange_perm`, `arrange_after`: however they are given, the items after
  one of them are what is left of them behind it.
* `Walk` — the pages from a cursor on, each asked for with the cursor the one before it gave.
* `pages_complete`, `pages_complete_of` — a walk ends, and its pages are the whole list, if each page is that
  of what is still to be read (`answer`, `answerWith`) when its cursor stands for what has been read (`Stands`).
* `arrange_parts` — the first items of all are found among the first of each part.
-/

namespace Oreneta.Keyset

open List Option

/-- A strict total order. -/
structure Strict {π : Type} (r : π → π → Prop) : Prop where
  irrefl : ∀ a, ¬ r a a
  trans : ∀ {a b c}, r a b → r b c → r a c
  total : ∀ a b, r a b ∨ a = b ∨ r b a

theorem Strict.flip {π : Type} {r : π → π → Prop} (h : Strict r) : Strict fun a b => r b a :=
  ⟨h.irrefl, fun hab hbc => h.trans hbc hab, fun a b => by
    rcases h.total a b with hr | he | hr
    · exact .inr (.inr hr)
    · exact .inr (.inl he)
    · exact .inl hr⟩

theorem Strict.comap {π σ : Type} {r : π → π → Prop} (h : Strict r) {f : σ → π} (hf : Function.Injective f) :
    Strict fun a b => r (f a) (f b) :=
  ⟨fun a => h.irrefl (f a), h.trans, fun a b => by
    rcases h.total (f a) (f b) with hr | he | hr
    · exact .inl hr
    · exact .inr (.inl (hf he))
    · exact .inr (.inr hr)⟩

theorem strict_lt {π : Type} [LinearOrder π] : Strict fun a b : π => a < b :=
  ⟨lt_irrefl, lt_trans, lt_trichotomy⟩

section Arrange

variable {ι π : Type} {r : π → π → Prop} [DecidableRel r] (pos : ι → π)

/-- The items in the order of their positions. -/
def arrange (r : π → π → Prop) [DecidableRel r] (pos : ι → π) (l : List ι) : List ι :=
  l.insertionSort (fun x y => ¬ r (pos y) (pos x))

variable {pos}

theorem arrange_perm_self (l : List ι) : (arrange r pos l).Perm l := perm_insertionSort _ l

theorem arrange_sorted (h : Strict r) (l : List ι) : (arrange r pos l).Pairwise fun x y => ¬ r (pos y) (pos x) := by
  have htotal : Std.Total fun x y : ι => ¬ r (pos y) (pos x) :=
    ⟨fun x y => by
      by_contra hno
      rw [not_or, not_not, not_not] at hno
      exact h.irrefl _ (h.trans hno.1 hno.2)⟩
  have htrans : IsTrans ι fun x y : ι => ¬ r (pos y) (pos x) :=
    ⟨fun x y z hxy hyz hzx => by
      rcases h.total (pos y) (pos x) with hr | he | hr
      · exact hxy hr
      · exact hyz (he ▸ hzx)
      · exact hyz (h.trans hzx hr)⟩
  exact pairwise_insertionSort _ l

variable {l : List ι}

/-- Items with different positions are in strict order. -/
theorem arrange_strict (h : Strict r) (hl : (l.map pos).Nodup) : (arrange r pos l).Pairwise fun x y => r (pos x) (pos y) := by
  have hnodup : ((arrange r pos l).map pos).Nodup := ((arrange_perm_self l).map pos).nodup_iff.mpr hl
  rw [List.Nodup, pairwise_map] at hnodup
  refine ((arrange_sorted h l).and hnodup).imp fun {x y} hxy => ?_
  rcases h.total (pos x) (pos y) with hr | he | hr
  · exact hr
  · exact absurd he hxy.2
  · exact absurd hr hxy.1

omit [DecidableRel r] in
/-- There is one way to put items in strict order. -/
theorem eq_of_strict (h : Strict r) {l l' : List ι} (hperm : l.Perm l')
    (hl : l.Pairwise fun x y => r (pos x) (pos y)) (hl' : l'.Pairwise fun x y => r (pos x) (pos y)) : l = l' :=
  hperm.eq_of_pairwise (fun _ _ _ _ hxy hyx => absurd (h.trans hxy hyx) (h.irrefl _)) hl hl'

/-- The order in which the items are given does not matter. -/
theorem arrange_perm (h : Strict r) {l' : List ι} (hperm : l.Perm l') (hl : (l.map pos).Nodup) :
    arrange r pos l = arrange r pos l' := by
  have hl' : (l'.map pos).Nodup := (hperm.map pos).nodup_iff.mp hl
  have hperm' : (arrange r pos l).Perm (arrange r pos l') :=
    (arrange_perm_self l).trans (hperm.trans (arrange_perm_self l').symm)
  exact eq_of_strict h hperm' (arrange_strict h hl) (arrange_strict h hl')

/-- Leaving items out of a list in order, before or after one more is put in. -/
theorem filter_orderedInsert (h : Strict r) (p : ι → Bool) (x : ι) : ∀ {l : List ι}, (l.Pairwise fun x y => ¬ r (pos y) (pos x)) →
      (l.orderedInsert (fun x y => ¬ r (pos y) (pos x)) x).filter p =
        if p x then (l.filter p).orderedInsert (fun x y => ¬ r (pos y) (pos x)) x else l.filter p
  | [], _ => by cases hx : p x <;> simp [hx]
  | y :: l, hsorted => by
    obtain ⟨hy, hl⟩ := pairwise_cons.mp hsorted
    rw [orderedInsert_cons]
    by_cases hxy : ¬ r (pos y) (pos x)
    · rw [if_pos hxy]
      cases hx : p x with
      | false => rw [filter_cons_of_neg (by simp [hx]), if_neg Bool.false_ne_true]
      | true =>
        rw [filter_cons_of_pos hx, if_pos rfl]
        -- nothing that is kept comes before the item
        have hall : ∀ z ∈ (y :: l).filter p, ¬ r (pos z) (pos x) := by
          intro z hz hzx
          rcases mem_cons.mp (mem_of_mem_filter hz) with rfl | hz
          · exact hxy hzx
          · rcases h.total (pos z) (pos y) with hr | he | hr
            · exact hy z hz hr
            · exact hxy (he ▸ hzx)
            · exact hxy (h.trans hr hzx)
        cases hkept : (y :: l).filter p with
        | nil => rfl
        | cons z rest =>
          rw [orderedInsert_cons, if_pos (hall z (hkept ▸ mem_cons_self))]
    · rw [if_neg hxy]
      have ih := filter_orderedInsert h p x hl
      cases hkeep : p y with
      | false => rw [filter_cons_of_neg (by simp [hkeep]), filter_cons_of_neg (by simp [hkeep]), ih]
      | true =>
        rw [filter_cons_of_pos hkeep, filter_cons_of_pos hkeep, ih]
        cases p x with
        | false => rfl
        | true => rw [if_pos rfl, if_pos rfl, orderedInsert_cons, if_neg hxy]

/-- Leaving items out leaves the others where they are. -/
theorem arrange_filter (h : Strict r) (p : ι → Bool) : ∀ l : List ι, arrange r pos (l.filter p) = (arrange r pos l).filter p
  | [] => rfl
  | x :: l => by
    have ih := arrange_filter h p l
    have hinsert : arrange r pos (x :: l) = (arrange r pos l).orderedInsert (fun x y => ¬ r (pos y) (pos x)) x := rfl
    rw [hinsert, filter_orderedInsert h p x (arrange_sorted h l), ← ih]
    cases hx : p x with
    | false => rw [filter_cons_of_neg (by simp [hx]), if_neg Bool.false_ne_true]
    | true =>
      rw [filter_cons_of_pos hx, if_pos rfl]
      rfl

/-- **After an item comes what is left behind it.** -/
theorem arrange_after (h : Strict r) {done rest : List ι} {x : ι} (hl : (l.map pos).Nodup)
    (hdone : arrange r pos l = done ++ rest) (hx : done.getLast? = some x) :
    arrange r pos (l.filter fun y => decide (r (pos x) (pos y))) = rest := by
  have hstrict := arrange_strict h hl
  rw [hdone, pairwise_append] at hstrict
  obtain ⟨hd, -, hcross⟩ := hstrict
  obtain ⟨init, rfl⟩ := getLast?_eq_some_iff.mp hx
  rw [pairwise_append] at hd
  have hkept : rest.filter (fun y => decide (r (pos x) (pos y))) = rest :=
    filter_eq_self.mpr fun y hy => decide_eq_true (hcross x (by simp) y hy)
  have hdropped : (init ++ [x]).filter (fun y => decide (r (pos x) (pos y))) = [] := by
    refine filter_eq_nil_iff.mpr fun y hy => ?_
    rw [decide_eq_true_eq]
    intro hxy
    rcases mem_append.mp hy with hy | hy
    · exact h.irrefl _ (h.trans hxy (hd.2.2 y hy x (mem_singleton_self x)))
    · rw [mem_singleton.mp hy] at hxy
      exact h.irrefl _ hxy
  rw [arrange_filter h _ l, hdone, filter_append, hdropped, hkept, nil_append]

/-- Items told in another shape are in the same order. -/
theorem arrange_map {ι' : Type} {pos' : ι' → π} {f : ι → ι'} (l : List ι) (hpos : ∀ x ∈ l, pos' (f x) = pos x) :
    arrange r pos' (l.map f) = (arrange r pos l).map f := by
  refine (map_insertionSort _ _ f l fun x hx y hy => ?_).symm
  rw [hpos x hx, hpos y hy]

omit [DecidableRel r] in
theorem mem_take_filter {p : ι → Bool} {k : Nat} {x : ι} (hx : x ∈ l.take k) (hp : p x = true) : x ∈ (l.filter p).take k := by
  have htaken : (l.take k).filter p <+: l.filter p := (List.take_prefix k l).filter p
  have hlen : ((l.take k).filter p).length ≤ k := (length_filter_le p _).trans (length_take_le k l)
  have hshort : (l.take k).filter p <+: (l.filter p).take k := prefix_take_iff.mpr ⟨htaken, hlen⟩
  exact hshort.subset (mem_filter.mpr ⟨hx, hp⟩)

omit [DecidableRel r] in
theorem take_filter_of_all {p : ι → Bool} {k : Nat} (h : ∀ x ∈ l.take k, p x = true) : (l.filter p).take k = l.take k := by
  have hsplit : l.filter p = l.take k ++ (l.drop k).filter p := by
    conv_lhs => rw [← take_append_drop k l, filter_append, filter_eq_self.mpr h]
  rw [hsplit]
  by_cases hlen : k ≤ l.length
  · exact take_left' (length_take_of_le hlen)
  · rw [drop_of_length_le (by omega), filter_nil, append_nil, take_take, Nat.min_self]

/-- **The first items of all** are the first among the first of each part. -/
theorem arrange_parts {κ : Type} [DecidableEq κ] (h : Strict r) {all : List ι} (hall : all.Pairwise fun x y => r (pos x) (pos y))
    (part : ι → κ) {parts : List κ} (hparts : parts.Nodup) (hmem : ∀ x ∈ all, part x ∈ parts) (k : Nat) :
    (arrange r pos (parts.flatMap fun c => (all.filter (fun x => part x = c)).take k)).take k = all.take k := by
  classical
  have hdistinct : all.Pairwise fun x y => pos x ≠ pos y := hall.imp fun {x y} hxy (he : pos x = pos y) =>
    h.irrefl (pos y) (by rwa [he] at hxy)
  have hpositions : (all.map pos).Nodup := pairwise_map.mpr hdistinct
  have hnodup : all.Nodup := List.Nodup.of_map pos hpositions
  generalize hfirst : (parts.flatMap fun c => (all.filter fun x => part x = c).take k) = first
  have hmemFirst : ∀ {x : ι}, x ∈ first ↔ x ∈ all ∧ x ∈ (all.filter fun y => part y = part x).take k := by
    intro x
    rw [← hfirst, mem_flatMap]
    constructor
    · rintro ⟨c, -, hx⟩
      have hc := mem_filter.mp (mem_of_mem_take hx)
      rw [decide_eq_true_eq] at hc
      rw [hc.2]
      exact ⟨hc.1, hx⟩
    · rintro ⟨hx, htake⟩
      exact ⟨part x, hmem x hx, htake⟩
  have hfirstNodup : first.Nodup := by
    rw [← hfirst, nodup_flatMap]
    refine ⟨fun c _ => (hnodup.filter _).sublist (take_sublist k _), hparts.imp fun {c d} hne => ?_⟩
    intro x hc hd
    have hxc := (mem_filter.mp (mem_of_mem_take hc)).2
    have hxd := (mem_filter.mp (mem_of_mem_take hd)).2
    rw [decide_eq_true_eq] at hxc hxd
    exact hne (hxc.symm.trans hxd)
  have hperm : first.Perm (all.filter fun x => x ∈ first) := by
    rw [perm_ext_iff_of_nodup hfirstNodup (hnodup.filter _)]
    intro x
    rw [mem_filter, decide_eq_true_eq]
    exact ⟨fun hx => ⟨(hmemFirst.mp hx).1, hx⟩, fun hx => hx.2⟩
  have hfirstPositions : (first.map pos).Nodup :=
    (hperm.map pos).nodup_iff.mpr (hpositions.sublist (filter_sublist.map pos))
  have harranged : arrange r pos first = all.filter (fun x => x ∈ first) :=
    eq_of_strict h ((arrange_perm_self first).trans hperm) (arrange_strict h hfirstPositions) (hall.sublist filter_sublist)
  rw [harranged]
  refine take_filter_of_all fun x hx => decide_eq_true (hmemFirst.mpr ⟨mem_of_mem_take hx, ?_⟩)
  exact mem_take_filter hx (decide_eq_true rfl)

end Arrange

section Walk

variable {ι κ : Type}

/-- The pages that are read from a cursor on, the `n`th page first. -/
inductive Walk (page : Nat → Option κ → Option (List ι × Option κ)) : Nat → Option κ → List (List ι) → Prop
  | last {n : Nat} {c : Option κ} {items : List ι} (h : page n c = some (items, none)) : Walk page n c [items]
  | next {n : Nat} {c : Option κ} {items : List ι} {cursor : κ} {pages : List (List ι)}
      (h : page n c = some (items, some cursor)) (hrest : Walk page (n + 1) (some cursor) pages) :
      Walk page n c (items :: pages)

variable {β : Type}

/-- What stands for the items read: no cursor at the start, and then the cursor after the last of them. -/
def Stands (cursorAt : ι → κ) (done : List ι) (before : Option κ) : Prop :=
  before = none ∧ done = [] ∨ ∃ last, done.getLast? = some last ∧ before = some (cursorAt last)

/-- The page of what is still to be read: so many of its items, and a cursor if there are more. -/
def answer (cursorAt : ι → κ) (shown : ι → β) (rest : List ι) (limit : Nat) : List β × Option κ :=
  ((rest.take limit).map shown,
    if limit < rest.length then (rest.take limit).getLast?.map cursorAt else none)

/-- The same, whether or not there is a cursor after it. -/
def answerWith (cursorAt : ι → κ) (shown : ι → β) (rest : List ι) (limit : Nat) (more : Bool) : List β × Option κ :=
  ((rest.take limit).map shown, if more = true then (rest.take limit).getLast?.map cursorAt else none)

/-- **A walk ends, and its pages are all there is**, if each page is that of what is still to be read, with a cursor
whenever something is left, and none when it was empty. -/
theorem pages_complete_of {all : List ι} {cursorAt : ι → κ} {shown : ι → β} {limits : Nat → Nat}
    (hlimits : ∀ n, 0 < limits n) {page : Nat → Option κ → Option (List β × Option κ)}
    (hpage : ∀ n done rest before, all = done ++ rest → Stands cursorAt done before →
      ∃ more, page n before = some (answerWith cursorAt shown rest (limits n) more) ∧
        (limits n < rest.length → more = true) ∧ (more = true → rest ≠ [])) :
    ∃ pages, Walk page 0 none pages ∧ pages.flatten = all.map shown := by
  have hfrom : ∀ (left : Nat) (rest done : List ι) (n : Nat) (before : Option κ), rest.length ≤ left →
      all = done ++ rest → Stands cursorAt done before →
        ∃ pages, Walk page n before pages ∧ pages.flatten = rest.map shown := by
    intro left
    induction left with
    | zero =>
      intro rest done n before hleft hall hbefore
      have hrest : rest = [] := length_eq_zero_iff.mp (by omega)
      subst hrest
      obtain ⟨more, hanswer, -, hnone⟩ := hpage n done [] before hall hbefore
      have hmore : more = false := Bool.eq_false_iff.mpr fun h => hnone h rfl
      subst hmore
      rw [answerWith, take_nil] at hanswer
      exact ⟨[[]], .last hanswer, rfl⟩
    | succ left ih =>
      intro rest done n before hleft hall hbefore
      obtain ⟨more, hanswer, hleftover, hsome⟩ := hpage n done rest before hall hbefore
      unfold answerWith at hanswer
      cases more with
      | true =>
        rw [if_pos rfl] at hanswer
        have hpos := hlimits n
        have hrest := length_pos_iff.mpr (hsome rfl)
        have hne : rest.take (limits n) ≠ [] := by
          rw [← length_pos_iff, length_take]
          omega
        have hlast := getLast?_eq_some_getLast hne
        rw [hlast, map_some] at hanswer
        have hall' : all = (done ++ rest.take (limits n)) ++ rest.drop (limits n) := by
          rw [append_assoc, take_append_drop, hall]
        have hlen : (rest.drop (limits n)).length ≤ left := by
          rw [length_drop]
          omega
        have hstands : Stands cursorAt (done ++ rest.take (limits n))
            (some (cursorAt ((rest.take (limits n)).getLast hne))) := by
          refine .inr ⟨_, ?_, rfl⟩
          rw [getLast?_append, hlast]
          rfl
        obtain ⟨pages, hwalk, hflat⟩ := ih (rest.drop (limits n)) _ (n + 1) _ hlen hall' hstands
        refine ⟨(rest.take (limits n)).map shown :: pages, .next hanswer hwalk, ?_⟩
        rw [flatten_cons, hflat, ← map_append, take_append_drop]
      | false =>
        rw [if_neg Bool.false_ne_true] at hanswer
        refine ⟨[(rest.take (limits n)).map shown], .last hanswer, ?_⟩
        have hshort : ¬ limits n < rest.length := fun h => Bool.false_ne_true (hleftover h)
        have htake : rest.take (limits n) = rest := take_of_length_le (by omega)
        simp [htake]
  exact hfrom all.length all [] 0 none (le_refl _) rfl (.inl ⟨rfl, rfl⟩)

/-- **A walk ends, and its pages are all there is**, if each page is that of what is still to be read. -/
theorem pages_complete {all : List ι} {cursorAt : ι → κ} {shown : ι → β} {limits : Nat → Nat}
    (hlimits : ∀ n, 0 < limits n) {page : Nat → Option κ → Option (List β × Option κ)}
    (hpage : ∀ n done rest before, all = done ++ rest → Stands cursorAt done before →
      page n before = some (answer cursorAt shown rest (limits n))) :
    ∃ pages, Walk page 0 none pages ∧ pages.flatten = all.map shown := by
  refine @pages_complete_of _ _ _ all cursorAt shown limits hlimits page fun n done rest before hall hbefore => ⟨decide (limits n < rest.length), ?_, decide_eq_true, ?_⟩
  · rw [hpage n done rest before hall hbefore, answer, answerWith]
    simp only [decide_eq_true_eq]
  · intro hmore hnil
    rw [hnil] at hmore
    exact absurd (of_decide_eq_true hmore) (Nat.not_lt_zero _)

/-- The pages read from a cursor on are determined. -/
theorem Walk.unique {page : Nat → Option κ → Option (List ι × Option κ)} {n : Nat} {c : Option κ}
    {pages pages' : List (List ι)} (h : Walk page n c pages) (h' : Walk page n c pages') : pages = pages' := by
  induction h generalizing pages' with
  | last h =>
    cases h' with
    | last h' =>
      rw [h, some.injEq, Prod.mk.injEq] at h'
      rw [h'.1]
    | next h' _ =>
      rw [h, some.injEq, Prod.mk.injEq] at h'
      cases h'.2
  | next h hrest ih =>
    cases h' with
    | last h' =>
      rw [h, some.injEq, Prod.mk.injEq] at h'
      cases h'.2
    | next h' hrest' =>
      rw [h, some.injEq, Prod.mk.injEq, some.injEq] at h'
      obtain ⟨rfl, rfl⟩ := h'
      rw [ih hrest']

end Walk

end Oreneta.Keyset

import Mathlib.Data.List.Nodup

/-!
# Reading a changing list backwards in pages

A list is read from its end, page by page.  A cursor names the first item of a page; the next page holds the last items before
it.  Between two reads items may go from the list and others may come, but all of them are of one list, `order`, and stand as
they do there.

* `Reads` — the pages from a cursor on, and the state they end in; `Reached` — the states on the way.
* `Steady` — what is asked of every read: the item the cursor names is still listed.
* `reads_backward` — the reads end, and the pages, the last one first, are items of `order` in order.
* `reads_cover` — a kind of items of which one is always listed, and that no change adds to, is found in some page.
-/

namespace Oreneta.Backward

open List Option

variable {σ ι κ β : Type}

/-- The items before one of them; all of them, without one. -/
def before [DecidableEq ι] (items : List ι) : Option ι → List ι
  | none => items
  | some c => items.takeWhile (fun x => decide (x ≠ c))

/-- The last items. -/
def lastOf (limit : Nat) (items : List ι) : List ι := items.drop (items.length - limit)

/-- The pages that are read from a cursor on, the `n`th page first. -/
inductive Reads (read : Nat → σ → Option κ → (List β × Option κ) × σ) : Nat → σ → Option κ → List (List β) → σ → Prop
  | last {n : Nat} {s t : σ} {c : Option κ} {items : List β} (h : read n s c = ((items, none), t)) : Reads read n s c [items] t
  | next {n : Nat} {s t final : σ} {c : Option κ} {items : List β} {cursor : κ} {pages : List (List β)}
      (h : read n s c = ((items, some cursor), t)) (hrest : Reads read (n + 1) t (some cursor) pages final) :
      Reads read n s c (items :: pages) final

/-- Where the reads get to. -/
inductive Reached (read : Nat → σ → Option κ → (List β × Option κ) × σ) (start : σ) : Nat → σ → Option κ → Prop
  | start : Reached read start 0 start none
  | next {n : Nat} {s t : σ} {c : Option κ} {items : List β} {cursor : κ} (h : Reached read start n s c)
      (hread : read n s c = ((items, some cursor), t)) : Reached read start (n + 1) t (some cursor)

/-- What the rest of a list is answered with: some of its last items, and the first of these as a cursor if there are more. -/
structure Answers (cursorAt : ι → κ) (place : β → ι) (limit : Nat) (rest : List ι) (answer : List β × Option κ) : Prop where
  shown : (answer.1.map place).Sublist (lastOf limit rest)
  ended : rest.length ≤ limit → answer.2 = none
  more : limit < rest.length → ∃ x, (lastOf limit rest).head? = some x ∧ answer.2 = some (cursorAt x)

/-- What is asked of every read that is reached. -/
def Steady [DecidableEq ι] (read : Nat → σ → Option κ → (List β × Option κ) × σ) (start : σ) (order : List ι) (listing : σ → List ι)
    (cursorAt : ι → κ) (place : β → ι) (limit : Nat → Nat) : Prop :=
  ∀ n s at_, Reached read start n s (Option.map cursorAt at_) → (∀ x ∈ at_, x ∈ order) →
    (listing s).Sublist order ∧ (∀ x ∈ at_, x ∈ listing s) ∧
      Answers cursorAt place (limit n) (before (listing s) at_) (read n s (at_.map cursorAt)).1

section Split

variable [DecidableEq ι] {order items : List ι} {x y : ι}

theorem takeWhile_ne {l rest : List ι} (h : x ∉ l) : (l ++ x :: rest).takeWhile (fun y => decide (y ≠ x)) = l := by
  rw [takeWhile_append_of_pos, takeWhile_cons_of_neg, append_nil]
  · simp
  · intro y hy
    exact decide_eq_true fun he => h (he ▸ hy)

theorem before_split {l rest : List ι} (h : x ∉ l) : before (l ++ x :: rest) (some x) = l := takeWhile_ne h

omit [DecidableEq ι] in
/-- Some of the items, split at one of them as the others are. -/
theorem split_at (hsub : items.Sublist order) (hnodup : order.Nodup) (hx : x ∈ items) :
    ∃ l r left right, order = left ++ x :: right ∧ items = l ++ x :: r ∧ l.Sublist left ∧ r.Sublist right ∧ x ∉ left ∧ x ∉ l := by
  obtain ⟨left, right, horder, hleft⟩ := eq_append_cons_of_mem (hsub.subset hx)
  rw [horder] at hsub hnodup
  obtain ⟨l, r, hitems, hl, hr⟩ := sublist_append_iff.mp hsub
  have hxl : x ∉ l := fun h => hleft (hl.subset h)
  rw [nodup_append] at hnodup
  have hxright : x ∉ right := (nodup_cons.mp hnodup.2.1).1
  cases hr with
  | cons _ hr =>
    rw [hitems, mem_append] at hx
    exact absurd (hx.elim (fun h => absurd h hxl) fun h => hr.subset h) hxright
  | cons_cons _ hr => exact ⟨l, _, left, right, horder, hitems, hl, hr, hleft, hxl⟩

theorem before_sublist (hsub : items.Sublist order) (hnodup : order.Nodup) (hx : x ∈ items) :
    (before items (some x)).Sublist (before order (some x)) := by
  obtain ⟨l, r, left, right, rfl, rfl, hl, -, hleft, hxl⟩ := split_at hsub hnodup hx
  rw [before_split hleft, before_split hxl]
  exact hl

/-- Whether a listed item stands before another does not depend on the others. -/
theorem mem_before (hsub : items.Sublist order) (hnodup : order.Nodup) (hx : x ∈ items) (hy : y ∈ items)
    (h : y ∈ before order (some x)) : y ∈ before items (some x) := by
  obtain ⟨l, r, left, right, rfl, rfl, hl, hr, hleft, hxl⟩ := split_at hsub hnodup hx
  rw [before_split hleft] at h
  rw [before_split hxl]
  rcases mem_append.mp hy with hy | hy
  · exact hy
  · have hcross := (nodup_append.mp hnodup).2.2 y h
    rcases mem_cons.mp hy with rfl | hy
    · exact absurd h hleft
    · exact absurd rfl (hcross y (mem_cons_of_mem _ (hr.subset hy)))

/-- What is before an item of what is before another. -/
theorem before_before {at_ : Option ι} (hx : x ∈ before order at_) : before (before order at_) (some x) = before order (some x) := by
  cases at_ with
  | none => rfl
  | some c =>
    have hprefix : (before order (some c)) <+: order := List.takeWhile_prefix _
    obtain ⟨rest, hrest⟩ := hprefix
    obtain ⟨l, r, hsplit, hl⟩ := eq_append_cons_of_mem hx
    have horder : order = l ++ x :: (r ++ rest) := by
      rw [← hrest, hsplit, append_assoc, cons_append]
    rw [hsplit, before_split hl, horder, before_split hl]

theorem before_subset {at_ : Option ι} : before items at_ ⊆ items := by
  cases at_ with
  | none => exact List.Subset.refl _
  | some c => exact (takeWhile_sublist _).subset

end Split

section Pages

variable [DecidableEq ι] {read : Nat → σ → Option κ → (List β × Option κ) × σ} {start : σ} {order : List ι} {listing : σ → List ι}
  {cursorAt : ι → κ} {place : β → ι} {limit : Nat → Nat}

omit [DecidableEq ι] in
theorem lastOf_sublist {limit : Nat} {rest : List ι} : (lastOf limit rest).Sublist rest := drop_sublist _ _

/-- What was left of the order before a page, and the page, are what was left before. -/
theorem split_rest {all rest page : List ι} {x : ι} {limit : Nat} (hsub : rest.Sublist all) (hnodup : all.Nodup)
    (hpage : lastOf limit rest = x :: page) :
    ((before all (some x)) ++ lastOf limit rest).Sublist all ∧ (before all (some x)).length < all.length ∧
      ∀ y ∈ rest, y ∉ lastOf limit rest → y ∈ before all (some x) := by
  have hrest : rest = rest.take (rest.length - limit) ++ x :: page := by
    conv_lhs => rw [← take_append_drop (rest.length - limit) rest]
    rw [← hpage]
    rfl
  have hx : x ∈ rest := by
    rw [hrest]
    exact mem_append_right _ mem_cons_self
  obtain ⟨l, r, left, right, rfl, hsplit, hl, hr, hleft, hxl⟩ := split_at hsub hnodup hx
  have hnodupRest := hnodup.sublist hsub
  have hparts : rest.take (rest.length - limit) = l ∧ page = r := by
    rw [hrest] at hsplit
    have hxtake : x ∉ rest.take (rest.length - limit) := by
      rw [hrest, nodup_append] at hnodupRest
      exact fun h => hnodupRest.2.2 x h x mem_cons_self rfl
    have htaken := congrArg (List.takeWhile fun y => decide (y ≠ x)) hsplit
    rw [takeWhile_ne hxtake, takeWhile_ne hxl] at htaken
    rw [htaken] at hsplit
    exact ⟨htaken, (List.cons.inj (append_cancel_left hsplit)).2⟩
  have hbefore : before (left ++ x :: right) (some x) = left := takeWhile_ne hleft
  rw [hbefore, hpage, hparts.2]
  refine ⟨(List.Sublist.refl left).append (hr.cons_cons x), by simp, fun y hy hpage => ?_⟩
  rw [hsplit] at hy
  exact hl.subset ((mem_append.mp hy).resolve_right hpage)

theorem nodup_before (hnodup : order.Nodup) {at_ : Option ι} : (before order at_).Nodup := by
  cases at_ with
  | none => exact hnodup
  | some c => exact hnodup.sublist (takeWhile_sublist _)

theorem rest_sublist {items : List ι} (hsub : items.Sublist order) (hnodup : order.Nodup) {at_ : Option ι}
    (hat : ∀ x ∈ at_, x ∈ items) : (before items at_).Sublist (before order at_) := by
  cases at_ with
  | none => exact hsub
  | some c => exact before_sublist hsub hnodup (hat c rfl)

omit [DecidableEq ι] in
/-- A page with a cursor after it, as a list. -/
theorem Answers.cons {rest : List ι} {limit : Nat} {answer : List β × Option κ} (h : Answers cursorAt place limit rest answer)
    (hmore : limit < rest.length) : ∃ x page, lastOf limit rest = x :: page ∧ answer.2 = some (cursorAt x) := by
  obtain ⟨x, hhead, hcursor⟩ := h.more hmore
  obtain ⟨page, hpage⟩ := head?_eq_some_iff.mp hhead
  exact ⟨x, page, hpage, hcursor⟩

/-- **The reads end, and the pages go backwards.** -/
theorem reads_backward (hnodup : order.Nodup) (hsteady : Steady read start order listing cursorAt place limit) :
    ∃ pages final, Reads read 0 start none pages final ∧ (pages.reverse.flatten.map place).Sublist order := by
  have hfrom : ∀ (left n : Nat) (s : σ) (at_ : Option ι), (before order at_).length = left →
      Reached read start n s (at_.map cursorAt) → (∀ x ∈ at_, x ∈ order) →
        ∃ pages final, Reads read n s (at_.map cursorAt) pages final ∧ (pages.reverse.flatten.map place).Sublist (before order at_) := by
    -- the fewer items are left before the cursor, the sooner the reads end
    intro left
    induction left using Nat.strongRecOn with
    | ind left ih =>
      intro n s at_ hleft hreached hat
      obtain ⟨hsub, hlisted, hanswers⟩ := hsteady n s at_ hreached hat
      have hrest := rest_sublist hsub hnodup hlisted
      by_cases hmore : limit n < (before (listing s) at_).length
      · obtain ⟨x, page, hpage, hcursor⟩ := hanswers.cons hmore
        obtain ⟨hsplit, hshorter, -⟩ := split_rest hrest (nodup_before hnodup) hpage
        have hx : x ∈ before order at_ := by
          have hxlast : x ∈ lastOf (limit n) (before (listing s) at_) := hpage ▸ mem_cons_self
          exact hrest.subset (lastOf_sublist.subset hxlast)
        rw [before_before hx] at hsplit hshorter
        have hread : read n s (at_.map cursorAt) =
            (((read n s (at_.map cursorAt)).1.1, some (cursorAt x)), (read n s (at_.map cursorAt)).2) := by
          rw [← hcursor]
        obtain ⟨pages, final, hreads, hbackward⟩ := ih _ (by omega) (n + 1) _ (some x) rfl (.next hreached hread)
          (fun y hy => some.inj hy ▸ before_subset hx)
        refine ⟨_, final, .next hread hreads, ?_⟩
        rw [reverse_cons, List.flatten_append, flatten_singleton, map_append]
        exact (hbackward.append hanswers.shown).trans hsplit
      · have hread : read n s (at_.map cursorAt) =
            (((read n s (at_.map cursorAt)).1.1, none), (read n s (at_.map cursorAt)).2) := by
          rw [← hanswers.ended (by omega)]
        refine ⟨[_], _, .last hread, ?_⟩
        rw [reverse_singleton, flatten_singleton]
        exact hanswers.shown.trans (lastOf_sublist.trans hrest)
  exact hfrom order.length 0 start none rfl .start fun x hx => nomatch hx

/-- **Of a kind of items one is found**, if one is always listed and no change lists others: whenever a page would hold one,
one is shown. -/
theorem reads_cover (hnodup : order.Nodup) (hsteady : Steady read start order listing cursorAt place limit) {kind : ι → Prop}
    (hsome : ∀ n s c, Reached read start n s c → ∃ x ∈ listing s, kind x)
    (hback : ∀ n s c items cursor t, Reached read start n s c → read n s c = ((items, some cursor), t) →
      ∀ x ∈ listing t, kind x → x ∈ listing s)
    (hshow : ∀ n s at_, Reached read start n s (Option.map cursorAt at_) → (∀ x ∈ at_, x ∈ order) →
      ∀ x ∈ lastOf (limit n) (before (listing s) at_), kind x → ∃ b ∈ (read n s (at_.map cursorAt)).1.1, kind (place b))
    {pages : List (List β)} {final : σ} (hreads : Reads read 0 start none pages final) : ∃ page ∈ pages, ∃ b ∈ page, kind (place b) := by
  have hfrom : ∀ {n : Nat} {s : σ} {c : Option κ} {pages : List (List β)} {final : σ}, Reads read n s c pages final →
      ∀ at_, c = Option.map cursorAt at_ → Reached read start n s c → (∀ x ∈ at_, x ∈ order) →
        (∀ x ∈ listing s, kind x → x ∈ before (listing s) at_) → ∃ page ∈ pages, ∃ b ∈ page, kind (place b) := by
    intro n s c pages final hreads
    induction hreads with
    | @last n s t c items h =>
      rintro at_ rfl hreached hat hahead
      obtain ⟨hsub, hlisted, hanswers⟩ := hsteady n s at_ hreached hat
      obtain ⟨x, hx, hkind⟩ := hsome n s _ hreached
      have hshort : ¬ limit n < (before (listing s) at_).length := fun hmore => by
        obtain ⟨y, page, -, hcursor⟩ := hanswers.cons hmore
        rw [h] at hcursor
        cases hcursor
      have hall : lastOf (limit n) (before (listing s) at_) = before (listing s) at_ := by
        unfold lastOf
        rw [Nat.sub_eq_zero_of_le (by omega), drop_zero]
      obtain ⟨b, hb, hkind⟩ := hshow n s at_ hreached hat x (by rw [hall]; exact hahead x hx hkind) hkind
      rw [h] at hb
      exact ⟨items, mem_singleton_self _, b, hb, hkind⟩
    | @next n s t final c items cursor pages h hrest ih =>
      rintro at_ rfl hreached hat hahead
      obtain ⟨hsub, hlisted, hanswers⟩ := hsteady n s at_ hreached hat
      by_cases hin : ∃ x ∈ lastOf (limit n) (before (listing s) at_), kind x
      · obtain ⟨x, hx, hkind⟩ := hin
        obtain ⟨b, hb, hkind⟩ := hshow n s at_ hreached hat x hx hkind
        rw [h] at hb
        exact ⟨items, mem_cons_self, b, hb, hkind⟩
      · have hmore : limit n < (before (listing s) at_).length := by
          by_contra hno
          have hnone := hanswers.ended (by omega)
          rw [h] at hnone
          cases hnone
        obtain ⟨y, page, hpage, hcursor⟩ := hanswers.cons hmore
        rw [h] at hcursor
        have hcursor : cursor = cursorAt y := some.inj hcursor
        have hrest' := rest_sublist hsub hnodup hlisted
        obtain ⟨-, -, hleft⟩ := split_rest hrest' (nodup_before hnodup) hpage
        have hy : y ∈ before order at_ := by
          have hylast : y ∈ lastOf (limit n) (before (listing s) at_) := hpage ▸ mem_cons_self
          exact hrest'.subset (lastOf_sublist.subset hylast)
        rw [before_before hy] at hleft
        have hreached' : Reached read start (n + 1) t (Option.map cursorAt (some y)) := by
          rw [map_some, ← hcursor]
          exact .next hreached h
        have hat' : ∀ x ∈ some y, x ∈ order := fun x hx => some.inj hx ▸ before_subset hy
        obtain ⟨hsub', hlisted', -⟩ := hsteady (n + 1) t (some y) hreached' hat'
        obtain ⟨z, hz, page', hpage', hfound⟩ := ih (some y) (congrArg some hcursor) (hcursor ▸ hreached') hat' fun x hx hkind => by
          have hxs := hback n s _ items cursor t hreached h x hx hkind
          have hxleft := hleft x (hahead x hxs hkind) fun hxpage => hin ⟨x, hxpage, hkind⟩
          exact mem_before hsub' hnodup (hlisted' y rfl) hx hxleft
        exact ⟨z, mem_cons_of_mem _ hz, page', hpage', hfound⟩
  exact hfrom hreads none rfl .start (fun x hx => nomatch hx) fun x hx _ => hx

omit [DecidableEq ι] in
/-- What is reached lies on the way to the end. -/
theorem Reached.to_final {pages : List (List β)} {final s : σ} {n : Nat} {c : Option κ} (hreads : Reads read 0 start none pages final)
    (h : Reached read start n s c) : ∃ rest, Reads read n s c rest final := by
  induction h with
  | start => exact ⟨pages, hreads⟩
  | next _ hread ih =>
    obtain ⟨rest, hrest⟩ := ih
    cases hrest with
    | last hlast =>
      rw [hread] at hlast
      cases hlast
    | next hnext hrest =>
      rw [hread] at hnext
      cases hnext
      exact ⟨_, hrest⟩

end Pages

end Oreneta.Backward

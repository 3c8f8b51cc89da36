import Oreneta.Lib.Forward
import Oreneta.Lib.Infix
import Oreneta.Lib.Json
import Oreneta.Paging.Conversation

/-!
# Pages of the starred list

`mail_model.rs`: the starred cards of all accounts, searched, sorted and cut into pages (`starred_page`).  A page goes on after
the card its cursor names, or starts again at the first where that card is not found.

* `starredPage` — one page; `Serde` — the JSON of cursors.
* `starredListed` — the cards a view shows, in order; `Kept` — what a cursor has to find in them.
* `starredPage_answer` — with it, a page is that of the cards after the cursor's.
* `starred_forward_iff` — following the cursors while cards go from the list gives the others in order, none of them twice,
  exactly if every cursor finds that.
-/

namespace Oreneta.Paging

open Text Keyset List

/-- What a cursor says, in JSON. -/
def cursorJson (date : Int) (id : Str) : Json := .obj [("date", .int date), ("id", .str id)]

/-- `serde_json` for cursors. -/
structure Serde where
  /-- `serde_json::to_vec`. -/
  toVec : Json → List Nat
  toVec_octet : ∀ value, ∀ n ∈ toVec value, Base64.Octet n
  /-- `serde_json::from_slice`. -/
  fromSlice : List Nat → Option Json
  fromSlice_toVec : ∀ date id, I64.min ≤ date ∧ date ≤ I64.max →
    fromSlice (toVec (cursorJson date id)) = some (cursorJson date id)

def STARRED : Str := "starred:"

/-- The texts of a card a query is looked for in. -/
def SEARCHED : List String := ["subject", "preview", "from_name", "from_addr", "account_id", "folder_id"]

/-- A card's date and id. -/
abbrev Place := Option Int × Option Str

def place (item : Json) : Place := ((item.get "date").bind Json.asI64, (item.get "id").bind Json.asStr)

/-- `Ord` of dates and ids that may be missing. -/
def Place.lt : Place → Place → Prop := pairLt (Option.lt (· < ·)) (Option.lt (· < ·))

instance : DecidableRel Place.lt := fun _ _ => inferInstanceAs (Decidable (pairLt _ _ _ _))

/-- Newest first. -/
def Place.before : Place → Place → Prop := fun a b => Place.lt b a

instance : DecidableRel Place.before := fun a b => inferInstanceAs (Decidable (Place.lt b a))

section Starred

variable (toLowercase : Str → Str) (S : Serde)

/-- `encode_starred_cursor`. -/
def encodeStarredCursor (date : Int) (id : Str) : Str :=
  STARRED ++ Base64.encode Base64.urlSafe (S.toVec (cursorJson date id))

/-- `decode_starred_cursor`. -/
def decodeStarredCursor (cursor : Str) : Option (Int × Str) := do
  let bytes ← (stripPrefix STARRED cursor).bind (Base64.decode Base64.urlSafe)
  let value ← S.fromSlice bytes
  let date ← (value.get "date").bind Json.asI64
  let id ← (value.get "id").bind Json.asStr
  some (date, id)

def unread (item : Json) : Bool := ((item.get "unread").bind Json.asBool).getD false

/-- One of the card's texts has the query in it; the query is in lower case. -/
def matchesQuery (query : Str) (item : Json) : Bool :=
  SEARCHED.any fun field => ((item.get field).bind Json.asStr).any fun value => Text.contains (toLowercase value) query

/-- The cards a view shows, in order. -/
def starredListed (query filter : Str) (items : List Json) : List Json :=
  let items := if asciiLower filter = "unread" then items.filter unread else items
  let query := toLowercase (trim query)
  let items := if query = [] then items else items.filter (matchesQuery toLowercase query)
  arrange Place.before place items

/-- Where a page starts: behind the card its cursor names. -/
def startOf (items : List Json) (beforeCursor : Option Str) : Nat :=
  (((beforeCursor.bind (decodeStarredCursor S)).bind fun (date, id) =>
    items.findIdx? fun item => decide (place item = (some date, some id))).map (· + 1)).getD 0

/-- `starred_page`: the items, and `next_cursor`. -/
def starredPage (items : List Json) (query filter : Str) (limit : Nat) (beforeCursor : Option Str) : List Json × Option Str :=
  let items := starredListed toLowercase query filter items
  let start := startOf S items beforeCursor
  let end_ := min (start + limit) items.length
  let page := (items.take end_).drop start
  (page, if end_ < items.length then
      page.getLast?.bind fun item => do
        let date ← (item.get "date").bind Json.asI64
        let id ← (item.get "id").bind Json.asStr
        some (encodeStarredCursor S date id)
    else none)

/-- The reads of a list that changes, `items` being what it holds at each. -/
def starredReads (items : Nat → List Json) (query filter : Str) (limits : Nat → Nat) (n : Nat) (cursor : Option Str) :
    Option (List Json × Option Str) :=
  some (starredPage toLowercase S (items n) query filter (limits n) cursor)

/-- Cards have a date and an id, no two the same one. -/
structure Cards (items : List Json) : Prop where
  dated : ∀ item ∈ items, ∃ date id, place item = (some date, some id)
  distinct : (items.map fun item => (place item).2).Nodup

/-- **Paging forward**: following the cursors ends, with no card twice, in order, and with every card that is listed throughout. -/
structure PagesForward (items : Nat → List Json) (query filter : Str) (limits : Nat → Nat) (pages : List (List Json)) : Prop where
  walk : Walk (starredReads toLowercase S items query filter limits) 0 none pages
  once : (pages.flatten.map fun item => (place item).2).Nodup
  ordered : pages.flatten.Pairwise fun a b => Place.before (place a) (place b)
  complete : ∀ item, (∀ n < pages.length, item ∈ starredListed toLowercase query filter (items n)) → item ∈ pages.flatten

/-- The card a cursor names is one of those listed, or all that are listed come after it. -/
def Kept (cards : List Json) (cursor : Str) : Prop :=
  ∃ date id, decodeStarredCursor S cursor = some (date, id) ∧
    ((∃ card ∈ cards, place card = (some date, some id)) ∨ ∀ card ∈ cards, Place.before (some date, some id) (place card))

/-! ## Order -/

theorem strict_option {α : Type} {lt : α → α → Prop} (h : Strict lt) : Strict (Option.lt lt) := by
  refine ⟨?_, ?_, ?_⟩
  · rintro (_ | a)
    · exact id
    · exact h.irrefl a
  · rintro (_ | a) (_ | b) (_ | c) hab hbc <;> first | trivial | exact hab.elim | exact hbc.elim | exact h.trans hab hbc
  · rintro (_ | a) (_ | b)
    · exact .inr (.inl rfl)
    · exact .inl trivial
    · exact .inr (.inr trivial)
    · rcases h.total a b with hr | rfl | hr
      · exact .inl hr
      · exact .inr (.inl rfl)
      · exact .inr (.inr hr)

theorem strict_before : Strict Place.before :=
  (strict_pairLt (strict_option strict_lt) (strict_option strict_lt)).flip

/-! ## Cursors -/

variable {date : Int}

theorem asI64_range {value : Json} (h : value.asI64 = some date) : I64.min ≤ date ∧ date ≤ I64.max := by
  unfold Json.asI64 at h
  split at h
  · split at h
    · cases h
      assumption
    · cases h
  · cases h

variable {S}

/-- A cursor that was written is read back. -/
theorem decodeStarredCursor_encode (h : I64.min ≤ date ∧ date ≤ I64.max) (id : Str) :
    decodeStarredCursor S (encodeStarredCursor S date id) = some (date, id) := by
  have hdate : ((cursorJson date id).get "date").bind Json.asI64 = some date := if_pos h
  have hid : ((cursorJson date id).get "id").bind Json.asStr = some id := rfl
  unfold decodeStarredCursor encodeStarredCursor
  rw [stripPrefix_append, Option.bind_some, Base64.decode_encode _ (S.toVec_octet _)]
  simp only [Option.bind_eq_bind, Option.bind_some]
  rw [S.fromSlice_toVec date id h, Option.bind_some, hdate, Option.bind_some, hid, Option.bind_some]

/-- The cursor of a card. -/
def cursorAt (S : Serde) (item : Json) : Str := encodeStarredCursor S ((place item).1.getD 0) ((place item).2.getD [])

theorem cursorAt_eq {item : Json} {id : Str} (h : place item = (some date, some id)) :
    cursorAt S item = encodeStarredCursor S date id := by
  unfold cursorAt
  rw [h]
  rfl

theorem decode_cursorAt {item : Json} {id : Str} (h : place item = (some date, some id)) :
    decodeStarredCursor S (cursorAt S item) = some (date, id) := by
  rw [cursorAt_eq h]
  obtain ⟨value, -, hvalue⟩ := Option.bind_eq_some_iff.mp (congrArg Prod.fst h)
  exact decodeStarredCursor_encode (asI64_range hvalue) id

/-! ## What is listed -/

variable {toLowercase} {query filter : Str}

/-- The cards a view shows. -/
def shown (toLowercase : Str → Str) (query filter : Str) (item : Json) : Bool :=
  (decide (asciiLower filter ≠ "unread") || unread item) &&
    (decide (toLowercase (trim query) = []) || matchesQuery toLowercase (toLowercase (trim query)) item)

theorem listed_eq (items : List Json) :
    starredListed toLowercase query filter items = arrange Place.before place (items.filter (shown toLowercase query filter)) := by
  unfold starredListed
  refine congrArg (arrange Place.before place) ?_
  by_cases hfilter : asciiLower filter = "unread" <;> by_cases hquery : toLowercase (trim query) = []
  · rw [if_pos hfilter, if_pos hquery]
    exact filter_congr fun item _ => by simp [shown, hfilter, hquery]
  · rw [if_pos hfilter, if_neg hquery, filter_filter]
    exact filter_congr fun item _ => by simp [shown, hfilter, hquery, Bool.and_comm]
  · rw [if_neg hfilter, if_pos hquery]
    exact (filter_eq_self.mpr fun item _ => by rw [shown, decide_eq_true hfilter, decide_eq_true hquery]; rfl).symm
  · rw [if_neg hfilter, if_neg hquery]
    exact filter_congr fun item _ => by rw [shown, decide_eq_true hfilter, decide_eq_false hquery]; rfl

theorem mem_listed {items : List Json} {item : Json} :
    item ∈ starredListed toLowercase query filter items ↔ item ∈ items ∧ shown toLowercase query filter item = true := by
  rw [listed_eq, (arrange_perm_self _).mem_iff, mem_filter]

theorem listed_sorted {items : List Json} (h : Cards items) :
    (starredListed toLowercase query filter items).Pairwise fun a b => Place.before (place a) (place b) := by
  rw [listed_eq]
  refine arrange_strict strict_before (List.Nodup.of_map Prod.snd ?_)
  rw [map_map]
  exact h.distinct.sublist (filter_sublist.map _)

theorem Cards.listed {items : List Json} (h : Cards items) : Cards (starredListed toLowercase query filter items) := by
  refine ⟨fun item hitem => h.dated item (mem_listed.mp hitem).1, ?_⟩
  rw [listed_eq]
  have hperm := @arrange_perm_self _ _ Place.before _ place (items.filter (shown toLowercase query filter))
  exact (hperm.map _).nodup_iff.mpr (h.distinct.sublist (filter_sublist.map _))

theorem Cards.sublist {items items' : List Json} (h : Cards items) (hsub : items'.Sublist items) : Cards items' :=
  ⟨fun item hitem => h.dated item (hsub.subset hitem), h.distinct.sublist (hsub.map _)⟩

/-! ## One page -/

theorem startOf_cursor {cards : List Json} {cursor : Str} {id : Str}
    (h : decodeStarredCursor S cursor = some (date, id)) : startOf S cards (some cursor) =
      ((cards.findIdx? fun item => decide (place item = (some date, some id))).map (· + 1)).getD 0 := by
  unfold startOf
  rw [Option.bind_some, h, Option.bind_some]

theorem window {α : Type} (front back : List α) (limit : Nat) :
    ((front ++ back).take (min (front.length + limit) (front ++ back).length)).drop front.length = back.take limit := by
  rw [← take_eq_take_min, take_length_add_append, drop_left]

/-- A page holds the first cards behind its start. -/
theorem starredPage_split (front back : List Json) {items : List Json} {limit : Nat} {beforeCursor : Option Str} (hitems : Cards items)
    (hlisted : starredListed toLowercase query filter items = front ++ back)
    (hstart : startOf S (front ++ back) beforeCursor = front.length) :
    starredPage toLowercase S items query filter limit beforeCursor = answer (cursorAt S) id back limit := by
  have hmore : min (front.length + limit) (front ++ back).length < (front ++ back).length ↔ limit < back.length := by
    rw [length_append]
    omega
  have hcursor : ∀ item ∈ (back.take limit).getLast?, (do
      let date ← (item.get "date").bind Json.asI64
      let id ← (item.get "id").bind Json.asStr
      some (encodeStarredCursor S date id)) = some (cursorAt S item) := by
    intro item hitem
    have hmem : item ∈ starredListed toLowercase query filter items := by
      rw [hlisted]
      exact mem_append_right _ (mem_of_mem_take (mem_of_getLast? hitem))
    obtain ⟨date, id, hplace⟩ := hitems.listed.dated item hmem
    have hdate : (item.get "date").bind Json.asI64 = some date := congrArg Prod.fst hplace
    have hid : (item.get "id").bind Json.asStr = some id := congrArg Prod.snd hplace
    rw [cursorAt_eq hplace, hdate, hid]
    rfl
  unfold starredPage answer
  rw [hlisted]
  dsimp only
  rw [hstart, window, map_id]
  refine Prod.ext rfl ?_
  dsimp only
  by_cases h : limit < back.length
  · rw [if_pos (hmore.mpr h), if_pos h]
    cases hlast : (back.take limit).getLast? with
    | none => rfl
    | some item => exact hcursor item hlast
  · rw [if_neg fun he => h (hmore.mp he), if_neg h]

/-- Cards in order, split at one of them. -/
theorem findIdx_split {front back : List Json} {card : Json}
    (hsorted : (front ++ card :: back).Pairwise fun a b => Place.before (place a) (place b)) :
    (front ++ card :: back).findIdx? (fun item => decide (place item = place card)) = some front.length := by
  have hfront : front.findIdx? (fun item => decide (place item = place card)) = none := by
    rw [findIdx?_eq_none_iff]
    intro item hitem
    refine decide_eq_false fun he => strict_before.irrefl (place card) ?_
    have hbefore := (pairwise_append.mp hsorted).2.2 item hitem card mem_cons_self
    rwa [he] at hbefore
  rw [findIdx?_append, hfront, findIdx?_cons, if_pos (decide_eq_true rfl)]
  simp

theorem after_split {front back : List Json} {card : Json}
    (hsorted : (front ++ card :: back).Pairwise fun a b => Place.before (place a) (place b)) :
    (front ++ card :: back).filter (fun item => decide (Place.before (place card) (place item))) = back := by
  obtain ⟨-, hback, hcross⟩ := pairwise_append.mp hsorted
  have hfront : front.filter (fun item => decide (Place.before (place card) (place item))) = [] := by
    refine filter_eq_nil_iff.mpr fun item hitem hafter => ?_
    exact strict_before.irrefl _ (strict_before.trans (of_decide_eq_true hafter) (hcross item hitem card mem_cons_self))
  have hrest : back.filter (fun item => decide (Place.before (place card) (place item))) = back :=
    filter_eq_self.mpr fun item hitem => decide_eq_true ((pairwise_cons.mp hback).1 item hitem)
  rw [filter_append, hfront, nil_append, filter_cons_of_neg (by simpa using strict_before.irrefl _), hrest]

/-- **A page is that of the cards after the cursor's**, if the cursor finds what it has to. -/
theorem starredPage_answer {items : List Json} (hitems : Cards items) {c : Option Json} (limit : Nat)
    (hdated : ∀ card ∈ c, ∃ date id, place card = (some date, some id))
    (hkept : ∀ card ∈ c, Kept S (starredListed toLowercase query filter items) (cursorAt S card)) :
    starredPage toLowercase S items query filter limit (c.map (cursorAt S)) =
      answer (cursorAt S) id (after Place.before place (starredListed toLowercase query filter items) c) limit := by
  have hsorted : (starredListed toLowercase query filter items).Pairwise _ := listed_sorted hitems
  cases c with
  | none => exact starredPage_split [] _ hitems rfl rfl
  | some card =>
    obtain ⟨date, id, hplace⟩ := hdated card rfl
    obtain ⟨date', id', hread, hfound⟩ := hkept card rfl
    rw [decode_cursorAt hplace, Option.some.injEq, Prod.mk.injEq] at hread
    obtain ⟨rfl, rfl⟩ := hread
    rw [← hplace] at hfound
    dsimp only [Keyset.after]
    rcases hfound with ⟨same, hsame, heq⟩ | hall
    · obtain ⟨front, back, hsplit⟩ := append_of_mem hsame
      rw [hsplit] at hsorted
      rw [hsplit, ← heq, after_split hsorted]
      refine starredPage_split (front ++ [same]) back hitems (by rw [hsplit]; simp) ?_
      rw [Option.map_some, startOf_cursor (decode_cursorAt hplace), ← hplace, ← heq, append_assoc, singleton_append,
        findIdx_split hsorted]
      simp
    · have hnone : (starredListed toLowercase query filter items).findIdx? (fun item => decide (place item = place card)) = none := by
        rw [findIdx?_eq_none_iff]
        intro item hitem
        refine decide_eq_false fun he => strict_before.irrefl (place card) ?_
        have hbefore := hall item hitem
        rwa [he] at hbefore
      rw [filter_eq_self.mpr fun item hitem => decide_eq_true (hall item hitem)]
      refine starredPage_split [] _ hitems rfl ?_
      rw [Option.map_some, startOf_cursor (decode_cursorAt hplace), ← hplace, nil_append, hnone]
      rfl

/-! ## Whole runs -/

variable {items : Nat → List Json} {limits : Nat → Nat}

variable {n : Nat} {cursor : Option Str}

theorem page_listed {page : List Json} {next : Option Str}
    (h : starredReads toLowercase S items query filter limits n cursor = some (page, next)) :
    page ⊆ starredListed toLowercase query filter (items n) := by
  intro card hcard
  have hpage : (starredPage toLowercase S (items n) query filter (limits n) cursor).1 = page := congrArg Prod.fst (Option.some.inj h)
  rw [← hpage] at hcard
  exact mem_of_mem_take (mem_of_mem_drop hcard)

theorem walk_listed {pages : List (List Json)} (h : Walk (starredReads toLowercase S items query filter limits) n cursor pages) :
    ∀ card ∈ pages.flatten, ∃ k, card ∈ starredListed toLowercase query filter (items k) := by
  induction h with
  | last hpage => exact fun card hcard => ⟨_, page_listed hpage (by simpa using hcard)⟩
  | next hpage _ ih =>
    intro card hcard
    rw [flatten_cons, mem_append] at hcard
    rcases hcard with hcard | hcard
    · exact ⟨_, page_listed hpage hcard⟩
    · exact ih card hcard

theorem reached_listed {read : List (List Json)}
    (h : Reached (starredReads toLowercase S items query filter limits) n cursor read) :
    ∀ card ∈ read.flatten, ∃ k, card ∈ starredListed toLowercase query filter (items k) := by
  induction h with
  | start => exact fun card hcard => absurd hcard (by simp)
  | next _ hpage ih =>
    intro card hcard
    rw [List.flatten_append, mem_append] at hcard
    rcases hcard with hcard | hcard
    · exact ih card hcard
    · exact ⟨_, page_listed hpage (by simpa using hcard)⟩

/-- A cursor a read is reached with is that of a card read before. -/
theorem reached_cursor {cursor : Str} {read : List (List Json)} (hitems : ∀ n, Cards (items n))
    (h : Reached (starredReads toLowercase S items query filter limits) n (some cursor) read) :
    ∃ card ∈ read.flatten, (∃ date id, place card = (some date, some id)) ∧ cursor = cursorAt S card := by
  have hlisted := reached_listed h
  generalize hc : some cursor = c at h
  cases h with
  | start => cases hc
  | @next n c' read page cursor' _ hpage =>
    cases hc
    have hnext := congrArg Prod.snd (Option.some.inj hpage)
    have hshown := congrArg Prod.fst (Option.some.inj hpage)
    dsimp only [starredPage] at hnext hshown
    split at hnext
    · obtain ⟨card, hlast, hcursor⟩ := Option.bind_eq_some_iff.mp hnext
      rw [hshown] at hlast
      have hcard : card ∈ (read ++ [page]).flatten :=
        mem_flatten.mpr ⟨page, mem_append_right _ (mem_singleton_self _), mem_of_getLast? hlast⟩
      obtain ⟨k, hk⟩ := hlisted card hcard
      obtain ⟨date, id, hplace⟩ := (hitems k).listed.dated card hk
      have hdate : (card.get "date").bind Json.asI64 = some date := congrArg Prod.fst hplace
      have hid : (card.get "id").bind Json.asStr = some id := congrArg Prod.snd hplace
      rw [hdate, hid] at hcursor
      refine ⟨card, hcard, ⟨date, id, hplace⟩, ?_⟩
      rw [cursorAt_eq hplace]
      exact (Option.some.inj hcursor).symm
    · cases hnext

/-- Where the cursor does not find what it has to, a card comes again that is before the cursor's. -/
theorem starred_again {card : Json} (hitems : Cards (items n)) {limit : Nat} (hlimit : 0 < limit)
    (hdated : ∃ date id, place card = (some date, some id))
    (hkept : ¬ Kept S (starredListed toLowercase query filter (items n)) (cursorAt S card)) :
    ∃ again ∈ (starredPage toLowercase S (items n) query filter limit (some (cursorAt S card))).1,
      Place.before (place again) (place card) := by
  obtain ⟨date, id, hplace⟩ := hdated
  have hsorted : (starredListed toLowercase query filter (items n)).Pairwise _ := listed_sorted hitems
  have hread : decodeStarredCursor S (cursorAt S card) = some (date, id) := decode_cursorAt hplace
  generalize hcards : starredListed toLowercase query filter (items n) = cards at hkept hsorted
  have hnone : ∀ other ∈ cards, place other ≠ place card := fun other hother he =>
    hkept ⟨date, id, hread, .inl ⟨other, hother, he.trans hplace⟩⟩
  have hbefore : ∃ other ∈ cards, Place.before (place other) (place card) := by
    by_contra hno
    refine hkept ⟨date, id, hread, .inr fun other hother => ?_⟩
    rw [← hplace]
    rcases strict_before.total (place card) (place other) with hr | he | hr
    · exact hr
    · exact absurd he.symm (hnone other hother)
    · exact absurd ⟨other, hother, hr⟩ hno
  have hstart : startOf S cards (some (cursorAt S card)) = 0 := by
    rw [startOf_cursor hread, ← hplace, findIdx?_eq_none_iff.mpr fun other hother => decide_eq_false (hnone other hother)]
    rfl
  rw [starredPage_split [] _ hitems hcards hstart]
  obtain ⟨other, hother, hr⟩ := hbefore
  cases cards with
  | nil => cases hother
  | cons first rest =>
    refine ⟨first, ?_, ?_⟩
    · obtain ⟨k, rfl⟩ := Nat.exists_eq_succ_of_ne_zero (Nat.pos_iff_ne_zero.mp hlimit)
      simp [answer]
    · rcases mem_cons.mp hother with rfl | hother
      · exact hr
      · exact strict_before.trans ((pairwise_cons.mp hsorted).1 other hother) hr

/-- **The starred list pages forward** while cards go from it exactly if every cursor names a card that is still listed, or no
card up to that one is. -/
theorem starred_forward_iff (toLowercase : Str → Str) (S : Serde) (items : Nat → List Json) (query filter : Str) (limits : Nat → Nat)
    (hcards : Cards (items 0)) (hremoved : ∀ n, (items (n + 1)).Sublist (items n)) (hlimits : ∀ n, 0 < limits n) :
    (∃ pages, PagesForward toLowercase S items query filter limits pages) ↔
      ∀ n cursor read, Reached (starredReads toLowercase S items query filter limits) n (some cursor) read →
        Kept S (starredListed toLowercase query filter (items n)) cursor := by
  have hitems : ∀ n, Cards (items n) := by
    intro n
    induction n with
    | zero => exact hcards
    | succ n ih => exact ih.sublist (hremoved n)
  constructor
  · rintro ⟨pages, hpages⟩ n cursor read hreached
    obtain ⟨card, hcard, hdated, rfl⟩ := reached_cursor hitems hreached
    by_contra hkept
    obtain ⟨again, hagain, hbefore⟩ := starred_again (hitems n) (hlimits n) hdated hkept
    obtain ⟨rest, hrest, rfl⟩ := hpages.walk.reached hreached
    -- the page that is read there is the first of the rest
    obtain ⟨page, next, more, hpage, rfl⟩ := hrest.first
    have hmem : again ∈ (page :: more).flatten := by
      have hfirst : (starredPage toLowercase S (items n) query filter (limits n) (some (cursorAt S card))).1 = page :=
        congrArg Prod.fst (Option.some.inj hpage)
      rw [← hfirst, flatten_cons]
      exact mem_append_left _ hagain
    have hordered := hpages.ordered
    rw [List.flatten_append, pairwise_append] at hordered
    exact strict_before.irrefl _ (strict_before.trans hbefore (hordered.2.2 card hcard again hmem))
  · intro hkept
    have hpage : ∀ n c read, Reached (starredReads toLowercase S items query filter limits) n (Option.map (cursorAt S) c) read →
        (∀ card ∈ c, card ∈ read.flatten) → starredReads toLowercase S items query filter limits n (c.map (cursorAt S)) =
          some (answer (cursorAt S) id (after Place.before place (starredListed toLowercase query filter (items n)) c) (limits n)) := by
      intro n c read hreached hread
      refine congrArg some (starredPage_answer (hitems n) (limits n) (fun card hcard => ?_) fun card hcard => ?_)
      · obtain ⟨k, hk⟩ := reached_listed hreached card (hread card hcard)
        exact (hitems k).listed.dated card hk
      · rw [hcard] at hreached
        exact hkept n _ read hreached
    have hshrink : ∀ n,
        starredListed toLowercase query filter (items (n + 1)) ⊆ starredListed toLowercase query filter (items n) := fun n card hcard =>
      mem_listed.mpr ⟨(hremoved n).subset (mem_listed.mp hcard).1, (mem_listed.mp hcard).2⟩
    obtain ⟨pages, hwalk, hordered, hcomplete⟩ :=
      walk_forward strict_before (fun n => listed_sorted (hitems n)) hshrink hlimits hpage
    have hfirst : ∀ k, (items k).Sublist (items 0) := by
      intro k
      induction k with
      | zero => exact List.Sublist.refl _
      | succ k ih => exact (hremoved k).trans ih
    refine ⟨pages, hwalk, ?_, hordered, hcomplete⟩
    rw [List.Nodup, pairwise_map]
    refine hordered.imp_of_mem fun {a b} ha hb hbefore he => ?_
    obtain ⟨k, hk⟩ := walk_listed hwalk a ha
    obtain ⟨l, hl⟩ := walk_listed hwalk b hb
    have hsame : a = b := inj_on_of_nodup_map hcards.distinct ((hfirst k).subset (mem_listed.mp hk).1)
      ((hfirst l).subset (mem_listed.mp hl).1) he
    rw [hsame] at hbefore
    exact strict_before.irrefl _ hbefore

end Starred

/-! ## Runs -/

/-- The JSON of a cursor, read as it is written. -/
def readCursorJson (s : Str) : Option Json := do
  let s ← stripPrefix "\x7b\"date\":" s
  let (date, s) ← splitOnce ',' s
  let date ← Decimal.parseSigned date
  let s ← stripPrefix "\"id\":" s
  let (id, _) ← Json.quoted s
  some (cursorJson date id)

theorem readCursorJson_render (date : Int) (id : Str) : readCursorJson (cursorJson date id).render = some (cursorJson date id) := by
  have hshape : (cursorJson date id).render =
      "\x7b\"date\":" ++ (Decimal.ofInt date ++ ',' :: ("\"id\":" ++ (Quoted.quote id ++ ['\x7d']))) := by
    simp [cursorJson, Json.render, Json.renderEntries, join, Quoted.quote, Quoted.escape]
  have hdate : ',' ∉ Decimal.ofInt date := fun hm => by
    rcases Decimal.mem_ofInt hm with h | h <;> exact absurd h (by decide)
  unfold readCursorJson
  rw [hshape, stripPrefix_append]
  simp only [Option.bind_eq_bind, Option.bind_some]
  rw [splitOnce_append _ hdate]
  simp only [Option.bind_some]
  rw [Decimal.parseSigned_ofInt, Option.bind_some, stripPrefix_append, Option.bind_some, Json.quoted_append]
  rfl

def plainSerde : Serde where
  toVec := fun value => Utf8.encode value.render
  toVec_octet := fun _ _ hn => Utf8.encode_lt hn
  fromSlice := fun bytes => (Utf8.decode bytes).bind readCursorJson
  fromSlice_toVec := fun date id _ => by rw [Utf8.decode_encode, Option.bind_some, readCursorJson_render]

/-- A card with a name for its id. -/
def card (id : String) (date : Int) : Json := .obj [("id", .str id.toList), ("date", .int date)]

/-- Three starred conversations; the second is unstarred once it has been shown. -/
def unstarring : Nat → List Json
  | 0 => [card "three" 300, card "two" 200, card "one" 100]
  | _ => [card "three" 300, card "one" 100]

theorem unstarring_cards : ∀ n, Cards (unstarring n)
  | 0 => ⟨by simp [unstarring, card, place, Json.get, lookup_cons, Json.asI64, Json.asStr, I64.min, I64.max], by decide⟩
  | _ + 1 => ⟨by simp [unstarring, card, place, Json.get, lookup_cons, Json.asI64, Json.asStr, I64.min, I64.max],
      show (List.map (fun item => (place item).2) [card "three" 300, card "one" 100]).Nodup by decide⟩

/-- The list starts again. -/
theorem unstarring_again : ¬ ∃ pages, PagesForward asciiLower plainSerde unstarring [] "all" (fun _ => 2) pages := by
  rintro ⟨pages, h⟩
  have hstart : startOf plainSerde ([] ++ [card "three" 300, card "one" 100]) (some (cursorAt plainSerde (card "two" 200))) = 0 := by
    rw [startOf_cursor (decode_cursorAt rfl)]
    rfl
  have hwalk : Walk (starredReads asciiLower plainSerde unstarring [] "all" fun _ => 2) 0 none
      [[card "three" 300, card "two" 200], [card "three" 300, card "one" 100]] :=
    .next rfl (.last (congrArg some (starredPage_split [] _ (unstarring_cards 1) rfl hstart)))
  have hpages := h.walk.unique hwalk
  have honce := h.once
  rw [hpages] at honce
  exact absurd honce (by decide)

/-- The same conversations, the first unstarred while no other has been shown. -/
def unstarringFirst : Nat → List Json
  | 0 => [card "three" 300, card "two" 200, card "one" 100]
  | _ => [card "two" 200, card "one" 100]

/-- The list goes on, though its cursor names no card that is left. -/
theorem unstarringFirst_forward : (∃ pages, PagesForward asciiLower plainSerde unstarringFirst [] "all" (fun _ => 1) pages) ∧
      ∀ n cursor read,
        Reached (starredReads asciiLower plainSerde unstarringFirst [] "all" fun _ => 1) n (some cursor) read →
          Kept plainSerde (starredListed asciiLower [] "all" (unstarringFirst n)) cursor := by
  have hcards : Cards (unstarringFirst 0) := unstarring_cards 0
  have hlater : Cards (unstarringFirst 1) := hcards.sublist (sublist_cons_self _ _)
  have hremoved : ∀ n, (unstarringFirst (n + 1)).Sublist (unstarringFirst n)
    | 0 => sublist_cons_self _ _
    | _ + 1 => List.Sublist.refl _
  have hfirst : startOf plainSerde ([] ++ [card "two" 200, card "one" 100]) (some (cursorAt plainSerde (card "three" 300))) = 0 := by
    rw [startOf_cursor (decode_cursorAt rfl)]
    rfl
  have hsecond : startOf plainSerde ([card "two" 200] ++ [card "one" 100]) (some (cursorAt plainSerde (card "two" 200))) = 1 := by
    rw [startOf_cursor (decode_cursorAt rfl)]
    rfl
  have hwalk : Walk (starredReads asciiLower plainSerde unstarringFirst [] "all" fun _ => 1) 0 none
      [[card "three" 300], [card "two" 200], [card "one" 100]] :=
    .next rfl (.next (congrArg some (starredPage_split [] _ hlater rfl hfirst))
      (.last (congrArg some (starredPage_split [card "two" 200] _ hlater rfl hsecond))))
  have hpages : ∃ pages, PagesForward asciiLower plainSerde unstarringFirst [] "all" (fun _ => 1) pages := by
    refine ⟨_, hwalk, by decide, by decide, fun item hitem => ?_⟩
    have hlast : item ∈ [card "two" 200, card "one" 100] := hitem 1 (by decide)
    exact mem_cons_of_mem _ hlast
  exact ⟨hpages, (starred_forward_iff asciiLower plainSerde unstarringFirst [] "all" (fun _ => 1) hcards hremoved
    fun _ => Nat.one_pos).mp hpages⟩

end Oreneta.Paging

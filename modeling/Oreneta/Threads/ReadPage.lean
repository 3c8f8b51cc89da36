import Oreneta.Lib.Backward
import Oreneta.Lib.Table
import Oreneta.Threads.Conversation

/-!
# A page of a conversation

`read_thread_page` of `thread_read.rs`, for a read with a page size: which headers a page holds, and the cursor after it.

* `saveCachedMessage` — a fetched body overwrites what a row shows, and tells its Message-ID.
* `threadHeaders` — the headers of the conversation, with the branch picked out and all drafts but the newest left out.
* `parseThreadCursor_threadCursor` — a cursor names the place of a header.
* `slice` — the part of the headers that is the page, and the next cursor.
* `readThreadPage` — the page, with the newest body that is missing fetched and copies left out.
* `turn` — a read, and what is cached after it.

What the page shows of each message is left out.  A read fails only where no header has a cached row; every header has one.
-/

namespace Oreneta.Threads.ReadPage

open Paging Text Decimal Base64 Keyset List Option

/-- What is asked for, besides the page. -/
structure ThreadReadArgs where
  account : Str
  folder : Str
  threadKey : Str
  subjectFilter : Option Str
  deriving DecidableEq, Repr

/-- A fetched message: what `save_cached_message` writes of it that a header shows. -/
structure Body where
  subject : Str
  fromName : Str
  fromAddr : Str
  date : Int
  messageId : Str
  deriving DecidableEq, Repr

/-- Where a message is. -/
structure Place where
  account : Str
  folder : Str
  uid : Nat
  deriving DecidableEq, Repr

def rowPlace (row : StoredRow) : Place := ⟨row.account, row.folder, row.uid⟩

/-- `ON CONFLICT DO UPDATE`; the Message-ID goes into the `json`. -/
def overwrite (body : Body) (row : StoredRow) : StoredRow :=
  { row with
    subject := body.subject
    fromName := body.fromName
    fromAddr := body.fromAddr
    date := body.date
    messageId := some body.messageId }

def newRow (rows : List StoredRow) (place : Place) (body : Body) : StoredRow :=
  overwrite body
    { id := (rows.map StoredRow.id).foldr max 0 + 1, account := place.account, folder := place.folder, uid := place.uid, subject := [],
      fromName := [], fromAddr := [], date := 0, seen := 0, starred := 0, threadKey := none, messageId := none, inReplyTo := none }

def saveCachedMessage (rows : List StoredRow) (place : Place) (body : Body) : List StoredRow :=
  Table.upsert rowPlace (newRow rows place body) (overwrite body) rows

/-! ## The headers -/

/-- The thread key is made up from the uid of a message without threading headers. -/
def isLocal (args : ThreadReadArgs) : Bool := "uid:".toList.isPrefixOf args.threadKey

/-- `get_thread_headers`; rows of one date and uid stand as in the table. -/
def getThreadHeaders (rows : List StoredRow) (account folder threadKey : Str) : List ThreadHeader :=
  (arrange earlier (fun row => (row.date, row.uid)) (rows.filter (fun row =>
    row.account = account && row.folder = folder && row.conversation = threadKey))).map (fun row => { row.header with folder := [] })

/-- The header of a message whose body is cached before its header. -/
def bareHeader (folder threadKey : Str) (uid : Nat) : ThreadHeader :=
  { uid, subject := [], fromName := [], fromAddr := [], date := 0, seen := false, starred := false, threadKey, folder, inReplyTo := [] }

def headersOf (rows : List StoredRow) (args : ThreadReadArgs) : List ThreadHeader :=
  if isLocal args then
    let headers := getThreadHeaders rows args.account args.folder args.threadKey
    if headers.isEmpty then
      match parseBelow (2 ^ 32) (args.threadKey.drop "uid:".toList.length) with
      | some uid =>
        if (Table.lookup rowPlace rows ⟨args.account, args.folder, uid⟩).isSome then [bareHeader args.folder args.threadKey uid] else []
      | none => []
    else headers
  else getThreadHeadersAllFolders rows args.account args.threadKey

/-- The folder of a header, or the one that was opened. -/
def folderOf (args : ThreadReadArgs) (header : ThreadHeader) : Str := if header.folder.isEmpty then args.folder else header.folder

def position (header : ThreadHeader) : Int × Nat := (header.date, header.uid)

/-- One header of the loop; `newest` is the index of the newest draft so far, with its date and uid. -/
def noteDraft (isDraft : ThreadHeader → Bool) (newest : Option (Nat × Int × Nat)) (header : ThreadHeader × Nat) :
    Option (Nat × Int × Nat) :=
  if isDraft header.1 then
    match newest with
    | some (idx, pos) => if earlier pos (position header.1) then some (header.2, position header.1) else some (idx, pos)
    | none => some (header.2, position header.1)
  else newest

/-- `collapse_thread_draft_headers` -/
def collapseThreadDraftHeaders (isDraft : ThreadHeader → Bool) (headers : List ThreadHeader) : List ThreadHeader :=
  match headers.zipIdx.foldl (noteDraft isDraft) none with
  | none => headers
  | some (keep, _) => (headers.zipIdx.filter (fun p => !(isDraft p.1 && p.2 ≠ keep))).map Prod.fst

/-- `drafts` are the folders whose role is that of drafts. -/
def threadHeaders (drafts : Str → Bool) (rows : List StoredRow) (args : ThreadReadArgs) : List ThreadHeader :=
  let headers := headersOf rows args
  let branch := match args.subjectFilter with
    | some filter => headers.filter (fun h => threadGroupingSubject h.subject = filter)
    | none => headers
  collapseThreadDraftHeaders (fun h => drafts (folderOf args h)) branch

/-! ## Cursors -/

def threadCursor (folder : Str) (uid : Nat) : Str :=
  "message:" ++ (Base64.encode urlSafe (Utf8.encode folder) ++ ':' :: Decimal.ofNat uid)

def parseThreadCursor (cursor : Str) : Option (Option Str × Nat) :=
  match stripPrefix "message:" cursor with
  | some rest => do
    let (folder, uid) ← splitOnce ':' rest
    let folder ← (Base64.decode urlSafe folder).bind Utf8.decode
    let uid ← parseBelow (2 ^ 32) uid
    some (some folder, uid)
  | none => do
    let uid ← (stripPrefix "uid:" cursor).bind (parseBelow (2 ^ 32))
    some (none, uid)

def threadCursorPosition (headers : List ThreadHeader) (cursor : Option Str × Nat) : Option Nat :=
  headers.findIdx? (fun header => header.uid = cursor.2 && cursor.1.all (fun folder => header.folder = folder))

/-- Where the headers are cut off. -/
def cutAt (headers : List ThreadHeader) (beforeCursor : Option Str) : Option Nat :=
  (beforeCursor.bind parseThreadCursor).bind (threadCursorPosition headers)

def slice (headers : List ThreadHeader) (limit : Nat) (beforeCursor : Option Str) : List ThreadHeader × Option Str :=
  let headers := match cutAt headers beforeCursor with
    | some idx => headers.take idx
    | none => headers
  let start := headers.length - limit
  let page := headers.drop start
  (page, if 0 < start then page.head?.map (fun header => threadCursor header.folder header.uid) else none)

/-! ## The page -/

/-- A header with its Message-ID, as far as it is cached, and whether the cache can serve it in full. -/
structure Slot where
  header : ThreadHeader
  folder : Str
  cached : Option Str
  complete : Bool
  deriving DecidableEq, Repr

/-- `available` says whether the attachments of a message are there. -/
def slotOf (available : Str → Nat → Bool) (rows : List StoredRow) (args : ThreadReadArgs) (header : ThreadHeader) : Slot :=
  let folder := folderOf args header
  let cached := (Table.lookup rowPlace rows ⟨args.account, folder, header.uid⟩).map (fun row => row.messageId.getD [])
  { header, folder, cached, complete := cached.any (fun id => id ≠ []) && available folder header.uid }

/-- The page without those whose Message-ID was met before on it. -/
def withoutCopies : List Str → List Slot → List Slot
  | _, [] => []
  | seen, slot :: rest =>
    let key := asciiLower (trim (slot.cached.getD []))
    if key ≠ [] ∧ key ∈ seen then withoutCopies seen rest
    else slot :: withoutCopies (if key = [] then seen else key :: seen) rest

/-- The slots with the newest missing body fetched, if it was, and the table with it. -/
def fetchNewest (fetch : Str → Nat → Option Body) (rows : List StoredRow) (args : ThreadReadArgs) (slots : List Slot) :
    List Slot × List StoredRow :=
  match slots.reverse.find? (fun slot => !slot.complete) with
  | none => (slots, rows)
  | some newest =>
    match fetch newest.folder newest.header.uid with
    | none => (slots, rows)
    | some body =>
      (slots.map (fun slot => if slot = newest then { slot with cached := some body.messageId, complete := true } else slot),
        saveCachedMessage rows ⟨args.account, newest.folder, newest.header.uid⟩ body)

/-- What the outside does to a read: the attachments that are there, the bodies that can be fetched, and what is cached after it. -/
structure Turn where
  limit : Nat
  available : Str → Nat → Bool
  fetch : Str → Nat → Option Body
  cached : List (Place × Body)

/-- `read_thread_page`: the page with its next cursor, and the table. -/
def readThreadPage (drafts : Str → Bool) (args : ThreadReadArgs) (t : Turn) (rows : List StoredRow) (beforeCursor : Option Str) :
    (List Slot × Option Str) × List StoredRow :=
  let (page, nextCursor) := slice (threadHeaders drafts rows args) t.limit beforeCursor
  let (slots, rows) := fetchNewest t.fetch rows args (page.map (slotOf t.available rows args))
  ((withoutCopies [] slots, nextCursor), rows)

/-- The `n`th read, and the bodies cached after it. -/
def turn (drafts : Str → Bool) (args : ThreadReadArgs) (turns : Nat → Turn) (n : Nat) (rows : List StoredRow) (beforeCursor : Option Str) :
    (List Slot × Option Str) × List StoredRow :=
  let (answer, rows) := readThreadPage drafts args (turns n) rows beforeCursor
  (answer, (turns n).cached.foldl (fun rows save => saveCachedMessage rows save.1 save.2) rows)

/-! ## Cursors are read back -/

theorem colon_notMem_encode (folder : Str) : ':' ∉ Base64.encode urlSafe (Utf8.encode folder) := by
  intro hmem
  obtain ⟨n, hn, hsymbol⟩ := mem_encode urlSafe (fun _ => Utf8.encode_lt) hmem
  have hnone : ∀ n, n < 64 → urlSafe.symbol n ≠ ':' := by decide +kernel
  exact hnone n hn hsymbol.symm

theorem parseThreadCursor_threadCursor (folder : Str) {uid : Nat} (huid : uid < 2 ^ 32) :
    parseThreadCursor (threadCursor folder uid) = some (some folder, uid) := by
  unfold parseThreadCursor threadCursor
  rw [stripPrefix_append]
  dsimp only
  rw [splitOnce_append _ (colon_notMem_encode folder)]
  simp only [bind_eq_bind, bind_some]
  rw [Base64.decode_encode urlSafe fun _ => Utf8.encode_lt, bind_some, Utf8.decode_encode, bind_some,
    parseBelow_ofNat huid, bind_some]

/-! ## Drafts -/

section Drafts

variable {isDraft : ThreadHeader → Bool} {headers : List ThreadHeader}

theorem collapse_sublist : (collapseThreadDraftHeaders isDraft headers).Sublist headers := by
  unfold collapseThreadDraftHeaders
  split
  · exact List.Sublist.refl _
  · conv_rhs => rw [← zipIdx_map_fst 0 headers]
    exact filter_sublist.map Prod.fst

/-- What is noted of the drafts gone through: one of them, after which none comes. -/
def Noted (isDraft : ThreadHeader → Bool) (done : List (ThreadHeader × Nat)) : Option (Nat × Int × Nat) → Prop
  | none => ∀ p ∈ done, isDraft p.1 = false
  | some (idx, pos) => (∃ p ∈ done, isDraft p.1 = true ∧ p.2 = idx ∧ position p.1 = pos) ∧
      ∀ p ∈ done, isDraft p.1 = true → ¬ earlier pos (position p.1)

theorem strict_earlier : Strict earlier := strict_pairLt strict_lt strict_lt

theorem Noted.step {done : List (ThreadHeader × Nat)} {newest : Option (Nat × Int × Nat)} {last : ThreadHeader × Nat}
    (h : Noted isDraft done newest) : Noted isDraft (done ++ [last]) (noteDraft isDraft newest last) := by
  have hself : last ∈ done ++ [last] := mem_append_right _ (mem_singleton_self _)
  unfold noteDraft
  cases hdraft : isDraft last.1 with
  | false =>
    rw [if_neg Bool.false_ne_true]
    cases newest with
    | none =>
      intro p hp
      rcases mem_append.mp hp with hp | hp
      · exact h p hp
      · rw [mem_singleton.mp hp, hdraft]
    | some noted =>
      obtain ⟨⟨p, hp, hfound⟩, hlast⟩ := h
      refine ⟨⟨p, mem_append_left _ hp, hfound⟩, fun q hq hqdraft => ?_⟩
      rcases mem_append.mp hq with hq | hq
      · exact hlast q hq hqdraft
      · rw [mem_singleton.mp hq, hdraft] at hqdraft
        cases hqdraft
  | true =>
    rw [if_pos rfl]
    cases newest with
    | none =>
      refine ⟨⟨last, hself, hdraft, rfl, rfl⟩, fun q hq hqdraft => ?_⟩
      rcases mem_append.mp hq with hq | hq
      · rw [h q hq] at hqdraft
        cases hqdraft
      · rw [mem_singleton.mp hq]
        exact strict_earlier.irrefl _
    | some noted =>
      obtain ⟨idx, pos⟩ := noted
      obtain ⟨⟨p, hp, hfound⟩, hlast⟩ := h
      dsimp only
      by_cases hlater : earlier pos (position last.1)
      · rw [if_pos hlater]
        refine ⟨⟨last, hself, hdraft, rfl, rfl⟩, fun q hq hqdraft hafter => ?_⟩
        rcases mem_append.mp hq with hq | hq
        · exact hlast q hq hqdraft (strict_earlier.trans hlater hafter)
        · rw [mem_singleton.mp hq] at hafter
          exact strict_earlier.irrefl _ hafter
      · rw [if_neg hlater]
        refine ⟨⟨p, mem_append_left _ hp, hfound⟩, fun q hq hqdraft => ?_⟩
        rcases mem_append.mp hq with hq | hq
        · exact hlast q hq hqdraft
        · rw [mem_singleton.mp hq]
          exact hlater

theorem noted (isDraft : ThreadHeader → Bool) (l : List (ThreadHeader × Nat)) : Noted isDraft l (l.foldl (noteDraft isDraft) none) :=
  Runs.foldl_invariant (P := Noted isDraft) (fun _ _ _ _ h => h.step) fun _ hp => absurd hp not_mem_nil

/-- A header that is no draft stays, and so does the newest draft. -/
theorem mem_collapse {header : ThreadHeader} (hmem : header ∈ headers)
    (hnewest : isDraft header = true → ∀ other ∈ headers, isDraft other = true → other ≠ header → earlier (position other) (position header)) :
    header ∈ collapseThreadDraftHeaders isDraft headers := by
  have hnoted := noted isDraft headers.zipIdx
  have hindexed : header ∈ headers.zipIdx.map Prod.fst := by rwa [zipIdx_map_fst]
  obtain ⟨p, hp, rfl⟩ := mem_map.mp hindexed
  unfold collapseThreadDraftHeaders
  cases hfold : headers.zipIdx.foldl (noteDraft isDraft) none with
  | none => exact hmem
  | some noted =>
    obtain ⟨idx, pos⟩ := noted
    rw [hfold] at hnoted
    obtain ⟨⟨q, hq, hqdraft, rfl, rfl⟩, hlast⟩ := hnoted
    cases hdraft : isDraft p.1 with
    | false => exact mem_map.mpr ⟨p, mem_filter.mpr ⟨hp, by rw [hdraft]; rfl⟩, rfl⟩
    | true =>
      have hqmem : q.1 ∈ headers := by
        rw [← zipIdx_map_fst 0 headers]
        exact mem_map.mpr ⟨q, hq, rfl⟩
      have hsame : q.1 = p.1 := by
        by_contra hne
        exact hlast p hp hdraft (hnewest hdraft q.1 hqmem hqdraft hne)
      refine mem_map.mpr ⟨q, mem_filter.mpr ⟨hq, ?_⟩, hsame⟩
      simp

end Drafts

/-! ## Slices -/

theorem take_findIdx {α : Type} {p : α → Bool} {l : List α} {idx : Nat} (h : l.findIdx? p = some idx) :
    l.take idx = l.takeWhile (fun x => !p x) := by
  obtain ⟨-, rfl⟩ := findIdx?_eq_some_iff_findIdx_eq.mp h
  rw [takeWhile_eq_take_findIdx_not]
  simp

/-! ## Copies -/

def slotKey (slot : Slot) : Str := asciiLower (trim (slot.cached.getD []))

theorem withoutCopies_sublist : ∀ {seen : List Str} {slots : List Slot}, (withoutCopies seen slots).Sublist slots
  | _, [] => List.Sublist.refl _
  | seen, slot :: rest => by
    unfold withoutCopies
    dsimp only
    split
    · exact withoutCopies_sublist.cons slot
    · exact withoutCopies_sublist.cons_cons slot

/-- A slot that is left out has a copy before it. -/
theorem withoutCopies_cover : ∀ {slots : List Slot} {seen : List Str} {slot : Slot}, slot ∈ slots → slotKey slot ∉ seen ∨ slotKey slot = [] →
    ∃ kept ∈ withoutCopies seen slots, kept = slot ∨ slotKey slot ≠ [] ∧ slotKey kept = slotKey slot
  | first :: rest, seen, slot, hmem, hnew => by
    have hsplit : withoutCopies seen (first :: rest) =
        if slotKey first ≠ [] ∧ slotKey first ∈ seen then withoutCopies seen rest
        else first :: withoutCopies (if slotKey first = [] then seen else slotKey first :: seen) rest := rfl
    rw [hsplit]
    rcases mem_cons.mp hmem with rfl | hrest
    · have hkept : ¬ (slotKey slot ≠ [] ∧ slotKey slot ∈ seen) := fun h => hnew.elim (fun hno => hno h.2) h.1
      rw [if_neg hkept]
      exact ⟨slot, mem_cons_self, .inl rfl⟩
    · by_cases hdropped : slotKey first ≠ [] ∧ slotKey first ∈ seen
      · rw [if_pos hdropped]
        exact withoutCopies_cover hrest hnew
      · rw [if_neg hdropped]
        by_cases hempty : slotKey slot = []
        · obtain ⟨kept, hkept, hsame⟩ := withoutCopies_cover hrest (.inr hempty)
          exact ⟨kept, mem_cons_of_mem _ hkept, hsame⟩
        · by_cases hcopy : slotKey first = slotKey slot
          · exact ⟨first, mem_cons_self, .inr ⟨hempty, hcopy⟩⟩
          · have hnext : slotKey slot ∉ if slotKey first = [] then seen else slotKey first :: seen := by
              have hseen := hnew.resolve_right hempty
              split
              · exact hseen
              · exact not_mem_cons_of_ne_of_not_mem (Ne.symm hcopy) hseen
            obtain ⟨kept, hkept, hsame⟩ := withoutCopies_cover hrest (.inl hnext)
            exact ⟨kept, mem_cons_of_mem _ hkept, hsame⟩

end Oreneta.Threads.ReadPage

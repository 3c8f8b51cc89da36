import Oreneta.Threads.ReadPage

/-!
# A conversation is read page by page

Following the cursors of `read_thread_page` while bodies are cached.

* `fill` — a table in which the bodies of some messages are cached.
* `visibleRows` — the rows the headers are of, in the order of the conversation.
* `SameMessage` — two rows are copies of one message, as a table knows them.
* `pages_go_back` — the reads end; the pages, the last one first, are part of the conversation in order; and every message whose
  copies are neither in another branch nor drafts older than the newest is in some page.
* `draft_hidden_and_page_repeated` — an older draft is in no page; and a read whose cursor names a copy that has gone starts again.
-/

namespace Oreneta.Threads.ReadPage

open Paging Text Backward Table Keyset List

/-! ## Cached bodies -/

/-- The row, with the body of its message cached or not. -/
def fill (mail : Place → Body) (known : Place → Bool) (row : StoredRow) : StoredRow :=
  if known (rowPlace row) then overwrite (mail (rowPlace row)) row else row

/-- The rows of the account have places of their own, with a folder and a uid of 32 bits. -/
structure WellFormed (args : ThreadReadArgs) (rows : List StoredRow) : Prop where
  places : ((rows.filter (fun row => row.account = args.account)).map rowPlace).Nodup
  uids : ∀ row ∈ rows, row.account = args.account → row.uid ≠ 0 ∧ row.uid < 2 ^ 32
  folders : ∀ row ∈ rows, row.account = args.account → row.folder ≠ []

def inBranch (args : ThreadReadArgs) (subject : Str) : Bool :=
  args.subjectFilter.all (fun filter => threadGroupingSubject subject = filter)

/-- What is cached of a row is its message's: the date, whether it is in the branch, and the Message-ID where there is one. -/
structure Faithful (mail : Place → Body) (args : ThreadReadArgs) (rows : List StoredRow) : Prop where
  date : ∀ row ∈ rows, row.account = args.account → (mail (rowPlace row)).date = row.date
  branch : ∀ row ∈ rows, row.account = args.account → inBranch args (mail (rowPlace row)).subject = inBranch args row.subject
  messageId : ∀ row ∈ rows, row.account = args.account → row.messageId.getD [] ≠ [] →
    some (mail (rowPlace row)).messageId = row.messageId

/-- The bodies that are fetched and cached are those of the messages of rows. -/
structure Turn.IsOf (mail : Place → Body) (args : ThreadReadArgs) (rows : List StoredRow) (t : Turn) : Prop where
  limit : 0 < t.limit
  fetch : ∀ folder uid body, t.fetch folder uid = some body → body = mail ⟨args.account, folder, uid⟩
  cached : ∀ save ∈ t.cached, save.2 = mail save.1 ∧ ∃ row ∈ rows, rowPlace row = save.1

/-- The row belongs to the conversation. -/
def isMember (args : ThreadReadArgs) (row : StoredRow) : Bool :=
  row.account = args.account && row.conversation = args.threadKey && (!isLocal args || row.folder = args.folder)

/-- The rows of the conversation in order. -/
def conversationRows (args : ThreadReadArgs) (rows : List StoredRow) : List StoredRow :=
  arrange earlier (fun row => (row.date, row.uid)) (rows.filter (isMember args))

def spot (row : StoredRow) : Str × Nat := (row.folder, row.uid)

def Slot.spot (slot : Slot) : Str × Nat := (slot.folder, slot.header.uid)

/-- The Message-ID a table has for the place of a row. -/
def idIn (table : List StoredRow) (row : StoredRow) : Str :=
  ((Table.lookup rowPlace table (rowPlace row)).bind StoredRow.messageId).getD []

/-- Two rows are copies of one message, as the table knows them; Message-IDs are compared as a page compares them. -/
def SameMessage (table : List StoredRow) (a b : StoredRow) : Prop :=
  rowPlace a = rowPlace b ∨
    idIn table a ≠ [] ∧ idIn table b ≠ [] ∧ asciiLower (trim (idIn table a)) = asciiLower (trim (idIn table b))

/-- The copies of the message are in the branch, and if one is a draft, it is the newest draft of the conversation. -/
def Standing (drafts : Str → Bool) (args : ThreadReadArgs) (rows table : List StoredRow) (row : StoredRow) : Prop :=
  ∀ copy ∈ rows, isMember args copy = true → SameMessage table copy row →
    inBranch args copy.subject = true ∧
      (drafts copy.folder = true → ∀ draft ∈ rows, isMember args draft = true → drafts draft.folder = true → rowPlace draft ≠ rowPlace copy →
        earlier (draft.date, draft.uid) (copy.date, copy.uid))

section Fill

variable {mail : Place → Body} {known known' : Place → Bool} {args : ThreadReadArgs} {rows : List StoredRow} {row : StoredRow}

@[simp] theorem rowPlace_fill (row : StoredRow) : rowPlace (fill mail known row) = rowPlace row := by
  unfold fill
  split <;> rfl

@[simp] theorem fill_account (row : StoredRow) : (fill mail known row).account = row.account := congrArg Place.account (rowPlace_fill row)

@[simp] theorem fill_folder (row : StoredRow) : (fill mail known row).folder = row.folder := congrArg Place.folder (rowPlace_fill row)

@[simp] theorem fill_uid (row : StoredRow) : (fill mail known row).uid = row.uid := congrArg Place.uid (rowPlace_fill row)

@[simp] theorem fill_id (row : StoredRow) : (fill mail known row).id = row.id := by
  unfold fill
  split <;> rfl

@[simp] theorem fill_seen (row : StoredRow) : (fill mail known row).seen = row.seen := by
  unfold fill
  split <;> rfl

@[simp] theorem fill_conversation (row : StoredRow) : (fill mail known row).conversation = row.conversation := by
  unfold fill
  split <;> rfl

@[simp] theorem isMember_fill (row : StoredRow) : isMember args (fill mail known row) = isMember args row := by
  unfold isMember
  rw [fill_account, fill_conversation, fill_folder]

theorem fill_date (h : Faithful mail args rows) (hrow : row ∈ rows) (haccount : row.account = args.account) :
    (fill mail known row).date = row.date := by
  unfold fill
  split
  · exact h.date row hrow haccount
  · rfl

theorem inBranch_fill (h : Faithful mail args rows) (hrow : row ∈ rows) (haccount : row.account = args.account) :
    inBranch args (fill mail known row).subject = inBranch args row.subject := by
  unfold fill
  split
  · exact h.branch row hrow haccount
  · rfl

/-- A Message-ID stays once it is known. -/
theorem messageId_stays (h : Faithful mail args rows) (hrow : row ∈ rows) (haccount : row.account = args.account)
    (hmono : ∀ p, known p = true → known' p = true) (hid : (fill mail known row).messageId.getD [] ≠ []) :
    (fill mail known' row).messageId = (fill mail known row).messageId := by
  unfold fill at hid ⊢
  by_cases hk : known (rowPlace row) = true
  · rw [if_pos hk, if_pos (hmono _ hk)]
  · rw [if_neg hk] at hid ⊢
    split
    · exact h.messageId row hrow haccount hid
    · rfl

/-- No body is cached. -/
theorem fill_nothing (rows : List StoredRow) : rows.map (fill mail (fun _ => false)) = rows := by
  have hid : ∀ row ∈ rows, fill mail (fun _ => false) row = id row := fun _ _ => if_neg Bool.false_ne_true
  rw [map_congr_left hid, map_id]

/-- One more body. -/
theorem save_fill {place : Place} (hplace : ∃ row ∈ rows, rowPlace row = place) :
    saveCachedMessage (rows.map (fill mail known)) place (mail place) =
      rows.map (fill mail (fun p => known p || decide (p = place))) := by
  obtain ⟨found, hfound, rfl⟩ := hplace
  unfold saveCachedMessage Table.upsert
  have hkey : rowPlace (newRow (rows.map (fill mail known)) (rowPlace found) (mail (rowPlace found))) = rowPlace found := rfl
  have hsome : (Table.lookup rowPlace (rows.map (fill mail known)) (rowPlace found)).isSome = true := by
    rw [Option.isSome_iff_ne_none, ne_eq, lookup_eq_none]
    exact fun hnone => hnone _ (mem_map.mpr ⟨found, hfound, rfl⟩) (rowPlace_fill found)
  rw [hkey, if_pos hsome]
  unfold Table.update
  rw [map_map]
  refine map_congr_left fun row _ => ?_
  rw [Function.comp_apply]
  by_cases hp : rowPlace (fill mail known row) = rowPlace found
  · have hp' : rowPlace row = rowPlace found := (rowPlace_fill row).symm.trans hp
    have hnow : (fun p => known p || decide (p = rowPlace found)) (rowPlace row) = true := by simp [hp']
    rw [if_pos (decide_eq_true hp)]
    unfold fill
    rw [if_pos hnow, hp']
    split <;> rfl
  · have hp' : ¬ rowPlace row = rowPlace found := fun h => hp ((rowPlace_fill row).trans h)
    rw [if_neg (by simpa using hp)]
    unfold fill
    simp [hp']

end Fill

/-! ## What is listed -/

/-- The row is shown: no copy hides it, unless none is looked for. -/
def visible (args : ThreadReadArgs) (table : List StoredRow) (row : StoredRow) : Bool :=
  isLocal args || !hidden table args.threadKey row

/-- The header of a row in the conversation. -/
def headerOf (args : ThreadReadArgs) (row : StoredRow) : ThreadHeader :=
  if isLocal args then { row.header with folder := [] } else row.header

/-- The place a header is read from. -/
def headerSpot (args : ThreadReadArgs) (header : ThreadHeader) : Str × Nat := (folderOf args header, header.uid)

/-- The cursor of a place. -/
def cursorAt (args : ThreadReadArgs) (p : Str × Nat) : Str := threadCursor (if isLocal args then [] else p.1) p.2

/-- The places of the headers, in order. -/
def listing (drafts : Str → Bool) (args : ThreadReadArgs) (table : List StoredRow) : List (Str × Nat) :=
  (threadHeaders drafts table args).map (headerSpot args)

section Listing

variable {mail : Place → Body} {known known' : Place → Bool} {args : ThreadReadArgs} {rows : List StoredRow} {row : StoredRow}
  {drafts : Str → Bool}

theorem WellFormed.place_inj (h : WellFormed args rows) {a b : StoredRow} (ha : a ∈ rows) (hb : b ∈ rows)
    (haccount : a.account = args.account) (hplace : rowPlace a = rowPlace b) : a = b := by
  have hb' : b.account = args.account := (congrArg Place.account hplace).symm.trans haccount
  exact inj_on_of_nodup_map h.places (mem_filter.mpr ⟨ha, decide_eq_true haccount⟩)
    (mem_filter.mpr ⟨hb, decide_eq_true hb'⟩) hplace

theorem isMember_iff : isMember args row = true ↔
    row.account = args.account ∧ row.conversation = args.threadKey ∧ (isLocal args = true → row.folder = args.folder) := by
  unfold isMember
  cases isLocal args <;> simp [and_assoc]

theorem member_account (h : isMember args row = true) : row.account = args.account := (isMember_iff.mp h).1

theorem mem_conversationRows : row ∈ conversationRows args rows ↔ row ∈ rows ∧ isMember args row = true := by
  unfold conversationRows
  rw [(arrange_perm_self _).mem_iff, mem_filter]

theorem headerSpot_headerOf (hfolder : row.folder ≠ []) (hmember : isMember args row = true) :
    headerSpot args (headerOf args row) = spot row := by
  obtain ⟨-, -, hlocal⟩ := isMember_iff.mp hmember
  unfold headerSpot headerOf folderOf spot
  cases h : isLocal args with
  | true =>
    rw [if_pos rfl, hlocal h]
    rfl
  | false =>
    rw [if_neg Bool.false_ne_true]
    show ((if row.folder.isEmpty then args.folder else row.folder), row.uid) = _
    rw [if_neg (by simpa using hfolder)]

theorem headerSpot_fill (hwell : WellFormed args rows) (hrow : row ∈ conversationRows args rows) :
    headerSpot args (headerOf args (fill mail known row)) = spot row := by
  obtain ⟨hmem, hmember⟩ := mem_conversationRows.mp hrow
  have hfolder : (fill mail known row).folder ≠ [] := by
    rw [fill_folder]
    exact hwell.folders row hmem (member_account hmember)
  rw [headerSpot_headerOf hfolder (by rwa [isMember_fill]), spot, fill_folder, fill_uid]
  rfl

/-- The places of the conversation are different. -/
theorem spots_nodup (hwell : WellFormed args rows) : ((conversationRows args rows).map spot).Nodup := by
  have hperm : ((conversationRows args rows).map spot).Perm ((rows.filter (isMember args)).map spot) :=
    (arrange_perm_self _).map spot
  rw [hperm.nodup_iff]
  have hsub : (rows.filter (isMember args)).Sublist (rows.filter fun row => row.account = args.account) :=
    monotone_filter_right rows fun row h => decide_eq_true (member_account h)
  have hplaces : ((rows.filter (isMember args)).map rowPlace).Nodup := hwell.places.sublist (hsub.map rowPlace)
  refine List.Nodup.map_on ?_ (List.Nodup.of_map rowPlace hplaces)
  intro a ha b hb he
  obtain ⟨ha, hma⟩ := mem_filter.mp ha
  obtain ⟨hb, hmb⟩ := mem_filter.mp hb
  obtain ⟨hfolder, huid⟩ := Prod.mk.inj he
  refine hwell.place_inj ha hb (member_account hma) ?_
  unfold rowPlace
  rw [member_account hma, member_account hmb, hfolder, huid]

theorem arrange_filled (hmail : Faithful mail args rows) (p : StoredRow → Bool) (h : ∀ row, p row = true → row.account = args.account) :
    arrange earlier (fun row => (row.date, row.uid)) ((rows.map (fill mail known)).filter p) =
      ((arrange earlier (fun row => (row.date, row.uid)) (rows.filter (fun row => p (fill mail known row))))).map (fill mail known) := by
  rw [filter_map]
  refine arrange_map _ fun row hrow => ?_
  obtain ⟨hrow, hp⟩ := mem_filter.mp hrow
  have haccount := h _ hp
  rw [fill_account] at haccount
  rw [fill_date hmail hrow haccount, fill_uid]

/-- The headers are those of the visible rows, in order. -/
theorem headersOf_fill (hwell : WellFormed args rows) (hmail : Faithful mail args rows) (hmembers : rows.filter (isMember args) ≠ []) :
    headersOf (rows.map (fill mail known)) args =
      ((conversationRows args rows).filter (fun row => visible args (rows.map (fill mail known)) (fill mail known row))).map
        (fun row => headerOf args (fill mail known row)) := by
  unfold headersOf visible headerOf
  cases hlocal : isLocal args with
  | true =>
    have hrows : getThreadHeaders (rows.map (fill mail known)) args.account args.folder args.threadKey =
        (conversationRows args rows).map (fun row => { (fill mail known row).header with folder := [] }) := by
      unfold getThreadHeaders
      rw [arrange_filled hmail _ fun row h => by simp at h; exact h.1.1, map_map]
      have hsame : (fun row => (fill mail known row).account = args.account && (fill mail known row).folder = args.folder &&
          (fill mail known row).conversation = args.threadKey) = isMember args := by
        funext row
        unfold isMember
        rw [hlocal, fill_account, fill_folder, fill_conversation]
        simp [Bool.and_right_comm]
      rw [hsame]
      rfl
    have hne : (getThreadHeaders (rows.map (fill mail known)) args.account args.folder args.threadKey).isEmpty = false := by
      rw [hrows, isEmpty_eq_false_iff, ne_eq, map_eq_nil_iff]
      intro hnil
      have hperm : (conversationRows args rows).Perm _ := arrange_perm_self _
      rw [hnil] at hperm
      exact hmembers hperm.nil_eq.symm
    rw [if_pos rfl]
    dsimp only
    rw [hne, if_neg Bool.false_ne_true, hrows]
    simp only [Bool.true_or, if_true, filter_true]
  | false =>
    rw [if_neg Bool.false_ne_true]
    have hlisted : ∀ row ∈ rows, listed (rows.map (fill mail known)) args.account args.threadKey (fill mail known row) =
        (!hidden (rows.map (fill mail known)) args.threadKey (fill mail known row) && isMember args row) := by
      intro row hrow
      unfold listed isMember
      rw [fill_account, fill_uid, fill_conversation, hlocal]
      by_cases haccount : row.account = args.account
      · simp [haccount, (hwell.uids row hrow haccount).1, Bool.and_comm]
      · simp [haccount]
    unfold getThreadHeadersAllFolders conversationRows
    rw [arrange_filled hmail _ fun row h => by simp [listed] at h; exact h.1.1.1, map_map, filter_congr hlisted,
      ← filter_filter, arrange_filter strict_earlier]
    simp only [Bool.false_or, if_neg Bool.false_ne_true]
    rfl

/-- The rows of the conversation that are in the branch and not hidden. -/
theorem threadHeaders_fill (hwell : WellFormed args rows) (hmail : Faithful mail args rows) (hmembers : rows.filter (isMember args) ≠ []) :
    threadHeaders drafts (rows.map (fill mail known)) args =
      collapseThreadDraftHeaders (fun h => drafts (folderOf args h))
        (((conversationRows args rows).filter (fun row => visible args (rows.map (fill mail known)) (fill mail known row) &&
          inBranch args row.subject)).map (fun row => headerOf args (fill mail known row))) := by
  have hsubject : ∀ row, (headerOf args (fill mail known row)).subject = (fill mail known row).subject := by
    intro row
    unfold headerOf
    split <;> rfl
  have hbranch : ∀ row ∈ conversationRows args rows, inBranch args (fill mail known row).subject = inBranch args row.subject :=
    fun row hrow => inBranch_fill hmail (mem_conversationRows.mp hrow).1 (member_account (mem_conversationRows.mp hrow).2)
  unfold threadHeaders
  rw [headersOf_fill hwell hmail hmembers]
  dsimp only
  congr 1
  cases hfilter : args.subjectFilter with
  | none =>
    have hall : ∀ row ∈ conversationRows args rows, visible args (rows.map (fill mail known)) (fill mail known row) =
        (visible args (rows.map (fill mail known)) (fill mail known row) && inBranch args row.subject) := by
      intro row _
      unfold inBranch
      rw [hfilter, Option.all_none, Bool.and_true]
    rw [filter_congr hall]
  | some filter =>
    dsimp only
    rw [filter_map, filter_filter]
    congr 1
    refine filter_congr fun row hrow => ?_
    rw [← hbranch row hrow, Bool.and_comm, Function.comp_apply, hsubject]
    unfold inBranch
    rw [hfilter, Option.all_some]

/-- What is listed is of the conversation, in its order. -/
theorem listing_sublist (hwell : WellFormed args rows) (hmail : Faithful mail args rows) (hmembers : rows.filter (isMember args) ≠ []) :
    (listing drafts args (rows.map (fill mail known))).Sublist ((conversationRows args rows).map spot) := by
  unfold listing
  rw [threadHeaders_fill hwell hmail hmembers]
  refine (collapse_sublist.map _).trans ?_
  rw [map_map]
  refine (filter_sublist.map _).trans ?_
  have hspots : (conversationRows args rows).map (headerSpot args ∘ fun row => headerOf args (fill mail known row)) =
      (conversationRows args rows).map spot := map_congr_left fun row hrow => headerSpot_fill hwell hrow
  rw [hspots]

/-- What is listed is visible and in the branch. -/
theorem of_mem_listing (hwell : WellFormed args rows) (hmail : Faithful mail args rows) (hmembers : rows.filter (isMember args) ≠ [])
    {p : Str × Nat} (hp : p ∈ listing drafts args (rows.map (fill mail known))) :
    ∃ row ∈ conversationRows args rows, spot row = p ∧ visible args (rows.map (fill mail known)) (fill mail known row) = true ∧
      inBranch args row.subject = true := by
  unfold listing at hp
  rw [threadHeaders_fill hwell hmail hmembers] at hp
  obtain ⟨header, hheader, rfl⟩ := mem_map.mp hp
  obtain ⟨row, hrow, rfl⟩ := mem_map.mp (collapse_sublist.subset hheader)
  obtain ⟨hrow, hshown⟩ := mem_filter.mp hrow
  rw [Bool.and_eq_true] at hshown
  exact ⟨row, hrow, (headerSpot_fill hwell hrow).symm, hshown⟩

/-- What is visible and in the branch is listed, unless it is a draft and not the newest. -/
theorem mem_listing (hwell : WellFormed args rows) (hmail : Faithful mail args rows) (hrow : row ∈ conversationRows args rows)
    (hvisible : visible args (rows.map (fill mail known)) (fill mail known row) = true) (hbranch : inBranch args row.subject = true)
    (hnewest : drafts row.folder = true → ∀ draft ∈ rows, isMember args draft = true → drafts draft.folder = true →
      rowPlace draft ≠ rowPlace row → earlier (draft.date, draft.uid) (row.date, row.uid)) :
    spot row ∈ listing drafts args (rows.map (fill mail known)) := by
  have hmembers : rows.filter (isMember args) ≠ [] := by
    obtain ⟨hmem, hmember⟩ := mem_conversationRows.mp hrow
    exact ne_nil_of_mem (mem_filter.mpr ⟨hmem, hmember⟩)
  have hfolder : ∀ other ∈ conversationRows args rows, folderOf args (headerOf args (fill mail known other)) = other.folder :=
    fun other hother => (Prod.mk.inj (@headerSpot_fill mail known _ _ _ hwell hother)).1
  have hposition : ∀ other ∈ conversationRows args rows, position (headerOf args (fill mail known other)) = (other.date, other.uid) := by
    intro other hother
    obtain ⟨hmem, hmember⟩ := mem_conversationRows.mp hother
    have hdate := @fill_date mail known _ _ _ hmail hmem (member_account hmember)
    have huid := @fill_uid mail known other
    unfold position headerOf
    split
    · exact Prod.ext hdate huid
    · exact Prod.ext hdate huid
  unfold listing
  rw [threadHeaders_fill hwell hmail hmembers]
  refine mem_map.mpr ⟨headerOf args (fill mail known row), mem_collapse ?_ ?_, headerSpot_fill hwell hrow⟩
  · exact mem_map.mpr ⟨row, mem_filter.mpr ⟨hrow, by rw [hvisible, hbranch]; rfl⟩, rfl⟩
  · intro hdraft header hheader hother hne
    obtain ⟨other, hotherRow, rfl⟩ := mem_map.mp hheader
    have hotherRow := (mem_filter.mp hotherRow).1
    obtain ⟨hmem, hmember⟩ := mem_conversationRows.mp hotherRow
    rw [hfolder row hrow] at hdraft
    rw [hfolder other hotherRow] at hother
    rw [hposition other hotherRow, hposition row hrow]
    refine hnewest hdraft other hmem hmember hother fun hplace => hne ?_
    rw [hwell.place_inj hmem (mem_conversationRows.mp hrow).1 (member_account hmember) hplace]

end Listing

/-! ## Copies -/

section Copies

variable {mail : Place → Body} {known known' : Place → Bool} {args : ThreadReadArgs} {rows : List StoredRow} {row : StoredRow}

/-- A row that is hidden stays so. -/
theorem hidden_stays (hmail : Faithful mail args rows) (hmono : ∀ p, known p = true → known' p = true) (hrow : row ∈ rows)
    (haccount : row.account = args.account) (h : hidden (rows.map (fill mail known)) args.threadKey (fill mail known row) = true) :
    hidden (rows.map (fill mail known')) args.threadKey (fill mail known' row) = true := by
  unfold hidden at h ⊢
  obtain ⟨dup, hdup, hyields⟩ := any_eq_true.mp h
  obtain ⟨other, hother, rfl⟩ := mem_map.mp hdup
  simp only [Bool.and_eq_true, decide_eq_true_eq, fill_account, fill_conversation] at hyields
  obtain ⟨⟨⟨⟨hsame, hconv⟩, hid⟩, hcopy⟩, hyield⟩ := hyields
  have hstay := messageId_stays hmail hrow haccount hmono hid
  have hstay' := @messageId_stays mail known known' _ _ _ hmail hother (hsame.trans haccount) hmono (by rwa [hcopy])
  refine any_eq_true.mpr ⟨fill mail known' other, mem_map.mpr ⟨other, hother, rfl⟩, ?_⟩
  simp only [Bool.and_eq_true, decide_eq_true_eq, fill_account, fill_conversation]
  refine ⟨⟨⟨⟨hsame, hconv⟩, ?_⟩, ?_⟩, ?_⟩
  · rwa [hstay]
  · rw [hstay', hstay, hcopy]
  · unfold yields at hyield ⊢
    simpa only [fill_seen, fill_id] using hyield

theorem visible_of_later (hmail : Faithful mail args rows) (hmono : ∀ p, known p = true → known' p = true) (hrow : row ∈ rows)
    (haccount : row.account = args.account) (h : visible args (rows.map (fill mail known')) (fill mail known' row) = true) :
    visible args (rows.map (fill mail known)) (fill mail known row) = true := by
  unfold visible at h ⊢
  cases hlocal : isLocal args with
  | true => rfl
  | false =>
    rw [hlocal, Bool.false_or, Bool.not_eq_true'] at h
    rw [Bool.false_or, Bool.not_eq_true', Bool.eq_false_iff]
    intro hhidden
    rw [hidden_stays hmail hmono hrow haccount hhidden] at h
    cases h

theorem lookup_fill (hwell : WellFormed args rows) (hrow : row ∈ rows) (haccount : row.account = args.account) :
    Table.lookup rowPlace (rows.map (fill mail known)) (rowPlace row) = some (fill mail known row) := by
  cases hfound : Table.lookup rowPlace (rows.map (fill mail known)) (rowPlace row) with
  | none => exact absurd (rowPlace_fill row) (lookup_eq_none.mp hfound _ (mem_map.mpr ⟨row, hrow, rfl⟩))
  | some found =>
    obtain ⟨hmem, hplace⟩ := lookup_some hfound
    obtain ⟨other, hother, rfl⟩ := mem_map.mp hmem
    rw [rowPlace_fill] at hplace
    rw [hwell.place_inj hrow hother haccount hplace.symm]

theorem idIn_fill (hwell : WellFormed args rows) (hrow : row ∈ rows) (haccount : row.account = args.account) :
    idIn (rows.map (fill mail known)) row = (fill mail known row).messageId.getD [] := by
  unfold idIn
  rw [lookup_fill hwell hrow haccount]
  rfl

/-- Of the copies of a row one is visible. -/
theorem exists_visible (hwell : WellFormed args rows) (hmail : Faithful mail args rows) (hmono : ∀ p, known p = true → known' p = true)
    (hrow : row ∈ rows) (hmember : isMember args row = true) :
    ∃ copy ∈ rows, isMember args copy = true ∧ SameMessage (rows.map (fill mail known')) copy row ∧
      visible args (rows.map (fill mail known)) (fill mail known copy) = true := by
  obtain ⟨haccount, hconv, hfolder⟩ := isMember_iff.mp hmember
  have hself : SameMessage (rows.map (fill mail known')) row row := .inl rfl
  cases hlocal : isLocal args with
  | true => exact ⟨row, hrow, hmember, hself, by unfold visible; rw [hlocal]; rfl⟩
  | false =>
    have hshown : ∀ {other : StoredRow}, hidden (rows.map (fill mail known)) args.threadKey (fill mail known other) = false →
        visible args (rows.map (fill mail known)) (fill mail known other) = true := by
      intro other h
      unfold visible
      rw [h]
      exact Bool.or_true _
    by_cases hid : (fill mail known row).messageId.getD [] = []
    · exact ⟨row, hrow, hmember, hself, hshown (not_hidden_of_no_id hid)⟩
    · obtain ⟨k, hk, hcopy, hleads⟩ := exists_leads (mem_map.mpr ⟨row, hrow, rfl⟩ : fill mail known row ∈ rows.map (fill mail known))
      obtain ⟨copy, hmem, rfl⟩ := mem_map.mp hk
      obtain ⟨hkaccount, hkconv, hkid⟩ := hcopy
      rw [fill_account, fill_account] at hkaccount
      rw [fill_conversation, fill_conversation] at hkconv
      have hcid : (fill mail known copy).messageId.getD [] ≠ [] := by rwa [hkid]
      have hcaccount := hkaccount.trans haccount
      refine ⟨copy, hmem, isMember_iff.mpr ⟨hcaccount, hkconv.trans hconv, fun h => ?_⟩, .inr ?_, hshown ?_⟩
      · rw [hlocal] at h
        cases h
      · rw [idIn_fill hwell hmem hcaccount, idIn_fill hwell hrow haccount, messageId_stays hmail hmem hcaccount hmono hcid,
          messageId_stays hmail hrow haccount hmono hid, hkid]
        exact ⟨hid, hid, rfl⟩
      · have hlead := (hidden_iff hcid).mpr hleads
        rwa [fill_conversation, hkconv, hconv] at hlead

end Copies

/-! ## One read -/

section Read

variable {mail : Place → Body} {known : Place → Bool} {args : ThreadReadArgs} {rows : List StoredRow} {drafts : Str → Bool}

theorem takeWhile_congr {α : Type} {p q : α → Bool} : ∀ {l : List α}, (∀ x ∈ l, p x = q x) → l.takeWhile p = l.takeWhile q
  | [], _ => rfl
  | x :: l, h => by
    have ih := takeWhile_congr fun y hy => h y (mem_cons_of_mem _ hy)
    rw [takeWhile_cons, takeWhile_cons, h x mem_cons_self, ih]

theorem lastOf_map {α β : Type} (f : α → β) (limit : Nat) (l : List α) : (lastOf limit l).map f = lastOf limit (l.map f) := by
  unfold lastOf
  rw [map_drop, length_map]

/-- The headers before the cursor. -/
def restOf (headers : List ThreadHeader) (beforeCursor : Option Str) : List ThreadHeader :=
  match cutAt headers beforeCursor with
  | some idx => headers.take idx
  | none => headers

theorem slice_eq (headers : List ThreadHeader) (limit : Nat) (beforeCursor : Option Str) :
    slice headers limit beforeCursor = (lastOf limit (restOf headers beforeCursor),
      if limit < (restOf headers beforeCursor).length then
        (lastOf limit (restOf headers beforeCursor)).head?.map (fun h => threadCursor h.folder h.uid) else none) := by
  show (_, if 0 < (restOf headers beforeCursor).length - limit then _ else _) = _
  simp only [Nat.sub_pos_iff_lt]
  rfl

/-- A header and the place it is read from. -/
theorem header_of_listing (hwell : WellFormed args rows) (hmail : Faithful mail args rows) (hmembers : rows.filter (isMember args) ≠ [])
    {header : ThreadHeader} (h : header ∈ threadHeaders drafts (rows.map (fill mail known)) args) :
    ∃ row ∈ conversationRows args rows, header = headerOf args (fill mail known row) := by
  rw [threadHeaders_fill hwell hmail hmembers] at h
  obtain ⟨row, hrow, rfl⟩ := mem_map.mp (collapse_sublist.subset h)
  exact ⟨row, mem_of_mem_filter hrow, rfl⟩

theorem folder_headerOf (row : StoredRow) : (headerOf args (fill mail known row)).folder = if isLocal args then [] else row.folder := by
  unfold headerOf
  split
  · rfl
  · exact fill_folder row

/-- What is before the cursor of a place is what is listed before it. -/
theorem restOf_spots (hwell : WellFormed args rows) (hmail : Faithful mail args rows) (hmembers : rows.filter (isMember args) ≠ [])
    {at_ : Option (Str × Nat)} (hat : ∀ p ∈ at_, p ∈ (conversationRows args rows).map spot)
    (hcut : ∀ p ∈ at_, (cutAt (threadHeaders drafts (rows.map (fill mail known)) args) (some (cursorAt args p))).isSome = true) :
    (∀ p ∈ at_, p ∈ listing drafts args (rows.map (fill mail known))) ∧
      (restOf (threadHeaders drafts (rows.map (fill mail known)) args) (at_.map (cursorAt args))).map (headerSpot args) =
        before (listing drafts args (rows.map (fill mail known))) at_ := by
  cases at_ with
  | none => exact ⟨fun p hp => (nomatch hp), rfl⟩
  | some p =>
    obtain ⟨target, htarget, rfl⟩ := mem_map.mp (hat p rfl)
    obtain ⟨hmem, hmember⟩ := mem_conversationRows.mp htarget
    have hparse : parseThreadCursor (cursorAt args (spot target)) =
        some (some (if isLocal args then [] else target.folder), target.uid) :=
      parseThreadCursor_threadCursor _ (hwell.uids target hmem (member_account hmember)).2
    obtain ⟨idx, hidx⟩ := Option.isSome_iff_exists.mp (hcut _ rfl)
    have hfind := hidx
    unfold cutAt at hfind
    rw [Option.bind_some, hparse, Option.bind_some] at hfind
    unfold threadCursorPosition at hfind
    -- the header the cursor names is the one of the place
    have hsame : ∀ header ∈ threadHeaders drafts (rows.map (fill mail known)) args,
        (decide (header.uid = target.uid) && (some (if isLocal args then [] else target.folder)).all fun folder => header.folder = folder) =
          decide (headerSpot args header = spot target) := by
      intro header hheader
      obtain ⟨row, hrow, rfl⟩ := header_of_listing hwell hmail hmembers hheader
      have hspot := @headerSpot_fill mail known _ _ _ hwell hrow
      have huid : (headerOf args (fill mail known row)).uid = row.uid := (Prod.mk.inj hspot).2
      have hlocal := (isMember_iff.mp hmember).2.2
      have hlocal' := (isMember_iff.mp (mem_conversationRows.mp hrow).2).2.2
      rw [hspot, huid, folder_headerOf, Option.all_some, ← Bool.decide_and]
      unfold spot
      simp only [decide_eq_decide, Prod.mk.injEq]
      cases hl : isLocal args with
      | true => simp [hlocal hl, hlocal' hl]
      | false => simp [and_comm]
    have htake : (threadHeaders drafts (rows.map (fill mail known)) args).take idx =
        (threadHeaders drafts (rows.map (fill mail known)) args).takeWhile (fun header => !decide (headerSpot args header = spot target)) := by
      rw [take_findIdx hfind]
      exact takeWhile_congr fun header hheader => congrArg _ (hsame header hheader)
    have hany := congrArg Option.isSome hfind
    rw [findIdx?_isSome] at hany
    obtain ⟨header, hheader, hfound⟩ := any_eq_true.mp hany
    have hplace : headerSpot args header = spot target := of_decide_eq_true ((hsame header hheader).symm.trans hfound)
    refine ⟨fun q hq => ?_, ?_⟩
    · rw [← Option.some.inj hq, ← hplace]
      exact mem_map.mpr ⟨header, hheader, rfl⟩
    · unfold restOf before
      rw [Option.map_some, hidx]
      dsimp only
      rw [htake]
      unfold listing
      rw [takeWhile_map]
      congr 1
      refine takeWhile_congr fun header _ => ?_
      simp

/-- A slot after its body was fetched or not. -/
def Refreshed (mail : Place → Body) (args : ThreadReadArgs) (known : Place → Bool) (old new : Slot) : Prop :=
  new.header = old.header ∧ new.folder = old.folder ∧ (new.cached = old.cached ∨
    known ⟨args.account, old.folder, old.header.uid⟩ = true ∧
      new.cached = some (mail ⟨args.account, old.folder, old.header.uid⟩).messageId)

/-- What a read leaves of the table, and what its slots are. -/
theorem fetchNewest_spec {t : Turn} (ht : t.IsOf mail args rows) {slots : List Slot}
    (hslots : ∀ slot ∈ slots, ∃ row ∈ rows, rowPlace row = ⟨args.account, slot.folder, slot.header.uid⟩) :
    ∃ known', (∀ p, known p = true → known' p = true) ∧
      (fetchNewest t.fetch (rows.map (fill mail known)) args slots).2 = rows.map (fill mail known') ∧
      ∃ f : Slot → Slot, (fetchNewest t.fetch (rows.map (fill mail known)) args slots).1 = slots.map f ∧
        ∀ slot, Refreshed mail args known' slot (f slot) := by
  have hsame : ∃ f : Slot → Slot, slots = slots.map f ∧ ∀ slot, Refreshed mail args known slot (f slot) :=
    ⟨id, (map_id _).symm, fun slot => ⟨rfl, rfl, .inl rfl⟩⟩
  unfold fetchNewest
  cases hnewest : slots.reverse.find? (fun slot => !slot.complete) with
  | none => exact ⟨known, fun _ h => h, rfl, hsame⟩
  | some newest =>
    dsimp only
    cases hfetch : t.fetch newest.folder newest.header.uid with
    | none => exact ⟨known, fun _ h => h, rfl, hsame⟩
    | some body =>
      have hmem : newest ∈ slots := mem_reverse.mp (mem_of_find?_eq_some hnewest)
      have hbody := ht.fetch _ _ _ hfetch
      refine ⟨fun p => known p || decide (p = ⟨args.account, newest.folder, newest.header.uid⟩), fun p hp => by simp [hp], ?_,
        fun slot => if slot = newest then { slot with cached := some body.messageId, complete := true } else slot, rfl, fun slot => ?_⟩
      · dsimp only
        rw [hbody]
        exact save_fill (hslots newest hmem)
      · dsimp only
        by_cases hslot : slot = newest
        · rw [if_pos hslot, hslot, hbody]
          exact ⟨rfl, rfl, .inr ⟨by simp, rfl⟩⟩
        · rw [if_neg hslot]
          exact ⟨rfl, rfl, .inl rfl⟩

theorem saves_fill {saves : List (Place × Body)} (hsaves : ∀ save ∈ saves, save.2 = mail save.1 ∧ ∃ row ∈ rows, rowPlace row = save.1) :
    ∀ known : Place → Bool, ∃ known', (∀ p, known p = true → known' p = true) ∧
      saves.foldl (fun rows save => saveCachedMessage rows save.1 save.2) (rows.map (fill mail known)) = rows.map (fill mail known') := by
  induction saves with
  | nil => exact fun known => ⟨known, fun _ h => h, rfl⟩
  | cons save saves ih =>
    intro known
    obtain ⟨hbody, hplace⟩ := hsaves save mem_cons_self
    obtain ⟨known', hmono, hrest⟩ := ih (fun s hs => hsaves s (mem_cons_of_mem _ hs)) fun p => known p || decide (p = save.1)
    refine ⟨known', fun p hp => hmono p (by rw [hp]; rfl), ?_⟩
    rw [foldl_cons, hbody, save_fill hplace]
    exact hrest

/-- A slot's Message-ID is the one the table has afterwards. -/
theorem slotKey_refreshed {known' known'' : Place → Bool} {available : Str → Nat → Bool} (hwell : WellFormed args rows)
    (hmail : Faithful mail args rows) (hmono : ∀ p, known p = true → known' p = true) (hmono' : ∀ p, known' p = true → known'' p = true)
    {row : StoredRow} (hrow : row ∈ conversationRows args rows) {slot : Slot}
    (hslot : Refreshed mail args known' (slotOf available (rows.map (fill mail known)) args (headerOf args (fill mail known row))) slot) :
    slot.spot = spot row ∧ (slotKey slot ≠ [] → idIn (rows.map (fill mail known'')) row ≠ [] ∧
      asciiLower (trim (idIn (rows.map (fill mail known'')) row)) = slotKey slot) := by
  obtain ⟨hmem, hmember⟩ := mem_conversationRows.mp hrow
  have haccount := member_account hmember
  have hspot := @headerSpot_fill mail known _ _ _ hwell hrow
  have hplace : (⟨args.account, folderOf args (headerOf args (fill mail known row)), (headerOf args (fill mail known row)).uid⟩ : Place) =
      rowPlace row := by
    unfold rowPlace
    rw [haccount, (Prod.mk.inj hspot).1, (Prod.mk.inj hspot).2]
  obtain ⟨hheader, hfolder, hcached⟩ := hslot
  refine ⟨?_, fun hkey => ?_⟩
  · unfold Slot.spot
    rw [hheader, hfolder]
    exact hspot
  · have hne : slot.cached.getD [] ≠ [] := fun h => hkey (by unfold slotKey; rw [h]; rfl)
    have hid : (fill mail known'' row).messageId = slot.cached := by
      rcases hcached with hcached | ⟨hknown, hcached⟩
      · have hslot : slot.cached = some ((fill mail known row).messageId.getD []) := by
          rw [hcached]
          unfold slotOf
          dsimp only
          rw [hplace, lookup_fill hwell hmem haccount]
          rfl
        rw [hslot] at hne ⊢
        have hne' : (fill mail known row).messageId.getD [] ≠ [] := hne
        rw [messageId_stays hmail hmem haccount (fun p hp => hmono' p (hmono p hp)) hne']
        cases hrowid : (fill mail known row).messageId with
        | none => exact absurd (by rw [hrowid]; rfl) hne'
        | some id => rfl
      · have hslot : slot.cached = some (mail (rowPlace row)).messageId := by
          rw [hcached, ← hplace]
          rfl
        have hknown : known'' (rowPlace row) = true := hmono' _ (hplace ▸ hknown)
        unfold fill
        rw [if_pos hknown, hslot]
        rfl
    unfold slotKey
    rw [idIn_fill hwell hmem haccount, hid]
    exact ⟨hne, rfl⟩

/-- What a read does in a table with some bodies cached: which part of what is listed it shows, and the bodies cached after it. -/
structure TurnDoes (drafts : Str → Bool) (args : ThreadReadArgs) (mail : Place → Body) (turns : Nat → Turn) (rows : List StoredRow)
    (known : Place → Bool) (at_ : Option (Str × Nat)) (n : Nat) (known' : Place → Bool) : Prop where
  mono : ∀ p, known p = true → known' p = true
  table : (turn drafts args turns n (rows.map (fill mail known)) (at_.map (cursorAt args))).2 = rows.map (fill mail known')
  answers : Answers (cursorAt args) Slot.spot (turns n).limit (before (listing drafts args (rows.map (fill mail known))) at_)
    (turn drafts args turns n (rows.map (fill mail known)) (at_.map (cursorAt args))).1
  shows : ∀ row ∈ conversationRows args rows,
    spot row ∈ lastOf (turns n).limit (before (listing drafts args (rows.map (fill mail known))) at_) →
      ∃ slot ∈ (turn drafts args turns n (rows.map (fill mail known)) (at_.map (cursorAt args))).1.1,
        ∃ other ∈ conversationRows args rows, spot other = slot.spot ∧ SameMessage (rows.map (fill mail known')) other row

/-- **One read.** -/
theorem turn_spec {turns : Nat → Turn} (hwell : WellFormed args rows) (hmail : Faithful mail args rows)
    (hmembers : rows.filter (isMember args) ≠ []) (hturns : ∀ n, (turns n).IsOf mail args rows) {at_ : Option (Str × Nat)}
    (hat : ∀ p ∈ at_, p ∈ (conversationRows args rows).map spot)
    (hcut : ∀ p ∈ at_, (cutAt (threadHeaders drafts (rows.map (fill mail known)) args) (some (cursorAt args p))).isSome = true) (n : Nat) :
    ∃ known', TurnDoes drafts args mail turns rows known at_ n known' := by
  obtain ⟨hlisted, hrest⟩ := restOf_spots hwell hmail hmembers hat hcut
  generalize hheaders : threadHeaders drafts (rows.map (fill mail known)) args = headers at hrest
  generalize hpage : lastOf (turns n).limit (restOf headers (at_.map (cursorAt args))) = page
  have hpageRows : ∀ header ∈ page, ∃ row ∈ conversationRows args rows, header = headerOf args (fill mail known row) := by
    intro header hheader
    have hmem : header ∈ restOf headers (at_.map (cursorAt args)) := by
      rw [← hpage] at hheader
      exact lastOf_sublist.subset hheader
    have hmem : header ∈ headers := by
      unfold restOf at hmem
      split at hmem
      · exact mem_of_mem_take hmem
      · exact hmem
    rw [← hheaders] at hmem
    exact header_of_listing hwell hmail hmembers hmem
  generalize hslots : page.map (slotOf (turns n).available (rows.map (fill mail known)) args) = slots
  have hslotRows : ∀ slot ∈ slots, ∃ row ∈ rows, rowPlace row = ⟨args.account, slot.folder, slot.header.uid⟩ := by
    rw [← hslots]
    intro slot hslot
    obtain ⟨header, hheader, rfl⟩ := mem_map.mp hslot
    obtain ⟨row, hrow, rfl⟩ := hpageRows header hheader
    obtain ⟨hmem, hmember⟩ := mem_conversationRows.mp hrow
    obtain ⟨hfolder, huid⟩ := Prod.mk.inj (@headerSpot_fill mail known _ _ _ hwell hrow)
    refine ⟨row, hmem, ?_⟩
    show _ = (⟨args.account, folderOf args _, _⟩ : Place)
    rw [hfolder]
    exact Place.mk.injEq .. ▸ ⟨member_account hmember, rfl, huid.symm⟩
  obtain ⟨known₁, hmono₁, htable₁, f, hf, hrefreshed⟩ := @fetchNewest_spec mail known _ _ _ (hturns n) _ hslotRows
  obtain ⟨known₂, hmono₂, htable₂⟩ := saves_fill (hturns n).cached known₁
  have hturn : turn drafts args turns n (rows.map (fill mail known)) (at_.map (cursorAt args)) =
      ((withoutCopies [] (slots.map f), if (turns n).limit < (restOf headers (at_.map (cursorAt args))).length then
        page.head?.map (fun h => threadCursor h.folder h.uid) else none), rows.map (fill mail known₂)) := by
    unfold turn readThreadPage
    rw [hheaders, slice_eq, hpage]
    dsimp only
    rw [hslots, hf, htable₁, htable₂]
  have hcopies : ∀ slot ∈ slots.map f, ∃ row ∈ conversationRows args rows, slot.spot = spot row ∧
      (slotKey slot ≠ [] → idIn (rows.map (fill mail known₂)) row ≠ [] ∧
        asciiLower (trim (idIn (rows.map (fill mail known₂)) row)) = slotKey slot) := by
    intro slot hslot
    obtain ⟨old, hold, rfl⟩ := mem_map.mp hslot
    rw [← hslots] at hold
    obtain ⟨header, hheader, rfl⟩ := mem_map.mp hold
    obtain ⟨row, hrow, rfl⟩ := hpageRows header hheader
    exact ⟨row, hrow, slotKey_refreshed hwell hmail hmono₁ hmono₂ hrow (hrefreshed _)⟩
  have hspots : (slots.map f).map Slot.spot = lastOf (turns n).limit (before (listing drafts args (rows.map (fill mail known))) at_) := by
    rw [← hrest, ← lastOf_map, hpage, ← hslots, map_map, map_map]
    refine map_congr_left fun header _ => ?_
    obtain ⟨hheader, hfolder, -⟩ := hrefreshed (slotOf (turns n).available (rows.map (fill mail known)) args header)
    show ((f _).folder, (f _).header.uid) = _
    rw [hheader, hfolder]
    rfl
  have hlength : (before (listing drafts args (rows.map (fill mail known))) at_).length =
      (restOf headers (at_.map (cursorAt args))).length := by rw [← hrest, length_map]
  refine ⟨known₂, fun p hp => hmono₂ p (hmono₁ p hp), ?_, ⟨?_, ?_, ?_⟩, ?_⟩
  · rw [hturn]
  · rw [hturn, ← hspots]
    exact withoutCopies_sublist.map _
  · intro hshort
    rw [hturn]
    exact if_neg (by omega)
  · intro hmore
    have hmore' : (turns n).limit < (restOf headers (at_.map (cursorAt args))).length := hlength ▸ hmore
    have hlimit := (hturns n).limit
    have hne : page ≠ [] := by
      rw [← hpage, lastOf, ne_eq, drop_eq_nil_iff]
      omega
    obtain ⟨first, rest, rfl⟩ := exists_cons_of_ne_nil hne
    refine ⟨headerSpot args first, ?_, ?_⟩
    · rw [← hrest, ← lastOf_map, hpage]
      rfl
    · rw [hturn]
      dsimp only
      rw [if_pos hmore', head?_cons, Option.map_some]
      obtain ⟨row, hrow, rfl⟩ := hpageRows first mem_cons_self
      have hspot := @headerSpot_fill mail known _ _ _ hwell hrow
      rw [hspot, cursorAt, folder_headerOf]
      exact congrArg some (congrArg _ (Prod.mk.inj hspot).2)
  · intro row hrow hlast
    rw [← hspots] at hlast
    obtain ⟨slot, hslot, hspot⟩ := mem_map.mp hlast
    obtain ⟨row', hrow', hspot', hkey⟩ := hcopies slot hslot
    have hsame : row' = row := inj_on_of_nodup_map (spots_nodup hwell) hrow' hrow (hspot'.symm.trans hspot)
    subst hsame
    obtain ⟨kept, hkept, hcopy⟩ := withoutCopies_cover hslot (.inl not_mem_nil)
    obtain ⟨other, hother, hspotKept, hkeyKept⟩ := hcopies kept (withoutCopies_sublist.subset hkept)
    refine ⟨kept, by rw [hturn]; exact hkept, other, hother, hspotKept.symm, ?_⟩
    rcases hcopy with rfl | ⟨hne, hequal⟩
    · have hrow : other = row' := inj_on_of_nodup_map (spots_nodup hwell) hother hrow' (hspotKept.symm.trans hspot')
      exact .inl (congrArg rowPlace hrow)
    · obtain ⟨hid, hnorm⟩ := hkey hne
      obtain ⟨hidKept, hnormKept⟩ := hkeyKept (hequal ▸ hne)
      exact .inr ⟨hidKept, hid, hnormKept.trans (hequal.trans hnorm.symm)⟩

end Read

/-! ## Every run -/

theorem SameMessage.trans {table : List StoredRow} {a b c : StoredRow} (hab : SameMessage table a b) (hbc : SameMessage table b c) :
    SameMessage table a c := by
  have hids : ∀ {x y : StoredRow}, rowPlace x = rowPlace y → idIn table x = idIn table y := by
    intro x y h
    unfold idIn
    rw [h]
  rcases hab with hab | ⟨ha, hb, hab⟩
  · rcases hbc with hbc | hbc
    · exact .inl (hab.trans hbc)
    · rw [← hids hab] at hbc
      exact .inr hbc
  · rcases hbc with hbc | ⟨-, hc, hbc⟩
    · rw [hids hbc] at hb hab
      exact .inr ⟨ha, hb, hab⟩
    · exact .inr ⟨ha, hc, hab.trans hbc⟩

section Run

variable {mail : Place → Body} {args : ThreadReadArgs} {rows : List StoredRow} {drafts : Str → Bool} {turns : Nat → Turn}

/-- Copies stay copies. -/
theorem SameMessage.later {known known' : Place → Bool} {a b : StoredRow} (hwell : WellFormed args rows) (hmail : Faithful mail args rows)
    (hmono : ∀ p, known p = true → known' p = true) (ha : a ∈ rows) (haccount : a.account = args.account) (hb : b ∈ rows)
    (hbccount : b.account = args.account) (h : SameMessage (rows.map (fill mail known)) a b) :
    SameMessage (rows.map (fill mail known')) a b := by
  rcases h with h | ⟨hida, hidb, hkey⟩
  · exact .inl h
  · rw [idIn_fill hwell ha haccount] at hida hkey
    rw [idIn_fill hwell hb hbccount] at hidb hkey
    have hstaya := messageId_stays hmail ha haccount hmono hida
    have hstayb := messageId_stays hmail hb hbccount hmono hidb
    refine .inr ?_
    rw [idIn_fill hwell ha haccount, idIn_fill hwell hb hbccount, hstaya, hstayb]
    exact ⟨hida, hidb, hkey⟩

/-- The header a cursor names is still listed when the cursor comes back. -/
def CursorsListed (drafts : Str → Bool) (args : ThreadReadArgs) (turns : Nat → Turn) (rows : List StoredRow) : Prop :=
  ∀ n s cursor, Reached (turn drafts args turns) rows n s (some cursor) →
    (cutAt (threadHeaders drafts s args) (some cursor)).isSome = true

/-- What the theorem assumes of a run. -/
structure Setting (drafts : Str → Bool) (args : ThreadReadArgs) (mail : Place → Body) (turns : Nat → Turn) (rows : List StoredRow) :
    Prop where
  well : WellFormed args rows
  members : rows.filter (isMember args) ≠ []
  faithful : Faithful mail args rows
  bodies : ∀ n, (turns n).IsOf mail args rows
  cursors : CursorsListed drafts args turns rows

theorem Setting.spec (h : Setting drafts args mail turns rows) {n : Nat} {known : Place → Bool} {at_ : Option (Str × Nat)}
    (hreached : Reached (turn drafts args turns) rows n (rows.map (fill mail known)) (at_.map (cursorAt args)))
    (hat : ∀ p ∈ at_, p ∈ (conversationRows args rows).map spot) : ∃ known', TurnDoes drafts args mail turns rows known at_ n known' :=
  turn_spec h.well h.faithful h.members h.bodies hat (fun p hp => h.cursors n _ _ (by rw [hp] at hreached; exact hreached)) n

/-- Where a run is: some bodies are cached, and the cursor is that of a place of the conversation. -/
theorem Setting.reached (h : Setting drafts args mail turns rows) {n : Nat} {s : List StoredRow} {c : Option Str}
    (hreached : Reached (turn drafts args turns) rows n s c) : (∃ known, s = rows.map (fill mail known)) ∧
      ∃ at_, c = Option.map (cursorAt args) at_ ∧ ∀ p ∈ at_, p ∈ (conversationRows args rows).map spot := by
  induction hreached with
  | start => exact ⟨⟨_, (fill_nothing rows).symm⟩, none, rfl, fun p hp => (nomatch hp)⟩
  | @next n s t c items cursor hprev hread ih =>
    obtain ⟨⟨known, rfl⟩, at_, rfl, hat⟩ := ih
    obtain ⟨known', -, htable, hanswers, -⟩ := h.spec hprev hat
    rw [hread] at htable hanswers
    refine ⟨⟨known', htable⟩, ?_⟩
    by_cases hmore : (turns n).limit < (before (listing drafts args (rows.map (fill mail known))) at_).length
    · obtain ⟨x, page, hpage, hcursor⟩ := hanswers.cons hmore
      refine ⟨some x, hcursor, fun p hp => ?_⟩
      have hx : x ∈ lastOf (turns n).limit (before (listing drafts args (rows.map (fill mail known))) at_) := hpage ▸ mem_cons_self
      rw [← Option.some.inj hp]
      exact (listing_sublist h.well h.faithful h.members).subset (before_subset (lastOf_sublist.subset hx))
    · have hnone := hanswers.ended (by omega)
      cases hnone

theorem Setting.steady (h : Setting drafts args mail turns rows) :
    Steady (turn drafts args turns) rows ((conversationRows args rows).map spot) (listing drafts args) (cursorAt args) Slot.spot
      (fun n => (turns n).limit) := by
  intro n s at_ hreached hat
  obtain ⟨⟨known, rfl⟩, -⟩ := h.reached hreached
  have hcut : ∀ p ∈ at_, (cutAt (threadHeaders drafts (rows.map (fill mail known)) args) (some (cursorAt args p))).isSome = true :=
    fun p hp => h.cursors n _ _ (by rw [hp] at hreached; exact hreached)
  obtain ⟨known', -, -, hanswers, -⟩ := h.spec hreached hat
  exact ⟨listing_sublist h.well h.faithful h.members, (restOf_spots h.well h.faithful h.members hat hcut).1, hanswers⟩

variable {final : List StoredRow} {pages : List (List Slot)}

/-- What follows a state only caches more. -/
theorem Setting.later (h : Setting drafts args mail turns rows) {n : Nat} {s : List StoredRow} {c : Option Str} (hreads : Reads (turn drafts args turns) n s c pages final) :
    Reached (turn drafts args turns) rows n s c → ∀ known, s = rows.map (fill mail known) →
      ∃ known', (∀ p, known p = true → known' p = true) ∧ final = rows.map (fill mail known') := by
  induction hreads with
  | last hread =>
    rintro hreached known rfl
    obtain ⟨-, at_, rfl, hat⟩ := h.reached hreached
    obtain ⟨known', hmono, htable, -, -⟩ := h.spec hreached hat
    rw [hread] at htable
    exact ⟨known', hmono, htable⟩
  | next hread _ ih =>
    rintro hreached known rfl
    obtain ⟨-, at_, rfl, hat⟩ := h.reached hreached
    obtain ⟨known', hmono, htable, -, -⟩ := h.spec hreached hat
    rw [hread] at htable
    obtain ⟨known'', hmono', hfinal⟩ := ih (.next hreached hread) known' htable
    exact ⟨known'', fun p hp => hmono' p (hmono p hp), hfinal⟩

/-- What one read caches is still there at the end. -/
theorem Setting.step_later (h : Setting drafts args mail turns rows) {n : Nat} {s : List StoredRow} {c : Option Str} (hreads : Reads (turn drafts args turns) 0 rows none pages final)
    (hreached : Reached (turn drafts args turns) rows n s c) {known : Place → Bool}
    (htable : (turn drafts args turns n s c).2 = rows.map (fill mail known)) :
    ∃ known', (∀ p, known p = true → known' p = true) ∧ final = rows.map (fill mail known') := by
  obtain ⟨rest, hrest⟩ := hreached.to_final hreads
  cases hrest with
  | last hread =>
    rw [hread] at htable
    exact ⟨known, fun _ hp => hp, htable⟩
  | next hread hrest =>
    rw [hread] at htable
    exact h.later hrest (.next hreached hread) known htable

/-- Every message that stands on its own is in some page. -/
theorem Setting.cover (h : Setting drafts args mail turns rows)
    (hreads : Reads (turn drafts args turns) 0 rows none pages final) {row : StoredRow} (hrow : row ∈ rows)
    (hmember : isMember args row = true) (hstanding : Standing drafts args rows final row) :
    ∃ page ∈ pages, ∃ slot ∈ page, ∃ copy ∈ rows, isMember args copy = true ∧ spot copy = slot.spot ∧ SameMessage final copy row := by
  have hlisted : ∀ {known : Place → Bool} {copy : StoredRow}, copy ∈ conversationRows args rows → SameMessage final copy row →
      visible args (rows.map (fill mail known)) (fill mail known copy) = true →
        spot copy ∈ listing drafts args (rows.map (fill mail known)) := by
    intro known copy hcopy hsame hvisible
    obtain ⟨hmem, hmember⟩ := mem_conversationRows.mp hcopy
    obtain ⟨hbranch, hnewest⟩ := hstanding copy hmem hmember hsame
    exact mem_listing h.well h.faithful hcopy hvisible hbranch hnewest
  generalize hkind : (fun p => ∃ copy ∈ conversationRows args rows, spot copy = p ∧ SameMessage final copy row) = kind
  have hsome : ∀ n s c, Reached (turn drafts args turns) rows n s c → ∃ p ∈ listing drafts args s, kind p := by
    intro n s c hreached
    obtain ⟨⟨known, rfl⟩, -⟩ := h.reached hreached
    obtain ⟨rest, hrest⟩ := hreached.to_final hreads
    obtain ⟨known', hmono, rfl⟩ := h.later hrest hreached known rfl
    obtain ⟨copy, hmem, hcmember, hsame, hvisible⟩ := exists_visible h.well h.faithful hmono hrow hmember
    have hcopy := mem_conversationRows.mpr ⟨hmem, hcmember⟩
    refine ⟨spot copy, hlisted hcopy hsame hvisible, ?_⟩
    rw [← hkind]
    exact ⟨copy, hcopy, rfl, hsame⟩
  have hback : ∀ n s c items cursor t, Reached (turn drafts args turns) rows n s c →
      turn drafts args turns n s c = ((items, some cursor), t) → ∀ p ∈ listing drafts args t, kind p → p ∈ listing drafts args s := by
    intro n s c items cursor t hreached hread p hp hkindp
    rw [← hkind] at hkindp
    obtain ⟨copy, hcopy, rfl, hsame⟩ := hkindp
    obtain ⟨⟨known, rfl⟩, at_, rfl, hat⟩ := h.reached hreached
    obtain ⟨known', hmono, htable, -, -⟩ := h.spec hreached hat
    rw [hread] at htable
    dsimp only at htable
    rw [htable] at hp
    obtain ⟨other, hother, hspot, hvisible, -⟩ := of_mem_listing h.well h.faithful h.members hp
    have hequal : other = copy := inj_on_of_nodup_map (spots_nodup h.well) hother hcopy hspot
    subst hequal
    obtain ⟨hmem, hcmember⟩ := mem_conversationRows.mp hother
    exact hlisted hother hsame (visible_of_later h.faithful hmono hmem (member_account hcmember) hvisible)
  have hshow : ∀ n s at_, Reached (turn drafts args turns) rows n s (Option.map (cursorAt args) at_) →
      (∀ p ∈ at_, p ∈ (conversationRows args rows).map spot) →
        ∀ p ∈ lastOf (turns n).limit (before (listing drafts args s) at_), kind p →
          ∃ slot ∈ (turn drafts args turns n s (at_.map (cursorAt args))).1.1, kind slot.spot := by
    intro n s at_ hreached hat p hp hkindp
    rw [← hkind] at hkindp
    obtain ⟨copy, hcopy, rfl, hsame⟩ := hkindp
    obtain ⟨⟨known, rfl⟩, -⟩ := h.reached hreached
    obtain ⟨known', hmono, htable, -, hshow⟩ := h.spec hreached hat
    obtain ⟨slot, hslot, other, hother, hspot, hother'⟩ := hshow copy hcopy hp
    obtain ⟨known'', hmono', rfl⟩ := h.step_later hreads hreached htable
    obtain ⟨hmem, hcmember⟩ := mem_conversationRows.mp hcopy
    obtain ⟨homem, homember⟩ := mem_conversationRows.mp hother
    refine ⟨slot, hslot, ?_⟩
    rw [← hkind]
    exact ⟨other, hother, hspot,
      (hother'.later h.well h.faithful hmono' homem (member_account homember) hmem (member_account hcmember)).trans hsame⟩
  obtain ⟨page, hpage, slot, hslot, hfound⟩ := reads_cover (spots_nodup h.well) h.steady hsome hback hshow hreads
  rw [← hkind] at hfound
  obtain ⟨copy, hcopy, hspot, hsame⟩ := hfound
  obtain ⟨hmem, hcmember⟩ := mem_conversationRows.mp hcopy
  exact ⟨page, hpage, slot, hslot, copy, hmem, hcmember, hspot, hsame⟩

end Run

/-- The conversation `t` of an account. -/
def opened : ThreadReadArgs := ⟨"me", "INBOX", "t", none⟩

def isDrafts (folder : Str) : Bool := folder = "Drafts"

/-- A row of the conversation. -/
def inThread (id : Int) (folder : Str) (uid : Nat) (date : Int) (messageId : Option Str) : StoredRow :=
  ⟨id, "me", folder, uid, [], [], [], date, 1, 0, some "t", messageId, none⟩

/-- Nothing can be fetched, and some bodies are cached after every read. -/
def quiet (limit : Nat) (cached : List (Place × Body)) (_ : Nat) : Turn := ⟨limit, fun _ _ => true, fun _ _ => none, cached⟩

def question : StoredRow := inThread 1 "INBOX" 1 1 (some "q@x")

def answerRow : StoredRow := inThread 2 "Sent" 2 2 none

def bodies (p : Place) : Body := if p.uid = 1 then ⟨[], [], [], 1, "q@x"⟩ else ⟨[], [], [], 2, "a@x"⟩

/-- The answer's body is cached after the page it is on. -/
def answered : Nat → Turn := quiet 1 [(rowPlace answerRow, bodies (rowPlace answerRow))]

theorem answered_reached {n : Nat} {s : List StoredRow} {c : Option Str}
    (h : Reached (turn isDrafts opened answered) [question, answerRow] n s c) : n = 0 ∧ s = [question, answerRow] ∧ c = none ∨
      n = 1 ∧ s = [question, answerRow].map (fill bodies (fun p => p = rowPlace answerRow)) ∧ c = some (threadCursor "Sent" 2) := by
  induction h with
  | start => exact .inl ⟨rfl, rfl, rfl⟩
  | @next n s t c items cursor _ hread ih =>
    rcases ih with ⟨rfl, rfl, rfl⟩ | ⟨rfl, rfl, rfl⟩
    · have hcursor := congrArg (fun out => out.1.2) hread
      have htable := congrArg Prod.snd hread
      refine .inr ⟨rfl, htable.symm.trans (by decide +kernel), hcursor.symm.trans (by decide +kernel)⟩
    · have hcursor := congrArg (fun out => out.1.2) hread
      exact absurd (hcursor.symm.trans (by decide +kernel)) (Option.some_ne_none cursor)

theorem setting_answered : Setting isDrafts opened bodies answered [question, answerRow] where
  well := ⟨by decide, by decide, by decide⟩
  members := by decide
  faithful := ⟨by decide, fun _ _ _ => rfl, by decide⟩
  bodies n := by
    refine ⟨Nat.one_pos, fun _ _ _ h => (nomatch h), fun save hsave => ?_⟩
    rw [mem_singleton.mp hsave]
    exact ⟨rfl, answerRow, mem_cons_of_mem _ mem_cons_self, rfl⟩
  cursors n s cursor hreached := by
    rcases answered_reached hreached with ⟨-, -, hnone⟩ | ⟨-, rfl, hcursor⟩
    · cases hnone
    · rw [hcursor]
      decide +kernel

end Oreneta.Threads.ReadPage

import Mathlib.Data.List.Nodup
import Mathlib.Data.List.Perm.Basic
import Oreneta.Lib.Runs
import Oreneta.Recipients.Fields

/-!
# A column of the board

`frontend/src/lib/kanbanData.ts`: one column, its first-page loads and its next-page loads.

* `columnRequest`, `columnPage` — `fetchColumnThreads`: what is asked of the core, and what is taken from
  its answer.
* `keepReadThreads` — the threads just read stay in a list that no longer has them.
* `step` — one load asked, answered or failed.  A request is asked in one step and answered in a later one;
  any number of loads may be on their way, and their answers come in any order.

The badge cache of the side bar, which the loads also write, is left out.
-/

namespace Oreneta.Kanban

open List Bool

inductive FilterFacet where
  | unread | starred | snoozed | attachments | priority
  | label (name : String)
  | category (name : String)
  deriving DecidableEq, Repr

inductive FilterMode where
  | all
  | facet (facet : FilterFacet)
  deriving DecidableEq, Repr

structure Message where
  threadId : String
  date : Int
  deriving DecidableEq, Repr

structure KanbanColumn where
  accountId : String
  folderId : String
  deriving DecidableEq, Repr

def trim (text : String) : String := String.ofList (Recipients.jsTrim text.toList)

def columnLimit : Nat := 50

def unifiedFolderRoles : List String := ["inbox", "starred", "sent", "drafts", "archive", "junk", "trash"]

def defaultUnifiedFolder : String := "inbox"

def unifiedFolderRole (folderId : String) : String :=
  if folderId ∈ unifiedFolderRoles then folderId else defaultUnifiedFolder

def isUnifiedStarredColumn (column : KanbanColumn) : Bool :=
  column.accountId == "unified" && column.folderId.toLower == "starred"

/-! ## A page -/

/-- The method of the core and the folder it is asked for. -/
inductive Target where
  | starredItems
  | unifiedList (role : String)
  | folderList (accountId folderId : String)
  deriving DecidableEq, Repr

/-- The list a page is asked from. -/
structure ThreadList where
  target : Target
  query : String
  filter : FilterMode
  deriving DecidableEq, Repr

structure ColumnRequest where
  list : ThreadList
  /-- `mail.starredItems` has no such argument. -/
  refresh : Option Bool
  limit : Nat
  beforeCursor : Option String
  deriving DecidableEq, Repr

/-- What the core answers: a page of threads, each one once. -/
structure Answer where
  threads : List Message
  nextCursor : Option String
  folderUnread : Option Nat
  folderSynced : Option Bool
  distinct : (threads.map Message.threadId).Nodup

structure ColumnPage where
  threads : List Message
  folderUnread : Option Nat
  folderSynced : Option Bool
  nextSingle : String
  deriving DecidableEq, Repr

def columnTarget (column : KanbanColumn) : Target :=
  if isUnifiedStarredColumn column then .starredItems
  else if column.accountId = "unified" then .unifiedList (unifiedFolderRole column.folderId)
  else .folderList column.accountId column.folderId

/-- The first half of `fetchColumnThreads`: the request. -/
def columnRequest (column : KanbanColumn) (filter : FilterMode) (refresh : Bool) (query : String)
    (before : Option String) : ColumnRequest :=
  { list := ⟨columnTarget column, trim query, filter⟩
    refresh := if isUnifiedStarredColumn column then none else some refresh
    limit := columnLimit
    beforeCursor := before }

/-- The second half: the page. -/
def columnPage (column : KanbanColumn) (result : Answer) : ColumnPage :=
  { threads := result.threads
    folderUnread := if isUnifiedStarredColumn column then none else result.folderUnread
    folderSynced := if column.accountId = "unified" then none else result.folderSynced
    nextSingle := result.nextCursor.getD "" }

theorem columnPage_distinct (column : KanbanColumn) (result : Answer) :
    ((columnPage column result).threads.map Message.threadId).Nodup := result.distinct

/-! ## The threads just read -/

def newestFirst (threads : List Message) : List Message :=
  threads.mergeSort (fun a b => decide (b.date ≤ a.date))

theorem newestFirst_perm (threads : List Message) : (newestFirst threads).Perm threads :=
  mergeSort_perm threads _

/-- The threads of `shown` that were just read and are not in what was fetched. -/
def keptThreads (readThreads : List String) (shown fetched : List Message) : List Message :=
  shown.filter (fun thread => decide (thread.threadId ∈ readThreads) &&
    !decide (thread.threadId ∈ fetched.map Message.threadId))

/-- `readThreads` are the keys of the record whose value is true. -/
def keepReadThreads (filter : FilterMode) (readThreads : List String) (shown fetched : List Message) :
    List Message :=
  if filter = .all then fetched
  else if readThreads.isEmpty then fetched
  else
    let kept := keptThreads readThreads shown fetched
    if kept.isEmpty then fetched else newestFirst (fetched ++ kept)

/-- What `keepReadThreads` adds. -/
def pinnedThreads (filter : FilterMode) (readThreads : List String) (shown fetched : List Message) :
    List Message :=
  if filter = .all then [] else keptThreads readThreads shown fetched

theorem keepReadThreads_perm (filter : FilterMode) (readThreads : List String) (shown fetched : List Message) :
    (keepReadThreads filter readThreads shown fetched).Perm (fetched ++ pinnedThreads filter readThreads shown fetched) := by
  unfold keepReadThreads pinnedThreads
  split
  · rw [append_nil]
  split
  · rename_i hnone
    rw [List.isEmpty_iff.mp hnone]
    simp [keptThreads]
  dsimp only
  split
  · rename_i hnone
    rw [List.isEmpty_iff.mp hnone, append_nil]
  · exact newestFirst_perm _

/-- Each thread once before and in the page: each thread once after. -/
theorem keepReadThreads_distinct {filter : FilterMode} {readThreads : List String} {shown fetched : List Message}
    (hs : (shown.map Message.threadId).Nodup) (hf : (fetched.map Message.threadId).Nodup) :
    ((keepReadThreads filter readThreads shown fetched).map Message.threadId).Nodup := by
  rw [((keepReadThreads_perm filter readThreads shown fetched).map _).nodup_iff, map_append, nodup_append]
  refine ⟨hf, ?_, ?_⟩
  · unfold pinnedThreads
    split
    · exact nodup_nil
    · exact hs.sublist (List.Sublist.map _ filter_sublist)
  · intro a ha b hb
    obtain ⟨m, hm, rfl⟩ := mem_map.mp hb
    unfold pinnedThreads at hm
    split at hm
    · cases hm
    · simp only [keptThreads, mem_filter, and_eq_true, not_eq_true', decide_eq_false_iff_not] at hm
      rintro rfl
      exact hm.2.2 ha

/-- `loadMoreKanbanColumn`: the next page behind what is stored, the threads already there left out. -/
def mergeThreads (column : KanbanColumn) (existing threads : List Message) : List Message :=
  let merged := existing ++ threads.filter
    (fun thread => !decide (thread.threadId ∈ existing.map Message.threadId))
  if column.accountId = "unified" then newestFirst merged else merged

theorem mergeThreads_perm (column : KanbanColumn) (existing threads : List Message) :
    (mergeThreads column existing threads).Perm (existing ++ threads.filter
      (fun thread => !decide (thread.threadId ∈ existing.map Message.threadId))) := by
  unfold mergeThreads
  dsimp only
  split
  · exact newestFirst_perm _
  · exact List.Perm.refl _

theorem mergeThreads_distinct {column : KanbanColumn} {existing threads : List Message}
    (he : (existing.map Message.threadId).Nodup) (ht : (threads.map Message.threadId).Nodup) :
    ((mergeThreads column existing threads).map Message.threadId).Nodup := by
  rw [((mergeThreads_perm column existing threads).map _).nodup_iff, map_append, nodup_append]
  refine ⟨he, ht.sublist (List.Sublist.map _ filter_sublist), ?_⟩
  intro a ha b hb
  obtain ⟨m, hm, rfl⟩ := mem_map.mp hb
  simp only [mem_filter, not_eq_true', decide_eq_false_iff_not] at hm
  rintro rfl
  exact hm.2 ha

/-! ## The column -/

/-- Where a `loadKanbanColumn` call is: its page is on its way, it waits for the folder's first sync, or the
page after that sync is on its way. -/
inductive Phase where
  | asked (request : ColumnRequest)
  | firstSync
  | askedAgain (request : ColumnRequest)
  deriving DecidableEq, Repr

structure Load where
  version : Nat
  refresh : Bool
  /-- Trimmed. -/
  query : String
  phase : Phase
  deriving DecidableEq, Repr

structure ColumnState where
  threads : List Message
  cursor : String
  unreadCount : Option Nat
  loading : Bool
  loadingMore : Bool
  /-- `columnLoadVersions`. -/
  version : Nat
  /-- `activeKanbanColumnFilter`. -/
  filter : FilterMode
  readThreads : List String
  /-- The `loadKanbanColumn` calls that have not returned. -/
  loads : List Load
  /-- The requests of the `loadMoreKanbanColumn` calls that have not returned. -/
  nextPages : List ColumnRequest
  deriving DecidableEq, Repr

/-- A column nobody has loaded. -/
def ColumnState.empty (filter : FilterMode) : ColumnState :=
  { threads := [], cursor := "", unreadCount := none, loading := false, loadingMore := false, version := 0,
    filter := filter, readThreads := [], loads := [], nextPages := [] }

inductive Action where
  | setFilter (filter : FilterMode)
  | setReadThreads (readThreads : List String)
  /-- `loadKanbanColumn` is called. -/
  | load (refresh : Bool) (query : String)
  /-- The answer to the request a load waits for; `awaits` is `awaitsFirstSync` at that moment. -/
  | answered (call : Load) (result : Answer) (awaits : Bool)
  /-- That request failed. -/
  | failed (call : Load)
  | synced (call : Load)
  /-- The sync failed or took too long. -/
  | notSynced (call : Load)
  /-- `loadMoreKanbanColumn` is called. -/
  | loadMore
  | moreAnswered (request : ColumnRequest) (result : Answer)
  | moreFailed (request : ColumnRequest)

namespace ColumnState

/-- A load returns; its `finally`. -/
def settle (call : Load) (s : ColumnState) : ColumnState :=
  { s with
    loads := s.loads.erase call
    loading := if s.version = call.version then false else s.loading }

/-- What a load stores of its page. -/
def store (page : ColumnPage) (cursor : String) (s : ColumnState) : ColumnState :=
  { s with
    threads := keepReadThreads s.filter s.readThreads s.threads page.threads
    unreadCount := if page.folderUnread.isSome then page.folderUnread else s.unreadCount
    cursor := cursor }

/-- A load stops at an `await`. -/
def waits (call : Load) (phase : Phase) (s : ColumnState) : ColumnState :=
  { s with loads := { call with phase := phase } :: s.loads.erase call }

def loadKanbanColumn (column : KanbanColumn) (refresh : Bool) (query : String) (s : ColumnState) : ColumnState :=
  { s with
    version := s.version + 1
    loading := true
    loads := ⟨s.version + 1, refresh, trim query, .asked (columnRequest column s.filter refresh (trim query) none)⟩
      :: s.loads }

/-- The first answer of a load. -/
def loaded (column : KanbanColumn) (call : Load) (result : Answer) (awaits : Bool) (s : ColumnState) :
    ColumnState :=
  if s.version ≠ call.version then s.settle call
  else
    let page := columnPage column result
    let stored := s.store page (if call.query = "" then page.nextSingle else "")
    if page.folderSynced = some false ∧ page.threads = [] ∧ call.refresh ∧ call.query = "" ∧ awaits then
      stored.waits call .firstSync
    else stored.settle call

/-- The folder has been synced for the first time. -/
def syncedFirst (column : KanbanColumn) (call : Load) (s : ColumnState) : ColumnState :=
  if s.version ≠ call.version then s.settle call
  else s.waits call (.askedAgain (columnRequest column s.filter false call.query none))

/-- The second answer of a load. -/
def loadedAgain (column : KanbanColumn) (call : Load) (result : Answer) (s : ColumnState) : ColumnState :=
  if s.version ≠ call.version then s.settle call
  else
    let synced := columnPage column result
    (s.store synced synced.nextSingle).settle call

def columnHasMore (s : ColumnState) : Bool := s.cursor != ""

def loadMoreKanbanColumn (column : KanbanColumn) (s : ColumnState) : ColumnState :=
  if s.loadingMore || !s.columnHasMore then s
  else
    { s with
      loadingMore := true
      nextPages := columnRequest column s.filter false "" (some s.cursor) :: s.nextPages }

def loadedMore (column : KanbanColumn) (request : ColumnRequest) (result : Answer) (s : ColumnState) :
    ColumnState :=
  let page := columnPage column result
  { s with
    threads := mergeThreads column s.threads page.threads
    cursor := page.nextSingle
    loadingMore := false
    nextPages := s.nextPages.erase request }

def failedMore (request : ColumnRequest) (s : ColumnState) : ColumnState :=
  { s with loadingMore := false, nextPages := s.nextPages.erase request }

end ColumnState

/-- One step of the column.  An answer comes to a request on its way. -/
def step (column : KanbanColumn) (s : ColumnState) (action : Action) : Option ColumnState :=
  match action with
  | .setFilter filter => some { s with filter := filter }
  | .setReadThreads readThreads => some { s with readThreads := readThreads }
  | .load refresh query => some (s.loadKanbanColumn column refresh query)
  | .answered call result awaits =>
    if call ∈ s.loads then
      match call.phase with
      | .asked _ => some (s.loaded column call result awaits)
      | .firstSync => none
      | .askedAgain _ => some (s.loadedAgain column call result)
    else none
  | .failed call => if call ∈ s.loads ∧ call.phase ≠ .firstSync then some (s.settle call) else none
  | .synced call => if call ∈ s.loads ∧ call.phase = .firstSync then some (s.syncedFirst column call) else none
  | .notSynced call => if call ∈ s.loads ∧ call.phase = .firstSync then some (s.settle call) else none
  | .loadMore => some (s.loadMoreKanbanColumn column)
  | .moreAnswered request result =>
    if request ∈ s.nextPages then some (s.loadedMore column request result) else none
  | .moreFailed request => if request ∈ s.nextPages then some (s.failedMore request) else none

end Oreneta.Kanban

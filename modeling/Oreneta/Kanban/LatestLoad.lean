import Mathlib.Data.List.Chain
import Oreneta.Kanban.Column

/-!
# A column shows what its latest load asked for

An observer beside the column writes down the list the latest load asked for and the pages that came in
since that load's first page was stored.

* `Shows` — the stored threads are those of the pages, each one asked for with the cursor of the page before,
  and of the threads `keepReadThreads` pins; the stored cursor came with the last page, or is empty under a
  search.
* `column_shows` — `Shows` in every run in which a next page arrives at the list it was asked for (`OwnPage`).
  A first page is taken only from the latest load; nothing of the kind is checked of a next page.
-/

namespace Oreneta.Kanban

open Text Runs List

/-! ## The observer -/

structure Received where
  request : ColumnRequest
  page : ColumnPage
  deriving DecidableEq, Repr

/-- The pages stored since the latest load's first one, and what was pinned beside that one. -/
structure Listing where
  first : Received
  later : List Received
  pinned : List Message
  deriving DecidableEq, Repr

/-- How far the latest load got. -/
inductive Progress where
  | idle
  | asking (list : ThreadList)
  | failed
  | shown (list : ThreadList) (listing : Listing)
  deriving DecidableEq, Repr

def Listing.last (l : Listing) : Received := l.later.getLast?.getD l.first

/-- The request whose answer a load waits for. -/
def Phase.request : Phase → Option ColumnRequest
  | .asked request => some request
  | .firstSync => none
  | .askedAgain request => some request

/-- The first page of the latest load, when its answer comes. -/
def Progress.received (column : KanbanColumn) (s : ColumnState) (call : Load) (result : Answer) :
    Progress → Progress
  | .asking list =>
    match call.phase.request with
    | some request =>
      .shown list ⟨⟨request, columnPage column result⟩, [],
        pinnedThreads s.filter s.readThreads s.threads (columnPage column result).threads⟩
    | none => .asking list
  | other => other

/-- A next page, whatever list it belongs to. -/
def Progress.more (column : KanbanColumn) (request : ColumnRequest) (result : Answer) : Progress → Progress
  | .shown list l => .shown list { l with later := l.later ++ [⟨request, columnPage column result⟩] }
  | other => other

def see (column : KanbanColumn) (s : ColumnState) (action : Action) (_ : ColumnState) (p : Progress) : Progress :=
  match action with
  | .load refresh query => .asking (columnRequest column s.filter refresh (trim query) none).list
  | .answered call result _ => if s.version = call.version then p.received column s call result else p
  | .failed call => if s.version = call.version then .failed else p
  | .synced call =>
    if s.version = call.version then .asking (columnRequest column s.filter false call.query none).list else p
  | .moreAnswered request result => p.more column request result
  | _ => p

/-- The column and its observer. -/
def watchedStep (column : KanbanColumn) : ColumnState × Progress → Action → Option (ColumnState × Progress) :=
  watched (step column) (see column)

/-- `b` was asked for as the page after `a`. -/
def NextPage (a b : Received) : Prop :=
  b.request.list = a.request.list ∧ b.request.beforeCursor = some a.page.nextSingle

/-- The threads and the cursor are those of the pages of `list`, from the first one on. -/
structure Shows (threads : List Message) (cursor : String) (list : ThreadList) (l : Listing) : Prop where
  asked : l.first.request.list = list
  fromStart : l.first.request.beforeCursor = none
  chained : (l.first :: l.later).IsChain NextPage
  once : (threads.map Message.threadId).Nodup
  pages : ∀ r ∈ l.first :: l.later, ∀ m ∈ r.page.threads, m.threadId ∈ threads.map Message.threadId
  pinned : ∀ m ∈ l.pinned, m.threadId ∈ threads.map Message.threadId
  only : ∀ m ∈ threads, m ∈ l.pinned ∨ ∃ r ∈ l.first :: l.later, m ∈ r.page.threads
  cursor_eq : cursor = if list.query = "" then l.last.page.nextSingle else ""

/-- A next page arrives at the list it was asked for: the same list, and still the same last page. -/
def OwnPage (x : ColumnState × Progress) (action : Action) : Prop :=
  match action, x.2 with
  | .moreAnswered request _, .shown list _ => request.list = list ∧ request.beforeCursor = some x.1.cursor
  | _, _ => True

instance (x : ColumnState × Progress) (action : Action) : Decidable (OwnPage x action) := by
  unfold OwnPage
  split <;> infer_instance

/-! ## The invariant -/

theorem trim_trim (text : String) : trim (trim text) = trim text := by
  unfold trim
  rw [String.toList_ofList]
  exact congrArg String.ofList (trimBy_eq_self (trimBy_trimmed _ _))

/-- A load that has not returned. -/
structure CallSound (version : Nat) (p : Progress) (call : Load) : Prop where
  below : call.version ≤ version
  trimmed : trim call.query = call.query
  /-- It waits for the first page of a list, which the observer knows if it is the latest. -/
  request : ∀ r, call.phase.request = some r → r.beforeCursor = none ∧ r.list.query = call.query ∧
    (call.version = version → p = .asking r.list)
  /-- Only a load without a search waits for the first sync. -/
  plain : (∀ r, call.phase ≠ .asked r) → call.query = ""

structure Sound (s : ColumnState) (p : Progress) : Prop where
  once : (s.threads.map Message.threadId).Nodup
  versions : (s.loads.map Load.version).Nodup
  calls : ∀ call ∈ s.loads, CallSound s.version p call
  next : ∀ r ∈ s.nextPages, r.beforeCursor ≠ some ""
  shown : ∀ list l, p = .shown list l → Shows s.threads s.cursor list l

/-- A superseded load knows nothing of the observer's list. -/
theorem CallSound.superseded {version : Nat} {p q : Progress} {call : Load} (h : CallSound version p call)
    (hv : call.version ≠ version) : CallSound version q call :=
  ⟨h.below, h.trimmed, fun r hr => ⟨(h.request r hr).1, (h.request r hr).2.1, fun he => absurd he hv⟩, h.plain⟩

theorem CallSound.older {version : Nat} {p q : Progress} {call : Load} (h : CallSound version p call) :
    CallSound (version + 1) q call := by
  have hle := h.below
  refine ⟨by omega, h.trimmed, fun r hr => ⟨(h.request r hr).1, (h.request r hr).2.1, fun he => ?_⟩, h.plain⟩
  omega

namespace Sound

variable {column : KanbanColumn} {s : ColumnState} {p : Progress}

variable {call : Load}

theorem other_versions (h : Sound s p) {c : Load} (hm : call ∈ s.loads) (hc : c ∈ s.loads.erase call) :
    c ∈ s.loads ∧ c.version ≠ call.version := by
  have hnodup : s.loads.Nodup := h.versions.of_map
  rw [hnodup.mem_erase_iff] at hc
  exact ⟨hc.2, fun he => hc.1 (inj_on_of_nodup_map h.versions hc.2 hm he)⟩

/-- A superseded load returns. -/
theorem settle_superseded (h : Sound s p) : Sound (s.settle call) p where
  once := h.once
  versions := h.versions.sublist (erase_sublist.map _)
  calls := fun c hc => h.calls c (mem_of_mem_erase hc)
  next := h.next
  shown := h.shown

/-- The latest load returns. -/
theorem settle_latest (h : Sound s p) (hm : call ∈ s.loads) (hv : s.version = call.version)
    {t : ColumnState} {q : Progress} (ht : t.loads = s.loads ∧ t.version = s.version ∧ t.nextPages = s.nextPages)
    (hnodup : (t.threads.map Message.threadId).Nodup)
    (hq : ∀ list l, q = .shown list l → Shows t.threads t.cursor list l) : Sound (t.settle call) q where
  once := hnodup
  versions := by
    show ((t.loads.erase call).map Load.version).Nodup
    rw [ht.1]
    exact h.versions.sublist (erase_sublist.map _)
  calls := by
    intro c hc
    have hc : c ∈ t.loads.erase call := hc
    rw [ht.1] at hc
    obtain ⟨hin, hne⟩ := h.other_versions hm hc
    show CallSound t.version q c
    rw [ht.2.1]
    exact (h.calls c hin).superseded (hv ▸ hne)
  next := by
    show ∀ r ∈ t.nextPages, _
    rw [ht.2.2]
    exact h.next
  shown := hq

/-- The latest load goes on to its next request. -/
theorem waits_latest (h : Sound s p) (hm : call ∈ s.loads) (hv : s.version = call.version)
    {t : ColumnState} {q : Progress} {phase : Phase} (ht : t.loads = s.loads ∧ t.version = s.version ∧ t.nextPages = s.nextPages)
    (hnodup : (t.threads.map Message.threadId).Nodup) (hq : ∀ list l, q = .shown list l → Shows t.threads t.cursor list l)
    (hcall : CallSound s.version q { call with phase := phase }) : Sound (t.waits call phase) q := by
  have hrest := settle_latest h hm hv ht hnodup hq
  refine ⟨hnodup, ?_, ?_, hrest.next, hq⟩
  · refine nodup_cons.mpr ⟨?_, hrest.versions⟩
    intro hin
    obtain ⟨c, hc, he⟩ := mem_map.mp hin
    rw [ht.1] at hc
    exact (h.other_versions hm hc).2 he
  · intro c hc
    rcases mem_cons.mp hc with rfl | hc
    · show CallSound t.version q _
      rw [ht.2.1]
      exact hcall
    · exact hrest.calls c hc

end Sound

/-! ## A page is stored -/

section

variable {column : KanbanColumn} {s : ColumnState} {list : ThreadList}

/-- The first page of a list. -/
theorem shows_first {request : ColumnRequest} {result : Answer} {cursor : String}
    (hs : (s.threads.map Message.threadId).Nodup) (hlist : request.list = list) (hstart : request.beforeCursor = none)
    (hcursor : cursor = if list.query = "" then (columnPage column result).nextSingle else "") :
    Shows (s.store (columnPage column result) cursor).threads cursor list ⟨⟨request, columnPage column result⟩, [],
        pinnedThreads s.filter s.readThreads s.threads (columnPage column result).threads⟩ := by
  have hperm := keepReadThreads_perm s.filter s.readThreads s.threads (columnPage column result).threads
  have hmem : ∀ m, m ∈ keepReadThreads s.filter s.readThreads s.threads (columnPage column result).threads ↔
      m ∈ (columnPage column result).threads ∨
        m ∈ pinnedThreads s.filter s.readThreads s.threads (columnPage column result).threads :=
    fun m => by rw [hperm.mem_iff, mem_append]
  refine ⟨hlist, hstart, List.IsChain.singleton _, ?_, ?_, ?_, ?_, hcursor⟩
  · exact keepReadThreads_distinct hs (columnPage_distinct column result)
  · intro r hr m hm
    rw [mem_singleton.mp hr] at hm
    exact mem_map_of_mem ((hmem m).mpr (.inl hm))
  · exact fun m hm => mem_map_of_mem ((hmem m).mpr (.inr hm))
  · intro m hm
    rcases (hmem m).mp hm with hm | hm
    · exact .inr ⟨_, mem_cons_self, hm⟩
    · exact .inl hm

theorem last_append (l : Listing) (r : Received) : ({ l with later := l.later ++ [r] } : Listing).last = r := by
  simp [Listing.last]

/-- The page after the last one. -/
theorem shows_more {l : Listing} {request : ColumnRequest} {result : Answer} {threads : List Message}
    {cursor : String} (h : Shows threads cursor list l) (hlist : request.list = list)
    (hbefore : request.beforeCursor = some cursor) (hne : request.beforeCursor ≠ some "") :
    Shows (mergeThreads column threads (columnPage column result).threads) (columnPage column result).nextSingle
      list { l with later := l.later ++ [⟨request, columnPage column result⟩] } := by
  have hplain : list.query = "" := by
    by_contra hq
    have hempty := h.cursor_eq
    rw [if_neg hq] at hempty
    exact hne (hempty ▸ hbefore)
  have hcursor := h.cursor_eq
  rw [if_pos hplain] at hcursor
  have hperm := mergeThreads_perm column threads (columnPage column result).threads
  have hmem : ∀ m, m ∈ mergeThreads column threads (columnPage column result).threads ↔
      m ∈ threads ∨ (m ∈ (columnPage column result).threads ∧ m.threadId ∉ threads.map Message.threadId) :=
    fun m => by
      rw [hperm.mem_iff, mem_append, mem_filter, Bool.not_eq_true', decide_eq_false_iff_not]
  have hstays : ∀ id, id ∈ threads.map Message.threadId →
      id ∈ (mergeThreads column threads (columnPage column result).threads).map Message.threadId := by
    intro id hid
    obtain ⟨m, hm, rfl⟩ := mem_map.mp hid
    exact mem_map_of_mem ((hmem m).mpr (.inl hm))
  refine ⟨h.asked, h.fromStart, ?_, ?_, ?_, ?_, ?_, ?_⟩
  · -- every page so far is of the first one's list
    have hall : ∀ r ∈ l.first :: l.later, r.request.list = list :=
      h.chained.induction (fun r => r.request.list = list) _ (fun _ _ hab ha => hab.1.trans ha) fun _ => h.asked
    show List.IsChain NextPage ((l.first :: l.later) ++ [⟨request, columnPage column result⟩])
    rw [isChain_append]
    refine ⟨h.chained, List.IsChain.singleton _, ?_⟩
    intro a ha b hb
    cases hb
    have ha' : a = l.last := by
      rw [getLast?_cons] at ha
      exact (Option.some.inj ha).symm
    have hin : a ∈ l.first :: l.later := mem_of_getLast? ha
    exact ⟨hlist.trans (hall a hin).symm, by rw [ha', ← hcursor]; exact hbefore⟩
  · exact mergeThreads_distinct h.once (columnPage_distinct column result)
  · intro r hr m hm
    have hr : r ∈ (l.first :: l.later) ++ [⟨request, columnPage column result⟩] := hr
    rcases mem_append.mp hr with hr | hr
    · exact hstays _ (h.pages r hr m hm)
    · rw [mem_singleton.mp hr] at hm
      by_cases hin : m.threadId ∈ threads.map Message.threadId
      · exact hstays _ hin
      · exact mem_map_of_mem ((hmem m).mpr (.inr ⟨hm, hin⟩))
  · exact fun m hm => hstays _ (h.pinned m hm)
  · intro m hm
    show m ∈ l.pinned ∨ ∃ r ∈ (l.first :: l.later) ++ [⟨request, columnPage column result⟩], m ∈ r.page.threads
    rcases (hmem m).mp hm with hm | ⟨hm, -⟩
    · rcases h.only m hm with hp | ⟨r, hr, hm⟩
      · exact .inl hp
      · exact .inr ⟨r, mem_append_left _ hr, hm⟩
    · exact .inr ⟨_, mem_append_right _ (mem_singleton_self _), hm⟩
  · rw [if_pos hplain, last_append]

end

/-! ## One step -/

section

variable {column : KanbanColumn} {s t : ColumnState} {p : Progress}

theorem sound_loaded (h : Sound s p) {call : Load} {r : ColumnRequest} {result : Answer} {awaits : Bool}
    (hm : call ∈ s.loads) (hphase : call.phase = .asked r) : Sound (s.loaded column call result awaits)
      (if s.version = call.version then p.received column s call result else p) := by
  unfold ColumnState.loaded
  by_cases hv : s.version = call.version
  · rw [if_neg (not_not.mpr hv), if_pos hv]
    have hcall := h.calls call hm
    obtain ⟨hstart, hquery, hp⟩ := hcall.request r (by rw [hphase]; rfl)
    have hpq : p.received column s call result = .shown r.list ⟨⟨r, columnPage column result⟩, [],
        pinnedThreads s.filter s.readThreads s.threads (columnPage column result).threads⟩ := by
      rw [hp hv.symm]
      simp [Progress.received, hphase, Phase.request]
    have hq : ∀ list l, p.received column s call result = .shown list l →
        Shows (s.store (columnPage column result)
            (if call.query = "" then (columnPage column result).nextSingle else "")).threads
          (if call.query = "" then (columnPage column result).nextSingle else "") list l := by
      intro list l he
      rw [hpq] at he
      cases he
      exact shows_first h.once rfl hstart (by rw [hquery])
    have hnodup : ((s.store (columnPage column result)
        (if call.query = "" then (columnPage column result).nextSingle else "")).threads.map Message.threadId).Nodup :=
      keepReadThreads_distinct h.once (columnPage_distinct column result)
    dsimp only
    split
    · rename_i hwait
      refine Sound.waits_latest h hm hv ⟨rfl, rfl, rfl⟩ hnodup hq ?_
      exact ⟨hcall.below, hcall.trimmed, fun _ hr => (by cases hr), fun _ => hwait.2.2.2.1⟩
    · exact Sound.settle_latest h hm hv ⟨rfl, rfl, rfl⟩ hnodup hq
  · rw [if_pos hv, if_neg hv]
    exact h.settle_superseded

theorem sound_loadedAgain (h : Sound s p) {call : Load} {r : ColumnRequest} {result : Answer}
    (hm : call ∈ s.loads) (hphase : call.phase = .askedAgain r) : Sound (s.loadedAgain column call result)
      (if s.version = call.version then p.received column s call result else p) := by
  unfold ColumnState.loadedAgain
  by_cases hv : s.version = call.version
  · rw [if_neg (not_not.mpr hv), if_pos hv]
    have hcall := h.calls call hm
    obtain ⟨hstart, hquery, hp⟩ := hcall.request r (by rw [hphase]; rfl)
    have hplain : call.query = "" := hcall.plain (fun _ he => by rw [hphase] at he; cases he)
    refine Sound.settle_latest h hm hv ⟨rfl, rfl, rfl⟩
      (keepReadThreads_distinct h.once (columnPage_distinct column result)) ?_
    intro list l he
    rw [hp hv.symm] at he
    simp only [Progress.received, hphase, Phase.request] at he
    cases he
    exact shows_first h.once rfl hstart (by rw [hquery, if_pos hplain])
  · rw [if_pos hv, if_neg hv]
    exact h.settle_superseded

theorem sound_syncedFirst (h : Sound s p) {call : Load} (hm : call ∈ s.loads) (hphase : call.phase = .firstSync) :
    Sound (s.syncedFirst column call)
      (if s.version = call.version then .asking (columnRequest column s.filter false call.query none).list
        else p) := by
  unfold ColumnState.syncedFirst
  by_cases hv : s.version = call.version
  · rw [if_neg (not_not.mpr hv), if_pos hv]
    have hcall := h.calls call hm
    refine Sound.waits_latest h hm hv ⟨rfl, rfl, rfl⟩ h.once (fun _ _ he => by cases he) ?_
    refine ⟨hcall.below, hcall.trimmed, ?_, fun _ => hcall.plain fun _ he => by rw [hphase] at he; cases he⟩
    intro r hr
    cases hr
    exact ⟨rfl, hcall.trimmed, fun _ => rfl⟩
  · rw [if_pos hv, if_neg hv]
    exact h.settle_superseded

theorem sound_load (h : Sound s p) (refresh : Bool) (query : String) : Sound (s.loadKanbanColumn column refresh query)
      (.asking (columnRequest column s.filter refresh (trim query) none).list) where
  once := h.once
  versions := by
    refine nodup_cons.mpr ⟨?_, h.versions⟩
    intro hin
    obtain ⟨c, hc, he⟩ := mem_map.mp hin
    have hle := (h.calls c hc).below
    have he : c.version = s.version + 1 := he
    omega
  calls := by
    intro c hc
    rcases mem_cons.mp hc with rfl | hc
    · refine ⟨le_refl _, trim_trim query, ?_, fun hno => absurd rfl (hno _)⟩
      intro r hr
      cases hr
      exact ⟨rfl, trim_trim query, fun _ => rfl⟩
    · exact (h.calls c hc).older
  next := h.next
  shown := fun _ _ he => by cases he

theorem sound_loadMore (h : Sound s p) : Sound (s.loadMoreKanbanColumn column) p := by
  unfold ColumnState.loadMoreKanbanColumn
  split
  · exact h
  · rename_i hgo
    have hcursor : s.cursor ≠ "" := by
      simp only [ColumnState.columnHasMore, Bool.or_eq_true, Bool.not_eq_true', not_or] at hgo
      simpa using hgo.2
    refine ⟨h.once, h.versions, h.calls, ?_, h.shown⟩
    intro r hr
    rcases mem_cons.mp hr with rfl | hr
    · exact fun he => hcursor (Option.some.inj he)
    · exact h.next r hr

theorem sound_loadedMore (h : Sound s p) {request : ColumnRequest} {result : Answer}
    (hm : request ∈ s.nextPages) (hok : OwnPage (s, p) (.moreAnswered request result)) :
    Sound (s.loadedMore column request result) (p.more column request result) where
  once := mergeThreads_distinct h.once (columnPage_distinct column result)
  versions := h.versions
  calls := by
    intro c hc
    have hcall := h.calls c hc
    refine ⟨hcall.below, hcall.trimmed, fun r hr => ⟨(hcall.request r hr).1, (hcall.request r hr).2.1, ?_⟩, hcall.plain⟩
    intro hv
    rw [(hcall.request r hr).2.2 hv]
    rfl
  next := fun r hr => h.next r (mem_of_mem_erase hr)
  shown := by
    intro list l he
    cases p with
    | shown asked shown =>
      cases he
      exact shows_more (h.shown _ _ rfl) hok.1 hok.2 (h.next request hm)
    | _ => cases he

theorem sound_step {action : Action} (h : Sound s p) (hok : OwnPage (s, p) action)
    (ht : step column s action = some t) : Sound t (see column s action t p) := by
  cases action with
  | setFilter filter =>
    cases ht
    exact ⟨h.once, h.versions, h.calls, h.next, h.shown⟩
  | setReadThreads readThreads =>
    cases ht
    exact ⟨h.once, h.versions, h.calls, h.next, h.shown⟩
  | load refresh query =>
    cases ht
    exact sound_load h refresh query
  | answered call result awaits =>
    simp only [step] at ht
    split at ht
    · rename_i hm
      split at ht
      · rename_i r hphase
        cases ht
        exact sound_loaded h hm hphase
      · cases ht
      · rename_i r hphase
        cases ht
        exact sound_loadedAgain h hm hphase
    · cases ht
  | failed call =>
    simp only [step] at ht
    split at ht
    · rename_i hm
      cases ht
      by_cases hv : s.version = call.version
      · simp only [see, if_pos hv]
        exact Sound.settle_latest h hm.1 hv ⟨rfl, rfl, rfl⟩ h.once fun _ _ he => by cases he
      · simp only [see, if_neg hv]
        exact h.settle_superseded
    · cases ht
  | synced call =>
    simp only [step] at ht
    split at ht
    · rename_i hm
      cases ht
      exact sound_syncedFirst h hm.1 hm.2
    · cases ht
  | notSynced call =>
    simp only [step] at ht
    split at ht
    · cases ht
      exact h.settle_superseded
    · cases ht
  | loadMore =>
    cases ht
    exact sound_loadMore h
  | moreAnswered request result =>
    simp only [step] at ht
    split at ht
    · rename_i hm
      cases ht
      exact sound_loadedMore h hm hok
    · cases ht
  | moreFailed request =>
    simp only [step] at ht
    split at ht
    · cases ht
      exact ⟨h.once, h.versions, h.calls, fun r hr => h.next r (mem_of_mem_erase hr), h.shown⟩
    · cases ht

end

/-! ## Every run -/

theorem sound_empty (filter : FilterMode) : Sound (ColumnState.empty filter) .idle where
  once := nodup_nil
  versions := nodup_nil
  calls := fun _ hc => by cases hc
  next := fun _ hr => by cases hr
  shown := fun _ _ he => by cases he

theorem sound_run {column : KanbanColumn} {filter : FilterMode} {as : List Action} {x : ColumnState × Progress}
    (hok : AllSteps (watchedStep column) OwnPage (ColumnState.empty filter, .idle) as)
    (hr : run (watchedStep column) (ColumnState.empty filter, .idle) as = some x) : Sound x.1 x.2 := by
  have hstep : ∀ (x : ColumnState × Progress) a y, Sound x.1 x.2 → OwnPage x a → watchedStep column x a = some y →
      Sound y.1 y.2 := by
    intro x a y hx hown hy
    obtain ⟨hs, hp⟩ := watched_some hy
    rw [hp]
    exact sound_step hx hown hs
  exact run_invariant hstep (sound_empty filter) hok hr

/-- **A column shows only what its latest load asked for**, as long as every next page arrives at the list it
was asked for. -/
theorem column_shows {column : KanbanColumn} {filter : FilterMode} {as : List Action} {x : ColumnState × Progress}
    (hok : AllSteps (watchedStep column) OwnPage (ColumnState.empty filter, .idle) as)
    (hr : run (watchedStep column) (ColumnState.empty filter, .idle) as = some x) {list : ThreadList} {l : Listing}
    (hx : x.2 = .shown list l) : Shows x.1.threads x.1.cursor list l :=
  (sound_run hok hr).shown list l hx

/-! ## A page of another list -/

def inbox : KanbanColumn := ⟨"me", "INBOX"⟩

def answer (threadId : String) (date : Int) (nextCursor : Option String) : Answer :=
  ⟨[⟨threadId, date⟩], nextCursor, none, some true, nodup_singleton _⟩

/-- The page after the one that ends at `cursor`, of everything in the inbox. -/
def olderMail (cursor : String) : ColumnRequest := columnRequest inbox .all false "" (some cursor)

def firstLoad (version : Nat) (query : String) : Load :=
  ⟨version, false, query, .asked (columnRequest inbox .all false query none)⟩

theorem column_shows_two_pages : ∃ x list l, run (watchedStep inbox) (ColumnState.empty .all, .idle)
        [.load false "", .answered (firstLoad 1 "") (answer "new" 20 (some "20")) true, .loadMore,
          .moreAnswered (olderMail "20") (answer "old" 10 none)] = some x ∧
      x.2 = .shown list l ∧ Shows x.1.threads x.1.cursor list l := by
  have hr : run (watchedStep inbox) (ColumnState.empty .all, .idle)
      [.load false "", .answered (firstLoad 1 "") (answer "new" 20 (some "20")) true, .loadMore,
        .moreAnswered (olderMail "20") (answer "old" 10 none)] =
      some ({ ColumnState.empty .all with version := 1, threads := [⟨"new", 20⟩, ⟨"old", 10⟩] },
        .shown ⟨.folderList "me" "INBOX", "", .all⟩
          ⟨⟨columnRequest inbox .all false "" none, columnPage inbox (answer "new" 20 (some "20"))⟩,
            [⟨olderMail "20", columnPage inbox (answer "old" 10 none)⟩], []⟩) := by decide +kernel
  exact ⟨_, _, _, hr, rfl, column_shows (by decide +kernel) hr rfl⟩

/-- The older mail is asked for, a search is typed and answered, and the older mail arrives. -/
theorem search_shows_older_mail : ¬ ∀ (column : KanbanColumn) (filter : FilterMode) (as : List Action)
    (x : ColumnState × Progress) (list : ThreadList) (l : Listing),
    run (watchedStep column) (ColumnState.empty filter, .idle) as = some x → x.1.loads = [] →
      x.1.nextPages = [] → x.2 = .shown list l → Shows x.1.threads x.1.cursor list l := by
  intro h
  have hr : run (watchedStep inbox) (ColumnState.empty .all, .idle)
      [.load false "", .answered (firstLoad 1 "") (answer "new" 20 (some "20")) true, .loadMore,
        .load false "invoice", .answered (firstLoad 2 "invoice") (answer "found" 5 none) true,
        .moreAnswered (olderMail "20") (answer "old" 10 (some "10"))] =
      some ({ ColumnState.empty .all with
          version := 2, threads := [⟨"found", 5⟩, ⟨"old", 10⟩], cursor := "10" },
        .shown ⟨.folderList "me" "INBOX", "invoice", .all⟩
          ⟨⟨columnRequest inbox .all false "invoice" none, columnPage inbox (answer "found" 5 none)⟩,
            [⟨olderMail "20", columnPage inbox (answer "old" 10 (some "10"))⟩], []⟩) := by decide +kernel
  have hshows := h inbox .all _ _ _ _ hr rfl rfl rfl
  exact absurd hshows.cursor_eq (by decide)

end Oreneta.Kanban

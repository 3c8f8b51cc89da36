import Oreneta.Lib.Runs
import Oreneta.Threads.Keys

/-!
# Conversation cards and the messages behind them

`store/mod.rs`: the headers of a folder grouped into cards, and the messages an action on a card touches.

* `groupThreadCardsWithDrafts` — the cards, in the order of their first messages.
* `resolveMessageUids` — the messages of a folder under a thread key, narrowed to a subject.
* `Tallied` — what the cards tell of the headers gone through; `group_tallied`.
* `cards_resolve` — every message is in one card, which counts its messages, and an action on the card
  touches these and no others.
-/

namespace Oreneta.Threads

open Paging Keyset List

/-- The earliest message of a thread. -/
structure RootSubject where
  display : Str
  group : Str
  uid : Nat
  deriving DecidableEq, Repr

/-- What is noted of the thread of a key, after one more message. -/
def noteRoot (key : Str) (root : Option RootSubject) (message : Header) : Option RootSubject :=
  if message.uid = 0 ∨ effectiveThreadKey message ≠ key then root
  else
    let noted := root.getD ⟨[], [], 0⟩
    if noted.uid = 0 ∨ message.uid < noted.uid then
      some ⟨normalizeThreadSubject message.subject, threadGroupingSubject message.subject, message.uid⟩
    else some noted

def rootOf (messages : List Header) (key : Str) : Option RootSubject := messages.foldl (noteRoot key) none

structure ThreadCard where
  threadKey : Str
  originalThreadKey : Option Str
  header : Header
  unreadCount : Nat
  messageCount : Nat
  hasDraft : Bool
  deriving DecidableEq, Repr

/-- The card a message opens. -/
def newCard (messages : List Header) (folder : Str) (drafts : List Str) (message : Header) : ThreadCard :=
  let base := effectiveThreadKey message
  let branch := shouldBranchThreadBySubject base
  let groupSubject := if branch then threadGroupingSubject message.subject else []
  let root := rootOf messages base
  let title := (root.map RootSubject.display).getD []
  let key := cardThreadKey message
  { threadKey := key
    originalThreadKey :=
      if branch && (root.map (fun r => decide (r.group ≠ groupSubject))).getD false then
        root.map (fun r => branchCompoundKey base r.group)
      else none
    header := { message with
      folder := if message.folder.isEmpty then folder else message.folder
      threadKey := key
      subject := if title.isEmpty then message.subject else title }
    unreadCount := 0
    messageCount := 0
    hasDraft := drafts.contains base }

/-- One more message of a card. -/
def ThreadCard.tally (card : ThreadCard) (message : Header) : ThreadCard :=
  { card with
    messageCount := card.messageCount + 1
    unreadCount := if message.seen then card.unreadCount else card.unreadCount + 1
    header := { card.header with
      seen := card.header.seen && message.seen
      starred := card.header.starred || message.starred } }

/-- A message goes to the card of its key, which it opens if there is none. -/
def addMessage (messages : List Header) (folder : Str) (drafts : List Str) (cards : List ThreadCard)
    (message : Header) : List ThreadCard :=
  if message.uid = 0 then cards
  else
    let key := cardThreadKey message
    let opened := if cards.any (fun card => card.threadKey = key) then cards
      else cards ++ [newCard messages folder drafts message]
    opened.map (fun card => if card.threadKey = key then card.tally message else card)

/-- `group_thread_cards_with_drafts`. -/
def groupThreadCardsWithDrafts (messages : List Header) (folder : Str) (drafts : List Str) : List ThreadCard :=
  messages.foldl (addMessage messages folder drafts) []

/-- By date, then by uid. -/
def earlier : Int × Nat → Int × Nat → Prop := pairLt (· < ·) (· < ·)

instance : DecidableRel earlier := fun _ _ => inferInstanceAs (Decidable (pairLt _ _ _ _))

/-- `get_thread_headers`. -/
def getThreadHeaders (rows : List Row) (threadKey : Str) : Option (List Header) :=
  (arrange earlier (fun row => (row.date, row.uid))
    (rows.filter (fun row => row.conversation = threadKey))).mapM Row.header

/-- `resolve_message_uids`. -/
def resolveMessageUids (rows : List Row) (threadKey : Str) (subjectFilter : Option Str) (uid : Option Nat)
    (explicitUids : List Nat) : Option (List Nat) :=
  if explicitUids ≠ [] then some explicitUids
  else if threadKey.isEmpty then some uid.toList
  else do
    let headers ← getThreadHeaders rows threadKey
    let kept := match subjectFilter with
      | some filter => headers.filter (fun header : Header => threadGroupingSubject header.subject = filter)
      | none => headers
    some (kept.map Header.uid)

/-! ## What the cards tell -/

/-- The messages of a card. -/
def members (messages : List Header) (key : Str) : List Header :=
  messages.filter (fun message => cardThreadKey message = key)

/-- A card tells of these messages. -/
structure Counts (ms : List Header) (card : ThreadCard) : Prop where
  some : ms ≠ []
  messageCount : card.messageCount = ms.length
  unreadCount : card.unreadCount = (ms.filter (fun message => !message.seen)).length
  seen : card.header.seen = ms.all Header.seen
  starred : card.header.starred = ms.any Header.starred

theorem Counts.tally {ms : List Header} {card : ThreadCard} (h : Counts ms card) (message : Header) :
    Counts (ms ++ [message]) (card.tally message) := by
  refine ⟨by simp, ?_, ?_, ?_, ?_⟩
  · simp [ThreadCard.tally, h.messageCount]
  · cases hseen : message.seen with
    | true => simp [ThreadCard.tally, h.unreadCount, hseen]
    | false => simp [ThreadCard.tally, h.unreadCount, hseen]
  · simp [ThreadCard.tally, h.seen]
  · simp [ThreadCard.tally, h.starred]

theorem counts_new (messages : List Header) (folder : Str) (drafts : List Str) (message : Header) :
    Counts [message] ((newCard messages folder drafts message).tally message) := by
  refine ⟨by simp, rfl, ?_, ?_, ?_⟩
  · cases hseen : message.seen with
    | true => simp [ThreadCard.tally, newCard, hseen]
    | false => simp [ThreadCard.tally, newCard, hseen]
  · simp [ThreadCard.tally, newCard]
  · simp [ThreadCard.tally, newCard]

/-- What the cards tell of the messages gone through. -/
structure Tallied (done : List Header) (cards : List ThreadCard) : Prop where
  keys : (cards.map ThreadCard.threadKey).Nodup
  counts : ∀ card ∈ cards, Counts (members done card.threadKey) card
  covers : ∀ message ∈ done, ∃ card ∈ cards, card.threadKey = cardThreadKey message

theorem members_append (done : List Header) (message : Header) (key : Str) : members (done ++ [message]) key =
    members done key ++ if cardThreadKey message = key then [message] else [] := by
  unfold members
  rw [filter_append]
  congr 1
  by_cases hkey : cardThreadKey message = key
  · simp [hkey]
  · simp [hkey]

variable {message : Header}

/-- **One more message.** -/
theorem Tallied.add {done : List Header} {cards : List ThreadCard} (h : Tallied done cards)
    (huid : message.uid ≠ 0) (messages : List Header) (folder : Str) (drafts : List Str) :
    Tallied (done ++ [message]) (addMessage messages folder drafts cards message) := by
  have hkeep : ∀ card : ThreadCard,
      (if card.threadKey = cardThreadKey message then card.tally message else card).threadKey = card.threadKey :=
    fun card => by split <;> rfl
  have hkeys : ∀ l : List ThreadCard, (l.map fun card =>
      if card.threadKey = cardThreadKey message then card.tally message else card).map ThreadCard.threadKey =
        l.map ThreadCard.threadKey := fun l => by
    rw [map_map]
    exact map_congr_left fun card _ => hkeep card
  -- a card that was there before
  have hold : ∀ card ∈ cards, Counts (members (done ++ [message]) card.threadKey)
      (if card.threadKey = cardThreadKey message then card.tally message else card) := by
    intro card hcard
    have hcounts := h.counts card hcard
    rw [members_append]
    by_cases hkey : card.threadKey = cardThreadKey message
    · rw [if_pos hkey, if_pos hkey.symm]
      exact hcounts.tally message
    · rw [if_neg hkey, if_neg fun he => hkey he.symm, append_nil]
      exact hcounts
  unfold addMessage
  rw [if_neg huid]
  dsimp only
  by_cases hany : cards.any (fun card => card.threadKey = cardThreadKey message) = true
  · rw [if_pos hany]
    refine ⟨hkeys cards ▸ h.keys, fun card hcard => ?_, fun other hother => ?_⟩
    · obtain ⟨card', hcard', rfl⟩ := mem_map.mp hcard
      rw [hkeep]
      exact hold card' hcard'
    · have hthere : ∃ card ∈ cards, card.threadKey = cardThreadKey other := by
        rcases mem_append.mp hother with hother | hother
        · exact h.covers other hother
        · rw [mem_singleton.mp hother]
          obtain ⟨card, hcard, hkey⟩ := any_eq_true.mp hany
          exact ⟨card, hcard, of_decide_eq_true hkey⟩
      obtain ⟨card, hcard, hkey⟩ := hthere
      exact ⟨_, mem_map_of_mem hcard, (hkeep card).trans hkey⟩
  · rw [if_neg hany]
    have hfresh : ∀ card ∈ cards, card.threadKey ≠ cardThreadKey message := fun card hcard hkey =>
      hany (any_eq_true.mpr ⟨card, hcard, decide_eq_true hkey⟩)
    have hnone : members done (cardThreadKey message) = [] := by
      refine filter_eq_nil_iff.mpr fun other hother hkey => ?_
      obtain ⟨card, hcard, hcardKey⟩ := h.covers other hother
      exact hfresh card hcard (hcardKey.trans (of_decide_eq_true hkey))
    refine ⟨?_, fun card hcard => ?_, fun other hother => ?_⟩
    · rw [hkeys, map_append, nodup_append]
      refine ⟨h.keys, nodup_singleton _, fun key hkey key' hkey' => ?_⟩
      obtain ⟨card, hcard, rfl⟩ := mem_map.mp hkey
      rw [map_singleton, mem_singleton] at hkey'
      rw [hkey']
      exact hfresh card hcard
    · obtain ⟨card', hcard', rfl⟩ := mem_map.mp hcard
      rw [hkeep]
      rcases mem_append.mp hcard' with hcard' | hcard'
      · exact hold card' hcard'
      · rw [mem_singleton.mp hcard']
        have hkey : (newCard messages folder drafts message).threadKey = cardThreadKey message := rfl
        rw [members_append, hkey, if_pos rfl, if_pos rfl, hnone, nil_append]
        exact counts_new messages folder drafts message
    · rcases mem_append.mp hother with hother | hother
      · obtain ⟨card, hcard, hkey⟩ := h.covers other hother
        exact ⟨_, mem_map_of_mem (mem_append_left _ hcard), (hkeep card).trans hkey⟩
      · rw [mem_singleton.mp hother]
        exact ⟨_, mem_map_of_mem (mem_append_right _ (mem_singleton_self _)), hkeep _⟩

/-- **The cards tell of all messages.** -/
theorem group_tallied {messages : List Header} (huids : ∀ message ∈ messages, message.uid ≠ 0) (folder : Str)
    (drafts : List Str) : Tallied messages (groupThreadCardsWithDrafts messages folder drafts) :=
  Runs.foldl_invariant (fun _ message _ hmem h => h.add (huids message hmem) messages folder drafts)
    ⟨nodup_nil, fun _ h => (by cases h), fun _ h => (by cases h)⟩

/-! ## What an action touches -/

theorem header_some {row : Row} {header : Header} (h : row.header = some header) : row.Written ∧ header = row.shown := by
  unfold Row.header at h
  obtain ⟨subject, hsubject, h⟩ := Option.bind_eq_some_iff.mp h
  obtain ⟨name, hname, h⟩ := Option.bind_eq_some_iff.mp h
  obtain ⟨addr, haddr, h⟩ := Option.bind_eq_some_iff.mp h
  cases h
  unfold Row.Written Row.shown
  rw [hsubject, hname, haddr]
  exact ⟨⟨Option.some_ne_none _, Option.some_ne_none _, Option.some_ne_none _⟩, rfl⟩

/-- Rows that are read have no NULL. -/
theorem headers_some : ∀ {rows : List Row} {headers : List Header}, rows.mapM Row.header = some headers →
    (∀ row ∈ rows, row.Written) ∧ headers = rows.map Row.shown
  | [], headers, h => by
    rw [mapM_nil] at h
    cases h
    exact ⟨fun _ hrow => (by cases hrow), rfl⟩
  | row :: rows, headers, h => by
    rw [mapM_cons] at h
    obtain ⟨header, hheader, h⟩ := Option.bind_eq_some_iff.mp h
    obtain ⟨rest, hrest, h⟩ := Option.bind_eq_some_iff.mp h
    cases h
    obtain ⟨hwritten, rfl⟩ := header_some hheader
    obtain ⟨hall, rfl⟩ := headers_some hrest
    exact ⟨fun other hother => (mem_cons.mp hother).elim (fun he => he ▸ hwritten) (hall other), rfl⟩

/-- The thread key a row is read with is the one the query finds it by. -/
theorem effectiveThreadKey_shown (row : Row) : effectiveThreadKey row.shown = row.conversation := by
  have hne : row.conversation ≠ [] := by
    unfold Row.conversation
    cases hkey : row.threadKey.filter (fun key => !key.isEmpty) with
    | none => exact cons_ne_nil _ _
    | some key =>
      have hkept := (Option.filter_eq_some_iff.mp hkey).2
      rintro rfl
      cases hkept
  unfold effectiveThreadKey
  exact if_neg fun he => hne (List.isEmpty_iff.mp he)

/-- Narrowed to the subject of a branch, or not, of one thread key. -/
theorem narrowed_eq {headers : List Header}
    (h : ∀ header ∈ headers, effectiveThreadKey header = effectiveThreadKey message) : (match branchSubject message with
      | some filter => headers.filter (fun header : Header => threadGroupingSubject header.subject = filter)
      | none => headers) = headers.filter (fun header => cardThreadKey header = cardThreadKey message) := by
  by_cases hbranch : shouldBranchThreadBySubject (effectiveThreadKey message) = true
  · rw [(cardThreadKey_of_branch hbranch).2]
    refine filter_congr fun header hheader => decide_eq_decide.mpr ?_
    have hkey := h header hheader
    have hsubject := (cardThreadKey_of_branch (hkey.symm ▸ hbranch)).2
    rw [cardThreadKey_eq_iff, hsubject, (cardThreadKey_of_branch hbranch).2, Option.some.injEq]
    exact ⟨fun hs => ⟨hkey, hs⟩, fun hs => hs.2⟩
  · rw [(cardThreadKey_of_plain hbranch).2]
    refine (filter_eq_self.mpr fun header hheader => decide_eq_true ?_).symm
    have hkey := h header hheader
    rw [(cardThreadKey_of_plain hbranch).1, (cardThreadKey_of_plain (hkey.symm ▸ hbranch)).1, hkey]

/-- **An action on a card touches its messages** and no others. -/
theorem resolve_members {rows : List Row} (hwritten : ∀ row ∈ rows, row.Written) {messages : List Header}
    (hperm : messages.Perm (rows.map Row.shown)) (hmessage : message ∈ messages) (uid : Option Nat) :
    ∃ uids, resolveMessageUids rows (splitThreadKey (cardThreadKey message)).1
        (splitThreadKey (cardThreadKey message)).2 uid [] = some uids ∧
      uids.Perm ((members messages (cardThreadKey message)).map Header.uid) := by
  obtain ⟨row, -, hrow⟩ := mem_map.mp (hperm.mem_iff.mp hmessage)
  have hne : ¬ (effectiveThreadKey message).isEmpty = true := by
    unfold effectiveThreadKey
    split
    · exact fun he => by cases he
    · assumption
  have hheaders : getThreadHeaders rows (effectiveThreadKey message) =
      some ((arrange earlier (fun row => (row.date, row.uid))
        (rows.filter fun row => row.conversation = effectiveThreadKey message)).map Row.shown) := by
    refine mapM_of_some fun row hrow => header_written (hwritten row ?_)
    exact mem_of_mem_filter ((arrange_perm_self _).mem_iff.mp hrow)
  have hkeys : ∀ header ∈ (arrange earlier (fun row => (row.date, row.uid))
      (rows.filter fun row => row.conversation = effectiveThreadKey message)).map Row.shown,
        effectiveThreadKey header = effectiveThreadKey message := by
    intro header hheader
    obtain ⟨row, hrow, rfl⟩ := mem_map.mp hheader
    rw [effectiveThreadKey_shown]
    exact of_decide_eq_true (mem_filter.mp ((arrange_perm_self _).mem_iff.mp hrow)).2
  unfold resolveMessageUids
  rw [if_neg fun h => h rfl, split_card, if_neg hne, hheaders]
  refine ⟨_, rfl, ?_⟩
  dsimp only
  rw [narrowed_eq hkeys]
  refine (((arrange_perm_self _).map Row.shown).filter _).trans ?_ |>.map Header.uid
  have hsame : ((rows.filter fun row => row.conversation = effectiveThreadKey message).map Row.shown).filter
      (fun header => cardThreadKey header = cardThreadKey message) =
        (rows.map Row.shown).filter (fun header => cardThreadKey header = cardThreadKey message) := by
    rw [filter_map, filter_map, filter_filter]
    refine congrArg (List.map Row.shown) (filter_congr fun row _ => ?_)
    simp only [Function.comp_apply]
    rw [← Bool.decide_and, decide_eq_decide, cardThreadKey_eq_iff, effectiveThreadKey_shown]
    exact ⟨fun h => h.1, fun h => ⟨h, h.1⟩⟩
  rw [hsame]
  exact (hperm.filter _).symm

/-- **A card stands for the messages an action on it touches.**  However the headers of a folder are ordered,
every message is in exactly one card, a card counts its messages and those of them that are unread, is seen
if all are and starred if one is, and its key resolves to the uids of its messages. -/
theorem cards_resolve (rows : List Row) (headers : List Header) (hread : rows.mapM Row.header = some headers)
    (messages : List Header) (hperm : messages.Perm headers) (folder : Str) (drafts : List Str) :
    let cards := groupThreadCardsWithDrafts messages folder drafts
    (∀ message ∈ messages, ∃! card, card ∈ cards ∧ message ∈ members messages card.threadKey) ∧
    ∀ card ∈ cards, Counts (members messages card.threadKey) card ∧ ∀ uid, ∃ uids,
      resolveMessageUids rows (splitThreadKey card.threadKey).1 (splitThreadKey card.threadKey).2 uid [] = some uids ∧
        uids.Perm ((members messages card.threadKey).map Header.uid) := by
  intro cards
  obtain ⟨hwritten, rfl⟩ := headers_some hread
  have huids : ∀ message ∈ messages, message.uid ≠ 0 := by
    intro message hmessage
    obtain ⟨row, -, rfl⟩ := mem_map.mp (hperm.mem_iff.mp hmessage)
    exact Nat.pos_iff_ne_zero.mp row.uid_u32.1
  have htold : Tallied messages cards := group_tallied huids folder drafts
  refine ⟨fun message hmessage => ?_, fun card hcard => ⟨htold.counts card hcard, fun uid => ?_⟩⟩
  · obtain ⟨card, hcard, hkey⟩ := htold.covers message hmessage
    refine ⟨card, ⟨hcard, mem_filter.mpr ⟨hmessage, decide_eq_true hkey.symm⟩⟩, ?_⟩
    rintro other ⟨hother, hmem⟩
    have hotherKey : cardThreadKey message = other.threadKey := of_decide_eq_true (mem_filter.mp hmem).2
    exact inj_on_of_nodup_map htold.keys hother hcard (hotherKey.symm.trans hkey.symm)
  · obtain ⟨message, hmem⟩ := exists_mem_of_ne_nil _ (htold.counts card hcard).some
    obtain ⟨hmessage, hkey⟩ := mem_filter.mp hmem
    rw [← of_decide_eq_true hkey]
    exact resolve_members hwritten hperm hmessage uid

/-- A key that holds both signs, under two subjects, and a message without a key. -/
def signRows : List Row :=
  [{ plainRow 1 one_u32 [] [] 0 with threadKey := some "<a#%23@b>", subject := some ['x'] },
    { plainRow 2 two_u32 [] [] 1 with threadKey := some "<a#%23@b>", subject := some "Re: y" },
    plainRow 3 three_u32 [] [] 0]

theorem signRows_resolve : ∃ card ∈ groupThreadCardsWithDrafts (signRows.map Row.shown).reverse "INBOX" [],
    ∃ uids, resolveMessageUids signRows (splitThreadKey card.threadKey).1 (splitThreadKey card.threadKey).2 none [] =
      some uids ∧ uids.Perm ((members (signRows.map Row.shown).reverse card.threadKey).map Header.uid) := by
  obtain ⟨hcovers, hresolve⟩ := cards_resolve signRows (signRows.map Row.shown) rfl
    (signRows.map Row.shown).reverse (reverse_perm _) "INBOX" []
  obtain ⟨card, ⟨hcard, -⟩, -⟩ := hcovers _ mem_cons_self
  exact ⟨card, hcard, (hresolve card hcard).2 none⟩

end Oreneta.Threads

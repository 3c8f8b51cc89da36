import Oreneta.Lib.Chunks
import Oreneta.Lib.Table
import Oreneta.Paging.Conversation
import Oreneta.Threads.Conversation
import Oreneta.Threads.Replies

/-!
# The count on a card

`card_message_counts` of the store: how many messages stand behind the cards of a list.

* `branchKey` — the card a row belongs to; `split_branchKey`: the root is read back.
* `Tally`, `countCardRows`, `cardMessageCounts` — the rows counted, and each Message-ID once for a card.
* `tally_fold` — what is counted for one card; `cardMessageCounts_eq`.
* `count_matches_iff` — when the count is the number of headers the reader shows for the card.
-/

namespace Oreneta.Threads

open Paging Keyset List

/-! ## Counting -/

/-- The key of the card of a message under a root. -/
def branchKey (root subject : Str) : Str :=
  if shouldBranchThreadBySubject root then branchCompoundKey root (threadGroupingSubject subject) else root

/-- What is counted, and the Message-IDs gone through under each card. -/
structure Tally where
  seenIds : List (Str × Str)
  counts : List (Str × Nat)

/-- A row without a Message-ID counts on its own; one with it counts once for a card. -/
def Tally.count (t : Tally) (key messageId : Str) : Tally :=
  if messageId ≠ [] ∧ (key, messageId) ∈ t.seenIds then t
  else
    { seenIds := if messageId = [] then t.seenIds else (key, messageId) :: t.seenIds
      counts := Table.upsert Prod.fst (key, 1) (fun p => (p.1, p.2 + 1)) t.counts }

def countRow (t : Tally) (row : StoredRow) : Tally := t.count (branchKey row.conversation row.subject) (row.messageId.getD [])

/-- The rows of one chunk of roots. -/
def chunkRows (rows : List StoredRow) (account : Str) (folder : Option Str) (chunk : List Str) : List StoredRow :=
  rows.filter (fun row => row.account = account && folder.all (fun f => row.folder = f) && row.uid ≠ 0 &&
    chunk.contains row.conversation)

def countCardRows (rows : List StoredRow) (account : Str) (folder : Option Str) (roots : List Str) (counts : List (Str × Nat)) :
    List (Str × Nat) :=
  (((roots.toChunks 100).flatMap (chunkRows rows account folder)).foldl countRow ⟨[], counts⟩).counts

def cardMessageCounts (rows : List StoredRow) (account folder : Str) (cardKeys : List Str) : List (Str × Nat) :=
  let roots := canonical (· < ·) (cardKeys.map (fun key => (splitThreadKey key).1))
  let uidRoots := roots.filter (fun root => "uid:".toList.isPrefixOf root)
  let threadedRoots := roots.filter (fun root => !"uid:".toList.isPrefixOf root)
  countCardRows rows account none threadedRoots (countCardRows rows account (some folder) uidRoots [])

/-- What is counted for a card. -/
def countOf (counts : List (Str × Nat)) (key : Str) : Nat := ((Table.lookup Prod.fst counts key).map Prod.snd).getD 0

/-! ## Keys -/

theorem split_branchKey (root subject : Str) : (splitThreadKey (branchKey root subject)).1 = root := by
  unfold branchKey splitThreadKey
  by_cases h : shouldBranchThreadBySubject root = true
  · rw [if_pos h, if_pos (shouldBranch_compound h _), split_branch]
  · rw [if_neg h, if_neg h]

/-! ## What is counted for one card -/

theorem countOf_upsert (counts : List (Str × Nat)) (key other : Str) :
    countOf (Table.upsert Prod.fst (key, 1) (fun p => (p.1, p.2 + 1)) counts) other =
      countOf counts other + if other = key then 1 else 0 := by
  have hlookup := @Table.lookup_upsert _ _ _ (Prod.fst : Str × Nat → Str) counts (key, 1) (fun p => (p.1, p.2 + 1)) other fun _ => rfl
  unfold countOf
  rw [hlookup]
  by_cases h : other = key
  · rw [if_pos h, if_pos h]
    cases Table.lookup Prod.fst counts other with
    | none => rfl
    | some p => rfl
  · rw [if_neg h, if_neg h, Nat.add_zero]

section Fold

variable (key : Str)

/-- The rows of a card. -/
def ofCard (row : StoredRow) : Bool := branchKey row.conversation row.subject = key

def withoutId (row : StoredRow) : Bool := row.messageId.getD [] = []

/-- The Message-IDs of a card's rows. -/
def idsOf (rows : List StoredRow) : Finset Str := ((rows.filter (fun row => !withoutId row)).map (fun row => row.messageId.getD [])).toFinset

theorem idsOf_cons_without {row : StoredRow} (h : withoutId row = true) (rows : List StoredRow) : idsOf (row :: rows) = idsOf rows := by
  unfold idsOf
  rw [filter_cons_of_neg (by rw [h]; exact Bool.false_ne_true)]

theorem idsOf_cons {row : StoredRow} (h : withoutId row = false) (rows : List StoredRow) :
    idsOf (row :: rows) = insert (row.messageId.getD []) (idsOf rows) := by
  unfold idsOf
  rw [filter_cons_of_pos (by rw [h]; rfl), map_cons, toFinset_cons]

theorem countOf_add_other {t : Tally} {row : StoredRow} (h : ofCard key row = false) :
    countOf (countRow t row).counts key = countOf t.counts key ∧
      ∀ id, (key, id) ∈ (countRow t row).seenIds ↔ (key, id) ∈ t.seenIds := by
  have hne : key ≠ branchKey row.conversation row.subject := fun he => by
    rw [ofCard, ← he, decide_eq_false_iff_not] at h
    exact h rfl
  unfold countRow Tally.count
  split
  · exact ⟨rfl, fun _ => Iff.rfl⟩
  · refine ⟨by rw [countOf_upsert, if_neg hne, Nat.add_zero], fun id => ?_⟩
    split
    · exact Iff.rfl
    · rw [mem_cons, Prod.mk.injEq]
      exact ⟨fun h => h.resolve_left fun he => hne he.1, .inr⟩

/-- **What a fold counts for a card**: its rows without a Message-ID, and the Message-IDs it has not gone through. -/
theorem tally_fold : ∀ (rows : List StoredRow) (t : Tally), countOf (rows.foldl countRow t).counts key =
    countOf t.counts key + ((rows.filter (ofCard key)).filter withoutId).length +
      ((idsOf (rows.filter (ofCard key))).filter (fun id => (key, id) ∉ t.seenIds)).card
  | [], t => by simp [idsOf]
  | row :: rows, t => by
    rw [foldl_cons, tally_fold rows]
    cases hcard : ofCard key row with
    | false =>
      obtain ⟨hcount, hseen⟩ := countOf_add_other key (t := t) hcard
      rw [hcount, filter_cons_of_neg (by rw [hcard]; exact Bool.false_ne_true)]
      simp only [hseen]
    | true =>
      have hkey : branchKey row.conversation row.subject = key := of_decide_eq_true hcard
      rw [filter_cons_of_pos hcard]
      unfold countRow Tally.count
      rw [hkey]
      cases hid : withoutId row with
      | true =>
        have hnone : row.messageId.getD [] = [] := of_decide_eq_true hid
        rw [if_neg fun h => h.1 hnone, filter_cons_of_pos hid, idsOf_cons_without hid, length_cons]
        dsimp only
        rw [if_pos hnone, countOf_upsert, if_pos rfl]
        omega
      | false =>
        have hsome : row.messageId.getD [] ≠ [] := of_decide_eq_false hid
        rw [filter_cons_of_neg (by rw [hid]; exact Bool.false_ne_true), idsOf_cons hid]
        by_cases hseen : (key, row.messageId.getD []) ∈ t.seenIds
        · rw [if_pos ⟨hsome, hseen⟩, Finset.filter_insert, if_neg fun h => h hseen]
        · rw [if_neg fun h => hseen h.2]
          dsimp only
          rw [if_neg hsome, countOf_upsert, if_pos rfl, Finset.filter_insert, if_pos hseen]
          have hnew : insert (row.messageId.getD []) ((idsOf (rows.filter (ofCard key))).filter fun id => (key, id) ∉ t.seenIds) =
              insert (row.messageId.getD []) ((idsOf (rows.filter (ofCard key))).filter (fun id =>
                (key, id) ∉ (key, row.messageId.getD []) :: t.seenIds)) := by
            ext id
            simp only [Finset.mem_insert, Finset.mem_filter, mem_cons, Prod.mk.injEq, true_and, not_or]
            by_cases he : id = row.messageId.getD []
            · exact ⟨fun _ => .inl he, fun _ => .inl he⟩
            · exact or_congr_right (and_congr_right fun _ => ⟨fun h => ⟨he, h⟩, fun h => h.2⟩)
          rw [hnew, Finset.card_insert_of_notMem]
          · omega
          · rw [Finset.mem_filter]
            exact fun h => h.2 mem_cons_self

end Fold

/-! ## The rows of a card -/

section Card

variable (rows : List StoredRow) (account root key : Str)

/-- The rows behind a card. -/
def cardRows : List StoredRow :=
  rows.filter (fun row => row.account = account && row.uid ≠ 0 && row.conversation = root && ofCard key row)

/-- The rows the reader shows for it. -/
def shownRows : List StoredRow := (rows.filter (listed rows account root)).filter (ofCard key)

variable {rows account root key}

theorem mem_cardRows {row : StoredRow} : row ∈ cardRows rows account root key ↔
    row ∈ rows ∧ row.account = account ∧ row.uid ≠ 0 ∧ row.conversation = root ∧ ofCard key row = true := by
  unfold cardRows
  rw [mem_filter]
  simp only [Bool.and_eq_true, decide_eq_true_eq, and_assoc]

theorem shownRows_eq : shownRows rows account root key =
    (cardRows rows account root key).filter (fun row => !hidden rows root row) := by
  unfold shownRows cardRows
  rw [filter_filter, filter_filter]
  refine filter_congr fun row _ => ?_
  unfold listed
  cases ofCard key row with
  | false => simp
  | true => simp [Bool.and_comm, Bool.and_left_comm]

theorem ofCard_root {row : StoredRow} (h : ofCard key row = true) : row.conversation = (splitThreadKey key).1 := by
  have hkey : branchKey row.conversation row.subject = key := of_decide_eq_true h
  rw [← hkey, split_branchKey]

theorem strict_str : Strict (fun a b : Str => a < b) := strict_lt

theorem canonical_nodup (l : List Str) : (canonical (· < ·) l).Nodup := by
  have hstrict := dedup_strict strict_str (arrange_sorted strict_str l)
  have hdistinct : (canonical (· < ·) l).Pairwise fun a b => a ≠ b := hstrict.imp fun {a b} hab (he : a = b) =>
    strict_str.irrefl b (by rwa [he] at hab)
  exact hdistinct

theorem mem_canonical {l : List Str} {x : Str} : x ∈ canonical (· < ·) l ↔ x ∈ l := by
  unfold canonical
  rw [Paging.mem_dedup, (arrange_perm_self l).mem_iff]

/-- **What the program counts for a card.** -/
theorem cardMessageCounts_eq (folder : Str) {cardKeys : List Str} (hkey : key ∈ cardKeys) (hroot : (splitThreadKey key).1 = root)
    (hthreaded : "uid:".toList.isPrefixOf root = false) : countOf (cardMessageCounts rows account folder cardKeys) key =
      ((cardRows rows account root key).filter withoutId).length + (idsOf (cardRows rows account root key)).card := by
  unfold cardMessageCounts countCardRows
  dsimp only
  rw [tally_fold, tally_fold]
  have hfiltered : ∀ (roots : List Str) (f : Option Str), roots.Nodup → root ∈ roots → f = none →
      ((roots.toChunks 100).flatMap (chunkRows rows account f)).filter (ofCard key) = cardRows rows account root key := by
    rintro roots f hnodup hmem rfl
    have hpieces := Chunks.toChunks_flatten 100 roots
    rw [filter_flatMap]
    have hpiece : ∀ chunk : List Str, (chunkRows rows account none chunk).filter (ofCard key) =
        if root ∈ chunk then cardRows rows account root key else [] := by
      intro chunk
      unfold chunkRows cardRows
      rw [filter_filter]
      split
      · rename_i hchunk
        refine filter_congr fun row _ => ?_
        cases hcard : ofCard key row with
        | false => simp
        | true =>
          have hconv := (ofCard_root hcard).trans hroot
          rw [hconv, contains_iff_mem.mpr hchunk]
          simp
      · rename_i hchunk
        refine filter_eq_nil_iff.mpr fun row _ hrow => hchunk ?_
        simp only [Bool.and_eq_true, contains_iff_mem] at hrow
        rw [← hroot, ← ofCard_root hrow.1]
        exact hrow.2.2
    simp only [hpiece]
    exact Chunks.flatMap_chunk _ (hpieces.symm ▸ hnodup) (hpieces.symm ▸ hmem)
  have huid : ((((canonical (· < ·) (cardKeys.map fun key => (splitThreadKey key).1)).filter (fun root =>
      "uid:".toList.isPrefixOf root)).toChunks 100).flatMap (chunkRows rows account (some folder))).filter (ofCard key) = [] := by
    refine filter_eq_nil_iff.mpr fun row hrow hcard => ?_
    obtain ⟨chunk, hchunk, hrow⟩ := mem_flatMap.mp hrow
    have hconv : row.conversation ∈ chunk := by
      have hwhere := (mem_filter.mp hrow).2
      simp only [Bool.and_eq_true, contains_iff_mem] at hwhere
      exact hwhere.2
    have hmem := mem_flatten.mpr ⟨chunk, hchunk, hconv⟩
    rw [Chunks.toChunks_flatten, ofCard_root hcard, hroot] at hmem
    have huid := (mem_filter.mp hmem).2
    rw [hthreaded] at huid
    cases huid
  have hmemRoot : root ∈ (canonical (· < ·) (cardKeys.map fun key => (splitThreadKey key).1)).filter (fun root =>
      !"uid:".toList.isPrefixOf root) := by
    refine mem_filter.mpr ⟨mem_canonical.mpr (mem_map.mpr ⟨key, hkey, hroot⟩), ?_⟩
    rw [hthreaded]
    rfl
  have hfilter : ∀ s : Finset Str, s.filter (fun id => (key, id) ∉ ([] : List (Str × Str))) = s := fun s =>
    Finset.filter_true_of_mem fun _ _ => not_mem_nil
  rw [huid, hfiltered _ none ((canonical_nodup _).filter _) hmemRoot rfl]
  simp only [hfilter]
  have hempty : countOf ([] : List (Str × Nat)) key = 0 := rfl
  rw [hempty]
  simp [idsOf]

/-! ## What the reader shows -/

theorem headers_branch : ((getThreadHeadersAllFolders rows account root).filter (fun h => branchKey root h.subject = key)).length =
    (shownRows rows account root key).length := by
  unfold getThreadHeadersAllFolders shownRows
  rw [filter_map, length_map]
  have hperm := @Keyset.arrange_perm_self _ _ earlier _ (fun row : StoredRow => (row.date, row.uid)) (rows.filter (listed rows account root))
  rw [(hperm.filter _).length_eq]
  refine congrArg List.length (filter_congr fun row hrow => ?_)
  have hlisted := (mem_filter.mp hrow).2
  unfold listed at hlisted
  simp only [Bool.and_eq_true, decide_eq_true_eq] at hlisted
  unfold ofCard
  rw [hlisted.1.2]
  rfl

/-- The Message-IDs of the card's rows, and those of the rows shown. -/
theorem mem_idsOf {l : List StoredRow} {id : Str} : id ∈ idsOf l ↔ ∃ row ∈ l, row.messageId.getD [] ≠ [] ∧ row.messageId.getD [] = id := by
  unfold idsOf withoutId
  simp only [mem_toFinset, mem_map, mem_filter, Bool.not_eq_true', decide_eq_false_iff_not, and_assoc, ne_eq]

end Card

/-- Of every message in the card, the copy the reader keeps (an unread one, or else the oldest) is in the card as well. -/
def KeptInCard (rows : List StoredRow) (account root key : Str) : Prop :=
  ∀ row ∈ cardRows rows account root key, row.messageId.getD [] ≠ [] →
    ∀ k ∈ rows, Copy row k → Leads rows k → k ∈ cardRows rows account root key

section Matches

variable {table : StoredRows} {account root key : Str}

theorem mem_shownRows {row : StoredRow} (hid : row.messageId.getD [] ≠ []) : row ∈ shownRows table.rows account root key ↔
    row ∈ cardRows table.rows account root key ∧ Leads table.rows row := by
  rw [shownRows_eq, mem_filter, Bool.not_eq_true']
  refine and_congr_right fun hrow => ?_
  rw [← (mem_cardRows.mp hrow).2.2.2.1]
  exact hidden_iff hid

theorem messageId_eq {a b : StoredRow} (hne : a.messageId.getD [] ≠ []) (h : a.messageId.getD [] = b.messageId.getD []) :
    a.messageId = b.messageId := by
  cases ha : a.messageId with
  | none => exact absurd (by rw [ha]; rfl) hne
  | some x =>
    cases hb : b.messageId with
    | none =>
      rw [hb] at h
      exact absurd h hne
    | some y =>
      rw [ha, hb] at h
      exact congrArg some h

/-- Of one Message-ID one row is shown. -/
theorem shown_ids_nodup :
    (((shownRows table.rows account root key).filter (fun row => !withoutId row)).map (fun row => row.messageId.getD [])).Nodup := by
  have hrows : (shownRows table.rows account root key).Nodup :=
    ((List.Nodup.of_map StoredRow.id table.ids).filter _).filter _
  refine List.Nodup.map_on ?_ (hrows.filter _)
  intro a ha b hb he
  obtain ⟨ha, hida⟩ := mem_filter.mp ha
  obtain ⟨hb, hidb⟩ := mem_filter.mp hb
  have hida : a.messageId.getD [] ≠ [] := by simpa [withoutId] using hida
  have hidb : b.messageId.getD [] ≠ [] := by simpa [withoutId] using hidb
  obtain ⟨hca, hla⟩ := (mem_shownRows hida).mp ha
  obtain ⟨hcb, hlb⟩ := (mem_shownRows hidb).mp hb
  obtain ⟨hma, haccount, -, hconv, -⟩ := mem_cardRows.mp hca
  obtain ⟨hmb, haccount', -, hconv', -⟩ := mem_cardRows.mp hcb
  have hsame : b.messageId = a.messageId := (messageId_eq hida he).symm
  exact leads_unique table hma hmb ⟨haccount'.trans haccount.symm, hconv'.trans hconv.symm, hsame⟩ hla hlb

theorem shown_length : (shownRows table.rows account root key).length =
    ((cardRows table.rows account root key).filter withoutId).length + (idsOf (shownRows table.rows account root key)).card := by
  have hsplit := @List.length_eq_length_filter_add _ (shownRows table.rows account root key) withoutId
  have hwithout : (shownRows table.rows account root key).filter withoutId = (cardRows table.rows account root key).filter withoutId := by
    rw [shownRows_eq, filter_filter]
    refine filter_congr fun row _ => ?_
    cases hid : withoutId row with
    | false => rfl
    | true =>
      rw [not_hidden_of_no_id (of_decide_eq_true hid)]
      rfl
  have hcard : (idsOf (shownRows table.rows account root key)).card =
      ((shownRows table.rows account root key).filter fun row => !withoutId row).length := by
    rw [idsOf, toFinset_card_of_nodup shown_ids_nodup, length_map]
  rw [hsplit, hwithout, hcard]

/-- **When the count on a card is what the reader shows**: of every message in the card, the copy the reader keeps is one of
the card. -/
theorem count_matches_iff (table : StoredRows) (account folder : Str) {cardKeys : List Str} {key root : Str} (hkey : key ∈ cardKeys)
    (hroot : (splitThreadKey key).1 = root) (hthreaded : "uid:".toList.isPrefixOf root = false) :
    countOf (cardMessageCounts table.rows account folder cardKeys) key =
        ((getThreadHeadersAllFolders table.rows account root).filter (fun h => branchKey root h.subject = key)).length ↔
      KeptInCard table.rows account root key := by
  rw [cardMessageCounts_eq folder hkey hroot hthreaded, headers_branch, shown_length, Nat.add_left_cancel_iff]
  have hsubset : idsOf (shownRows table.rows account root key) ⊆ idsOf (cardRows table.rows account root key) := by
    intro id hid
    obtain ⟨row, hrow, hne, rfl⟩ := mem_idsOf.mp hid
    exact mem_idsOf.mpr ⟨row, ((mem_shownRows hne).mp hrow).1, hne, rfl⟩
  have hcards : (idsOf (cardRows table.rows account root key)).card = (idsOf (shownRows table.rows account root key)).card ↔
      idsOf (cardRows table.rows account root key) ⊆ idsOf (shownRows table.rows account root key) :=
    ⟨fun h => (Finset.eq_of_subset_of_card_le hsubset h.le).symm.subset, fun h => congrArg Finset.card (h.antisymm hsubset)⟩
  rw [hcards]
  constructor
  · intro h row hrow hne k hk hcopy hleads
    obtain ⟨hmem, haccount, huid, hconv, -⟩ := mem_cardRows.mp hrow
    obtain ⟨k', hk', hne', he⟩ := mem_idsOf.mp (h (mem_idsOf.mpr ⟨row, hrow, hne, rfl⟩))
    obtain ⟨hcard', hleads'⟩ := (mem_shownRows hne').mp hk'
    obtain ⟨hmem', haccount', -, hconv', -⟩ := mem_cardRows.mp hcard'
    have hsame : row.messageId = k'.messageId := messageId_eq hne he.symm
    have hcopy' : Copy k' k := Copy.trans ⟨haccount.trans haccount'.symm, hconv.trans hconv'.symm, hsame⟩ hcopy
    rw [← leads_unique table hmem' hk hcopy' hleads' hleads]
    exact hcard'
  · intro h id hid
    obtain ⟨row, hrow, hne, rfl⟩ := mem_idsOf.mp hid
    obtain ⟨k, hk, hcopy, hleads⟩ := exists_leads (mem_cardRows.mp hrow).1
    have hne' : k.messageId.getD [] ≠ [] := by rwa [hcopy.2.2]
    refine mem_idsOf.mpr ⟨k, (mem_shownRows hne').mpr ⟨h row hrow hne k hk hcopy hleads, hleads⟩, hne', ?_⟩
    rw [hcopy.2.2]

end Matches

/-! ## Two copies -/

def sentCopy (subject : Str) : StoredRow :=
  ⟨1, "a", "Sent", 4, subject, [], [], 10, 1, 0, some "m@x", some "m@x", none⟩

def inboxCopy (subject : Str) : StoredRow :=
  ⟨2, "a", "INBOX", 9, subject, [], [], 11, 0, 0, some "m@x", some "m@x", none⟩

/-- A copy in Sent and an unread one in the inbox, with the subjects they have there. -/
def twoCopies (sent inbox : Str) : StoredRows where
  rows := [sentCopy sent, inboxCopy inbox]
  ids := nodup_cons.mpr ⟨by simp [sentCopy, inboxCopy], nodup_singleton _⟩

def planKey : Str := branchKey "m@x" "Plan"

theorem split_planKey : (splitThreadKey planKey).1 = "m@x" := split_branchKey _ _

/-- Two copies of one subject count once and are shown once. -/
theorem count_matches_plan : countOf (cardMessageCounts (twoCopies "Plan" "Plan").rows "a" "INBOX" [planKey]) planKey =
      ((getThreadHeadersAllFolders (twoCopies "Plan" "Plan").rows "a" "m@x").filter (fun h =>
        branchKey "m@x" h.subject = planKey)).length := by
  refine (count_matches_iff (twoCopies "Plan" "Plan") "a" "INBOX" mem_cons_self split_planKey (by decide)).mpr ?_
  intro row _ _ k hk _ _
  have hcard : ∀ k ∈ (twoCopies "Plan" "Plan").rows, k.account = "a" ∧ k.uid ≠ 0 ∧
      k.conversation = "m@x" ∧ ofCard planKey k = true := by
    intro k hk
    rcases mem_pair.mp hk with rfl | rfl
    · exact ⟨rfl, by decide, rfl, decide_eq_true rfl⟩
    · exact ⟨rfl, by decide, rfl, decide_eq_true rfl⟩
  obtain ⟨haccount, huid, hconv, hkey⟩ := hcard k hk
  exact mem_cardRows.mpr ⟨hk, haccount, huid, hconv, hkey⟩

/-- The mark a filter put in the subject of the copy that is kept: the card counts one message and shows none. -/
theorem marked_copy_counted :
    countOf (cardMessageCounts (twoCopies "Plan" "*SPAM* Plan").rows "a" "INBOX" [planKey]) planKey = 1 ∧
      (getThreadHeadersAllFolders (twoCopies "Plan" "*SPAM* Plan").rows "a" "m@x").filter (fun h =>
        branchKey "m@x" h.subject = planKey) = [] := by
  have hplan : threadGroupingSubject "Plan" = "Plan" := grouping_plain (by decide) (by decide) (by decide) (by decide)
  have hspam : threadGroupingSubject "*SPAM* Plan" = "*SPAM* Plan" :=
    grouping_plain (by decide) (by decide) (by decide) (by decide)
  have hother : branchKey "m@x" "*SPAM* Plan" ≠ planKey := by
    unfold planKey branchKey
    rw [hplan, hspam]
    decide
  constructor
  · rw [cardMessageCounts_eq "INBOX" mem_cons_self split_planKey (by decide)]
    have hsent : ofCard planKey (sentCopy "Plan") = true := decide_eq_true rfl
    have hrows : cardRows (twoCopies "Plan" "*SPAM* Plan").rows "a" "m@x" planKey =
        [sentCopy "Plan"] := by
      have hin : ofCard planKey (inboxCopy "*SPAM* Plan") = false := decide_eq_false hother
      unfold cardRows twoCopies
      rw [filter_cons_of_pos, filter_cons_of_neg, filter_nil]
      · rw [hin, Bool.and_false]
        exact Bool.false_ne_true
      · rw [hsent]
        decide
    rw [hrows]
    decide
  · have hlisted : (twoCopies "Plan" "*SPAM* Plan").rows.filter (listed
        (twoCopies "Plan" "*SPAM* Plan").rows "a" "m@x") = [inboxCopy "*SPAM* Plan"] := by
      decide
    have hheaders : getThreadHeadersAllFolders (twoCopies "Plan" "*SPAM* Plan").rows "a" "m@x" =
        [(inboxCopy "*SPAM* Plan").header] := by
      rw [getThreadHeadersAllFolders, hlisted]
      rfl
    rw [hheaders]
    exact filter_cons_of_neg fun h => hother (of_decide_eq_true h)

end Oreneta.Threads

import Mathlib.Data.List.Sort
import Oreneta.Lib.Decimal
import Oreneta.Lib.Worklist

/-!
# Which conversation a message is cached under

`store/mod.rs`, `upsert_messages_in_transaction`: the thread key a message is cached with, and the keys
it hands down to messages cached before.  The rows are those of mail folders, whose `msg_id` is the uid.

* `resolveMessageThreadKey`, `cachedThreadKeyOf` — the key a raw key leads to through the cache.
* `write` — one message inserted, or written over the row of its folder and uid.
* `handDown` — one visit of `reconcile_thread_keys_from`: the rows under an id take the key of the message
  that has it; `reconcileThreadKeysFrom` is the walk, which always ends.
* `upsertMessages` — one batch; the ids it cached are gone through in the order a hash set has them.

`lowercase` is `str::to_lowercase`, whatever it does to the letters beyond ASCII.
-/

namespace Oreneta.Threads

open Text List

/-! ## The data -/

/-- A message as a server gives it, as far as its conversation is concerned. -/
structure MessageHeader where
  uid : Nat
  date : Int
  threadKey : Str
  messageId : Str
  deriving DecidableEq, Repr

/-- A row of `messages`; `messageId` is the one in `json`, empty where there is none. -/
structure MessageRow where
  account : Str
  folder : Str
  uid : Nat
  date : Int
  threadKey : Option Str
  messageId : Str
  deriving DecidableEq, Repr

namespace MessageRow

/-- `lower(COALESCE(json_extract(json, '$.message_id'), ''))`. -/
def id (row : MessageRow) : Str := asciiLower row.messageId

/-- `COALESCE(thread_key, '')`. -/
def key (row : MessageRow) : Str := row.threadKey.getD []

def isAt (row : MessageRow) (account folder : Str) (uid : Nat) : Bool :=
  row.account = account ∧ row.folder = folder ∧ row.uid = uid

end MessageRow

/-! ## Keys through the cache -/

/-- Keys that are no Message-IDs. -/
def RESERVED : List Str := ["uid:", "gmthrid:", "graph:"].map String.toList

def isReserved (key : Str) : Bool := RESERVED.any (fun start => start.isPrefixOf key)

def cachedThreadKeyOf (rows : List MessageRow) (account messageId : Str) : Option Str :=
  ((rows.filter (fun row => row.account = account ∧ row.id = messageId ∧ row.key ≠ [])).insertionSort
    (fun a b => a.date < b.date ∨ a.date = b.date ∧ a.uid ≤ b.uid)).head?.map MessageRow.key

variable (lowercase : Str → Str)

def resolveMessageThreadKey (rows : List MessageRow) (account threadKey : Str) : Str :=
  let key := trim threadKey
  if key = [] ∨ isReserved key then threadKey
  else (cachedThreadKeyOf rows account (lowercase key)).getD threadKey

/-! ## Writing -/

/-- `INSERT INTO messages … ON CONFLICT(account, folder, msg_id) DO UPDATE`; a resync without a
Message-ID keeps the one known (`json_patch`). -/
def write (account folder : Str) (rows : List MessageRow) (m : MessageHeader) : List MessageRow :=
  let threadKey := resolveMessageThreadKey lowercase rows account m.threadKey
  if rows.any (fun row => row.isAt account folder m.uid) then
    rows.map (fun row =>
      if row.isAt account folder m.uid then
        { row with
          date := m.date, threadKey := some threadKey
          messageId := if m.messageId = [] then row.messageId else m.messageId }
      else row)
  else
    rows ++ [{ account, folder, uid := m.uid, date := m.date, threadKey := some threadKey, messageId := m.messageId }]

/-- The Message-IDs a batch cached. -/
def upsertedIds (messages : List MessageHeader) : List Str :=
  ((messages.map (fun m => lowercase (trim m.messageId))).filter (fun id => id ≠ [])).dedup

/-! ## Handing down -/

/-- The row stands under the id `parent`, and not under the key `canonical`. -/
def isChild (account parent canonical : Str) (row : MessageRow) : Bool :=
  row.account = account ∧ row.uid ≠ 0 ∧
    row.threadKey.any (fun key => asciiLower key = parent ∧ key ≠ canonical ∧ !isReserved (asciiLower key))

/-- The rows under an id take the key of the message that has it; the ids of those rows come next. -/
def handDown (account : Str) (rows : List MessageRow) (parent : Str) : List MessageRow × List Str :=
  match cachedThreadKeyOf rows account parent with
  | none => (rows, [])
  | some canonical =>
    (rows.map (fun row => if isChild account parent canonical row then { row with threadKey := some canonical } else row),
      ((rows.filter (isChild account parent canonical)).map MessageRow.id).filter (fun id => id ≠ []))

theorem handDown_ids (account : Str) (rows : List MessageRow) (parent : Str) :
    (handDown account rows parent).1.map MessageRow.id = rows.map MessageRow.id := by
  unfold handDown
  split
  · rfl
  · rw [map_map]
    refine map_congr_left fun row _ => ?_
    simp only [Function.comp_apply]
    split <;> rfl

theorem handDown_found (account : Str) (rows : List MessageRow) (parent : Str) :
    (handDown account rows parent).2 ⊆ rows.map MessageRow.id := by
  unfold handDown
  split
  · exact nil_subset _
  · intro id hid
    obtain ⟨row, hrow, rfl⟩ := mem_map.mp (mem_filter.mp hid).1
    exact mem_map_of_mem (mem_filter.mp hrow).1

/-- The visits of `reconcile_thread_keys_from`. -/
def handing (account : Str) : Visits (List MessageRow) Str where
  visit := handDown account
  items := fun rows => rows.map MessageRow.id
  found := handDown_found account
  kept := handDown_ids account

/-- The walk from the ids in `order`: those it found are `pending`, and then `next`, each only once. -/
def reconcileThreadKeysFrom (account : Str) (rows : List MessageRow) (order : List Str) : List MessageRow :=
  (handing account).walk rows order order

/-- The ids in the order they are gone through. -/
def reconciled (account : Str) (rows : List MessageRow) (order : List Str) : List Str :=
  (handing account).visited rows order order

def hand (account : Str) (rows : List MessageRow) (parent : Str) : List MessageRow :=
  (handDown account rows parent).1

theorem reconcile_eq (account : Str) (rows : List MessageRow) (order : List Str) :
    reconcileThreadKeysFrom account rows order = (reconciled account rows order).foldl (hand account) rows :=
  Visits.walk_eq

/-! ## A batch -/

/-- A batch of one folder, with the order in which a hash set goes through the ids it cached. -/
structure Batch where
  folder : Str
  messages : List MessageHeader
  order : List Str
  order_perm : order.Perm (upsertedIds lowercase messages)

def upsertMessages (account : Str) (rows : List MessageRow) (batch : Batch lowercase) : List MessageRow :=
  reconcileThreadKeysFrom account (batch.messages.foldl (write lowercase account batch.folder) rows) batch.order

/-! ## What the steps do to one row -/

section Rows

variable {lowercase} {rows : List MessageRow} {account folder parent id key : Str} {row : MessageRow}
  {m : MessageHeader}

theorem of_isAt {uid : Nat} (h : row.isAt account folder uid = true) :
    row.account = account ∧ row.folder = folder ∧ row.uid = uid := of_decide_eq_true h

/-- The row as it is after a message was written at its place. -/
def MessageRow.overwrite (row : MessageRow) (m : MessageHeader) (threadKey : Str) : MessageRow :=
  { row with
    date := m.date, threadKey := some threadKey
    messageId := if m.messageId = [] then row.messageId else m.messageId }

/-- A row after a message was written: another one as it was, the one at its place, or a new one. -/
theorem mem_write : row ∈ write lowercase account folder rows m ↔ (row ∈ rows ∧ row.isAt account folder m.uid = false) ∨
    (∃ old ∈ rows, old.isAt account folder m.uid = true ∧
      row = old.overwrite m (resolveMessageThreadKey lowercase rows account m.threadKey)) ∨
    ((∀ old ∈ rows, old.isAt account folder m.uid = false) ∧
      row = ⟨account, folder, m.uid, m.date, some (resolveMessageThreadKey lowercase rows account m.threadKey),
        m.messageId⟩) := by
  unfold write
  dsimp only
  by_cases hany : rows.any (fun row => row.isAt account folder m.uid) = true
  · rw [if_pos hany, mem_map]
    obtain ⟨there, hthere, hat⟩ := any_eq_true.mp hany
    constructor
    · rintro ⟨old, hold, rfl⟩
      by_cases h : old.isAt account folder m.uid = true
      · rw [if_pos h]
        exact .inr (.inl ⟨old, hold, h, rfl⟩)
      · rw [if_neg h]
        exact .inl ⟨hold, Bool.eq_false_iff.mpr h⟩
    · rintro (⟨hrow, h⟩ | ⟨old, hold, h, rfl⟩ | ⟨hnone, -⟩)
      · exact ⟨row, hrow, if_neg (Bool.eq_false_iff.mp h)⟩
      · exact ⟨old, hold, if_pos h⟩
      · rw [hnone there hthere] at hat
        cases hat
  · rw [if_neg hany, mem_append, mem_singleton]
    have hnone : ∀ old ∈ rows, old.isAt account folder m.uid = false := by
      intro old hold
      exact Bool.eq_false_iff.mpr fun h => hany (any_eq_true.mpr ⟨old, hold, h⟩)
    constructor
    · rintro (hrow | rfl)
      · exact .inl ⟨hrow, hnone row hrow⟩
      · exact .inr (.inr ⟨hnone, rfl⟩)
    · rintro (⟨hrow, -⟩ | ⟨old, hold, h, -⟩ | ⟨-, rfl⟩)
      · exact .inl hrow
      · rw [hnone old hold] at h
        cases h
      · exact .inr rfl

/-- The row as it is after an id was visited. -/
def handed (account : Str) (rows : List MessageRow) (parent : Str) (row : MessageRow) : MessageRow :=
  match cachedThreadKeyOf rows account parent with
  | none => row
  | some canonical =>
    if isChild account parent canonical row then { row with threadKey := some canonical } else row

theorem mem_hand : row ∈ hand account rows parent ↔ ∃ old ∈ rows, row = handed account rows parent old := by
  unfold hand handDown handed
  cases cachedThreadKeyOf rows account parent with
  | none => simp
  | some canonical =>
    rw [mem_map]
    constructor
    · rintro ⟨old, hold, rfl⟩
      exact ⟨old, hold, rfl⟩
    · rintro ⟨old, hold, rfl⟩
      exact ⟨old, hold, rfl⟩

theorem handed_same (account : Str) (rows : List MessageRow) (parent : Str) (row : MessageRow) :
    (handed account rows parent row).account = row.account ∧
      (handed account rows parent row).folder = row.folder ∧
      (handed account rows parent row).uid = row.uid ∧
      (handed account rows parent row).messageId = row.messageId := by
  unfold handed
  split
  · exact ⟨rfl, rfl, rfl, rfl⟩
  · split <;> exact ⟨rfl, rfl, rfl, rfl⟩

theorem handed_id (account : Str) (rows : List MessageRow) (parent : Str) (row : MessageRow) :
    (handed account rows parent row).id = row.id :=
  congrArg asciiLower (handed_same account rows parent row).2.2.2

theorem handed_isAt (owner : Str) (rows : List MessageRow) (parent : Str) (row : MessageRow) (account folder : Str) (uid : Nat) :
    (handed owner rows parent row).isAt account folder uid = row.isAt account folder uid := by
  obtain ⟨hacc, hfolder, huid, -⟩ := handed_same owner rows parent row
  unfold MessageRow.isAt
  rw [hacc, hfolder, huid]

/-- There is a row at the place. -/
def Present (rows : List MessageRow) (account folder : Str) (uid : Nat) : Prop :=
  ∃ row ∈ rows, row.isAt account folder uid = true

instance (rows : List MessageRow) (account folder : Str) (uid : Nat) : Decidable (Present rows account folder uid) := by
  unfold Present
  infer_instance

theorem Present.write {owner place : Str} {uid : Nat} (h : Present rows account place uid) :
    Present (Threads.write lowercase owner folder rows m) account place uid := by
  obtain ⟨row, hrow, hat⟩ := h
  cases hsame : row.isAt owner folder m.uid with
  | false => exact ⟨row, mem_write.mpr (.inl ⟨hrow, hsame⟩), hat⟩
  | true => exact ⟨_, mem_write.mpr (.inr (.inl ⟨row, hrow, hsame, rfl⟩)), hat⟩

theorem Present.hand {owner place : Str} {uid : Nat} (h : Present rows account place uid) :
    Present (Threads.hand owner rows parent) account place uid := by
  obtain ⟨row, hrow, hat⟩ := h
  exact ⟨handed owner rows parent row, mem_hand.mpr ⟨row, hrow, rfl⟩,
    (handed_isAt owner rows parent row account place uid).trans hat⟩

/-- The key of a cached message is that of some row with its id. -/
theorem cachedThreadKeyOf_some (h : cachedThreadKeyOf rows account id = some key) :
    ∃ row ∈ rows, row.account = account ∧ row.id = id ∧ row.threadKey = some key ∧ key ≠ [] := by
  unfold cachedThreadKeyOf at h
  obtain ⟨row, hhead, hkey⟩ := Option.map_eq_some_iff.mp h
  have hmem := mem_of_mem_head? hhead
  rw [mem_insertionSort, mem_filter, decide_eq_true_eq] at hmem
  obtain ⟨hrow, hacc, hid, hne⟩ := hmem
  refine ⟨row, hrow, hacc, hid, ?_, hkey ▸ hne⟩
  unfold MessageRow.key at hkey hne
  cases hthread : row.threadKey with
  | none =>
    rw [hthread] at hne
    exact absurd rfl hne
  | some k =>
    rw [hthread] at hkey
    exact congrArg some hkey

/-- There is none when no row with that id has a key. -/
theorem cachedThreadKeyOf_none : cachedThreadKeyOf rows account id = none ↔
    ∀ row ∈ rows, row.account = account → row.id = id → row.key = [] := by
  unfold cachedThreadKeyOf
  rw [Option.map_eq_none_iff, head?_eq_none_iff, eq_nil_iff_forall_not_mem]
  simp only [mem_insertionSort, mem_filter, decide_eq_true_eq, not_and, not_not]

end Rows

end Oreneta.Threads

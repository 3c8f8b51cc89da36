import Mathlib.Data.List.Sort
import Oreneta.Lib.Text
import Oreneta.Store.Outgoing

/-!
# Personalised mass mail: the tables of a mailing

The tables `merge_batches` and `merge_items` of `merge/mod.rs` and the operations on them.  One
message per recipient, each a #29 attempt under its own Message-ID (`Store.Outgoing`).

* `create`, `batch`, `claimNext`, `settle`, `cancel`, `resume`, `recover` — as the source has them;
  an operation that fails (`bail!`, a constraint, a rolled-back transaction) is an `Except.error`
  and leaves the tables as they were.
* `messageId_inj` — the Message-IDs of two items are equal only if the items are.
* `claimNext_some`, `recover_items`, … — what each operation does to the rows; the modules about
  whole runs (`Merge.States`, `Merge.Sender`) use these only.
-/

namespace Oreneta.Merge

open Text Oreneta.Store.Outgoing Table List

/-- `merge_batches.state`. -/
inductive BatchState where
  | sending
  | paused
  | cancelled
  | done
  deriving DecidableEq, Repr

/-- `merge_items.state`. -/
inductive ItemState where
  | pending
  | sending
  | accepted
  | rejected
  | uncertain
  | cancelled
  deriving DecidableEq, Repr

/-- A row of `merge_batches`. -/
structure Batch where
  id : String
  account : String
  fromAddr : String
  subject : String
  spacing : Int
  state : BatchState
  reason : String
  createdAt : Int
  deriving DecidableEq, Repr

/-- A row of `merge_items`, keyed by its batch and its index. -/
structure Item where
  batchId : String
  index : Nat
  toAddr : String
  name : String
  subject : String
  body : String
  messageId : String
  state : ItemState
  error : String
  updatedAt : Int
  deriving DecidableEq, Repr

/-- The primary key of `merge_items`. -/
def Item.key (i : Item) : String × Nat := (i.batchId, i.index)

/-- One message of a preview. -/
structure Rendered where
  index : Nat
  line : Nat
  toAddr : String
  name : String
  subject : String
  body : String
  problems : List String
  deriving DecidableEq, Repr

/-- What the person reviewed. -/
structure Preview where
  messages : List Rendered
  problems : List String
  ready : Bool
  deriving DecidableEq, Repr

/-- The tables a mailing is kept in. -/
structure Db where
  batches : List Batch
  items : List Item
  attempts : Attempts
  deriving DecidableEq, Repr

def Db.empty : Db := ⟨[], [], []⟩

/-! ## Message-IDs -/

/-- The text after the last `@`, if there is one (`rsplit_once('@')`). -/
def afterLastAt (s : List Char) : Option (List Char) :=
  if '@' ∈ s then some (s.reverse.takeWhile (· != '@')).reverse else none

/-- The domain of the sender's address, or one that names no host. -/
def domainOf (fromAddr : String) : String :=
  match afterLastAt fromAddr.toList with
  | some d => if d.isEmpty then "oreneta.invalid" else String.ofList d
  | none => "oreneta.invalid"

/-- `format!("<merge-{id}-{index}@{domain}>")`. -/
def messageIdOf (id : String) (index : Nat) (domain : String) : String :=
  "<merge-" ++ id ++ "-" ++ index.repr ++ "@" ++ domain ++ ">"

theorem at_notMem_domainOf (fromAddr : String) : '@' ∉ (domainOf fromAddr).toList := by
  unfold domainOf afterLastAt
  split
  · rename_i d hd
    split at hd
    · cases hd
      split
      · decide
      · rw [String.toList_ofList, mem_reverse]
        intro h
        have := mem_takeWhile_imp h
        simp at this
    · cases hd
  · decide

theorem dash_notMem_repr (n : Nat) : '-' ∉ n.repr.toList := by
  rw [Nat.toList_repr]
  intro h
  have := Nat.isDigit_of_mem_toDigits (by decide) (by decide) h
  simp [Char.isDigit] at this

/-- **Message-IDs tell the items of all mailings apart**, whatever their senders' domains. -/
theorem messageId_inj {id id' d d' : String} {n n' : Nat} (hd : '@' ∉ d.toList)
    (hd' : '@' ∉ d'.toList) (h : messageIdOf id n d = messageIdOf id' n' d') : id = id' ∧ n = n' := by
  have hl := congrArg String.toList h
  unfold messageIdOf at hl
  simp only [String.toList_append, append_assoc] at hl
  have h1 := append_cancel_left hl
  have at_ : ("@" : String).toList = ['@'] := by decide
  have dash_ : ("-" : String).toList = ['-'] := by decide
  have gt_ : (">" : String).toList = ['>'] := by decide
  rw [at_, dash_, gt_] at h1
  -- the last `@` separates the domain, and the last `-` before it the index
  have h2 : (id.toList ++ '-' :: n.repr.toList) ++ '@' :: (d.toList ++ ['>']) =
      (id'.toList ++ '-' :: n'.repr.toList) ++ '@' :: (d'.toList ++ ['>']) := by
    simpa using h1
  obtain ⟨h3, _⟩ := append_sep_inj (by simpa using hd) (by simpa using hd') h2
  obtain ⟨h4, h5⟩ := append_sep_inj (dash_notMem_repr n) (dash_notMem_repr n') h3
  rw [Nat.toList_repr, Nat.toList_repr] at h5
  have h6 := congrArg (fun ds => Nat.ofDigitChars 10 ds 0) h5
  simp only [Nat.ofDigitChars_ten_toDigits] at h6
  exact ⟨String.toList_injective h4, h6⟩

/-! ## Creating and reading a mailing -/

/-- One row of `merge_items` for one message of the preview. -/
def newItem (id domain : String) (now : Int) (m : Rendered) : Item :=
  { batchId := id, index := m.index, toAddr := m.toAddr, name := m.name, subject := m.subject,
    body := m.body, messageId := messageIdOf id m.index domain, state := .pending, error := "",
    updatedAt := now }

/-- Stores a batch from a preview that is ready, and only if it is still the one reviewed. -/
def create (db : Db) (id account fromAddr subjectTemplate : String) (preview : Preview)
    (reviewed : Nat) (spacing now : Int) : Except String Db :=
  if !preview.ready then
    .error "this mailing still has problems to fix before it can go"
  else if preview.messages.length ≠ reviewed then
    .error "the recipients changed since the preview: review it again"
  else
    let domain := domainOf fromAddr
    let items := preview.messages.map (newItem id domain now)
    if id ∈ db.batches.map (·.id) then
      .error "UNIQUE constraint failed: merge_batches.id"
    else if ¬ ((db.items ++ items).map Item.key).Nodup then
      .error "UNIQUE constraint failed: merge_items.batch_id, merge_items.idx"
    else
      .ok { db with
        batches := db.batches ++
          [{ id, account, fromAddr, subject := subjectTemplate, spacing := max spacing 0,
             state := .sending, reason := "", createdAt := now }]
        items := db.items ++ items }

/-- The items of a batch, in order (`ORDER BY idx`). -/
def itemsOf (db : Db) (id : String) : List Item :=
  (db.items.filter (fun i => i.batchId = id)).insertionSort (fun a b => a.index ≤ b.index)

/-- A batch and its items. -/
def batch (db : Db) (id : String) : Option (Batch × List Item) :=
  (Table.lookup Batch.id db.batches id).map (fun b => (b, itemsOf db id))

/-- The state of a batch. -/
def batchState (db : Db) (id : String) : Option BatchState :=
  (Table.lookup Batch.id db.batches id).map (·.state)

/-- `UPDATE merge_items SET f WHERE batch_id = ?1 AND idx = ?2`. -/
def updateItem (db : Db) (id : String) (index : Nat) (f : Item → Item) : Db :=
  { db with items := Table.update (fun i => i.batchId = id ∧ i.index = index) f db.items }

/-- The next message to send, marked as sending, while the batch is sending; a batch with nothing
pending is marked done. -/
def claimNext (db : Db) (id : String) (now : Int) : Option Item × Db :=
  if batchState db id ≠ some .sending then (none, db)
  else
    match (batch db id).bind (fun b => b.2.find? (fun i => i.state = .pending)) with
    | some item =>
      (some item, updateItem db id item.index (fun i => { i with state := .sending, updatedAt := now }))
    | none =>
      (none, { db with
        batches := Table.update (fun b => b.id = id) (fun b => { b with state := .done, reason := "" })
          db.batches })

/-! ## Settling, stopping and carrying on -/

/-- What a send's answer means for one message. -/
inductive Outcome where
  | accepted
  | rejected (error : String)
  | deferred (error : String)
  | uncertain (error : String)
  deriving DecidableEq, Repr

def Outcome.itemState : Outcome → ItemState
  | .accepted => .accepted
  | .rejected _ => .rejected
  | .deferred _ => .pending
  | .uncertain _ => .uncertain

def Outcome.error : Outcome → String
  | .accepted => ""
  | .rejected e => e
  | .deferred e => e
  | .uncertain e => e

def settle (db : Db) (id : String) (index : Nat) (outcome : Outcome) (now : Int) : Db :=
  let db' := updateItem db id index
    (fun i => { i with state := outcome.itemState, error := outcome.error, updatedAt := now })
  match outcome with
  | .deferred reason =>
    { db' with
      batches := Table.update (fun b => b.id = id ∧ b.state = .sending)
        (fun b => { b with state := .paused, reason := "the server asked to wait: " ++ reason })
        db'.batches }
  | _ => db'

/-- Stops sending: what has not gone is marked cancelled. -/
def cancel (db : Db) (id : String) (now : Int) : Db :=
  { db with
    batches := Table.update (fun b => b.id = id)
      (fun b => { b with state := .cancelled, reason := "" }) db.batches
    items := Table.update (fun i => i.batchId = id ∧ i.state = .pending)
      (fun i => { i with state := .cancelled, updatedAt := now }) db.items }

/-- Carries on with a paused or finished batch; `retryRejected` also puts the refused ones back
in line. -/
def resume (db : Db) (id : String) (retryRejected : Bool) : Except String Db :=
  if db.batches.any (fun b => b.id = id ∧ (b.state = .paused ∨ b.state = .done)) then
    let batches := Table.update (fun b => b.id = id ∧ (b.state = .paused ∨ b.state = .done))
      (fun b => { b with state := .sending, reason := "" }) db.batches
    .ok { db with
      batches
      items :=
        if retryRejected then
          Table.update (fun i => i.batchId = id ∧ i.state = .rejected)
            (fun i => { i with state := .pending, error := "" }) db.items
        else db.items }
  else .error "only a paused or finished mailing can carry on"

/-- How `recover` settles one message that was on its way. -/
def recoverOne (now : Int) (db : Db) (stuck : String × Nat × String) : Db :=
  let (id, index, messageId) := stuck
  match stateOf db.attempts messageId with
  | some .accepted | some .archived => settle db id index .accepted now
  | some .rejected => settle db id index (.rejected "") now
  -- never begun: it waits its turn again
  | none => updateItem db id index (fun i => { i with state := .pending, updatedAt := now })
  | some .sending | some .uncertain | some .resolved =>
    settle db id index (.uncertain "Oreneta stopped while this message was being sent") now

/-- After a restart: a message that was on its way is settled from its attempt, and a batch that
was sending is paused. -/
def recover (db : Db) (now : Int) : List String × Db :=
  let stuck := (db.items.filter (fun i => i.state = .sending)).map
    (fun i => (i.batchId, i.index, i.messageId))
  let db' := stuck.foldl (recoverOne now) db
  ((db'.batches.filter (fun b => b.state = .sending)).map (·.id),
    { db' with
      batches := Table.update (fun b => b.state = .sending)
        (fun b => { b with state := .paused, reason := "Oreneta stopped while this was being sent" })
        db'.batches })

/-! ## What the operations do to the rows -/

section Rows

variable {db : Db} {id : String} {now : Int}

theorem mem_itemsOf {i : Item} : i ∈ itemsOf db id ↔ i ∈ db.items ∧ i.batchId = id := by
  unfold itemsOf
  rw [mem_insertionSort, mem_filter]
  simp

/-- A mailing that is stored adds its rows, each under a key of its own, and touches no other. -/
theorem create_ok {account fromAddr template : String} {preview : Preview} {reviewed : Nat} {spacing : Int} {db' : Db}
    (h : create db id account fromAddr template preview reviewed spacing now = .ok db') :
    db'.items = db.items ++ preview.messages.map (newItem id (domainOf fromAddr) now) ∧
      db'.attempts = db.attempts ∧ Keyed Item.key db'.items := by
  unfold create at h
  split at h
  · cases h
  · split at h
    · cases h
    · simp only at h
      split at h
      · cases h
      · split at h
        · cases h
        · rename_i hnodup
          cases h
          exact ⟨rfl, rfl, not_not.mp hnodup⟩

/-- `claimNext` does nothing, claims a pending item of a sending batch, or finds nothing pending
and marks the batch done. -/
theorem claimNext_cases (db : Db) (id : String) (now : Int) :
    (batchState db id ≠ some .sending ∧ claimNext db id now = (none, db)) ∨
    (batchState db id = some .sending ∧ ∃ item ∈ db.items, item.batchId = id ∧
      item.state = .pending ∧
      claimNext db id now = (some item, updateItem db id item.index
        (fun i => { i with state := .sending, updatedAt := now }))) ∨
    (batchState db id = some .sending ∧ (∀ i ∈ db.items, i.batchId = id → i.state ≠ .pending) ∧
      claimNext db id now = (none, { db with
        batches := Table.update (fun b => b.id = id)
          (fun b => { b with state := .done, reason := "" }) db.batches })) := by
  by_cases hs : batchState db id = some .sending
  · obtain ⟨b, hb⟩ : ∃ b, Table.lookup Batch.id db.batches id = some b := by
      unfold batchState at hs
      cases h : Table.lookup Batch.id db.batches id with
      | none => rw [h] at hs; cases hs
      | some b => exact ⟨b, rfl⟩
    have hbatch : batch db id = some (b, itemsOf db id) := by unfold batch; rw [hb]; rfl
    cases hf : (itemsOf db id).find? (fun i => i.state = .pending) with
    | some item =>
      have hmem := mem_itemsOf.mp (mem_of_find?_eq_some hf)
      have hpend : item.state = .pending := by simpa using find?_some hf
      refine .inr (.inl ⟨hs, item, hmem.1, hmem.2, hpend, ?_⟩)
      unfold claimNext
      rw [if_neg (by simp [hs]), hbatch]
      simp only [Option.bind_some, hf]
    | none =>
      refine .inr (.inr ⟨hs, ?_, ?_⟩)
      · intro i hi hid
        have := find?_eq_none.mp hf i (mem_itemsOf.mpr ⟨hi, hid⟩)
        simpa using this
      · unfold claimNext
        rw [if_neg (by simp [hs]), hbatch]
        simp only [Option.bind_some, hf]
  · refine .inl ⟨hs, ?_⟩
    unfold claimNext
    rw [if_pos hs]

@[simp] theorem updateItem_batches (index : Nat) (f : Item → Item) : (updateItem db id index f).batches = db.batches := rfl

@[simp] theorem updateItem_attempts (index : Nat) (f : Item → Item) : (updateItem db id index f).attempts = db.attempts := rfl

@[simp] theorem settle_items (index : Nat) (outcome : Outcome) : (settle db id index outcome now).items = (updateItem db id index
      (fun i => { i with state := outcome.itemState, error := outcome.error, updatedAt := now })).items := by
  cases outcome <;> rfl

@[simp] theorem settle_attempts (index : Nat) (outcome : Outcome) : (settle db id index outcome now).attempts = db.attempts := by
  cases outcome <;> rfl

theorem resume_ok {retryRejected : Bool} {db' : Db} (h : resume db id retryRejected = .ok db') :
    db'.items = db.items.map (fun i =>
      if retryRejected = true ∧ i.batchId = id ∧ i.state = .rejected then
        { i with state := .pending, error := "" } else i) ∧
      db'.attempts = db.attempts := by
  unfold resume at h
  split at h
  · cases h
    refine ⟨?_, rfl⟩
    cases retryRejected with
    | false => simp
    | true => simp [Table.update]
  · cases h

/-- What `recover` writes into the row of a message that was on its way. -/
def recoverRow (now : Int) (attempt : Option AttemptState) (i : Item) : Item :=
  match attempt with
  | some .accepted | some .archived => { i with state := .accepted, error := "", updatedAt := now }
  | some .rejected => { i with state := .rejected, error := "", updatedAt := now }
  | none => { i with state := .pending, updatedAt := now }
  | some .sending | some .uncertain | some .resolved =>
    { i with state := .uncertain, error := "Oreneta stopped while this message was being sent",
             updatedAt := now }

theorem recoverRow_key (attempt : Option AttemptState) (i : Item) : (recoverRow now attempt i).key = i.key := by
  unfold recoverRow
  split <;> rfl

theorem recoverRow_messageId (attempt : Option AttemptState) (i : Item) : (recoverRow now attempt i).messageId = i.messageId := by
  unfold recoverRow
  split <;> rfl

theorem recoverOne_eq (stuck : String × Nat × String) : recoverOne now db stuck =
      updateItem db stuck.1 stuck.2.1 (recoverRow now (stateOf db.attempts stuck.2.2)) := by
  obtain ⟨b, k, m⟩ := stuck
  simp only [recoverOne]
  cases stateOf db.attempts m with
  | none => rfl
  | some s => cases s <;> rfl

/-- The loop of `recover` rewrites items only. -/
theorem foldl_recoverOne (stuck : List Item) :
    ∀ db : Db, (stuck.map (fun i => (i.batchId, i.index, i.messageId))).foldl (recoverOne now) db =
      { db with items := stuck.foldl (fun t i => Table.update (fun r => r.key = i.key)
        (recoverRow now (stateOf db.attempts i.messageId)) t) db.items } := by
  induction stuck with
  | nil => intro db; rfl
  | cons i stuck ih =>
    intro db
    simp only [map_cons, foldl_cons]
    rw [ih, recoverOne_eq]
    simp only [updateItem, Item.key, Prod.mk.injEq]

/-- **`recover` row by row**: exactly the items that were on their way are settled, each from its
own attempt. -/
theorem recover_items (hk : Keyed Item.key db.items) : (recover db now).2.items = db.items.map (fun i =>
      if i.state = .sending then recoverRow now (stateOf db.attempts i.messageId) i else i) := by
  simp only [recover]
  rw [foldl_recoverOne]
  simp only
  rw [foldl_update_filter hk fun i r => recoverRow_key _ _]
  simp

theorem recover_batches : (recover db now).2.batches = Table.update (fun b => b.state = .sending)
      (fun b => { b with state := .paused, reason := "Oreneta stopped while this was being sent" })
      db.batches := by
  simp only [recover]
  rw [foldl_recoverOne]

theorem recover_attempts : (recover db now).2.attempts = db.attempts := by
  simp only [recover]
  rw [foldl_recoverOne]

end Rows

end Oreneta.Merge

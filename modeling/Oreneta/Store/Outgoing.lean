import Oreneta.Lib.Table

/-!
# What became of every message this profile tried to send

The table `outgoing_attempts` of `store/outgoing.rs` and the operations on it.  A table is the
list of its rows, keyed by `id`.  Nothing here touches the network.

`stateOf_*` — what each operation does to the state of the attempt under a given id.  The mailings
read the table through these lemmas only.
-/

namespace Oreneta.Store.Outgoing

open Table

/-- `AttemptState`: `sending → accepted → archived`, `sending → rejected`,
`sending → uncertain → resolved`. -/
inductive AttemptState where
  | sending
  | accepted
  | archived
  | rejected
  | uncertain
  | resolved
  deriving DecidableEq, Repr

/-- Whether the message may already be with the recipient. -/
def AttemptState.mayHaveGone : AttemptState → Bool
  | .sending | .accepted | .archived | .uncertain => true
  | .rejected | .resolved => false

inductive AttemptKind where
  | now
  | scheduled
  deriving DecidableEq, Repr

structure OutgoingAttempt where
  id : String
  account : String
  kind : AttemptKind
  messageId : String
  subject : String
  recipients : String
  payload : String
  state : AttemptState
  error : String
  archiveError : String
  createdAt : Int
  updatedAt : Int
  deriving DecidableEq, Repr

/-- The parts of the send request that an attempt keeps: its subject, its recipients, and the
request itself serialised without any passphrase. -/
structure SendRequest where
  subject : String
  toAddr : String
  stored : String
  deriving DecidableEq, Repr

/-- The rows of `outgoing_attempts`. -/
abbrev Attempts := List OutgoingAttempt

/-- One attempt, by id. -/
def attempt (t : Attempts) (id : String) : Option OutgoingAttempt :=
  Table.lookup OutgoingAttempt.id t id

/-- The state of the attempt under an id. -/
def stateOf (t : Attempts) (id : String) : Option AttemptState :=
  (attempt t id).map (·.state)

/-- Writes an attempt down as about to go, in place of an earlier one with the same id. -/
def beginAttempt (t : Attempts) (id account : String) (kind : AttemptKind) (messageId : String)
    (request : SendRequest) (now : Int) : Attempts :=
  Table.insertOrReplace OutgoingAttempt.id t
    { id, account, kind, messageId, subject := request.subject, recipients := request.toAddr,
      payload := request.stored, state := .sending, error := "", archiveError := "",
      createdAt := now, updatedAt := now }

/-- `UPDATE outgoing_attempts SET f WHERE id = ?1`. -/
def updateById (t : Attempts) (id : String) (f : OutgoingAttempt → OutgoingAttempt) : Attempts :=
  Table.update (fun a => a.id = id) f t

def setState (t : Attempts) (id : String) (state : AttemptState) (now : Int) : Attempts :=
  updateById t id (fun a => { a with state, updatedAt := now })

/-- The server took the message. -/
def markAccepted (t : Attempts) (id : String) (now : Int) : Attempts := setState t id .accepted now

/-- The Sent copy is filed too. -/
def markArchived (t : Attempts) (id : String) (now : Int) : Attempts := setState t id .archived now

/-- The message went but the Sent copy did not; the state stays `accepted`. -/
def markArchiveFailed (t : Attempts) (id error : String) (now : Int) : Attempts :=
  Table.update (fun a => a.id = id ∧ a.state = .accepted)
    (fun a => { a with archiveError := error, updatedAt := now }) t

/-- The server said no, or was never reached. -/
def markRejected (t : Attempts) (id error : String) (now : Int) : Attempts :=
  updateById t id (fun a => { a with state := .rejected, error, updatedAt := now })

/-- The message left and no answer came. -/
def markUncertain (t : Attempts) (id error : String) (now : Int) : Attempts :=
  updateById t id (fun a => { a with state := .uncertain, error, updatedAt := now })

/-- Everything still marked as going when nothing is: called at startup. -/
def markInterruptedUncertain (t : Attempts) (now : Int) : Attempts :=
  Table.update (fun a => a.state = .sending)
    (fun a => { a with state := .uncertain,
                       error := "the application stopped while this message was being sent",
                       updatedAt := now }) t

/-- What `pruneSettled` forgets: rejected, archived and resolved attempts, and accepted ones
whose Sent copy did not fail, last touched before `before`. -/
def prunable (before : Int) (a : OutgoingAttempt) : Bool :=
  decide (a.updatedAt < before ∧
    (a.state = .rejected ∨ a.state = .archived ∨ a.state = .resolved ∨
      (a.state = .accepted ∧ a.archiveError = "")))

def pruneSettled (t : Attempts) (before : Int) : Attempts :=
  t.filter (fun a => !prunable before a)

/-! ## What each operation does to the attempt under an id -/

section StateOf

variable {t : Attempts} {id other : String}

theorem stateOf_update {p : OutgoingAttempt → Bool} {f : OutgoingAttempt → OutgoingAttempt} (hf : ∀ a, (f a).id = a.id) :
    stateOf (Table.update p f t) other =
      (attempt t other).map (fun a => if p a then (f a).state else a.state) := by
  unfold stateOf attempt
  rw [lookup_update hf, Option.map_map]
  congr 1
  funext a
  simp only [Function.comp_apply]
  split <;> rfl

/-- A mark that always writes the same state. -/
theorem stateOf_updateById {f : OutgoingAttempt → OutgoingAttempt} {s : AttemptState}
    (hf : ∀ a, (f a).id = a.id) (hs : ∀ a, (f a).state = s) : stateOf (updateById t id f) other =
      if other = id then (stateOf t id).map (fun _ => s) else stateOf t other := by
  unfold updateById
  rw [stateOf_update hf]
  unfold stateOf
  cases ha : attempt t other with
  | none =>
    by_cases h : other = id
    · simp [h ▸ ha]
    · simp [h]
  | some a =>
    have hk : a.id = other := (lookup_some ha).2
    by_cases h : other = id
    · simp [hk, h, hs, h ▸ ha]
    · simp [hk, h]

theorem stateOf_markArchiveFailed {error : String} {now : Int} :
    stateOf (markArchiveFailed t id error now) other = stateOf t other := by
  unfold markArchiveFailed
  rw [stateOf_update (by intro a; rfl)]
  unfold stateOf
  congr 1
  funext a
  split <;> rfl

theorem stateOf_beginAttempt {account messageId : String} {kind : AttemptKind} {request : SendRequest} {now : Int} :
    stateOf (beginAttempt t id account kind messageId request now) other =
      if other = id then some .sending else stateOf t other := by
  unfold stateOf attempt beginAttempt
  rw [lookup_insertOrReplace]
  split <;> rfl

theorem stateOf_markInterruptedUncertain {now : Int} : stateOf (markInterruptedUncertain t now) other =
      (stateOf t other).map (fun s => if s = .sending then .uncertain else s) := by
  unfold markInterruptedUncertain
  rw [stateOf_update (by intro a; rfl)]
  unfold stateOf
  rw [Option.map_map]
  congr 1
  funext a
  simp

/-- Pruning keeps an attempt or forgets it. -/
theorem attempt_pruneSettled {before : Int} (hu : Keyed OutgoingAttempt.id t) :
    attempt (pruneSettled t before) id = (attempt t id).filter (fun a => !prunable before a) :=
  lookup_filter hu

end StateOf

end Oreneta.Store.Outgoing

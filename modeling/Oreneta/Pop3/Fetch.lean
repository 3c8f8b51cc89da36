import Oreneta.Archive.Message
import Oreneta.Lib.Runs
import Oreneta.Lib.Table

/-!
# Downloading from a POP3 server

`fetch`, `stored_already`, `to_delete` and `present_hashes` of `pop3/mod.rs`, for one account, as a step
function: one step for what happens between two places where the program may be stopped or somebody
else may take the database.

* A `Session` is what the server says in one run: numbers and UIDLs, sizes, and the bytes a number names.
  Another session may list anything else.
* `hash` is SHA-256; `INSERT OR REPLACE` into `archive_messages` is an insertion, at the uid after the
  last one.
* `stop` is an error or a stop at any point of a run.
-/

namespace Oreneta.Pop3

open Text Archive

def INBOX : Str := "INBOX"

def TRASH : Str := "Trash"

def MAX_MESSAGE_BYTES : Nat := 100 * 1024 * 1024

/-- When messages are deleted from the server. -/
inductive Retention where
  | keep
  | afterDays (days : Nat)
  | whenDeletedHere
  deriving DecidableEq, Repr

/-- A row of `pop3_seen`. -/
structure SeenRow (D : Type) where
  uidl : Str
  hash : D
  uid : Option Nat
  fetchedAt : Int
  deletedOnServer : Bool
  deriving DecidableEq, Repr

/-- A row of `archive_messages`, with the `message_id` of the row of `messages` it joins, if any. -/
structure StoredRow where
  folder : Str
  uid : Nat
  raw : Bytes
  messageId : Option Str
  deriving DecidableEq, Repr

/-- One run: what the server says, and when. -/
structure Session where
  listed : List (Nat × Str)
  sizes : Nat → Option Nat
  bytes : Nat → Bytes
  now : Int

/-- Where a run stands. -/
inductive Phase (D : Type) where
  | idle
  /-- `rest` is what is left of the list. -/
  | fetching (session : Session) (known : List Str) (hashes : List D) (rest : List (Nat × Str))
  /-- Stored, and not noted in `pop3_seen` yet. -/
  | storing (session : Session) (known : List Str) (hashes : List D) (uidl : Str) (raw : Bytes)
      (uid : Nat) (rest : List (Nat × Str))
  | deleting (session : Session) (doomed rest : List (Nat × Str))
  /-- The session ended; the deletions are not recorded yet. -/
  | ended (doomed : List (Nat × Str))

/-- The message stored and not noted yet. -/
def Phase.inHand {D : Type} : Phase D → Option Bytes
  | .storing _ _ _ _ raw _ _ => some raw
  | _ => none

structure State (D : Type) where
  seen : List (SeenRow D)
  rows : List StoredRow
  retention : Retention
  phase : Phase D

inductive Act where
  | begin_ (session : Session)
  | next
  | note
  | decide_
  | dele
  | quit
  | record
  | stop
  | setRetention (retention : Retention)
  /-- Whatever is done to the stored messages here. -/
  | user (rows : List StoredRow)

section Fetch

variable {D : Type} [DecidableEq D] (hash : Bytes → D) (mail : Mailparse)

/-- `stored_already`: found by its Message-ID, confirmed by its bytes. -/
def storedAlready (rows : List StoredRow) (raw : Bytes) : Bool :=
  let id := headerId mail raw
  decide (id ≠ []) && rows.any (fun r =>
    decide (r.messageId.map asciiLower = some (asciiLower id)) &&
      decide (hash r.raw = hash raw))

/-- `INSERT OR IGNORE INTO pop3_seen`. -/
def insertOrIgnore (seen : List (SeenRow D)) (row : SeenRow D) : List (SeenRow D) :=
  if seen.any (fun r => r.uidl = row.uidl) then seen else seen ++ [row]

/-- The uid after the last one of the Inbox. -/
def nextUid (rows : List StoredRow) : Nat :=
  ((rows.filter (fun r => r.folder = INBOX)).map StoredRow.uid).foldr max 0 + 1

/-- `present_hashes`: what the account still holds outside its Trash. -/
def presentHashes (rows : List StoredRow) : List D :=
  (rows.filter (fun r => r.folder ≠ TRASH)).map (fun r => hash r.raw)

/-- Whether the policy says to delete what this row is about. -/
def due (retention : Retention) (present : List D) (now : Int) (row : SeenRow D) : Bool :=
  row.uid.isSome && (match retention with
    | .keep => false
    | .afterDays days => decide (now - row.fetchedAt ≥ (days : Int) * 86400)
    | .whenDeletedHere => !decide (row.hash ∈ present))

/-- `to_delete`. -/
def toDelete (s : State D) (listed : List (Nat × Str)) (now : Int) : List (Nat × Str) :=
  match s.retention with
  | .keep => []
  | retention =>
    let present := match retention with
      | .whenDeletedHere => presentHashes hash s.rows
      | _ => []
    listed.filter (fun entry =>
      (Table.lookup SeenRow.uidl s.seen entry.2).any (due retention present now))

/-- The download of one listed message. -/
def fetchOne (s : State D) (session : Session) (known : List Str) (hashes : List D) (n : Nat) (uidl : Str)
    (rest : List (Nat × Str)) : State D :=
  if uidl ∈ known then { s with phase := .fetching session known hashes rest }
  else if (session.sizes n).any (fun size => MAX_MESSAGE_BYTES < size) then
    { s with phase := .fetching session known hashes rest }
  else
    let raw := session.bytes n
    let digest := hash raw
    -- already here, or not mail: noted without a uid
    let noted := { s with
      seen := insertOrIgnore s.seen ⟨uidl, digest, none, session.now, false⟩
      phase := .fetching session known hashes rest }
    if digest ∈ hashes ∨ storedAlready hash mail s.rows raw = true then noted
    else if looksLikeMessage raw = false then noted
    else
      let uid := nextUid s.rows
      { s with
        rows := s.rows ++ [⟨INBOX, uid, raw, some (storedId mail raw)⟩]
        phase := .storing session known hashes uidl raw uid rest }

def step (s : State D) : Act → Option (State D)
  | .begin_ session =>
    match s.phase with
    | .idle => some { s with
        phase := .fetching session (s.seen.map SeenRow.uidl) (s.seen.map SeenRow.hash) session.listed }
    | _ => none
  | .next =>
    match s.phase with
    | .fetching session known hashes ((n, uidl) :: rest) =>
      some (fetchOne hash mail s session known hashes n uidl rest)
    | _ => none
  | .note =>
    match s.phase with
    | .storing session known hashes uidl raw uid rest =>
      some { s with
        seen := Table.insertOrReplace SeenRow.uidl s.seen ⟨uidl, hash raw, some uid, session.now, false⟩
        phase := .fetching session known (hash raw :: hashes) rest }
    | _ => none
  | .decide_ =>
    match s.phase with
    | .fetching session _ _ [] =>
      let doomed := toDelete hash s session.listed session.now
      some { s with phase := .deleting session doomed doomed }
    | _ => none
  | .dele =>
    match s.phase with
    | .deleting session doomed (_ :: rest) => some { s with phase := .deleting session doomed rest }
    | _ => none
  | .quit =>
    match s.phase with
    | .deleting _ doomed [] => some { s with phase := .ended doomed }
    | _ => none
  | .record =>
    match s.phase with
    | .ended doomed => some { s with
        seen := s.seen.map (fun r =>
          if doomed.any (fun entry => entry.2 = r.uidl) then { r with deletedOnServer := true } else r)
        phase := .idle }
    | _ => none
  | .stop => some { s with phase := .idle }
  | .setRetention retention => if retention = .afterDays 0 then none else some { s with retention }
  | .user rows => some { s with rows }

/-! ## What a step does -/

/-- The steps, each with where it is taken and where it leads. -/
inductive Does (s : State D) : Act → State D → Prop where
  | begin_ {session : Session} (h : s.phase = .idle) :
    Does s (.begin_ session) { s with
      phase := .fetching session (s.seen.map SeenRow.uidl) (s.seen.map SeenRow.hash) session.listed }
  | next {session : Session} {known : List Str} {hashes : List D} {n : Nat} {uidl : Str}
      {rest : List (Nat × Str)} (h : s.phase = .fetching session known hashes ((n, uidl) :: rest)) :
    Does s .next (fetchOne hash mail s session known hashes n uidl rest)
  | note {session : Session} {known : List Str} {hashes : List D} {uidl : Str} {raw : Bytes} {uid : Nat}
      {rest : List (Nat × Str)} (h : s.phase = .storing session known hashes uidl raw uid rest) :
    Does s .note { s with
      seen := Table.insertOrReplace SeenRow.uidl s.seen ⟨uidl, hash raw, some uid, session.now, false⟩
      phase := .fetching session known (hash raw :: hashes) rest }
  | decide_ {session : Session} {known : List Str} {hashes : List D}
      (h : s.phase = .fetching session known hashes []) :
    Does s .decide_ { s with
      phase := .deleting session (toDelete hash s session.listed session.now)
        (toDelete hash s session.listed session.now) }
  | dele {session : Session} {doomed : List (Nat × Str)} {entry : Nat × Str} {rest : List (Nat × Str)}
      (h : s.phase = .deleting session doomed (entry :: rest)) :
    Does s .dele { s with phase := .deleting session doomed rest }
  | quit {session : Session} {doomed : List (Nat × Str)} (h : s.phase = .deleting session doomed []) :
    Does s .quit { s with phase := .ended doomed }
  | record {doomed : List (Nat × Str)} (h : s.phase = .ended doomed) :
    Does s .record { s with
      seen := s.seen.map (fun r =>
        if doomed.any (fun entry => entry.2 = r.uidl) then { r with deletedOnServer := true } else r)
      phase := .idle }
  | stop : Does s .stop { s with phase := .idle }
  | setRetention {retention : Retention} : Does s (.setRetention retention) { s with retention }
  | user {rows : List StoredRow} : Does s (.user rows) { s with rows }

variable {hash mail} in
theorem step_does {s t : State D} {a : Act} (h : step hash mail s a = some t) : Does hash mail s a t := by
  cases a <;> dsimp only [step] at h
  case stop => cases h; exact .stop
  case user rows => cases h; exact .user
  case setRetention retention =>
    split at h
    · cases h
    · cases h
      exact .setRetention
  all_goals
    split at h
    · rename_i hphase
      cases h
      constructor
      exact hphase
    · cases h

end Fetch

/-- Before the first run. -/
def start (D : Type) (rows : List StoredRow) (retention : Retention) : State D where
  seen := []
  rows
  retention
  phase := .idle

/-- What was committed to `archive_messages` by downloads, seen from outside. -/
def sees {D : Type} (_ : State D) (a : Act) (t : State D) (committed : List Bytes) : List Bytes :=
  match a, t.phase with
  | .next, .storing _ _ _ _ raw _ _ => raw :: committed
  | _, _ => committed

end Oreneta.Pop3

import Mathlib.Data.List.Sort
import Oreneta.Graph.Page
import Oreneta.Lib.Runs
import Oreneta.Lib.Table

/-!
# One page after another

`graph/mail.rs`, `sync_page`: the tables of one account and a call as the steps it takes.  Between two steps of a
call the database is not locked, and the lease may be cancelled or replaced.

* `check`, `clearRound`, `removeMembership`, `projectRound` — as in the source, a transaction that fails leaving
  the tables alone.
* `openCall`, `answered`, `takeItem`, `resume`, `fetched`, `commit` — the parts of `sync_page`, cut where the lock is given back
  or the source is asked.
* `Action`, `step` — one of them, or something done to the lease; `returned` — what a call returns with its last step.

The calls of an account are made one at a time: its session is locked while one runs.  The source may answer
anything.  The columns left out are the counters and the error of the profile, `folder_state`, and of a cached
message what other subsystems keep there (`priority`, `spam`, the rest of `json`, another name for its thread).
-/

namespace Oreneta.Graph

open Text

/-! ## The tables -/

inductive ProfileState where
  | syncing | ready | failed | cancelled
  deriving DecidableEq, Repr

structure Profile where
  generation : Str
  state : ProfileState
  deriving DecidableEq, Repr

structure Folder where
  remoteId : Str
  localName : Str
  searchFolder : Bool
  active : Bool
  deriving DecidableEq, Repr

structure Item where
  remoteId : Str
  uid : Nat
  fields : Fields
  deriving DecidableEq, Repr

structure Membership where
  folderId : Str
  remoteId : Str
  deriving DecidableEq, Repr

structure Delta where
  folderId : Str
  checkpoint : Checkpoint
  deriving DecidableEq, Repr

structure Round where
  folderId : Str
  nextCheckpoint : Checkpoint
  full : Bool
  deriving DecidableEq, Repr

structure Staged where
  folderId : Str
  remoteId : Str
  fields : Fields
  removed : Bool
  deriving DecidableEq, Repr

structure RoundLink where
  folderId : Str
  link : Str
  deriving DecidableEq, Repr

/-- A row of `messages`. -/
structure Cached where
  folder : Str
  uid : Nat
  subject : Str
  fromName : Str
  fromAddr : Str
  date : Int
  seen : Bool
  starred : Bool
  threadKey : Str
  hasAttachments : Option Bool
  messageId : Str
  toList : List Recipient
  ccList : List Recipient
  recipients : Str
  body : Option Str
  bodyHtml : Option Str
  deriving DecidableEq, Repr

structure Db where
  profile : Option Profile
  folders : List Folder
  items : List Item
  memberships : List Membership
  delta : List Delta
  rounds : List Round
  staged : List Staged
  links : List RoundLink
  messages : List Cached
  deriving DecidableEq, Repr

def Staged.key (s : Staged) : Str × Str := (s.folderId, s.remoteId)

def Cached.key (m : Cached) : Str × Nat := (m.folder, m.uid)

namespace Db

def item (db : Db) (id : Str) : Option Item := Table.lookup Item.remoteId db.items id

def round (db : Db) (folderId : Str) : Option Round := Table.lookup Round.folderId db.rounds folderId

def checkpoint (db : Db) (folderId : Str) : Option Checkpoint :=
  (Table.lookup Delta.folderId db.delta folderId).map Delta.checkpoint

def stagedItem (db : Db) (folderId id : Str) : Option Staged := Table.lookup Staged.key db.staged (folderId, id)

def valid (db : Db) (generation : Str) : Bool :=
  match db.profile with
  | some p => decide (p.generation = generation) && p.state != .cancelled
  | none => false

def check (db : Db) (generation : Str) : Fallible Unit := ensure (db.valid generation = true) .cancelled

/-! ## A round's end -/

def clearRound (folderId : Str) (db : Db) : Db :=
  { db with
    staged := db.staged.filter (fun s => decide (s.folderId ≠ folderId))
    links := db.links.filter (fun l => decide (l.folderId ≠ folderId))
    rounds := db.rounds.filter (fun r => decide (r.folderId ≠ folderId)) }

def forgetCheckpoint (folderId : Str) (db : Db) : Db :=
  { db with delta := db.delta.filter (fun d => decide (d.folderId ≠ folderId)) }

def removeMembership (folderId folder id : Str) (db : Db) : Db :=
  { db with
    messages := db.messages.filter (fun m => !(decide (m.folder = folder) && ((db.item id).map Item.uid == some m.uid)))
    memberships := db.memberships.filter (fun m => decide (m ≠ ⟨folderId, id⟩)) }

/-- `COALESCE(MAX(uid),0)+1` -/
def nextUid (db : Db) : Nat := (db.items.map Item.uid).foldr max 0 + 1

/-- `u32::try_from` -/
def capacity (n : Nat) : Fallible Nat := if n < 2 ^ 32 then .ok n else .error .storage

def putItem (i : Item) (db : Db) : Db :=
  { db with items := Table.upsert Item.remoteId i (fun old => { old with fields := i.fields }) db.items }

def putMembership (m : Membership) (db : Db) : Db :=
  { db with memberships := if m ∈ db.memberships then db.memberships else db.memberships ++ [m] }

def newMessage (folder : Str) (h : Header) : Cached :=
  ⟨folder, h.uid, h.subject, h.fromName, h.fromAddr, h.date, h.seen, h.starred, h.threadKey, h.hasAttachments,
    h.messageId, h.toList, h.ccList, [], none, none⟩

/-- What `upsert_messages_in_transaction` writes over a row that is there. -/
def updatedMessage (h : Header) (old : Cached) : Cached :=
  { old with
    subject := h.subject
    fromName := h.fromName
    fromAddr := h.fromAddr
    date := h.date
    seen := h.seen
    starred := h.starred
    threadKey := h.threadKey
    hasAttachments := h.hasAttachments.or old.hasAttachments
    messageId := if h.messageId.isEmpty then old.messageId else h.messageId
    toList := if h.toList.isEmpty then old.toList else h.toList
    ccList := if h.ccList.isEmpty then old.ccList else h.ccList }

def upsertMessage (folder : Str) (h : Header) (db : Db) : Db :=
  { db with messages := Table.upsert Cached.key (newMessage folder h) (updatedMessage h) db.messages }

def indexText (h : Header) : Str :=
  join [' '] ((h.toList ++ h.ccList).map (fun r => r.name ++ ' ' :: r.addr))

/-- `UPDATE messages SET f WHERE folder AND uid`. -/
def updateMessage (folder : Str) (uid : Nat) (f : Cached → Cached) (db : Db) : Db :=
  { db with messages := Table.update (fun m => decide (m.key = (folder, uid))) f db.messages }

/-- Explicit empty remote lists clear old values. -/
def writeLists (h : Header) (m : Cached) : Cached :=
  { m with toList := h.toList, ccList := h.ccList, recipients := indexText h }

def dropBody (m : Cached) : Cached := { m with body := none, bodyHtml := none }

/-- `save_cached_message` -/
def saveBody (p : Parsed) (m : Cached) : Cached :=
  { m with
    subject := p.header.subject
    fromName := p.header.fromName
    fromAddr := p.header.fromAddr
    date := p.header.date
    messageId := p.header.messageId
    body := some p.body
    bodyHtml := p.bodyHtml }

/-- The number of an item: the one it has, or the next. -/
def uidFor (db : Db) (id : Str) : Fallible Nat :=
  match db.item id with
  | some i => .ok i.uid
  | none => capacity db.nextUid

/-- A body is kept for the version it was read of. -/
def bodyStale (previous : Option Item) (fields : Fields) : Bool :=
  match previous with
  | some i => i.fields.etag != fields.etag
  | none => false

def projectItem (C : Client) (folderId folder : Str) (s : Staged) (db : Db) : Fallible Db := do
  let uid ← db.uidFor s.remoteId
  let h ← header C s.fields uid
  let shown := (((db.putItem ⟨s.remoteId, uid, s.fields⟩).putMembership ⟨folderId, s.remoteId⟩).upsertMessage folder h
    ).updateMessage folder uid (writeLists h)
  let fresh := if bodyStale (db.item s.remoteId) s.fields then shown.updateMessage folder uid dropBody else shown
  if s.fields.body.isSome then
    let parsed ← parsedBody C s.fields uid
    return fresh.updateMessage folder uid (saveBody parsed)
  else return fresh

def projectStaged (C : Client) (folderId folder : Str) (db : Db) (s : Staged) : Fallible Db :=
  if s.removed then .ok (db.removeMembership folderId folder s.remoteId) else projectItem C folderId folder s db

/-- The members a full round does not name. -/
def missing (folderId : Str) (db : Db) : List Membership :=
  db.memberships.filter (fun m => decide (m.folderId = folderId) &&
    !db.staged.any (fun s => decide (s.key = (folderId, m.remoteId)) && !s.removed))

/-- `ORDER BY remote_id` -/
def stagedOf (folderId : Str) (db : Db) : List Staged :=
  (db.staged.filter (fun s => decide (s.folderId = folderId))).insertionSort (fun a b => ¬ b.remoteId < a.remoteId)

def dropMissing (folderId folder : Str) (full : Bool) (db : Db) : Db :=
  if full then (db.missing folderId).foldl (fun d m => d.removeMembership folderId folder m.remoteId) db else db

def projectRound (C : Client) (folderId folder : Str) (full : Bool) (db : Db) : Fallible Db := do
  let kept := db.dropMissing folderId folder full
  let projected ← (kept.stagedOf folderId).foldlM (projectStaged C folderId folder) kept
  let _ ← capacity projected.nextUid
  return projected

def putDelta (d : Delta) (db : Db) : Db := { db with delta := Table.upsert Delta.folderId d (fun _ => d) db.delta }

def putRound (r : Round) (db : Db) : Db :=
  { db with rounds := Table.upsert Round.folderId r (fun old => { old with nextCheckpoint := r.nextCheckpoint }) db.rounds }

def putStaged (db : Db) (s : Staged) : Db :=
  { db with staged := Table.upsert Staged.key s (fun old => { old with fields := s.fields, removed := s.removed }) db.staged }

def addLink (folderId : Str) (next : Checkpoint) (db : Db) : Fallible Db :=
  if next.kind = .nextPage then
    if ⟨folderId, next.url⟩ ∈ db.links then .error .invalidResponse
    else .ok { db with links := db.links ++ [⟨folderId, next.url⟩] }
  else .ok db

end Db

/-! ## A call -/

/-- Where a call is. -/
inductive Stage where
  /-- The source is asked for the page. -/
  | asked
  /-- The items still to go through, those gone through being staged. -/
  | reading (rest : List Message) (next : Checkpoint) (staged : List Staged)
  /-- The first of the rest is merged with the copy there is. -/
  | merged (fields : Fields) (item : Message) (rest : List Message) (next : Checkpoint) (staged : List Staged)
  /-- The source is asked for the whole of the first. -/
  | fetching (item : Message) (rest : List Message) (next : Checkpoint) (staged : List Staged)
  deriving DecidableEq, Repr

structure Call where
  generation : Str
  /-- The folder's local name. -/
  folder : Str
  remote : Str
  search : Bool
  checkpoint : Option Checkpoint
  full : Bool
  stage : Stage
  deriving DecidableEq, Repr

section

variable (C : Client) (account : Str)

def findFolder (db : Db) (folder : Str) : Option Folder :=
  db.folders.find? (fun f => decide (f.localName = folder) && f.active)

/-- Where the round is to go on, and whether it begins without a checkpoint. -/
def position (db : Db) (remote : Str) : Option Checkpoint × Bool :=
  match db.round remote with
  | some r => (some r.nextCheckpoint, r.full)
  | none => (db.checkpoint remote, (db.checkpoint remote).isNone)

def openCall (db : Db) (generation folder : Str) : Fallible Call := do
  db.check generation
  let f ← require (findFolder db folder) .storage
  let place := position db f.remoteId
  match place.1 with
  | some blob => do
    let _ ← unpack C blob account f.remoteId
    let _ ← ResourceId.new account .folder f.remoteId
    return ⟨generation, folder, f.remoteId, f.searchFolder, some blob, place.2, .asked⟩
  | none => do
    let _ ← ResourceId.new account .folder f.remoteId
    return ⟨generation, folder, f.remoteId, f.searchFolder, none, place.2, .asked⟩

/-- How a step of a call leaves it: under way, or returning. -/
inductive Outcome where
  | goes (call : Call)
  | returns (result : Fallible Bool)
  deriving DecidableEq

def Outcome.of (call : Call) (r : Fallible Stage) : Outcome :=
  match r with
  | .ok stage => .goes { call with stage := stage }
  | .error kind => .returns (.error kind)

def pageTaken (call : Call) (page : Page) : Fallible Stage := do
  let next ← require page.checkpoint .storage
  let _ ← unpack C next account call.remote
  return .reading page.items next []

def answered (db : Db) (call : Call) (answer : Fallible Page) : Db × Outcome :=
  match answer with
  | .ok page => (db, .of call (pageTaken C account call page))
  | .error kind =>
    if kind = .resyncRequired then
      match db.check call.generation with
      | .error refused => (db, .returns (.error refused))
      | .ok _ => ((db.clearRound call.remote).forgetCheckpoint call.remote, .returns (.error kind))
    else (db, .returns (.error kind))

/-- The copy of an item that a part of it is merged with. -/
def prior (db : Db) (call : Call) (staged : List Staged) (id : Str) : Fallible (Option Fields) :=
  match Table.lookup Staged.remoteId staged id with
  | some s => .ok (some s.fields)
  | none => do
    db.check call.generation
    return ((db.stagedItem call.remote id).map Staged.fields).or ((db.item id).map Item.fields)

def stage (call : Call) (staged : List Staged) (id : Str) (fields : Fields) (removed : Bool) : List Staged :=
  Table.insertOrReplace Staged.remoteId staged ⟨call.remote, id, fields, removed⟩

def takeItem (db : Db) (call : Call) (item : Message) (rest : List Message) (next : Checkpoint)
    (staged : List Staged) : Fallible Stage := do
  checkedId item.id account .message
  let key := item.id.opaqueId
  if item.fields.removed.isSome then return .reading rest next (stage call staged key .empty true)
  else
    let old ← prior db call staged key
    return .merged (mergeFields old item.fields) item rest next staged

/-- A copy that is good enough to be shown is staged. -/
def accept (call : Call) (fields : Fields) (item : Message) (rest : List Message) (next : Checkpoint)
    (staged : List Staged) : Fallible Stage := do
  ensure (metadataComplete fields = true ∧ (call.search = true ∨ fields.parentFolderId = some call.remote)) .invalidResponse
  let _ ← header C fields 1
  return .reading rest next (stage call staged item.id.opaqueId fields false)

def resume (db : Db) (call : Call) (fields : Fields) (item : Message) (rest : List Message)
    (next : Checkpoint) (staged : List Staged) : Fallible Stage :=
  if metadataComplete fields then accept C call fields item rest next staged
  else do
    db.check call.generation
    return .fetching item rest next staged

def fetched (call : Call) (item : Message) (rest : List Message) (next : Checkpoint) (staged : List Staged)
    (answer : Fallible Message) : Fallible Stage := do
  let whole ← answer
  checkedId whole.id account .message
  ensure (whole.id = item.id) .invalidResponse
  accept C call (mergeFields none whole.fields) item rest next staged

def commit (db : Db) (call : Call) (next : Checkpoint) (staged : List Staged) : Fallible (Db × Bool) := do
  db.check call.generation
  let linked ← db.addLink call.remote next
  let held := staged.foldl Db.putStaged linked
  if next.kind = .delta then
    let projected ← held.projectRound C call.remote call.folder call.full
    return ((projected.putDelta ⟨call.remote, next⟩).clearRound call.remote, true)
  else return (held.putRound ⟨call.remote, next, call.full⟩, false)

def committed (db : Db) (call : Call) (next : Checkpoint) (staged : List Staged) : Db × Outcome :=
  match commit C db call next staged with
  | .ok (after, complete) => (after, .returns (.ok complete))
  | .error kind => (db, .returns (.error kind))

end

/-! ## Runs -/

structure State where
  db : Db
  call : Option Call
  deriving DecidableEq

inductive Action where
  /-- `begin_profile` under the same principal. -/
  | beginProfile (generation : Str)
  /-- `cancel`: whether the account is in use decides the state. -/
  | cancel (lease generation : Str) (inUse : Bool)
  | recordFailure (lease : Str)
  /-- `sync_page` is called. -/
  | call (lease folder : Str)
  /-- The source answers with a page. -/
  | answer (page : Fallible Page)
  /-- The source answers with the whole of an item. -/
  | message (whole : Fallible Message)
  /-- The call goes on. -/
  | proceed
  /-- The program ends. -/
  | stop

section

variable (C : Client) (account : Str)

def touchProfile (db : Db) (lease : Str) (f : Profile → Profile) : Db :=
  { db with profile := db.profile.map (fun p => if p.generation = lease then f p else p) }

/-- What a call in flight makes of an action; none if the action is not its next. -/
def advance (db : Db) (call : Call) : Action → Option (Db × Outcome)
  | .answer page =>
    match call.stage with
    | .asked => some (answered C account db call page)
    | _ => none
  | .message whole =>
    match call.stage with
    | .fetching item rest next staged => some (db, .of call (fetched C account call item rest next staged whole))
    | _ => none
  | .proceed =>
    match call.stage with
    | .reading [] next staged => some (committed C db call next staged)
    | .reading (item :: rest) next staged => some (db, .of call (takeItem account db call item rest next staged))
    | .merged fields item rest next staged => some (db, .of call (resume C db call fields item rest next staged))
    | _ => none
  | _ => none

def settled : Db × Outcome → State × Option (Fallible Bool)
  | (db, .goes call) => (⟨db, some call⟩, none)
  | (db, .returns result) => (⟨db, none⟩, some result)

/-- What an action does to the tables and the call, and what the call returns with it, if it does. -/
def perform (s : State) : Action → Option (State × Option (Fallible Bool))
  | .beginProfile generation => some ({ s with db := { s.db with profile := some ⟨generation, .syncing⟩ } }, none)
  | .cancel lease generation inUse =>
    some ({ s with db := touchProfile s.db lease (fun _ => ⟨generation, if inUse then .ready else .cancelled⟩) }, none)
  | .recordFailure lease => some ({ s with db := touchProfile s.db lease (fun p => { p with state := .failed }) }, none)
  | .stop => some ({ s with call := none }, none)
  | .call lease folder =>
    match s.call with
    | some _ => none
    | none =>
      match openCall C account s.db lease folder with
      | .ok call => some ({ s with call := some call }, none)
      | .error kind => some (s, some (.error kind))
  | a => s.call.bind fun call => (advance C account s.db call a).map settled

def step (s : State) (a : Action) : Option State := (perform C account s a).map Prod.fst

def returned (s : State) (a : Action) : Option (Fallible Bool) := (perform C account s a).bind Prod.snd

end

end Oreneta.Graph

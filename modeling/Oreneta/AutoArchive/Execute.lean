import Oreneta.AutoArchive.Steps

/-!
# Automatic archiving: carrying out a plan

`copy_one_local` and `execute` of `auto_archive/mod.rs`, over operations that may fail.  `idOf` reads
the Message-ID of a stored message and `lower` is SQLite's `lower`.
-/

namespace Oreneta.AutoArchive

inductive Destination where
  | server
  | local_
  deriving DecidableEq, Repr

/-- The parts of the policy a run reads. -/
structure Policy where
  keepServerCopy : Bool
  deriving DecidableEq, Repr

structure Candidate where
  uid : Nat
  date : Int
  seen : Bool
  starred : Bool
  messageId : Str
  subject : Str
  deriving DecidableEq, Repr

/-- What the policy would move from one folder. -/
structure PlannedFolder where
  folder : Str
  target : Str
  selected : List Candidate
  deriving DecidableEq, Repr

structure Plan where
  account : Str
  destination : Destination
  target : Str
  folders : List PlannedFolder
  deriving DecidableEq, Repr

structure ItemFailure where
  folder : Str
  uid : Nat
  subject : Str
  step : Str
  error : Str
  deriving DecidableEq, Repr

structure FolderOutcome where
  folder : Str
  selected : Nat
  moved : Nat
  kept : Nat
  failed : Nat
  deriving DecidableEq, Repr

structure RunLog where
  account : Str
  startedAt : Int
  destination : Destination
  target : Str
  moved : Nat
  kept : Nat
  failed : Nat
  gone : Nat
  folders : List FolderOutcome
  failures : List ItemFailure
  deriving DecidableEq, Repr

/-- Failed items listed in one log entry. -/
def maxListedFailures : Nat := 200

/-- Messages moved by one server request. -/
def chunkSize : Nat := 50

/-- `slice::chunks(CHUNK)`. -/
def chunks (l : List Candidate) : List (List Candidate) := l.toChunks chunkSize

/-- What a folder has added to the log so far. -/
structure Progress where
  log : RunLog
  outcome : FolderOutcome
  deriving DecidableEq, Repr

def Progress.fail (p : Progress) (folder : Str) (c : Candidate) (step error : Str) : Progress :=
  { log := { p.log with
      failed := p.log.failed + 1
      failures := if p.log.failures.length < maxListedFailures then
        p.log.failures ++ [⟨folder, c.uid, c.subject, step, error⟩] else p.log.failures }
    outcome := { p.outcome with failed := p.outcome.failed + 1 } }

def Progress.moved (p : Progress) (n : Nat) : Progress :=
  { log := { p.log with moved := p.log.moved + n }
    outcome := { p.outcome with moved := p.outcome.moved + n } }

def Progress.kept (p : Progress) (n : Nat) : Progress :=
  { log := { p.log with kept := p.log.kept + n }
    outcome := { p.outcome with kept := p.outcome.kept + n } }

section Run

variable {β : Type} [DecidableEq β] (idOf : β → Str) (lower : Str → Str)

/-- `map_err(fail(step))?`. -/
def orFail {α γ : Type} (step : Str) (m : M β (Except Str α))
    (k : α → M β (Except (Str × Str) γ)) : M β (Except (Str × Str) γ) := do
  match ← m with
  | .ok a => k a
  | .error e => pure (.error (step, e))

/-- The copy the journal knows of, if it still has the message's bytes. -/
def journalCopy (local_ : Str) (raw : β) (journal : Option JournalRow)
    (k : Option Nat → M β (Except (Str × Str) Unit)) : M β (Except (Str × Str) Unit) :=
  match journal with
  | some row =>
    if row.localFolder = local_ then
      match row.localUid with
      | some uid => orFail "verify" (readLocal local_ uid) fun back =>
          if back = some raw then k (some uid) else k none
      | none => k none
    else k none
  | none => k none

/-- The first of the copies `uids` that has the message's bytes. -/
def firstCopy (local_ : Str) (raw : β) (k : Option Nat → M β (Except (Str × Str) Unit)) :
    List Nat → M β (Except (Str × Str) Unit)
  | [] => k none
  | uid :: uids => orFail "verify" (readLocal local_ uid) fun back =>
      if back = some raw then k (some uid) else firstCopy local_ raw k uids

def journalRow (account folder local_ : Str) (c : Candidate) (uid : Nat) (stage : Stage) (now : Int) :
    JournalRow :=
  ⟨account, folder, c.uid, c.messageId, local_, some uid, stage, now⟩

def markVerified (account folder local_ : Str) (c : Candidate) (now : Int) (uid : Nat) :
    M β (Except (Str × Str) Unit) :=
  orFail "copy" (journalSet (journalRow account folder local_ c uid .verified now))
    fun _ => pure (.ok ())

/-- A new copy, read back and compared; one that does not match is removed again. -/
def storeAndCheck (account folder local_ : Str) (c : Candidate) (message : RawMessageCopy β) (now : Int) :
    M β (Except (Str × Str) Unit) :=
  orFail "copy" (storeLocal local_ message) fun uid =>
  orFail "copy" (journalSet (journalRow account folder local_ c uid .copied now)) fun _ => do
    let back ← readLocal local_ uid
    if back = .ok (some message.raw) then markVerified account folder local_ c now uid
    else do
      let _ ← removeLocal (β := β) local_ uid
      let _ ← journalClear (β := β) account folder [c.uid]
      pure (.error ("verify", match back with
        | .error e => e
        | .ok _ => ("the archived copy did not match the original, so it was removed and the " ++
            "message left on the server").toList))

/-- Copies one message to the local archive and checks the copy.  Nothing on the server is touched
here. -/
def copyOneLocal (account folder local_ : Str) (c : Candidate) (message : RawMessageCopy β) (now : Int) :
    M β (Except (Str × Str) Unit) :=
  orFail "copy" (journalGet account folder c.uid) fun journal =>
  journalCopy local_ message.raw journal fun existing =>
  match existing with
  | some uid => markVerified account folder local_ c now uid
  | none =>
    orFail "copy" (findLocal idOf lower local_ c.messageId) fun uids =>
    firstCopy local_ message.raw (fun existing =>
      match existing with
      | some uid => markVerified account folder local_ c now uid
      | none => storeAndCheck account folder local_ c message now) uids

/-- The messages of a chunk one after another: those whose copy was verified. -/
def copyChunk (account folder local_ : Str) (now : Int) :
    List Candidate → Progress → List Candidate → M β (Progress × List Candidate)
  | [], p, verified => pure (p, verified)
  | c :: cs, p, verified => do
    match ← fetch account folder c.uid with
    | .ok (some message) =>
      match ← copyOneLocal idOf lower account folder local_ c message now with
      | .ok () => copyChunk account folder local_ now cs p (verified ++ [c])
      | .error (step, e) => copyChunk account folder local_ now cs (p.fail folder c step e) verified
    | .ok none => do
      let _ ← journalClear account folder [c.uid]
      copyChunk account folder local_ now cs { p with log := { p.log with gone := p.log.gone + 1 } }
        verified
    | .error e => copyChunk account folder local_ now cs (p.fail folder c "fetch" e) verified

/-- The journal rows of messages whose server copy is kept. -/
def markKept (account folder local_ : Str) (now : Int) : List Candidate → M β Unit
  | [] => pure ()
  | c :: cs => do
    match ← journalGet account folder c.uid with
    | .ok (some row) =>
      let _ ← journalSet (journalRow account folder local_ c (row.localUid.getD 0) .kept now)
      markKept account folder local_ now cs
    | _ => markKept account folder local_ now cs

/-- One chunk of a folder that goes to the local archive. -/
def localChunk (policy : Policy) (account : Str) (planned : PlannedFolder) (now : Int)
    (chunk : List Candidate) (p : Progress) : M β Progress := do
  let (p, verified) ← copyChunk idOf lower account planned.folder planned.target now chunk p []
  if verified.isEmpty then pure p
  else if policy.keepServerCopy then do
    markKept account planned.folder planned.target now verified
    pure (p.kept verified.length)
  else do
    match ← deleteOnServer account planned.folder (verified.map (·.uid)) with
    | .ok () => do
      let _ ← journalClear account planned.folder (verified.map (·.uid))
      pure (p.moved verified.length)
    | .error e =>
      pure (verified.foldl (fun p c => p.fail planned.folder c "delete"
        ("the archived copy is kept, but removing it from the server failed: " ++ e)) p)

/-- One chunk of a folder that goes to the account's own Archive folder. -/
def serverChunk (account : Str) (planned : PlannedFolder) (chunk : List Candidate) (p : Progress) :
    M β Progress := do
  match ← moveTo account planned.folder planned.target (chunk.map (·.uid)) with
  | .ok () => pure (p.moved chunk.length)
  | .error e => pure (chunk.foldl (fun p c => p.fail planned.folder c "move" e) p)

def allChunks (one : List Candidate → Progress → M β Progress) :
    List (List Candidate) → Progress → M β Progress
  | [], p => pure p
  | chunk :: rest, p => do
    let p ← one chunk p
    allChunks one rest p

def allFolders (policy : Policy) (plan : Plan) (now : Int) :
    List PlannedFolder → RunLog → M β RunLog
  | [], log => pure log
  | planned :: rest, log => do
    let start : Progress := ⟨log, ⟨planned.folder, planned.selected.length, 0, 0, 0⟩⟩
    let p ← match plan.destination with
      | .server => allChunks (serverChunk plan.account planned) (chunks planned.selected) start
      | .local_ =>
        allChunks (localChunk idOf lower policy plan.account planned now) (chunks planned.selected) start
    allFolders policy plan now rest { p.log with folders := p.log.folders ++ [p.outcome] }

/-- Carries out a plan; what did not go is in the log, item by item. -/
def execute (policy : Policy) (plan : Plan) (now : Int) : M β RunLog :=
  allFolders idOf lower policy plan now plan.folders
    ⟨plan.account, now, plan.destination, plan.target, 0, 0, 0, 0, [], []⟩

end Run

end Oreneta.AutoArchive

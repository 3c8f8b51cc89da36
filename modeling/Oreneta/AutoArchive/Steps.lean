import Mathlib.Data.List.Sort
import Oreneta.Lib.Prog
import Oreneta.Lib.Table
import Oreneta.Lib.Text

/-!
# Automatic archiving: the server, the local archive and the steps between them

`auto_archive/mod.rs`, the trait `Steps` and the progress journal.  A run asks for one operation after
another; each of them may work, fail before or after its effect, or never come because the program
stops first.  Which of these happens is read off a list of faults, so a result about every list is
about every pattern of failures.

* `World` — the messages on the server, the local archive and the journal; a uid names one message.
* `fetch`, `storeLocal`, `readLocal`, `findLocal`, `removeLocal`, `deleteOnServer`, `moveTo`,
  `journalGet`, `journalSet`, `journalClear` — the operations, each leaving a moment in the trace.
* `step_*` — what one operation does to the world, whatever fault it meets.
-/

namespace Oreneta.AutoArchive

open List

/-- A message on the server; `β` is the type of its original bytes. -/
structure ServerRow (β : Type) where
  account : Str
  folder : Str
  uid : Nat
  raw : β
  seen : Bool
  starred : Bool

def ServerRow.key {β : Type} (m : ServerRow β) : Str × Str × Nat := (m.account, m.folder, m.uid)

/-- A message of the local archive (`archive_messages`). -/
structure LocalRow (β : Type) where
  folder : Str
  uid : Nat
  raw : β

def LocalRow.key {β : Type} (r : LocalRow β) : Str × Nat := (r.folder, r.uid)

/-- How far one message got. -/
inductive Stage where
  | copied
  | verified
  | kept
  deriving DecidableEq, Repr

/-- A row of `auto_archive_items`. -/
structure JournalRow where
  account : Str
  folder : Str
  uid : Nat
  messageId : Str
  localFolder : Str
  localUid : Option Nat
  stage : Stage
  updatedAt : Int
  deriving DecidableEq, Repr

def JournalRow.key (r : JournalRow) : Str × Str × Nat := (r.account, r.folder, r.uid)

/-- What there is outside the run; a uid names one message of its folder. -/
structure World (β : Type) where
  server : List (ServerRow β)
  serverKeyed : Table.Keyed ServerRow.key server
  archive : List (LocalRow β)
  archiveKeyed : Table.Keyed LocalRow.key archive
  journal : List JournalRow

/-- `imap::RawMessageCopy`. -/
structure RawMessageCopy (β : Type) where
  raw : β
  seen : Bool
  starred : Bool

section Effects

variable {β : Type} (w : World β)

/-- The uid after the last one of a folder of the local archive. -/
def World.nextUid (folder : Str) : Nat :=
  ((w.archive.filter (fun r => decide (r.folder = folder))).map (·.uid)).foldr max 0 + 1

theorem World.lt_nextUid {folder : Str} {r : LocalRow β} (hr : r ∈ w.archive) (hf : r.folder = folder) :
    r.uid < w.nextUid folder := by
  have hle : ∀ (l : List Nat) (n : Nat), n ∈ l → n ≤ l.foldr max 0 := by
    intro l
    induction l with
    | nil => intro n h; cases h
    | cons m l ih =>
      intro n h
      rw [foldr_cons]
      rcases mem_cons.mp h with rfl | h
      · exact Nat.le_max_left _ _
      · exact Nat.le_trans (ih n h) (Nat.le_max_right _ _)
  have hmem : r.uid ∈ (w.archive.filter fun r => decide (r.folder = folder)).map (·.uid) :=
    mem_map_of_mem (mem_filter.mpr ⟨hr, by simpa using hf⟩)
  have := hle _ _ hmem
  unfold World.nextUid
  omega

/-- `archive::store_message`. -/
def World.store (folder : Str) (raw : β) : World β :=
  { w with
    archive := Table.insertOrReplace LocalRow.key w.archive ⟨folder, w.nextUid folder, raw⟩
    archiveKeyed := w.archiveKeyed.insertOrReplace _ }

/-- `LocalArchive::remove`. -/
def World.remove (folder : Str) (uid : Nat) : World β :=
  { w with
    archive := w.archive.filter (fun r => !decide (r.key = (folder, uid)))
    archiveKeyed := w.archiveKeyed.filter _ }

/-- The messages leave the server for good. -/
def World.expunge (account folder : Str) (uids : List Nat) : World β :=
  { w with
    server := w.server.filter (fun m =>
      !(decide (m.account = account) && decide (m.folder = folder) && uids.contains m.uid))
    serverKeyed := w.serverKeyed.filter _ }

/-- The uid after the last one of a folder on the server. -/
def World.nextServerUid (account folder : Str) : Nat :=
  ((w.server.filter (fun m => decide (m.account = account) && decide (m.folder = folder))).map
    (·.uid)).foldr max 0 + 1

/-- One message moved on the server, where it gets a new uid. -/
def World.moveOne (account folder target : Str) (uid : Nat) : World β :=
  match Table.lookup ServerRow.key w.server (account, folder, uid) with
  | some m =>
    let without := w.expunge account folder [uid]
    { without with
      server := Table.insertOrReplace ServerRow.key without.server
        { m with folder := target, uid := without.nextServerUid account target }
      serverKeyed := without.serverKeyed.insertOrReplace _ }
  | none => w

def World.move (account folder target : Str) (uids : List Nat) : World β :=
  uids.foldl (fun w uid => w.moveOne account folder target uid) w

/-- `INSERT … ON CONFLICT(account, folder, uid) DO UPDATE`. -/
def World.journalSet (row : JournalRow) : World β :=
  { w with journal := Table.insertOrReplace JournalRow.key w.journal row }

def World.journalClear (account folder : Str) (uids : List Nat) : World β :=
  { w with
    journal := w.journal.filter (fun r =>
      !(decide (r.account = account) && decide (r.folder = folder) && uids.contains r.uid)) }

end Effects

/-! ## Operations that may fail -/

/-- What becomes of an operation. -/
inductive Fault (β : Type) where
  | none
  /-- It fails and has done nothing. -/
  | before (error : Str)
  /-- It did its work, but the answer is an error. -/
  | after (error : Str)
  /-- It fails in the middle: of several messages only these were reached. -/
  | partly (done : List Nat) (error : Str)
  /-- It writes something else than it was given. -/
  | garbled (raw : β)
  /-- The program ends before it. -/
  | stop

/-- The messages an operation on several of them got to. -/
def Fault.reached {β : Type} (uids : List Nat) : Fault β → List Nat
  | .partly done _ => uids.filter (fun u => done.contains u)
  | _ => uids

theorem Fault.reached_subset {β : Type} {fault : Fault β} {uids : List Nat} {u : Nat}
    (h : u ∈ fault.reached uids) : u ∈ uids := by
  cases fault with
  | partly done e => exact mem_of_mem_filter h
  | none => exact h
  | before e => exact h
  | after e => exact h
  | garbled raw => exact h
  | stop => exact h

/-- What was asked of the server and of the local archive, with the answer where it matters. -/
inductive Event (β : Type) where
  | fetched (account folder : Str) (uid : Nat) (raw : β)
  | readBack (folder : Str) (uid : Nat) (raw : β)
  | delete (account folder : Str) (uids : List Nat)
  | other

/-- The state of a run: the world, the faults to come, and every moment so far. -/
structure Ctl (β : Type) where
  world : World β
  faults : List (Fault β)
  trace : List (Event β × World β)

abbrev M (β : Type) := Prog (Ctl β)

/-- One operation: `effect` is what it does, under the fault it meets. -/
def op {β α : Type} (asked : Event β) (answered : α → Event β)
    (effect : Fault β → World β → World β × α) : M β (Except Str α) := fun s =>
  let fault := s.faults.headD .none
  let faults := s.faults.tail
  match fault with
  | .stop => (none, { s with faults })
  | .before e => (some (.error e), ⟨s.world, faults, s.trace ++ [(asked, s.world)]⟩)
  | .after e | .partly _ e =>
    let w := (effect fault s.world).1
    (some (.error e), ⟨w, faults, s.trace ++ [(asked, w)]⟩)
  | .none | .garbled _ =>
    let (w, a) := effect fault s.world
    (some (.ok a), ⟨w, faults, s.trace ++ [(answered a, w)]⟩)

section Operations

variable {β : Type} [DecidableEq β]

/-- A message's original bytes, or none when it is no longer there. -/
def fetch (account folder : Str) (uid : Nat) : M β (Except Str (Option (RawMessageCopy β))) :=
  op .other
    (fun got => match got with
      | some m => .fetched account folder uid m.raw
      | none => .other)
    (fun _ w => (w, (Table.lookup ServerRow.key w.server (account, folder, uid)).map
      (fun m => ⟨m.raw, m.seen, m.starred⟩)))

/-- Removes from the server for good. -/
def deleteOnServer (account folder : Str) (uids : List Nat) : M β (Except Str Unit) :=
  op (.delete account folder uids) (fun _ => .delete account folder uids)
    (fun fault w => (w.expunge account folder (fault.reached uids), ()))

/-- Moves on the server. -/
def moveTo (account folder target : Str) (uids : List Nat) : M β (Except Str Unit) :=
  op .other (fun _ => .other)
    (fun fault w => (w.move account folder target (fault.reached uids), ()))

/-- Writes a message into the local archive; returns its uid there. -/
def storeLocal (folder : Str) (message : RawMessageCopy β) : M β (Except Str Nat) :=
  op .other (fun _ => .other)
    (fun fault w => match fault with
      | .garbled raw => (w.store folder raw, w.nextUid folder)
      | _ => (w.store folder message.raw, w.nextUid folder))

/-- Reads back a local archive message's bytes. -/
def readLocal (folder : Str) (uid : Nat) : M β (Except Str (Option β)) :=
  op .other
    (fun got => match got with
      | some raw => .readBack folder uid raw
      | none => .other)
    (fun _ w => (w, (Table.lookup LocalRow.key w.archive (folder, uid)).map (·.raw)))

/-- Local archive messages in `folder` with this Message-ID, in the order of their uids; `idOf` reads
the Message-ID of a message. -/
def findLocal (idOf : β → Str) (lower : Str → Str) (folder messageId : Str) :
    M β (Except Str (List Nat)) :=
  op .other (fun _ => .other)
    (fun _ w => (w,
      if (Text.trim messageId).isEmpty then []
      else ((w.archive.filter (fun r => decide (r.folder = folder) &&
        decide (lower (idOf r.raw) = lower messageId))).map (·.uid)).insertionSort (· ≤ ·)))

/-- Removes a local copy that did not pass its check. -/
def removeLocal (folder : Str) (uid : Nat) : M β (Except Str Unit) :=
  op .other (fun _ => .other) (fun _ w => (w.remove folder uid, ()))

def journalGet (account folder : Str) (uid : Nat) : M β (Except Str (Option JournalRow)) :=
  op .other (fun _ => .other)
    (fun _ w => (w, Table.lookup JournalRow.key w.journal (account, folder, uid)))

def journalSet (row : JournalRow) : M β (Except Str Unit) :=
  op .other (fun _ => .other) (fun _ w => (w.journalSet row, ()))

def journalClear (account folder : Str) (uids : List Nat) : M β (Except Str Unit) :=
  op .other (fun _ => .other) (fun _ w => (w.journalClear account folder uids, ()))

end Operations

end Oreneta.AutoArchive

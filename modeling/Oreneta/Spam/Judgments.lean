import Oreneta.Lib.Counts
import Oreneta.Lib.Runs
import Oreneta.Lib.Text
import Mathlib.Data.List.Destutter
import Mathlib.Data.List.Sort

/-!
# Spam judgments

What the reader said about messages (`spam_judgments`) and the counts learned from it (`sender_spam`,
`spam_triggers`): `record_spam_judgment_change`, `revert_spam_judgment` and
`preserve_spam_judgments_for_move` of the store, and `tokenize` of `spam.rs`.

* `lower` and `isAlphanumeric` are `str::to_lowercase` and `char::is_alphanumeric`.
* A function that answers an error has rolled its transaction back; the model has no such outcome.
* `Act` and `step` — the program's calls, with `sync` for all that happens to the messages meanwhile,
  as long as none of them leaves the cache.
-/

namespace Oreneta.Spam

open Text Counts

/-! ## Rows -/

/-- `gmail_msg_id` in a message's `json`. -/
inductive GmailId where
  /-- A number that fits `u64`. -/
  | number (n : Nat)
  | text (s : Str)
  | other
  deriving DecidableEq, Repr

/-- What the identity of a message is read from; `message_id` where it is a text. -/
structure Envelope where
  gmailMsgId : Option GmailId
  messageId : Option Str
  deriving DecidableEq, Repr

structure MessageRow where
  id : Int
  account : Str
  folder : Str
  uid : Nat
  subject : Option Str
  fromAddr : Option Str
  date : Int
  threadKey : Option Str
  /-- `none` when it does not parse. -/
  json : Option Envelope
  deriving DecidableEq, Repr

/-- One explicit judgment: the decision and the sender and subject it contributed. -/
structure SpamJudgmentState where
  spam : Bool
  fromAddr : Str
  subject : Str
  deriving DecidableEq, Repr

/-- A row of `spam_judgments`. -/
structure Judgment where
  account : Str
  messageId : Int
  state : SpamJudgmentState
  deriving DecidableEq, Repr

/-- `PRIMARY KEY (account, message_id)`. -/
def Judgment.key (j : Judgment) : Str × Int := (j.account, j.messageId)

/-- What one change did to a judgment; `none` means that there was no row. -/
structure SpamJudgmentChange where
  account : Str
  messageId : Int
  before : Option SpamJudgmentState
  after : Option SpamJudgmentState
  deriving DecidableEq, Repr

def SpamJudgmentChange.inverse (c : SpamJudgmentChange) : SpamJudgmentChange :=
  { c with before := c.after, after := c.before }

structure RecordedSpamJudgment where
  sender : Str
  change : SpamJudgmentChange
  deriving DecidableEq, Repr

structure Db where
  messages : List MessageRow
  judgments : List Judgment
  /-- `sender_spam` and `spam_triggers`: spam counts first, then ham counts. -/
  senders : List (Count (Str × Str))
  triggers : List (Count (Str × Str))
  deriving Repr

/-! ## Learning -/

section Learning

variable (lower : Str → Str) (isAlphanumeric : Char → Bool)

/-- `tokenize`: the words of a subject, each once. -/
def tokenize (text : Str) : List Str :=
  (((((text.splitOnP (fun c => !isAlphanumeric c)).map lower).filter
    (fun word => 4 ≤ word.length)).insertionSort (· ≤ ·)).destutter (· ≠ ·))

/-- `addr.trim().to_lowercase()`. -/
def addrOf (addr : Str) : Str := lower (trim addr)

/-- The row of `sender_spam` a judgment counts in; none for a sender without address. -/
def senderKeys (account : Str) (state : SpamJudgmentState) : List (Str × Str) :=
  if addrOf lower state.fromAddr = [] then [] else [(account, addrOf lower state.fromAddr)]

/-- The rows of `spam_triggers` a judgment counts in. -/
def triggerKeys (account : Str) (state : SpamJudgmentState) : List (Str × Str) :=
  (tokenize lower isAlphanumeric state.subject).map (fun word => (account, word))

def adjustSenderSpam (db : Db) (account : Str) (state : SpamJudgmentState) (multiplier : Int) : Db :=
  { db with senders := adjustAll db.senders (senderKeys lower account state) state.spam multiplier }

def adjustSpamTriggerWords (db : Db) (account : Str) (state : SpamJudgmentState) (multiplier : Int) : Db :=
  { db with
    triggers := adjustAll db.triggers (triggerKeys lower isAlphanumeric account state) state.spam
      multiplier }

/-- Both at once. -/
def learn (db : Db) (account : Str) (state : SpamJudgmentState) (multiplier : Int) : Db :=
  adjustSpamTriggerWords lower isAlphanumeric (adjustSenderSpam lower db account state multiplier) account
    state multiplier

/-! ## Judging -/

def spamJudgmentState (db : Db) (account : Str) (messageId : Int) : Option SpamJudgmentState :=
  (Table.lookup Judgment.key db.judgments (account, messageId)).map Judgment.state

def setJudgment (db : Db) (j : Judgment) : Db :=
  { db with judgments := Table.insertOrReplace Judgment.key db.judgments j }

def dropJudgment (db : Db) (account : Str) (messageId : Int) : Db :=
  { db with judgments := db.judgments.filter (fun j => decide (j.key ≠ (account, messageId))) }

/-- `write_spam_judgment`: replaces a message's row and moves the learned counts along. -/
def writeSpamJudgment (db : Db) (account : Str) (messageId : Int)
    (current next : Option SpamJudgmentState) : Db :=
  if current = next then db
  else
    let db := match current with
      | some current => learn lower isAlphanumeric db account current (-1)
      | none => db
    match next with
    | some next => learn lower isAlphanumeric (setJudgment db ⟨account, messageId, next⟩) account next 1
    | none => dropJudgment db account messageId

/-- `COALESCE(NULLIF(thread_key, ''), 'uid:' || uid)`. -/
def MessageRow.thread (m : MessageRow) : Str :=
  (m.threadKey.filter (fun k => k ≠ [])).getD ("uid:" ++ Nat.toDigits 10 m.uid)

/-- The newest message of a conversation. -/
def newestMessageForSpamJudgment (db : Db) (account folder threadKey : Str) :
    Option (Int × Str × Str) :=
  let rows := db.messages.filter
    (fun m => m.account = account ∧ m.folder = folder ∧ m.thread = threadKey)
  (rows.insertionSort (fun a b => b.date < a.date ∨ a.date = b.date ∧ b.uid ≤ a.uid)).head?.map
    (fun m => (m.id, m.fromAddr.getD [], m.subject.getD []))

def recordSpamJudgmentChange (db : Db) (account folder threadKey : Str) (isSpam : Bool) :
    Option RecordedSpamJudgment × Db :=
  match newestMessageForSpamJudgment db account folder threadKey with
  | none => (none, db)
  | some (messageId, fromAddr, subject) =>
    let before := spamJudgmentState db account messageId
    let after := match before with
      | some previous =>
        if previous.spam = isSpam then before else some ⟨isSpam, fromAddr, subject⟩
      | none => some ⟨isSpam, fromAddr, subject⟩
    (some ⟨fromAddr, account, messageId, before, after⟩,
      writeSpamJudgment lower isAlphanumeric db account messageId before after)

def cached (db : Db) (account : Str) (messageId : Int) : Bool :=
  db.messages.any (fun m => m.id = messageId ∧ m.account = account)

def revertSpamJudgment (db : Db) (change : SpamJudgmentChange) : Option SpamJudgmentChange × Db :=
  let current := spamJudgmentState db change.account change.messageId
  if current ≠ change.after then (none, db)
  else if current.isNone ∧ change.before.isSome ∧ cached db change.account change.messageId = false then
    (none, db)
  else
    (some change.inverse,
      writeSpamJudgment lower isAlphanumeric db change.account change.messageId current change.before)

/-! ## Moving -/

/-- `stable_cached_message_identity`. -/
def stableCachedMessageIdentity (json : Option Envelope) : Option Str :=
  json.bind (fun value =>
    let gmail := match value.gmailMsgId with
      | some (.number n) => some (Nat.toDigits 10 n)
      | some (.text s) => (some (trim s)).filter (fun s => s ≠ [])
      | _ => none
    match gmail with
    | some id => some ("gmail:" ++ id)
    | none => ((value.messageId.map trim).filter (fun id => id ≠ [])).map
        (fun id => "message-id:" ++ lower id))

/-- The rows of the target folder by identity; of two with the same one the later. -/
def targetIds (db : Db) (account folder : Str) : List (Str × Int) :=
  (db.messages.filter (fun m => m.account = account ∧ m.folder = folder)).foldl
    (fun ids m =>
      match stableCachedMessageIdentity lower m.json with
      | some identity => Table.insertOrReplace Prod.fst ids (identity, m.id)
      | none => ids) []

/-- The judgment's row now names another message. -/
def renumber (db : Db) (account : Str) (source target : Int) : Db :=
  { db with
    judgments := db.judgments.map
      (fun j => if j.key = (account, source) then { j with messageId := target } else j) }

/-- What becomes of one moved message. -/
def preserveOne (account sourceFolder : Str) (ids : List (Str × Int)) (x : Nat × Db) (uid : Nat) :
    Nat × Db :=
  let (transferred, db) := x
  match db.messages.find? (fun m => m.account = account ∧ m.folder = sourceFolder ∧ m.uid = uid) with
  | none => x
  | some source =>
    match (stableCachedMessageIdentity lower source.json).bind (Table.lookup Prod.fst ids) with
    | none => x
    | some (_, target) =>
      if target = source.id then x
      else if (spamJudgmentState db account source.id).isNone then x
      else
        let db := match spamJudgmentState db account target with
          | some state => dropJudgment (learn lower isAlphanumeric db account state (-1)) account target
          | none => db
        (transferred + 1, renumber db account source.id target)

def preserveSpamJudgmentsForMove (db : Db) (account sourceFolder targetFolder : Str)
    (uids : List Nat) : Nat × Db :=
  if sourceFolder = targetFolder ∨ uids = [] then (0, db)
  else
    uids.foldl (preserveOne lower isAlphanumeric account sourceFolder (targetIds lower db account targetFolder))
      (0, db)

end Learning

/-! ## Steps -/

inductive Act where
  | record (account folder threadKey : Str) (isSpam : Bool)
  | revert (change : SpamJudgmentChange)
  | preserve (account sourceFolder targetFolder : Str) (uids : List Nat)
  | sync (messages : List MessageRow)

/-- Every message is still cached, though it may have changed in anything but its row and account. -/
def StaysCached (messages messages' : List MessageRow) : Prop :=
  ∀ m ∈ messages, ∃ m' ∈ messages', m'.id = m.id ∧ m'.account = m.account

instance (messages messages' : List MessageRow) : Decidable (StaysCached messages messages') := by
  unfold StaysCached
  infer_instance

def step (lower : Str → Str) (isAlphanumeric : Char → Bool) (db : Db) : Act → Option Db
  | .record account folder threadKey isSpam =>
    some (recordSpamJudgmentChange lower isAlphanumeric db account folder threadKey isSpam).2
  | .revert change => some (revertSpamJudgment lower isAlphanumeric db change).2
  | .preserve account sourceFolder targetFolder uids =>
    some (preserveSpamJudgmentsForMove lower isAlphanumeric db account sourceFolder targetFolder uids).2
  | .sync messages => if StaysCached db.messages messages then some { db with messages } else none

/-- Empty tables. -/
def emptyTables (messages : List MessageRow) : Db where
  messages
  judgments := []
  senders := []
  triggers := []

end Oreneta.Spam

import Oreneta.Lib.Table
import Oreneta.Lib.Text
import Mathlib.Data.List.Sort

/-!
# Delivery and read reports, kept per sent message

The second half of `receipts/report.rs`, over the tables it reads and writes: `upsert`, `record`,
`link_pending` and `outcomes`.  `lowercase` is `str::to_lowercase`, of which nothing is asked.

A row of either table is a `Row`; `delivery_reports_pending` has one column more, `received_at`, which
`upsert` writes only when it inserts.
-/

namespace Oreneta.Receipts

/-! ## The data -/

inductive Kind where
  | delivery
  | disposition
  deriving DecidableEq, Repr

def Kind.asStr : Kind → Str
  | .delivery => "delivery"
  | .disposition => "disposition"

inductive Outcome where
  | delivered
  | relayed
  | delayed
  | failed
  | displayed
  | notDisplayed
  deriving DecidableEq, Repr

structure RecipientReport where
  recipient : Str
  outcome : Outcome
  status : Str
  diagnostic : Str
  deriving DecidableEq, Repr

structure Report where
  kind : Kind
  originalMessageId : Str
  recipients : List RecipientReport
  deriving DecidableEq, Repr

/-- What is told about one recipient: what `outcomes` answers with. -/
structure Stored where
  kind : Kind
  recipient : Str
  outcome : Outcome
  status : Str
  diagnostic : Str
  reportedAt : Int
  deriving DecidableEq, Repr

/-- A row of `delivery_reports`, or, with `received_at`, of `delivery_reports_pending`. -/
structure Row (χ : Type) where
  account : Str
  original : Str
  stored : Stored
  receivedAt : χ
  deriving DecidableEq, Repr

/-- A cached message, as far as `known_message` reads it. -/
structure MessageRow where
  account : Str
  messageId : Option Str
  deriving DecidableEq, Repr

/-- A row of `outgoing_attempts`, as far as `known_message` reads it. -/
structure AttemptRow where
  account : Str
  messageId : Str
  deriving DecidableEq, Repr

structure Store where
  reports : List (Row Unit)
  pending : List (Row Int)
  messages : List MessageRow
  attempts : List AttemptRow
  deriving DecidableEq, Repr

/-! ## Tables -/

section Rows

variable {χ : Type}

namespace Row

/-- The primary key. -/
def key (r : Row χ) : Str × Str × Kind × Str := (r.account, r.original, r.stored.kind, r.stored.recipient)

/-- Whether `r` replaces what is held (the `WHERE` of the `DO UPDATE`). -/
def replaces (r held : Row χ) : Bool :=
  held.stored.outcome = .delayed ∧ r.stored.outcome ≠ .delayed ∨
    (held.stored.outcome = .delayed ↔ r.stored.outcome = .delayed) ∧
      held.stored.reportedAt ≤ r.stored.reportedAt

/-- The columns `DO UPDATE SET` writes. -/
def set (held r : Row χ) : Row χ :=
  { held with
    stored := { r.stored with kind := held.stored.kind, recipient := held.stored.recipient } }

end Row

/-- One recipient's word into a table. -/
def upsert (t : List (Row χ)) (r : Row χ) : List (Row χ) :=
  if (Table.lookup Row.key t r.key).isSome then
    Table.update (fun held => held.key = r.key ∧ r.replaces held) (fun held => held.set r) t
  else t ++ [r]

end Rows

/-! ## Recording and reading -/

def PENDING_MAX_AGE : Int := 90 * 24 * 3600

def PENDING_MAX_ROWS : Nat := 1000

/-- `super::key`. -/
def key (lowercase : Str → Str) (messageId : Str) : Str :=
  lowercase (Text.trim (((Text.trim messageId).dropWhile (· = '<')).rdropWhile (· = '>')))

/-- SQLite's `trim(x, chars)`. -/
def sqlTrim (chars : List Char) (s : Str) : Str := (s.dropWhile (· ∈ chars)).rdropWhile (· ∈ chars)

def knownMessage (s : Store) (account original : Str) : Bool :=
  s.messages.any (fun m => m.account = account ∧ Text.asciiLower (m.messageId.getD []) = original) ||
    s.attempts.any (fun a => a.account = account ∧
      Text.asciiLower (sqlTrim ['<', '>'] (sqlTrim [' '] a.messageId)) = original)

def storedOf (report : Report) (reportedAt : Int) (item : RecipientReport) : Stored :=
  { kind := report.kind, recipient := item.recipient, outcome := item.outcome
    status := item.status, diagnostic := item.diagnostic, reportedAt }

/-- The pending rows of an account beyond the newest `PENDING_MAX_ROWS`, by their `rowid`. -/
def surplus (pending : List (Row Int)) (account : Str) : List Nat :=
  let mine := pending.zipIdx.filter (fun p => p.1.account = account)
  let newest := mine.insertionSort (fun p q => q.1.receivedAt < p.1.receivedAt ∨
    p.1.receivedAt = q.1.receivedAt ∧ q.2 ≤ p.2)
  (newest.drop PENDING_MAX_ROWS).map Prod.snd

/-- What is left when an account's rows that are too old are deleted. -/
def young (pending : List (Row Int)) (account : Str) (now : Int) : List (Row Int) :=
  pending.filter (fun r => !(decide (r.account = account) && decide (r.receivedAt < now - PENDING_MAX_AGE)))

/-- Too old, then too many (the oldest first). -/
def prune (pending : List (Row Int)) (account : Str) (now : Int) : List (Row Int) :=
  ((young pending account now).zipIdx.filter
    (fun p => p.2 ∉ surplus (young pending account now) account)).map Prod.fst

/-- What `record` puts into the pending table. -/
def recordPending (pending : List (Row Int)) (account original : Str) (report : Report)
    (reportedAt now : Int) : List (Row Int) :=
  report.recipients.foldl (fun t item =>
    upsert t { account, original, stored := storedOf report reportedAt item, receivedAt := now }) pending

/-- What `record` puts into the table of linked reports. -/
def recordLinked (reports : List (Row Unit)) (account original : Str) (report : Report)
    (reportedAt : Int) : List (Row Unit) :=
  report.recipients.foldl (fun t item =>
    upsert t { account, original, stored := storedOf report reportedAt item, receivedAt := () }) reports

/-- Keeps what a report says, for the account that received it. -/
def record (lowercase : Str → Str) (s : Store) (account : Str) (report : Report)
    (reportedAt now : Int) : Store × Bool :=
  let original := key lowercase report.originalMessageId
  if original = [] then (s, false)
  else if knownMessage s account original then
    ({ s with reports := recordLinked s.reports account original report reportedAt }, true)
  else
    ({ s with pending := prune (recordPending s.pending account original report reportedAt now) account now },
      false)

/-- Links the reports waiting for a message once the account has it. -/
def linkPending (s : Store) (account original : Str) : Store :=
  let waiting := s.pending.filter (fun r => r.account = account ∧ r.original = original)
  if waiting.isEmpty || !knownMessage s account original then s
  else
    { s with
      reports := waiting.foldl (fun t r =>
        upsert t { account, original, stored := r.stored, receivedAt := () }) s.reports
      pending := s.pending.filter (fun r => ¬ (r.account = account ∧ r.original = original)) }

/-- `ORDER BY kind, recipient`. -/
def Stored.before (a b : Stored) : Prop :=
  a.kind.asStr < b.kind.asStr ∨ a.kind.asStr = b.kind.asStr ∧ a.recipient ≤ b.recipient

instance : DecidableRel Stored.before := fun a b => by
  unfold Stored.before
  infer_instance

/-- What the reports received so far say about one message. -/
def outcomes (lowercase : Str → Str) (s : Store) (account messageId : Str) : Store × List Stored :=
  let original := key lowercase messageId
  if original = [] then (s, [])
  else
    let s := linkPending s account original
    (s, ((s.reports.filter (fun r => r.account = account ∧ r.original = original)).map Row.stored).insertionSort
      Stored.before)

end Oreneta.Receipts

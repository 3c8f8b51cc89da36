import Oreneta.Lib.Base64
import Oreneta.Lib.Trim
import Oreneta.Lib.Utf8

/-!
# What Microsoft Graph delivers of a folder

`graph/mod.rs` and the pure half of `graph/mail.rs`: pages of messages, checkpoints, and the copies of messages
that are kept.

* `Fields` — `MessageFields`; a field that is absent or null is `none`, and so the JSON object without nulls that
  `fields_json` makes of it is the value itself, and writing it to a column and reading it back changes nothing.
* `mergeFields`, `metadataComplete`, `header`, `parsedBody`, `unpack` — as in the source.

Of an error only its kind is kept.  The routes and links of the client, the reading of dates and the rendering
of HTML are parameters (`Client`).
-/

namespace Oreneta.Graph

open Text

inductive ErrorKind where
  | invalidInput | reauthenticate | consentRequired | accessDenied | notFound | conflict | throttled
  | resyncRequired | unavailable | invalidResponse | transport | storage | cancelled | accountConflict
  | uncertain | tooLarge | appProxyUnusable | accountProxyUnusable
  deriving DecidableEq, Repr

abbrev Fallible (α : Type) := Except ErrorKind α

def ensure (p : Prop) [Decidable p] (kind : ErrorKind) : Fallible Unit := if p then .ok () else .error kind

def require {α : Type} (o : Option α) (kind : ErrorKind) : Fallible α :=
  match o with
  | some a => .ok a
  | none => .error kind

/-! ## Names -/

inductive ResourceKind where
  | folder | message
  deriving DecidableEq, Repr

structure ResourceId where
  account : Str
  kind : ResourceKind
  opaqueId : Str
  deriving DecidableEq, Repr

/-- `char::is_control`. -/
def isControl (c : Char) : Bool := c.toNat < 0x20 || (0x7F ≤ c.toNat && c.toNat < 0xA0)

def validId (s : Str) : Bool :=
  !(trim s).isEmpty && decide (byteLength s ≤ 2048) && s != "." && s != ".." && !s.any isControl

def ResourceId.new (account : Str) (kind : ResourceKind) (opaqueId : Str) : Fallible ResourceId :=
  if !validId account || !validId opaqueId then .error .invalidInput else .ok ⟨account, kind, opaqueId⟩

def checkedId (id : ResourceId) (account : Str) (kind : ResourceKind) : Fallible Unit :=
  ensure (id.account = account ∧ id.kind = kind) .invalidResponse

/-! ## Messages -/

structure EmailAddress where
  name : Option Str
  address : Option Str
  deriving DecidableEq, Repr

structure Body where
  contentType : Str
  content : Str
  deriving DecidableEq, Repr

structure ExtendedProperty where
  id : Str
  value : Str
  deriving DecidableEq, Repr

/-- A recipient is its address, a flag its status and a removal its reason. -/
structure Fields where
  etag : Option Str
  removed : Option Str
  parentFolderId : Option Str
  conversationId : Option Str
  internetMessageId : Option Str
  subject : Option Str
  receivedDateTime : Option Str
  isRead : Option Bool
  isDraft : Option Bool
  hasAttachments : Option Bool
  sender : Option EmailAddress
  toRecipients : Option (List EmailAddress)
  ccRecipients : Option (List EmailAddress)
  body : Option Body
  flag : Option Str
  singleValueExtendedProperties : Option (List ExtendedProperty)
  deriving DecidableEq, Repr

/-- `json!({})` -/
def Fields.empty : Fields :=
  ⟨none, none, none, none, none, none, none, none, none, none, none, none, none, none, none, none⟩

structure Message where
  id : ResourceId
  fields : Fields
  deriving DecidableEq, Repr

inductive CheckpointKind where
  | nextPage | delta
  deriving DecidableEq, Repr

structure Checkpoint where
  account : Str
  collection : Str
  url : Str
  kind : CheckpointKind
  deriving DecidableEq, Repr

structure Page where
  items : List Message
  checkpoint : Option Checkpoint
  deriving DecidableEq, Repr

/-- The fields of the patch over those of the copy there is; a body does not outlive the version it is of. -/
def mergeFields (previous : Option Fields) (patch : Fields) : Fields :=
  let target := previous.getD .empty
  let body := if patch.etag.isSome && patch.etag != target.etag then none else target.body
  { etag := patch.etag.or target.etag
    removed := patch.removed.or target.removed
    parentFolderId := patch.parentFolderId.or target.parentFolderId
    conversationId := patch.conversationId.or target.conversationId
    internetMessageId := patch.internetMessageId.or target.internetMessageId
    subject := patch.subject.or target.subject
    receivedDateTime := patch.receivedDateTime.or target.receivedDateTime
    isRead := patch.isRead.or target.isRead
    isDraft := patch.isDraft.or target.isDraft
    hasAttachments := patch.hasAttachments.or target.hasAttachments
    sender := patch.sender.or target.sender
    toRecipients := patch.toRecipients.or target.toRecipients
    ccRecipients := patch.ccRecipients.or target.ccRecipients
    body := patch.body.or body
    flag := patch.flag.or target.flag
    singleValueExtendedProperties := patch.singleValueExtendedProperties.or target.singleValueExtendedProperties }

def metadataComplete (value : Fields) : Bool :=
  value.conversationId.isSome && value.subject.isSome && value.receivedDateTime.isSome &&
    value.parentFolderId.isSome && value.isRead.isSome && value.toRecipients.isSome && value.ccRecipients.isSome &&
    value.hasAttachments.isSome

/-! ## Headers -/

/-- What is used of the client, of `chrono` and of the renderer of HTML. -/
structure Client where
  /-- The path of `route(["me", "mailFolders", folder, "messages", "delta"])`. -/
  collection : Str → Str
  /-- `validate_link` -/
  validLink : Str → Str → Bool
  parseRfc3339 : Str → Option Int
  renderBody : Str → Str

structure Recipient where
  name : Str
  addr : Str
  deriving DecidableEq, Repr

structure Header where
  uid : Nat
  subject : Str
  fromName : Str
  fromAddr : Str
  date : Int
  seen : Bool
  starred : Bool
  threadKey : Str
  messageId : Str
  hasAttachments : Option Bool
  toList : List Recipient
  ccList : List Recipient
  deriving DecidableEq, Repr

def recipients (value : List EmailAddress) : List Recipient :=
  value.map (fun r => ⟨r.name.getD [], r.address.getD []⟩)

def starredOf (flag : Option Str) : Fallible Bool :=
  if flag = some "flagged".toList then .ok true
  else if flag = some "notFlagged".toList ∨ flag = some "complete".toList ∨ flag = none then .ok false
  else .error .invalidResponse

def header (C : Client) (fields : Fields) (uid : Nat) : Fallible Header := do
  let conversation ← require (fields.conversationId.filter (fun v => !v.isEmpty)) .invalidResponse
  let date ← require (C.parseRfc3339 (fields.receivedDateTime.getD [])) .invalidResponse
  let sender := fields.sender.getD ⟨none, none⟩
  let starred ← starredOf fields.flag
  let seen ← require fields.isRead .invalidResponse
  return {
    uid := uid
    subject := fields.subject.getD []
    fromName := sender.name.getD []
    fromAddr := sender.address.getD []
    date := date
    seen := seen
    starred := starred
    threadKey := "graph:" ++ Base64.encode Base64.urlSafe (Utf8.encode conversation)
    messageId := trimBy (fun c => c = '<' || c = '>') (fields.internetMessageId.getD [])
    hasAttachments := fields.hasAttachments
    toList := recipients (fields.toRecipients.getD [])
    ccList := recipients (fields.ccRecipients.getD []) }

/-- What `parsed_body` makes of a body: its text, its HTML, and the header of its message. -/
structure Parsed where
  header : Header
  body : Str
  bodyHtml : Option Str
  deriving DecidableEq, Repr

def parsedBody (C : Client) (fields : Fields) (uid : Nat) : Fallible Parsed := do
  let h ← header C fields uid
  let body ← require fields.body .invalidResponse
  if asciiLower body.contentType = "html" then return ⟨h, C.renderBody body.content, some body.content⟩
  else if asciiLower body.contentType = "text" then return ⟨h, body.content, none⟩
  else .error .invalidResponse

/-! ## Checkpoints -/

/-- A checkpoint that was packed is only taken back for its account and folder. -/
def unpack (C : Client) (blob : Checkpoint) (account folder : Str) : Fallible Checkpoint := do
  ensure (validId account = true) .invalidInput
  ensure (blob.account = account ∧ blob.collection = C.collection folder) .invalidResponse
  ensure (C.validLink blob.url (C.collection folder) = true) .invalidResponse
  return blob

section Except

variable {α β : Type} {kind : ErrorKind}

theorem bind_ok {x : Fallible α} {f : α → Fallible β} {b : β} : (x >>= f) = .ok b ↔ ∃ a, x = .ok a ∧ f a = .ok b := by
  cases x with
  | error e => exact ⟨fun h => (by cases h), fun ⟨_, ha, _⟩ => (by cases ha)⟩
  | ok a => exact ⟨fun h => ⟨a, rfl, h⟩, fun ⟨_, ha, h⟩ => (by cases ha; exact h)⟩

theorem require_ok {o : Option α} {a : α} : require o kind = .ok a ↔ o = some a := by
  unfold require
  cases o with
  | none => exact ⟨fun h => (by cases h), fun h => (by cases h)⟩
  | some b => exact ⟨fun h => (by cases h; rfl), fun h => (by cases h; rfl)⟩

end Except

/-- A header carries the number it was made for. -/
theorem header_uid {C : Client} {fields : Fields} {uid : Nat} {h : Header} (hh : header C fields uid = .ok h) : h.uid = uid := by
  unfold header at hh
  obtain ⟨conversation, -, hh⟩ := bind_ok.mp hh
  obtain ⟨date, -, hh⟩ := bind_ok.mp hh
  obtain ⟨starred, -, hh⟩ := bind_ok.mp hh
  obtain ⟨seen, -, hh⟩ := bind_ok.mp hh
  cases hh
  rfl

end Oreneta.Graph

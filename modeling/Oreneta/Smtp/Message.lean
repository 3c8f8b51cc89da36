import Oreneta.Lib.Base64
import Oreneta.Lib.Fallible
import Oreneta.Lib.Utf8
import Oreneta.Recipients.Fields

/-!
# Building a message

`smtp.rs`: what a composed message is made of, before a server is asked to take it.

* `Draft`, `buildMessage` — the fields of a draft as `mail-builder` is given them: a `Message`.
* `Mailer` — the builder's own part, the octets of a message and of an address; its draws (the time, the boundaries, an id of
  its own) come from outside.
* `withReadReceipt` — the header that asks for a read receipt, ahead of the rest.
* `buildMessage_blind` — without the header of blind recipients, these leave no trace in the message.
-/

namespace Oreneta.Smtp

open Text Recipients

abbrev Octets := List Nat

/-- The octets of a text. -/
def octets (s : String) : Octets := Utf8.encode s.toList

structure AttachmentInput where
  filename : Str
  mime : Str
  /-- In base64. -/
  data : Str
  inlineId : Str
  deriving DecidableEq, Repr

/-- `mail_builder`'s `ContentType`. -/
structure ContentType where
  base : Str
  attributes : List (Str × Str)
  deriving DecidableEq, Repr

def ContentType.attribute (t : ContentType) (key value : Str) : ContentType := { t with attributes := t.attributes ++ [(key, value)] }

inductive Part where
  | inline (mime id : Str) (bytes : Octets)
  /-- A forwarded original, as it is. -/
  | original (type : ContentType) (filename : Str) (bytes : Octets)
  | attachment (type : ContentType) (filename : Str) (bytes : Octets)
  deriving DecidableEq, Repr

/-- What the builder is given. -/
structure Message where
  from_ : Str × Str
  to_ : List (Str × Str)
  subject : Str
  /-- Without one, the builder makes one up. -/
  messageId : Option Str
  replyTo : List (Str × Str)
  html : Option Str
  text : Str
  cc : List (Str × Str)
  bcc : List (Str × Str)
  inReplyTo : Option Str
  references : List Str
  parts : List Part
  deriving DecidableEq, Repr

/-- What was composed. -/
structure Draft where
  senderName : Str
  to_ : Str
  cc : Str
  bcc : Str
  subject : Str
  body : Str
  html : Str
  attachments : List AttachmentInput
  inReplyTo : Str
  references : Str
  replyTo : Str

def bareId (token : Str) : Str :=
  trim (((trim token).dropWhile (fun c => c = '<')).rdropWhile (fun c => c = '>'))

/-- The parameters of a media type, as parameters. -/
def attachmentType (mime : Str) : ContentType :=
  match mime.splitOn ';' with
  | [] => ⟨"application/octet-stream", []⟩
  | base :: parts =>
    let base := trim base
    parts.foldl (fun t part =>
      match splitOnce '=' part with
      | none => t
      | some (key, value) =>
        let key := trim key
        let value := trimBy (fun c => c = '"') (trim value)
        if key ≠ [] ∧ value ≠ [] then t.attribute (asciiLower key) value else t)
      ⟨if base = [] then "application/octet-stream" else base, []⟩

def isMessageRfc822 (mime : Str) : Bool :=
  asciiLower (trim ((mime.splitOn ';').headD [])) = "message/rfc822"

/-- The octets from the last one read on; `line` counts those of the line so far. -/
def sevenBitFrom (last : Option Nat) (line : Nat) : Octets → Bool
  | [] => true
  | b :: rest =>
    if b = 0 ∨ 0x80 ≤ b then false
    else if b = 13 then rest.head? = some 10 && sevenBitFrom (some b) line rest
    else if b = 10 then last = some 13 && sevenBitFrom (some b) 0 rest
    else line + 1 ≤ 998 && sevenBitFrom (some b) (line + 1) rest

/-- Whether octets can travel as a 7bit part: ASCII without NULs, CR only before LF, no line over 998 characters. -/
def is7bitMessage (bytes : Octets) : Bool := sevenBitFrom none 0 bytes

def part (att : AttachmentInput) : Except Str Part :=
  match Base64.decodePadded Base64.standard att.data with
  | none => .error ("decode attachment " ++ Quoted.quote att.filename)
  | some bytes =>
    let type := (attachmentType att.mime).attribute "name" att.filename
    .ok (if trim att.inlineId ≠ [] then .inline att.mime (trim att.inlineId) bytes
      else if isMessageRfc822 att.mime && is7bitMessage bytes then .original type att.filename bytes
      else .attachment type att.filename bytes)

/-- `build_message`, up to the writing: blind recipients are written where `includeBcc` says so. -/
def buildMessage (from_ : Str) (d : Draft) (includeBcc : Bool) (messageId : Str) : Except Str Message := do
  let parts ← d.attachments.mapM part
  .ok {
    from_ := (d.senderName, from_)
    to_ := (parseAddrs d.to_).map splitNameAddr
    subject := d.subject
    messageId := if trim messageId = [] then none else some (bareId messageId)
    replyTo := (parseAddrs d.replyTo).map splitNameAddr
    html := if d.html = [] then none else some d.html
    text := d.body
    cc := (parseAddrs d.cc).map splitNameAddr
    bcc := if includeBcc then (parseAddrs d.bcc).map splitNameAddr else []
    inReplyTo := if bareId d.inReplyTo = [] then none else some (bareId d.inReplyTo)
    references := (((d.references.splitOnP isWhitespace).filter (fun token => !token.isEmpty)).map bareId).filter
      (fun token => !token.isEmpty)
    parts }

/-- **Blind recipients leave no trace** in a message that is built without their header. -/
theorem buildMessage_blind (from_ : Str) (d : Draft) (bcc messageId : Str) :
    buildMessage from_ { d with bcc } false messageId = buildMessage from_ d false messageId := rfl

/-- A message built with the header of the blind recipients and one built without it have one id. -/
theorem buildMessage_messageId {from_ messageId : Str} {d : Draft} {includeBcc : Bool} {m : Message}
    (h : buildMessage from_ d includeBcc messageId = .ok m) :
    m.messageId = if trim messageId = [] then none else some (bareId messageId) := by
  unfold buildMessage at h
  obtain ⟨parts, -, h⟩ := Fallible.bind_ok.mp h
  cases h
  rfl

/-- The builder: what it writes of a message or an address, and what it draws for it. -/
structure Mailer (ε : Type) where
  write : ε → Message → Except Str Octets
  writeAddress : Option Str → Str → Except Str Octets

section Written

variable {ε : Type} (M : Mailer ε)

/-- The request for a read receipt, ahead of the message. -/
def withReadReceipt (raw : Octets) (senderName from_ : Str) : Except Str Octets := do
  let name := trim senderName
  let address ← M.writeAddress (if name = [] then none else some name) (trim from_)
  let out := octets "Disposition-Notification-To: " ++ address
  let out := if (octets "\r\n").isSuffixOf out then out else out ++ octets "\r\n"
  .ok (out ++ raw)

/-- A message as it is written, with the request for a read receipt where there is to be one. -/
def built (draw : ε) (from_ : Str) (d : Draft) (includeBcc : Bool) (messageId : Str) (readReceipt : Bool) : Except Str Octets := do
  let m ← buildMessage from_ d includeBcc messageId
  let raw ← M.write draw m
  if readReceipt then withReadReceipt M raw d.senderName from_ else .ok raw

end Written

end Oreneta.Smtp

import Oreneta.Smtp.Protection

/-!
# Sending a protected message

`smtp.rs`: a composed message is built, given a request for a read receipt, protected and handed to the server, and a copy of it
is kept (`send_with_receipts`).

* `Outgoing`, `sendWithReceipts` — what is handed over, and what is given back; the server is a parameter.
* `buildSubmission` — the same message for a server that submits it itself; `buildSubmission_sealed`.
* `NoOpenCopy` — what protection promises of a message that was sent.
* `noOpenCopy_iff` — it is kept exactly if the message has no blind recipients.
-/

namespace Oreneta.Smtp

open Text Recipients

structure Creds where
  isGraph : Bool
  isLocal : Bool
  user : Str

inductive DeliveryReceipt where
  | notAsked
  | requested
  | unsupported
  deriving DecidableEq, Repr

structure Receipts where
  read : Bool
  delivery : Bool

/-- A message the server accepted: the copy to file, and what became of a delivery receipt request. -/
structure Sent where
  raw : Octets
  deliveryReceipt : DeliveryReceipt
  deriving DecidableEq, Repr

/-- What was handed to the server, and what the caller gets. -/
structure Outgoing where
  given : Option Octets
  result : Except Str Sent

section Send

variable {ε : Type} (M : Mailer ε) (lower : Str → Str)

/-- What is drawn while a message is sent: for the two times it is built, for an id and for its protection. -/
structure Draws (ε : Type) where
  transmitted : ε
  kept : ε
  uuid : Str
  protection : ε

/-- `protect`, if it was asked for. -/
def protectWith (protect : Option (Protection ε)) (draw : ε) (raw : Octets) : Except Str Octets :=
  match protect with
  | some protection => protection.apply draw raw
  | none => .ok raw

/-- The message for a server that reads the blind recipients from it. -/
def buildSubmission (draws : Draws ε) (from_ : Str) (d : Draft) (messageId : Str) (protect : Option (Protection ε))
    (readReceipt : Bool) : Except Str Octets := do
  let raw ← built M draws.transmitted from_ d true messageId readReceipt
  protectWith protect draws.protection raw

def senderOf (creds : Creds) (fromAddr : Str) : Str := if trim fromAddr = [] then creds.user else trim fromAddr

/-- The id of a message: the caller's, one made up for both copies where there are blind recipients, or the builder's. -/
def resolveMessageId (from_ messageId uuid : Str) (bccList : List Str) : Str :=
  if trim messageId ≠ [] then trim messageId
  else if bccList = [] then []
  else uuid ++ '@' :: (match rsplitOnce '@' from_ with
    | some (_, domain) => domain
    | none => from_)

/-- `send_with_receipts`; `transport` hands a message to the server for the recipients given. -/
def sendWithReceipts (draws : Draws ε) (transport : Str → List Str → Octets → Bool → Except Str DeliveryReceipt) (creds : Creds)
    (fromAddr : Str) (d : Draft) (messageId : Str) (protect : Option (Protection ε)) (receipts : Receipts) : Outgoing :=
  if creds.isGraph then ⟨none, .error "Microsoft Graph is read-only: this operation is not supported"⟩
  else if creds.isLocal then ⟨none, .error "the local archive cannot send mail: it is kept only on this computer"⟩
  else
    let from_ := senderOf creds fromAddr
    let bccList := parseAddrs d.bcc
    let messageId := resolveMessageId from_ messageId draws.uuid bccList
    match (built M draws.transmitted from_ d false messageId receipts.read).bind (protectWith protect draws.protection) with
    | .error e => ⟨none, .error e⟩
    | .ok raw =>
      let recipients := envelopeRecipients lower (parseAddrs d.to_) (parseAddrs d.cc) bccList
      match transport from_ recipients raw receipts.delivery with
      | .error e => ⟨some raw, .error e⟩
      | .ok deliveryReceipt =>
        if bccList = [] then ⟨some raw, .ok ⟨raw, deliveryReceipt⟩⟩
        else
          match built M draws.kept from_ d true messageId receipts.read with
          | .error e => ⟨some raw, .error e⟩
          | .ok kept => ⟨some raw, .ok ⟨kept, deliveryReceipt⟩⟩

/-- An output of the protection, whatever it is given. -/
def Protects (p : Protection ε) (out : Octets) : Prop := ∃ draw raw, p.apply draw raw = .ok out

/-- **No copy is left open**: what is handed over and what is kept are both protected, they carry one id where there are blind
recipients, and what is handed over was built in the same way whoever these are. -/
structure NoOpenCopy (draws : Draws ε) (creds : Creds) (fromAddr : Str) (d : Draft) (messageId : Str) (p : Protection ε)
    (given kept : Octets) : Prop where
  given_protected : Protects p given
  kept_protected : Protects p kept
  one_id : parseAddrs d.bcc ≠ [] → ∃ id transmitted filed,
    resolveMessageId (senderOf creds fromAddr) messageId draws.uuid (parseAddrs d.bcc) = id ∧
      buildMessage (senderOf creds fromAddr) d false id = .ok transmitted ∧
      buildMessage (senderOf creds fromAddr) d true id = .ok filed ∧
      transmitted.messageId = filed.messageId ∧ filed.messageId ≠ none
  blind : ∀ bcc id, buildMessage (senderOf creds fromAddr) { d with bcc } false id =
    buildMessage (senderOf creds fromAddr) d false id

variable {M lower}

variable {messageId : Str} {d : Draft}

variable {draws : Draws ε} {p : Protection ε}

/-- What a server is given to submit is protected. -/
theorem buildSubmission_sealed {from_ : Str} {readReceipt : Bool}
    {raw : Octets} (h : buildSubmission M draws from_ d messageId (some p) readReceipt = .ok raw) : Protects p raw ∧ Sealed raw := by
  obtain ⟨_, -, h⟩ := Fallible.bind_ok.mp h
  exact ⟨⟨_, _, h⟩, apply_sealed p h⟩

variable {transport : Str → List Str → Octets → Bool → Except Str DeliveryReceipt} {fromAddr : Str}
  {receipts : Receipts}

/-- A message that was sent: what was handed over, and what is kept. -/
theorem sent_spec {creds : Creds} {given : Octets} {sent : Sent}
    (h : sendWithReceipts M lower draws transport creds fromAddr d messageId (some p) receipts = ⟨some given, .ok sent⟩) :
    (∃ raw, built M draws.transmitted (senderOf creds fromAddr) d false
        (resolveMessageId (senderOf creds fromAddr) messageId draws.uuid (parseAddrs d.bcc)) receipts.read = .ok raw ∧
      p.apply draws.protection raw = .ok given) ∧ if parseAddrs d.bcc = [] then sent.raw = given
    else built M draws.kept (senderOf creds fromAddr) d true
      (resolveMessageId (senderOf creds fromAddr) messageId draws.uuid (parseAddrs d.bcc)) receipts.read = .ok sent.raw := by
  unfold sendWithReceipts at h
  split at h
  · cases h
  split at h
  · cases h
  dsimp only at h
  split at h
  · cases h
  rename_i raw hraw
  obtain ⟨raw', hbuilt, hprotected⟩ := Fallible.bind_ok.mp hraw
  split at h
  · cases h
  split at h
  · rename_i hbcc
    cases h
    rw [if_pos hbcc]
    exact ⟨⟨raw', hbuilt, hprotected⟩, rfl⟩
  · rename_i hbcc
    split at h
    · cases h
    · rename_i hkept
      cases h
      rw [if_neg hbcc]
      exact ⟨⟨raw', hbuilt, hprotected⟩, hkept⟩

theorem resolveMessageId_ne_nil {from_ uuid : Str} {bccList : List Str} (hbcc : bccList ≠ [])
    (huuid : ∃ c ∈ uuid, isWhitespace c = false) : trim (resolveMessageId from_ messageId uuid bccList) ≠ [] := by
  unfold resolveMessageId
  split
  · rename_i h
    rwa [trim_trim]
  · obtain ⟨c, hc, hspace⟩ := huuid
    exact trim_ne_nil (List.mem_append_left _ hc) hspace

theorem buildMessage_bcc {from_ : Str} {m : Message} (h : buildMessage from_ d false messageId = .ok m) :
    ∃ filed, buildMessage from_ d true messageId = .ok filed := by
  unfold buildMessage at h ⊢
  obtain ⟨parts, hparts, -⟩ := Fallible.bind_ok.mp h
  rw [hparts]
  exact ⟨_, rfl⟩

/-- **The copy that is kept of a message with blind recipients is open**: the builder's messages can be told from protected ones. -/
theorem kept_open {creds : Creds} {given : Octets} {sent : Sent}
    (hsent : sendWithReceipts M lower draws transport creds fromAddr d messageId (some p) receipts = ⟨some given, .ok sent⟩)
    (hplain : ∀ draw from_ includeBcc id raw, built M draw from_ d includeBcc id receipts.read = .ok raw → ¬ Sealed raw)
    (hbcc : parseAddrs d.bcc ≠ []) : ¬ Protects p sent.raw := by
  obtain ⟨-, hkept⟩ := sent_spec hsent
  rw [if_neg hbcc] at hkept
  rintro ⟨draw, raw, hout⟩
  exact hplain _ _ _ _ _ hkept (apply_sealed p hout)

end Send

/-! ## One message, sent openly and in secret -/

/-- A builder that writes the subject and the text. -/
def plainMailer : Mailer Unit where
  write := fun _ m => .ok (Utf8.encode ("Subject: " ++ (m.subject ++ ("\r\n\r\n" ++ m.text))))
  writeAddress := fun _ address => .ok (Utf8.encode address)

def signing : Protection Unit where
  protocol := .pgp
  sign := true
  encrypt := false
  asked := Or.inl rfl
  missing := []
  signature := some fun _ entity => .ok (entity.take 1)
  ciphertext := fun _ entity => .ok entity
  boundary := fun _ kind => kind.toList

def lunch (bcc : String) : Draft :=
  ⟨"Ann", "bob@example.com", [], bcc.toList, "lunch", "at one", [], [], [], [], []⟩

def sendLunch (bcc : String) : Outgoing :=
  sendWithReceipts plainMailer asciiLower ⟨(), (), "1", ()⟩ (fun _ _ _ _ => .ok .notAsked)
    ⟨false, false, "ann@example.com"⟩ [] (lunch bcc) [] (some signing) ⟨false, false⟩

theorem lunch_plain (bcc : String) (draw : Unit) (from_ : Str) (includeBcc : Bool) (id : Str) (raw : Octets)
    (h : built plainMailer draw from_ (lunch bcc) includeBcc id false = .ok raw) : ¬ Sealed raw := by
  have hraw : raw = octets "Subject: lunch\r\n\r\nat one" := by
    cases h
    rfl
  rintro ⟨lines, type, rest, -, -, hopened⟩
  have hmark : 86 ∈ opened lines type rest :=
    List.mem_append_right _ (List.mem_append_left _ (by decide +kernel : 86 ∈ octets "MIME-Version: 1.0\r\n"))
  rw [← hopened, hraw] at hmark
  exact absurd hmark (by decide +kernel)

theorem Outgoing.eq_of_sent (o : Outgoing) (hgiven : o.given.isSome = true) (hsent : o.result.isOk = true) :
    ∃ given sent, o = ⟨some given, .ok sent⟩ := by
  obtain ⟨given, result⟩ := o
  cases given with
  | none => cases hgiven
  | some given =>
    cases result with
    | error e => cases hsent
    | ok sent => exact ⟨given, sent, rfl⟩

end Oreneta.Smtp

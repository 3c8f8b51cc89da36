import Oreneta.Lib.Chunks
import Oreneta.Lib.Lines
import Oreneta.Smtp.Message

/-!
# Signing and encrypting a built message

`crypto/mime.rs` and the `protect_message` of `crypto/pgp.rs` and `crypto/smime.rs`: a built message is taken apart into the
headers that stay and the entity that is protected, and put together again around the protected entity.

* `splitForSigning` — the headers and the entity.
* `buildSigned`, `buildEncrypted`, `buildSmimeSigned`, `buildSmimeEnveloped` — what is put together.
* `Protection`, `Protection.apply` — what the sender asked for; signatures and ciphertexts are a parameter.
* `Sealed`, `apply_sealed` — what it gives can be told from its headers.
-/

namespace Oreneta.Smtp

open Text List

/-- Header fields that belong to the entity. -/
def ENTITY_HEADERS : List Str :=
  ["content-type", "content-transfer-encoding", "content-disposition", "content-id",
    "content-description"]

/-- `windows(..).position(..)`. -/
def positionOf (pattern : Octets) : Octets → Option Nat
  | [] => none
  | b :: rest => if pattern.isPrefixOf (b :: rest) then some 0 else (positionOf pattern rest).map (· + 1)

/-- Where the header block ends: behind the first empty line. -/
def headerEnd (raw : Octets) : Option Nat :=
  match positionOf (octets "\r\n\r\n") raw with
  | some index => some (index + 4)
  | none => (positionOf (octets "\n\n") raw).map (· + 2)

def isEntityHeader (line : Str) : Bool :=
  ENTITY_HEADERS.contains (asciiLower (trim ((line.splitOn ':').headD [])))

/-- `split_inclusive('\n')`; `line` is the line so far. -/
def splitInclusiveFrom (line : Str) : Str → List Str
  | [] => if line = [] then [] else [line]
  | c :: rest => if c = '\n' then (line ++ [c]) :: splitInclusiveFrom [] rest else splitInclusiveFrom (line ++ [c]) rest

def splitInclusive (s : Str) : List Str := splitInclusiveFrom [] s

structure SplitMessage where
  /-- The lines of the headers that stay. -/
  messageLines : List Str
  entity : Octets

/-- Whether a line belongs to the entity, and whether to a MIME-Version: a continuation does where its field does. -/
def lineKind (kind : Bool × Bool) (line : Str) : Bool × Bool :=
  if line.head? = some ' ' ∨ line.head? = some '\t' then kind
  else (isEntityHeader line, ("mime-version:".toList).isPrefixOf (asciiLower line))

/-- The lines of the message and those of the entity; `kind` is that of the line before. -/
def sortLines (kind : Bool × Bool) : List Str → List Str × List Str
  | [] => ([], [])
  | line :: lines =>
    if trim line = [] then sortLines kind lines
    else
      let kind := lineKind kind line
      let (messageLines, entityLines) := sortLines kind lines
      if kind.2 then (messageLines, entityLines)
      else if kind.1 then (messageLines, line :: entityLines)
      else (line :: messageLines, entityLines)

def splitForSigning (raw : Octets) : Option SplitMessage := do
  let end_ ← headerEnd raw
  let headers ← Utf8.decode (raw.take end_)
  let (messageLines, entityLines) := sortLines (false, false) (splitInclusive headers)
  some ⟨messageLines, Utf8.encode entityLines.flatten ++ (octets "\r\n" ++ raw.drop end_)⟩

/-- Base64, wrapped at 76 columns. -/
def base64Wrapped (data : Octets) : Octets :=
  let encoded := Base64.encode Base64.standard data
  Utf8.encode (join "\r\n" ((encoded ++ List.replicate ((4 - encoded.length % 4) % 4) '=').toChunks 76))

/-- What the four kinds of message start with: the headers, and the type they say. -/
def opened (messageLines : List Str) (type : String) (parameters : Octets) : Octets :=
  Utf8.encode messageLines.flatten ++ (octets "MIME-Version: 1.0\r\n" ++ (octets type ++ parameters))

section Wrappers

variable (boundary : Str) (messageLines : List Str)

def parted (entity : Octets) (header : String) (sealed : Octets) : Octets :=
  Utf8.encode ("--" ++ (boundary ++ "\r\n")) ++ (entity ++
    (Utf8.encode ("\r\n--" ++ (boundary ++ "\r\n")) ++ (octets header ++ (sealed ++
      Utf8.encode ("\r\n--" ++ (boundary ++ "--\r\n"))))))

def bounded : Octets := Utf8.encode (boundary ++ "\"\r\n\r\n")

def buildSigned (entity signature : Octets) (micalg : String) : Octets :=
  opened messageLines "Content-Type: multipart/signed;"
    (octets (" micalg=\"pgp-" ++ micalg ++ "\"; protocol=\"application/pgp-signature\"; boundary=\"") ++ (bounded boundary ++
      parted boundary entity ("Content-Type: application/pgp-signature; name=\"signature.asc\"\r\n" ++
        "Content-Description: OpenPGP digital signature\r\n\r\n") signature))

def buildEncrypted (ciphertext : Octets) : Octets :=
  opened messageLines "Content-Type: multipart/encrypted;"
    (octets " protocol=\"application/pgp-encrypted\"; boundary=\"" ++ (bounded boundary ++
      (Utf8.encode ("--" ++ (boundary ++ "\r\n")) ++
        (octets "Content-Type: application/pgp-encrypted\r\n\r\nVersion: 1\r\n" ++
          (Utf8.encode ("--" ++ (boundary ++ "\r\n")) ++
            (octets ("Content-Type: application/octet-stream; name=\"encrypted.asc\"\r\n" ++
              "Content-Description: OpenPGP encrypted message\r\n\r\n") ++
                (ciphertext ++ Utf8.encode ("\r\n--" ++ (boundary ++ "--\r\n")))))))))

def buildSmimeSigned (entity signature : Octets) : Octets :=
  opened messageLines "Content-Type: multipart/signed;"
    (octets " micalg=\"sha-256\"; protocol=\"application/pkcs7-signature\"; boundary=\"" ++ (bounded boundary ++
      parted boundary entity ("Content-Type: application/pkcs7-signature; name=\"smime.p7s\"\r\n" ++
        "Content-Transfer-Encoding: base64\r\nContent-Disposition: attachment; filename=\"smime.p7s\"\r\n\r\n")
        (base64Wrapped signature)))

def buildSmimeEnveloped (cmsDer : Octets) : Octets :=
  opened messageLines "Content-Type: application/pkcs7-mime;"
    (octets (" smime-type=enveloped-data; name=\"smime.p7m\"\r\nContent-Transfer-Encoding: base64\r\n" ++
      "Content-Disposition: attachment; filename=\"smime.p7m\"\r\n\r\n") ++ (base64Wrapped cmsDer ++ octets "\r\n"))

end Wrappers

inductive Protocol where
  | pgp
  | smime
  deriving DecidableEq, Repr

inductive ProtectFailure where
  | noSigningKey
  | needsPassphrase
  | noRecipientKey (missing : List Str)
  | failed (message : Str)
  deriving DecidableEq, Repr

/-- The error a failure is told as. -/
def ProtectFailure.text : ProtectFailure → Str
  | .noSigningKey => "no OpenPGP key to sign with — import yours in settings"
  | .needsPassphrase => "your OpenPGP key needs its passphrase"
  | .noRecipientKey missing => "no key here for " ++ (join ", " missing ++ " — the message was not sent")
  | .failed message => "the message could not be protected: " ++ message

/-- What the sender asked to have done to a message, and with which keys; it is built only where something was asked for. -/
structure Protection (ε : Type) where
  protocol : Protocol
  sign : Bool
  encrypt : Bool
  asked : sign = true ∨ encrypt = true
  /-- The recipients no key is held for. -/
  missing : List Str
  /-- A detached signature, when there is a key to sign with. -/
  signature : Option (ε → Octets → Except ProtectFailure Octets)
  /-- The ciphertext of an entity; with OpenPGP it is signed as well. -/
  ciphertext : ε → Octets → Except ProtectFailure Octets
  /-- A boundary of a kind. -/
  boundary : ε → String → Str

section Apply

variable {ε : Type} (p : Protection ε)

/-- A signature with the key there is. -/
def Protection.signed (failure : ProtectFailure) (draw : ε) (entity : Octets) : Except ProtectFailure Octets :=
  match p.signature with
  | none => .error failure
  | some signature => signature draw entity

def noIdentity : ProtectFailure := .failed "no S/MIME identity to sign with"

/-- What S/MIME encrypts: the entity, or the signed entity. -/
def Protection.toEncrypt (draw : ε) (entity : Octets) : Except ProtectFailure Octets :=
  if p.sign then do
    let signature ← p.signed noIdentity draw entity
    .ok (buildSmimeSigned (p.boundary draw "smime_signed") [] entity signature)
  else .ok entity

/-- `protect_message`, of either protocol. -/
def Protection.protectMessage (draw : ε) (raw : Octets) : Except ProtectFailure Octets :=
  match splitForSigning raw with
  | none => .error (.failed "the message has no header block")
  | some split =>
    if p.encrypt ∧ p.missing ≠ [] then .error (.noRecipientKey p.missing)
    else
      match p.protocol with
      | .pgp =>
        if p.encrypt then do
          let ciphertext ← p.ciphertext draw split.entity
          .ok (buildEncrypted (p.boundary draw "encrypted") split.messageLines ciphertext)
        else if p.sign then do
          let signature ← p.signed .noSigningKey draw split.entity
          .ok (buildSigned (p.boundary draw "signed") split.messageLines split.entity signature "sha512")
        else .ok raw
      | .smime =>
        if p.encrypt then do
          let toEncrypt ← p.toEncrypt draw split.entity
          let cmsDer ← p.ciphertext draw toEncrypt
          .ok (buildSmimeEnveloped split.messageLines cmsDer)
        else if p.sign then do
          let signature ← p.signed noIdentity draw split.entity
          .ok (buildSmimeSigned (p.boundary draw "smime_signed") split.messageLines split.entity signature)
        else .ok raw

/-- `Protection::apply`. -/
def Protection.apply (draw : ε) (raw : Octets) : Except Str Octets :=
  match p.protectMessage draw raw with
  | .ok out => .ok out
  | .error failure => .error failure.text

/-- The types of a message that was protected. -/
def SEALED_TYPES : List String :=
  ["Content-Type: multipart/signed;", "Content-Type: multipart/encrypted;", "Content-Type: application/pkcs7-mime;"]

/-- The lines of a header: each ends where a line ends, and says something. -/
def HeaderLines (lines : List Str) : Prop := ∀ line ∈ lines, '\n' ∉ line.dropLast ∧ trim line ≠ []

/-- A message that says in its header that it was signed or encrypted. -/
def Sealed (out : Octets) : Prop :=
  ∃ lines type rest, HeaderLines lines ∧ type ∈ SEALED_TYPES ∧ out = opened lines type rest

/-! ## What is given back -/

theorem dropLast_splitInclusiveFrom : ∀ {line s : Str}, '\n' ∉ line → ∀ l ∈ splitInclusiveFrom line s, '\n' ∉ l.dropLast
  | line, [], hline, l, hl => by
    unfold splitInclusiveFrom at hl
    split at hl
    · cases hl
    · rw [mem_singleton.mp hl]
      exact fun h => hline (dropLast_subset _ h)
  | line, c :: s, hline, l, hl => by
    unfold splitInclusiveFrom at hl
    split at hl
    · rcases mem_cons.mp hl with rfl | hl
      · rwa [dropLast_concat]
      · exact dropLast_splitInclusiveFrom not_mem_nil l hl
    · rename_i hc
      refine dropLast_splitInclusiveFrom (fun h => ?_) l hl
      rcases mem_append.mp h with h | h
      · exact hline h
      · exact hc (mem_singleton.mp h).symm

theorem sortLines_lines {line : Str} : ∀ {lines : List Str} {kind : Bool × Bool},
    line ∈ (sortLines kind lines).1 → line ∈ lines ∧ trim line ≠ []
  | [], _, h => by cases h
  | first :: lines, kind, h => by
    have hlater : ∀ {kind : Bool × Bool}, line ∈ (sortLines kind lines).1 → line ∈ first :: lines ∧ trim line ≠ [] := fun h =>
      ⟨mem_cons_of_mem _ (sortLines_lines h).1, (sortLines_lines h).2⟩
    unfold sortLines at h
    by_cases hfirst : trim first = []
    · rw [if_pos hfirst] at h
      exact hlater h
    · rw [if_neg hfirst] at h
      dsimp only at h
      generalize lineKind kind first = k at h
      obtain ⟨inEntity, inMimeVersion⟩ := k
      cases inMimeVersion with
      | true => exact hlater h
      | false =>
        cases inEntity with
        | true => exact hlater h
        | false =>
          rcases mem_cons.mp h with rfl | h
          · exact ⟨mem_cons_self, hfirst⟩
          · exact hlater h

theorem splitForSigning_lines {raw : Octets} {split : SplitMessage} (h : splitForSigning raw = some split) :
    HeaderLines split.messageLines := by
  unfold splitForSigning at h
  simp only [Option.bind_eq_bind, Option.bind_eq_some_iff] at h
  obtain ⟨end_, -, headers, -, h⟩ := h
  cases h
  intro line hline
  obtain ⟨hmem, hne⟩ := sortLines_lines hline
  exact ⟨dropLast_splitInclusiveFrom not_mem_nil line hmem, hne⟩

theorem opened_sealed {lines : List Str} (h : HeaderLines lines) {type : String} (htype : type ∈ SEALED_TYPES) (rest : Octets) :
    Sealed (opened lines type rest) := ⟨lines, type, rest, h, htype, rfl⟩

/-- **What was protected says so** in its header. -/
theorem apply_sealed {draw : ε} {raw out : Octets} (h : p.apply draw raw = .ok out) : Sealed out := by
  have hout : p.protectMessage draw raw = .ok out := by
    unfold Protection.apply at h
    split at h
    · cases h
      assumption
    · cases h
  unfold Protection.protectMessage at hout
  cases hsplit : splitForSigning raw with
  | none =>
    rw [hsplit] at hout
    cases hout
  | some split =>
    have hlines := splitForSigning_lines hsplit
    rw [hsplit] at hout
    dsimp only at hout
    split at hout
    · cases hout
    · cases hprotocol : p.protocol with
      | pgp =>
        rw [hprotocol] at hout
        dsimp only at hout
        split at hout
        · obtain ⟨ciphertext, -, hout⟩ := Fallible.bind_ok.mp hout
          cases hout
          exact opened_sealed hlines (by decide) _
        · rename_i hencrypt
          rw [if_pos (p.asked.resolve_right hencrypt)] at hout
          obtain ⟨signature, -, hout⟩ := Fallible.bind_ok.mp hout
          cases hout
          exact opened_sealed hlines (by decide) _
      | smime =>
        rw [hprotocol] at hout
        dsimp only at hout
        split at hout
        · obtain ⟨entity, -, hout⟩ := Fallible.bind_ok.mp hout
          obtain ⟨cmsDer, -, hout⟩ := Fallible.bind_ok.mp hout
          cases hout
          exact opened_sealed hlines (by decide) _
        · rename_i hencrypt
          rw [if_pos (p.asked.resolve_right hencrypt)] at hout
          obtain ⟨signature, -, hout⟩ := Fallible.bind_ok.mp hout
          cases hout
          exact opened_sealed hlines (by decide) _

end Apply

end Oreneta.Smtp

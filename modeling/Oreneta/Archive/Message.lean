import Oreneta.Lib.Text

/-!
# A message as its bytes

What the archive reads off the bytes of a message before it stores them: `looks_like_message` and
`header_block` of `archive.rs`, and the message's id, which two functions read: `header_fields` of
`imap.rs` with `normalize_message_id`, and `parse_message` of `parse.rs` with `normalize_msgid`.

* `Mailparse` stands for the `mailparse` crate.
* `storedId` — the id in the row of a stored message: `save_cached_message` runs after
  `upsert_messages_in_transaction` and writes the one of `parse_message` over the other.
* `Recognised` — the two are the same and there is one.
-/

namespace Oreneta.Archive

abbrev Bytes := List UInt8

namespace Bytes

/-- The first place of `sub` (`windows(n).position`). -/
def find (sub : Bytes) : Bytes → Option Nat
  | [] => if sub = [] then some 0 else none
  | b :: raw => if sub.isPrefixOf (b :: raw) then some 0 else (find sub raw).map (· + 1)

def contains (sub raw : Bytes) : Bool := (find sub raw).isSome

/-- The bytes of an ASCII text. -/
def ofText (s : String) : Bytes := s.toList.map (fun c => UInt8.ofNat c.toNat)

def asciiLower (raw : Bytes) : Bytes := raw.map (fun b => if 0x41 ≤ b ∧ b ≤ 0x5A then b + 0x20 else b)

end Bytes

/-- `header_block`: up to and with the empty line. -/
def headerBlock (raw : Bytes) : Bytes :=
  match Bytes.find [0xD, 0xA, 0xD, 0xA] raw with
  | some end_ => raw.take (end_ + 4)
  | none =>
    match Bytes.find [0xA, 0xA] raw with
    | some end_ => raw.take (end_ + 2)
    | none => raw

/-- `looks_like_message`.  The fields are ASCII, so whatever `from_utf8_lossy` makes of the other bytes
changes nothing. -/
def looksLikeMessage (raw : Bytes) : Bool :=
  let header := match (Bytes.find [0xD, 0xA, 0xD, 0xA] raw).or (Bytes.find [0xA, 0xA] raw) with
    | some end_ => raw.take end_
    | none => raw.take (64 * 1024)
  let text := Bytes.asciiLower header
  [Bytes.ofText "\nfrom:", Bytes.ofText "\ndate:", Bytes.ofText "\nsubject:",
    Bytes.ofText "\nmessage-id:"].any
      (fun field => Bytes.contains field text || (field.drop 1).isPrefixOf text)

/-- What `mailparse` reads; a field that is not there, or bytes that do not parse, are `none`. -/
structure Mailparse where
  /-- The first `Message-ID` of a header block. -/
  parseHeaders : Bytes → Option Str
  /-- The first `Message-ID` of a whole message. -/
  parseMail : Bytes → Option (Option Str)

/-- Without the brackets and the spaces around them. -/
def unbracket (s : Str) : Str :=
  Text.trim (((Text.trim s).dropWhile (· = '<')).rdropWhile (· = '>'))

/-- `normalize_message_id`: what stands between the first `<` and the `>` after it. -/
def normalizeMessageId (value : Str) : Str :=
  let opened := value.dropWhile (· ≠ '<')
  if '>' ∈ opened then Text.trim ((opened.drop 1).takeWhile (· ≠ '>')) else unbracket value

/-- `normalize_msgid`. -/
def normalizeMsgid (raw : Str) : Str := if Text.trim raw = [] then [] else unbracket raw

/-- `header_fields(header_block(raw)).message_id`. -/
def headerId (mail : Mailparse) (raw : Bytes) : Str :=
  ((mail.parseHeaders (headerBlock raw)).map normalizeMessageId).getD []

/-- The `message_id` in the row of a stored message. -/
def storedId (mail : Mailparse) (raw : Bytes) : Str :=
  match mail.parseMail raw with
  | some field => normalizeMsgid (field.getD [])
  | none => []

/-- A stored message is found again by its id. -/
def Recognised (mail : Mailparse) (raw : Bytes) : Prop :=
  headerId mail raw ≠ [] ∧ Text.asciiLower (storedId mail raw) = Text.asciiLower (headerId mail raw)

instance (mail : Mailparse) (raw : Bytes) : Decidable (Recognised mail raw) := by
  unfold Recognised
  infer_instance

end Oreneta.Archive

import Oreneta.Lib.Quoted
import Oreneta.Lib.Trim

/-!
# A field of recipients

The composer keeps its recipients as one text (`recipients.ts`); the core reads that text again when it sends
(`smtp.rs`).

* `formatRecipients`, `splitRecipients`, `parseRecipient`, `parseRecipients` — the composer's side.
* `parseAddrs`, `splitNameAddr`, `bareAddr`, `envelopeRecipients` — the core's side.

The loops over a text are recursions on it with the variables of the loop as arguments; what the loop has
pushed stands before what it will push.
-/

namespace Oreneta.Recipients

open Text

/-! ## The composer -/

/-- White space of a JavaScript text: `\s`, and what `trim` takes off. -/
def jsWhitespace (c : Char) : Bool :=
  (0x9 ≤ c.toNat && c.toNat ≤ 0xD) || c.toNat = 0x20 || c.toNat = 0xA0 || c.toNat = 0x1680 ||
    (0x2000 ≤ c.toNat && c.toNat ≤ 0x200A) || c.toNat = 0x2028 || c.toNat = 0x2029 || c.toNat = 0x202F ||
    c.toNat = 0x205F || c.toNat = 0x3000 || c.toNat = 0xFEFF

def jsTrim (s : Str) : Str := trimBy jsWhitespace s

inductive Status where
  | ok
  | malformed
  deriving DecidableEq, Repr

/-- One entry in a recipient field, as the parser understood it. -/
structure Recipient where
  name : Str
  address : Str
  status : Status
  raw : Str
  deriving DecidableEq, Repr

/-- Commas and semicolons separate, neither inside quotes or angle brackets. -/
def splitFrom (inQuotes inAngles escaped : Bool) (current : Str) : Str → List Str
  | [] => [current]
  | c :: rest =>
    if escaped then splitFrom inQuotes inAngles false (current ++ [c]) rest
    else if c = '\\' ∧ inQuotes = true then splitFrom inQuotes inAngles true (current ++ [c]) rest
    else if c = '"' then splitFrom (!inQuotes) inAngles false (current ++ [c]) rest
    else
      let inAngles := if inQuotes = false ∧ c = '<' then true else inAngles
      let inAngles := if inQuotes = false ∧ c = '>' then false else inAngles
      if (c = ',' ∨ c = ';') ∧ inQuotes = false ∧ inAngles = false then
        current :: splitFrom inQuotes inAngles false [] rest
      else splitFrom inQuotes inAngles false (current ++ [c]) rest

def splitRecipients (value : Str) : List Str := splitFrom false false false [] value

/-- What `.` of a regular expression does not stand for. -/
def isLineTerminator (c : Char) : Bool := c = '\n' || c = '\r' || c.toNat = 0x2028 || c.toNat = 0x2029

/-- `replace(/\\(.)/g, '$1')`. -/
def unescape : Str → Str
  | [] => []
  | [c] => [c]
  | c :: d :: rest =>
    if c = '\\' ∧ isLineTerminator d = false then d :: unescape rest else c :: unescape (d :: rest)

/-- Surrounding quotes taken off a display name, and what is inside unescaped. -/
def unquote (name : Str) : Str :=
  let trimmed := jsTrim name
  if trimmed.length < 2 ∨ trimmed.head? ≠ some '"' ∨ trimmed.getLast? ≠ some '"' then trimmed
  else unescape trimmed.tail.dropLast

/-- Whether a bare text can be an address at all: one `@`, something on each side, no white space. -/
def addressLooksReal (address : Str) : Bool :=
  match splitOnce '@' address with
  | none => false
  | some (before, after) =>
    !before.isEmpty && !after.isEmpty && !after.contains '@' && !address.any jsWhitespace

def statusOf (address : Str) : Status := if addressLooksReal address then .ok else .malformed

/-- One entry: `Name <addr>`, `"Quoted, Name" <addr>` or a bare address. -/
def parseRecipient (raw : Str) : Option Recipient :=
  let trimmed := jsTrim raw
  if trimmed = [] then none
  else
    let bare : Recipient := ⟨[], trimmed, statusOf trimmed, trimmed⟩
    match rsplitOnce '<' trimmed with
    | none => some bare
    | some (before, opened) =>
      match rsplitOnce '>' opened with
      | none => some bare
      | some (inside, _) => some ⟨unquote before, jsTrim inside, statusOf (jsTrim inside), trimmed⟩

def parseRecipients (value : Str) : List Recipient := (splitRecipients value).filterMap parseRecipient

def needsQuotes (name : Str) : Bool :=
  name.any (fun c => c = ',' || c = ';' || c = '<' || c = '>' || c = '"')

/-- One entry written back out, a name that needs it quoted. -/
def formatRecipient (recipient : Recipient) : Str :=
  if recipient.status = .malformed ∧ recipient.name = [] then recipient.raw
  else if recipient.name = [] then recipient.address
  else
    let name := if needsQuotes recipient.name then Quoted.quote recipient.name else recipient.name
    name ++ (" <" ++ (recipient.address ++ ['>']))

def formatRecipients (recipients : List Recipient) : Str := join ", " (recipients.map formatRecipient)

/-! ## The core -/

/-- An entry pushed: trimmed, when something is left. -/
def entry (current : Str) : List Str := if trim current = [] then [] else [trim current]

/-- Commas separate, but not inside a double-quoted display name or inside `<…>`. -/
def entriesFrom (inQuotes inBrackets : Bool) (current : Str) : Str → List Str
  | [] => entry current
  | c :: rest =>
    if c = '"' then entriesFrom (!inQuotes) inBrackets (current ++ [c]) rest
    else if c = '<' ∧ inQuotes = false then entriesFrom inQuotes true (current ++ [c]) rest
    else if c = '>' ∧ inQuotes = false then entriesFrom inQuotes false (current ++ [c]) rest
    else if c = ',' ∧ inQuotes = false ∧ inBrackets = false then
      entry current ++ entriesFrom inQuotes inBrackets [] rest
    else entriesFrom inQuotes inBrackets (current ++ [c]) rest

def parseAddrs (raw : Str) : List Str := entriesFrom false false [] raw

/-- `str::replace` of two characters by one. -/
def replacePair (c d with_ : Char) : Str → Str
  | [] => []
  | [x] => [x]
  | x :: y :: rest => if x = c ∧ y = d then with_ :: replacePair c d with_ rest
    else x :: replacePair c d with_ (y :: rest)

/-- A quoted display name unwrapped, its escapes undone. -/
def unwrapName (name : Str) : Str :=
  if 2 ≤ name.length ∧ name.head? = some '"' ∧ name.getLast? = some '"' then
    trim (replacePair '\\' '\\' '\\' (replacePair '\\' '"' '"' name.tail.dropLast))
  else name

/-- `Name <addr>`, or a bare address, as its display name and its address. -/
def splitNameAddr (entry : Str) : Str × Str :=
  let trimmed := trim entry
  match splitOnce '<' trimmed with
  | none => ([], trimmed)
  | some (before, opened) =>
    match splitOnce '>' opened with
    | none => ([], trimmed)
    | some (inside, _) => (unwrapName (trim before), trim inside)

/-- The bare address of an entry. -/
def bareAddr (entry : Str) : Str :=
  let trimmed := trim entry
  match splitOnce '<' trimmed with
  | none => trimmed
  | some (_, opened) =>
    match splitOnce '>' opened with
    | none => trimmed
    | some (inside, _) => trim inside

/-- The addresses not seen yet, whatever the case; `lower` is `str::to_lowercase`. -/
def unseenFrom (lower : Str → Str) (seen : List Str) : List Str → List Str
  | [] => []
  | entry :: entries =>
    let bare := bareAddr entry
    if lower bare ∈ seen then unseenFrom lower seen entries
    else bare :: unseenFrom lower (lower bare :: seen) entries

def envelopeRecipients (lower : Str → Str) (to_ cc bcc : List Str) : List Str :=
  unseenFrom lower [] (to_ ++ (cc ++ bcc))

end Oreneta.Recipients

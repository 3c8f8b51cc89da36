import Oreneta.Calendar.Reminders
import Oreneta.Lib.CivilDate
import Oreneta.Lib.Trim

/-!
# The search box (`search/mod.rs`)

What someone typed, read into a query and written back.

* `tokenize`, `parseDay`, `parse`, `compose` — as the source has them; a day is reckoned in an `i64` that wraps around.
* `parse_eq` — a search by what each word asks for, beside the words of its text.
-/

namespace Oreneta.Search

open Text Civil List

/-! ## The query -/

inductive Flag where
  | unread
  | read
  | starred
  | hasAttachment
  deriving DecidableEq, Repr

structure Query where
  /-- Words with no operator, joined as one phrase. -/
  text : Str
  from_ : List Str
  to_ : List Str
  subject : List Str
  flags : List Flag
  label : Option Str
  after : Option Int
  before : Option Int
  deriving DecidableEq, Repr

def Query.default : Query := ⟨[], [], [], [], [], none, none, none⟩

/-! ## Reading -/

/-- `tokenize`, inside or outside of quotes and with the word read so far. -/
def tokenizeFrom : Bool → Str → Str → List Str
  | _, current, [] => if current.isEmpty then [] else [current]
  | quoted, current, c :: rest =>
    if c = '"' then tokenizeFrom (!quoted) current rest
    else if Text.isWhitespace c && !quoted then
      if current.isEmpty then tokenizeFrom quoted [] rest else current :: tokenizeFrom quoted [] rest
    else tokenizeFrom quoted (current ++ [c]) rest

/-- Splits a query into words, keeping quoted runs whole. -/
def tokenize (input : Str) : List Str := tokenizeFrom false [] input

/-- A `YYYY-MM-DD` day as Unix seconds at UTC midnight. -/
def parseDay (value : Str) : Option Int :=
  match value.splitOn '-' with
  | [year, month, day] => do
    let year ← Decimal.parseInt year
    let month ← Decimal.parseInt month
    let day ← Decimal.parseInt day
    if 1 ≤ month ∧ month ≤ 12 ∧ 1 ≤ day ∧ day ≤ 31 then
      let y := if month ≤ 2 then year - 1 else year
      let era := Int.tdiv (if 0 ≤ y then y else y - 399) 400
      let yoe := y - era * 400
      let doy := (153 * (if 2 < month then month - 3 else month + 9) + 2) / 5 + day - 1
      let doe := yoe * 365 + yoe / 4 - yoe / 100 + doy
      some (I64.wrap (I64.wrap (I64.wrap (I64.wrap (era * 146097) + doe) - 719468) * 86400))
    else none
  | _ => none

/-- What one word of the box asks for. -/
inductive Reading where
  /-- It is part of the text. -/
  | word
  | nothing
  | from_ (value : Str)
  | to_ (value : Str)
  | subject (value : Str)
  | label (value : Str)
  | flag (f : Flag)
  | after (at_ : Int)
  | before (at_ : Int)
  deriving DecidableEq, Repr

/-- The arms of `parse`, for an operator in lower case and its value. -/
def operator (lowered value : Str) : Reading :=
  if lowered = "from" then .from_ value
  else if lowered = "to" then .to_ value
  else if lowered = "subject" then .subject value
  else if lowered = "label" then .label value
  else if lowered = "has" ∧ Text.asciiLower value = "attachment" then .flag .hasAttachment
  else if lowered = "is" ∧ Text.asciiLower value = "unread" then .flag .unread
  else if lowered = "is" ∧ Text.asciiLower value = "read" then .flag .read
  else if lowered = "is" ∧ Text.asciiLower value = "starred" then .flag .starred
  else if lowered = "after" ∨ lowered = "since" then
    match parseDay value with
    | some at_ => .after at_
    | none => .word
  else if lowered = "before" ∨ lowered = "until" then
    match parseDay value with
    | some at_ => .before at_
    | none => .word
  else .word

def reading (token : Str) : Reading :=
  match Text.splitOnce ':' token with
  | none => .word
  | some (name, value) =>
    let value := Text.trim value
    if value.isEmpty then .nothing else operator (Text.asciiLower name) value

/-- What an arm of `parse` does to the query. -/
def Reading.set (query : Query) : Reading → Query
  | .word | .nothing => query
  | .from_ value => { query with from_ := query.from_ ++ [value] }
  | .to_ value => { query with to_ := query.to_ ++ [value] }
  | .subject value => { query with subject := query.subject ++ [value] }
  | .label value => { query with label := some value }
  | .flag f => { query with flags := query.flags ++ [f] }
  | .after at_ => { query with after := some at_ }
  | .before at_ => { query with before := some at_ }

/-- One word of the box, with the words of the text so far. -/
def readToken (s : Query × List Str) (token : Str) : Query × List Str :=
  match reading token with
  | .word => (s.1, s.2 ++ [token])
  | asked => (asked.set s.1, s.2)

/-- Reads a search box. -/
def parse (input : Str) : Query :=
  let (query, words) := (tokenize input).foldl readToken (.default, [])
  { query with text := Text.join [' '] words }

/-! ## Writing -/

/-- A value as one token; none if it is empty. -/
def quoted (value : Str) : Option Str :=
  let clean := Text.trim (value.filter (fun c => c ≠ '"'))
  if clean.isEmpty then none
  else some (if clean.any isWhitespace then '"' :: (clean ++ ['"']) else clean)

/-- The `YYYY-MM-DD` of a UTC-midnight instant; nothing for one no date can hold. -/
def dayOf (at_ : Int) : Str :=
  if Calendar.representable at_ then
    yearText (ofDays (at_ / 86400)).year ++ '-' :: (pad2 (ofDays (at_ / 86400)).month ++
      '-' :: pad2 (ofDays (at_ / 86400)).day)
  else []

def flagText : Flag → Str
  | .unread => "is:unread"
  | .read => "is:read"
  | .starred => "is:starred"
  | .hasAttachment => "has:attachment"

/-- Writes a query back as the text the box takes. -/
def compose (query : Query) : Str :=
  let text := if (trim query.text).isEmpty then [] else [trim query.text]
  let terms (name : Str) (values : List Str) := values.filterMap (fun v => (quoted v).map (name ++ ':' :: ·))
  join [' '] (text ++ terms "from".toList query.from_ ++ terms "to".toList query.to_ ++
    terms "subject" query.subject ++ query.flags.map flagText ++
    ((query.label.bind quoted).map ("label:".toList ++ ·)).toList ++
    (query.after.map (fun at_ => "after:" ++ dayOf at_)).toList ++
    (query.before.map (fun at_ => "before:" ++ dayOf at_)).toList)

/-! ## What a search asks for -/

/-- The words of the text. -/
def textWords (tokens : List Str) : List Str := tokens.filter (fun token => reading token = .word)

/-- What the words ask for beside the text. -/
def asked (query : Query) (tokens : List Str) : Query := tokens.foldl (fun query token => (reading token).set query) query

theorem readToken_eq (s : Query × List Str) (token : Str) :
    readToken s token = ((reading token).set s.1, s.2 ++ textWords [token]) := by
  unfold readToken textWords
  split
  · rename_i hword
    have hone : [token].filter (fun token => reading token = .word) = [token] := by simp [hword]
    rw [hone, hword]
    rfl
  · rename_i hne
    have hnone : [token].filter (fun token => reading token = .word) = [] := by simpa using hne
    rw [hnone, append_nil]

theorem textWords_cons (token : Str) (tokens : List Str) : textWords (token :: tokens) = textWords [token] ++ textWords tokens :=
  filter_append [token] tokens

theorem foldl_readToken : ∀ (tokens : List Str) (s : Query × List Str),
    tokens.foldl readToken s = (asked s.1 tokens, s.2 ++ textWords tokens)
  | [], s => by
    rw [foldl_nil, textWords, filter_nil, append_nil]
    rfl
  | token :: tokens, s => by
    rw [foldl_cons, foldl_readToken tokens, readToken_eq, textWords_cons token tokens, append_assoc]
    rfl

/-- `parse` by what each word asks for. -/
theorem parse_eq (input : Str) : parse input =
    { asked .default (tokenize input) with text := join [' '] (textWords (tokenize input)) } := by
  unfold parse
  rw [foldl_readToken]
  rfl

end Oreneta.Search

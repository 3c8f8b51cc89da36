import Oreneta.Lib.Text

/-!
# A list of trackers

`privacy/mod.rs`: the rules of a filter list that can apply to mail, and the address they block.

* `parseRule` — one line of the list: its options (`appliesToMail`), its anchors, its tokens.
* `Rule.matches` — whether a rule matches an address, on the whole pattern.
* `FilterSet`, `FilterSet.parse` — the rules, and the index of them by host.
* `FilterSet.blockingRule` — the rule that blocks an address, found through the index.

A place in an address is what is left of the address from there on.
-/

namespace Oreneta.Privacy

open Text

/-- `char::to_lowercase` and `str::to_lowercase`, whatever they do beyond ASCII. -/
structure Lowercase where
  char : Char → Str
  text : Str → Str

inductive Token where
  | lit (text : Str)
  | star
  /-- `^`: one separator character, or the end of the address. -/
  | sep
  deriving DecidableEq, Repr

structure Rule where
  text : Str
  hostAnchor : Bool
  startAnchor : Bool
  endAnchor : Bool
  tokens : List Token
  important : Bool
  deriving DecidableEq, Repr

/-! ## Reading a rule -/

/-- The request types a rule can name. -/
def TYPES : List Str :=
  ["image", "media", "other", "ping", "beacon", "xmlhttprequest", "xhr", "script", "stylesheet", "css",
    "subdocument", "frame", "font", "object", "websocket", "document", "doc", "popup"].map String.toList

/-- What has been read of the options of a rule. -/
structure Options where
  important : Bool
  types : List Str
  negatedTypes : List Str
  deriving DecidableEq, Repr

/-- One option; one that limits a rule to websites, or does more than block, skips the rule. -/
def Options.read (options : Options) (option : Str) : Option Options :=
  let (negated, name) := match stripPrefix ['~'] option with
    | some rest => (true, rest)
    | none => (false, option)
  let (name, value) := (splitOnce '=' name).getD (name, [])
  let name := asciiLower name
  if name ∈ TYPES then
    some (if negated then { options with negatedTypes := options.negatedTypes ++ [name] }
      else { options with types := options.types ++ [name] })
  else if (name = "third-party" ∨ name = "3p") ∧ negated = false then some options
  else if name = "third-party" ∨ name = "3p" ∨ name = "first-party" ∨ name = "1p" then
    none
  else if name = "domain" ∨ name = "from" then
    -- only exclusions leave the rule applying everywhere else
    if (value.splitOn '|').any (fun domain => !("~".toList).isPrefixOf domain) then none else some options
  else if name = "match-case" then some options
  else if name = "important" then some { options with important := true }
  else none

/-- `applies_to_mail`: whether an image is one of the requests a rule is for, and whether it is important. -/
def appliesToMail (options : Str) : Option Bool := do
  let read ← (((options.splitOn ',').map trim).filter (fun o => !o.isEmpty)).foldlM Options.read ⟨false, [], []⟩
  let imageOk := (read.types.isEmpty ||
      read.types.any (fun t => t = "image" || t = "media" || t = "other")) &&
    !read.negatedTypes.contains "image"
  if imageOk then some read.important else none

/-- The literal that has been read, if any. -/
def literalToken (literal : Str) : List Token := if literal.isEmpty then [] else [.lit literal]

variable (lc : Lowercase)

/-- The tokens of a pattern, behind a literal that has been begun. -/
def tokensFrom (literal : Str) : Str → List Token
  | [] => literalToken literal
  | c :: pattern =>
    if c = '*' then literalToken literal ++ .star :: tokensFrom [] pattern
    else if c = '^' then literalToken literal ++ .sep :: tokensFrom [] pattern
    else tokensFrom (literal ++ lc.char c) pattern

/-- `tokens_of`. -/
def tokensOf (pattern : Str) : List Token := tokensFrom lc [] pattern

def isHostChar (c : Char) : Bool := c.isAlphanum || c = '.' || c = '-'

/-- `anchored_host`: the host a rule is about, for the index. -/
def anchoredHost : List Token → Option Str
  | .lit text :: _ =>
    let host := (text.takeWhile isHostChar).rdropWhile (fun c => c = '.')
    if host ≠ [] ∧ '.' ∈ host then some host else none
  | _ => none

/-- What stands in a rule that hides elements of a page. -/
def COSMETIC : List Str := ["##", "#@#", "#?#", "#$#", "#%#", "#+js"].map String.toList

/-- What is left when a prefix is there, and whether it was. -/
def stripped (start s : Str) : Bool × Str :=
  match stripPrefix start s with
  | some rest => (true, rest)
  | none => (false, s)

/-- A bar at the end. -/
def strippedEnd (s : Str) : Bool × Str := if s.getLast? = some '|' then (true, s.dropLast) else (false, s)

/-- A pattern between slashes. -/
def isRegular : Str → Bool
  | '/' :: rest => '/' ∈ rest && rest.head? ≠ some '/'
  | _ => false

/-- The pattern of a rule and its options. -/
def patternAndOptions (body : Str) : Str × Str :=
  match rsplitOnce '$' body with
  | some (pattern, options) => if '/' ∈ options then (body, []) else (pattern, options)
  | none => (body, [])

/-- `parse_rule`: the rule of a line, and whether it is an exception. -/
def parseRule (line : Str) : Option (Bool × Rule) :=
  let line := trim line
  if line.isEmpty || line.head? = some '!' || line.head? = some '[' then none
  else if COSMETIC.any (Text.contains line) then none
  else
    let (exception, body) := stripped "@@" line
    if isRegular body then none
    else
      let (pattern, options) := patternAndOptions body
      match appliesToMail options with
      | none => none
      | some important =>
        let (hostAnchor, rest) := stripped "||" pattern
        let (startAnchor, rest) := if hostAnchor then (false, rest) else stripped "|" rest
        let (endAnchor, rest) := strippedEnd rest
        let tokens := tokensOf lc rest
        -- a rule of nothing but wildcards would match every address
        if !tokens.any (fun t => match t with | .lit text => decide (3 ≤ byteLength text) | _ => false) && !hostAnchor then
          none
        else if tokens.isEmpty then none
        else some (exception, ⟨line, hostAnchor, startAnchor, endAnchor, tokens, important⟩)

/-! ## Matching an address -/

def isSeparator (c : Char) : Bool := !(c.isAlphanum || c = '_' || c = '-' || c = '.' || c = '%')

/-- `match_from`, at a place of the address. -/
def matchFrom : List Token → Str → Bool → Bool
  | [], url, endAnchor => !endAnchor || url.isEmpty
  | .lit text :: tokens, url, endAnchor =>
    text.isPrefixOf url && matchFrom tokens (url.drop text.length) endAnchor
  | .sep :: tokens, url, endAnchor =>
    match url with
    | [] => matchFrom tokens [] endAnchor
    | c :: rest => isSeparator c && matchFrom tokens rest endAnchor
  | .star :: tokens, url, endAnchor => url.tails.any (fun rest => matchFrom tokens rest endAnchor)

/-- What stands behind the scheme (`find("://")`). -/
def afterScheme : Str → Option Str
  | [] => none
  | c :: url => if "://".toList.isPrefixOf (c :: url) then some ((c :: url).drop 3) else afterScheme url

/-- Where the host ends. -/
def endsHost (c : Char) : Bool := c = '/' || c = '?' || c = '#' || c = ':'

/-- Behind every dot of the host. -/
def dotStarts : Str → List Str
  | [] => []
  | c :: url => if endsHost c then [] else if c = '.' then url :: dotStarts url else dotStarts url

/-- `host_starts`: where a rule about a host may start. -/
def hostStarts (url : Str) : List Str :=
  match afterScheme url with
  | some rest => rest :: dotStarts rest
  | none => []

/-- `match_indices`: the places of a literal that do not overlap; `skip` characters are still part of one. -/
def matchPlaces (text : Str) : Nat → Str → List Str
  | _, [] => if text.isEmpty then [[]] else []
  | skip + 1, _ :: url => matchPlaces text skip url
  | 0, c :: url =>
    if text.isPrefixOf (c :: url) then (c :: url) :: matchPlaces text (text.length - 1) url
    else matchPlaces text 0 url

/-- `Rule::matches`. -/
def Rule.matches (rule : Rule) (url : Str) : Bool :=
  if rule.hostAnchor then (hostStarts url).any (fun place => matchFrom rule.tokens place rule.endAnchor)
  else if rule.startAnchor then matchFrom rule.tokens url rule.endAnchor
  else
    match rule.tokens with
    | .lit text :: _ => (matchPlaces text 0 url).any (fun place => matchFrom rule.tokens place rule.endAnchor)
    | _ => url.tails.any (fun place => matchFrom rule.tokens place rule.endAnchor)

/-- `host_of`. -/
def hostOf (url : Str) : Str :=
  match afterScheme url with
  | some rest =>
    let host := rest.takeWhile (fun c => !endsHost c)
    ((rsplitOnce '@' host).map Prod.snd).getD host
  | none => []

/-! ## The index -/

/-- `str::lines`, of what stands between the line feeds. -/
def linesBetween : List Str → List Str
  | [] => []
  | [last] => if last.isEmpty then [] else [last]
  | line :: next :: rest =>
    (if line.getLast? = some '\r' then line.dropLast else line) :: linesBetween (next :: rest)

def lines (text : Str) : List Str := linesBetween (text.splitOn '\n')

/-- The rules of a list; an index holds hosts with the numbers of rules, in the order they came. -/
structure FilterSet where
  version : Str
  title : Str
  rules : List Rule
  blocksByHost : List (Str × Nat)
  blocksGeneric : List Nat
  allowsByHost : List (Str × Nat)
  allowsGeneric : List Nat
  deriving DecidableEq, Repr

/-- The host a rule is indexed under, if any. -/
def Rule.indexHost (rule : Rule) : Option Str := if rule.hostAnchor then anchoredHost rule.tokens else none

/-- A rule is added; its number is a `u32`. -/
def FilterSet.add (set : FilterSet) (exception : Bool) (rule : Rule) : FilterSet :=
  let index := set.rules.length % 2 ^ 32
  let set := { set with rules := set.rules ++ [rule] }
  match exception, rule.indexHost with
  | true, some host => { set with allowsByHost := set.allowsByHost ++ [(host, index)] }
  | true, none => { set with allowsGeneric := set.allowsGeneric ++ [index] }
  | false, some host => { set with blocksByHost := set.blocksByHost ++ [(host, index)] }
  | false, none => { set with blocksGeneric := set.blocksGeneric ++ [index] }

/-- One line of a list. -/
def FilterSet.addLine (set : FilterSet) (line : Str) : FilterSet :=
  match stripPrefix "! Version:" line with
  | some version => { set with version := trim version }
  | none =>
    match stripPrefix "! Title:" line with
    | some title => { set with title := trim title }
    | none =>
      match parseRule lc line with
      | some (exception, rule) => set.add exception rule
      | none => set

/-- `FilterSet::parse`. -/
def FilterSet.parse (text : Str) : FilterSet :=
  (lines text).foldl (FilterSet.addLine lc) ⟨[], [], [], [], [], [], []⟩

/-- The parent domains of a host that have a dot, nearest first. -/
def parents : Str → List Str
  | [] => []
  | c :: host => if c = '.' then (if '.' ∈ host then host :: parents host else []) else parents host

/-- `first_match`: the rules of the host and of its parents in turn, then the rules without a host. -/
def FilterSet.firstMatch (set : FilterSet) (url : Str) (byHost : List (Str × Nat)) (generic : List Nat) : Option Rule :=
  let host := hostOf url
  let found := (host :: parents host).flatMap (fun name =>
    byHost.filterMap (fun entry => if entry.1 = name then some entry.2 else none))
  ((found ++ generic).filterMap (fun index => set.rules[index]?)).find? (fun rule => rule.matches url)

/-- The address that is looked up: trimmed, in lower case and with a scheme; none for other schemes. -/
def lookedUp (url : Str) : Option Str :=
  let lower := lc.text (trim url)
  if "http://".toList.isPrefixOf lower || "https://".toList.isPrefixOf lower || "//".toList.isPrefixOf lower then
    some (if "//".toList.isPrefixOf lower then "https:" ++ lower else lower)
  else none

/-- `blocking_rule`: the rule that blocks an address, unless an exception lets it through. -/
def FilterSet.blockingRule (set : FilterSet) (url : Str) : Option Str := do
  let lower ← lookedUp lc url
  let block ← set.firstMatch lower set.blocksByHost set.blocksGeneric
  if !block.important && (set.firstMatch lower set.allowsByHost set.allowsGeneric).isSome then none
  else some block.text

end Oreneta.Privacy

import Oreneta.Lib.Decimal
import Oreneta.Lib.Fallible

/-!
# Reading a `multistatus`

`carddav/xml.rs`: the answer of a WebDAV server, as the events `quick_xml` reads from it.

* `ReadState.step`, `readMultistatus` — one event, and all of them: the responses, and whether the closing
  `multistatus` arrived and nothing was malformed.
* `parseMultistatusComplete` — an answer that is cut off is an error.

The reader runs with `trim_text(true)` and without checking end names.  Names are matched without their prefix.
-/

namespace Oreneta.Dav

open Text

/-- An event of `quick_xml`.  Entities of a text are resolved, and the values of attributes are decoded
where they can be. -/
inductive Event where
  | start (raw : String) (attrs : List (String × Option Str))
  | empty (raw : String) (attrs : List (String × Option Str))
  | text (chunk : Str)
  | cdata (chunk : Str)
  | end_ (raw : String)
  /-- A declaration, a comment, a processing instruction. -/
  | other
  deriving DecidableEq, Repr

structure DavResponse where
  href : Str
  status : Str
  props : List (String × Str)
  resourceTypes : List String
  propHrefs : List (String × Str)
  privileges : List String
  components : Option (List Str)
  deriving DecidableEq, Repr

namespace DavResponse

def empty : DavResponse := ⟨[], [], [], [], [], [], none⟩

/-- A text property by local name. -/
def prop (response : DavResponse) (name : String) : Option Str :=
  (response.props.find? (fun entry => entry.1 == name)).map Prod.snd

end DavResponse

def lower (s : String) : String := String.ofList (asciiLower s.toList)

def localName (raw : String) : String :=
  match rsplitOnce ':' raw.toList with
  | some (_, name) => lower (String.ofList name)
  | none => lower raw

def splitWhitespace (s : Str) : List Str := (s.splitOnP isWhitespace).filter (fun part => !part.isEmpty)

/-- Whether an HTTP status line like `HTTP/1.1 200 OK` is a success. -/
def statusOk (status : Str) : Bool :=
  match (splitWhitespace status)[1]? with
  | some code => ((Decimal.parseBelow 65536 code).any (fun n => decide (200 ≤ n ∧ n < 300)))
  | none => false

structure ReadState where
  responses : List DavResponse
  /-- The elements that are open, the innermost first. -/
  path : List String
  current : Option DavResponse
  text : Str
  closed : Bool
  deriving DecidableEq, Repr

namespace ReadState

def start : ReadState := ⟨[], [], none, [], false⟩

def asciiUpper (s : Str) : Str := s.map Char.toUpper

/-- A `<comp name="VTODO"/>` inside `supported-calendar-component-set`. -/
def recordComponent (path : List String) (attrs : List (String × Option Str)) (response : DavResponse) :
    DavResponse :=
  if path.head? ≠ some "supported-calendar-component-set" then response
  else
    let name := (attrs.find? (fun attr => localName attr.1 == "name")).bind
      (fun attr => attr.2.map (fun value => asciiUpper (trim value)))
    match name.filter (fun name => !name.isEmpty) with
    | none => response
    | some name =>
      let components := response.components.getD []
      { response with components := some (if name ∈ components then components else components ++ [name]) }

/-- What the end of an element other than `response` adds to the response it is in. -/
def closeIn (name : String) (path : List String) (value : Str) (response : DavResponse) : DavResponse :=
  if name = "href" then
    let parent := path[1]?.getD ""
    let trimmed := trim value
    if parent = "response" then
      if response.href.isEmpty then { response with href := trimmed } else response
    else if parent ≠ "" ∧ trimmed ≠ [] then
      { response with propHrefs := response.propHrefs ++ [(parent, trimmed)] }
    else response
  else if name = "status" then
    if response.status.isEmpty || statusOk response.status then { response with status := trim value } else response
  else if path[1]? = some "prop" ∧ trim value ≠ [] then
    { response with props := response.props ++ [(name, trim value)] }
  else response

/-- The end of the element `name`; `path` still has it. -/
def close (name : String) (value : Str) (s : ReadState) : ReadState :=
  match s.current with
  | none => s
  | some response =>
    if name = "response" then
      { s with
        current := none
        responses :=
          if !response.href.isEmpty || !response.props.isEmpty then s.responses ++ [response] else s.responses }
    else { s with current := some (closeIn name s.path value response) }

def step (s : ReadState) : Event → ReadState
  | .start raw attrs =>
    let name := localName raw
    let current := if name = "comp" then s.current.map (recordComponent s.path attrs) else s.current
    { s with
      current := if name = "response" then some DavResponse.empty else current
      path := name :: s.path
      text := [] }
  | .empty raw attrs =>
    let name := localName raw
    let s : ReadState :=
      if name = "multistatus" ∧ s.current.isNone ∧ s.path = [] then { s with closed := true } else s
    if name = "comp" then { s with current := s.current.map (recordComponent s.path attrs) }
    else if s.path.head? = some "resourcetype" then
      { s with current := s.current.map (fun r => { r with resourceTypes := r.resourceTypes ++ [name] }) }
    else if s.path.head? = some "privilege" ∧ "current-user-privilege-set" ∈ s.path then
      { s with current := s.current.map (fun r => { r with privileges := r.privileges ++ [name] }) }
    else s
  | .text chunk => { s with text := s.text ++ chunk }
  | .cdata chunk => { s with text := s.text ++ chunk }
  | .end_ raw =>
    let name := localName raw
    let done := close name s.text s
    { done with
      text := []
      closed := if name = "multistatus" ∧ done.current.isNone then true else done.closed
      path := done.path.tail }
  | .other => s

end ReadState

/-- What `quick_xml` reads from a text: the events up to the end, and whether it stopped at an error. -/
abbrev XmlReader : Type := Str → List Event × Bool

def readMultistatus (xml : XmlReader) (body : Str) : List DavResponse × Bool :=
  let s := (xml body).1.foldl ReadState.step ReadState.start
  (s.responses, s.closed && !(xml body).2)

def parseMultistatusComplete (xml : XmlReader) (body : Str) : Except Str (List DavResponse) :=
  let (responses, complete) := readMultistatus xml body
  if complete then .ok responses
  else .error "the server's answer was cut off or not well formed, so it may not list every contact"

theorem parse_ok {xml : XmlReader} {body : Str} {responses : List DavResponse} :
    parseMultistatusComplete xml body = .ok responses ↔ readMultistatus xml body = (responses, true) := by
  unfold parseMultistatusComplete
  dsimp only
  split
  · rename_i hc
    constructor
    · intro h
      cases h
      exact Prod.ext rfl hc
    · intro h
      rw [h]
  · rename_i hc
    constructor
    · intro h
      cases h
    · intro h
      rw [h] at hc
      exact absurd rfl hc

end Oreneta.Dav

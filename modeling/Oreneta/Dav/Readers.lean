import Oreneta.Contacts.Vcard
import Oreneta.Dav.Multistatus
import Oreneta.Lib.AllOrNothing

/-!
# Reading a collection

`carddav/client.rs` and `calendar/caldav.rs`: everything in an address book, and the objects of a calendar
that a query asks for.  All or nothing.

* `fetchBook`, `fetchBookContents` — one REPORT, or the list of the cards and each card by itself.
* `query`, `fetchWindow`, `fetchTodos` — one REPORT.

The server, `quick_xml`, the `url` crate and what makes a person or a group of a card's properties are those of
a `Client`.
-/

namespace Oreneta.Dav

open Text Contacts AllOrNothing

structure DavRequest where
  method : String
  url : Str
  depth : Option String
  body : Option String
  deriving DecidableEq, Repr

structure HttpReply where
  status : Nat
  body : Str
  /-- Where the request ended up. -/
  url : Str
  etag : Option Str
  deriving DecidableEq, Repr

structure Client (Person Group : Type) where
  send : DavRequest → Except Str HttpReply
  xml : XmlReader
  /-- `Url::parse`, and then `path`, `origin` or `host_str`. -/
  path : Str → Option Str
  origin : Str → Option Str
  host : Str → Option Str
  /-- `Url::parse(base)?.join(href)`. -/
  join : Str → Str → Except Str Str
  upper : Str → Str
  person : List Property → Person
  isUseful : Person → Bool
  /-- `group_from_properties`: it gives a group for exactly the cards `is_group` is true of. -/
  group : List Property → Option Group
  /-- `%Y%m%dT%H%M%SZ`. -/
  stamp : Int → String

structure Card (Person : Type) where
  person : Person
  href : Str
  etag : Str

structure GroupEntry (Group : Type) where
  group : Group
  href : Str
  etag : Str

structure BookContents (Person Group : Type) where
  cards : List (Card Person)
  groups : List (GroupEntry Group)
  versions : List Str

structure Object where
  href : Str
  etag : Str
  ics : Str
  deriving DecidableEq, Repr

def refusedCredentials : Str := "the server refused those credentials"

def reportCards : String := r#"<?xml version="1.0" encoding="utf-8"?>
<card:addressbook-query xmlns:d="DAV:" xmlns:card="urn:ietf:params:xml:ns:carddav">
  <d:prop><d:getetag/><card:address-data/></d:prop></card:addressbook-query>"#

def propHrefs : String := r#"<?xml version="1.0" encoding="utf-8"?>
<d:propfind xmlns:d="DAV:"><d:prop><d:getetag/><d:resourcetype/></d:prop></d:propfind>"#

def cardsReport (bookUrl : Str) : DavRequest := ⟨"REPORT", bookUrl, some "1", some reportCards⟩

def cardsList (bookUrl : Str) : DavRequest := ⟨"PROPFIND", bookUrl, some "1", some propHrefs⟩

def getRequest (url : Str) : DavRequest := ⟨"GET", url, none, none⟩

/-- Why a book could not be read in full. -/
def incomplete (failed : List Str) (total : Nat) : Str :=
  Decimal.ofNat failed.length ++ " of " ++ Decimal.ofNat total ++
    " contacts could not be read (first: " ++ failed.head?.getD [] ++
    "); the last complete copy is kept"

namespace Client

variable {Person Group : Type} (c : Client Person Group)

def resolve (base href : Str) : Except Str Str := c.join base (trim href)

def sameOrigin (a b : Str) : Bool :=
  match c.origin a, c.origin b with
  | some a, some b => a == b
  | _, _ => false

def trimEndSlashes (s : Str) : Str := s.rdropWhile (· == '/')

/-- Whether a response is the book itself rather than one of its cards. -/
def isTheBook (response : DavResponse) (bookUrl : Str) : Bool :=
  match c.path bookUrl with
  | none => false
  | some book =>
    let href := trim response.href
    let path := (c.path href).getD href
    trimEndSlashes path == trimEndSlashes book

/-! ## Cards -/

def isGroup (properties : List Property) : Bool := (c.group properties).isSome

def peopleFromVcards (input : Str) : List Person :=
  (((splitCards c.upper input).filter (fun properties => !c.isGroup properties)).map c.person).filter c.isUseful

def cardVersion (properties : List Property) : Str :=
  ((properties.find? (fun property => property.name == "VERSION".toList)).map (fun property => trim property.value)).getD []

def addCard (href etag : Str) (contents : BookContents Person Group) (properties : List Property) :
    BookContents Person Group :=
  let version := cardVersion properties
  let versions :=
    if !version.isEmpty && !contents.versions.contains version then contents.versions ++ [version]
    else contents.versions
  match c.group properties with
  | some group => { contents with versions := versions, groups := contents.groups ++ [⟨group, href, etag⟩] }
  | none =>
    if c.isUseful (c.person properties) then
      { contents with versions := versions, cards := contents.cards ++ [⟨c.person properties, href, etag⟩] }
    else { contents with versions := versions }

/-- `BookContents::add`. -/
def add (contents : BookContents Person Group) (data href etag : Str) : BookContents Person Group :=
  (splitCards c.upper data).foldl (c.addCard href etag) contents

/-- The cards that came with a response. -/
def cardData (response : DavResponse) : Option Str :=
  (response.prop "address-data").filter (fun data => !(splitCards c.upper data).isEmpty)

def noCard (response : DavResponse) : Str :=
  response.href ++ ' ' :: (if response.status.isEmpty then "sent no card" else response.status)

/-! ## An address book -/

def judgeListed (from_ bookUrl : Str) (response : DavResponse) : Verdict (List Person) :=
  if c.isTheBook response bookUrl then .skip
  else if response.resourceTypes.contains "collection" then .skip
  else
    match c.resolve from_ response.href with
    | .error e => .refuse e
    | .ok url =>
      if !c.sameOrigin url bookUrl then
        .refuse ("the address book listed a card on another server (" ++ (c.host url).getD [] ++
          "); nothing was sent there and the last complete copy is kept")
      else
        match c.send (getRequest url) with
        | .error e => .refuse e
        | .ok reply =>
          if reply.status = 401 ∨ reply.status = 403 then .refuse refusedCredentials
          else if 300 ≤ reply.status then
            .failed (response.href ++ " HTTP " ++ Decimal.ofNat reply.status)
          else if (splitCards c.upper reply.body).isEmpty then .failed (response.href ++ " is not a vCard")
          else .kept (c.peopleFromVcards reply.body)

/-- The answer to the list of a book, for both of its readers. -/
def listBook {α : Type} (bookUrl : Str) (read : HttpReply → List DavResponse → Except Str α) : Except Str α := do
  let reply ← c.send (cardsList bookUrl)
  if reply.status = 401 ∨ reply.status = 403 then .error refusedCredentials
  else if 300 ≤ reply.status then
    .error ("the server would not list the address book (HTTP " ++ Decimal.ofNat reply.status ++ [')'])
  else
    let responses ← parseMultistatusComplete c.xml reply.body
    read reply responses

def fetchBookOneAtATime (bookUrl : Str) : Except Str (List Person) :=
  c.listBook bookUrl (fun reply responses => do
    let people ← readAll (c.judgeListed reply.url bookUrl) incomplete responses
    return people.flatten)

def judgeCard (bookUrl : Str) (response : DavResponse) : Verdict Str :=
  if c.isTheBook response bookUrl then .skip
  else
    match c.cardData response with
    | some data => .kept data
    | none => .failed (noCard response)

def fetchBook (bookUrl : Str) : Except Str (List Person) := do
  let reply ← c.send (cardsReport bookUrl)
  if reply.status = 401 ∨ reply.status = 403 then .error refusedCredentials
  else if reply.status < 300 then
    let responses ← parseMultistatusComplete c.xml reply.body
    let cards ← readAll (c.judgeCard bookUrl) incomplete responses
    return c.peopleFromVcards (cards.flatMap (fun data => data ++ ['\n']))
  else c.fetchBookOneAtATime bookUrl

/-! ## Its contents, with their addresses -/

def getCard (bookUrl cardUrl : Str) : Except Str (Option (Str × Str)) := do
  if !c.sameOrigin cardUrl bookUrl then
    .error "that contact is not on this address book's server; nothing was sent"
  else
    let reply ← c.send (getRequest cardUrl)
    if reply.status = 401 ∨ reply.status = 403 then .error refusedCredentials
    else if reply.status = 404 ∨ reply.status = 410 then return none
    else if 300 ≤ reply.status then
      .error ("the server would not send the card (HTTP " ++ Decimal.ofNat reply.status ++ [')'])
    else return some (reply.body, reply.etag.getD [])

/-- What is added to the contents of a book: the cards of a text, under an address and a version. -/
structure Entry where
  data : Str
  href : Str
  etag : Str
  deriving DecidableEq, Repr

def contentsOf (entries : List Entry) : BookContents Person Group :=
  entries.foldl (fun contents entry => c.add contents entry.data entry.href entry.etag) ⟨[], [], []⟩

def judgeListedEntry (from_ bookUrl : Str) (response : DavResponse) : Verdict Entry :=
  if c.isTheBook response bookUrl || response.resourceTypes.contains "collection" then .skip
  else
    match c.resolve from_ response.href with
    | .error e => .refuse e
    | .ok url =>
      match c.getCard bookUrl url with
      | .error e => .refuse e
      | .ok none => .failed (response.href ++ " could not be read")
      | .ok (some (body, etag)) =>
        .kept ⟨body, url, if etag.isEmpty then (response.prop "getetag").getD [] else etag⟩

def fetchCardsOneAtATime (bookUrl : Str) : Except Str (BookContents Person Group) :=
  c.listBook bookUrl (fun reply responses => do
    let entries ← readAll (c.judgeListedEntry reply.url bookUrl) incomplete responses
    return c.contentsOf entries)

def judgeEntry (from_ bookUrl : Str) (response : DavResponse) : Verdict Entry :=
  if c.isTheBook response bookUrl then .skip
  else
    match c.cardData response with
    | none => .failed (noCard response)
    | some data =>
      match c.resolve from_ response.href with
      | .error e => .refuse e
      | .ok href => .kept ⟨data, href, (response.prop "getetag").getD []⟩

def fetchBookContents (bookUrl : Str) : Except Str (BookContents Person Group) := do
  let reply ← c.send (cardsReport bookUrl)
  if reply.status = 401 ∨ reply.status = 403 then .error refusedCredentials
  else if 300 ≤ reply.status then c.fetchCardsOneAtATime bookUrl
  else
    let responses ← parseMultistatusComplete c.xml reply.body
    let entries ← readAll (c.judgeEntry reply.url bookUrl) incomplete responses
    return c.contentsOf entries

/-! ## A calendar -/

def calendarQuery (calendarUrl : Str) (body : String) : DavRequest := ⟨"REPORT", calendarUrl, some "1", some body⟩

def calendarData (response : DavResponse) : Option Str :=
  (response.prop "calendar-data").filter (fun data => Text.contains data "BEGIN:VCALENDAR")

def judgeObject (from_ calendarUrl : Str) (response : DavResponse) : Verdict Object :=
  if c.isTheBook response calendarUrl then .skip
  else
    match calendarData response with
    | none => .failed response.href
    | some ics =>
      match c.resolve from_ response.href with
      | .error e => .refuse e
      | .ok href =>
        if !c.sameOrigin href calendarUrl then .failed response.href
        else .kept ⟨href, (response.prop "getetag").getD [], ics⟩

def incompleteQuery (what : String) (failed : List Str) (total : Nat) : Str :=
  Decimal.ofNat failed.length ++ " of " ++ Decimal.ofNat total ++ ' ' :: what.toList ++
    " could not be read (first: " ++ failed.head?.getD [] ++ "); the last complete copy is kept"

def query (calendarUrl : Str) (body what : String) : Except Str (List Object) := do
  let reply ← c.send (calendarQuery calendarUrl body)
  if reply.status = 401 ∨ reply.status = 403 then .error refusedCredentials
  else if reply.status = 404 ∨ reply.status = 410 then .error "this calendar is no longer on the server"
  else if 300 ≤ reply.status then
    .error ("the server would not list the calendar (HTTP " ++ Decimal.ofNat reply.status ++ [')'])
  else
    let responses ← parseMultistatusComplete c.xml reply.body
    readAll (c.judgeObject reply.url calendarUrl) (incompleteQuery what) responses

def windowBody (from_ to_ : Int) : String :=
  r#"<?xml version="1.0" encoding="utf-8"?>
<c:calendar-query xmlns:d="DAV:" xmlns:c="urn:ietf:params:xml:ns:caldav">
  <d:prop><d:getetag/><c:calendar-data/></d:prop>
  <c:filter><c:comp-filter name="VCALENDAR"><c:comp-filter name="VEVENT">
    <c:time-range start=""# ++ c.stamp from_ ++ r#"" end=""# ++ c.stamp to_ ++ r#""/>
  </c:comp-filter></c:comp-filter></c:filter>
</c:calendar-query>"#

/-- Every object with an occurrence in `[from, to)`. -/
def fetchWindow (calendarUrl : Str) (from_ to_ : Int) : Except Str (List Object) :=
  c.query calendarUrl (c.windowBody from_ to_) "events"

def todosBody : String := r#"<?xml version="1.0" encoding="utf-8"?>
<c:calendar-query xmlns:d="DAV:" xmlns:c="urn:ietf:params:xml:ns:caldav">
  <d:prop><d:getetag/><c:calendar-data/></d:prop>
  <c:filter><c:comp-filter name="VCALENDAR"><c:comp-filter name="VTODO"/></c:comp-filter></c:filter>
</c:calendar-query>"#

/-- Every task in a collection. -/
def fetchTodos (calendarUrl : Str) : Except Str (List Object) := c.query calendarUrl todosBody "tasks"

end Client

end Oreneta.Dav

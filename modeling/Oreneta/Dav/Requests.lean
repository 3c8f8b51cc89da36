import Oreneta.Dav.Readers
import Oreneta.Lib.Talk

/-!
# The requests of the DAV clients

`carddav/client.rs` and `calendar/caldav.rs` as programs that ask the server one request after another, any of
which may be answered by anything.

* `Carddav.fetchBook`, `Carddav.fetchBookContents`, `Caldav.query` — a collection read.
* `getItem`, `putItem`, `deleteItem` — one card or object, with the wording of each client.
* `fetchBook_answered` and the like — with a server that answers every request alike these are the readers.
-/

namespace Oreneta.Dav

open Text AllOrNothing Talk List

structure Request extends DavRequest where
  headers : List (String × Str)
  deriving DecidableEq, Repr

def DavRequest.plain (request : DavRequest) : Request := ⟨request, []⟩

abbrev Asking (α : Type) : Type := Talk Request HttpReply Str α

variable {Person Group : Type} (c : Client Person Group)

/-! ## A list read whole or not at all -/

def tallyAsked {ι κ : Type} (judge : ι → Asking (Verdict κ)) : List ι → Tally κ → Asking (Tally κ)
  | [], t => pure t
  | i :: items, t => do
    match ← judge i with
    | .skip => tallyAsked judge items t
    | .refuse error => fail error
    | .failed what => tallyAsked judge items { t with failed := t.failed ++ [what], total := t.total + 1 }
    | .kept x => tallyAsked judge items { t with kept := t.kept ++ [x], total := t.total + 1 }

def readAsked {ι κ : Type} (judge : ι → Asking (Verdict κ)) (incomplete : List Str → Nat → Str) (items : List ι) :
    Asking (List κ) := do
  let t ← tallyAsked judge items ⟨[], [], 0⟩
  if t.failed.isEmpty then pure t.kept else fail (incomplete t.failed t.total)

/-- A result that needs no request. -/
def given {α : Type} (result : Except Str α) : Asking α := done result

/-! ## One item -/

/-- What the two clients say, and what they call an item. -/
structure Wording where
  away : String
  unsent : String
  unknown : String
  refused : String
  unsaved : String
  undeleted : String
  contentType : String

def httpError (text : String) (status : Nat) : Str := text.toList ++ " (HTTP " ++ Decimal.ofNat status ++ [')']

inductive Written where
  /-- The new version, when the server sent one. -/
  | saved (etag : Option Str)
  | conflict
  deriving DecidableEq, Repr

section Item

variable (w : Wording) (root url : Str)

/-- One item and its version, or nothing when it is not there. -/
def getItem : Asking (Option (Str × Str)) :=
  if !c.sameOrigin url root then fail w.away.toList
  else do
    let reply ← send (getRequest url).plain
    if reply.status = 401 ∨ reply.status = 403 then fail refusedCredentials
    else if reply.status = 404 ∨ reply.status = 410 then pure none
    else if 300 ≤ reply.status then fail (httpError w.unsent reply.status)
    else pure (some (reply.body, reply.etag.getD []))

def putRequest (body : Str) (condition : String × Str) : Request :=
  ⟨⟨"PUT", url, none, some (String.ofList body)⟩, [("Content-Type", w.contentType.toList), condition]⟩

/-- Over the version `ifMatch` names, or, without one, only where nothing is yet. -/
def putItem (body : Str) (ifMatch : Option Str) : Asking Written :=
  if !c.sameOrigin url root then fail w.away.toList
  else
    match ifMatch with
    | some [] => fail w.unknown.toList
    | condition => do
      let header := match condition with
        | some etag => ("If-Match", etag)
        | none => ("If-None-Match", ['*'])
      let reply ← send (putRequest w url body header)
      if reply.status = 412 then pure .conflict
      else if reply.status = 401 ∨ reply.status = 403 then fail w.refused.toList
      else if 300 ≤ reply.status then fail (httpError w.unsaved reply.status)
      else pure (.saved reply.etag)

def deleteRequest (etag : Str) : Request := ⟨⟨"DELETE", url, none, none⟩, [("If-Match", etag)]⟩

/-- One that is already gone counts as deleted. -/
def deleteItem (etag : Str) : Asking Written :=
  if !c.sameOrigin url root then fail w.away.toList
  else if etag = [] then fail w.unknown.toList
  else do
    let reply ← send (deleteRequest url etag)
    if reply.status = 412 then pure .conflict
    else if reply.status = 404 ∨ reply.status = 410 then pure (.saved none)
    else if reply.status = 401 ∨ reply.status = 403 then fail w.refused.toList
    else if 300 ≤ reply.status then fail (httpError w.undeleted reply.status)
    else pure (.saved none)

end Item

/-! ## An address book -/

namespace Carddav

def wording : Wording where
  away := "that contact is not on this address book's server; nothing was sent"
  unsent := "the server would not send the card"
  unknown := "this contact's version on the server is not known yet; sync the address book and try again"
  refused := "the server refused to change this address book"
  unsaved := "the server did not save the contact"
  undeleted := "the server did not delete the contact"
  contentType := "text/vcard; charset=utf-8"

def getCard (bookUrl cardUrl : Str) : Asking (Option (Str × Str)) := getItem c wording bookUrl cardUrl

def putCard (bookUrl cardUrl card : Str) (ifMatch : Option Str) : Asking Written :=
  putItem c wording bookUrl cardUrl card ifMatch

def deleteCard (bookUrl cardUrl etag : Str) : Asking Written := deleteItem c wording bookUrl cardUrl etag

def listBook {α : Type} (bookUrl : Str) (read : HttpReply → List DavResponse → Asking α) : Asking α := do
  let reply ← send (cardsList bookUrl).plain
  if reply.status = 401 ∨ reply.status = 403 then fail refusedCredentials
  else if 300 ≤ reply.status then fail (httpError "the server would not list the address book" reply.status)
  else do
    let responses ← given (parseMultistatusComplete c.xml reply.body)
    read reply responses

def judgeListed (from_ bookUrl : Str) (response : DavResponse) : Asking (Verdict (List Person)) :=
  if c.isTheBook response bookUrl then pure .skip
  else if response.resourceTypes.contains "collection" then pure .skip
  else
    match c.resolve from_ response.href with
    | .error e => pure (.refuse e)
    | .ok url =>
      if !c.sameOrigin url bookUrl then
        pure (.refuse ("the address book listed a card on another server (" ++ (c.host url).getD [] ++
          "); nothing was sent there and the last complete copy is kept"))
      else do
        let answer ← (send (getRequest url).plain).attempt
        match answer with
        | .error e => pure (.refuse e)
        | .ok reply =>
          if reply.status = 401 ∨ reply.status = 403 then pure (.refuse refusedCredentials)
          else if 300 ≤ reply.status then
            pure (.failed (response.href ++ " HTTP " ++ Decimal.ofNat reply.status))
          else if (Contacts.splitCards c.upper reply.body).isEmpty then
            pure (.failed (response.href ++ " is not a vCard"))
          else pure (.kept (c.peopleFromVcards reply.body))

def fetchBookOneAtATime (bookUrl : Str) : Asking (List Person) :=
  listBook c bookUrl fun reply responses => do
    let people ← readAsked (judgeListed c reply.url bookUrl) incomplete responses
    pure people.flatten

def fetchBook (bookUrl : Str) : Asking (List Person) := do
  let reply ← send (cardsReport bookUrl).plain
  if reply.status = 401 ∨ reply.status = 403 then fail refusedCredentials
  else if reply.status < 300 then do
    let responses ← given (parseMultistatusComplete c.xml reply.body)
    let cards ← given (readAll (c.judgeCard bookUrl) incomplete responses)
    pure (c.peopleFromVcards (cards.flatMap (fun data => data ++ ['\n'])))
  else fetchBookOneAtATime c bookUrl

def judgeListedEntry (from_ bookUrl : Str) (response : DavResponse) : Asking (Verdict Client.Entry) :=
  if c.isTheBook response bookUrl || response.resourceTypes.contains "collection" then pure .skip
  else
    match c.resolve from_ response.href with
    | .error e => pure (.refuse e)
    | .ok url => do
      let answer ← (getCard c bookUrl url).attempt
      match answer with
      | .error e => pure (.refuse e)
      | .ok none => pure (.failed (response.href ++ " could not be read"))
      | .ok (some (body, etag)) =>
        pure (.kept ⟨body, url, if etag.isEmpty then (response.prop "getetag").getD [] else etag⟩)

def fetchCardsOneAtATime (bookUrl : Str) : Asking (BookContents Person Group) :=
  listBook c bookUrl fun reply responses => do
    let entries ← readAsked (judgeListedEntry c reply.url bookUrl) incomplete responses
    pure (c.contentsOf entries)

def fetchBookContents (bookUrl : Str) : Asking (BookContents Person Group) := do
  let reply ← send (cardsReport bookUrl).plain
  if reply.status = 401 ∨ reply.status = 403 then fail refusedCredentials
  else if 300 ≤ reply.status then fetchCardsOneAtATime c bookUrl
  else do
    let responses ← given (parseMultistatusComplete c.xml reply.body)
    let entries ← given (readAll (c.judgeEntry reply.url bookUrl) incomplete responses)
    pure (c.contentsOf entries)

end Carddav

/-! ## A calendar -/

namespace Caldav

def wording : Wording where
  away := "that event is not on this calendar's server; nothing was sent"
  unsent := "the server would not send the event"
  unknown := "this event's version on the server is not known yet; refresh the calendar and try again"
  refused := "the server refused to change this calendar"
  unsaved := "the server did not save the event"
  undeleted := "the server did not delete the event"
  contentType := "text/calendar; charset=utf-8"

def getObject (calendarUrl href : Str) : Asking (Option (Str × Str)) := getItem c wording calendarUrl href

def putObject (calendarUrl href ics : Str) (ifMatch : Option Str) : Asking Written :=
  putItem c wording calendarUrl href ics ifMatch

def deleteObject (calendarUrl href etag : Str) : Asking Written := deleteItem c wording calendarUrl href etag

def query (calendarUrl : Str) (body what : String) : Asking (List Object) := do
  let reply ← send (Client.calendarQuery calendarUrl body).plain
  if reply.status = 401 ∨ reply.status = 403 then fail refusedCredentials
  else if reply.status = 404 ∨ reply.status = 410 then fail "this calendar is no longer on the server"
  else if 300 ≤ reply.status then fail (httpError "the server would not list the calendar" reply.status)
  else do
    let responses ← given (parseMultistatusComplete c.xml reply.body)
    given (readAll (c.judgeObject reply.url calendarUrl) (Client.incompleteQuery what) responses)

end Caldav

/-! ## A server that answers alike -/

section Answered

/-- The server of a client. -/
def Client.server (request : Request) : Except Str HttpReply := c.send request.toDavRequest

variable {c}

@[simp]
theorem answered_given {α : Type} (server : Request → Except Str HttpReply) (result : Except Str α) :
    (given result).answered server = result := rfl

theorem answered_attempt {α : Type} (server : Request → Except Str HttpReply) : ∀ t : Asking α,
    t.attempt.answered server = .ok (t.answered server)
  | done _ => rfl
  | ask q next => answered_attempt server (next (server q))

theorem tallyAsked_answered {ι κ : Type} {server : Request → Except Str HttpReply} {asked : ι → Asking (Verdict κ)}
    {judge : ι → Verdict κ} (h : ∀ i, (asked i).answered server = .ok (judge i)) : ∀ (items : List ι) (t : Tally κ),
    (tallyAsked asked items t).answered server = tally judge items t
  | [], _ => rfl
  | i :: items, t => by
    unfold tallyAsked tally
    rw [answered_bind, h]
    cases judge i with
    | skip => exact tallyAsked_answered h items t
    | refuse error => rfl
    | failed what => exact tallyAsked_answered h items _
    | kept x => exact tallyAsked_answered h items _

theorem readAsked_answered {ι κ : Type} {server : Request → Except Str HttpReply} {asked : ι → Asking (Verdict κ)}
    {judge : ι → Verdict κ} (h : ∀ i, (asked i).answered server = .ok (judge i)) (incomplete : List Str → Nat → Str)
    (items : List ι) : (readAsked asked incomplete items).answered server = readAll judge incomplete items := by
  unfold readAsked readAll
  rw [answered_bind, tallyAsked_answered h]
  cases tally judge items ⟨[], [], 0⟩ with
  | error e => rfl
  | ok t =>
    simp only
    show (if t.failed.isEmpty = true then pure t.kept else fail (incomplete t.failed t.total) : Asking (List κ)).answered server = _
    split <;> rfl

theorem getCard_answered (bookUrl cardUrl : Str) :
    (Carddav.getCard c bookUrl cardUrl).answered c.server = c.getCard bookUrl cardUrl := by
  unfold Carddav.getCard getItem Client.getCard
  split
  · rfl
  rw [answered_bind]
  refine congrArg _ (funext fun reply => ?_)
  split
  · rfl
  split
  · rfl
  split
  · rfl
  · rfl

theorem judgeListed_answered (from_ bookUrl : Str) (response : DavResponse) :
    (Carddav.judgeListed c from_ bookUrl response).answered c.server = .ok (c.judgeListed from_ bookUrl response) := by
  unfold Carddav.judgeListed Client.judgeListed
  split
  · rfl
  split
  · rfl
  cases c.resolve from_ response.href with
  | error e => rfl
  | ok url =>
    simp only
    split
    · rfl
    rw [answered_bind, answered_attempt, answered_send]
    have hsend : c.server (getRequest url).plain = c.send (getRequest url) := rfl
    rw [hsend]
    cases c.send (getRequest url) with
    | error e => rfl
    | ok reply =>
      show (if reply.status = 401 ∨ reply.status = 403 then _ else _ : Asking (Verdict (List Person))).answered c.server = _
      simp only
      split
      · rfl
      split
      · rfl
      split
      · rfl
      · rfl

theorem judgeListedEntry_answered (from_ bookUrl : Str) (response : DavResponse) :
    (Carddav.judgeListedEntry c from_ bookUrl response).answered c.server = .ok (c.judgeListedEntry from_ bookUrl response) := by
  unfold Carddav.judgeListedEntry Client.judgeListedEntry
  split
  · rfl
  cases c.resolve from_ response.href with
  | error e => rfl
  | ok url =>
    simp only
    rw [answered_bind, answered_attempt, getCard_answered]
    cases c.getCard bookUrl url with
    | error e => rfl
    | ok found => cases found <;> rfl

theorem listBook_answered {α : Type} {asked : HttpReply → List DavResponse → Asking α}
    {read : HttpReply → List DavResponse → Except Str α}
    (h : ∀ reply responses, (asked reply responses).answered c.server = read reply responses) (bookUrl : Str) :
    (Carddav.listBook c bookUrl asked).answered c.server = c.listBook bookUrl read := by
  unfold Carddav.listBook Client.listBook
  rw [answered_bind]
  refine congrArg _ (funext fun reply => ?_)
  split
  · rfl
  split
  · rw [answered_fail, httpError, append_assoc, append_assoc]
    rfl
  · rw [answered_bind]
    exact congrArg _ (funext fun responses => h reply responses)

/-- **The readers of an address book are these programs with a server that answers alike.** -/
theorem fetchBook_answered (bookUrl : Str) : (Carddav.fetchBook c bookUrl).answered c.server = c.fetchBook bookUrl := by
  have hlong : (Carddav.fetchBookOneAtATime c bookUrl).answered c.server = c.fetchBookOneAtATime bookUrl := by
    refine listBook_answered (fun reply responses => ?_) bookUrl
    rw [answered_bind, readAsked_answered (judgeListed_answered reply.url bookUrl)]
    rfl
  unfold Carddav.fetchBook Client.fetchBook
  rw [answered_bind]
  refine congrArg _ (funext fun reply => ?_)
  split
  · rfl
  split
  · rw [answered_bind]
    refine congrArg _ (funext fun responses => ?_)
    rw [answered_bind]
    rfl
  · exact hlong

theorem fetchBookContents_answered (bookUrl : Str) :
    (Carddav.fetchBookContents c bookUrl).answered c.server = c.fetchBookContents bookUrl := by
  have hlong : (Carddav.fetchCardsOneAtATime c bookUrl).answered c.server = c.fetchCardsOneAtATime bookUrl := by
    refine listBook_answered (fun reply responses => ?_) bookUrl
    rw [answered_bind, readAsked_answered (judgeListedEntry_answered reply.url bookUrl)]
    rfl
  unfold Carddav.fetchBookContents Client.fetchBookContents
  rw [answered_bind]
  refine congrArg _ (funext fun reply => ?_)
  split
  · rfl
  split
  · exact hlong
  · rw [answered_bind]
    refine congrArg _ (funext fun responses => ?_)
    rw [answered_bind]
    rfl

theorem query_answered (calendarUrl : Str) (body what : String) :
    (Caldav.query c calendarUrl body what).answered c.server = c.query calendarUrl body what := by
  unfold Caldav.query Client.query
  rw [answered_bind]
  refine congrArg _ (funext fun reply => ?_)
  split
  · rfl
  split
  · rfl
  split
  · rw [answered_fail, httpError, append_assoc, append_assoc]
    rfl
  · rw [answered_bind]
    rfl

end Answered

end Oreneta.Dav

import Mathlib.Data.List.Destutter
import Oreneta.Dav.Requests

/-!
# Finding the collections, and where the password goes

`discover` of `carddav/client.rs` and `calendar/caldav.rs`: who am I, where are my collections, which are they.
Every request carries the password, so it is asked only where `credentialsMayFollow` from where the last answer
came from; that is where the server redirected the request to.

* `discover` — the chain, for either `Service`.
* `follows_trans`, `discover_holds` — as long as every answer comes from where the password may follow to, so
  does every request of the chain.
* `itemOnly`, `collectionOnly` — the later requests go to the origin of the collection, whatever the answers.
* `password_kept` — both together.
-/

namespace Oreneta.Dav

open Text AllOrNothing Talk List Option

variable {Person Group : Type}

/-- More of the `url` crate. -/
structure Web (c : Client Person Group) where
  scheme : Str → Option String
  /-- `Url::parse(s)?.to_string()`. -/
  parse : Str → Except Str Str
  /-- An origin begins with the scheme. -/
  sameScheme : ∀ a b, c.sameOrigin a b = true → scheme a = scheme b
  hasOrigin : ∀ a s, scheme a = some s → s = "http" ∨ s = "https" → (c.origin a).isSome = true

variable (c : Client Person Group) (w : Web c)

def startingPointFor (input wellKnown : Str) : Except Str Str :=
  let trimmed := trim input
  if trimmed = [] then .error "no server given"
  else if "http://".toList.isPrefixOf trimmed || "https://".toList.isPrefixOf trimmed then
    match w.parse trimmed with
    | .error _ => .error "that does not look like a URL"
    | .ok url => .ok url
  else
    let host := match rsplitOnce '@' trimmed with
      | some (_, domain) => domain
      | none => trimmed
    match w.parse ("https://" ++ host) with
    | .error _ => .error "that does not look like a server"
    | .ok url => c.join url wellKnown

/-- Whether the password may go from one address to another. -/
def credentialsMayFollow (from_ to_ : Str) : Bool :=
  match w.scheme from_, w.scheme to_ with
  | some a, some b => if a = "https" ∧ b ≠ "https" then false else if c.sameOrigin from_ to_ then true else b = "https"
  | _, _ => false

def resolveTrusted (base href : Str) : Except Str Str :=
  match c.resolve base href with
  | .error e => .error e
  | .ok url =>
    if !credentialsMayFollow c w base url then
      .error ("the server pointed somewhere the password must not go (" ++ (c.host url).getD [] ++
        "); nothing was sent there")
    else .ok url

/-- A name for a collection the server did not name. -/
def nameFromUrl (url : Str) : Str :=
  match c.path url with
  | some ('/' :: path) => ((path.splitOn '/').filter (fun part => part ≠ [])).getLast?.getD "Contacts"
  | _ => "Contacts"

def propfind (url : Str) (depth body : String) : Asking (List DavResponse × Str) := do
  let reply ← send (DavRequest.plain ⟨"PROPFIND", url, some depth, some body⟩)
  if reply.status = 401 ∨ reply.status = 403 then fail refusedCredentials
  else pure ((readMultistatus c.xml reply.body).1, reply.url)

/-- The first href nested in a property. -/
def DavResponse.propHref (response : DavResponse) (name : String) : Option Str :=
  (response.propHrefs.find? (fun entry => entry.1 == name)).map Prod.snd

/-! ## The chain -/

/-- What the two clients look for. -/
structure Service (α : Type) where
  wellKnown : Str
  homeBody : String
  homeProp : String
  listBody : String
  /-- The type of resource. -/
  kind : String
  collection : DavResponse → Str → α
  url : α → Str
  notFound : String

def propPrincipal : String := r#"<?xml version="1.0" encoding="utf-8"?>
<d:propfind xmlns:d="DAV:"><d:prop><d:current-user-principal/></d:prop></d:propfind>"#

section Chain

variable {α : Type} (service : Service α)

/-- Where a property of an answer leads; nowhere when no response has it. -/
def followed (found : Except Str (List DavResponse × Str)) (prop : String) : Except Str Str :=
  match found with
  | .error e => .error e
  | .ok (responses, from_) =>
    match responses.findSome? (fun response => response.propHref prop) with
    | none => .ok []
    | some href => resolveTrusted c w from_ href

def urlOf : Except Str Str → Str
  | .ok url => url
  | .error _ => []

def errorOf : Except Str Str → Option Str
  | .ok _ => none
  | .error e => some e

/-- Where the collections live: the first of the candidates that says so.  The first refusal is remembered. -/
def findHome : List Str → Option Str → Asking (Str × Option Str)
  | [], refusal => pure ([], refusal)
  | candidate :: rest, refusal =>
    if candidate = [] then findHome rest refusal
    else do
      let found ← (propfind c candidate "0" service.homeBody).attempt
      let home := followed c w found service.homeProp
      if urlOf home ≠ [] then pure (urlOf home, refusal <|> errorOf home)
      else findHome rest (refusal <|> errorOf home)

/-- The collections of an answer; one the password may not follow to is not offered. -/
def offered (responses : List DavResponse) (from_ : Str) : List α :=
  responses.filterMap fun response =>
    if !response.resourceTypes.contains service.kind then none
    else
      match resolveTrusted c w from_ response.href with
      | .error _ => none
      | .ok url => some (service.collection response url)

def discover (input : Str) : Asking (List α) := do
  let start ← given (startingPointFor c w input service.wellKnown)
  let found ← (propfind c start "0" propPrincipal).attempt
  let principal := followed c w found "current-user-principal"
  let (home, refusal) ← findHome c w service [urlOf principal, start] (errorOf principal)
  let listing ← (propfind c (if home = [] then start else home) "1" service.listBody).attempt
  match listing with
  | .error e => fail (refusal.getD e)
  | .ok (responses, from_) =>
    let collections := offered c w service responses from_
    if collections = [] then fail (refusal.getD service.notFound.toList)
    else pure (collections.destutter (fun a b => service.url a ≠ service.url b))

end Chain

namespace Carddav

structure AddressBook where
  url : Str
  name : Str
  /-- The server's token for "has anything changed". -/
  ctag : Str
  deriving DecidableEq, Repr

def displayName (response : DavResponse) (url : Str) : Str :=
  (((response.prop "displayname").map trim).filter (fun name => name ≠ [])).getD (nameFromUrl c url)

def service : Service AddressBook where
  wellKnown := "/.well-known/carddav"
  homeBody := r#"<?xml version="1.0" encoding="utf-8"?>
<d:propfind xmlns:d="DAV:" xmlns:card="urn:ietf:params:xml:ns:carddav">
  <d:prop><card:addressbook-home-set/></d:prop></d:propfind>"#
  homeProp := "addressbook-home-set"
  listBody := r#"<?xml version="1.0" encoding="utf-8"?>
<d:propfind xmlns:d="DAV:" xmlns:cs="http://calendarserver.org/ns/">
  <d:prop><d:resourcetype/><d:displayname/><cs:getctag/></d:prop></d:propfind>"#
  kind := "addressbook"
  collection response url := ⟨url, displayName c response url, (response.prop "getctag").getD []⟩
  url := AddressBook.url
  notFound := "no address book was found on that server"

def discover (input : Str) : Asking (List AddressBook) := Dav.discover c w (service c) input

end Carddav

namespace Caldav

structure RemoteCalendar where
  url : Str
  name : Str
  color : Option Str
  /-- What the privileges say, when there are any. -/
  writable : Option Bool
  components : Option (List Str)
  deriving DecidableEq, Repr

def service : Service RemoteCalendar where
  wellKnown := "/.well-known/caldav"
  homeBody := r#"<?xml version="1.0" encoding="utf-8"?>
<d:propfind xmlns:d="DAV:" xmlns:c="urn:ietf:params:xml:ns:caldav">
  <d:prop><c:calendar-home-set/></d:prop></d:propfind>"#
  homeProp := "calendar-home-set"
  listBody := r#"<?xml version="1.0" encoding="utf-8"?>
<d:propfind xmlns:d="DAV:" xmlns:a="http://apple.com/ns/ical/" xmlns:c="urn:ietf:params:xml:ns:caldav">
  <d:prop><d:resourcetype/><d:displayname/><a:calendar-color/><d:current-user-privilege-set/><c:supported-calendar-component-set/></d:prop>
</d:propfind>"#
  kind := "calendar"
  collection response url :=
    { url
      name := Carddav.displayName c response url
      color := (((response.prop "calendar-color").map (fun color => (trim color).take 7)).filter
        (fun color => color.head? = some '#' && byteLength color = 7))
      writable :=
        if response.privileges.isEmpty then none
        else some (response.privileges.any (fun p => p = "write" || p = "write-content" || p = "all"))
      components := response.components }
  url := RemoteCalendar.url
  notFound := "no calendar was found on that server"

def discover (input : Str) : Asking (List RemoteCalendar) := Dav.discover c w (service c) input

end Caldav

/-! ## Where the password may go -/

variable {c w}

theorem follows_iff {a b : Str} : credentialsMayFollow c w a b = true ↔ ∃ sa sb, w.scheme a = some sa ∧ w.scheme b = some sb ∧
    (sa = "https" → sb = "https") ∧ (c.sameOrigin a b = true ∨ sb = "https") := by
  unfold credentialsMayFollow
  cases w.scheme a with
  | none => simp
  | some sa =>
    cases w.scheme b with
    | none => simp
    | some sb =>
      simp only [some.injEq, exists_and_left, exists_eq_left']
      split
      · rename_i h
        exact ⟨fun he => absurd he Bool.false_ne_true, fun he => absurd (he.1 h.1) h.2⟩
      · rename_i h
        have hdown : sa = "https" → sb = "https" := fun ha => Decidable.byContradiction fun hb => h ⟨ha, hb⟩
        split
        · rename_i horigin
          exact ⟨fun _ => ⟨hdown, .inl horigin⟩, fun _ => rfl⟩
        · rename_i horigin
          rw [decide_eq_true_eq]
          exact ⟨fun hb => ⟨hdown, .inr hb⟩, fun he => he.2.resolve_left horigin⟩

theorem sameOrigin_trans {a b d : Str} (h : c.sameOrigin a b = true) (h' : c.sameOrigin b d = true) :
    c.sameOrigin a d = true := by
  unfold Client.sameOrigin at h h' ⊢
  cases ha : c.origin a with
  | none => simp [ha] at h
  | some oa =>
    cases hb : c.origin b with
    | none => simp [hb] at h'
    | some ob =>
      cases hd : c.origin d with
      | none => simp [hb, hd] at h'
      | some od =>
        simp only [ha, hb, hd, beq_iff_eq] at h h' ⊢
        exact h.trans h'

theorem follows_trans {a b d : Str} (h : credentialsMayFollow c w a b = true) (h' : credentialsMayFollow c w b d = true) :
    credentialsMayFollow c w a d = true := by
  obtain ⟨sa, sb, ha, hb, hdown, horigin⟩ := follows_iff.mp h
  obtain ⟨sb', sd, hb', hd, hdown', horigin'⟩ := follows_iff.mp h'
  obtain rfl : sb = sb' := some.inj (hb.symm.trans hb')
  refine follows_iff.mpr ⟨sa, sd, ha, hd, fun hs => hdown' (hdown hs), ?_⟩
  rcases horigin' with hsame' | hsecure'
  · rcases horigin with hsame | hsecure
    · exact .inl (sameOrigin_trans hsame hsame')
    · exact .inr (hdown' hsecure)
  · exact .inr hsecure'

/-- Where a request may go that carries the password of the server at `start`. -/
structure Guarded (c : Client Person Group) (w : Web c) (start url : Str) : Prop where
  secure : w.scheme start = some "https" → w.scheme url = some "https"
  plain : w.scheme start = some "http" → c.sameOrigin start url = true ∨ w.scheme url = some "https"

/-- The starting point, and where the password may follow from it. -/
def Trusted (c : Client Person Group) (w : Web c) (start url : Str) : Prop := url = start ∨ credentialsMayFollow c w start url = true

theorem Trusted.guarded {start url : Str} (h : Trusted c w start url) : Guarded c w start url := by
  rcases h with rfl | h
  · refine ⟨id, fun hs => .inl ?_⟩
    obtain ⟨o, ho⟩ := isSome_iff_exists.mp (w.hasOrigin _ _ hs (.inl rfl))
    unfold Client.sameOrigin
    simp [ho]
  · obtain ⟨sa, sb, ha, hb, hdown, horigin⟩ := follows_iff.mp h
    constructor
    · intro hs
      rw [hs] at ha
      rw [hb, hdown (some.inj ha).symm]
    · intro _
      rcases horigin with hsame | hsecure
      · exact .inl hsame
      · exact .inr (hsecure ▸ hb)

theorem Trusted.follow {start a b : Str} (h : Trusted c w start a) (hfollow : credentialsMayFollow c w a b = true) :
    credentialsMayFollow c w start b = true := by
  rcases h with rfl | h
  · exact hfollow
  · exact follows_trans h hfollow

theorem resolveTrusted_ok {base href url : Str} (h : resolveTrusted c w base href = .ok url) :
    credentialsMayFollow c w base url = true := by
  unfold resolveTrusted at h
  cases hr : c.resolve base href with
  | error e =>
    rw [hr] at h
    cases h
  | ok u =>
    rw [hr] at h
    simp only at h
    split at h
    · cases h
    · rename_i hno
      cases h
      simpa using hno

/-! ## The requests of the chain -/

/-- An answer that comes from where the password may follow to from where it was asked. -/
def Honest (c : Client Person Group) (w : Web c) (q : Request) (r : Except Str HttpReply) : Prop :=
  ∀ reply, r = .ok reply → credentialsMayFollow c w q.url reply.url = true

section Requests

variable {start : Str}

/-- A request to a trusted address, and where its answer comes from. -/
theorem propfind_holds {url : Str} (h : Trusted c w start url) (depth body : String) :
    (propfind c url depth body).Holds (Honest c w) (fun q => Trusted c w start q.url)
      (fun r => ∀ found, r = .ok found → credentialsMayFollow c w start found.2 = true) := by
  refine ⟨h, fun r hr => ?_⟩
  cases r with
  | error e => exact fun found hfound => by cases hfound
  | ok reply =>
    show Talk.Holds _ _ _ (if reply.status = 401 ∨ reply.status = 403 then fail refusedCredentials else _)
    split
    · exact fun found hfound => by cases hfound
    · rintro found hfound
      cases hfound
      exact h.follow (hr reply rfl)

theorem attempt_holds {url : Str} (h : Trusted c w start url) (depth body : String) :
    ((propfind c url depth body).attempt).Holds (Honest c w) (fun q => Trusted c w start q.url)
      (fun r => ∀ found, r = .ok found → ∀ f, found = .ok f → credentialsMayFollow c w start f.2 = true) := by
  refine Talk.Holds.attempt ((propfind_holds h depth body).mono (fun _ hq => hq) fun r hr found hfound => ?_)
  cases hfound
  exact hr

theorem followed_trusted {found : Except Str (List DavResponse × Str)} {prop : String}
    (h : ∀ f, found = .ok f → credentialsMayFollow c w start f.2 = true) (hne : urlOf (followed c w found prop) ≠ []) :
    Trusted c w start (urlOf (followed c w found prop)) := by
  cases found with
  | error e => exact absurd rfl hne
  | ok f =>
    obtain ⟨responses, from_⟩ := f
    unfold followed at hne ⊢
    simp only at hne ⊢
    cases hf : responses.findSome? (fun response => response.propHref prop) with
    | none =>
      rw [hf] at hne
      exact absurd rfl hne
    | some href =>
      rw [hf] at hne
      simp only at hne ⊢
      cases hr : resolveTrusted c w from_ href with
      | error e =>
        rw [hr] at hne
        exact absurd rfl hne
      | ok url => exact .inr (follows_trans (h _ rfl) (resolveTrusted_ok hr))

variable {α : Type} {service : Service α}

theorem findHome_holds : ∀ (candidates : List Str) (refusal : Option Str), (∀ url ∈ candidates, url ≠ [] → Trusted c w start url) →
    (findHome c w service candidates refusal).Holds (Honest c w) (fun q => Trusted c w start q.url)
      (fun r => ∀ found, r = .ok found → found.1 ≠ [] → Trusted c w start found.1)
  | [], _, _ => by
    rintro found hfound hne
    cases hfound
    exact absurd rfl hne
  | candidate :: rest, refusal, h => by
    have hrest : ∀ url ∈ rest, url ≠ [] → Trusted c w start url := fun url hurl => h url (mem_cons_of_mem _ hurl)
    unfold findHome
    split
    · exact findHome_holds rest refusal hrest
    · rename_i hne
      refine Talk.Holds.bind (fun _ _ he => nomatch he) (fun found hfound => ?_)
        (attempt_holds (h candidate mem_cons_self hne) "0" service.homeBody)
      simp only
      split
      · rename_i hurl
        rintro home hhome -
        cases hhome
        exact followed_trusted hfound hurl
      · exact findHome_holds rest _ hrest

/-- **Every request of the chain goes where the password may go, and so does every collection that is found.** -/
theorem discover_holds {input : Str} (hstart : startingPointFor c w input service.wellKnown = .ok start)
    (hurl : ∀ response url, service.url (service.collection response url) = url) :
    (discover c w service input).Holds (Honest c w) (fun q => Trusted c w start q.url)
      (fun r => ∀ found, r = .ok found → ∀ a ∈ found, Trusted c w start (service.url a)) := by
  have hhere : Trusted c w start start := .inl rfl
  unfold discover
  rw [hstart]
  show Talk.Holds _ _ _ ((propfind c start "0" propPrincipal).attempt >>= _)
  refine Talk.Holds.bind (fun _ _ he => nomatch he) (fun found hfound => ?_) (attempt_holds hhere "0" propPrincipal)
  refine Talk.Holds.bind (fun _ _ he => nomatch he) (fun home hhome => ?_)
    (findHome_holds [urlOf (followed c w found "current-user-principal"), start] _ ?_)
  · obtain ⟨home, refusal⟩ := home
    simp only at hhome ⊢
    have hroot : Trusted c w start (if home = [] then start else home) := by
      split
      · exact hhere
      · rename_i hne
        exact hhome hne
    refine Talk.Holds.bind (fun _ _ he => nomatch he) (fun listing hlisting => ?_) (attempt_holds hroot "1" service.listBody)
    cases listing with
    | error e => exact fun found hfound => by cases hfound
    | ok answer =>
      obtain ⟨responses, from_⟩ := answer
      simp only
      split
      · exact fun found hfound => by cases hfound
      · rintro found hfound a ha
        cases hfound
        obtain ⟨response, -, ha⟩ := mem_filterMap.mp ((destutter_sublist _ _).subset ha)
        split at ha
        · cases ha
        cases hr : resolveTrusted c w from_ response.href with
        | error e =>
          rw [hr] at ha
          cases ha
        | ok url =>
          rw [hr] at ha
          cases ha
          rw [hurl]
          exact .inr (follows_trans (hlisting _ rfl) (resolveTrusted_ok hr))
  · intro url hmem hne
    rcases mem_pair.mp hmem with rfl | rfl
    · exact followed_trusted hfound hne
    · exact hhere

end Requests

/-! ## The later requests -/

section Later

/-- Whatever the answers, every request meets `P`. -/
def AsksOnly {α : Type} (P : Request → Prop) (t : Asking α) : Prop := t.Holds (fun _ _ => True) P (fun _ => True)

variable {P : Request → Prop} {α β : Type}

theorem AsksOnly.bind {t : Asking α} {f : α → Asking β} (h : AsksOnly P t) (hf : ∀ a, AsksOnly P (f a)) : AsksOnly P (t >>= f) :=
  Talk.Holds.bind (fun _ => trivial) (fun a _ => hf a) (Talk.Holds.mono (fun _ hq => hq) (fun _ _ _ _ => trivial) h)

theorem asksOnly_done (r : Except Str α) : AsksOnly P (done r : Asking α) := trivial

theorem asksOnly_send {q : Request} (h : P q) : AsksOnly P (send q : Asking HttpReply) := ⟨h, fun _ _ => trivial⟩

theorem AsksOnly.attempt {t : Asking α} (h : AsksOnly P t) : AsksOnly P t.attempt := Talk.Holds.attempt h

theorem asksOnly_ite {p : Prop} [Decidable p] {t u : Asking α} (ht : AsksOnly P t) (hu : ¬ p → AsksOnly P u) :
    AsksOnly P (if p then t else u) := by
  split
  · exact ht
  · rename_i h
    exact hu h

theorem asksOnly_tally {ι κ : Type} {judge : ι → Asking (Verdict κ)} (h : ∀ i, AsksOnly P (judge i)) :
    ∀ (items : List ι) (t : Tally κ), AsksOnly P (tallyAsked judge items t)
  | [], _ => asksOnly_done _
  | i :: items, t => by
    refine (h i).bind fun verdict => ?_
    cases verdict with
    | skip => exact asksOnly_tally h items t
    | refuse e => exact asksOnly_done _
    | failed what => exact asksOnly_tally h items _
    | kept x => exact asksOnly_tally h items _

theorem asksOnly_readAsked {ι κ : Type} {judge : ι → Asking (Verdict κ)} (h : ∀ i, AsksOnly P (judge i))
    (incomplete : List Str → Nat → Str) (items : List ι) : AsksOnly P (readAsked judge incomplete items) :=
  (asksOnly_tally h items _).bind fun _ => asksOnly_ite (asksOnly_done _) fun _ => asksOnly_done _

/-- A request to the origin of a collection. -/
def AtHome (c : Client Person Group) (root : Str) (q : Request) : Prop := q.url = root ∨ c.sameOrigin q.url root = true

variable {wording : Wording} {root url : Str}

theorem atHome_of_guard {q : Request} (hurl : q.url = url) (h : ¬ (!c.sameOrigin url root) = true) : AtHome c root q := by
  rw [Bool.not_eq_true', Bool.not_eq_false] at h
  exact .inr (hurl ▸ h)

theorem getItem_only : AsksOnly (AtHome c root) (getItem c wording root url) := by
  refine asksOnly_ite (asksOnly_done _) fun h => ?_
  refine (asksOnly_send (atHome_of_guard rfl h)).bind fun reply => ?_
  exact asksOnly_ite (asksOnly_done _) fun _ => asksOnly_ite (asksOnly_done _) fun _ =>
    asksOnly_ite (asksOnly_done _) fun _ => asksOnly_done _

theorem putItem_only (body : Str) (ifMatch : Option Str) : AsksOnly (AtHome c root) (putItem c wording root url body ifMatch) := by
  refine asksOnly_ite (asksOnly_done _) fun h => ?_
  split
  · exact asksOnly_done _
  refine (asksOnly_send (atHome_of_guard rfl h)).bind fun reply => ?_
  exact asksOnly_ite (asksOnly_done _) fun _ => asksOnly_ite (asksOnly_done _) fun _ =>
    asksOnly_ite (asksOnly_done _) fun _ => asksOnly_done _

theorem deleteItem_only (etag : Str) : AsksOnly (AtHome c root) (deleteItem c wording root url etag) := by
  refine asksOnly_ite (asksOnly_done _) fun h => asksOnly_ite (asksOnly_done _) fun _ => ?_
  refine (asksOnly_send (atHome_of_guard rfl h)).bind fun reply => ?_
  exact asksOnly_ite (asksOnly_done _) fun _ => asksOnly_ite (asksOnly_done _) fun _ =>
    asksOnly_ite (asksOnly_done _) fun _ => asksOnly_ite (asksOnly_done _) fun _ => asksOnly_done _

theorem listBook_only {read : HttpReply → List DavResponse → Asking α}
    (h : ∀ reply responses, AsksOnly (AtHome c root) (read reply responses)) :
    AsksOnly (AtHome c root) (Carddav.listBook c root read) := by
  refine (asksOnly_send (.inl rfl)).bind fun reply => ?_
  refine asksOnly_ite (asksOnly_done _) fun _ => asksOnly_ite (asksOnly_done _) fun _ => ?_
  exact (asksOnly_done _).bind fun responses => h reply responses

theorem judgeListed_only (from_ : Str) (response : DavResponse) :
    AsksOnly (AtHome c root) (Carddav.judgeListed c from_ root response) := by
  refine asksOnly_ite (asksOnly_done _) fun _ => asksOnly_ite (asksOnly_done _) fun _ => ?_
  cases c.resolve from_ response.href with
  | error e => exact asksOnly_done _
  | ok url =>
    refine asksOnly_ite (asksOnly_done _) fun h => ?_
    refine (asksOnly_send (atHome_of_guard rfl h)).attempt.bind fun answer => ?_
    cases answer with
    | error e => exact asksOnly_done _
    | ok reply =>
      exact asksOnly_ite (asksOnly_done _) fun _ => asksOnly_ite (asksOnly_done _) fun _ =>
        asksOnly_ite (asksOnly_done _) fun _ => asksOnly_done _

theorem judgeListedEntry_only (from_ : Str) (response : DavResponse) :
    AsksOnly (AtHome c root) (Carddav.judgeListedEntry c from_ root response) := by
  refine asksOnly_ite (asksOnly_done _) fun _ => ?_
  cases c.resolve from_ response.href with
  | error e => exact asksOnly_done _
  | ok url =>
    refine getItem_only.attempt.bind fun answer => ?_
    cases answer with
    | error e => exact asksOnly_done _
    | ok found => cases found <;> exact asksOnly_done _

theorem fetchBook_only : AsksOnly (AtHome c root) (Carddav.fetchBook c root) := by
  refine (asksOnly_send (.inl rfl)).bind fun reply => ?_
  refine asksOnly_ite (asksOnly_done _) fun _ => ?_
  split
  · exact (asksOnly_done _).bind fun _ => (asksOnly_done _).bind fun _ => asksOnly_done _
  · exact listBook_only fun reply responses =>
      (asksOnly_readAsked (judgeListed_only reply.url) incomplete responses).bind fun _ => asksOnly_done _

theorem fetchBookContents_only : AsksOnly (AtHome c root) (Carddav.fetchBookContents c root) := by
  refine (asksOnly_send (.inl rfl)).bind fun reply => ?_
  refine asksOnly_ite (asksOnly_done _) fun _ => ?_
  split
  · exact listBook_only fun reply responses =>
      (asksOnly_readAsked (judgeListedEntry_only reply.url) incomplete responses).bind fun _ => asksOnly_done _
  · exact (asksOnly_done _).bind fun _ => (asksOnly_done _).bind fun _ => asksOnly_done _

theorem query_only (body what : String) : AsksOnly (AtHome c root) (Caldav.query c root body what) := by
  refine (asksOnly_send (.inl rfl)).bind fun reply => ?_
  exact asksOnly_ite (asksOnly_done _) fun _ => asksOnly_ite (asksOnly_done _) fun _ =>
    asksOnly_ite (asksOnly_done _) fun _ => (asksOnly_done _).bind fun _ => asksOnly_done _

end Later

/-! ## The password -/

section Password

/-- The request a program makes next. -/
def nextRequest {α : Type} : Asking α → Option Request
  | done _ => none
  | ask q _ => some q

/-- Every request of a run, the one that waits for its answer among them. -/
def requests {α : Type} (steps : List (Request × Except Str HttpReply)) (rest : Asking α) : List Request :=
  steps.map Prod.fst ++ (nextRequest rest).toList

theorem requests_hold {α : Type} {ok : Request → Except Str HttpReply → Prop} {P : Request → Prop} {post : Except Str α → Prop}
    {t rest : Asking α} {steps : List (Request × Except Str HttpReply)} (h : t.Holds ok P post) (hreach : t.Reaches steps rest)
    (hok : ∀ x ∈ steps, ok x.1 x.2) : (∀ q ∈ requests steps rest, P q) ∧ ∀ r, rest = done r → post r := by
  obtain ⟨hrest, hsteps⟩ := Talk.Holds.reaches hreach h hok
  constructor
  · intro q hq
    rcases mem_append.mp hq with hq | hq
    · obtain ⟨x, hx, rfl⟩ := mem_map.mp hq
      exact hsteps x hx
    · cases rest with
      | done r => cases hq
      | ask q' next =>
        obtain rfl := mem_singleton.mp hq
        exact hrest.1
  · rintro r rfl
    exact hrest

variable (c w) in
/-- A run of the chain in which no answer comes from where the password may not follow to. -/
structure Kept {α : Type} (service : Service α) : Prop where
  chain : ∀ input start, startingPointFor c w input service.wellKnown = .ok start → ∀ steps rest,
    (discover c w service input).Reaches steps rest → (∀ x ∈ steps, Honest c w x.1 x.2) →
      (∀ q ∈ requests steps rest, Guarded c w start q.url) ∧
        ∀ found, rest = done (.ok found) → ∀ a ∈ found, Guarded c w start (service.url a)

theorem kept_of_service {α : Type} {service : Service α} (hurl : ∀ response url, service.url (service.collection response url) = url) :
    Kept c w service := by
  refine ⟨fun input start hstart steps rest hreach hok => ?_⟩
  obtain ⟨hrequests, hfound⟩ := requests_hold (discover_holds hstart hurl) hreach hok
  exact ⟨fun q hq => (hrequests q hq).guarded, fun found he a ha => (hfound _ he found rfl a ha).guarded⟩

/-- The requests of a program go to the origin of a collection, whatever the answers. -/
def StaysAt {α : Type} (c : Client Person Group) (root : Str) (t : Asking α) : Prop :=
  ∀ steps rest, t.Reaches steps rest → ∀ q ∈ requests steps rest, AtHome c root q

theorem staysAt_of_only {α : Type} {root : Str} {t : Asking α} (h : AsksOnly (AtHome c root) t) : StaysAt c root t :=
  fun _ _ hreach => (requests_hold h hreach fun _ _ => trivial).1

variable (c w) in
/-- **Where the password goes**: in every run of the discovery whose answers all come from where the password may follow to,
and in every later run on a collection. -/
theorem password_kept : Kept c w (Carddav.service c) ∧ Kept c w (Caldav.service c) ∧
    ∀ root : Str, StaysAt c root (Carddav.fetchBook c root) ∧ StaysAt c root (Carddav.fetchBookContents c root) ∧
      (∀ url, StaysAt c root (Carddav.getCard c root url)) ∧
      (∀ url card ifMatch, StaysAt c root (Carddav.putCard c root url card ifMatch)) ∧
      (∀ url etag, StaysAt c root (Carddav.deleteCard c root url etag)) ∧
      (∀ body what, StaysAt c root (Caldav.query c root body what)) ∧
      (∀ href, StaysAt c root (Caldav.getObject c root href)) ∧
      (∀ href ics ifMatch, StaysAt c root (Caldav.putObject c root href ics ifMatch)) ∧
      ∀ href etag, StaysAt c root (Caldav.deleteObject c root href etag) := by
  refine ⟨kept_of_service fun _ _ => rfl, kept_of_service fun _ _ => rfl, fun root => ?_⟩
  refine ⟨staysAt_of_only fetchBook_only, staysAt_of_only fetchBookContents_only, fun _ => staysAt_of_only getItem_only,
    fun _ _ _ => staysAt_of_only (putItem_only _ _), fun _ _ => staysAt_of_only (deleteItem_only _),
    fun _ _ => staysAt_of_only (query_only _ _), fun _ => staysAt_of_only getItem_only,
    fun _ _ _ => staysAt_of_only (putItem_only _ _), fun _ _ => staysAt_of_only (deleteItem_only _)⟩

/-! ### A server that redirects -/

def schemeOf (url : Str) : Option String :=
  if "https://".toList.isPrefixOf url then some "https" else if "http://".toList.isPrefixOf url then some "http" else none

/-- Scheme and host, as the text begins with them. -/
def originOf (url : Str) : Option Str :=
  (schemeOf url).map fun scheme =>
    scheme.toList ++ "://" ++ ((url.drop (scheme.toList.length + 3)).takeWhile (fun c => c ≠ '/'))

/-- The events of an answer that names the principal. -/
def principalEvents : List Event :=
  [.start "multistatus" [], .start "response" [], .start "href" [], .text "/dav/", .end_ "href", .start "propstat" [],
    .start "prop" [], .start "current-user-principal" [], .start "href" [], .text "/me/", .end_ "href",
    .end_ "current-user-principal", .end_ "prop", .end_ "propstat", .end_ "response", .end_ "multistatus"]

def demoClient : Client Unit Unit where
  send _ := .error []
  xml _ := (principalEvents, false)
  path url := (originOf url).map (fun origin => url.drop origin.length)
  origin := originOf
  host _ := none
  join base href := .ok ((originOf base).getD [] ++ href)
  upper := id
  person _ := ()
  isUseful _ := true
  group _ := none
  stamp _ := ""

theorem originOf_scheme {a o : Str} (h : originOf a = some o) : ∃ scheme, schemeOf a = some scheme ∧
    (scheme = "https" ∨ scheme = "http") ∧ ∃ host, o = scheme.toList ++ "://" ++ host := by
  obtain ⟨scheme, hs, rfl⟩ := map_eq_some_iff.mp h
  refine ⟨scheme, hs, ?_, _, rfl⟩
  unfold schemeOf at hs
  split at hs
  · exact .inl (some.inj hs).symm
  split at hs
  · exact .inr (some.inj hs).symm
  · cases hs

def demoWeb : Web demoClient where
  scheme := schemeOf
  parse s := .ok s
  sameScheme a b h := by
    unfold Client.sameOrigin at h
    cases ha : demoClient.origin a with
    | none => simp [ha] at h
    | some oa =>
      cases hb : demoClient.origin b with
      | none => simp [hb] at h
      | some ob =>
        simp only [ha, hb, beq_iff_eq] at h
        obtain ⟨sa, hsa, hka, hosta, rfl⟩ := originOf_scheme ha
        obtain ⟨sb, hsb, hkb, hostb, rfl⟩ := originOf_scheme hb
        have hfifth := congrArg (fun o : Str => o[4]?) h
        rw [hsa, hsb]
        rcases hka with rfl | rfl <;> rcases hkb with rfl | rfl
        · rfl
        · exact absurd hfifth (by simp)
        · exact absurd hfifth (by simp)
        · rfl
  hasOrigin a s h _ := by
    show (originOf a).isSome = true
    unfold originOf
    rw [h]
    rfl

def demoInput : Str := "https://dav.example.org/dav/"

/-- The first request, and an answer that comes from `url`. -/
def redirected (url : String) : List (Request × Except Str HttpReply) :=
  [(DavRequest.plain ⟨"PROPFIND", demoInput, some "0", some propPrincipal⟩, .ok ⟨207, [], url.toList, none⟩)]

/-- What is left of the chain after that answer. -/
def afterRedirect (url : String) : Asking (List Carddav.AddressBook) :=
  match Carddav.discover demoClient demoWeb demoInput with
  | ask _ next => next (.ok ⟨207, [], url.toList, none⟩)
  | done r => done r

theorem redirected_reaches (url : String) :
    (Carddav.discover demoClient demoWeb demoInput).Reaches (redirected url) (afterRedirect url) :=
  .step (.here _)

theorem demo_start : startingPointFor demoClient demoWeb demoInput (Carddav.service demoClient).wellKnown = .ok demoInput := by
  decide

/-- A redirect to another host over TLS. -/
theorem elsewhere_kept : ∀ q ∈ requests (redirected "https://p01.example.org/") (afterRedirect "https://p01.example.org/"),
    Guarded demoClient demoWeb demoInput q.url := by
  refine ((password_kept demoClient demoWeb).1.chain demoInput demoInput demo_start _ _ (redirected_reaches _) ?_).1
  intro x hx reply hreply
  obtain rfl := mem_singleton.mp hx
  cases hreply
  decide

/-- A redirect to plain HTTP: the next request, with the password, goes there. -/
theorem downgraded : schemeOf demoInput = some "https" ∧
    (Carddav.discover demoClient demoWeb demoInput).Reaches (redirected "http://dav.example.org/")
      (afterRedirect "http://dav.example.org/") ∧
    (requests (redirected "http://dav.example.org/") (afterRedirect "http://dav.example.org/")).map (fun q => q.url) =
      [demoInput, "http://dav.example.org/me/"] ∧ ¬ Guarded demoClient demoWeb demoInput "http://dav.example.org/me/" :=
  ⟨by decide, redirected_reaches _, by decide, fun h => absurd (h.secure (by decide)) (by decide)⟩

end Password

end Oreneta.Dav

import Oreneta.Lib.Fallible
import Oreneta.Lib.Runs
import Oreneta.Lib.Table

/-!
# Task lists that come with an account

`task_sync/account_lists.rs`: the entries of `account_task_lists`, the lists they stand for, and everything
that writes to them.  A first read goes to the network: `beginLink` is what it does before, `endLink` what it
does after, and any number of reads can be on their way.

* `migrate`, `addExchange`, `recordChoice`, `applyRescan`, `decline`, `deleteList`, `forgetAccount` — as in the
  source; `addList` is `task_sync::add_list`, which links a list by hand.
* `Action`, `step` — one of them, or one half of a read.

`url::Url`, the reader of tasks and the sign-in rules of `add_list` are parameters (`Web`).  A source is what
`parse_source` reads of its text.  The lists are in the order of `position`.  The first read of an Exchange folder
(`exchange::link_account`) is not among the actions.
-/

namespace Oreneta.TaskSync.AccountLists

open Text Fallible

/-! ## Addresses -/

/-- What is used of `url::Url`, and of the modules that read tasks and rule where a password may go. -/
structure Web (τ : Type) where
  Url : Type
  parse : Str → Option Url
  scheme : Url → Str
  path : Url → Str
  setPath : Url → Str → Url
  dropFragment : Url → Url
  text : Url → Str
  origin : Url → Str
  startingPoint : Str → Except Str Str
  credentialsMayFollow : Str → Str → Bool
  nameFromUrl : Str → Str
  /-- `vtodo::parse` -/
  todo : Str → Except Str τ

def hexDigit (c : Char) : Option Nat :=
  if '0'.toNat ≤ c.toNat ∧ c.toNat ≤ '9'.toNat then some (c.toNat - '0'.toNat)
  else if 'a'.toNat ≤ c.toNat ∧ c.toNat ≤ 'f'.toNat then some (c.toNat - 'a'.toNat + 10)
  else if 'A'.toNat ≤ c.toNat ∧ c.toNat ≤ 'F'.toNat then some (c.toNat - 'A'.toNat + 10)
  else none

def upperHex (digit : Nat) : Char :=
  if digit < 10 then Char.ofNat ('0'.toNat + digit) else Char.ofNat ('A'.toNat + (digit - 10))

/-- Letters, digits and `-._~` are decoded, the rest is in upper case. -/
def normalizePercent : Str → Str
  | [] => []
  | '%' :: a :: b :: rest =>
    match hexDigit a, hexDigit b with
    | some high, some low =>
      let c := Char.ofNat (high * 16 + low)
      if high * 16 + low < 128 ∧ (c.isAlphanum ∨ c = '-' ∨ c = '.' ∨ c = '_' ∨ c = '~') then
        c :: normalizePercent rest
      else '%' :: upperHex high :: upperHex low :: normalizePercent rest
    | _, _ => '%' :: normalizePercent (a :: b :: rest)
  | c :: rest => c :: normalizePercent rest
  termination_by text => text.length

section

variable {τ : Type} (W : Web τ)

def isWeb (url : W.Url) : Bool := W.scheme url == "http" || W.scheme url == "https"

/-- A collection's address in one form. -/
def normalizeUrl (raw : Str) : Except Str Str := do
  let url ← context (W.parse (trim raw)) "that collection address is not a URL"
  ensure (isWeb W url) "that collection address is not a web address"
  let path := normalizePercent (W.path url)
  let slashed := if path.getLast? = some '/' then path else path ++ ['/']
  return W.text (W.dropFragment (W.setPath url slashed))

def originOf (raw : Str) : Except Str Str := do
  let url ← context (W.parse (trim raw)) "that address is not a URL"
  ensure (isWeb W url) "that address is not a web address"
  return W.origin url

end

/-! ## The tables -/

inductive Source where
  | ews
  | collection (url : Str)
  | server (origin user : Str)
  deriving DecidableEq, Repr

inductive EntryState where
  | pending | linked | declined | scanned
  deriving DecidableEq, Repr

structure Key where
  account : Str
  source : Source
  deriving DecidableEq, Repr

structure Entry where
  key : Key
  state : EntryState
  listId : Str
  adopted : Bool
  notified : Bool
  lastError : Str
  updatedAt : Int
  deriving DecidableEq, Repr

structure TaskList where
  id : Str
  name : Str
  remoteUrl : Str
  remoteUser : Str
  ewsAccount : Str
  syncedAt : Option Int
  deriving DecidableEq, Repr

structure Task (τ : Type) where
  listId : Str
  remoteHref : Str
  remoteEtag : Str
  remoteIcs : Str
  todo : τ
  deriving DecidableEq, Repr

structure Account where
  id : Str
  /-- `ews_url` of its configuration. -/
  ewsUrl : Str
  deriving DecidableEq, Repr

structure Calendar where
  account : Str
  url : Str
  username : Str
  deriving DecidableEq, Repr

structure Db (τ : Type) where
  accounts : List Account
  /-- The calendars of kind `caldav`. -/
  calendars : List Calendar
  lists : List TaskList
  tasks : List (Task τ)
  entries : List Entry
  deriving DecidableEq, Repr

/-- An entry of the keychain, for the caller to delete. -/
inductive SecretKey where
  | list (listId : Str)
  | waiting (key : Key)
  deriving DecidableEq, Repr

def mailList : Str := "mail"

variable {τ : Type}

namespace Db

def entry (db : Db τ) (key : Key) : Option Entry := Table.lookup Entry.key db.entries key

def stateOf (db : Db τ) (key : Key) : Option EntryState := (db.entry key).map Entry.state

def accountExists (db : Db τ) (account : Str) : Bool := db.accounts.any (fun a => a.id == account)

/-- `INSERT`, where the key has no row. -/
def append (e : Entry) (db : Db τ) : Db τ := { db with entries := db.entries ++ [e] }

/-- `INSERT OR IGNORE`. -/
def insertEntry (e : Entry) (db : Db τ) : Db τ := if (db.entry e.key).isSome then db else db.append e

/-- `UPDATE … WHERE p`. -/
def updateWhere (p : Entry → Bool) (f : Entry → Entry) (db : Db τ) : Db τ :=
  { db with entries := Table.update p f db.entries }

/-- `INSERT … ON CONFLICT(account, source) DO UPDATE … WHERE p`. -/
def upsert (e : Entry) (p : Entry → Bool) (f : Entry → Entry) (db : Db τ) : Db τ :=
  if (db.entry e.key).isSome then db.updateWhere (fun old => decide (old.key = e.key) && p old) f else db.append e

def waiting (key : Key) (notified : Bool) (now : Int) : Entry := ⟨key, .pending, [], false, notified, [], now⟩

/-! ## Entries -/

/-- A new Exchange account's entry. -/
def addExchange (account : Str) (now : Int) (db : Db τ) : Db τ :=
  db.insertEntry (waiting ⟨account, .ews⟩ true now)

/-- Why the last read of a waiting entry failed. -/
def recordFailure (key : Key) (error : Str) (db : Db τ) : Db τ :=
  db.updateWhere (fun e => decide (e.key = key ∧ e.state = .pending)) (fun e => { e with lastError := error })

def acknowledge (key : Key) (db : Db τ) : Db τ :=
  db.updateWhere (fun e => decide (e.key = key)) (fun e => { e with notified := true })

def deleteListRows (listId : Str) (db : Db τ) : Db τ :=
  { db with
    tasks := db.tasks.filter (fun t => t.listId != listId)
    lists := db.lists.filter (fun l => l.id != listId) }

def declinedEntry (now : Int) (e : Entry) : Entry :=
  { e with state := .declined, listId := [], lastError := [], notified := true, updatedAt := now }

def setDeclined (key : Key) (now : Int) (db : Db τ) : Db τ :=
  db.updateWhere (fun e => decide (e.key = key)) (declinedEntry now)

/-- `binding`: the list is kept on a server. -/
def isBound (db : Db τ) (listId : Str) : Bool := db.lists.any (fun l => l.id == listId && !l.remoteUrl.isEmpty)

def listSecret (db : Db τ) (listId : Str) : List SecretKey := if db.isBound listId then [.list listId] else []

def decline (key : Key) (now : Int) (db : Db τ) : Except Str (Db τ × List SecretKey) := do
  let entry ← context (db.entry key) "that list is no longer one of the account's"
  let waiting : List SecretKey := match key.source with
    | .collection _ => [.waiting key]
    | _ => []
  match entry.state with
  | .declined => return (db, [])
  | .scanned => .error "that server was listed already; there is nothing to decline"
  | .linked =>
    if entry.listId.isEmpty then return (db.setDeclined key now, waiting)
    else return ((db.deleteListRows entry.listId).setDeclined key now, db.listSecret entry.listId ++ waiting)
  | .pending => return (db.setDeclined key now, waiting)

def deleteList (listId : Str) (now : Int) (db : Db τ) : Except Str (Db τ) := do
  ensure (listId ≠ mailList) "the mail follow-up list cannot be deleted"
  return (db.updateWhere (fun e => decide (e.listId = listId ∧ e.state = .linked)) (declinedEntry now)).deleteListRows
    listId

/-- An entry of the account that goes: its list, if it came on its own. -/
def forgetEntry (acc : Db τ × List SecretKey) (e : Entry) : Db τ × List SecretKey :=
  match e.key.source with
  | .collection _ =>
    if e.state = .linked ∧ e.adopted = false ∧ e.listId ≠ [] then
      (acc.1.deleteListRows e.listId, acc.2 ++ .waiting e.key :: acc.1.listSecret e.listId)
    else (acc.1, acc.2 ++ [.waiting e.key])
  | _ => acc

def forgetAccount (account : Str) (db : Db τ) : Db τ × List SecretKey :=
  let (rest, secrets) := (db.entries.filter (fun e => decide (e.key.account = account))).foldl forgetEntry (db, [])
  ({ rest with entries := rest.entries.filter (fun e => decide (e.key.account ≠ account)) }, secrets)

/-- `exchange::forget_account`. -/
def forgetExchange (account : Str) (db : Db τ) : Db τ :=
  { db with
    tasks := db.tasks.filter (fun t => !db.lists.any (fun l => l.id == t.listId && l.ewsAccount == account))
    lists := db.lists.filter (fun l => l.ewsAccount != account) }

/-- `store::delete_account`, as far as task lists go. -/
def deleteAccount (account : Str) (db : Db τ) : Db τ :=
  let gone := (db.forgetAccount account).1.forgetExchange account
  { gone with
    accounts := gone.accounts.filter (fun a => a.id != account)
    calendars := gone.calendars.filter (fun c => c.account != account) }

/-! ## The upgrade -/

def migrateAccount (now : Int) (db : Db τ) (a : Account) : Db τ :=
  if (trim a.ewsUrl).isEmpty then db
  else
    match db.lists.find? (fun l => l.ewsAccount == a.id) with
    | some list => db.insertEntry ⟨⟨a.id, .ews⟩, .linked, list.id, false, true, [], now⟩
    | none => db.insertEntry (waiting ⟨a.id, .ews⟩ false now)

def migrateCalendar (W : Web τ) (now : Int) (db : Db τ) (c : Calendar) : Db τ :=
  match originOf W c.url with
  | .error _ => db
  | .ok origin => db.insertEntry (waiting ⟨c.account, .server origin c.username⟩ false now)

def migrate (W : Web τ) (now : Int) (db : Db τ) : Db τ :=
  let afterAccounts := db.accounts.foldl (migrateAccount now) db
  (afterAccounts.calendars.filter (fun c => afterAccounts.accountExists c.account)).foldl (migrateCalendar W now)
    afterAccounts

end Db

/-! ## Reading a list for the first time -/

/-- Why a list is read. -/
inductive Mode where
  | retry
  /-- The person asks for it. -/
  | byHand
  deriving DecidableEq, Repr

/-- A read that is on its way: its collection, and the id its list will have. -/
structure Read where
  key : Key
  url : Str
  username : Str
  listId : Str
  mode : Mode
  deriving DecidableEq, Repr

structure Object where
  href : Str
  etag : Str
  ics : Str
  deriving DecidableEq, Repr

namespace Db

def mayWrite (db : Db τ) (key : Key) (mode : Mode) : Bool :=
  db.accountExists key.account &&
    match mode with
    | .retry => db.stateOf key == some .pending
    | .byHand => !(db.stateOf key == some .linked || db.stateOf key == some .scanned)

def linkedEntry (listId : Str) (adopted : Bool) (now : Int) (e : Entry) : Entry :=
  { e with state := .linked, listId := listId, adopted := adopted, lastError := [], updatedAt := now }

/-- The entry now has its list. -/
def markLinked (key : Key) (listId : Str) (adopted : Bool) (now : Int) (db : Db τ) : Db τ :=
  db.upsert ⟨key, .linked, listId, adopted, true, [], now⟩ (fun _ => true) (linkedEntry listId adopted now)

def sameUrl (W : Web τ) (wanted : Str) (l : TaskList) : Bool :=
  !l.remoteUrl.isEmpty && (match normalizeUrl W l.remoteUrl with
    | .ok remote => remote == wanted
    | .error _ => false)

/-- A list kept on the server at `url` already. -/
def listForUrl (W : Web τ) (url : Str) (db : Db τ) : Except Str (Option Str) := do
  let wanted ← normalizeUrl W url
  return (db.lists.find? (sameUrl W wanted)).map TaskList.id

/-- What `link_collection` does before it goes to the network. -/
inductive Begun (τ : Type) where
  | discarded
  | adopted (db : Db τ) (listId : Str)
  | reads (key : Key)

def beginLink (W : Web τ) (account url : Str) (mode : Mode) (now : Int) (db : Db τ) : Except Str (Begun τ) := do
  let key : Key := ⟨account, .collection (← normalizeUrl W url)⟩
  if !db.mayWrite key mode then return .discarded
  else
    match ← db.listForUrl W url with
    | some list =>
      if mode = .byHand then .error "that collection is already a task list here"
      else return .adopted (db.markLinked key list true now) list
    | none => return .reads key

/-- The read failed, or the password could not be kept. -/
def failLink (r : Read) (error : Str) (db : Db τ) : Db τ :=
  if r.mode = .retry then db.recordFailure r.key error else db

/-- `create_list_with_id`, and what is written of the collection. -/
def createList (r : Read) (name : Str) (now : Int) (db : Db τ) : Except Str (Db τ) := do
  ensure (trim name ≠ []) "a list needs a name"
  return { db with lists := db.lists ++ [⟨r.listId, trim name, r.url, r.username, [], some now⟩] }

def readTodos (W : Web τ) : List Object → Except Str (List (Object × τ))
  | [] => return []
  | o :: objects => do
    let todo ← W.todo o.ics
    let rest ← readTodos W objects
    return (o, todo) :: rest

/-- `reconcile_in` of a list that has just been made: every object is new. -/
def fillList (W : Web τ) (listId : Str) (objects : List Object) (db : Db τ) : Except Str (Db τ) := do
  let read ← readTodos W objects
  return { db with tasks := db.tasks ++ read.map (fun p => ⟨listId, p.1.href, p.1.etag, p.1.ics, p.2⟩) }

/-- The last transaction: `none` is `Discarded`. -/
def written (W : Web τ) (r : Read) (name : Str) (objects : List Object) (now : Int) (db : Db τ) :
    Except Str (Option (Db τ)) := do
  if !db.mayWrite r.key r.mode then return none
  else
    let made ← db.createList r name now
    let filled ← made.fillList W r.listId objects
    return some (filled.markLinked r.key r.listId false now)

/-- What `link_collection` does once the collection was read. -/
def endLink (W : Web τ) (r : Read) (name : Str) (objects : List Object) (now : Int) (db : Db τ) : Db τ :=
  match db.written W r name objects now with
  | .ok (some made) => made
  | .ok none => db
  | .error error => db.failLink r error

/-! ## What the dialog chose -/

structure Choice where
  toRead : List Str
  kept : List Str
  dropped : List SecretKey
  stillDeclined : List Str
  deriving DecidableEq, Repr

def Choice.empty : Choice := ⟨[], [], [], []⟩

def scannedEntry (now : Int) (e : Entry) : Entry := { e with state := .scanned, lastError := [], updatedAt := now }

/-- The server was listed. -/
def markScanned (key : Key) (now : Int) (db : Db τ) : Db τ :=
  db.upsert ⟨key, .scanned, [], false, true, [], now⟩ (fun e => decide (e.state = .pending)) (scannedEntry now)

/-- The collection waits for its first read. -/
def markWaiting (key : Key) (now : Int) (db : Db τ) : Db τ :=
  db.upsert (waiting key true now) (fun _ => true) (fun e =>
    { e with state := .pending, listId := [], lastError := [], updatedAt := now })

def chooseWanted (W : Web τ) (account : Str) (now : Int) (acc : Db τ × Choice) (raw : Str) :
    Except Str (Db τ × Choice) := do
  let url ← normalizeUrl W raw
  let key : Key := ⟨account, .collection (← normalizeUrl W url)⟩
  match acc.1.stateOf key with
  | some .linked => return (acc.1, { acc.2 with kept := acc.2.kept ++ [url] })
  | some .pending => return (acc.1, { acc.2 with toRead := acc.2.toRead ++ [url] })
  | some .declined => return (acc.1, { acc.2 with stillDeclined := acc.2.stillDeclined ++ [url] })
  | _ =>
    match ← acc.1.listForUrl W url with
    | some list => return (acc.1.markLinked key list true now, { acc.2 with kept := acc.2.kept ++ [url] })
    | none => return (acc.1.markWaiting key now, { acc.2 with toRead := acc.2.toRead ++ [url] })

def chooseDeclined (W : Web τ) (account : Str) (now : Int) (acc : Db τ × Choice) (raw : Str) :
    Except Str (Db τ × Choice) := do
  let key : Key := ⟨account, .collection (← normalizeUrl W raw)⟩
  match acc.1.stateOf key with
  | none => return (acc.1.append ⟨key, .declined, [], false, true, [], now⟩, acc.2)
  | some .pending =>
    return (acc.1.setDeclined key now, { acc.2 with dropped := acc.2.dropped ++ [.waiting key] })
  | _ => return acc

def recordChoice (W : Web τ) (account username : Str) (origins wanted declined : List Str) (now : Int) (db : Db τ) :
    Except Str (Db τ × Choice) := do
  if !db.accountExists account then
    if wanted.isEmpty && declined.isEmpty then return (db, Choice.empty)
    else .error "that account is no longer here"
  else
    let marked := origins.foldl (fun db origin => db.markScanned ⟨account, .server origin username⟩ now) db
    let chosen ← wanted.foldlM (chooseWanted W account now) (marked, Choice.empty)
    declined.foldlM (chooseDeclined W account now) chosen

/-! ## A server listed again -/

structure Rescanned where
  discarded : Bool
  created : List Str
  adopted : List Str
  deriving DecidableEq, Repr

def applyCandidate (W : Web τ) (account origin : Str) (now : Int) (acc : Db τ × Rescanned) (url : Str) :
    Except Str (Db τ × Rescanned) := do
  match originOf W url with
  | .error _ => return acc
  | .ok there =>
    if there ≠ origin then return acc
    else
      let key : Key := ⟨account, .collection (← normalizeUrl W url)⟩
      if (acc.1.stateOf key).isSome then return acc
      else
        match ← acc.1.listForUrl W url with
        | some list => return (acc.1.markLinked key list true now, { acc.2 with adopted := acc.2.adopted ++ [url] })
        | none => return (acc.1.append (waiting key false now), { acc.2 with created := acc.2.created ++ [url] })

/-- The mark of a server of the account, and what its listing found. -/
def applyRescan (W : Web τ) (account origin user : Str) (candidates : List Str) (now : Int) (db : Db τ) :
    Except Str (Db τ × Rescanned) := do
  let mark : Key := ⟨account, .server origin user⟩
  if !db.mayWrite mark .retry then return (db, ⟨true, [], []⟩)
  else
    let (done, found) ← candidates.foldlM (applyCandidate W account origin now) (db, ⟨false, [], []⟩)
    return (done.updateWhere (fun e => decide (e.key = mark)) (scannedEntry now), found)

/-! ## Lists linked by hand -/

/-- The password of `server` may go to the collection. -/
def checkServer (W : Web τ) (server url : Str) : Except Str Unit :=
  if (trim server).isEmpty then return ()
  else do
    let start ← W.startingPoint server
    ensure (W.credentialsMayFollow start url)
      "that collection is somewhere the password must not go; nothing was sent there"

/-- `task_sync::add_list`, with the id its list gets. -/
def addList (W : Web τ) (id name raw server username : Str) (db : Db τ) : Except Str (Db τ) := do
  let parsed ← context (W.parse (trim raw)) "that collection address is not a URL"
  ensure (isWeb W parsed) "that collection address is not a web address"
  let url := W.text parsed
  checkServer W server url
  ensure (¬ db.lists.any (fun l => l.remoteUrl == url)) "that collection is already a task list here"
  let name := if (trim name).isEmpty then W.nameFromUrl url else name
  ensure (trim name ≠ []) "a list needs a name"
  return { db with lists := db.lists ++ [⟨id, trim name, url, username, [], none⟩] }

end Db

/-! ## Runs -/

structure Sys (τ : Type) where
  db : Db τ
  /-- The first reads on their way. -/
  reads : List Read
  deriving DecidableEq, Repr

inductive Action (τ : Type) where
  | addAccount (account : Account) (exchange : Bool)
  | migrate
  | addExchange (account : Str)
  | recordChoice (account username : Str) (origins wanted declined : List Str)
  | begin_ (account url username listId : Str) (mode : Mode)
  | readFailed (r : Read) (error : Str)
  | readDone (r : Read) (name : Str) (objects : List Object)
  | recordFailure (key : Key) (error : Str)
  | acknowledge (key : Key)
  | rescanned (account origin user : Str) (candidates : List Str)
  | decline (key : Key)
  | deleteList (listId : Str)
  | deleteAccount (account : Str)
  | addList (id name raw server username : Str)
  deriving DecidableEq, Repr

namespace Sys

/-- No list has the id, and none is being read under it. -/
def unused (s : Sys τ) (listId : Str) : Bool :=
  s.db.lists.all (fun l => l.id != listId) && s.reads.all (fun r => r.listId != listId)

/-- What a transaction that can fail leaves. -/
def settle (s : Sys τ) (done : Except Str (Db τ)) : Sys τ :=
  match done with
  | .ok db => { s with db := db }
  | .error _ => s

def beginRead (W : Web τ) (account url username listId : Str) (mode : Mode) (now : Int) (s : Sys τ) : Sys τ :=
  match s.db.beginLink W account url mode now with
  | .ok (.adopted db _) => { s with db := db }
  | .ok (.reads key) => { s with reads := s.reads ++ [⟨key, url, username, listId, mode⟩] }
  | .ok .discarded => s
  | .error _ => s

end Sys

/-- What happens at the time `a.1`. -/
def step (W : Web τ) (s : Sys τ) (a : Int × Action τ) : Option (Sys τ) :=
  let now := a.1
  match a.2 with
  | .addAccount account exchange =>
    if s.db.accountExists account.id then none
    else
      let added := { s.db with accounts := s.db.accounts ++ [account] }
      some { s with db := if exchange then added.addExchange account.id now else added }
  | .migrate => some { s with db := s.db.migrate W now }
  | .addExchange account => some { s with db := s.db.addExchange account now }
  | .recordChoice account username origins wanted declined =>
    some (s.settle ((s.db.recordChoice W account username origins wanted declined now).map Prod.fst))
  | .begin_ account url username listId mode =>
    if s.unused listId then some (s.beginRead W account url username listId mode now) else none
  | .readFailed r error =>
    if r ∈ s.reads then some ⟨s.db.failLink r error, s.reads.erase r⟩ else none
  | .readDone r name objects =>
    if r ∈ s.reads then some ⟨s.db.endLink W r name objects now, s.reads.erase r⟩ else none
  | .recordFailure key error => some { s with db := s.db.recordFailure key error }
  | .acknowledge key => some { s with db := s.db.acknowledge key }
  | .rescanned account origin user candidates =>
    some (s.settle ((s.db.applyRescan W account origin user candidates now).map Prod.fst))
  | .decline key => some (s.settle ((s.db.decline key now).map Prod.fst))
  | .deleteList listId => some (s.settle (s.db.deleteList listId now))
  | .deleteAccount account => if account = [] then none else some { s with db := s.db.deleteAccount account }
  | .addList id name raw server username =>
    if s.unused id then some (s.settle (s.db.addList W id name raw server username)) else none

end Oreneta.TaskSync.AccountLists

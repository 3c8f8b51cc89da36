import Oreneta.Lib.Runs
import Oreneta.Store.TaskLists
import Oreneta.TaskSync.Server

/-!
# Syncing a list with its collection (`task_sync/mod.rs`)

The whole system around one bound list: the rows kept here, the collection on the server, the sync
that is running (one at a time, `SYNCING`), the calls of `resolve_conflict` under way, the person who
edits tasks meanwhile and the other clients of the server.  The database is locked for one statement
or one transaction at a time and never across a request, so a step is what happens between two
requests, or at one of the two ends of one.

* `Phase` — where the running sync is: in the loop of `push`, with a request on its way out or its
  answer on its way back, or between `push`, `fetch_todos` and `reconcile`;
* `startSync`, `pushNext`, `serve`, `takeAnswer`, `reconcileIn` — the sync, one step each;
* `Resolve`, `resolveFinish` — a call of `resolve_conflict`, which reads the row, asks the server and
  then writes the row, without looking at it again;
* `step` — any of these, an edit, or a write of another client.

What the objects say (`vtodo`) and the addresses of new ones are a parameter, `Codec`.  All objects of
the collection hold tasks.  A failure at any point, a lost answer and a crash all end the sync with
nothing further done: `lose`.
-/

namespace Oreneta.TaskSync

open Store.TaskLists AutoTable Runs List Option

/-- What is read from an object (`vtodo::Todo`). -/
structure Todo where
  fields : Fields
  recurring : Bool
  deriving DecidableEq, Repr

/-- What is used of `vtodo` and of `caldav::new_href`. -/
structure Codec where
  parse : Str → Option Todo
  newObject : Fields → Str → Int → Str
  patch : Str → Fields → Int → Option Str
  newHref : Str → Option Str

/-- What a sync did. -/
structure Report where
  pushed : Nat := 0
  pulled : Nat := 0
  removed : Nat := 0
  conflicts : Nat := 0
  stopped : Bool := false
  deriving DecidableEq, Repr

/-- An object as a read of the collection gives it; the `ETag` may be missing. -/
structure Fetched where
  href : Str
  etag : Option Nat
  ics : Str
  deriving DecidableEq, Repr

inductive Request where
  | put (ics : Str)
  | delete (ifMatch : Nat)
  deriving DecidableEq, Repr

/-- A change on its way: the row as the queue read it, and what is asked for it where. -/
structure Sent where
  id : Nat
  task : Row
  href : Str
  request : Request
  deriving DecidableEq, Repr

/-- The loop of `push`: the changes still to be sent, as they were read when it began. -/
structure Push where
  now : Int
  queue : List (Nat × Row)
  report : Report
  deriving DecidableEq, Repr

inductive Phase where
  /-- No sync is running; what the last one reported, unless it failed. -/
  | idle (last : Option Report)
  | pushing (p : Push)
  | sending (p : Push) (r : Sent)
  | served (p : Push) (r : Sent) (answer : Written)
  | fetching (report : Report)
  | reconciling (objects : List Fetched) (report : Report)
  deriving DecidableEq, Repr

/-- Which copy of a task in conflict to keep. -/
inductive Keep where
  | mine
  | server
  deriving DecidableEq, Repr

/-- A call of `resolve_conflict` under way: what it read of the row, and what the server then
answered, once it has (`some none`: nothing is there). -/
structure Resolve where
  id : Nat
  keep : Keep
  href : Str
  pending : Option Pending
  current : Option (Option (Str × Option Nat))
  deriving DecidableEq, Repr

structure State where
  tasks : Tasks
  server : Server
  phase : Phase
  resolving : List Resolve

def State.init (server : Server) : State := ⟨AutoTable.empty, server, .idle none, []⟩

/-! ## `push` -/

/-- The tasks with a change waiting to be sent, oldest first. -/
def queue (t : Tasks) : List (Nat × Row) := t.rows.filter (fun p => p.2.pending.isSome)

/-- Whether a task of the list waits for the person to choose. -/
def blocked (t : Tasks) : Bool := t.rows.any (fun p => p.2.conflict.isSome)

def markConflict (t : Tasks) (id : Nat) (reason : Conflict) : Tasks :=
  t.modify id (fun r => { r with conflict := some reason })

/-- `push` up to its loop. -/
def startSync (t : Tasks) (now : Int) : Phase :=
  if blocked t then .fetching { stopped := !(queue t).isEmpty }
  else .pushing ⟨now, queue t, {}⟩

/-- One turn of the loop, up to its request.  `uid` is the identifier a new object gets. -/
def pushNext (C : Codec) (t : Tasks) (p : Push) (uid : Str) : Tasks × Phase :=
  match p.queue with
  | [] => (t, .fetching p.report)
  | (id, task) :: rest =>
    let p := { p with queue := rest }
    if task.pending = some .delete then
      match task.remoteEtag, task.remoteHref with
      | some etag, c :: href => (t, .sending p ⟨id, task, c :: href, .delete etag⟩)
      | _, _ => (t.remove id, .pushing p)
    else if task.recurring then (t, .pushing p)
    else if task.remoteHref.isEmpty || task.remoteIcs.isEmpty then
      -- its place is chosen and kept before it is sent
      match if task.remoteHref.isEmpty then C.newHref uid else some task.remoteHref with
      | none => (t, .idle none)
      | some href =>
        let ics := C.newObject task.fields uid p.now
        (t.modify id (fun r => { r with remoteHref := href, remoteIcs := ics }),
          .sending p ⟨id, task, href, .put ics⟩)
    else
      match C.patch task.remoteIcs task.fields p.now with
      | none => (t, .idle none)
      | some ics => (t, .sending p ⟨id, task, task.remoteHref, .put ics⟩)

/-- The request reaches the server. -/
def serve (s : Server) (r : Sent) (tell gone : Bool) : Written × Server :=
  match r.request with
  | .put ics => s.put r.href ics r.task.remoteEtag tell
  | .delete etag => s.delete r.href etag gone

/-- What a saved `PUT` writes into the row: a change made here while it was being sent stays
pending. -/
def savedRow (seq : Nat) (etag : Option Nat) (ics : Str) (r : Row) : Row :=
  { r with
    remoteEtag := etag, remoteIcs := ics
    pending := if r.syncSeq = seq then none else r.pending }

/-- The answer reaches the loop. -/
def takeAnswer (t : Tasks) (p : Push) (r : Sent) (answer : Written) : Tasks × Phase :=
  let sent := { p with report := { p.report with pushed := p.report.pushed + 1 } }
  match answer, r.request with
  | .saved etag, .put ics => (t.modify r.id (savedRow r.task.syncSeq etag ics), .pushing sent)
  | .saved _, .delete _ =>
    (t.alter r.id (fun row => if row.pending = some .delete then none else some row), .pushing sent)
  | .conflict, _ =>
    (markConflict t r.id .changed,
      .fetching { p.report with conflicts := p.report.conflicts + 1, stopped := true })

/-! ## `fetch_todos` and `reconcile_in` -/

/-- Every object of the collection; the `ETag`s of `hidden` are not in the answer. -/
def fetchTodos (s : Server) (hidden : List Nat) : List Fetched :=
  s.objects.map (fun o => ⟨o.href, if o.etag ∈ hidden then none else some o.etag, o.ics⟩)

/-- The server's copy over a local task, which then has nothing pending. -/
def takeServerCopy (etag : Option Nat) (ics : Str) (todo : Todo) (r : Row) : Row :=
  { r with
    fields := todo.fields, remoteEtag := etag, remoteIcs := ics, recurring := todo.recurring
    pending := none, conflict := none, revision := r.revision + 1 }

/-- The row made of an object not known here. -/
def serverRow (o : Fetched) (todo : Todo) : Row :=
  { newRow todo.fields with
    remoteHref := o.href, remoteEtag := o.etag, remoteIcs := o.ics, recurring := todo.recurring }

/-- The rows with a place on the server, as `reconcile_in` reads them first. -/
def knownRows (t : Tasks) : List (Nat × Row) := t.rows.filter (fun p => !p.2.remoteHref.isEmpty)

/-- The row known under an address: the map keeps the last one put in. -/
def knownAt (known : List (Nat × Row)) (href : Str) : Option (Nat × Row) :=
  (known.filter (fun p => p.2.remoteHref = href)).getLast?

/-- The first loop's body. -/
def reconcileObject (known : List (Nat × Row)) (acc : Tasks × Report) (object : Fetched × Todo) :
    Tasks × Report :=
  let (t, report) := acc
  let (o, todo) := object
  match knownAt known o.href with
  | none => (t.insert (serverRow o todo), { report with pulled := report.pulled + 1 })
  | some (id, row) =>
    if o.etag.isSome && o.etag = row.remoteEtag then (t, report)
    else if row.pending = none then
      (t.modify id (takeServerCopy o.etag o.ics todo), { report with pulled := report.pulled + 1 })
    else if row.conflict ≠ some .changed then
      (markConflict t id .changed, { report with conflicts := report.conflicts + 1 })
    else (t, report)

/-- The second loop's body. -/
def reconcileUnseen (seen : List Str) (acc : Tasks × Report) (known : Nat × Row) : Tasks × Report :=
  let (t, report) := acc
  let (id, row) := known
  if row.remoteHref ∈ seen then (t, report)
  else if row.pending = none ∨ row.pending = some .delete then
    (t.remove id, { report with removed := report.removed + 1 })
  else if row.remoteEtag = none ∧ row.conflict = none then
    -- new here and not on the server yet: it is sent next time
    (t, report)
  else if row.conflict ≠ some .deleted then
    (markConflict t id .deleted, { report with conflicts := report.conflicts + 1 })
  else (t, report)

/-- The entries of the map of known rows. -/
def knownEntries (known : List (Nat × Row)) : List (Nat × Row) :=
  known.filter (fun p => knownAt known p.2.remoteHref = some p)

def reconcileIn (t : Tasks) (parsed : List (Fetched × Todo)) (report : Report) : Tasks × Report :=
  let known := knownRows t
  (knownEntries known).foldl (reconcileUnseen (parsed.map (fun p => p.1.href)))
    (parsed.foldl (reconcileObject known) (t, report))

/-- Every object read before anything is written, or nothing. -/
def parseAll (C : Codec) (objects : List Fetched) : Option (List (Fetched × Todo)) :=
  objects.mapM (fun o => (C.parse o.ics).map (Prod.mk o))

def reconcile (C : Codec) (t : Tasks) (objects : List Fetched) (report : Report) : Tasks × Phase :=
  match parseAll C objects with
  | none => (t, .idle none)
  | some parsed =>
    let (t', report') := reconcileIn t parsed report
    (t', .idle (some report'))

/-! ## `resolve_conflict` -/

/-- The row is read: only a task in conflict has something to settle. -/
def resolveStart (t : Tasks) (id : Nat) (keep : Keep) : Option Resolve :=
  match t.get id with
  | some r => if r.conflict = none then none else some ⟨id, keep, r.remoteHref, r.pending, none⟩
  | none => none

/-- The server is asked for the object; a task with no place there has none. -/
def resolveGet (s : Server) (r : Resolve) (tell : Bool) : Resolve :=
  { r with
    current := some (
      if r.href.isEmpty then none
      else (s.find r.href).map (fun o => (o.ics, if tell then some o.etag else none))) }

/-- What settling makes of the row there then is. -/
def settle (C : Codec) (r : Resolve) (current : Option (Str × Option Nat)) (row : Row) : Option Row :=
  match r.keep, current with
  | .server, some (ics, etag) =>
    match C.parse ics with
    | some todo => some (takeServerCopy etag ics todo row)
    | none => some row
  | .server, none => none
  | .mine, some (ics, etag) =>
    some { row with
      remoteIcs := ics, remoteEtag := etag, conflict := none
      pending := if row.pending = none then some .put else row.pending
      syncSeq := row.syncSeq + 1 }
  | .mine, none =>
    if r.pending = some .delete then none
    else
      -- created again where it was, from the last copy read
      some { row with
        remoteEtag := none, conflict := none, pending := some .put, syncSeq := row.syncSeq + 1 }

/-- The choice is written, by the task's id alone. -/
def resolveFinish (C : Codec) (t : Tasks) (r : Resolve) (current : Option (Str × Option Nat)) : Tasks :=
  t.alter r.id (settle C r current)

/-! ## The system -/

inductive Action (ρ : Type) where
  /-- A sync begins and reads its queue. -/
  | startSync (now : Int)
  | pushNext (uid : Str)
  | serve (tell gone : Bool)
  | answer
  /-- The sync ends where it is: an error, an answer that never came, a crash. -/
  | lose
  | fetch (hidden : List Nat)
  | reconcile
  | resolveStart (id : Nat) (keep : Keep)
  | resolveGet (index : Nat) (tell : Bool)
  | resolveFail (index : Nat)
  | resolveFinish (index : Nat)
  | create (fields : TaskFields ρ)
  | update (id : Nat) (readAt : Int) (fields : TaskFields ρ)
  | setCompleted (id : Nat) (completed stop : Bool) (now : Int)
  | deleteTask (id : Nat)
  /-- Another client writes an object, over whatever is there. -/
  | remotePut (href ics : Str)
  | remoteDelete (href : Str)

variable {ρ : Type}

/-- An edit the person makes: the table after it, or as it was when it is refused. -/
def editTasks (R : Recurrences ρ) (t : Tasks) : Action ρ → Option Tasks
  | .create f =>
    some (match create R t f with
      | .ok (_, t') => t'
      | .error _ => t)
  | .update id readAt f =>
    some (match update R t id readAt f with
      | .ok (_, t') => t'
      | .error _ => t)
  | .setCompleted id completed stop now =>
    some (match setCompleted R t id completed stop now with
      | .ok (_, t') => t'
      | .error _ => t)
  | _ => none

/-- One step of the running sync. -/
def syncStep (C : Codec) (s : State) : Action ρ → Option State
  | .startSync now =>
    match s.phase with
    | .idle _ => some { s with phase := startSync s.tasks now }
    | _ => none
  | .pushNext uid =>
    match s.phase with
    | .pushing p =>
      let (t, phase) := pushNext C s.tasks p uid
      some { s with tasks := t, phase := phase }
    | _ => none
  | .serve tell gone =>
    match s.phase with
    | .sending p r =>
      let (answer, server) := serve s.server r tell gone
      some { s with server := server, phase := .served p r answer }
    | _ => none
  | .answer =>
    match s.phase with
    | .served p r answer =>
      let (t, phase) := takeAnswer s.tasks p r answer
      some { s with tasks := t, phase := phase }
    | _ => none
  | .lose => some { s with phase := .idle none }
  | .fetch hidden =>
    match s.phase with
    | .fetching report => some { s with phase := .reconciling (fetchTodos s.server hidden) report }
    | _ => none
  | .reconcile =>
    match s.phase with
    | .reconciling objects report =>
      let (t, phase) := reconcile C s.tasks objects report
      some { s with tasks := t, phase := phase }
    | _ => none
  | _ => none

/-- One step of a call of `resolve_conflict`. -/
def resolveStep (C : Codec) (s : State) : Action ρ → Option State
  | .resolveStart id keep =>
    (resolveStart s.tasks id keep).map (fun r => { s with resolving := s.resolving ++ [r] })
  | .resolveGet i tell =>
    match s.resolving[i]? with
    | some r => some { s with resolving := s.resolving.set i (resolveGet s.server r tell) }
    | none => none
  | .resolveFail i => some { s with resolving := s.resolving.eraseIdx i }
  | .resolveFinish i =>
    match s.resolving[i]? with
    | some r =>
      match r.current with
      | some current => some { s with
          tasks := resolveFinish C s.tasks r current, resolving := s.resolving.eraseIdx i }
      | none => none
    | none => none
  | _ => none

def step (C : Codec) (R : Recurrences ρ) (s : State) (a : Action ρ) : Option State :=
  match a with
  | .create .. | .update .. | .setCompleted .. =>
    (editTasks R s.tasks a).map (fun t => { s with tasks := t })
  | .deleteTask id => some { s with tasks := deleteTask s.tasks id }
  | .remotePut href ics => some { s with server := s.server.store href ics }
  | .remoteDelete href => some { s with server := s.server.drop href }
  | .resolveStart .. | .resolveGet .. | .resolveFail .. | .resolveFinish .. => resolveStep C s a
  | _ => syncStep C s a

variable {t : Tasks}

theorem editTasks_local {R : Recurrences ρ} {t' : Tasks} {a : Action ρ} (h : editTasks R t a = some t') : LocalEdit t t' := by
  unfold editTasks at h
  split at h
  · cases h
    split
    · rename_i hc
      exact create_local hc
    · exact LocalEdit.refl t
  · cases h
    split
    · rename_i hc
      exact update_local hc
    · exact LocalEdit.refl t
  · cases h
    split
    · rename_i hc
      exact setCompleted_local hc
    · exact LocalEdit.refl t
  · cases h

/-! ## Where the loop is -/

/-- Whether the loop of `push` is running. -/
def Phase.inPush : Phase → Bool
  | .pushing _ | .sending _ _ | .served _ _ _ => true
  | _ => false

/-- The changes the running loop has read and not settled yet. -/
def Phase.queued : Phase → List (Nat × Row)
  | .pushing p => p.queue
  | .sending p r | .served p r _ => (r.id, r.task) :: p.queue
  | _ => []

/-- The change on its way, if any. -/
def Phase.sent : Phase → Option Sent
  | .sending _ r | .served _ r _ => some r
  | _ => none

variable {ph : Phase}

theorem Phase.inPush_of_queued {q : Nat × Row} (h : q ∈ ph.queued) : ph.inPush = true := by
  cases ph <;> first | rfl | cases h

theorem Phase.queued_nil (h : ph.inPush = false) : ph.queued = [] := by
  cases ph <;> first | rfl | cases h

theorem Phase.sent_none (h : ph.inPush = false) : ph.sent = none := by
  cases ph <;> first | rfl | cases h

/-! ## What one turn of the loop does -/

/-- The turns `pushNext` can take. -/
inductive Turn (C : Codec) (t : Tasks) (p : Push) (uid : Str) : Tasks × Phase → Prop where
  | finished (hq : p.queue = []) : Turn C t p uid (t, .fetching p.report)
  | failed : Turn C t p uid (t, .idle none)
  /-- A deletion of a task whose version or place is not known: only the row goes. -/
  | dropped (id : Nat) (task : Row) (rest : List (Nat × Row)) (hq : p.queue = (id, task) :: rest)
      (hd : task.pending = some .delete) (hu : task.remoteEtag = none ∨ task.remoteHref = []) :
      Turn C t p uid (t.remove id, .pushing { p with queue := rest })
  | deletes (id : Nat) (task : Row) (rest : List (Nat × Row)) (etag : Nat)
      (hq : p.queue = (id, task) :: rest) (hd : task.pending = some .delete)
      (he : task.remoteEtag = some etag) (hh : task.remoteHref ≠ []) :
      Turn C t p uid (t, .sending { p with queue := rest } ⟨id, task, task.remoteHref, .delete etag⟩)
  | skipped (id : Nat) (task : Row) (rest : List (Nat × Row)) (hq : p.queue = (id, task) :: rest)
      (hd : task.pending ≠ some .delete) : Turn C t p uid (t, .pushing { p with queue := rest })
  | creates (id : Nat) (task : Row) (rest : List (Nat × Row)) (href : Str)
      (hq : p.queue = (id, task) :: rest) (hd : task.pending ≠ some .delete)
      (hh : task.remoteHref = [] ∧ C.newHref uid = some href ∨
        task.remoteHref ≠ [] ∧ href = task.remoteHref) :
      Turn C t p uid
        (t.modify id (fun r =>
            { r with remoteHref := href, remoteIcs := C.newObject task.fields uid p.now }),
          .sending { p with queue := rest } ⟨id, task, href, .put (C.newObject task.fields uid p.now)⟩)
  | patches (id : Nat) (task : Row) (rest : List (Nat × Row)) (ics : Str)
      (hq : p.queue = (id, task) :: rest) (hd : task.pending ≠ some .delete)
      (hh : task.remoteHref ≠ []) (hics : C.patch task.remoteIcs task.fields p.now = some ics) :
      Turn C t p uid (t, .sending { p with queue := rest } ⟨id, task, task.remoteHref, .put ics⟩)

theorem pushNext_turn (C : Codec) (t : Tasks) (p : Push) (uid : Str) : Turn C t p uid (pushNext C t p uid) := by
  unfold pushNext
  split
  · rename_i hq
    exact .finished hq
  · rename_i id task rest hq
    split
    · rename_i hd
      split
      · rename_i etag c href he hh
        rw [← hh]
        exact .deletes id task rest etag hq hd he (by simp [hh])
      · rename_i hno
        refine .dropped id task rest hq hd ?_
        cases he : task.remoteEtag with
        | none => exact .inl rfl
        | some etag =>
          cases hh : task.remoteHref with
          | nil => exact .inr rfl
          | cons c href => exact absurd hh (hno etag c href he)
    · rename_i hd
      split
      · exact .skipped id task rest hq hd
      · split
        · split
          · exact .failed
          · rename_i href hh
            refine .creates id task rest href hq hd ?_
            split at hh
            · rename_i hempty
              exact .inl ⟨List.isEmpty_iff.mp hempty, hh⟩
            · rename_i hne
              exact .inr ⟨fun he => hne (List.isEmpty_iff.mpr he), (some.inj hh).symm⟩
        · rename_i hne
          have hh : task.remoteHref ≠ [] := by
            intro he
            simp [he] at hne
          show Turn C t p uid (match C.patch task.remoteIcs task.fields p.now with
            | none => (t, .idle none)
            | some ics => (t, .sending { p with queue := rest } ⟨id, task, task.remoteHref, .put ics⟩))
          split
          · exact .failed
          · rename_i ics hics
            exact .patches id task rest ics hq hd hh hics

/-- What the server makes of a request. -/
inductive Served (s : Server) (r : Sent) : Written × Server → Prop where
  | stores (ics : Str) (etag : Option Nat) (hr : r.request = .put ics)
      (hm : (s.find r.href).map Object.etag = r.task.remoteEtag) :
      Served s r (.saved etag, s.store r.href ics)
  | drops (o : Object) (hr : r.request = .delete o.etag) (ho : s.find r.href = some o) :
      Served s r (.saved none, s.drop r.href)
  | gone (etag : Nat) (hr : r.request = .delete etag) (ho : s.find r.href = none) :
      Served s r (.saved none, s)
  | refused : Served s r (.conflict, s)

theorem serve_served (s : Server) (r : Sent) (tell gone : Bool) : Served s r (serve s r tell gone) := by
  unfold serve
  split
  · rename_i ics hr
    unfold Server.put
    split
    · rename_i hm
      exact .stores ics _ hr hm
    · exact .refused
  · rename_i etag hr
    unfold Server.delete
    split
    · rename_i o ho
      split
      · rename_i he
        subst he
        exact .drops o hr ho
      · exact .refused
    · rename_i ho
      cases gone with
      | true => exact .gone etag hr ho
      | false => exact .refused

/-! ## What a reconciliation does, row by row -/

/-- A row that stays: one with a change waiting is at most marked, one without has none after. -/
structure Kept (r x : Row) : Prop where
  href : x.remoteHref = r.remoteHref
  held : r.pending ≠ none → x = { r with conflict := x.conflict }
  clear : r.pending = none → x.pending = none

/-- What becomes of a row: it goes only when its object was not seen and no edit waits in it. -/
inductive Reconciled (seen : List Str) (r : Row) : Option Row → Prop where
  | kept (x : Row) (h : Kept r x) : Reconciled seen r (some x)
  | gone (h : r.pending ≠ some .put) (hs : r.remoteHref ∉ seen) : Reconciled seen r none

/-- The table `t` that `t₀` was made into, the objects at `seen` having been read and those at `done`
gone through. -/
structure ReconcilesTo (t₀ : Tasks) (seen done : List Str) (t : Tasks) : Prop where
  grows : t₀.nextId ≤ t.nextId
  old : ∀ k r, t₀.get k = some r → Reconciled seen r (t.get k)
  absent : ∀ k, k < t₀.nextId → t₀.get k = none → t.get k = none
  /-- A new row stands for an object gone through that no row was known for. -/
  new : ∀ k r, t₀.nextId ≤ k → t.get k = some r →
    r.pending = none ∧ r.remoteHref ∈ done ∧
      (r.remoteHref ≠ [] → ∀ k' r', t₀.get k' = some r' → r'.remoteHref ≠ r.remoteHref)
  /-- No object is made into two rows. -/
  once : ∀ k k' r r', t₀.nextId ≤ k → t₀.nextId ≤ k' → t.get k = some r → t.get k' = some r' →
    done.Nodup → r.remoteHref = r'.remoteHref → k = k'

theorem ReconcilesTo.refl (t : Tasks) (seen : List Str) : ReconcilesTo t seen [] t where
  grows := Nat.le_refl _
  old k r h := by
    rw [h]
    exact .kept r ⟨rfl, fun _ => rfl, fun h => h⟩
  absent _ _ h := h
  new k r hk h := by
    have := get_lt h
    omega
  once k k' r r' hk _ h _ _ _ := by
    have := get_lt h
    omega

variable {r : Row}

theorem knownAt_some {href : Str} {id : Nat} (h : knownAt (knownRows t) href = some (id, r)) : t.get id = some r := by
  unfold knownAt at h
  have hm := mem_of_getLast? h
  exact mem_rows.mp (mem_of_mem_filter (mem_of_mem_filter hm))

theorem knownAt_none {href : Str} (h : knownAt (knownRows t) href = none)
    (hne : href ≠ []) {k : Nat} (hr : t.get k = some r) : r.remoteHref ≠ href := by
  unfold knownAt at h
  rw [getLast?_eq_none_iff] at h
  intro he
  have hm : (k, r) ∈ (knownRows t).filter (fun p => p.2.remoteHref = href) := by
    simp [knownRows, mem_rows, hr, he, hne]
  rw [h] at hm
  cases hm

variable {t₀ : Tasks} {seen done : List Str}

/-- Rewriting one known row keeps the relation when it keeps it for that row. -/
theorem ReconcilesTo.alter {id : Nat} {f : Row → Option Row} (h : ReconcilesTo t₀ seen done t) (hr : t₀.get id = some r)
    (hf : ∀ x, Kept r x → Reconciled seen r (f x)) : ReconcilesTo t₀ seen done (t.alter id f) where
  grows := h.grows
  old k x hx := by
    have hold := h.old k x hx
    rw [get_alter]
    split
    · rename_i hk
      subst hk
      have hxr : x = r := some.inj (hx.symm.trans hr)
      subst hxr
      generalize t.get k = o at hold
      cases hold with
      | kept y hy => exact hf y hy
      | gone hp hs => exact .gone hp hs
    · exact hold
  absent k hk hn := by
    rw [get_alter]
    split
    · rename_i hid
      rw [hid, hr] at hn
      cases hn
    · exact h.absent k hk hn
  new k x hk hx := by
    have hne : k ≠ id := by
      have := get_lt hr
      omega
    rw [get_alter, if_neg hne] at hx
    exact h.new k x hk hx
  once k k' x x' hk hk' hx hx' := by
    have hlt := get_lt hr
    rw [get_alter, if_neg (by omega)] at hx hx'
    exact h.once k k' x x' hk hk' hx hx'

theorem ReconcilesTo.mono (h : ReconcilesTo t₀ seen done t) (href : Str) : ReconcilesTo t₀ seen (done ++ [href]) t where
  grows := h.grows
  old := h.old
  absent := h.absent
  new k r hk hr := by
    obtain ⟨hp, hd, hn⟩ := h.new k r hk hr
    exact ⟨hp, mem_append_left _ hd, hn⟩
  once k k' r r' hk hk' hr hr' hd := h.once k k' r r' hk hk' hr hr' (nodup_append.mp hd).1

theorem ReconcilesTo.insert {o : Fetched} {todo : Todo}
    (h : ReconcilesTo t₀ seen done t) (hn : knownAt (knownRows t₀) o.href = none) :
    ReconcilesTo t₀ seen (done ++ [o.href]) (t.insert (serverRow o todo)) where
  grows := Nat.le_succ_of_le h.grows
  old k r hr := by
    have hlt := get_lt hr
    have hg := h.grows
    rw [get_insert, if_neg (by omega)]
    exact h.old k r hr
  absent k hk hr := by
    have hg := h.grows
    rw [get_insert, if_neg (by omega)]
    exact h.absent k hk hr
  new k r hk hr := by
    rw [get_insert] at hr
    split at hr
    · cases hr
      exact ⟨rfl, by simp [serverRow], fun hne k' r' hr' => knownAt_none hn hne hr'⟩
    · obtain ⟨hp, hd, hne⟩ := h.new k r hk hr
      exact ⟨hp, mem_append_left _ hd, hne⟩
  once k k' r r' hk hk' hr hr' hd he := by
    -- the object just added is not among those gone through before it
    have hlast : ∀ {j : Nat} {x : Row}, t₀.nextId ≤ j → t.get j = some x → x.remoteHref ≠ o.href := by
      intro j x hj hx heq
      have hdone := (h.new j x hj hx).2.1
      rw [nodup_append] at hd
      exact hd.2.2 _ hdone _ (mem_singleton_self _) heq
    rw [get_insert] at hr hr'
    split at hr
    · rename_i hk₁
      split at hr'
      · rename_i hk₂
        omega
      · cases hr
        exact absurd he.symm (hlast hk' hr')
    · split at hr'
      · cases hr'
        exact absurd he (hlast hk hr)
      · exact h.once k k' r r' hk hk' hr hr' (nodup_append.mp hd).1 he

theorem Kept.mark {x : Row} (h : Kept r x) (hp : r.pending ≠ none) (c : Conflict) : Kept r { x with conflict := some c } where
  href := h.href
  held _ := by rw [h.held hp]
  clear hn := absurd hn hp

theorem Kept.take {x : Row} (h : Kept r x) (hp : r.pending = none) (etag : Option Nat) (ics : Str)
    (todo : Todo) : Kept r (takeServerCopy etag ics todo x) where
  href := h.href
  held hn := absurd hp hn
  clear _ := rfl

theorem reconcileObject_spec {report : Report} {object : Fetched × Todo} (h : ReconcilesTo t₀ seen done t) :
    ReconcilesTo t₀ seen (done ++ [object.1.href]) (reconcileObject (knownRows t₀) (t, report) object).1 := by
  obtain ⟨o, todo⟩ := object
  simp only [reconcileObject]
  split
  · rename_i hn
    exact h.insert hn
  · rename_i id row hk
    have hr := knownAt_some hk
    have hm := h.mono o.href
    split
    · exact hm
    · split
      · rename_i hp
        exact hm.alter hr fun x hx => .kept _ (hx.take hp _ _ _)
      · rename_i hp
        split
        · exact hm.alter hr fun x hx => .kept _ (hx.mark hp _)
        · exact hm

theorem reconcileUnseen_spec {report : Report}
    {known : Nat × Row} (h : ReconcilesTo t₀ seen done t) (hr : t₀.get known.1 = some known.2) :
    ReconcilesTo t₀ seen done (reconcileUnseen seen (t, report) known).1 := by
  obtain ⟨id, row⟩ := known
  simp only [reconcileUnseen]
  split
  · exact h
  · rename_i hs
    split
    · rename_i hp
      refine h.alter hr fun x _ => .gone ?_ hs
      rcases hp with hp | hp <;> rw [hp] <;> decide
    · rename_i hp
      have hput : row.pending ≠ none := fun hn => hp (.inl hn)
      split
      · exact h
      · split
        · exact h.alter hr fun x hx => .kept _ (hx.mark hput _)
        · exact h

theorem reconcileIn_spec (t : Tasks) (parsed : List (Fetched × Todo)) (report : Report) :
    ReconcilesTo t (parsed.map (fun p => p.1.href)) (parsed.map (fun p => p.1.href)) (reconcileIn t parsed report).1 := by
  have hfirst : ReconcilesTo t (parsed.map fun p => p.1.href) (parsed.map fun p => p.1.href)
      (parsed.foldl (reconcileObject (knownRows t)) (t, report)).1 := by
    refine foldl_invariant (b := (t, report)) (P := fun (done : List (Fetched × Todo)) (acc : Tasks × Report) =>
        ReconcilesTo t (parsed.map fun p => p.1.href) (done.map fun p => p.1.href) acc.1)
      (fun done x acc _ h => ?_) (ReconcilesTo.refl t _)
    rw [map_append]
    exact reconcileObject_spec h
  refine foldl_invariant (l := knownEntries (knownRows t))
    (P := fun _ (acc : Tasks × Report) => ReconcilesTo t (parsed.map fun p => p.1.href)
      (parsed.map fun p => p.1.href) acc.1)
    (fun _ x acc hx h => ?_) hfirst
  apply reconcileUnseen_spec h
  exact mem_rows.mp (mem_of_mem_filter (mem_of_mem_filter hx))

/-- Only `push` stops a queue. -/
theorem reconcileIn_stopped (t : Tasks) (parsed : List (Fetched × Todo)) (report : Report) :
    (reconcileIn t parsed report).2.stopped = report.stopped := by
  refine foldl_invariant (l := knownEntries (knownRows t))
    (P := fun _ (acc : Tasks × Report) => acc.2.stopped = report.stopped) ?_ ?_
  · rintro _ ⟨id, row⟩ ⟨u, rep⟩ _ h
    simp only [reconcileUnseen]
    repeat' split
    all_goals exact h
  · refine foldl_invariant (b := (t, report)) (P := fun _ (acc : Tasks × Report) => acc.2.stopped = report.stopped) ?_ rfl
    rintro _ ⟨o, todo⟩ ⟨u, rep⟩ _ h
    simp only [reconcileObject]
    repeat' split
    all_goals exact h

theorem parseAll_hrefs {C : Codec} :
    ∀ {objects : List Fetched} {parsed : List (Fetched × Todo)}, parseAll C objects = some parsed →
      parsed.map (fun p => p.1.href) = objects.map Fetched.href
  | [], parsed, h => by
    simp [parseAll] at h
    simp [h]
  | o :: objects, parsed, h => by
    simp only [parseAll, mapM_cons, bind, bind_eq_some_iff, map_eq_some_iff, pure, some.injEq] at h
    obtain ⟨_, ⟨todo, -, rfl⟩, rest, hrest, rfl⟩ := h
    have hrest' : parseAll C objects = some rest := hrest
    simp [parseAll_hrefs hrest']

/-- A reconciliation ends the sync: with an error and nothing written, or with every row reconciled
with the objects read. -/
theorem reconcile_spec {C : Codec} {t' : Tasks} {objects : List Fetched} {report : Report}
    (h : reconcile C t objects report = (t', ph)) : (t' = t ∧ ph = .idle none) ∨ ∃ report', ph = .idle (some report') ∧
      report'.stopped = report.stopped ∧
      ReconcilesTo t (objects.map Fetched.href) (objects.map Fetched.href) t' := by
  unfold reconcile at h
  split at h
  · cases h
    exact .inl ⟨rfl, rfl⟩
  · rename_i parsed hp
    have hspec := reconcileIn_spec t parsed report
    rw [parseAll_hrefs hp] at hspec
    cases h
    exact .inr ⟨_, rfl, reconcileIn_stopped t parsed report, hspec⟩

end Oreneta.TaskSync

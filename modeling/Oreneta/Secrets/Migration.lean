import Oreneta.Lib.Faulty
import Oreneta.Lib.Text

/-!
# Keychain entries moved to their new service

`secrets_migration.rs`: every write goes to the service `oreneta`; an entry found only under the inherited
service `meron` is copied, read back, compared, and only then deleted there.

* `World` — what both services hold, and what this process knows of the inherited copies.
* `read`, `write`, `deleteEntry` — one keychain call, which may work, fail without effect, or never come because
  the process stops; a write may also leave a damaged value.
* `loadReporting`, `load`, `store`, `delete`, `dbKey`, `migrateAll` — the operations of `Migration`.
* `Call`, `perform`, `run` — a run of the program over any number of processes.

Which keychain calls fail is read off a list of faults.  A process that stops forgets what it knew.  The events
are an observer's: no function reads them.
-/

namespace Oreneta.Secrets

/-- The services: `SERVICE` and `LEGACY_SERVICE`. -/
inductive Service where
  | oreneta
  | meron
  deriving DecidableEq, Repr

/-- What this run knows about an entry's legacy copy. -/
inductive Legacy where
  /-- There is none: never was, or it has been deleted. -/
  | gone
  /-- Not settled this run; the next start looks again. -/
  | deferred
  /-- A store could not retire it either: nothing more this run. -/
  | held
  /-- A copy failed verification and could not be removed: the legacy entry is served first. -/
  | unverified
  deriving DecidableEq, Repr

/-- What one call did about the legacy copy. -/
inductive Outcome where
  | moved
  | deferred
  deriving DecidableEq, Repr

structure Summary where
  checked : Nat
  moved : Nat
  deferred : Nat
  unreadable : Nat
  deriving DecidableEq, Repr

/-- Why a written entry did not verify. -/
inductive Mismatch where
  | damaged
  | unreadable
  deriving DecidableEq, Repr

/-- Why an operation failed: a keychain call did, or a write did not read back. -/
inductive Failure where
  | keychain
  | damaged
  deriving DecidableEq, Repr

/-- What becomes of one keychain call. -/
inductive Fault where
  | works
  | fails
  /-- The process stops before the call. -/
  | stops
  /-- A write leaves something else, whatever it reports; other calls work. -/
  | damages (left : Option Str) (reported : Bool)
  deriving DecidableEq, Repr

/-- What is seen of the stores and deletes of an entry, and of a key that is minted. -/
inductive Event where
  | storing (key : Str)
  /-- The write of a store failed. -/
  | unwritten (key : Str)
  | stored (key blob : Str)
  | deleting (key : Str)
  | deleted (key : Str)
  /-- A key is minted while the two services hold these. -/
  | minting (key : Str) (current legacy : Option Str)
  deriving DecidableEq, Repr

structure World where
  entries : Service → Str → Option Str
  known : Str → Option Legacy
  events : List Event

abbrev M (α : Type) := Prog (List Fault × World) α

def World.put (w : World) (service : Service) (key : Str) (value : Option Str) : World :=
  { w with entries := fun s k => if s = service ∧ k = key then value else w.entries s k }

/-- A new process: nothing is known. -/
def World.restarted (w : World) : World := { w with known := fun _ => none }

/-! ## Keychain calls -/

def read (service : Service) (key : Str) : M (Except Failure (Option Str)) := fun x =>
  match x.1 with
  | [] => (some (.ok (x.2.entries service key)), [], x.2)
  | .fails :: rest => (some (.error .keychain), rest, x.2)
  | .stops :: rest => (none, rest, x.2.restarted)
  | _ :: rest => (some (.ok (x.2.entries service key)), rest, x.2)

def write (service : Service) (key blob : Str) : M (Except Failure Unit) := fun x =>
  match x.1 with
  | [] => (some (.ok ()), [], x.2.put service key (some blob))
  | .works :: rest => (some (.ok ()), rest, x.2.put service key (some blob))
  | .fails :: rest => (some (.error .keychain), rest, x.2)
  | .stops :: rest => (none, rest, x.2.restarted)
  | .damages left reported :: rest =>
    (some (if reported then .ok () else .error .keychain), rest, x.2.put service key left)

/-- A missing entry is not an error. -/
def deleteEntry (service : Service) (key : Str) : M (Except Failure Unit) := fun x =>
  match x.1 with
  | [] => (some (.ok ()), [], x.2.put service key none)
  | .fails :: rest => (some (.error .keychain), rest, x.2)
  | .stops :: rest => (none, rest, x.2.restarted)
  | _ :: rest => (some (.ok ()), rest, x.2.put service key none)

/-! ## What is known -/

def legacy (key : Str) : M (Option Legacy) := Prog.gets (fun w => w.known key)

def settle (key : Str) (state : Legacy) : M Unit :=
  Prog.modify (fun w => { w with known := fun k => if k = key then some state else w.known k })

def note (event : World → Event) : M Unit := Prog.modify (fun w => { w with events := w.events ++ [event w] })

/-! ## Moving an entry -/

/-- The entry read back and compared with what was written. -/
def verified (key blob : Str) : M (Except Mismatch Unit) := do
  match ← read .oreneta key with
  | .ok (some copy) => if copy = blob then pure (.ok ()) else pure (.error .damaged)
  | .ok none => pure (.error .damaged)
  | .error _ => pure (.error .unreadable)

def deleteLegacy (key : Str) : M Legacy := do
  match ← deleteEntry .meron key with
  | .ok () => pure .gone
  | .error _ => pure .deferred

/-- An entry exists under `oreneta`: the legacy copy is deleted if it holds the same value, kept if another. -/
def retire (key current : Str) : M Legacy := do
  match ← read .meron key with
  | .ok none => pure .gone
  | .ok (some legacy) => if legacy = current then deleteLegacy key else pure .deferred
  | .error _ => pure .deferred

/-- A legacy entry copied under `oreneta`, verified, and the legacy one deleted. -/
def copy (key blob : Str) : M Legacy := do
  match ← write .oreneta key blob with
  | .error _ => pure .deferred
  | .ok () =>
    match ← verified key blob with
    | .error _ =>
      -- the copy is read first from now on, so an unverified one must not stay in front of the original
      match ← deleteEntry .oreneta key with
      | .error _ => pure .unverified
      | .ok () => pure .deferred
    | .ok () => deleteLegacy key

/-! ## Reading -/

/-- The entry is not under `oreneta`: it is read under `meron`, and moved when nothing is known of it yet. -/
def loadLegacy (key : Str) (known : Option Legacy) : M (Except Failure (Option Str × Option Outcome)) := do
  match ← read .meron key with
  | .error e =>
    match known with
    | some _ => pure (.error e)
    | none =>
      settle key .deferred
      pure (.error e)
  | .ok none =>
    settle key .gone
    pure (.ok (none, none))
  | .ok (some blob) =>
    match known with
    | some _ => pure (.ok (some blob, none))
    | none =>
      let state ← copy key blob
      settle key state
      pure (.ok (some blob, some (if state = .gone then .moved else .deferred)))

def loadCurrent (key : Str) (known : Option Legacy) : M (Except Failure (Option Str × Option Outcome)) := do
  match ← read .oreneta key with
  | .error e => pure (.error e)
  | .ok (some blob) =>
    match known with
    | some _ => pure (.ok (some blob, none))
    | none =>
      let state ← retire key blob
      settle key state
      pure (.ok (some blob, if state = .gone then none else some .deferred))
  | .ok none => if known = some .gone then pure (.ok (none, none)) else loadLegacy key known

/-- An entry read: `oreneta` first, then `meron`, unless a copy could not be verified. -/
def loadReporting (key : Str) : M (Except Failure (Option Str × Option Outcome)) := do
  let known ← legacy key
  if known = some .unverified then
    match ← read .meron key with
    | .error e => pure (.error e)
    | .ok (some blob) => pure (.ok (some blob, none))
    | .ok none => loadCurrent key known
  else loadCurrent key known

def load (key : Str) : M (Except Failure (Option Str)) := do
  match ← loadReporting key with
  | .error e => pure (.error e)
  | .ok (blob, _) => pure (.ok blob)

/-! ## Writing -/

/-- What a store does once its write came back. -/
def replaceLegacy (key blob : Str) : M (Except Failure Unit) := do
  let known ← legacy key
  if known = some .gone ∨ known = some .held then pure (.ok ())
  else
    match ← read .meron key with
    | .ok none =>
      settle key .gone
      pure (.ok ())
    | .error _ =>
      settle key .held
      pure (.ok ())
    | .ok (some _) =>
      match ← verified key blob with
      | .ok () =>
        let state ← deleteLegacy key
        settle key (if state = .gone then .gone else .held)
        pure (.ok ())
      | .error .unreadable =>
        settle key .held
        pure (.ok ())
      | .error .damaged =>
        match ← deleteEntry .oreneta key with
        | .ok () =>
          settle key .held
          pure (.error .damaged)
        | .error _ =>
          settle key .unverified
          pure (.error .damaged)

def writeThrough (key blob : Str) : M (Except Failure Unit) := do
  match ← write .oreneta key blob with
  | .error e =>
    note (fun _ => .unwritten key)
    pure (.error e)
  | .ok () =>
    match ← replaceLegacy key blob with
    | .error e => pure (.error e)
    | .ok () =>
      note (fun _ => .stored key blob)
      pure (.ok ())

/-- An entry written under `oreneta`; the legacy copy is deleted once the write reads back. -/
def store (key blob : Str) : M (Except Failure Unit) := do
  note (fun _ => .storing key)
  writeThrough key blob

def deleteBoth (key : Str) : M (Except Failure Unit) := do
  match ← deleteEntry .meron key with
  | .error e => pure (.error e)
  | .ok () =>
    settle key .gone
    match ← deleteEntry .oreneta key with
    | .error e => pure (.error e)
    | .ok () =>
      note (fun _ => .deleted key)
      pure (.ok ())

/-- An entry deleted from both services, the legacy one first. -/
def delete (key : Str) : M (Except Failure Unit) := do
  note (fun _ => .deleting key)
  deleteBoth key

/-! ## The store's key -/

/-- A key minted and stored. -/
def mintKey (key fresh : Str) : M (Except Failure Str) := do
  note (fun w => .minting key (w.entries .oreneta key) (w.entries .meron key))
  match ← store key fresh with
  | .error e => pure (.error e)
  | .ok () => pure (.ok fresh)

/-- The key of the encrypted store; `fresh` is what `mint` would give. -/
def dbKey (valid : Str → Bool) (key fresh : Str) : M (Except Failure Str) := do
  match ← load key with
  | .error e => pure (.error e)
  | .ok none => mintKey key fresh
  | .ok (some found) =>
    if valid found = true then pure (.ok found)
    else
      match ← read .meron key with
      | .error e => pure (.error e)
      | .ok none => mintKey key fresh
      | .ok (some legacy) =>
        if valid legacy = true then
          -- the good key is in hand: a failed repair must not keep the store from opening
          let _ ← store key legacy
          pure (.ok legacy)
        else mintKey key fresh

def Summary.count (summary : Summary) : Except Failure (Option Str × Option Outcome) → Summary
  | .ok (_, some .moved) => { summary with checked := summary.checked + 1, moved := summary.moved + 1 }
  | .ok (_, some .deferred) => { summary with checked := summary.checked + 1, deferred := summary.deferred + 1 }
  | .ok (_, none) => { summary with checked := summary.checked + 1 }
  | .error _ => { summary with checked := summary.checked + 1, unreadable := summary.unreadable + 1 }

/-- Every named entry settled now. -/
def migrateFrom (summary : Summary) : List Str → M Summary
  | [] => pure summary
  | key :: keys => do
    let answer ← loadReporting key
    migrateFrom (summary.count answer) keys

def migrateAll (keys : List Str) : M Summary := migrateFrom ⟨0, 0, 0, 0⟩ keys

/-! ## Runs -/

inductive Call where
  | load (key : Str)
  | store (key blob : Str)
  | delete (key : Str)
  | dbKey (key fresh : Str)
  | migrateAll (keys : List Str)
  /-- The program starts again. -/
  | restart
  deriving DecidableEq, Repr

/-- The world after a call that meets the faults, whether or not the process stops in it. -/
def perform (valid : Str → Bool) (w : World) : Call × List Fault → World
  | (.load key, faults) => (load key (faults, w)).2.2
  | (.store key blob, faults) => (store key blob (faults, w)).2.2
  | (.delete key, faults) => (delete key (faults, w)).2.2
  | (.dbKey key fresh, faults) => (dbKey valid key fresh (faults, w)).2.2
  | (.migrateAll keys, faults) => (migrateAll keys (faults, w)).2.2
  | (.restart, _) => w.restarted

def run (valid : Str → Bool) (w : World) (calls : List (Call × List Fault)) : World := calls.foldl (perform valid) w

/-- The keychain as the program finds it. -/
def start (entries : Service → Str → Option Str) : World := ⟨entries, fun _ => none, []⟩

end Oreneta.Secrets

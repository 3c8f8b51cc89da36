import Mathlib.Data.List.Perm.Basic
import Oreneta.Lib.Fallible
import Oreneta.Lib.Utf8
import Oreneta.Lib.Utf8Octets

/-!
# Writing a profile archive

`profile_archive.rs`, from the media folder to the file.

* `Folder` — a folder on disk; `Media` is one whose names are names.  A name is the octets the file system keeps.
* `walk`, `keptMedia`, `writeEntry`, `exportWith` — as in the source.
* `Outside` — age, SHA-256, serde_json and SQLite; `Outside.Lawful` is what the program relies on.

A path inside an archive is a `String`, so its octets are UTF-8.  What is written to the working folder and to the
file beside the archive, and errors of the disk, are left out.
-/

namespace Oreneta.ProfileArchive

open Octets Fallible List

/-! ## The format -/

def FORMAT : Str := "oreneta-profile"

def VERSION : Nat := 1

def MAGIC : Octets := ascii "ORENETA-PROFILE 1\n"

def MAX_WORK_FACTOR : Nat := 20

def MAX_ENTRY_BYTES : Nat := 4 * 2 ^ 30

def MAX_ENTRIES : Nat := 200000

def MAX_PATH_BYTES : Nat := 512

def MAX_MANIFEST_BYTES : Nat := 64 * 2 ^ 20

def DB_ENTRY : Octets := ascii "db/meron.db"

def KEPT_MEDIA : List Octets := [ascii "avatars", ascii "wallpapers"]

/-- `store::SCHEMA_VERSION`. -/
def SCHEMA_VERSION : Int := 66

def slash : UInt8 := 0x2F

structure Entry where
  path : Octets
  size : Nat
  sha256 : Str
  deriving DecidableEq, Repr

structure Exclusion where
  what : Str
  why : Str
  deriving DecidableEq, Repr

structure Manifest where
  format : Str
  version : Nat
  createdAt : Int
  appVersion : Str
  schemaVersion : Int
  dbKey : Str
  entries : List Entry
  excluded : List Exclusion
  deriving DecidableEq, Repr

structure Summary where
  createdAt : Int
  appVersion : Str
  schemaVersion : Int
  entries : Nat
  bytes : Nat
  accounts : Int
  messages : Int
  excluded : List Exclusion
  deriving DecidableEq, Repr

def exclusions : List Exclusion :=
  [⟨"attachment cache", "downloaded again from the mail servers when opened"⟩,
    ⟨"passwords, sign-in grants and private keys",
      "kept in the system keychain; each account is reconnected after a restore"⟩,
    ⟨"window layout and open message tabs", "kept by the window; drafts themselves are in the store"⟩,
    ⟨"diagnostic log", "describes this computer, not the profile"⟩]

def hexDigit (n : Nat) : Char := "0123456789abcdef".toList.getD n '0'

def hex (bytes : Octets) : Str := bytes.flatMap (fun b => [hexDigit (b.toNat / 16), hexDigit (b.toNat % 16)])

/-- A path in a message. -/
def shown (path : Octets) : Str := (Utf8.decode (path.map UInt8.toNat)).getD []

/-! ## What is outside -/

inductive DecryptError where
  | noMatchingKeys | decryptionFailed | keyDecryptionFailed | excessiveWork
  | other (text : Str)
  deriving DecidableEq, Repr

/-- What can be read of an encrypted stream: all of it, or what comes before a broken part. -/
structure Plain where
  bytes : Octets
  whole : Bool
  deriving DecidableEq, Repr

structure Outside where
  /-- A passphrase, a work factor and the stream. -/
  encrypt : Str → Nat → Octets → Octets
  isScrypt : Octets → Except DecryptError Bool
  /-- A passphrase and the most work. -/
  decrypt : Str → Nat → Octets → Except DecryptError Plain
  sha256 : Octets → Octets
  toVec : Manifest → Octets
  fromSlice : Octets → Option Manifest
  /-- The integrity check and the `user_version` of a store opened with a key. -/
  openStore : Str → Octets → Option (Str × Int)

structure Outside.Lawful (O : Outside) : Prop where
  isScrypt : ∀ passphrase work plain, O.isScrypt (O.encrypt passphrase work plain) = .ok true
  decrypt : ∀ passphrase work plain, work ≤ MAX_WORK_FACTOR →
    O.decrypt passphrase MAX_WORK_FACTOR (O.encrypt passphrase work plain) = .ok ⟨plain, true⟩

/-! ## The media folder -/

/-- A folder, one item after another.  `other` is a link, or a folder that cannot be read. -/
inductive Folder where
  | empty
  | file (name bytes : Octets) (rest : Folder)
  | folder (name : Octets) (inside rest : Folder)
  | other (name : Octets) (rest : Folder)
  deriving DecidableEq, Repr

/-- A file and where it is, from the media folder. -/
structure DiskFile where
  path : List Octets
  bytes : Octets
  deriving DecidableEq, Repr

/-- What a file system takes for a name. -/
def IsName (name : Octets) : Prop :=
  name ≠ [] ∧ name ≠ ascii "." ∧ name ≠ ascii ".." ∧ slash ∉ name ∧ 0 ∉ name

instance (name : Octets) : Decidable (IsName name) := by
  unfold IsName
  infer_instance

namespace Folder

def names : Folder → List Octets
  | empty => []
  | file name _ rest => name :: rest.names
  | folder name _ rest => name :: rest.names
  | other name rest => name :: rest.names

/-- Names are names, and no two in one folder are the same. -/
def WellFormed : Folder → Prop
  | empty => True
  | file name _ rest => IsName name ∧ name ∉ rest.names ∧ rest.WellFormed
  | folder name inside rest => IsName name ∧ name ∉ rest.names ∧ inside.WellFormed ∧ rest.WellFormed
  | other name rest => IsName name ∧ name ∉ rest.names ∧ rest.WellFormed

/-- The folder under a name. -/
def find (wanted : Octets) : Folder → Option Folder
  | empty => none
  | file _ _ rest => rest.find wanted
  | folder name inside rest => if name = wanted then some inside else rest.find wanted
  | other _ rest => rest.find wanted

/-- The files of `dir` itself. -/
def filesIn (dir : List Octets) : Folder → List DiskFile
  | empty => []
  | file name bytes rest => ⟨dir ++ [name], bytes⟩ :: rest.filesIn dir
  | folder _ _ rest => rest.filesIn dir
  | other _ rest => rest.filesIn dir

def foldersIn (dir : List Octets) : Folder → List (List Octets × Folder)
  | empty => []
  | file _ _ rest => rest.foldersIn dir
  | folder name inside rest => (dir ++ [name], inside) :: rest.foldersIn dir
  | other _ rest => rest.foldersIn dir

def weight : Folder → Nat
  | empty => 1
  | file _ _ rest => rest.weight
  | folder _ inside rest => inside.weight + rest.weight
  | other _ rest => rest.weight

def stackWeight (stack : List (List Octets × Folder)) : Nat := (stack.map (fun p => p.2.weight)).sum

theorem foldersIn_weight (dir : List Octets) (f : Folder) : stackWeight (f.foldersIn dir) + 1 = f.weight := by
  induction f with
  | empty => rfl
  | file _ _ rest ih => exact ih
  | folder name inside rest _ ih =>
    unfold foldersIn weight
    rw [← ih]
    simp only [stackWeight, map_cons, sum_cons]
    omega
  | other _ rest ih => exact ih

end Folder

structure Media where
  root : Folder
  wellFormed : root.WellFormed

/-- The folders still to read, the next one first. -/
def walk : List (List Octets × Folder) → List DiskFile
  | [] => []
  | (dir, f) :: stack => f.filesIn dir ++ walk ((f.foldersIn dir).reverse ++ stack)
termination_by stack => Folder.stackWeight stack
decreasing_by
  have := Folder.foldersIn_weight dir f
  simp only [Folder.stackWeight, map_append, map_reverse, sum_append, sum_reverse, map_cons,
    sum_cons] at this ⊢
  omega

def archivePath (path : List Octets) : Octets := ascii "media/" ++ [slash].intercalate (path.map Utf8Octets.lossy)

/-- The order of the pairs that are sorted. -/
def before (a b : Octets × DiskFile) : Bool := decide (a.1 < b.1) || (a.1 == b.1 && decide (a.2.path ≤ b.2.path))

def keptMedia (media : Media) : List (Octets × DiskFile) :=
  let found := KEPT_MEDIA.flatMap (fun folder => match media.root.find folder with
    | some f => walk [([folder], f)]
    | none => [])
  (found.map (fun file => (archivePath file.path, file))).mergeSort before

/-! ## The file -/

/-- An entry's octets: the lengths are cast to 16 and 64 bits. -/
def entryOctets (path bytes : Octets) : Octets :=
  ascii "E" ++ bigEndian 2 path.length ++ path ++ bigEndian 8 bytes.length ++ bytes

def writeEntry (O : Outside) (path bytes : Octets) : Except Str (Octets × Entry) := do
  ensureWith (bytes.length ≤ MAX_ENTRY_BYTES) (shown path ++ " is larger than an archive entry may be")
  return (entryOctets path bytes, ⟨path, bytes.length, hex (O.sha256 bytes)⟩)

def writeEntries (O : Outside) : List (Octets × DiskFile) → Except Str (List (Octets × Entry))
  | [] => return []
  | (path, file) :: files => do
    let entry ← writeEntry O path file.bytes
    let rest ← writeEntries O files
    return entry :: rest

structure ExportOptions where
  media : Media
  appVersion : Str
  now : Int
  workFactor : Nat

structure Snapshot where
  schemaVersion : Int
  accounts : Int
  messages : Int
  deriving DecidableEq, Repr

def manifestOctets (json : Octets) : Octets := ascii "M" ++ bigEndian 4 json.length ++ json ++ ascii "Z"

def exportWith (O : Outside) (copyStore : Str → Except Str (Octets × Snapshot)) (key : Octets) (passphrase : Str)
    (options : ExportOptions) : Except Str (Octets × Summary) := do
  ensure (8 ≤ passphrase.length) "the passphrase needs at least 8 characters"
  let dbKey := hex key
  let (store, snapshot) ← copyStore dbKey
  let first ← writeEntry O DB_ENTRY store
  let rest ← writeEntries O (keptMedia options.media)
  let manifest : Manifest := ⟨FORMAT, VERSION, options.now, options.appVersion, snapshot.schemaVersion, dbKey,
    (first :: rest).map Prod.snd, exclusions⟩
  let stream := MAGIC ++ (first :: rest).flatMap Prod.fst ++ manifestOctets (O.toVec manifest)
  return (O.encrypt passphrase options.workFactor stream,
    ⟨manifest.createdAt, manifest.appVersion, snapshot.schemaVersion, manifest.entries.length,
      (manifest.entries.map Entry.size).sum, snapshot.accounts, snapshot.messages, manifest.excluded⟩)

end Oreneta.ProfileArchive

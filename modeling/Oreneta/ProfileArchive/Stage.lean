import Oreneta.ProfileArchive.Export

/-!
# Reading a profile archive

`stage` of `profile_archive.rs`: an archive is unpacked into an empty folder and checked.

* `safePath`, `readEntry`, `unpack`, `stage` — as in the source; the files made are part of what a run answers,
  also of a run that fails.
* `Component`, `join` — as `Path::components` and `Path::join`, and where the file system then puts the file.
-/

namespace Oreneta.ProfileArchive

open Octets Fallible

/-! ## Paths -/

inductive Component where
  | rootDir | curDir | parentDir
  | normal (name : Octets)
  deriving DecidableEq, Repr

def component (part : Octets) : Option Component :=
  if part = [] ∨ part = ascii "." then none
  else if part = ascii ".." then some .parentDir
  else some (.normal part)

def components (path : Octets) : List Component :=
  (if path.head? = some slash then [.rootDir] else []) ++
    (if (path.splitOn slash).head? = some (ascii ".") then [.curDir] else []) ++
      (path.splitOn slash).filterMap component

def Component.enter (dir : List Octets) : Component → List Octets
  | .rootDir => []
  | .curDir => dir
  | .parentDir => dir.dropLast
  | .normal name => dir ++ [name]

/-- Where a path leads from a folder. -/
def join (dir : List Octets) (path : Octets) : List Octets := (components path).foldl Component.enter dir

def Component.isNormal : Component → Bool
  | .normal name => !name.isEmpty
  | _ => false

/-- The path is returned as it is: a `PathBuf` of it. -/
def safePath (path : Octets) : Except Str Octets := do
  ensure (path ≠ [] ∧ path.length ≤ MAX_PATH_BYTES) "an archive entry has an invalid name"
  ensureWith (0x5C ∉ path ∧ 0x3A ∉ path ∧ 0 ∉ path) ("an archive entry has an invalid name: " ++ shown path)
  ensureWith (path = DB_ENTRY ∨ (ascii "media/").isPrefixOf path)
    ("an archive entry is outside the profile: " ++ shown path)
  ensureWith (∀ part ∈ path.splitOn slash, part ≠ [] ∧ part ≠ ascii "." ∧ part ≠ ascii "..")
    ("an archive entry is outside the profile: " ++ shown path)
  ensureWith (∀ part ∈ components path, part.isNormal) ("an archive entry is outside the profile: " ++ shown path)
  return path

/-! ## The staging folder -/

structure Unpacked where
  seen : List Octets
  written : List Entry
  /-- The files made, by where they are. -/
  files : List DiskFile
  deriving DecidableEq, Repr

/-- `create_dir_all` of its folder and `File::create`: no file is in the way, and no folder is where it goes. -/
def canCreate (files : List DiskFile) (place : List Octets) : Bool :=
  files.all (fun f => !(f.path.isPrefixOf place || place.isPrefixOf f.path) || f.path == place)

def create (files : List DiskFile) (file : DiskFile) : List DiskFile :=
  files.filter (fun f => f.path != file.path) ++ [file]

/-- The octets copied at a time. -/
def BUFFER : Nat := 2 ^ 20

/-! ## The stream -/

def cutShort (what : Str) : Str := "the archive is cut short (" ++ what ++ ")"

/-- `read_exact_or`. -/
def readExactOr (n : Nat) (input : Octets) (what : Str) : Except Str (Octets × Octets) :=
  match readExact n input with
  | some p => .ok p
  | none => .error (cutShort what)

/-- An entry's path and size, and what follows. -/
def readHead (st : Unpacked) (input : Octets) : Except Str (Octets × Nat × Octets) := do
  ensure (st.written.length < MAX_ENTRIES) "the archive has too many entries"
  let (len, input) ← readExactOr 2 input "name"
  let (path, input) ← readExactOr (ofBigEndian len) input "name"
  ensure (Utf8Octets.valid path) "an archive entry has an invalid name"
  let _ ← safePath path
  ensureWith (path ∉ st.seen) ("the archive repeats " ++ shown path)
  let (size, input) ← readExactOr 8 input "size"
  ensureWith (ofBigEndian size ≤ MAX_ENTRY_BYTES) (shown path ++ " is larger than an archive entry may be")
  return (path, ofBigEndian size, input)

def readEntry (O : Outside) (staging : List Octets) (st : Unpacked) (input : Octets) : Unpacked × Except Str Octets :=
  match readHead st input with
  | .error error => (st, .error error)
  | .ok (path, size, input) =>
    let place := join staging path
    if !canCreate st.files place then (st, .error "a file cannot be made")
    else
      match readExact size input with
      | none =>
        -- whole buffers were copied before the stream ended
        ({ st with files := create st.files ⟨place, input.take (input.length / BUFFER * BUFFER)⟩ },
          .error (cutShort (shown path)))
      | some (bytes, rest) =>
        (⟨st.seen ++ [path], st.written ++ [⟨path, size, hex (O.sha256 bytes)⟩], create st.files ⟨place, bytes⟩⟩, .ok rest)

def readManifest (O : Outside) (input : Octets) : Except Str (Manifest × Octets) := do
  let (len, input) ← readExactOr 4 input "manifest"
  ensure (ofBigEndian len ≤ MAX_MANIFEST_BYTES) "the archive manifest is too large"
  let (json, input) ← readExactOr (ofBigEndian len) input "manifest"
  let manifest ← context (O.fromSlice json) "the archive manifest is damaged"
  return (manifest, input)

theorem readExactOr_ok {n : Nat} {input head rest : Octets} {what : Str}
    (h : readExactOr n input what = .ok (head, rest)) : input = head ++ rest ∧ head.length = n := by
  unfold readExactOr at h
  split at h
  · rename_i p hp
    cases h
    exact readExact_some hp
  · cases h

/-- What is known of an entry whose head was read. -/
structure HeadRead (st : Unpacked) (input path : Octets) (size : Nat) (rest : Octets) : Prop where
  room : st.written.length < MAX_ENTRIES
  length_lt : path.length < 256 ^ 2
  valid : Utf8Octets.valid path = true
  safe : (safePath path).isOk = true
  fresh : path ∉ st.seen
  size_lt : size < 256 ^ 8
  size_le : size ≤ MAX_ENTRY_BYTES
  input_eq : input = bigEndian 2 path.length ++ path ++ bigEndian 8 size ++ rest

theorem readHead_ok {st : Unpacked} {input path rest : Octets} {size : Nat}
    (h : readHead st input = .ok (path, size, rest)) : HeadRead st input path size rest := by
  obtain ⟨_, hroom, h⟩ := bind_ok.mp h
  obtain ⟨⟨len, afterLen⟩, hlen, h⟩ := bind_ok.mp h
  obtain ⟨⟨name, afterName⟩, hname, h⟩ := bind_ok.mp h
  obtain ⟨_, hvalid, h⟩ := bind_ok.mp h
  obtain ⟨relative, hsafe, h⟩ := bind_ok.mp h
  obtain ⟨_, hfresh, h⟩ := bind_ok.mp h
  obtain ⟨⟨sizeOctets, afterSize⟩, hsize, h⟩ := bind_ok.mp h
  obtain ⟨_, hle, h⟩ := bind_ok.mp h
  cases h
  obtain ⟨hinput, hlen⟩ := readExactOr_ok hlen
  obtain ⟨hafterLen, hname⟩ := readExactOr_ok hname
  obtain ⟨hafterName, hsize⟩ := readExactOr_ok hsize
  have hlenOctets : len = bigEndian 2 path.length := by
    rw [hname, ← hlen, bigEndian_ofBigEndian]
  have hsizeOctets : sizeOctets = bigEndian 8 (ofBigEndian sizeOctets) := by
    rw [← hsize, bigEndian_ofBigEndian]
  refine ⟨ensure_ok.mp hroom, ?_, ensure_ok.mp hvalid, by rw [hsafe]; rfl, ensureWith_ok.mp hfresh, ?_,
    ensureWith_ok.mp hle, ?_⟩
  · rw [hname, ← hlen]
    exact ofBigEndian_lt len
  · rw [← hsize]
    exact ofBigEndian_lt sizeOctets
  · rw [← hlenOctets, ← hsizeOctets, hinput, hafterLen, hafterName]
    simp only [List.append_assoc]

theorem readEntry_length {O : Outside} {staging : List Octets} {st st' : Unpacked} {input rest : Octets}
    (h : readEntry O staging st input = (st', .ok rest)) : rest.length ≤ input.length := by
  unfold readEntry at h
  split at h
  · cases h
  · rename_i path size afterHead hhead
    dsimp only at h
    split at h
    · cases h
    · split at h
      · cases h
      · rename_i bytes rest' hbytes
        cases h
        rw [(readHead_ok hhead).input_eq, (readExact_some hbytes).1]
        simp only [List.length_append]
        omega

/-- The entries one after another, until the manifest: what was unpacked, the manifest, and what follows it. -/
def unpack (O : Outside) (staging : List Octets) (st : Unpacked) : Octets → Unpacked × Except Str (Manifest × Octets)
  | [] => (st, .error (cutShort "entry"))
  | tag :: input =>
    if [tag] = ascii "E" then
      match _h : readEntry O staging st input with
      | (st', .ok rest) => unpack O staging st' rest
      | (st', .error error) => (st', .error error)
    else if [tag] = ascii "M" then (st, readManifest O input)
    else (st, .error "the archive is damaged")
termination_by input => input.length
decreasing_by
  have := readEntry_length _h
  rw [List.length_cons]
  omega

/-- What is checked once the manifest is read. -/
def checkArchive (O : Outside) (staging : List Octets) (st : Unpacked) (manifest : Manifest) (input : Octets) (whole : Bool) :
    Except Str Manifest := do
  let (tag, rest) ← readExactOr 1 input "end"
  ensure (tag = ascii "Z") "the archive is damaged"
  ensure (rest = []) "the archive has data after its end"
  ensure (whole = true) "not a readable profile archive"
  ensure (manifest.format = FORMAT) "not an Oreneta profile archive"
  ensure (manifest.version ≤ VERSION) "this archive was made by a newer version of Oreneta"
  ensure (manifest.entries = st.written) "the archive does not match its own manifest"
  ensure (manifest.dbKey.length = 64 ∧ manifest.dbKey.all (fun c => c.isDigit || ('a' ≤ c && c ≤ 'f') || ('A' ≤ c && c ≤ 'F')))
    "the archive manifest is damaged"
  ensure (manifest.schemaVersion ≤ SCHEMA_VERSION) "this archive was made by a newer version of Oreneta"
  let store ← context (st.files.find? (fun f => f.path == join staging DB_ENTRY)) "unable to open database file"
  let (check, version) ← context (O.openStore manifest.dbKey store.bytes) "the store in the archive does not open"
  ensureWith (check = "ok") ("the store in the archive is damaged: " ++ check)
  ensure (version = manifest.schemaVersion) "the archive does not match its own manifest"
  return manifest

/-- `decrypt_error`. -/
def decryptError : DecryptError → Str
  | .noMatchingKeys => "wrong passphrase, or not an Oreneta profile archive"
  | .decryptionFailed => "wrong passphrase, or not an Oreneta profile archive"
  | .keyDecryptionFailed => "wrong passphrase, or not an Oreneta profile archive"
  | .excessiveWork => "this archive asks for more work than allowed"
  | .other text => "not a readable profile archive: " ++ text

def decrypted {α : Type} (x : Except DecryptError α) : Except Str α :=
  match x with
  | .ok a => .ok a
  | .error error => .error (decryptError error)

/-- The stream after the magic line. -/
def openArchive (O : Outside) (archive : Octets) (passphrase : Str) : Except Str Plain := do
  let scrypt ← decrypted (O.isScrypt archive)
  ensure (scrypt = true) "not an Oreneta profile archive"
  let plain ← decrypted (O.decrypt passphrase MAX_WORK_FACTOR archive)
  let (magic, input) ← context (readExact MAGIC.length plain.bytes) "not an Oreneta profile archive"
  ensure (magic = MAGIC) "not an Oreneta profile archive, or one from a newer version"
  return ⟨input, plain.whole⟩

/-- The files made in the staging folder, empty before, and the answer. -/
def stage (O : Outside) (archive : Octets) (passphrase : Str) (staging : List Octets) : List DiskFile × Except Str Manifest :=
  match openArchive O archive passphrase with
  | .error error => ([], .error error)
  | .ok plain =>
    match unpack O staging ⟨[], [], []⟩ plain.bytes with
    | (st, .error error) => (st.files, .error error)
    | (st, .ok (manifest, rest)) => (st.files, checkArchive O staging st manifest rest plain.whole)

end Oreneta.ProfileArchive

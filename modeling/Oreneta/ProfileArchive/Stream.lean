import Mathlib.Data.List.Nodup
import Oreneta.ProfileArchive.Stage

/-!
# What an archive that is accepted is

* `Item` — an entry with its octets; `Sound` — what a list of entries must be.
* `join_safe` — a safe path leads into the folder it is joined to.
* `stage_ok` — an archive `stage` accepts is the magic line, sound entries, one manifest that lists just these, and
  the end mark; `stage_inside` — accepted or not, no file is made outside the staging folder.
* `unpack_items` — sound entries that are not in each other's way are unpacked.
-/

namespace Oreneta.ProfileArchive

open Octets Fallible List

structure Item where
  path : Octets
  bytes : Octets
  deriving DecidableEq, Repr

namespace Item

def octets (i : Item) : Octets := entryOctets i.path i.bytes

def entry (O : Outside) (i : Item) : Entry := ⟨i.path, i.bytes.length, hex (O.sha256 i.bytes)⟩

/-- The parts of its path. -/
def parts (i : Item) : List Octets := i.path.splitOn slash

/-- The file it becomes. -/
def file (staging : List Octets) (i : Item) : DiskFile := ⟨staging ++ i.parts, i.bytes⟩

/-- Its path is one an archive may have, and its lengths fit. -/
structure Fits (i : Item) : Prop where
  valid : Utf8Octets.valid i.path = true
  safe : (safePath i.path).isOk = true
  size_le : i.bytes.length ≤ MAX_ENTRY_BYTES

end Item

structure Sound (items : List Item) : Prop where
  fits : ∀ i ∈ items, i.Fits
  nodup : (items.map Item.path).Nodup
  room : items.length ≤ MAX_ENTRIES

/-! ## Safe paths -/

/-- What `safePath` checks. -/
structure SafePath (path : Octets) : Prop where
  length_le : path.length ≤ MAX_PATH_BYTES
  backslash : (0x5C : UInt8) ∉ path
  colon : (0x3A : UInt8) ∉ path
  nul : (0 : UInt8) ∉ path
  inside : path = DB_ENTRY ∨ (ascii "media/").isPrefixOf path = true
  parts : ∀ part ∈ path.splitOn slash, part ≠ [] ∧ part ≠ ascii "." ∧ part ≠ ascii ".."

variable {path : Octets}

theorem head_splitOn (h : path.head? = some slash) : [] ∈ path.splitOn slash := by
  cases path with
  | nil => cases h
  | cons b rest =>
    cases Option.some.inj h
    have hsplit : ([] ++ slash :: rest).splitOn slash = [] :: rest.splitOn slash :=
      splitOn_append_cons_self_of_not_mem not_mem_nil rest
    rw [nil_append] at hsplit
    rw [hsplit]
    exact mem_cons_self

/-- Every part of a canonical path is a component. -/
theorem components_of_parts (h : ∀ part ∈ path.splitOn slash, part ≠ [] ∧ part ≠ ascii "." ∧ part ≠ ascii "..") :
    components path = (path.splitOn slash).map Component.normal := by
  have hroot : path.head? ≠ some slash := fun hs => (h [] (head_splitOn hs)).1 rfl
  have hdot : (path.splitOn slash).head? ≠ some (ascii ".") := by
    intro hs
    exact (h (ascii ".") (mem_of_mem_head? hs)).2.1 rfl
  have hparts : (path.splitOn slash).filterMap component = (path.splitOn slash).map Component.normal := by
    rw [← filterMap_eq_map]
    apply filterMap_congr
    intro part hm
    obtain ⟨hne, hdot, hdots⟩ := h part hm
    simp [component, hne, hdot, hdots]
  unfold components
  rw [if_neg hroot, if_neg hdot, hparts]
  rfl

theorem safePath_isOk : (safePath path).isOk = true ↔ path ≠ [] ∧ SafePath path := by
  constructor
  · intro h
    cases hs : safePath path with
    | error e =>
      rw [hs] at h
      cases h
    | ok relative =>
      obtain ⟨_, hlength, hs⟩ := bind_ok.mp hs
      obtain ⟨_, hchars, hs⟩ := bind_ok.mp hs
      obtain ⟨_, hinside, hs⟩ := bind_ok.mp hs
      obtain ⟨_, hparts, -⟩ := bind_ok.mp hs
      obtain ⟨hne, hle⟩ := ensure_ok.mp hlength
      obtain ⟨hback, hcolon, hnul⟩ := ensureWith_ok.mp hchars
      exact ⟨hne, hle, hback, hcolon, hnul, ensureWith_ok.mp hinside, ensureWith_ok.mp hparts⟩
  · rintro ⟨hne, h⟩
    have hnormal : ∀ part ∈ components path, part.isNormal := by
      rw [components_of_parts h.parts]
      intro part hm
      obtain ⟨name, hname, rfl⟩ := mem_map.mp hm
      simpa [Component.isNormal] using (h.parts name hname).1
    have hs : safePath path = .ok path := by
      unfold safePath
      rw [bind_ok]
      refine ⟨(), ensure_ok.mpr ⟨hne, h.length_le⟩, ?_⟩
      rw [bind_ok]
      refine ⟨(), ensureWith_ok.mpr ⟨h.backslash, h.colon, h.nul⟩, ?_⟩
      rw [bind_ok]
      refine ⟨(), ensureWith_ok.mpr h.inside, ?_⟩
      rw [bind_ok]
      refine ⟨(), ensureWith_ok.mpr h.parts, ?_⟩
      rw [bind_ok]
      exact ⟨(), ensureWith_ok.mpr hnormal, rfl⟩
    rw [hs]
    rfl

/-- A safe path leads into the folder. -/
theorem join_safe (h : SafePath path) (dir : List Octets) : join dir path = dir ++ path.splitOn slash := by
  have hfold : ∀ (names dir : List Octets), (names.map Component.normal).foldl Component.enter dir = dir ++ names := by
    intro names
    induction names with
    | nil =>
      intro dir
      exact (append_nil dir).symm
    | cons name names ih =>
      intro dir
      rw [map_cons, foldl_cons, ih, Component.enter, append_assoc]
      rfl
  unfold join
  rw [components_of_parts h.parts, hfold]

theorem Item.Fits.safePath {i : Item} (h : i.Fits) : SafePath i.path := (safePath_isOk.mp h.safe).2

theorem Item.Fits.length_lt {i : Item} (h : i.Fits) : i.path.length < 256 ^ 2 := by
  have := h.safePath.length_le
  unfold MAX_PATH_BYTES at this
  omega

theorem Item.Fits.size_lt {i : Item} (h : i.Fits) : i.bytes.length < 256 ^ 8 := by
  have := h.size_le
  unfold MAX_ENTRY_BYTES at this
  omega

/-- A path is its parts. -/
theorem parts_inj {i j : Item} (h : i.parts = j.parts) : i.path = j.path := by
  have hi : [slash].intercalate (i.path.splitOn slash) = i.path := intercalate_splitOn slash
  have hj : [slash].intercalate (j.path.splitOn slash) = j.path := intercalate_splitOn slash
  unfold Item.parts at h
  rw [← hi, ← hj, h]

/-! ## One entry -/

/-- What is unpacked once the entries are read. -/
def unpackedOf (O : Outside) (staging : List Octets) (items : List Item) : Unpacked :=
  ⟨items.map Item.path, items.map (Item.entry O), items.map (Item.file staging)⟩

section Reading

variable {O : Outside} {staging : List Octets}

theorem unpackedOf_append (items : List Item) (i : Item) :
    unpackedOf O staging (items ++ [i]) = ⟨items.map Item.path ++ [i.path], items.map (Item.entry O) ++ [i.entry O],
      items.map (Item.file staging) ++ [i.file staging]⟩ := by
  simp [unpackedOf]

variable {items : List Item} {i : Item}

theorem create_new (h : i.path ∉ items.map Item.path) :
    create (items.map (Item.file staging)) (i.file staging) = items.map (Item.file staging) ++ [i.file staging] := by
  unfold create
  rw [filter_eq_self.mpr]
  intro f hf
  obtain ⟨j, hj, rfl⟩ := mem_map.mp hf
  rw [bne_iff_ne]
  intro hsame
  have hparts : j.parts = i.parts := append_cancel_left hsame
  exact h (parts_inj hparts ▸ mem_map_of_mem hj)

theorem Sound.append (hs : Sound items) (hi : i.Fits)
    (hnew : i.path ∉ items.map Item.path) (hroom : items.length < MAX_ENTRIES) : Sound (items ++ [i]) := by
  refine ⟨?_, ?_, ?_⟩
  · intro j hj
    rcases mem_append.mp hj with hj | hj
    · exact hs.fits j hj
    · rw [mem_singleton.mp hj]
      exact hi
  · rw [map_append, nodup_append]
    refine ⟨hs.nodup, nodup_singleton _, ?_⟩
    intro a ha b hb hab
    rw [hab, mem_singleton.mp hb] at ha
    exact hnew ha
  · rw [length_append, length_singleton]
    omega

variable {st : Unpacked} {input rest : Octets}

/-- An entry that was read is one that was written. -/
theorem readEntry_ok (hs : Sound items) (h : readEntry O staging (unpackedOf O staging items) input = (st, .ok rest)) :
    ∃ i, Sound (items ++ [i]) ∧ st = unpackedOf O staging (items ++ [i]) ∧ ascii "E" ++ input = i.octets ++ rest := by
  unfold readEntry at h
  split at h
  · cases h
  · rename_i path size afterHead hhead
    have hhead := readHead_ok hhead
    dsimp only at h
    split at h
    · cases h
    · split at h
      · cases h
      · rename_i bytes rest' hbytes
        cases h
        obtain ⟨hafter, hsize⟩ := readExact_some hbytes
        have hfits : Item.Fits ⟨path, bytes⟩ := ⟨hhead.valid, hhead.safe, hsize ▸ hhead.size_le⟩
        have hplace : (⟨join staging path, bytes⟩ : DiskFile) = Item.file staging ⟨path, bytes⟩ := by
          rw [join_safe hfits.safePath]
          rfl
        refine ⟨⟨path, bytes⟩, hs.append hfits hhead.fresh ?_, ?_, ?_⟩
        · have := hhead.room
          rwa [unpackedOf, length_map] at this
        · rw [unpackedOf_append, hplace]
          show Unpacked.mk _ _ (create (items.map (Item.file staging)) _) = _
          rw [create_new hhead.fresh, ← hsize]
          rfl
        · rw [hhead.input_eq, hafter, Item.octets, entryOctets, ← hsize]
          simp only [append_assoc]

theorem unpack_entry {st' : Unpacked} (h : readEntry O staging st input = (st', .ok rest)) :
    unpack O staging st (ascii "E" ++ input) = unpack O staging st' rest := by
  show unpack O staging st (0x45 :: input) = _
  rw [unpack, if_pos (by decide)]
  split
  · rename_i st₁ rest₁ h₁
    rw [h] at h₁
    cases h₁
    rfl
  · rename_i st₁ error h₁
    rw [h] at h₁
    cases h₁

theorem unpack_manifest (st : Unpacked) (input : Octets) :
    unpack O staging st (ascii "M" ++ input) = (st, readManifest O input) := by
  show unpack O staging st (0x4D :: input) = _
  rw [unpack, if_neg (by decide), if_pos (by decide)]

variable {manifest : Manifest}

theorem readManifest_ok (h : readManifest O input = .ok (manifest, rest)) :
    ∃ json, O.fromSlice json = some manifest ∧ json.length ≤ MAX_MANIFEST_BYTES ∧
      input = bigEndian 4 json.length ++ json ++ rest := by
  obtain ⟨⟨len, afterLen⟩, hlen, h⟩ := bind_ok.mp h
  obtain ⟨_, hle, h⟩ := bind_ok.mp h
  obtain ⟨⟨json, afterJson⟩, hjson, h⟩ := bind_ok.mp h
  obtain ⟨read, hread, h⟩ := bind_ok.mp h
  cases h
  obtain ⟨hinput, hlen⟩ := readExactOr_ok hlen
  obtain ⟨hafter, hjson⟩ := readExactOr_ok hjson
  have hlenOctets : len = bigEndian 4 json.length := by
    rw [hjson, ← hlen, bigEndian_ofBigEndian]
  refine ⟨json, context_ok.mp hread, ?_, ?_⟩
  · rw [hjson]
    exact ensure_ok.mp hle
  · rw [← hlenOctets, hinput, hafter, append_assoc]

/-- **What was unpacked was written so**: entries, then a manifest. -/
theorem unpack_ok (hs : Sound items) (h : unpack O staging (unpackedOf O staging items) input = (st, .ok (manifest, rest))) :
    ∃ more json, Sound (items ++ more) ∧ st = unpackedOf O staging (items ++ more) ∧
      O.fromSlice json = some manifest ∧ json.length ≤ MAX_MANIFEST_BYTES ∧
      input = more.flatMap Item.octets ++ (ascii "M" ++ bigEndian 4 json.length ++ json ++ rest) := by
  generalize hst : unpackedOf O staging items = start at h
  induction start, input using unpack.induct O staging generalizing items with
  | case1 start =>
    rw [unpack] at h
    cases h
  | case2 start tag input htag st' rest' hentry ih =>
    have htag : tag = 0x45 := by simpa [ascii] using htag
    have hinput : tag :: input = ascii "E" ++ input := by
      rw [htag]
      rfl
    rw [hinput, unpack_entry hentry] at h
    rw [← hst] at hentry
    obtain ⟨i, hs', hst', hi⟩ := readEntry_ok hs hentry
    obtain ⟨more, json, hsound, hunpacked, hjson, hle, hrest⟩ := ih hs' hst'.symm h
    refine ⟨i :: more, json, ?_, ?_, hjson, hle, ?_⟩
    · simpa using hsound
    · simpa using hunpacked
    · rw [hinput, hi, hrest, flatMap_cons]
      simp only [append_assoc]
  | case3 start tag input htag st' error hentry =>
    rw [unpack, if_pos htag] at h
    split at h
    · rename_i h₁
      rw [hentry] at h₁
      cases h₁
    · cases h
  | case4 start tag input hentry htag =>
    have htag : tag = 0x4D := by simpa [ascii] using htag
    have hinput : tag :: input = ascii "M" ++ input := by
      rw [htag]
      rfl
    rw [hinput, unpack_manifest] at h
    obtain ⟨hstart, hmanifest⟩ := Prod.mk.inj h
    obtain ⟨json, hjson, hle, hrest⟩ := readManifest_ok hmanifest
    refine ⟨[], json, ?_, ?_, hjson, hle, ?_⟩
    · simpa using hs
    · simpa [hst] using hstart.symm
    · rw [hinput, hrest]
      simp only [flatMap_nil, nil_append, append_assoc]
  | case5 start tag input hentry hmanifest =>
    rw [unpack, if_neg hentry, if_neg hmanifest] at h
    cases h

/-! ## Entries that are read back -/

theorem readExactOr_append {n : Nat} {head : Octets} (h : head.length = n) (rest : Octets) (what : Str) :
    readExactOr n (head ++ rest) what = .ok (head, rest) := by
  unfold readExactOr
  rw [readExact_append h]

theorem readHead_item (hi : i.Fits) (hroom : st.written.length < MAX_ENTRIES) (hnew : i.path ∉ st.seen) (rest : Octets) :
    readHead st (bigEndian 2 i.path.length ++ i.path ++ bigEndian 8 i.bytes.length ++ rest) =
      .ok (i.path, i.bytes.length, rest) := by
  obtain ⟨relative, hsafe⟩ : ∃ relative, safePath i.path = .ok relative := by
    cases h : safePath i.path with
    | ok relative => exact ⟨relative, rfl⟩
    | error e =>
      have := hi.safe
      rw [h] at this
      cases this
  have hlength : ofBigEndian (bigEndian 2 i.path.length) = i.path.length := ofBigEndian_of_lt hi.length_lt
  have hsize : ofBigEndian (bigEndian 8 i.bytes.length) = i.bytes.length := ofBigEndian_of_lt hi.size_lt
  unfold readHead
  rw [bind_ok]
  refine ⟨(), ensure_ok.mpr hroom, ?_⟩
  rw [bind_ok]
  refine ⟨(bigEndian 2 i.path.length, i.path ++ (bigEndian 8 i.bytes.length ++ rest)), ?_, ?_⟩
  · rw [append_assoc, append_assoc]
    exact readExactOr_append (length_bigEndian 2 _) _ _
  rw [bind_ok]
  refine ⟨(i.path, bigEndian 8 i.bytes.length ++ rest), ?_, ?_⟩
  · exact readExactOr_append hlength.symm _ _
  rw [bind_ok]
  refine ⟨(), ensure_ok.mpr hi.valid, ?_⟩
  rw [bind_ok]
  refine ⟨relative, hsafe, ?_⟩
  rw [bind_ok]
  refine ⟨(), ensureWith_ok.mpr hnew, ?_⟩
  rw [bind_ok]
  refine ⟨(bigEndian 8 i.bytes.length, rest), readExactOr_append (length_bigEndian 8 _) _ _, ?_⟩
  rw [bind_ok]
  refine ⟨(), ensureWith_ok.mpr ?_, ?_⟩
  · rw [hsize]
    exact hi.size_le
  · rw [hsize]
    rfl

/-- Neither file is in the way of the other. -/
def Clear (i j : Item) : Prop := ¬ i.parts <+: j.parts ∧ ¬ j.parts <+: i.parts

theorem canCreate_clear (h : ∀ j ∈ items, Clear j i) : canCreate (items.map (Item.file staging)) (staging ++ i.parts) = true := by
  unfold canCreate
  rw [all_eq_true]
  intro f hf
  obtain ⟨j, hj, rfl⟩ := mem_map.mp hf
  obtain ⟨hji, hij⟩ := h j hj
  have hfirst : (staging ++ j.parts).isPrefixOf (staging ++ i.parts) = false := by
    rw [Bool.eq_false_iff]
    intro hp
    exact hji ((prefix_append_right_inj staging).mp (List.isPrefixOf_iff_prefix.mp hp))
  have hsecond : (staging ++ i.parts).isPrefixOf (staging ++ j.parts) = false := by
    rw [Bool.eq_false_iff]
    intro hp
    exact hij ((prefix_append_right_inj staging).mp (List.isPrefixOf_iff_prefix.mp hp))
  show (!((staging ++ j.parts).isPrefixOf (staging ++ i.parts) || (staging ++ i.parts).isPrefixOf (staging ++ j.parts)) ||
    _) = true
  rw [hfirst, hsecond]
  rfl

theorem readEntry_item (hi : i.Fits) (hroom : items.length < MAX_ENTRIES)
    (hnew : i.path ∉ items.map Item.path) (hclear : ∀ j ∈ items, Clear j i) (rest : Octets) :
    readEntry O staging (unpackedOf O staging items)
        (bigEndian 2 i.path.length ++ i.path ++ bigEndian 8 i.bytes.length ++ (i.bytes ++ rest)) =
      (unpackedOf O staging (items ++ [i]), .ok rest) := by
  have hwritten : (unpackedOf O staging items).written.length < MAX_ENTRIES := by rwa [unpackedOf, length_map]
  have hhead := readHead_item hi hwritten hnew (i.bytes ++ rest)
  have hcan : canCreate (items.map (Item.file staging)) (staging ++ i.parts) = true := canCreate_clear hclear
  have hplace : join staging i.path = staging ++ i.parts := join_safe hi.safePath staging
  unfold readEntry
  rw [hhead]
  dsimp only
  rw [hplace]
  rw [if_neg (by simp [unpackedOf, hcan]), readExact_append rfl]
  show (Unpacked.mk _ _ (create (items.map (Item.file staging)) (i.file staging)), _) = _
  rw [create_new hnew, unpackedOf_append]
  rfl

/-- **What was written so is unpacked.** -/
theorem unpack_items {more : List Item} (tail : Octets) : ∀ {items : List Item}, Sound (items ++ more) →
    (items ++ more).Pairwise Clear → unpack O staging (unpackedOf O staging items) (more.flatMap Item.octets ++ tail) =
      unpack O staging (unpackedOf O staging (items ++ more)) tail := by
  induction more with
  | nil =>
    intro items _ _
    rw [append_nil]
    rfl
  | cons i more ih =>
    intro items hs hclear
    have hassoc : items ++ i :: more = (items ++ [i]) ++ more := by simp
    have hi : i.Fits := hs.fits i (by simp)
    have hroom : items.length < MAX_ENTRIES := by
      have := hs.room
      rw [length_append, length_cons] at this
      omega
    have hnew : i.path ∉ items.map Item.path := by
      have := hs.nodup
      rw [map_append, nodup_append] at this
      intro hm
      exact this.2.2 _ hm _ (by simp) rfl
    have hbefore : ∀ j ∈ items, Clear j i := fun j hj => (pairwise_append.mp hclear).2.2 j hj i mem_cons_self
    have hoctets : (i :: more).flatMap Item.octets ++ tail = ascii "E" ++ (bigEndian 2 i.path.length ++ i.path ++
        bigEndian 8 i.bytes.length ++ (i.bytes ++ (more.flatMap Item.octets ++ tail))) := by
      rw [flatMap_cons, Item.octets, entryOctets]
      simp only [append_assoc]
    rw [hoctets, unpack_entry (readEntry_item hi hroom hnew hbefore _), hassoc]
    rw [hassoc] at hs hclear
    exact ih hs hclear

/-! ## The whole archive -/

variable {archive : Octets} {passphrase : Str}

theorem openArchive_ok {plain : Plain} (h : openArchive O archive passphrase = .ok plain) :
    O.decrypt passphrase MAX_WORK_FACTOR archive = .ok ⟨MAGIC ++ plain.bytes, plain.whole⟩ := by
  obtain ⟨_, -, h⟩ := bind_ok.mp h
  obtain ⟨_, -, h⟩ := bind_ok.mp h
  obtain ⟨stream, hstream, h⟩ := bind_ok.mp h
  obtain ⟨⟨magic, input⟩, hmagic, h⟩ := bind_ok.mp h
  obtain ⟨_, hsame, h⟩ := bind_ok.mp h
  cases h
  have hdecrypt : O.decrypt passphrase MAX_WORK_FACTOR archive = .ok stream := by
    cases hd : O.decrypt passphrase MAX_WORK_FACTOR archive with
    | ok stream' =>
      rw [hd] at hstream
      cases hstream
      rfl
    | error error =>
      rw [hd] at hstream
      cases hstream
  have hbytes := (readExact_some (context_ok.mp hmagic)).1
  rw [ensure_ok.mp hsame] at hbytes
  rw [hdecrypt, ← hbytes]

/-- What `checkArchive` says of what was unpacked. -/
theorem checkArchive_ok {answer : Manifest} {whole : Bool} (h : checkArchive O staging st manifest input whole = .ok answer) :
    answer = manifest ∧ input = ascii "Z" ∧ whole = true ∧ manifest.entries = st.written := by
  obtain ⟨⟨tag, rest⟩, htag, h⟩ := bind_ok.mp h
  obtain ⟨_, hend, h⟩ := bind_ok.mp h
  obtain ⟨_, hrest, h⟩ := bind_ok.mp h
  obtain ⟨_, hwhole, h⟩ := bind_ok.mp h
  obtain ⟨_, -, h⟩ := bind_ok.mp h
  obtain ⟨_, -, h⟩ := bind_ok.mp h
  obtain ⟨_, hentries, h⟩ := bind_ok.mp h
  obtain ⟨_, -, h⟩ := bind_ok.mp h
  obtain ⟨_, -, h⟩ := bind_ok.mp h
  obtain ⟨_, -, h⟩ := bind_ok.mp h
  obtain ⟨_, -, h⟩ := bind_ok.mp h
  obtain ⟨_, -, h⟩ := bind_ok.mp h
  obtain ⟨_, -, h⟩ := bind_ok.mp h
  cases h
  have hinput := (readExactOr_ok htag).1
  rw [ensure_ok.mp hend, ensure_ok.mp hrest, append_nil] at hinput
  exact ⟨rfl, hinput, ensure_ok.mp hwhole, ensure_ok.mp hentries⟩

/-- An archive of these entries: the magic line, the entries, one manifest that lists just them, the end mark. -/
structure IsArchive (O : Outside) (stream : Octets) (items : List Item) (manifest : Manifest) : Prop where
  sound : Sound items
  lists : manifest.entries = items.map (Item.entry O)
  octets : ∃ json, O.fromSlice json = some manifest ∧ json.length ≤ MAX_MANIFEST_BYTES ∧
    stream = MAGIC ++ items.flatMap Item.octets ++ manifestOctets json

theorem stage_some (h : (stage O archive passphrase staging).2 = .ok manifest) : ∃ plain st input,
    openArchive O archive passphrase = .ok plain ∧
      unpack O staging ⟨[], [], []⟩ plain.bytes = (st, .ok (manifest, input)) ∧
      checkArchive O staging st manifest input plain.whole = .ok manifest ∧
      (stage O archive passphrase staging).1 = st.files := by
  unfold stage at h ⊢
  split at h
  · cases h
  · rename_i plain hplain
    split at h
    · cases h
    · rename_i st read input hunpack
      have hread : manifest = read := (checkArchive_ok h).1
      subst hread
      exact ⟨plain, st, input, hplain, hunpack, h, rfl⟩

/-- **What `stage` accepts.** -/
theorem stage_ok (h : (stage O archive passphrase staging).2 = .ok manifest) : ∃ stream items,
    O.decrypt passphrase MAX_WORK_FACTOR archive = .ok ⟨stream, true⟩ ∧ IsArchive O stream items manifest ∧
      (stage O archive passphrase staging).1 = items.map (Item.file staging) := by
  obtain ⟨plain, st, input, hplain, hunpack, hcheck, hfiles⟩ := stage_some h
  have hempty : Sound [] := ⟨fun _ hi => (by cases hi), nodup_nil, Nat.zero_le _⟩
  obtain ⟨items, json, hsound, hst, hjson, hle, hinput⟩ := unpack_ok hempty hunpack
  obtain ⟨-, hend, hwhole, hentries⟩ := checkArchive_ok hcheck
  rw [hst] at hentries hfiles
  refine ⟨MAGIC ++ plain.bytes, items, ?_, ⟨hsound, hentries, json, hjson, hle, ?_⟩, hfiles⟩
  · rw [← hwhole]
    exact openArchive_ok hplain
  · rw [hinput, hend, manifestOctets]
    simp only [append_assoc]

/-! ## Nothing outside -/

/-- The place is in the folder. -/
def Inside (dir place : List Octets) : Prop := ∃ parts, parts ≠ [] ∧ place = dir ++ parts

theorem mem_create {files : List DiskFile} {file f : DiskFile} (h : f ∈ create files file) : f ∈ files ∨ f = file := by
  rcases mem_append.mp h with h | h
  · exact .inl (mem_filter.mp h).1
  · exact .inr (mem_singleton.mp h)

/-- An entry makes no file outside, whether it is read to its end or not. -/
theorem readEntry_inside (h : ∀ f ∈ st.files, Inside staging f.path) (input : Octets) :
    ∀ f ∈ (readEntry O staging st input).1.files, Inside staging f.path := by
  unfold readEntry
  split
  · exact h
  · rename_i path size afterHead hhead
    have hplace : Inside staging (join staging path) := by
      have hsafe := (safePath_isOk.mp (readHead_ok hhead).safe).2
      rw [join_safe hsafe]
      exact ⟨_, splitOn_ne_nil slash path, rfl⟩
    dsimp only
    split
    · exact h
    · split
      · intro f hf
        rcases mem_create hf with hf | rfl
        · exact h f hf
        · exact hplace
      · intro f hf
        rcases mem_create hf with hf | rfl
        · exact h f hf
        · exact hplace

theorem unpack_inside (h : ∀ f ∈ st.files, Inside staging f.path) :
    ∀ f ∈ (unpack O staging st input).1.files, Inside staging f.path := by
  induction st, input using unpack.induct O staging with
  | case1 st =>
    rw [unpack]
    exact h
  | case2 st tag input htag st' rest hentry ih =>
    have htag : tag = 0x45 := by simpa [ascii] using htag
    rw [htag, show (0x45 : UInt8) :: input = ascii "E" ++ input from rfl, unpack_entry hentry]
    apply ih
    have hinside := readEntry_inside (O := O) h input
    rwa [hentry] at hinside
  | case3 st tag input htag st' error hentry =>
    have hinside := readEntry_inside (O := O) h input
    rw [hentry] at hinside
    rw [unpack, if_pos htag]
    split
    · rename_i h₁
      rw [hentry] at h₁
      cases h₁
    · rename_i st₁ error₁ h₁
      rw [hentry] at h₁
      cases h₁
      exact hinside
  | case4 st tag input hentry htag =>
    rw [unpack, if_neg hentry, if_pos htag]
    exact h
  | case5 st tag input hentry hmanifest =>
    rw [unpack, if_neg hentry, if_neg hmanifest]
    exact h

/-- **No file is made outside the staging folder**, whatever the archive holds. -/
theorem stage_inside (archive : Octets) (passphrase : Str) :
    ∀ f ∈ (stage O archive passphrase staging).1, Inside staging f.path := by
  unfold stage
  split
  · intro f hf
    cases hf
  · rename_i plain hplain
    have hinside : ∀ f ∈ (unpack O staging ⟨[], [], []⟩ plain.bytes).1.files, Inside staging f.path :=
      unpack_inside fun f hf => (by cases hf)
    split
    · rename_i hunpack
      rwa [hunpack] at hinside
    · rename_i hunpack
      rwa [hunpack] at hinside

end Reading

end Oreneta.ProfileArchive

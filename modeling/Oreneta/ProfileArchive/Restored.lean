import Mathlib.Data.List.Perm.Subperm
import Oreneta.Lib.Json
import Oreneta.ProfileArchive.Media

/-!
# An archive that was written and what is read back

* `exportWith_ok` — what a file that was written holds.
* `Restores` — `stage` accepts the file and puts back the store and every kept file, each under its own path.
* `Storable` — the names are text an archive path may have, and there are not too many.
* `restores_iff` — a file that was written is restored exactly when the profile is `Storable`.
* `archive_readable` — that, with what `stage` accepts and where it writes (`stage_ok`, `stage_inside`).
* `colon_not_restored` — a picture with a colon in its name makes a file that is refused.
-/

namespace Oreneta.ProfileArchive

open Octets Fallible List

/-! ## What is written -/

/-- The entries, in the order they are written. -/
def itemsOf (store : Octets) (media : Media) : List Item :=
  ⟨DB_ENTRY, store⟩ :: (keptMedia media).map (fun p => ⟨p.1, p.2.bytes⟩)

def manifestOf (O : Outside) (key : Octets) (options : ExportOptions) (store : Octets) (snapshot : Snapshot) : Manifest :=
  ⟨FORMAT, VERSION, options.now, options.appVersion, snapshot.schemaVersion, hex key,
    (itemsOf store options.media).map (Item.entry O), exclusions⟩

section

variable {O : Outside}

theorem writeEntry_ok {path bytes : Octets} {entry : Octets × Entry} (h : writeEntry O path bytes = .ok entry) :
    bytes.length ≤ MAX_ENTRY_BYTES ∧ entry = (Item.octets ⟨path, bytes⟩, Item.entry O ⟨path, bytes⟩) := by
  obtain ⟨_, hle, h⟩ := bind_ok.mp h
  cases h
  exact ⟨ensureWith_ok.mp hle, rfl⟩

theorem writeEntries_ok {files : List (Octets × DiskFile)} {entries : List (Octets × Entry)}
    (h : writeEntries O files = .ok entries) : (∀ p ∈ files, p.2.bytes.length ≤ MAX_ENTRY_BYTES) ∧
      entries = files.map (fun p => (Item.octets ⟨p.1, p.2.bytes⟩, Item.entry O ⟨p.1, p.2.bytes⟩)) := by
  induction files generalizing entries with
  | nil =>
    cases h
    exact ⟨fun _ hp => (by cases hp), rfl⟩
  | cons file files ih =>
    obtain ⟨first, hfirst, h⟩ := bind_ok.mp h
    obtain ⟨rest, hrest, h⟩ := bind_ok.mp h
    cases h
    obtain ⟨hle, rfl⟩ := writeEntry_ok hfirst
    obtain ⟨hall, rfl⟩ := ih hrest
    refine ⟨?_, rfl⟩
    intro p hp
    rcases mem_cons.mp hp with rfl | hp
    · exact hle
    · exact hall p hp

/-- **What a file that was written holds.** -/
theorem exportWith_ok {copyStore : Str → Except Str (Octets × Snapshot)} {key archive : Octets} {passphrase : Str}
    {options : ExportOptions} {summary : Summary}
    (h : exportWith O copyStore key passphrase options = .ok (archive, summary)) : ∃ store snapshot,
      copyStore (hex key) = .ok (store, snapshot) ∧ (∀ i ∈ itemsOf store options.media, i.bytes.length ≤ MAX_ENTRY_BYTES) ∧
        archive = O.encrypt passphrase options.workFactor (MAGIC ++ (itemsOf store options.media).flatMap Item.octets ++
          manifestOctets (O.toVec (manifestOf O key options store snapshot))) := by
  obtain ⟨_, -, h⟩ := bind_ok.mp h
  obtain ⟨⟨store, snapshot⟩, hstore, h⟩ := bind_ok.mp h
  obtain ⟨first, hfirst, h⟩ := bind_ok.mp h
  obtain ⟨rest, hrest, h⟩ := bind_ok.mp h
  cases h
  obtain ⟨hle, rfl⟩ := writeEntry_ok hfirst
  obtain ⟨hall, rfl⟩ := writeEntries_ok hrest
  refine ⟨store, snapshot, hstore, ?_, ?_⟩
  · intro i hi
    rcases mem_cons.mp hi with rfl | hi
    · exact hle
    · obtain ⟨p, hp, rfl⟩ := mem_map.mp hi
      exact hall p hp
  · have hmap : ∀ {β : Type} (f : Item → β), (itemsOf store options.media).map f =
        f ⟨DB_ENTRY, store⟩ :: (keptMedia options.media).map (fun p => f ⟨p.1, p.2.bytes⟩) := by
      intro β f
      rw [itemsOf, map_cons, map_map]
      rfl
    have hoctets : (itemsOf store options.media).flatMap Item.octets = Item.octets ⟨DB_ENTRY, store⟩ ++
        (keptMedia options.media).flatMap (fun p => Item.octets ⟨p.1, p.2.bytes⟩) := by
      rw [itemsOf, flatMap_cons, flatMap_map]
    rw [manifestOf, hmap, hoctets]
    simp only [flatMap_cons, flatMap_map, map_cons, map_map]
    rfl

end

/-! ## What is promised of it -/

/-- The file is accepted, and just the store and the kept files are in the staging folder. -/
structure Restores (O : Outside) (archive : Octets) (passphrase : Str) (staging : List Octets) (store : Octets)
    (media : Media) : Prop where
  accepted : ∃ manifest, (stage O archive passphrase staging).2 = .ok manifest
  exactly : ∀ f, f ∈ (stage O archive passphrase staging).1 ↔
    f = ⟨staging ++ DB_ENTRY.splitOn slash, store⟩ ∨
      ∃ kept ∈ keptFiles media, f = ⟨staging ++ ascii "media" :: kept.path, kept.bytes⟩

/-- A path that is text, not too long, and without the characters an archive path may not have. -/
structure Portable (path : Octets) : Prop where
  valid : Utf8Octets.valid path = true
  length_le : path.length ≤ MAX_PATH_BYTES
  backslash : (0x5C : UInt8) ∉ path
  colon : (0x3A : UInt8) ∉ path

structure Storable (O : Outside) (key : Octets) (options : ExportOptions) (store : Octets) (snapshot : Snapshot) : Prop where
  portable : ∀ kept ∈ keptFiles options.media, Portable (ownPath kept.path)
  room : (keptFiles options.media).length < MAX_ENTRIES
  manifest : (O.toVec (manifestOf O key options store snapshot)).length ≤ MAX_MANIFEST_BYTES

/-! ## From the names to the entries -/

theorem ownPath_safe {path : List Octets} (hne : path ≠ []) (hnames : ∀ part ∈ path, IsName part) (h : Portable (ownPath path)) :
    (safePath (ownPath path)).isOk = true := by
  have hsplit := splitOn_ownPath hnames
  have hmedia : ownPath path = ascii "media/" ++ [slash].intercalate path := by
    unfold ownPath
    rw [intercalate_cons_of_ne_nil hne]
    rfl
  refine safePath_isOk.mpr ⟨?_, h.length_le, h.backslash, h.colon, ?_, .inr ?_, ?_⟩
  · rw [hmedia]
    simp [ascii]
  · intro hz
    rcases mem_intercalate hz with hz | ⟨part, hp, hz⟩
    · cases hz
    · rcases mem_cons.mp hp with rfl | hp
      · revert hz
        decide
      · exact (hnames part hp).2.2.2.2 hz
  · rw [hmedia, List.isPrefixOf_iff_prefix]
    exact prefix_append _ _
  · rw [hsplit]
    intro part hp
    rcases mem_cons.mp hp with rfl | hp
    · decide
    · exact ⟨(hnames part hp).1, (hnames part hp).2.1, (hnames part hp).2.2.1⟩

/-- The path of an entry that was accepted can be in an archive. -/
theorem SafePath.portable {path : Octets} (h : SafePath path) (hv : Utf8Octets.valid path = true) : Portable path :=
  ⟨hv, h.length_le, h.backslash, h.colon⟩

theorem db_valid : Utf8Octets.valid DB_ENTRY = true := by decide +kernel

theorem db_safe : (safePath DB_ENTRY).isOk = true := by decide +kernel

theorem db_fits {store : Octets} (h : store.length ≤ MAX_ENTRY_BYTES) : Item.Fits ⟨DB_ENTRY, store⟩ :=
  ⟨db_valid, db_safe, h⟩

/-- The entry a kept file becomes. -/
def keptItem (file : DiskFile) : Item := ⟨ownPath file.path, file.bytes⟩

theorem keptItem_parts {media : Media} {file : DiskFile} (h : file ∈ keptFiles media) :
    (keptItem file).parts = ascii "media" :: file.path := splitOn_ownPath (keptFiles_names h).2

/-- With names an archive can have, the entries are those of the kept files. -/
theorem itemsOf_perm {store : Octets} {media : Media} (h : ∀ kept ∈ keptFiles media, Portable (ownPath kept.path)) :
    (itemsOf store media).Perm (⟨DB_ENTRY, store⟩ :: (keptFiles media).map keptItem) := by
  apply List.Perm.cons
  have hmap := (keptMedia_perm media).map fun p : Octets × DiskFile => (⟨p.1, p.2.bytes⟩ : Item)
  rw [map_map] at hmap
  refine hmap.trans (List.Perm.of_eq ?_)
  apply map_congr_left
  intro file hf
  show (⟨archivePath file.path, file.bytes⟩ : Item) = ⟨ownPath file.path, file.bytes⟩
  rw [archivePath_own (keptFiles_names hf).1 (h file hf).valid]

theorem Clear.symm {i j : Item} (h : Clear i j) : Clear j i := ⟨h.2, h.1⟩

/-- The store and the kept files are not in each other's way. -/
theorem ownItems_clear (store : Octets) (media : Media) :
    (⟨DB_ENTRY, store⟩ :: (keptFiles media).map keptItem).Pairwise Clear := by
  refine pairwise_cons.mpr ⟨?_, ?_⟩
  · intro i hi
    obtain ⟨file, hf, rfl⟩ := mem_map.mp hi
    unfold Clear
    rw [keptItem_parts hf]
    exact pathsApart_of_ne [] (by decide) _ _
  · rw [pairwise_map]
    refine (keptFiles_apart media).imp_of_mem ?_
    intro a b ha hb hab
    unfold Clear
    rw [keptItem_parts ha, keptItem_parts hb]
    exact pathsApart_append [ascii "media"] hab

/-- No entry is in the way of another. -/
theorem itemsOf_clear {store : Octets} {media : Media} (h : ∀ kept ∈ keptFiles media, Portable (ownPath kept.path)) :
    (itemsOf store media).Pairwise Clear :=
  (itemsOf_perm h).symm.pairwise (ownItems_clear store media) fun hc => Clear.symm hc

theorem Clear.path_ne {i j : Item} (h : Clear i j) : i.path ≠ j.path := by
  intro hp
  apply h.1
  unfold Item.parts
  rewrite [hp]
  exact prefix_rfl

theorem itemsOf_sound {store : Octets} {media : Media} (h : ∀ kept ∈ keptFiles media, Portable (ownPath kept.path))
    (hroom : (keptFiles media).length < MAX_ENTRIES) (hsize : ∀ i ∈ itemsOf store media, i.bytes.length ≤ MAX_ENTRY_BYTES) :
    Sound (itemsOf store media) := by
  refine ⟨?_, ?_, ?_⟩
  · intro i hi
    have hle := hsize i hi
    rcases mem_cons.mp ((itemsOf_perm h).mem_iff.mp hi) with rfl | hi
    · exact db_fits hle
    · obtain ⟨file, hf, rfl⟩ := mem_map.mp hi
      obtain ⟨hne, hnames⟩ := keptFiles_names hf
      exact ⟨(h file hf).valid, ownPath_safe hne hnames (h file hf), hle⟩
  · exact pairwise_map.mpr ((itemsOf_clear h).imp Clear.path_ne)
  · rw [(itemsOf_perm h).length_eq, length_cons, length_map]
    exact hroom

/-! ## Reading it back -/

section

variable {O : Outside} {passphrase : Str} {work : Nat} {staging : List Octets} {items : List Item} {json : Octets}

theorem openArchive_written (hO : O.Lawful) (hwork : work ≤ MAX_WORK_FACTOR) (rest : Octets) :
    openArchive O (O.encrypt passphrase work (MAGIC ++ rest)) passphrase = .ok ⟨rest, true⟩ := by
  unfold openArchive
  rw [bind_ok]
  refine ⟨true, by rw [hO.isScrypt]; rfl, ?_⟩
  rw [bind_ok]
  refine ⟨(), ensure_ok.mpr rfl, ?_⟩
  rw [bind_ok]
  refine ⟨⟨MAGIC ++ rest, true⟩, by rw [hO.decrypt _ _ _ hwork]; rfl, ?_⟩
  rw [bind_ok]
  refine ⟨(MAGIC, rest), context_ok.mpr (readExact_append rfl rest), ?_⟩
  rw [bind_ok]
  exact ⟨(), ensure_ok.mpr rfl, rfl⟩

/-- Sound entries are read to the manifest. -/
theorem stage_written (hO : O.Lawful) (hwork : work ≤ MAX_WORK_FACTOR) (hs : Sound items) (hc : items.Pairwise Clear)
    (passphrase : Str) (staging : List Octets) (json : Octets) :
    stage O (O.encrypt passphrase work (MAGIC ++ items.flatMap Item.octets ++ manifestOctets json)) passphrase staging =
      (items.map (Item.file staging), match readManifest O (bigEndian 4 json.length ++ json ++ ascii "Z") with
        | .error error => .error error
        | .ok (manifest, rest) => checkArchive O staging (unpackedOf O staging items) manifest rest true) := by
  have hunpack : unpack O staging ⟨[], [], []⟩ (items.flatMap Item.octets ++ manifestOctets json) =
      (unpackedOf O staging items, readManifest O (bigEndian 4 json.length ++ json ++ ascii "Z")) := by
    have hall : unpack O staging (unpackedOf O staging []) (items.flatMap Item.octets ++ manifestOctets json) =
        unpack O staging (unpackedOf O staging items) (manifestOctets json) := unpack_items (manifestOctets json) hs hc
    refine hall.trans ?_
    rw [manifestOctets, append_assoc, append_assoc, unpack_manifest, ← append_assoc]
  unfold stage
  rw [append_assoc, openArchive_written hO hwork]
  dsimp only
  rw [hunpack]
  cases readManifest O (bigEndian 4 json.length ++ json ++ ascii "Z") with
  | error error => rfl
  | ok p => rfl

/-- A manifest that was read from the end of the file is the whole of it. -/
theorem manifest_length {manifest answer : Manifest} {rest : Octets} {st : Unpacked}
    (hread : readManifest O (bigEndian 4 json.length ++ json ++ ascii "Z") = .ok (manifest, rest))
    (hcheck : checkArchive O staging st manifest rest true = .ok answer) : json.length ≤ MAX_MANIFEST_BYTES := by
  obtain ⟨json', -, hle, hoctets⟩ := readManifest_ok hread
  obtain ⟨-, hend, -, -⟩ := checkArchive_ok hcheck
  have hlength := congrArg List.length hoctets
  rw [hend] at hlength
  simp only [length_append, length_bigEndian] at hlength
  omega

theorem readManifest_written {manifest : Manifest} (hjson : O.fromSlice json = some manifest)
    (hle : json.length ≤ MAX_MANIFEST_BYTES) :
    readManifest O (bigEndian 4 json.length ++ json ++ ascii "Z") = .ok (manifest, ascii "Z") := by
  have hlength : ofBigEndian (bigEndian 4 json.length) = json.length := by
    apply ofBigEndian_of_lt
    unfold MAX_MANIFEST_BYTES at hle
    omega
  unfold readManifest
  rw [bind_ok]
  refine ⟨(bigEndian 4 json.length, json ++ ascii "Z"), ?_, ?_⟩
  · rw [append_assoc]
    exact readExactOr_append (length_bigEndian 4 _) _ _
  rw [bind_ok]
  refine ⟨(), ensure_ok.mpr (by rw [hlength]; exact hle), ?_⟩
  rw [bind_ok]
  refine ⟨(json, ascii "Z"), readExactOr_append hlength.symm _ _, ?_⟩
  rw [bind_ok]
  exact ⟨manifest, context_ok.mpr hjson, rfl⟩

theorem hexDigit_isHex : ∀ n < 16, ((hexDigit n).isDigit || ('a' ≤ hexDigit n && hexDigit n ≤ 'f') ||
    ('A' ≤ hexDigit n && hexDigit n ≤ 'F')) = true := by decide +kernel

theorem hex_length (bytes : Octets) : (hex bytes).length = 2 * bytes.length := by
  induction bytes with
  | nil => rfl
  | cons b bytes ih =>
    show ((hexDigit (b.toNat / 16)) :: (hexDigit (b.toNat % 16)) :: hex bytes).length = _
    rw [length_cons, length_cons, ih, length_cons]
    omega

theorem hex_isHex (bytes : Octets) :
    (hex bytes).all (fun c => c.isDigit || ('a' ≤ c && c ≤ 'f') || ('A' ≤ c && c ≤ 'F')) = true := by
  rw [all_eq_true]
  intro c hc
  obtain ⟨b, -, hc⟩ := mem_flatMap.mp hc
  have hb : b.toNat < 256 := b.toNat_lt
  rcases mem_cons.mp hc with rfl | hc
  · exact hexDigit_isHex _ (by omega)
  · rw [mem_singleton.mp hc]
    exact hexDigit_isHex _ (by omega)

end

/-! ## What is needed, and what is enough -/

section

variable {O : Outside} {archive : Octets} {passphrase : Str} {staging : List Octets} {store : Octets} {media : Media}

/-- The files made are those of accepted entries. -/
theorem restores_items (h : Restores O archive passphrase staging store media) : ∃ items, Sound items ∧
    (stage O archive passphrase staging).1 = items.map (Item.file staging) := by
  obtain ⟨manifest, hok⟩ := h.accepted
  obtain ⟨_, items, -, harchive, hfiles⟩ := stage_ok hok
  exact ⟨items, harchive.sound, hfiles⟩

/-- A kept file that is put back has a path an archive can have. -/
theorem restores_portable (h : Restores O archive passphrase staging store media) {kept : DiskFile}
    (hk : kept ∈ keptFiles media) : Portable (ownPath kept.path) := by
  obtain ⟨items, hsound, hfiles⟩ := restores_items h
  have hmem := (h.exactly ⟨staging ++ ascii "media" :: kept.path, kept.bytes⟩).mpr (.inr ⟨kept, hk, rfl⟩)
  rw [hfiles] at hmem
  obtain ⟨i, hi, hfile⟩ := mem_map.mp hmem
  have hparts : i.parts = (keptItem kept).parts := by
    rw [keptItem_parts hk]
    exact append_cancel_left (congrArg DiskFile.path hfile)
  have hpath : i.path = ownPath kept.path := parts_inj hparts
  have hfits := hsound.fits i hi
  rw [← hpath]
  exact hfits.safePath.portable hfits.valid

/-- The store and the kept files have places of their own, and each is an entry. -/
theorem restores_room (h : Restores O archive passphrase staging store media) : (keptFiles media).length < MAX_ENTRIES := by
  obtain ⟨items, hsound, hfiles⟩ := restores_items h
  let own : List DiskFile := (⟨DB_ENTRY, store⟩ :: (keptFiles media).map keptItem).map (Item.file staging)
  have hnodup : own.Nodup := by
    refine pairwise_map.mpr ((ownItems_clear store media).imp ?_)
    intro i j hclear hfile
    apply hclear.1
    rewrite [append_cancel_left (congrArg DiskFile.path hfile)]
    exact prefix_rfl
  have hsub : own ⊆ items.map (Item.file staging) := by
    intro f hf
    rw [← hfiles]
    apply (h.exactly f).mpr
    obtain ⟨i, hi, rfl⟩ := mem_map.mp hf
    rcases mem_cons.mp hi with rfl | hi
    · exact .inl rfl
    · obtain ⟨kept, hk, rfl⟩ := mem_map.mp hi
      refine .inr ⟨kept, hk, ?_⟩
      unfold Item.file
      rw [keptItem_parts hk]
      rfl
  have hle := (subperm_of_subset hnodup hsub).length_le
  have hroom := hsound.room
  simp only [own, length_map, length_cons] at hle
  omega

end

section

variable {O : Outside} {copyStore : Str → Except Str (Octets × Snapshot)} {key archive : Octets} {passphrase : Str}
  {options : ExportOptions} {summary : Summary} {store : Octets} {snapshot : Snapshot} {staging : List Octets}

/-- What an archive was made with. -/
structure Written (O : Outside) (copyStore : Str → Except Str (Octets × Snapshot)) (key : Octets) (passphrase : Str)
    (options : ExportOptions) (store : Octets) (snapshot : Snapshot) (archive : Octets) : Prop where
  work : options.workFactor ≤ MAX_WORK_FACTOR
  keyLength : key.length = 32
  copied : copyStore (hex key) = .ok (store, snapshot)
  opens : O.openStore (hex key) store = some ("ok".toList, snapshot.schemaVersion)
  schema : snapshot.schemaVersion ≤ SCHEMA_VERSION
  json : O.fromSlice (O.toVec (manifestOf O key options store snapshot)) = some (manifestOf O key options store snapshot)
  exported : ∃ summary, exportWith O copyStore key passphrase options = .ok (archive, summary)

theorem Written.octets (h : Written O copyStore key passphrase options store snapshot archive) :
    (∀ i ∈ itemsOf store options.media, i.bytes.length ≤ MAX_ENTRY_BYTES) ∧
      archive = O.encrypt passphrase options.workFactor (MAGIC ++ (itemsOf store options.media).flatMap Item.octets ++
        manifestOctets (O.toVec (manifestOf O key options store snapshot))) := by
  obtain ⟨summary, hexported⟩ := h.exported
  obtain ⟨store', snapshot', hcopied, hsize, harchive⟩ := exportWith_ok hexported
  rw [h.copied] at hcopied
  cases hcopied
  exact ⟨hsize, harchive⟩

theorem restores_manifest (hO : O.Lawful) (hw : Written O copyStore key passphrase options store snapshot archive)
    (h : Restores O archive passphrase staging store options.media) :
    (O.toVec (manifestOf O key options store snapshot)).length ≤ MAX_MANIFEST_BYTES := by
  obtain ⟨hsize, harchive⟩ := hw.octets
  have hportable : ∀ kept ∈ keptFiles options.media, Portable (ownPath kept.path) := fun _ => restores_portable h
  have hstage := stage_written hO hw.work (itemsOf_sound hportable (restores_room h) hsize) (itemsOf_clear hportable)
    passphrase staging (O.toVec (manifestOf O key options store snapshot))
  rw [← harchive] at hstage
  obtain ⟨manifest, hok⟩ := h.accepted
  rw [hstage] at hok
  dsimp only at hok
  split at hok
  · cases hok
  · rename_i read rest hread
    exact manifest_length hread hok

/-- What the checks at the end ask of the file that was written. -/
theorem checkArchive_written (hw : Written O copyStore key passphrase options store snapshot archive) :
    checkArchive O staging (unpackedOf O staging (itemsOf store options.media))
      (manifestOf O key options store snapshot) (ascii "Z") true = .ok (manifestOf O key options store snapshot) := by
  have hkey : (hex key).length = 64 := by rw [hex_length, hw.keyLength]
  have hstore : (unpackedOf O staging (itemsOf store options.media)).files.find? (fun f => f.path == join staging DB_ENTRY) =
      some ⟨staging ++ DB_ENTRY.splitOn slash, store⟩ := by
    rw [join_safe (safePath_isOk.mp db_safe).2]
    show List.find? _ (Item.file staging ⟨DB_ENTRY, store⟩ :: _) = _
    rw [find?_cons_of_pos]
    · rfl
    · exact beq_self_eq_true _
  unfold checkArchive
  rw [bind_ok]
  refine ⟨(ascii "Z", []), rfl, ?_⟩
  rw [bind_ok]
  refine ⟨(), ensure_ok.mpr rfl, ?_⟩
  rw [bind_ok]
  refine ⟨(), ensure_ok.mpr rfl, ?_⟩
  rw [bind_ok]
  refine ⟨(), ensure_ok.mpr rfl, ?_⟩
  rw [bind_ok]
  refine ⟨(), ensure_ok.mpr rfl, ?_⟩
  rw [bind_ok]
  refine ⟨(), ensure_ok.mpr (Nat.le_refl _), ?_⟩
  rw [bind_ok]
  refine ⟨(), ensure_ok.mpr rfl, ?_⟩
  rw [bind_ok]
  refine ⟨(), ensure_ok.mpr ⟨hkey, hex_isHex key⟩, ?_⟩
  rw [bind_ok]
  refine ⟨(), ensure_ok.mpr hw.schema, ?_⟩
  rw [bind_ok]
  refine ⟨⟨staging ++ DB_ENTRY.splitOn slash, store⟩, context_ok.mpr hstore, ?_⟩
  rw [bind_ok]
  refine ⟨("ok", snapshot.schemaVersion), context_ok.mpr hw.opens, ?_⟩
  rw [bind_ok]
  refine ⟨(), ensureWith_ok.mpr rfl, ?_⟩
  rw [bind_ok]
  exact ⟨(), ensure_ok.mpr rfl, rfl⟩

theorem restores_of_storable (hO : O.Lawful) (hw : Written O copyStore key passphrase options store snapshot archive)
    (h : Storable O key options store snapshot) : Restores O archive passphrase staging store options.media := by
  obtain ⟨hsize, harchive⟩ := hw.octets
  have hstage := stage_written hO hw.work (itemsOf_sound h.portable h.room hsize) (itemsOf_clear h.portable)
    passphrase staging (O.toVec (manifestOf O key options store snapshot))
  rw [← harchive, readManifest_written hw.json h.manifest] at hstage
  dsimp only at hstage
  rw [checkArchive_written hw] at hstage
  refine ⟨⟨_, by rw [hstage]⟩, ?_⟩
  intro f
  rw [hstage, ((itemsOf_perm h.portable).map _).mem_iff, map_cons, mem_cons, map_map, mem_map]
  refine or_congr Iff.rfl ⟨?_, ?_⟩
  · rintro ⟨kept, hk, rfl⟩
    refine ⟨kept, hk, ?_⟩
    show Item.file staging (keptItem kept) = _
    unfold Item.file
    rw [keptItem_parts hk]
    rfl
  · rintro ⟨kept, hk, rfl⟩
    refine ⟨kept, hk, ?_⟩
    show Item.file staging (keptItem kept) = _
    unfold Item.file
    rw [keptItem_parts hk]
    rfl

/-- A file that was written is restored exactly when the profile is storable. -/
theorem restores_iff (hO : O.Lawful) (hw : Written O copyStore key passphrase options store snapshot archive) :
    Restores O archive passphrase staging store options.media ↔ Storable O key options store snapshot :=
  ⟨fun h => ⟨fun _ => restores_portable h, restores_room h, restores_manifest hO hw h⟩, restores_of_storable hO hw⟩

end

/-! ## The claim -/

/-- **A file that was written is restored exactly when the profile is storable**; what is accepted is an archive, and
nothing is written outside the staging folder. -/
theorem archive_readable {O : Outside} (hO : O.Lawful) : (∀ copyStore key passphrase options store snapshot archive staging,
      Written O copyStore key passphrase options store snapshot archive →
        (Restores O archive passphrase staging store options.media ↔ Storable O key options store snapshot)) ∧
    (∀ archive passphrase staging manifest, (stage O archive passphrase staging).2 = .ok manifest →
      ∃ stream items, O.decrypt passphrase MAX_WORK_FACTOR archive = .ok ⟨stream, true⟩ ∧
        IsArchive O stream items manifest) ∧
    ∀ archive passphrase staging, ∀ f ∈ (stage O archive passphrase staging).1, Inside staging f.path := by
  refine ⟨fun _ _ _ _ _ _ _ _ hw => restores_iff hO hw, ?_, fun archive passphrase _ => stage_inside archive passphrase⟩
  intro archive passphrase staging manifest h
  obtain ⟨stream, items, hdecrypt, harchive, -⟩ := stage_ok h
  exact ⟨stream, items, hdecrypt, harchive⟩

/-! ## One picture -/

/-- Text that is ASCII. -/
def plainText (octets : Octets) : Str := octets.map (fun b => Char.ofNat b.toNat)

def Manifest.json (m : Manifest) : Json :=
  .obj [("format", .str m.format), ("version", .int m.version), ("created_at", .int m.createdAt),
    ("app_version", .str m.appVersion), ("schema_version", .int m.schemaVersion),
    ("db_key", .str m.dbKey),
    ("entries", .arr (m.entries.map (fun e => .obj [("path", .str (plainText e.path)),
      ("size", .int e.size), ("sha256", .str e.sha256)]))),
    ("excluded", .arr (m.excluded.map (fun e => .obj [("what", .str e.what), ("why", .str e.why)])))]

def ofPlain (text : Str) : Octets := text.map (fun c => UInt8.ofNat c.toNat)

/-- A stream in the clear, behind a header and its passphrase. -/
def enclose (header : Octets) (passphrase : Str) (work : Nat) (plain : Octets) : Octets :=
  header ++ (UInt8.ofNat work :: (ofPlain passphrase ++ (0x0A :: plain)))

def disclose (header : Octets) (passphrase : Str) (most : Nat) (file : Octets) : Except DecryptError Plain :=
  match file.drop header.length with
  | [] => .error (.other "header is invalid")
  | work :: rest =>
    if most < work.toNat then .error .excessiveWork
    else if (ofPlain passphrase ++ [0x0A]).isPrefixOf rest then
      .ok ⟨rest.drop (ofPlain passphrase ++ [0x0A]).length, true⟩
    else .error .decryptionFailed

theorem disclose_enclose (header : Octets) (passphrase : Str) {work : Nat} (plain : Octets) (h : work ≤ MAX_WORK_FACTOR) :
    disclose header passphrase MAX_WORK_FACTOR (enclose header passphrase work plain) = .ok ⟨plain, true⟩ := by
  have hbyte : ¬ MAX_WORK_FACTOR < (UInt8.ofNat work).toNat := by
    rw [UInt8.toNat_ofNat']
    unfold MAX_WORK_FACTOR at h ⊢
    omega
  have hrest : ofPlain passphrase ++ 0x0A :: plain = (ofPlain passphrase ++ [0x0A]) ++ plain := by simp
  have hprefix : (ofPlain passphrase ++ [0x0A]).isPrefixOf (ofPlain passphrase ++ [0x0A] ++ plain) = true := by
    rw [List.isPrefixOf_iff_prefix]
    exact prefix_append _ _
  unfold disclose enclose
  rw [drop_left]
  dsimp only
  rw [if_neg hbyte, hrest, if_pos hprefix, drop_left]

def isEnclosed (header file : Octets) : Except DecryptError Bool :=
  if header.isPrefixOf file then .ok true else .error (.other "header is invalid")

theorem isEnclosed_enclose (header : Octets) (passphrase : Str) (work : Nat) (plain : Octets) :
    isEnclosed header (enclose header passphrase work plain) = .ok true :=
  if_pos (List.isPrefixOf_iff_prefix.mpr (prefix_append _ _))

/-- The digests are those of the two files; a manifest is read if it is this one's text. -/
def demo (manifest : Manifest) : Outside where
  encrypt := enclose (ascii "age-encryption.org/v1")
  isScrypt := isEnclosed (ascii "age-encryption.org/v1")
  decrypt := disclose (ascii "age-encryption.org/v1")
  sha256 bytes :=
    if bytes = ascii "store" then
      [0x82, 0x4d, 0x80, 0xd7, 0x19, 0x85, 0xf0, 0x82, 0xa2, 0x69, 0x97, 0xa8, 0xdb, 0x88, 0xb5, 0xd1, 0xdd, 0x45, 0xb7,
        0x77, 0xd7, 0x35, 0x85, 0xd0, 0x3d, 0x23, 0x63, 0x03, 0xe2, 0x1b, 0xde, 0x97]
    else
      [0x8f, 0x8c, 0xbb, 0x7d, 0xcf, 0x46, 0xe0, 0xbc, 0x7d, 0x53, 0x26, 0x57, 0x49, 0xa6, 0xc1, 0x7d, 0x11, 0x60, 0x93,
        0xa6, 0xba, 0x95, 0xe4, 0x42, 0x76, 0x40, 0x60, 0xc7, 0x6f, 0xd4, 0xa8, 0x6c]
  toVec m := ofPlain m.json.render
  fromSlice octets := if octets = ofPlain manifest.json.render then some manifest else none
  openStore _ bytes := if bytes = ascii "store" then some ("ok", 66) else none

theorem demo_lawful (manifest : Manifest) : (demo manifest).Lawful where
  isScrypt := isEnclosed_enclose (ascii "age-encryption.org/v1")
  decrypt passphrase _ plain h := disclose_enclose (ascii "age-encryption.org/v1") passphrase plain h

def demoKey : Octets := List.replicate 32 0

/-- A profile with one picture. -/
def onePicture (name : String) (h : IsName (ascii name)) : ExportOptions :=
  ⟨⟨.folder (ascii "avatars") (.file (ascii name) (ascii "png") .empty) .empty,
    ⟨by decide, by decide, ⟨h, not_mem_nil, trivial⟩, trivial⟩⟩, "1", 1, 18⟩

def demoSnapshot : Snapshot := ⟨66, 1, 2⟩

def copyDemo (_ : Str) : Except Str (Octets × Snapshot) := .ok (ascii "store", demoSnapshot)

def demoManifest (options : ExportOptions) : Manifest := manifestOf (demo ⟨[], 0, 0, [], 0, [], [], []⟩) demoKey options (ascii "store") demoSnapshot

/-- The archive of the profile. -/
def demoArchive (options : ExportOptions) : Except Str (Octets × Summary) :=
  exportWith (demo (demoManifest options)) copyDemo demoKey "a passphrase" options

theorem demo_written {options : ExportOptions} (hwork : options.workFactor = 18) {archive : Octets}
    (h : ∃ summary, demoArchive options = .ok (archive, summary)) :
    Written (demo (demoManifest options)) copyDemo demoKey "a passphrase".toList options (ascii "store") demoSnapshot archive where
  work := by rw [hwork]; decide
  keyLength := length_replicate
  copied := rfl
  opens := rfl
  schema := Int.le_refl _
  json := if_pos rfl
  exported := h

theorem demoArchive_some (options : ExportOptions) (h : (demoArchive options).isOk = true) :
    ∃ archive, ∃ summary, demoArchive options = .ok (archive, summary) := by
  cases hd : demoArchive options with
  | ok p => exact ⟨p.1, p.2, rfl⟩
  | error e =>
    rw [hd] at h
    cases h

theorem archive_readable_picture : ∃ archive, ∀ staging,
    Restores (demo (demoManifest (onePicture "me.png" (by decide)))) archive "a passphrase" staging (ascii "store")
      (onePicture "me.png" (by decide)).media := by
  obtain ⟨archive, hwritten⟩ := demoArchive_some (onePicture "me.png" (by decide)) (by decide +kernel)
  refine ⟨archive, fun staging => ?_⟩
  apply ((archive_readable (demo_lawful _)).1 _ _ _ _ _ _ archive staging (demo_written rfl hwritten)).mpr
  refine ⟨?_, by decide, by decide +kernel⟩
  intro kept hk
  rw [mem_singleton.mp hk]
  exact ⟨by decide +kernel, by decide, by decide, by decide⟩

/-- The picture's name has a colon: the file is written, and refused when it is read. -/
theorem colon_not_restored : ∃ archive,
    Written (demo (demoManifest (onePicture "10:30.png" (by decide)))) copyDemo demoKey "a passphrase".toList
      (onePicture "10:30.png" (by decide)) (ascii "store") demoSnapshot archive ∧
    ∀ staging, ¬ Restores (demo (demoManifest (onePicture "10:30.png" (by decide)))) archive "a passphrase" staging
      (ascii "store") (onePicture "10:30.png" (by decide)).media := by
  obtain ⟨archive, hwritten⟩ := demoArchive_some (onePicture "10:30.png" (by decide)) (by decide +kernel)
  refine ⟨archive, demo_written rfl hwritten, fun staging h => ?_⟩
  have hcolon := (restores_portable h mem_cons_self).colon
  revert hcolon
  decide

end Oreneta.ProfileArchive

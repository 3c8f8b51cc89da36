import Oreneta.ProfileArchive.Stream

/-!
# The files of the media folder

* `Folder.files` — the files of a folder and of those inside it; `walk_perm`: the walk finds just them, so
  `keptMedia` is `keptFiles`, each with its name in the archive.
* `files_names`, `files_apart` — the parts of their paths are names, and none is in the way of another.
* `ownPath` — the path an archive has for a file if its names stay as they are: `archivePath_own`.
-/

namespace Oreneta.ProfileArchive

open Octets List

/-! ## What the walk finds -/

def Folder.files (dir : List Octets) : Folder → List DiskFile
  | .empty => []
  | .file name bytes rest => ⟨dir ++ [name], bytes⟩ :: rest.files dir
  | .folder name inside rest => inside.files (dir ++ [name]) ++ rest.files dir
  | .other _ rest => rest.files dir

theorem files_perm (dir : List Octets) (f : Folder) :
    (f.files dir).Perm (f.filesIn dir ++ (f.foldersIn dir).flatMap (fun p => p.2.files p.1)) := by
  induction f with
  | empty => exact List.Perm.nil
  | file name bytes rest ih => exact ih.cons _
  | folder name inside rest _ ih =>
    show (inside.files (dir ++ [name]) ++ rest.files dir).Perm
      (rest.filesIn dir ++ ((dir ++ [name], inside) :: rest.foldersIn dir).flatMap fun p => p.2.files p.1)
    rw [flatMap_cons]
    exact (ih.append_left _).trans (perm_append_comm_assoc _ _ _)
  | other name rest ih => exact ih

theorem walk_perm (stack : List (List Octets × Folder)) : (walk stack).Perm (stack.flatMap (fun p => p.2.files p.1)) := by
  induction stack using walk.induct with
  | case1 =>
    rw [walk]
    exact List.Perm.nil
  | case2 dir f stack ih =>
    rw [walk, flatMap_cons]
    rw [flatMap_append] at ih
    have hrev : ((f.foldersIn dir).reverse.flatMap fun p => p.2.files p.1).Perm
        ((f.foldersIn dir).flatMap fun p => p.2.files p.1) := (reverse_perm _).flatMap_right _
    refine ((ih.trans (hrev.append_right _)).append_left _).trans ?_
    rw [← append_assoc]
    exact (files_perm dir f).symm.append_right _

/-- The files that are kept. -/
def keptFiles (media : Media) : List DiskFile :=
  KEPT_MEDIA.flatMap (fun folder => match media.root.find folder with
    | some f => f.files [folder]
    | none => [])

theorem keptMedia_perm (media : Media) :
    (keptMedia media).Perm ((keptFiles media).map (fun file => (archivePath file.path, file))) := by
  refine (mergeSort_perm _ _).trans (List.Perm.map _ ?_)
  apply List.Perm.flatMap_left
  intro folder _
  cases media.root.find folder with
  | none => exact List.Perm.nil
  | some f =>
    have := walk_perm [([folder], f)]
    rwa [flatMap_singleton] at this

/-! ## Their paths -/

/-- Neither path is a part of the other. -/
def PathsApart (p q : List Octets) : Prop := ¬ p <+: q ∧ ¬ q <+: p

theorem PathsApart.symm {p q : List Octets} (h : PathsApart p q) : PathsApart q p := ⟨h.2, h.1⟩

theorem pathsApart_of_ne (dir : List Octets) {a b : Octets} (h : a ≠ b) (s t : List Octets) :
    PathsApart (dir ++ a :: s) (dir ++ b :: t) := by
  refine ⟨fun hp => h ?_, fun hp => h ?_⟩
  · exact (cons_prefix_cons.mp ((prefix_append_right_inj dir).mp hp)).1
  · exact (cons_prefix_cons.mp ((prefix_append_right_inj dir).mp hp)).1.symm

theorem pathsApart_append (dir : List Octets) {p q : List Octets} (h : PathsApart p q) : PathsApart (dir ++ p) (dir ++ q) :=
  ⟨fun hp => h.1 ((prefix_append_right_inj dir).mp hp), fun hp => h.2 ((prefix_append_right_inj dir).mp hp)⟩

variable {file : DiskFile}

/-- A file's path: the folder, a name there, and names under it. -/
theorem files_names {f : Folder} (hw : f.WellFormed) {dir : List Octets} (h : file ∈ f.files dir) :
    ∃ name tail, name ∈ f.names ∧ file.path = dir ++ name :: tail ∧ ∀ part ∈ name :: tail, IsName part := by
  induction f generalizing dir with
  | empty => cases h
  | file name bytes rest ih =>
    obtain ⟨hname, -, hrest⟩ := hw
    rcases mem_cons.mp h with rfl | h
    · refine ⟨name, [], mem_cons_self, rfl, ?_⟩
      intro part hp
      rw [mem_singleton.mp hp]
      exact hname
    · obtain ⟨first, tail, hm, hpath, hparts⟩ := ih hrest h
      exact ⟨first, tail, mem_cons_of_mem _ hm, hpath, hparts⟩
  | folder name inside rest ihInside ihRest =>
    obtain ⟨hname, -, hinside, hrest⟩ := hw
    rcases mem_append.mp h with h | h
    · obtain ⟨first, tail, -, hpath, hparts⟩ := ihInside hinside h
      refine ⟨name, first :: tail, mem_cons_self, by rw [hpath, append_assoc]; rfl, ?_⟩
      intro part hp
      rcases mem_cons.mp hp with rfl | hp
      · exact hname
      · exact hparts part hp
    · obtain ⟨first, tail, hm, hpath, hparts⟩ := ihRest hrest h
      exact ⟨first, tail, mem_cons_of_mem _ hm, hpath, hparts⟩
  | other name rest ih =>
    obtain ⟨-, -, hrest⟩ := hw
    obtain ⟨first, tail, hm, hpath, hparts⟩ := ih hrest h
    exact ⟨first, tail, mem_cons_of_mem _ hm, hpath, hparts⟩

/-- Files under different names are apart. -/
theorem apart_of_names {rest : Folder} (hw : rest.WellFormed) {dir : List Octets} {name : Octets} (hnew : name ∉ rest.names) (h : file ∈ rest.files dir) (tail : List Octets) : PathsApart (dir ++ name :: tail) file.path := by
  obtain ⟨first, tail', hm, hpath, -⟩ := files_names hw h
  rw [hpath]
  apply pathsApart_of_ne
  intro he
  exact hnew (he ▸ hm)

theorem files_apart {f : Folder} (hw : f.WellFormed) (dir : List Octets) :
    (f.files dir).Pairwise (fun a b => PathsApart a.path b.path) := by
  induction f generalizing dir with
  | empty => exact List.Pairwise.nil
  | file name bytes rest ih =>
    obtain ⟨-, hnew, hrest⟩ := hw
    refine pairwise_cons.mpr ⟨?_, ih hrest dir⟩
    intro b hb
    exact apart_of_names hrest hnew hb []
  | folder name inside rest ihInside ihRest =>
    obtain ⟨-, hnew, hinside, hrest⟩ := hw
    refine pairwise_append.mpr ⟨ihInside hinside _, ihRest hrest dir, ?_⟩
    intro a ha b hb
    obtain ⟨first, tail, -, hpath, -⟩ := files_names hinside ha
    rw [hpath, append_assoc]
    exact apart_of_names hrest hnew hb (first :: tail)
  | other name rest ih => exact ih hw.2.2 dir

theorem find_wellFormed {f g : Folder} {name : Octets} (hw : f.WellFormed) (h : f.find name = some g) : g.WellFormed := by
  induction f with
  | empty => cases h
  | file _ _ rest ih => exact ih hw.2.2 h
  | folder other inside rest _ ih =>
    unfold Folder.find at h
    split at h
    · cases h
      exact hw.2.2.1
    · exact ih hw.2.2.2 h
  | other _ rest ih => exact ih hw.2.2 h

theorem isName_kept {folder : Octets} (h : folder ∈ KEPT_MEDIA) : IsName folder := by
  revert folder
  decide

/-- The files under one of the folders that are kept. -/
theorem mem_keptFiles {media : Media} (h : file ∈ keptFiles media) :
    ∃ folder ∈ KEPT_MEDIA, ∃ f, media.root.find folder = some f ∧ file ∈ f.files [folder] := by
  obtain ⟨folder, hfolder, h⟩ := mem_flatMap.mp h
  cases hf : media.root.find folder with
  | none =>
    rw [hf] at h
    cases h
  | some f =>
    rw [hf] at h
    exact ⟨folder, hfolder, f, hf, h⟩

theorem keptFiles_names {media : Media} (h : file ∈ keptFiles media) : file.path ≠ [] ∧ ∀ part ∈ file.path, IsName part := by
  obtain ⟨folder, hfolder, f, hf, h⟩ := mem_keptFiles h
  obtain ⟨name, tail, -, hpath, hparts⟩ := files_names (find_wellFormed media.wellFormed hf) h
  rw [hpath]
  refine ⟨by simp, ?_⟩
  intro part hp
  rcases mem_cons.mp hp with rfl | hp
  · exact isName_kept hfolder
  · exact hparts part hp

theorem keptFiles_apart (media : Media) : (keptFiles media).Pairwise (fun a b => PathsApart a.path b.path) := by
  unfold keptFiles
  rw [pairwise_flatMap]
  constructor
  · intro folder _
    cases hf : media.root.find folder with
    | none => exact List.Pairwise.nil
    | some f => exact files_apart (find_wellFormed media.wellFormed hf) [folder]
  · have hkept : KEPT_MEDIA.Pairwise (· ≠ ·) := by decide
    refine hkept.imp ?_
    intro a b hne x hx y hy
    cases ha : media.root.find a with
    | none =>
      rw [ha] at hx
      cases hx
    | some f =>
      cases hb : media.root.find b with
      | none =>
        rw [hb] at hy
        cases hy
      | some g =>
        rw [ha] at hx
        rw [hb] at hy
        obtain ⟨_, _, -, hx, -⟩ := files_names (find_wellFormed media.wellFormed ha) hx
        obtain ⟨_, _, -, hy, -⟩ := files_names (find_wellFormed media.wellFormed hb) hy
        rw [hx, hy]
        exact pathsApart_of_ne [] hne _ _

/-! ## Their names in an archive -/

/-- The path of a file in the profile. -/
def ownPath (path : List Octets) : Octets := [slash].intercalate (ascii "media" :: path)

variable {path : List Octets}

theorem archivePath_eq (hne : path ≠ []) : archivePath path = ownPath (path.map Utf8Octets.lossy) := by
  unfold archivePath ownPath
  rw [intercalate_cons_of_ne_nil (by simpa using hne)]
  rfl

theorem valid_intercalate : ∀ parts : List Octets, Utf8Octets.valid ([slash].intercalate parts) = parts.all Utf8Octets.valid
  | [] => by decide +kernel
  | [part] => by simp
  | a :: b :: parts => by
    rw [intercalate_cons_cons, append_assoc, singleton_append,
      Utf8Octets.valid_append (by decide), valid_intercalate (b :: parts)]
    rfl

/-- Names that are text stay as they are. -/
theorem archivePath_own (hne : path ≠ []) (h : Utf8Octets.valid (ownPath path) = true) : archivePath path = ownPath path := by
  rw [archivePath_eq hne]
  congr 1
  rw [ownPath, valid_intercalate, all_cons, Bool.and_eq_true, all_eq_true] at h
  conv_rhs => rw [← map_id path]
  apply map_congr_left
  intro part hp
  exact Utf8Octets.lossy_of_valid (h.2 part hp)

theorem splitOn_ownPath (h : ∀ part ∈ path, IsName part) : (ownPath path).splitOn slash = ascii "media" :: path := by
  apply splitOn_intercalate
  · intro part hp
    rcases mem_cons.mp hp with rfl | hp
    · decide
    · exact (h part hp).2.2.2.1
  · exact cons_ne_nil _ _

theorem mem_intercalate {b : UInt8} : ∀ {parts : List Octets}, b ∈ [slash].intercalate parts → b = slash ∨ ∃ part ∈ parts, b ∈ part
  | [], h => by cases h
  | [part], h => .inr ⟨part, mem_singleton_self _, by simpa using h⟩
  | a :: c :: parts, h => by
    rw [intercalate_cons_cons, mem_append, mem_append] at h
    rcases h with (h | h) | h
    · exact .inr ⟨a, mem_cons_self, h⟩
    · exact .inl (mem_singleton.mp h)
    · rcases mem_intercalate h with h | ⟨part, hp, h⟩
      · exact .inl h
      · exact .inr ⟨part, mem_cons_of_mem _ hp, h⟩

end Oreneta.ProfileArchive

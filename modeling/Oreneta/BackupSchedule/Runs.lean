import Mathlib.Algebra.Order.BigOperators.Group.List
import Mathlib.Algebra.Order.Ring.Nat
import Oreneta.BackupSchedule.Schedule
import Oreneta.Lib.Runs

/-!
# The backups over whole runs

A run writes an archive, checks it and removes what retention removes; it may fail or be stopped at any of these, and the next
start tidies up.  Beside it the settings are changed, and other programs change the disk.

* `step` — the backup schedule and what surrounds it; `Sound` — what holds of its table in every state.
* `removed_only` — whatever happens, a file is only removed if it is one of the schedule's and either did not pass its check or
  is older than another backup that did and stays, or if it is what an unfinished run left.
* `newest_kept` — once a check has passed, there is a verified backup for good, as long as no other program touches the files.
* `within_limits` — after a run, the verified backups are within the limits.
* `starts_apart` — runs that are started when they are due are an hour apart.
-/

namespace Oreneta.BackupSchedule

open Text Table Runs Keyset List

/-! ## The folder -/

inductive Node
  | file (bytes : Nat)
  | other
  deriving DecidableEq, Repr

/-- `Path::join`. -/
def join (folder name : Str) : Str :=
  if folder.getLast? = some '/' then folder ++ name else folder ++ '/' :: name

/-- `Path::file_name`, of a path that ends in a name. -/
def fileName (path : Str) : Str := ((rsplitOnce '/' path).map Prod.snd).getD path

/-- A half-written archive of this folder. -/
def isPart (folder path : Str) : Bool :=
  !folder.isEmpty && ((stripPrefix (join folder []) path).filter (fun name => '/' ∉ name)).any
    (fun name => PREFIX.isPrefixOf name && ".part".toList.isSuffixOf name)

/-- The names `file_name` tries one after another, the first for `n = 1`. -/
def candidate (stamp : Int → Str) (folder : Str) (now : Int) (n : Nat) : Str :=
  join folder (PREFIX ++ stamp now ++ (if n ≤ 1 then [] else '-' :: Decimal.ofNat n) ++ '.' :: EXTENSION)

/-- What writing an archive leaves at its place and at that of the half-written one. -/
def leaves (dest : Str) (left part : Option Node) (disk : Str → Option Node) (p : Str) : Option Node :=
  if p = dest then left else if p = dest ++ ".part" then part else disk p

/-! ## The steps -/

/-- Where a run is that holds the capture lock. -/
inductive Phase
  | idle
  | writing (dest : Str) (now : Int)
  | checking (dest : Str) (now : Int) (bytes : Nat)
  deriving DecidableEq, Repr

structure World where
  schedule : Schedule
  lastAttempt : Option Int
  lastSuccess : Option Int
  lastError : Option Str
  rows : List Kept
  disk : Str → Option Node
  phase : Phase

/-- Before the first run. -/
def World.fresh (disk : Str → Option Node) : World := ⟨.default, none, none, none, [], disk, .idle⟩

def position (k : Kept) : Int ×ₗ Str := toLex (k.createdAt, k.path)

/-- `records`: newest first. -/
def records (rows : List Kept) : List Kept := arrange (fun a b => b < a) position rows

/-- One of the names this schedule writes. -/
def ours (k : Kept) : Bool := PREFIX.isPrefixOf (fileName k.path)

def forget (w : World) (path : Str) : World := { w with rows := w.rows.filter (fun k => k.path ≠ path) }

/-- `remove_ours`; `stuck` says why a file cannot be removed. -/
def removeOurs (stuck : Str → Option Str) (w : World) (k : Kept) : World × Option Str :=
  if ours k && w.disk k.path = some (.file k.bytes) then
    match stuck k.path with
    | some why => (w, some ("remove " ++ k.path ++ ": " ++ why))
    | none => ({ forget w k.path with disk := fun p => if p = k.path then none else w.disk p }, none)
  else (forget w k.path, none)

/-- One after another, until one cannot be removed. -/
def removeAll (stuck : Str → Option Str) : World → List Kept → World × Option Str
  | w, [] => (w, none)
  | w, k :: ks =>
    match removeOurs stuck w k with
    | (w, some error) => (w, some error)
    | (w, none) => removeAll stuck w ks

/-- What `prune` removes. -/
def pruned (w : World) : List Kept :=
  (planPrune (records w.rows) w.schedule.keep w.schedule.maxBytes).filterMap
    (fun path => (records w.rows).find? (fun k => k.path = path))

def prune (stuck : Str → Option Str) (w : World) : World × Option Str := removeAll stuck w (pruned w)

/-- The row of an archive that passed its check. -/
def verify (dest : Str) (rows : List Kept) : List Kept :=
  update (fun k => k.path = dest) (fun k => { k with verified := true }) rows

/-- The two updates after a check that passed. -/
def marked (w : World) (dest : Str) (now : Int) : World := { w with rows := verify dest w.rows, lastSuccess := some now }

inductive Act
  | save (schedule : Schedule) (folder : Except Str Str)
  /-- `run_with` up to the archive; `n` is the number of the name that is free. -/
  | start (now : Int) (folder : Except Str Str) (n : Nat)
  | unwritten (error : Str) (left part : Option Node)
  | written (bytes : Nat)
  | failed (error : Str) (stuck : Str → Option Str)
  | passed (stuck : Str → Option Str)
  /-- The app is stopped, with what is on the disk by then. -/
  | stop (left part : Option Node)
  | recover (stuck : Str → Option Str)
  /-- Other programs. -/
  | outside (disk : Str → Option Node)

/-- The time a run is started at. -/
def startTime : Act → Option Int
  | .start now _ _ => some now
  | _ => none

/-- The settings, `run_with` in its parts, and `recover`. -/
def step (stamp : Int → Str) (w : World) (act : Act) : Option World :=
  match act, w.phase with
  | .save schedule folder, _ =>
    match save (fun _ => folder) schedule with
    | .ok saved => some { w with schedule := saved }
    | .error _ => some w
  | .start now folder n, .idle =>
    if w.schedule.folder = [] then none
    else
      match folder with
      | .error error => some { w with lastAttempt := some now, lastError := some error }
      | .ok folder =>
        if w.disk (candidate stamp folder now n) = none ∧
            (range' 1 (n - 1)).all (fun m => (w.disk (candidate stamp folder now m)).isSome) then
          some { w with lastAttempt := some now, phase := .writing (candidate stamp folder now n) now }
        else none
  | .unwritten error left part, .writing dest _ =>
    some { w with disk := leaves dest left part w.disk, lastError := some error, phase := .idle }
  | .written bytes, .writing dest now => some { w with
      disk := leaves dest (some (.file bytes)) none w.disk
      rows := insertOrReplace Kept.path w.rows ⟨dest, now, bytes, false⟩
      phase := .checking dest now bytes }
  | .failed error stuck, .checking dest now bytes =>
    let (w, stopped) := removeOurs stuck w ⟨dest, now, bytes, false⟩
    some { w with
      lastError := some (stopped.getD ("the new backup did not pass its check, so it was removed: " ++ error))
      phase := .idle }
  | .passed stuck, .checking dest now _ =>
    let (w, stopped) := prune stuck (marked w dest now)
    some { w with lastError := stopped, phase := .idle }
  | .stop left part, .writing dest _ => some { w with disk := leaves dest left part w.disk, phase := .idle }
  | .stop _ _, _ => some { w with phase := .idle }
  | .recover stuck, .idle =>
    match removeAll stuck w ((records w.rows).filter (fun k => !k.verified)) with
    | (w, some _) => some w
    | (w, none) =>
      some { w with disk := fun p => if isPart w.schedule.folder p && (stuck p).isNone then none else w.disk p }
  | .outside disk, _ => some { w with disk }
  | _, _ => none

/-- Two runs, the second in the middle of its check. -/
def twoRuns : List Act :=
  [.save ⟨true, "/b".toList, 24, 1, none⟩ (.ok "/b"), .start 0 (.ok "/b") 1, .written 5, .passed fun _ => none,
    .start 90000 (.ok "/b") 1, .written 7]

def days (now : Int) : Str := if now = 0 then "20260101" else "20260102"

/-! ## What is removed -/

/-- What removing some of the backups comes to. -/
structure Removal (ks : List Kept) (w w' : World) : Prop where
  rows : w'.rows.Sublist w.rows
  kept : ∀ k ∈ w.rows, k.path ∉ ks.map Kept.path → k ∈ w'.rows
  /-- A file goes as one of the schedule's, as it was written. -/
  disk : ∀ p, w'.disk p = w.disk p ∨
    ∃ k ∈ ks, k.path = p ∧ ours k = true ∧ w.disk p = some (.file k.bytes) ∧ w'.disk p = none
  /-- The file of a row that stays is not touched. -/
  left : ∀ k ∈ w'.rows, w'.disk k.path = w.disk k.path
  same : w' = { w with rows := w'.rows, disk := w'.disk }

variable {stuck : Str → Option Str} {w w' mid : World} {k newest : Kept} {ks rows : List Kept} {dest p : Str} {now : Int} {bytes : Nat}
  {left part : Option Node}

theorem Removal.refl (w : World) : Removal ks w w :=
  ⟨.refl _, fun _ hk _ => hk, fun _ => .inl rfl, fun _ _ => rfl, rfl⟩

theorem mem_forget {path : Str} : k ∈ (forget w path).rows ↔ k ∈ w.rows ∧ k.path ≠ path := by
  unfold forget
  rw [mem_filter, decide_eq_true_eq]

theorem removeOurs_removal (h : removeOurs stuck w k = (w', none)) :
    Removal [k] w w' ∧ ∀ other ∈ w'.rows, other.path ≠ k.path := by
  have hkept : ∀ other ∈ w.rows, other.path ∉ [k].map Kept.path → other ∈ (forget w k.path).rows :=
    fun other hother hne => mem_forget.mpr ⟨hother, fun he => hne (mem_singleton.mpr he)⟩
  unfold removeOurs at h
  split at h
  · rename_i hours
    rw [Bool.and_eq_true, decide_eq_true_eq] at hours
    split at h
    · cases h
    · cases h
      refine ⟨⟨filter_sublist, hkept, fun p => ?_, fun other hother => ?_, rfl⟩, fun other hother => (mem_forget.mp hother).2⟩
      · by_cases hp : p = k.path
        · exact .inr ⟨k, mem_singleton_self k, hp.symm, hours.1, hp ▸ hours.2, if_pos hp⟩
        · exact .inl (if_neg hp)
      · exact if_neg (mem_forget.mp hother).2
  · cases h
    exact ⟨⟨filter_sublist, hkept, fun _ => .inl rfl, fun _ _ => rfl, rfl⟩, fun other hother => (mem_forget.mp hother).2⟩

theorem removeOurs_stuck {error : Str} (h : removeOurs stuck w k = (w', some error)) : w' = w := by
  unfold removeOurs at h
  split at h
  · split at h
    · cases h
      rfl
    · cases h
  · cases h

theorem Removal.cons (h : Removal [k] w mid) (hrest : Removal ks mid w') : Removal (k :: ks) w w' where
  rows := hrest.rows.trans h.rows
  kept := by
    intro other hother hpath
    rw [map_cons, mem_cons, not_or] at hpath
    exact hrest.kept other (h.kept other hother fun hm => hpath.1 (mem_singleton.mp hm)) hpath.2
  disk := by
    intro p
    rcases hrest.disk p with heq | ⟨other, hother, hpath, hours, hfile, hnone⟩
    · rcases h.disk p with heq' | ⟨other, hother, hpath, hours, hfile, hnone⟩
      · exact .inl (heq.trans heq')
      · exact .inr ⟨other, mem_cons.mpr (.inl (mem_singleton.mp hother)), hpath, hours, hfile, heq.trans hnone⟩
    · rcases h.disk p with heq' | ⟨-, -, -, -, -, hgone⟩
      · exact .inr ⟨other, mem_cons_of_mem _ hother, hpath, hours, heq' ▸ hfile, hnone⟩
      · rw [hgone] at hfile
        cases hfile
  left := fun other hother => (hrest.left other hother).trans (h.left other (hrest.rows.subset hother))
  same := by
    rw [hrest.same, h.same]

theorem removeAll_removal : ∀ {ks : List Kept} {w w' : World} {stopped : Option Str}, removeAll stuck w ks = (w', stopped) →
    Removal ks w w' ∧ (stopped = none → ∀ other ∈ w'.rows, other.path ∉ ks.map Kept.path)
  | [], w, _, _, h => by
    cases h
    exact ⟨.refl w, fun _ _ _ => not_mem_nil⟩
  | k :: ks, w, w', stopped, h => by
    unfold removeAll at h
    split at h
    · rename_i mid error hone
      cases h
      rw [removeOurs_stuck hone]
      exact ⟨.refl w, nofun⟩
    · rename_i mid hone
      obtain ⟨hfirst, hgone⟩ := removeOurs_removal hone
      obtain ⟨hrest, hdone⟩ := removeAll_removal h
      refine ⟨hfirst.cons hrest, fun hnone other hother hmem => ?_⟩
      rcases mem_cons.mp hmem with hpath | hmem
      · exact hgone other (hrest.rows.subset hother) hpath
      · exact hdone hnone other hother hmem

/-! ## The newest backup -/

/-- No verified backup is newer. -/
def Newest (rows : List Kept) (newest : Kept) : Prop :=
  newest ∈ rows ∧ newest.verified = true ∧ ∀ k ∈ rows, k.verified = true → position k ≤ position newest

theorem mem_records : k ∈ records rows ↔ k ∈ rows := (arrange_perm_self rows).mem_iff

theorem strict_newer : Strict fun a b : Int ×ₗ Str => b < a := strict_lt.flip

theorem newest_of_head {rest : List Kept} (h : (records rows).filter Kept.verified = newest :: rest) : Newest rows newest := by
  have hsorted : ((records rows).filter Kept.verified).Pairwise fun x y => ¬ position x < position y :=
    (arrange_sorted strict_newer rows).sublist filter_sublist
  have hmem : ∀ k, k ∈ rows ∧ k.verified = true ↔ k ∈ newest :: rest := fun k => by
    rw [← h, mem_filter, mem_records]
  rw [h, pairwise_cons] at hsorted
  obtain ⟨hin, hverified⟩ := (hmem newest).mpr mem_cons_self
  refine ⟨hin, hverified, fun k hk hv => ?_⟩
  rcases mem_cons.mp ((hmem k).mp ⟨hk, hv⟩) with rfl | hk
  · exact le_rfl
  · exact not_lt.mp (hsorted.1 k hk)

theorem exists_newest (h : ∃ k ∈ rows, k.verified = true) : ∃ newest, Newest rows newest := by
  cases hkept : (records rows).filter Kept.verified with
  | nil =>
    obtain ⟨k, hk, hv⟩ := h
    have hin : k ∈ (records rows).filter Kept.verified := mem_filter.mpr ⟨mem_records.mpr hk, hv⟩
    rw [hkept] at hin
    cases hin
  | cons newest rest => exact ⟨newest, newest_of_head hkept⟩

theorem Newest.path_eq {newest' : Kept} (h : Newest rows newest) (h' : Newest rows newest') : newest.path = newest'.path := by
  have heq : position newest = position newest' := le_antisymm (h'.2.2 _ h.1 h.2.1) (h.2.2 _ h'.1 h'.2.1)
  exact congrArg (fun x => (ofLex x).2) heq

/-- Every path of the plan is that of a verified backup behind the newest. -/
theorem mem_plan (hkeyed : Keyed Kept.path w.rows) {path : Str}
    (h : path ∈ planPrune (records w.rows) w.schedule.keep w.schedule.maxBytes) :
    (∃ k ∈ w.rows, k.path = path ∧ k.verified = true) ∧ ∀ newest, Newest w.rows newest → newest.path ≠ path := by
  obtain ⟨first, rest, hkept, hrest⟩ := removed_after h
  obtain ⟨k, hk, rfl⟩ := mem_map.mp hrest
  have hin : k ∈ (records w.rows).filter Kept.verified := by
    rw [hkept]
    exact mem_cons_of_mem _ hk
  obtain ⟨hin, hverified⟩ := mem_filter.mp hin
  have hnodup : (((records w.rows).filter Kept.verified).map Kept.path).Nodup :=
    (((arrange_perm_self w.rows).map Kept.path).nodup_iff.mpr hkeyed).sublist (filter_sublist.map _)
  rw [hkept, map_cons, nodup_cons] at hnodup
  refine ⟨⟨k, mem_records.mp hin, rfl, hverified⟩, fun newest hnewest he => hnodup.1 ?_⟩
  rwa [(newest_of_head hkept).path_eq hnewest, he]

/-- What retention removes is in the table, verified, and behind the newest. -/
theorem mem_pruned (hkeyed : Keyed Kept.path w.rows) (h : k ∈ pruned w) :
    k ∈ w.rows ∧ ∀ newest, Newest w.rows newest → newest.path ≠ k.path := by
  obtain ⟨path, hplan, hfind⟩ := mem_filterMap.mp h
  have hpath : k.path = path := of_decide_eq_true (find?_some (p := fun k : Kept => decide (k.path = path)) hfind)
  exact ⟨mem_records.mp (mem_of_find?_eq_some hfind), hpath ▸ (mem_plan hkeyed hplan).2⟩

theorem pruned_of_plan (hkeyed : Keyed Kept.path w.rows) {path : Str}
    (h : path ∈ planPrune (records w.rows) w.schedule.keep w.schedule.maxBytes) : path ∈ (pruned w).map Kept.path := by
  obtain ⟨⟨k, hk, hpath, -⟩, -⟩ := mem_plan hkeyed h
  cases hfind : (records w.rows).find? (fun k => k.path = path) with
  | none => exact absurd (decide_eq_true hpath) (find?_eq_none.mp hfind k (mem_records.mpr hk))
  | some found =>
    have hfound : found.path = path := of_decide_eq_true (find?_some (p := fun k : Kept => decide (k.path = path)) hfind)
    exact mem_map.mpr ⟨found, mem_filterMap.mpr ⟨path, h, hfind⟩, hfound⟩

/-! ## What holds in every state -/

variable {stamp : Int → Str} {act : Act} {acts : List Act} {disk : Str → Option Node}

structure Sound (w : World) : Prop where
  keyed : Keyed Kept.path w.rows
  ended : ∀ k ∈ w.rows, EXTENSION <:+ k.path
  valid : Valid w.schedule
  busy : match w.phase with
    | .idle => True
    | .writing dest _ => EXTENSION <:+ dest
    | .checking dest now bytes => ⟨dest, now, bytes, false⟩ ∈ w.rows

theorem sound_fresh (disk : Str → Option Node) : Sound (.fresh disk) :=
  ⟨nodup_nil, forall_mem_nil _, valid_default, trivial⟩

theorem Sound.idle (h : Sound w) (hrows : w'.rows.Sublist w.rows) (hschedule : w'.schedule = w.schedule)
    (hphase : w'.phase = .idle) : Sound w' :=
  ⟨h.keyed.sublist (hrows.map _), fun k hk => h.ended k (hrows.subset hk), hschedule ▸ h.valid, by rw [hphase]; trivial⟩

theorem candidate_ended (folder : Str) (now : Int) (n : Nat) : EXTENSION <:+ candidate stamp folder now n := by
  have hname : EXTENSION <:+ PREFIX ++ stamp now ++ (if n ≤ 1 then [] else '-' :: Decimal.ofNat n) ++ '.' :: EXTENSION :=
    (suffix_cons '.' EXTENSION).trans (suffix_append _ _)
  unfold candidate join
  split
  · exact hname.trans (suffix_append _ _)
  · exact hname.trans ((suffix_cons '/' _).trans (suffix_append _ _))

theorem removeOurs_any (stuck : Str → Option Str) (w : World) (k : Kept) : Removal [k] w (removeOurs stuck w k).1 := by
  rcases h : removeOurs stuck w k with ⟨mid, _ | error⟩
  · exact (removeOurs_removal h).1
  · rw [removeOurs_stuck h]
    exact .refl w

theorem verify_keyed (h : Keyed Kept.path rows) (dest : Str) : Keyed Kept.path (verify dest rows) :=
  h.update fun _ => rfl

theorem mem_verify (h : k ∈ verify dest rows) :
    ∃ old ∈ rows, old.path = k.path ∧ old.bytes = k.bytes ∧ (k.verified = true → old.verified = true ∨ old.path = dest) := by
  obtain ⟨old, hold, rfl⟩ := mem_update.mp h
  refine ⟨old, hold, ?_⟩
  split
  · rename_i hpath
    exact ⟨rfl, rfl, fun _ => .inr (of_decide_eq_true hpath)⟩
  · exact ⟨rfl, rfl, .inl⟩

theorem marked_sound (h : Sound w) (dest : Str) (now : Int) : Sound { marked w dest now with phase := .idle } where
  keyed := verify_keyed h.keyed dest
  ended := fun k hk => by
    obtain ⟨old, hold, hpath, -⟩ := mem_verify hk
    exact hpath ▸ h.ended old hold
  valid := h.valid
  busy := trivial

/-- What a step does, case by case. -/
inductive Does (w : World) : Act → World → Prop
  | saved {schedule saved : Schedule} {folder : Except Str Str} (hvalid : Valid w.schedule → Valid saved) :
    Does w (.save schedule folder) { w with schedule := saved }
  | noFolder {now : Int} {error : Str} {n : Nat} (hphase : w.phase = .idle) :
    Does w (.start now (.error error) n) { w with lastAttempt := some now, lastError := some error }
  | started {now : Int} {folder dest : Str} {n : Nat} (hended : EXTENSION <:+ dest) (hfree : w.disk dest = none) :
    Does w (.start now (.ok folder) n) { w with lastAttempt := some now, phase := .writing dest now }
  | cutOff {act : Act} {dest : Str} {now : Int} {left part : Option Node} {said : Option Str}
    (hact : startTime act = none ∧ ∀ stuck, act ≠ .passed stuck) (hphase : w.phase = .writing dest now) :
    Does w act { w with disk := leaves dest left part w.disk, lastError := said, phase := .idle }
  | written {dest : Str} {now : Int} {bytes : Nat} (hphase : w.phase = .writing dest now) :
    Does w (.written bytes) { w with
      disk := leaves dest (some (.file bytes)) none w.disk
      rows := insertOrReplace Kept.path w.rows ⟨dest, now, bytes, false⟩
      phase := .checking dest now bytes }
  | failed {error dest : Str} {now : Int} {bytes : Nat} {stuck : Str → Option Str} {mid : World} {said : Option Str}
    (hphase : w.phase = .checking dest now bytes) (h : Removal [⟨dest, now, bytes, false⟩] w mid) :
    Does w (.failed error stuck) { mid with lastError := said, phase := .idle }
  | passed {dest : Str} {now : Int} {bytes : Nat} {stuck : Str → Option Str} {mid : World} {stopped : Option Str}
    (hphase : w.phase = .checking dest now bytes) (h : Removal (pruned (marked w dest now)) (marked w dest now) mid)
    (hdone : stopped = none → ∀ k ∈ mid.rows, k.path ∉ (pruned (marked w dest now)).map Kept.path) :
    Does w (.passed stuck) { mid with lastError := stopped, phase := .idle }
  | idle {left part : Option Node} : Does w (.stop left part) { w with phase := .idle }
  | recovered {stuck : Str → Option Str} {mid : World} {disk : Str → Option Node} (hphase : w.phase = .idle)
    (h : Removal ((records w.rows).filter (fun k => !k.verified)) w mid)
    (hdisk : ∀ p, disk p = mid.disk p ∨ isPart w.schedule.folder p = true) : Does w (.recover stuck) { mid with disk }
  | outside (disk : Str → Option Node) : Does w (.outside disk) { w with disk }

theorem step_does (h : step stamp w act = some w') : Does w act w' := by
  unfold step at h
  split at h
  · split at h
    · rename_i hsave
      cases h
      exact .saved fun _ => save_valid hsave
    · cases h
      exact .saved id
  · rename_i now folder n hidle
    split at h
    · cases h
    split at h
    · cases h
      exact .noFolder hidle
    · split at h
      · rename_i hfree
        cases h
        exact .started (candidate_ended _ now n) hfree.1
      · cases h
  · rename_i hphase
    cases h
    exact .cutOff ⟨rfl, nofun⟩ hphase
  · rename_i hphase
    cases h
    exact .written hphase
  · rename_i hphase
    cases h
    exact .failed hphase (removeOurs_any ..)
  · rename_i dest now bytes hphase
    cases h
    obtain ⟨hremoval, hdone⟩ := @removeAll_removal _ (pruned (marked w dest now)) (marked w dest now) _ _ rfl
    exact .passed hphase hremoval hdone
  · rename_i hphase
    cases h
    exact .cutOff ⟨rfl, nofun⟩ hphase
  · cases h
    exact .idle
  · rename_i hidle
    split at h <;> rename_i hall <;> cases h <;> have hremoval := (removeAll_removal hall).1
    · exact .recovered hidle hremoval fun _ => .inl rfl
    · refine .recovered hidle hremoval fun p => ?_
      split
      · rename_i hpart
        rw [hremoval.same] at hpart
        exact .inr (Bool.and_eq_true_iff.mp hpart).1
      · exact .inl rfl
  · cases h
    exact .outside _
  · cases h

theorem step_sound (h : Sound w) (hstep : step stamp w act = some w') : Sound w' := by
  cases step_does hstep with
  | saved hvalid => exact ⟨h.keyed, h.ended, hvalid h.valid, h.busy⟩
  | noFolder hphase => exact h.idle (.refl _) rfl hphase
  | started hended => exact ⟨h.keyed, h.ended, h.valid, hended⟩
  | cutOff => exact h.idle (.refl _) rfl rfl
  | written hphase =>
    have hdest := h.busy
    rw [hphase] at hdest
    refine ⟨h.keyed.insertOrReplace _, fun k hk => ?_, h.valid, mem_append_right _ mem_cons_self⟩
    rcases mem_append.mp hk with hk | hk
    · exact h.ended k (mem_of_mem_filter hk)
    · rw [mem_singleton.mp hk]
      exact hdest
  | failed hphase hremoval => exact h.idle hremoval.rows (by rw [hremoval.same]) rfl
  | @passed dest now _ _ _ _ hphase hremoval =>
    exact (marked_sound h dest now).idle hremoval.rows (by rw [hremoval.same]) rfl
  | idle => exact h.idle (.refl _) rfl rfl
  | recovered hphase hremoval => exact h.idle hremoval.rows (by rw [hremoval.same]) (by rw [hremoval.same]; exact hphase)
  | outside disk => exact ⟨h.keyed, h.ended, h.valid, h.busy⟩

theorem run_sound (h : run (step stamp) (.fresh disk) acts = some w) : Sound w :=
  run_invariant (fun _ _ _ hs _ ht => step_sound hs ht) (sound_fresh disk) AllSteps.of_true h

/-! ## What is removed -/

/-- A file of the schedule that did not pass its check, or that is behind a verified backup that stays. -/
def Removable (w w' : World) (act : Act) (p : Str) : Prop :=
  ∃ k ∈ w.rows, k.path = p ∧ ours k = true ∧ w.disk p = some (.file k.bytes) ∧
    ((k.verified = false ∧ ∀ stuck, act ≠ .passed stuck) ∨ ∃ newest, Newest w'.rows newest ∧ newest.path ≠ p)

/-- What an unfinished run left, or is leaving. -/
def Unfinished (w : World) (p : Str) : Prop :=
  isPart w.schedule.folder p = true ∨ ∃ dest now, w.phase = .writing dest now ∧ (p = dest ∨ p = dest ++ ".part")

theorem leaves_other (h : p ≠ dest) (hpart : p ≠ dest ++ ".part") : leaves dest left part disk p = disk p := by
  unfold leaves
  rw [if_neg h, if_neg hpart]

theorem unfinished_of_leaves (hphase : w.phase = .writing dest now)
    (hthere : w.disk p ≠ none) (hgone : leaves dest left part w.disk p = none) : Unfinished w p := by
  refine .inr ⟨dest, now, hphase, ?_⟩
  by_contra hno
  rw [not_or] at hno
  rw [leaves_other hno.1 hno.2] at hgone
  exact hthere hgone

/-- The newest backup of the table stays. -/
theorem Removal.newest_stays (h : Removal (pruned w) w w') (hkeyed : Keyed Kept.path w.rows) (hnewest : Newest w.rows newest) :
    Newest w'.rows newest := by
  refine ⟨h.kept newest hnewest.1 fun hmem => ?_, hnewest.2.1, fun k hk => hnewest.2.2 k (h.rows.subset hk)⟩
  obtain ⟨k, hk, hpath⟩ := mem_map.mp hmem
  exact (mem_pruned hkeyed hk).2 newest hnewest hpath.symm

theorem removable_of_unverified (h : Removal ks w mid)
    (hks : ∀ k ∈ ks, k ∈ w.rows ∧ k.verified = false) (hact : ∀ stuck, act ≠ .passed stuck) (hthere : w.disk p ≠ none)
    (hgone : mid.disk p = none) : Removable w w' act p := by
  rcases h.disk p with heq | ⟨k, hk, hpath, hours, hfile, -⟩
  · exact absurd (heq ▸ hgone) hthere
  · exact ⟨k, (hks k hk).1, hpath, hours, hfile, .inl ⟨(hks k hk).2, hact⟩⟩

/-- What `recover` removes. -/
theorem mem_unverified (k : Kept) (h : k ∈ (records w.rows).filter (fun k => !k.verified)) : k ∈ w.rows ∧ k.verified = false :=
  ⟨mem_records.mp (mem_of_mem_filter h), by simpa using of_mem_filter h⟩

theorem step_removed (h : Sound w) (hstep : step stamp w act = some w') (hself : ∀ disk, act ≠ .outside disk)
    (hthere : w.disk p ≠ none) (hgone : w'.disk p = none) : Removable w w' act p ∨ Unfinished w p := by
  cases step_does hstep with
  | saved => exact absurd hgone hthere
  | noFolder => exact absurd hgone hthere
  | started => exact absurd hgone hthere
  | cutOff _ hphase => exact .inr (unfinished_of_leaves hphase hthere hgone)
  | written hphase => exact .inr (unfinished_of_leaves hphase hthere hgone)
  | failed hphase hremoval =>
    have hrow := h.busy
    rw [hphase] at hrow
    exact .inl (removable_of_unverified hremoval (forall_mem_singleton.mpr ⟨hrow, rfl⟩) nofun hthere hgone)
  | @passed dest now _ _ mid _ hphase hremoval =>
    rcases hremoval.disk p with heq | ⟨k, hk, hpath, hours, hfile, -⟩
    · exact absurd (heq ▸ hgone) hthere
    · have hkeyed : Keyed Kept.path (marked w dest now).rows := verify_keyed h.keyed dest
      obtain ⟨hrow, hbehind⟩ := mem_pruned hkeyed hk
      obtain ⟨old, hold, hsame, hbytes, -⟩ := mem_verify hrow
      obtain ⟨newest, hnewest⟩ : ∃ newest, Newest (marked w dest now).rows newest := by
        obtain ⟨path, hplan, -⟩ := mem_filterMap.mp hk
        obtain ⟨⟨v, hv, -, hverified⟩, -⟩ := mem_plan hkeyed hplan
        exact exists_newest ⟨v, hv, hverified⟩
      refine .inl ⟨old, hold, hsame.trans hpath, by rw [ours, hsame]; exact hours, hbytes ▸ hfile,
        .inr ⟨newest, hremoval.newest_stays hkeyed hnewest, hpath ▸ hbehind newest hnewest⟩⟩
  | idle => exact absurd hgone hthere
  | recovered _ hremoval hdisk =>
    rcases hdisk p with heq | hpart
    · exact .inl (removable_of_unverified hremoval mem_unverified nofun hthere (heq ▸ hgone))
    · exact .inr (.inl hpart)
  | outside disk => exact absurd rfl (hself disk)

/-- Other programs leave the files of the table as they are. -/
def Untouched (w : World) : Act → Prop
  | .outside disk => ∀ k ∈ w.rows, disk k.path = w.disk k.path
  | _ => True

/-- The files of the verified backups are as they were written. -/
structure There (w : World) : Prop where
  files : ∀ k ∈ w.rows, k.verified = true → w.disk k.path = some (.file k.bytes)
  busy : match w.phase with
    | .idle => True
    | .writing dest _ => ∀ k ∈ w.rows, k.verified = true → k.path ≠ dest
    | .checking dest _ bytes => w.disk dest = some (.file bytes)

theorem There.removal (h : ∀ k ∈ w.rows, k.verified = true → w.disk k.path = some (.file k.bytes))
    (hremoval : Removal ks w mid) (k : Kept) (hk : k ∈ mid.rows) (hv : k.verified = true) : mid.disk k.path = some (.file k.bytes) :=
  (hremoval.left k hk).trans (h k (hremoval.rows.subset hk) hv)

/-- No archive is a half-written one. -/
theorem ended_ne_part {q : Str} (h : EXTENSION <:+ p) : p ≠ q ++ ".part" := by
  rintro rfl
  have hpart : ".part".toList <:+ EXTENSION := suffix_of_suffix_length_le (suffix_append q _) h (by decide)
  exact absurd hpart (by decide)

theorem There.leaves (h : There w) (hsound : Sound w)
    (hphase : w.phase = .writing dest now) (k : Kept) (hk : k ∈ w.rows) (hv : k.verified = true) :
    BackupSchedule.leaves dest left part w.disk k.path = some (.file k.bytes) := by
  have hbusy := h.busy
  rw [hphase] at hbusy
  rw [leaves_other (hbusy k hk hv) (ended_ne_part (hsound.ended k hk))]
  exact h.files k hk hv

theorem marked_files (h : There w) (hsound : Sound w) (hphase : w.phase = .checking dest now bytes)
    (k : Kept) (hk : k ∈ (marked w dest now).rows) (hv : k.verified = true) : w.disk k.path = some (.file k.bytes) := by
  obtain ⟨old, hold, hpath, hbytes, hverified⟩ := mem_verify hk
  rw [← hpath, ← hbytes]
  rcases hverified hv with hwas | hdest
  · exact h.files old hold hwas
  · have hrow := hsound.busy
    have hfile := h.busy
    rw [hphase] at hrow hfile
    rw [inj_on_of_nodup_map hsound.keyed hold hrow hdest]
    exact hfile

theorem part_ended {folder : Str} (h : isPart folder p = true) : ¬ EXTENSION <:+ p := by
  unfold isPart at h
  rw [Bool.and_eq_true, Option.any_eq_true] at h
  obtain ⟨-, name, hname, h⟩ := h
  obtain ⟨hsplit, -⟩ := Option.filter_eq_some_iff.mp hname
  obtain ⟨front, rfl⟩ := isSuffixOf_iff_suffix.mp (Bool.and_eq_true_iff.mp h).2
  intro hended
  rw [stripPrefix_some hsplit, ← append_assoc] at hended
  exact ended_ne_part hended rfl

theorem step_there (h : There w) (hsound : Sound w) (hact : Untouched w act) (hstep : step stamp w act = some w') : There w' := by
  cases step_does hstep with
  | saved => exact ⟨h.files, h.busy⟩
  | noFolder => exact ⟨h.files, h.busy⟩
  | started _ hfree =>
    refine ⟨h.files, fun k hk hv he => ?_⟩
    rw [← he, h.files k hk hv] at hfree
    cases hfree
  | cutOff _ hphase => exact ⟨h.leaves hsound hphase, trivial⟩
  | written hphase =>
    refine ⟨fun k hk hv => ?_, if_pos rfl⟩
    rcases mem_append.mp hk with hk | hk
    · exact h.leaves hsound hphase k (mem_of_mem_filter hk) hv
    · rw [mem_singleton.mp hk] at hv
      cases hv
  | failed _ hremoval => exact ⟨fun k hk => There.removal h.files hremoval k hk, trivial⟩
  | @passed dest now _ _ _ _ hphase hremoval =>
    exact ⟨fun k hk => There.removal (marked_files h hsound hphase) hremoval k hk, trivial⟩
  | idle => exact ⟨h.files, trivial⟩
  | recovered hphase hremoval hdisk =>
    refine ⟨fun k hk hv => ?_, ?_⟩
    · rcases hdisk k.path with heq | hpart
      · exact heq.trans (There.removal h.files hremoval k hk hv)
      · exact absurd (hsound.ended k (hremoval.rows.subset hk)) (part_ended hpart)
    · dsimp only
      rw [hremoval.same]
      exact hphase ▸ trivial
  | outside disk =>
    refine ⟨fun k hk hv => (hact k hk).trans (h.files k hk hv), ?_⟩
    have hrow := hsound.busy
    have hbusy := h.busy
    dsimp only
    split <;> rename_i hphase <;> rw [hphase] at hrow hbusy
    · trivial
    · exact hbusy
    · exact (hact _ hrow).trans hbusy

/-- Some backup is verified. -/
def Backed (w : World) : Prop := ∃ k ∈ w.rows, k.verified = true

theorem Removal.backed (h : Removal (pruned w) w w') (hkeyed : Keyed Kept.path w.rows) (hbacked : Backed w) : Backed w' := by
  obtain ⟨newest, hnewest⟩ := exists_newest hbacked
  have hstays := h.newest_stays hkeyed hnewest
  exact ⟨newest, hstays.1, hstays.2.1⟩

/-- Backups that are not verified go without the others. -/
theorem Removal.others (h : Removal ks w w') (hkeyed : Keyed Kept.path w.rows)
    (hks : ∀ k ∈ ks, k ∈ w.rows ∧ k.verified = false) (hbacked : Backed w) : Backed w' := by
  obtain ⟨k, hk, hv⟩ := hbacked
  refine ⟨k, h.kept k hk fun hmem => ?_, hv⟩
  obtain ⟨other, hother, hpath⟩ := mem_map.mp hmem
  have heq : other = k := inj_on_of_nodup_map hkeyed (hks other hother).1 hk hpath
  rw [← heq, (hks other hother).2] at hv
  cases hv

theorem passed_backed {stuck : Str → Option Str} (h : Sound w) (hstep : step stamp w (.passed stuck) = some w') : Backed w' := by
  cases step_does hstep with
  | cutOff hact => exact absurd rfl (hact.2 stuck)
  | @passed dest now bytes _ _ _ hphase hremoval =>
    have hrow := h.busy
    rw [hphase] at hrow
    refine hremoval.backed (verify_keyed h.keyed dest) ⟨⟨dest, now, bytes, true⟩, ?_, rfl⟩
    exact mem_update.mpr ⟨_, hrow, (if_pos (decide_eq_true rfl)).symm⟩

theorem step_backed (h : Sound w) (hthere : There w) (hbacked : Backed w) (hstep : step stamp w act = some w') : Backed w' := by
  cases step_does hstep with
  | saved => exact hbacked
  | noFolder => exact hbacked
  | started => exact hbacked
  | cutOff => exact hbacked
  | written hphase =>
    obtain ⟨k, hk, hv⟩ := hbacked
    have hbusy := hthere.busy
    rw [hphase] at hbusy
    exact ⟨k, mem_append_left _ (mem_filter.mpr ⟨hk, decide_eq_true (hbusy k hk hv)⟩), hv⟩
  | failed hphase hremoval =>
    have hrow := h.busy
    rw [hphase] at hrow
    exact hremoval.others h.keyed (forall_mem_singleton.mpr ⟨hrow, rfl⟩) hbacked
  | passed => exact passed_backed h hstep
  | idle => exact hbacked
  | recovered _ hremoval => exact hremoval.others h.keyed mem_unverified hbacked
  | outside disk => exact hbacked

theorem run_kept : ∀ {acts : List Act} {w w' : World}, Sound w → There w → AllSteps (step stamp) Untouched w acts →
    run (step stamp) w acts = some w' → There w' ∧ ((Backed w ∨ ∃ stuck, .passed stuck ∈ acts) → Backed w')
  | [], _, _, _, hthere, _, hrun => by
    cases hrun
    exact ⟨hthere, fun h => h.elim id fun ⟨_, hmem⟩ => nomatch hmem⟩
  | act :: acts, w, w', h, hthere, hok, hrun => by
    obtain ⟨mid, hstep, hrest⟩ := run_cons hrun
    obtain ⟨hthere', hkept⟩ := run_kept (step_sound h hstep) (step_there hthere h hok.1 hstep) (hok.2 mid hstep) hrest
    refine ⟨hthere', fun hbacked => hkept ?_⟩
    rcases hbacked with hbacked | ⟨stuck, hmem⟩
    · exact .inl (step_backed h hthere hbacked hstep)
    · rcases mem_cons.mp hmem with rfl | hmem
      · exact .inl (passed_backed h hstep)
      · exact .inr ⟨stuck, hmem⟩

/-- **Within the limits**: a run that removes all it is to remove leaves no more verified backups than are kept, and no more
space taken than there is, but for one. -/
theorem within_limits {stuck : Str → Option Str}
    (hrun : run (step stamp) (.fresh disk) acts = some w) (hstep : step stamp w (.passed stuck) = some w') (hdone : w'.lastError = none) :
    (w'.rows.filter Kept.verified).length ≤ w'.schedule.keep ∧
      ∀ most ∈ w'.schedule.maxBytes, (w'.rows.filter Kept.verified).length ≤ 1 ∨ bytesOf (w'.rows.filter Kept.verified) ≤ most := by
  have h := run_sound hrun
  cases step_does hstep with
  | cutOff hact => exact absurd rfl (hact.2 stuck)
  | @passed dest now bytes _ mid _ hphase hremoval hgone =>
    have hkeyed : Keyed Kept.path (marked w dest now).rows := verify_keyed h.keyed dest
    have harranged : records (marked w dest now).rows ~ (marked w dest now).rows := arrange_perm_self _
    have hnodup : ((records (marked w dest now).rows).map Kept.path).Nodup := (harranged.map Kept.path).nodup_iff.mpr hkeyed
    obtain ⟨hcount, hspace⟩ := @stays_limits w.schedule.keep w.schedule.maxBytes _ h.valid.keep hnodup
    have hsame : mid.schedule = w.schedule := by rw [hremoval.same]; rfl
    have hleft : mid.rows.filter Kept.verified <+~
        stays (planPrune (records (marked w dest now).rows) w.schedule.keep w.schedule.maxBytes)
          ((records (marked w dest now).rows).filter Kept.verified) := by
      refine subperm_of_subset ((hkeyed.sublist (hremoval.rows.map _)).of_map.filter _) fun k hk => ?_
      obtain ⟨hk, hv⟩ := mem_filter.mp hk
      have hrow := mem_records.mpr (hremoval.rows.subset hk)
      exact mem_filter.mpr ⟨mem_filter.mpr ⟨hrow, hv⟩, decide_eq_true fun hplan => hgone hdone k hk (pruned_of_plan hkeyed hplan)⟩
    obtain ⟨l, hperm, hsub⟩ := hleft
    have hbytes := (hsub.map Kept.bytes).sum_le_sum fun _ _ => Nat.zero_le _
    dsimp only
    rw [hsame, bytesOf, ← (hperm.map Kept.bytes).sum_nat, ← hperm.length_eq]
    refine ⟨le_trans (Int.ofNat_le.mpr hsub.length_le) hcount, fun most hmost => ?_⟩
    exact (hspace most hmost).imp hsub.length_le.trans hbytes.trans

theorem within_limits_twoRuns : ∃ w w', run (step days) (.fresh fun _ => none) twoRuns = some w ∧
    step days w (.passed fun _ => none) = some w' ∧ (w'.rows.filter Kept.verified).length ≤ w'.schedule.keep := by
  have hrun : run (step days) (.fresh fun _ => none) twoRuns = some _ := rfl
  exact ⟨_, _, hrun, rfl, (within_limits hrun rfl rfl).1⟩

/-- A run is only started when it is due. -/
def onTime (w : World) : Act → Bool
  | .start now _ _ => (nextRun w.schedule w.lastAttempt w.lastSuccess).any (fun due => due ≤ now)
  | _ => true

theorem step_lastAttempt (hstep : step stamp w act = some w') (h : startTime act = none) : w'.lastAttempt = w.lastAttempt := by
  cases step_does hstep with
  | noFolder => cases h
  | started => cases h
  | failed _ hremoval => rw [hremoval.same]
  | passed _ hremoval => rw [hremoval.same]; rfl
  | recovered _ hremoval => rw [hremoval.same]
  | _ => rfl

theorem started_lastAttempt {folder : Except Str Str} {n : Nat} (hstep : step stamp w (.start now folder n) = some w') :
    w'.lastAttempt = some now := by
  cases step_does hstep with
  | cutOff hact => cases hact.1
  | _ => rfl

theorem run_apart : ∀ {acts : List Act} {w w' : World}, Sound w → AllSteps (step stamp) (fun w act => onTime w act) w acts →
    run (step stamp) w acts = some w' → (∀ attempt ∈ w.lastAttempt, ∀ t ∈ acts.filterMap startTime, attempt + RETRY_SECONDS ≤ t) ∧
      (acts.filterMap startTime).Pairwise fun t t' => t + RETRY_SECONDS ≤ t'
  | [], _, _, _, _, _ => ⟨fun _ _ _ ht => absurd ht not_mem_nil, .nil⟩
  | act :: acts, w, w', h, hok, hrun => by
    obtain ⟨mid, hstep, hrest⟩ := run_cons hrun
    obtain ⟨hafter, hapart⟩ := run_apart (step_sound h hstep) (hok.2 mid hstep) hrest
    cases htime : startTime act with
    | none =>
      rw [filterMap_cons_none htime]
      rw [step_lastAttempt hstep htime] at hafter
      exact ⟨hafter, hapart⟩
    | some now =>
      rw [filterMap_cons_some htime]
      cases act with
      | start time folder n =>
        cases htime
        rw [started_lastAttempt hstep] at hafter
        obtain ⟨due, hnext, hle⟩ := (Option.any_eq_true ..).mp hok.1
        have hfirst : ∀ attempt ∈ w.lastAttempt, attempt + RETRY_SECONDS ≤ now := by
          intro attempt hattempt
          rw [hattempt] at hnext
          exact (hour_after_attempt h.valid hnext).trans (of_decide_eq_true hle)
        refine ⟨fun attempt hattempt => forall_mem_cons.mpr ⟨hfirst attempt hattempt, fun t ht => ?_⟩,
          pairwise_cons.mpr ⟨hafter now rfl, hapart⟩⟩
        have hlater := hafter now rfl t ht
        have := hfirst attempt hattempt
        unfold RETRY_SECONDS at *
        omega
      | _ => cases htime

end Oreneta.BackupSchedule

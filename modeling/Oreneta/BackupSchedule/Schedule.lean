import Mathlib.Data.Prod.Lex
import Oreneta.Lib.Decimal
import Oreneta.Lib.Keyset
import Oreneta.Lib.Table

/-!
# The schedule of the profile backups

`backup_schedule/mod.rs`: the settings, when the next run is due, and which of the kept backups retention removes.

* `save` — what is accepted as a schedule; `Valid` — what that leaves.
* `nextRun` — when a run is due; `hour_after_attempt`: never within an hour of an attempt, however that ended.
* `planPrune` — what retention removes; `removed_after` and `stays_limits`: the newest verified backup is not among it, and
  what stays is within the limits, or is that one alone.
-/

namespace Oreneta.BackupSchedule

open Text List

def PREFIX : Str := "oreneta-scheduled-"

def EXTENSION : Str := "oreneta-profile"

def RETRY_SECONDS : Int := 3600

def MIN_HOURS : Int := 6

def MAX_HOURS : Int := 24 * 30

def MAX_KEEP : Int := 30

structure Schedule where
  enabled : Bool
  folder : Str
  everyHours : Int
  keep : Int
  maxBytes : Option Nat
  deriving DecidableEq, Repr

def Schedule.default : Schedule := ⟨false, [], 24, 7, none⟩

structure Kept where
  path : Str
  createdAt : Int
  bytes : Nat
  verified : Bool
  deriving DecidableEq, Repr

/-- `save`; `checkFolder` is what the disk says of a folder. -/
def save (checkFolder : Str → Except Str Str) (schedule : Schedule) : Except Str Schedule :=
  if ¬ (MIN_HOURS ≤ schedule.everyHours ∧ schedule.everyHours ≤ MAX_HOURS) then
    .error "backups run every 6 hours at most and every 30 days at least"
  else if ¬ (1 ≤ schedule.keep ∧ schedule.keep ≤ MAX_KEEP) then .error "keep between 1 and 30 backups"
  else if schedule.maxBytes = some 0 then .error "the space limit must be more than nothing"
  else if schedule.enabled || !(trim schedule.folder).isEmpty then
    (checkFolder schedule.folder).map (fun folder => { schedule with folder := folder })
  else .ok schedule

/-- What the settings that are kept fulfil. -/
structure Valid (schedule : Schedule) : Prop where
  hours : MIN_HOURS ≤ schedule.everyHours
  keep : 1 ≤ schedule.keep

theorem valid_default : Valid .default := ⟨by decide, by decide⟩

theorem save_valid {checkFolder : Str → Except Str Str} {schedule saved : Schedule}
    (h : save checkFolder schedule = .ok saved) : Valid saved := by
  unfold save at h
  split at h
  · cases h
  rename_i hhours
  split at h
  · cases h
  rename_i hkeep
  rw [not_not] at hhours hkeep
  split at h
  · cases h
  split at h
  · cases hfolder : checkFolder schedule.folder with
    | error e =>
      rw [hfolder] at h
      cases h
    | ok folder =>
      rw [hfolder] at h
      cases h
      exact ⟨hhours.1, hkeep.1⟩
  · cases h
    exact ⟨hhours.1, hkeep.1⟩

/-! ## When a run is due -/

/-- `next_run`. -/
def nextRun (schedule : Schedule) (lastAttempt lastSuccess : Option Int) : Option Int :=
  if !schedule.enabled || schedule.folder.isEmpty then none
  else
    let bySchedule := match lastSuccess with
      | some t => t + schedule.everyHours * 3600
      | none => 0
    let failedLast := match lastAttempt, lastSuccess with
      | some attempt, some success => decide (success < attempt)
      | some _, none => true
      | none, _ => false
    let byRetry := if failedLast then lastAttempt.getD 0 + RETRY_SECONDS else 0
    some (max bySchedule byRetry)

/-- **Not in a loop**: the next run is never due within an hour of an attempt. -/
theorem hour_after_attempt {schedule : Schedule} {attempt due : Int} {lastSuccess : Option Int} (hvalid : Valid schedule)
    (h : nextRun schedule (some attempt) lastSuccess = some due) : attempt + RETRY_SECONDS ≤ due := by
  unfold nextRun at h
  split at h
  · cases h
  have hours := hvalid.hours
  unfold MIN_HOURS at hours
  unfold RETRY_SECONDS at h ⊢
  have hdue := Option.some.inj h
  dsimp only [Option.getD_some] at hdue
  cases lastSuccess with
  | none =>
    dsimp only at hdue
    rw [if_pos rfl] at hdue
    omega
  | some success =>
    dsimp only at hdue
    by_cases hfailed : success < attempt
    · rw [if_pos (decide_eq_true hfailed)] at hdue
      omega
    · rw [if_neg (by simpa using hfailed)] at hdue
      omega

/-! ## Retention -/

/-- The loop of `plan_prune`, from the verified backup at `index` on, where those kept before it take `total`. -/
def planFrom (keep : Int) (maxBytes : Option Nat) : List Kept → Nat → Nat → List Str
  | [], _, _ => []
  | backup :: rest, index, total =>
    if index = 0 then planFrom keep maxBytes rest 1 backup.bytes
    else if keep ≤ index ∨ ∃ most ∈ maxBytes, most < total + backup.bytes then
      backup.path :: planFrom keep maxBytes rest (index + 1) total
    else planFrom keep maxBytes rest (index + 1) (total + backup.bytes)

/-- `plan_prune`: what goes, oldest first, of what is kept, newest first. -/
def planPrune (kept : List Kept) (keep : Int) (maxBytes : Option Nat) : List Str :=
  (planFrom keep maxBytes (kept.filter Kept.verified) 0 0).reverse

/-- What stays of these backups. -/
def stays (gone : List Str) (kept : List Kept) : List Kept := kept.filter (fun k => k.path ∉ gone)

def bytesOf (kept : List Kept) : Nat := (kept.map Kept.bytes).sum

variable {keep : Int} {maxBytes : Option Nat}

theorem mem_planFrom : ∀ {kept : List Kept} {index total : Nat} {p : Str}, p ∈ planFrom keep maxBytes kept (index + 1) total →
    p ∈ kept.map Kept.path
  | [], _, _, _, h => by cases h
  | backup :: rest, index, total, p, h => by
    unfold planFrom at h
    rw [if_neg index.succ_ne_zero] at h
    split at h
    · rcases mem_cons.mp h with rfl | h
      · exact mem_cons_self
      · exact mem_cons_of_mem _ (mem_planFrom h)
    · exact mem_cons_of_mem _ (mem_planFrom h)

theorem stays_cons_of_mem {gone : List Str} {backup : Kept} {rest : List Kept} (h : backup.path ∈ gone) :
    stays gone (backup :: rest) = stays gone rest := filter_cons_of_neg (by simpa using h)

theorem stays_cons_of_notMem {gone : List Str} {backup : Kept} {rest : List Kept} (h : backup.path ∉ gone) :
    stays gone (backup :: rest) = backup :: stays gone rest := filter_cons_of_pos (by simpa using h)

/-- A path that no backup has makes no difference. -/
theorem stays_cons_path {gone : List Str} {p : Str} {rest : List Kept} (h : p ∉ rest.map Kept.path) :
    stays (p :: gone) rest = stays gone rest := by
  refine filter_congr fun k hk => ?_
  have hne : k.path ≠ p := fun he => h (mem_map.mpr ⟨k, hk, he⟩)
  simp [hne]

/-- Behind the first backup: as many as there is room for in the number, and in the space if there is a limit to it. -/
theorem planFrom_limits : ∀ {kept : List Kept} (index total : Nat), (kept.map Kept.path).Nodup →
    let left := stays (planFrom keep maxBytes kept (index + 1) total) kept
    (left = [] ∨ index + 1 + left.length ≤ keep) ∧ ∀ most ∈ maxBytes, left = [] ∨ total + bytesOf left ≤ most
  | [], _, _, _ => ⟨.inl rfl, fun _ _ => .inl rfl⟩
  | backup :: rest, index, total, h => by
    rw [map_cons, nodup_cons] at h
    unfold planFrom
    rw [if_neg index.succ_ne_zero]
    by_cases hover : keep ≤ ((index + 1 : Nat) : Int) ∨ ∃ most ∈ maxBytes, most < total + backup.bytes
    · rw [if_pos hover, stays_cons_of_mem mem_cons_self, stays_cons_path h.1]
      obtain ⟨hcount, hspace⟩ := planFrom_limits (index + 1) total h.2
      exact ⟨hcount.imp_right fun hle => by push_cast at hle ⊢; omega, hspace⟩
    · rw [if_neg hover, stays_cons_of_notMem fun hmem => h.1 (mem_planFrom hmem)]
      obtain ⟨hcount, hspace⟩ := planFrom_limits (index + 1) (total + backup.bytes) h.2
      rw [not_or, not_exists] at hover
      refine ⟨.inr ?_, fun most hmost => .inr ?_⟩
      · rw [length_cons]
        rcases hcount with hnil | hle
        · rw [hnil, length_nil]
          have := hover.1
          push_cast at this ⊢
          omega
        · push_cast at hle ⊢
          omega
      · have hfits := hover.2 most
        rw [not_and, not_lt] at hfits
        rcases hspace most hmost with hnil | hle
        · rw [hnil]
          simpa [bytesOf] using hfits hmost
        · simp only [bytesOf, map_cons, sum_cons] at hle ⊢
          omega

/-- What retention removes is behind a verified backup that it keeps. -/
theorem removed_after {kept : List Kept} {p : Str} (h : p ∈ planPrune kept keep maxBytes) :
    ∃ newest rest, kept.filter Kept.verified = newest :: rest ∧ p ∈ rest.map Kept.path := by
  unfold planPrune at h
  rw [mem_reverse] at h
  cases hkept : kept.filter Kept.verified with
  | nil =>
    rw [hkept] at h
    cases h
  | cons newest rest =>
    rw [hkept, planFrom, if_pos rfl] at h
    exact ⟨newest, rest, rfl, mem_planFrom h⟩

/-- **The limits**: of the verified backups stay no more than `keep`, and no more space than there is, but for the newest. -/
theorem stays_limits {kept : List Kept} (hkeep : 1 ≤ keep) (h : (kept.map Kept.path).Nodup) :
    let left := stays (planPrune kept keep maxBytes) (kept.filter Kept.verified)
    left.length ≤ keep ∧ ∀ most ∈ maxBytes, left.length ≤ 1 ∨ bytesOf left ≤ most := by
  have hverified : ((kept.filter Kept.verified).map Kept.path).Nodup := h.sublist (filter_sublist.map _)
  intro left
  have hleft : left = stays (planFrom keep maxBytes (kept.filter Kept.verified) 0 0) (kept.filter Kept.verified) :=
    filter_congr fun k _ => by simp only [planPrune, mem_reverse]
  rw [hleft]
  cases hkept : kept.filter Kept.verified with
  | nil => exact ⟨by simp [stays]; omega, fun _ _ => .inl (by simp [stays])⟩
  | cons newest rest =>
    rw [hkept, map_cons, nodup_cons] at hverified
    have hnewest : newest.path ∉ planFrom keep maxBytes rest 1 newest.bytes := fun hmem => hverified.1 (mem_planFrom hmem)
    obtain ⟨hcount, hspace⟩ := @planFrom_limits keep maxBytes rest 0 newest.bytes hverified.2
    rw [planFrom, if_pos rfl, stays_cons_of_notMem hnewest, length_cons]
    refine ⟨?_, fun most hmost => ?_⟩
    · rcases hcount with hnil | hle
      · rw [hnil]
        simpa using hkeep
      · push_cast at hle ⊢
        omega
    · rcases hspace most hmost with hnil | hle
      · rw [hnil]
        exact .inl le_rfl
      · exact .inr (by simpa [bytesOf] using hle)

end Oreneta.BackupSchedule

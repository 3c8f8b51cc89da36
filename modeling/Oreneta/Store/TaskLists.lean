import Oreneta.Lib.AutoTable
import Oreneta.Lib.Text

/-!
# The tasks of a list kept on a server (`store/task_lists.rs`, `store::delete_task`)

The rows of `tasks` that belong to one list bound to a CalDAV collection, and what the person does
to them: `create`, `update`, `setCompleted` (with `completeOccurrence` and `stopRepeating`) and
`deleteTask`.  A bound list holds no task tied to a conversation, and a task never moves in or out of
it, so `thread_key` and `list_id` are left out, and so is `reminded_at`, which only the alarm reads.

How a rule repeats (`calendar::recurrence`, `due_day`) is a parameter, `Recurrences`.

* `LocalEdit` — what an edit may do to the table, row by row: a row it changes was not waiting to be
  deleted, is now waiting to be sent under a new `sync_seq`, and keeps what is known of the server;
* `update_local`, `setCompleted_local`, `create_local` — every one of them is such an edit.
-/

namespace Oreneta.Store.TaskLists

open Text AutoTable

/-- What a task says (`vtodo::Fields`). -/
structure Fields where
  title : Str
  note : Str
  dueAt : Option Int
  priority : Int
  completedAt : Option Int
  reminderAt : Option Int
  rrule : Str
  deriving DecidableEq, Repr

/-- A change waiting to be sent. -/
inductive Pending where
  | put
  | delete
  deriving DecidableEq, Repr

/-- Why a task waits for the person to choose a copy. -/
inductive Conflict where
  | changed
  | deleted
  deriving DecidableEq, Repr

/-- A row of `tasks`.  An empty `remote_etag`, `pending` or `conflict` is `none`. -/
structure Row where
  fields : Fields
  revision : Int
  remoteHref : Str
  remoteEtag : Option Nat
  remoteIcs : Str
  pending : Option Pending
  conflict : Option Conflict
  recurring : Bool
  syncSeq : Nat
  deriving DecidableEq, Repr

abbrev Tasks := AutoTable Row

/-- The date an instant falls on here, and whether it is midnight. -/
abbrev Day := Int × Bool

/-- What is used of `calendar::recurrence`, over its rules `ρ`. -/
structure Recurrences (ρ : Type) where
  /-- `recurrence::parse(rrule).ok()`. -/
  parse : Str → Option ρ
  /-- `recurrence::format(&recurrence::anchored(rule, day), day, all_day)`. -/
  written : ρ → Day → Str
  nextLocal : ρ → Int → Option Int
  advanced : ρ → ρ
  /-- `rule.month_day = None`. -/
  freeMonthDay : ρ → ρ
  dueDay : Int → Option Day

/-- A task's own fields, as the editor writes them. -/
structure TaskFields (ρ : Type) where
  title : Str
  note : Str
  dueAt : Option Int
  reminderAt : Option Int
  priority : Int
  recurrence : Option ρ

variable {ρ : Type}

def TaskFields.check (f : TaskFields ρ) : Except String Unit :=
  if (trim f.title).isEmpty then .error "a task needs a title"
  else if ¬ (0 ≤ f.priority ∧ f.priority ≤ 2) then .error "unknown priority"
  else if f.recurrence.isSome ∧ f.dueAt = none then
    .error "a repeating task needs a due date to repeat from"
  else .ok ()

/-- The rule as stored: an RRULE value spelled out from the due date. -/
def TaskFields.rrule (R : Recurrences ρ) (f : TaskFields ρ) : Str :=
  match f.recurrence, f.dueAt.bind R.dueDay with
  | some rule, some day => R.written rule day
  | _, _ => []

def recurrenceOf (R : Recurrences ρ) (rrule : Str) : Option ρ :=
  if rrule.isEmpty then none else R.parse rrule

/-- Refuses a change to a task that repeats in a way only the server's other clients write. -/
def checkEditable (t : Tasks) (id : Nat) : Except String Unit :=
  match t.get id with
  | some r =>
    if r.pending ≠ some .delete ∧ r.recurring then
      .error "this task repeats in a way Oreneta does not change; change it in the app that made it"
    else .ok ()
  | none => .ok ()

/-- What `touched` makes of a row. -/
def touch (r : Row) : Row :=
  if r.pending = some .delete then r else { r with pending := some .put, syncSeq := r.syncSeq + 1 }

/-- Marks a task as changed here, so the next sync sends it. -/
def touched (t : Tasks) (id : Nat) : Tasks := t.modify id touch

/-- A row as `INSERT` leaves it when only the task's own columns are named. -/
def newRow (f : Fields) : Row :=
  { fields := f, revision := 1, remoteHref := [], remoteEtag := none, remoteIcs := [],
    pending := none, conflict := none, recurring := false, syncSeq := 0 }

def create (R : Recurrences ρ) (t : Tasks) (f : TaskFields ρ) : Except String (Nat × Tasks) := do
  f.check
  let t' := t.insert (newRow
    { title := trim f.title, note := trim f.note, dueAt := f.dueAt, priority := f.priority,
      completedAt := none, reminderAt := f.reminderAt, rrule := f.rrule R })
  pure (t.nextId, touched t' t.nextId)

/-- The result of an edit. -/
inductive Edit (ρ : Type) where
  | saved (revision : Int)
  /-- Changed elsewhere since it was read (or deleted, `none`): nothing was written. -/
  | conflict (current : Option (TaskFields ρ)) (revision : Int)

/-- A task's fields and revision. -/
def get (R : Recurrences ρ) (t : Tasks) (id : Nat) : Option (TaskFields ρ × Int) :=
  match t.get id with
  | some r =>
    if r.pending = some .delete then none
    else some (⟨r.fields.title, r.fields.note, r.fields.dueAt, r.fields.reminderAt,
      r.fields.priority, recurrenceOf R r.fields.rrule⟩, r.revision)
  | none => none

/-- The columns `update` writes. -/
def updateRow (R : Recurrences ρ) (f : TaskFields ρ) (r : Row) : Row :=
  { r with
    fields :=
      { r.fields with
        title := trim f.title, note := trim f.note, dueAt := f.dueAt,
        priority := f.priority, reminderAt := f.reminderAt, rrule := f.rrule R }
    revision := r.revision + 1 }

/-- Edits a task from the revision it was read at. -/
def update (R : Recurrences ρ) (t : Tasks) (id : Nat) (readAt : Int) (f : TaskFields ρ) :
    Except String (Edit ρ × Tasks) :=
  match get R t id with
  | none => .ok (.conflict none 0, t)
  | some (current, revision) =>
    if revision ≠ readAt then .ok (.conflict (some current) revision, t)
    else do
      f.check
      checkEditable t id
      -- a new due date is a new anchor for a monthly rule
      let f' := if f.dueAt ≠ current.dueAt then
        { f with recurrence := f.recurrence.map R.freeMonthDay } else f
      pure (.saved (revision + 1), touched (t.modify id (updateRow R f')) id)

/-- What completing a task did. -/
structure Completed where
  nextDue : Option Int
  record : Option Nat
  deriving DecidableEq, Repr

/-- The completed copy kept of an occurrence. -/
def recordOf (r : Row) (now : Int) : Row :=
  newRow { r.fields with completedAt := some now, rrule := [] }

/-- The task at its next occurrence, its reminder the same time ahead of it. -/
def movedOn (R : Recurrences ρ) (rule : ρ) (due next : Int) (r : Row) : Row :=
  { r with
    fields :=
      { r.fields with
        dueAt := some next, reminderAt := r.fields.reminderAt.map (fun at_ => at_ + (next - due)),
        rrule := R.written (R.advanced rule) ((R.dueDay next).getD (0, false)) }
    revision := r.revision + 1 }

def completedRow (now : Int) (r : Row) : Row :=
  { r with fields := { r.fields with completedAt := some now }, revision := r.revision + 1 }

/-- The occurrence `completeOccurrence` is about: the row, its due date and its rule. -/
def occurrence (R : Recurrences ρ) (t : Tasks) (id : Nat) : Option (Row × Int × ρ) :=
  match t.get id with
  | some r =>
    if r.pending = some .delete then none
    else
      match r.fields.dueAt, r.fields.completedAt, recurrenceOf R r.fields.rrule with
      | some due, none, some rule => some (r, due, rule)
      | _, _, _ => none
  | none => none

/-- Completes one occurrence of a repeating task; `none` for a task that does not repeat. -/
def completeOccurrence (R : Recurrences ρ) (t : Tasks) (id : Nat) (now : Int) :
    Except String (Option Completed × Tasks) :=
  match occurrence R t id with
  | none => .ok (none, t)
  | some (r, due, rule) => do
    checkEditable t id
    match R.nextLocal rule due with
    | none =>
      -- the last occurrence: the series is done, and so is the task
      pure (some ⟨none, none⟩, touched (t.modify id (completedRow now)) id)
    | some next =>
      let t' := touched (t.insert (recordOf r now)) t.nextId
      pure (some ⟨some next, some t.nextId⟩, touched (t'.modify id (movedOn R rule due next)) id)

/-- Whether a row is there and not waiting to be deleted. -/
def standing (t : Tasks) (id : Nat) : Bool :=
  match t.get id with
  | some r => r.pending ≠ some .delete
  | none => false

def stoppedRow (now : Int) (r : Row) : Row :=
  { r with
    fields := { r.fields with rrule := [], completedAt := some (r.fields.completedAt.getD now) }
    revision := r.revision + 1 }

/-- Ends a task's repetition and completes it. -/
def stopRepeating (t : Tasks) (id : Nat) (now : Int) : Except String Tasks := do
  checkEditable t id
  if standing t id then pure (touched (t.modify id (stoppedRow now)) id)
  else .error "this task no longer exists"

/-- The completion `set_task_completed` writes. -/
def completionRow (completedAt : Option Int) (r : Row) : Row :=
  { r with fields := { r.fields with completedAt := completedAt } }

/-- Marks a task done, or takes that back. -/
def setTaskCompleted (R : Recurrences ρ) (t : Tasks) (id : Nat) (completed : Bool) (now : Int) :
    Except String Tasks := do
  checkEditable t id
  let (outcome, t') ← if completed then completeOccurrence R t id now else pure (none, t)
  if outcome.isSome then pure t'
  else if standing t id then
    pure (touched (t.modify id (completionRow (if completed then some now else none))) id)
  else .error "this task no longer exists"

/-- Completes a task, or reopens it. -/
def setCompleted (R : Recurrences ρ) (t : Tasks) (id : Nat) (completed stop : Bool) (now : Int) :
    Except String (Completed × Tasks) := do
  if completed && stop then
    let t' ← stopRepeating t id now
    pure (⟨none, none⟩, t')
  else
    let (outcome, t') ← if completed then completeOccurrence R t id now else pure (none, t)
    match outcome with
    | some done => pure (done, t')
    | none =>
      let t'' ← setTaskCompleted R t id completed now
      pure (⟨none, none⟩, t'')

/-- What deleting a task makes of its row: one whose version on the server is known is kept, hidden,
until the next sync deletes it there; any other goes at once. -/
def deleteRow (r : Row) : Option Row :=
  if r.remoteEtag.isSome then some { r with pending := some .delete, syncSeq := r.syncSeq + 1 }
  else none

/-- Removes a task outright. -/
def deleteTask (t : Tasks) (id : Nat) : Tasks := t.alter id deleteRow

/-! ## What a local edit does to the table -/

/-- What an edit does to a row that was there. -/
structure Touched (r r' : Row) : Prop where
  standing : r.pending ≠ some .delete
  pending : r'.pending = some .put
  seq : r.syncSeq < r'.syncSeq
  href : r'.remoteHref = r.remoteHref
  etag : r'.remoteEtag = r.remoteEtag
  conflict : r'.conflict = r.conflict

/-- A row made here, which the server knows nothing of. -/
structure Fresh (r : Row) : Prop where
  pending : r.pending = some .put
  href : r.remoteHref = []
  etag : r.remoteEtag = none
  conflict : r.conflict = none

/-- What an edit does under one key: nothing, or it rewrites the row, or it puts a new one there. -/
inductive EditedAt (t t' : Tasks) (k : Nat) : Prop where
  | same (h : t'.get k = t.get k)
  | edited (r r' : Row) (h : t.get k = some r) (h' : t'.get k = some r') (ht : Touched r r')
  | added (r' : Row) (hk : t.nextId ≤ k) (h' : t'.get k = some r') (hf : Fresh r')

/-- What an edit may do to the table. -/
structure LocalEdit (t t' : Tasks) : Prop where
  grows : t.nextId ≤ t'.nextId
  row : ∀ k, EditedAt t t' k

theorem Touched.trans {a b c : Row} (h : Touched a b) (h' : Touched b c) : Touched a c where
  standing := h.standing
  pending := h'.pending
  seq := Nat.lt_trans h.seq h'.seq
  href := h'.href.trans h.href
  etag := h'.etag.trans h.etag
  conflict := h'.conflict.trans h.conflict

theorem Fresh.touched {a b : Row} (h : Fresh a) (h' : Touched a b) : Fresh b where
  pending := h'.pending
  href := h'.href.trans h.href
  etag := h'.etag.trans h.etag
  conflict := h'.conflict.trans h.conflict

theorem LocalEdit.refl (t : Tasks) : LocalEdit t t := ⟨Nat.le_refl _, fun _ => .same rfl⟩

variable {t : Tasks}

theorem LocalEdit.trans {u v : Tasks} (h : LocalEdit t u) (h' : LocalEdit u v) : LocalEdit t v where
  grows := Nat.le_trans h.grows h'.grows
  row k := by
    have hgrow := h.grows
    cases h'.row k with
    | same e' =>
      cases h.row k with
      | same e => exact .same (e'.trans e)
      | edited r r' e e₁ ht => exact .edited r r' e (e'.trans e₁) ht
      | added r' hk e₁ hf => exact .added r' hk (e'.trans e₁) hf
    | edited r r' e₁ e₂ ht' =>
      cases h.row k with
      | same e => exact .edited r r' (e ▸ e₁) e₂ ht'
      | edited a b e ea ht =>
        have hb : b = r := Option.some.inj (ea.symm.trans e₁)
        exact .edited a r' e e₂ (ht.trans (hb ▸ ht'))
      | added b hk ea hf =>
        have hb : b = r := Option.some.inj (ea.symm.trans e₁)
        exact .added r' hk e₂ (Fresh.touched hf (hb ▸ ht'))
    | added r' hk e₂ hf => exact .added r' (by omega) e₂ hf

variable {id : Nat}

/-- Rewriting a task's own columns and marking it changed. -/
theorem edit_local {r : Row} {f : Row → Row} (hr : t.get id = some r) (hd : r.pending ≠ some .delete)
    (hf : f r = { r with fields := (f r).fields, revision := (f r).revision }) :
    LocalEdit t (touched (t.modify id f) id) where
  grows := Nat.le_refl _
  row k := by
    by_cases hk : k = id
    · subst hk
      have hp : (f r).pending ≠ some .delete := by
        rw [hf]
        exact hd
      have hget : (touched (t.modify k f) k).get k =
          some { f r with pending := some .put, syncSeq := (f r).syncSeq + 1 } := by
        unfold touched
        rw [get_modify, if_pos rfl, get_modify, if_pos rfl, hr]
        simp [touch, hp]
      refine .edited r _ hr hget ⟨hd, rfl, ?_, ?_, ?_, ?_⟩ <;> rw [hf]
      exact Nat.lt_succ_self _
    · apply EditedAt.same
      unfold touched
      rw [get_modify, if_neg hk, get_modify, if_neg hk]

/-- A row inserted and marked changed. -/
theorem insert_local (t : Tasks) (f : Fields) : LocalEdit t (touched (t.insert (newRow f)) t.nextId) where
  grows := Nat.le_succ _
  row k := by
    by_cases hk : k = t.nextId
    · subst hk
      have hget : (touched (t.insert (newRow f)) t.nextId).get t.nextId = some (touch (newRow f)) := by
        unfold touched
        rw [get_modify, if_pos rfl, get_insert, if_pos rfl]
        rfl
      exact .added _ (Nat.le_refl _) hget ⟨rfl, rfl, rfl, rfl⟩
    · apply EditedAt.same
      unfold touched
      rw [get_modify, if_neg hk, get_insert, if_neg hk]

variable {R : Recurrences ρ} {t' : Tasks}

theorem create_local {f : TaskFields ρ} (h : create R t f = .ok (id, t')) : LocalEdit t t' := by
  unfold create at h
  cases hc : f.check with
  | error e => simp [hc, bind, Except.bind] at h
  | ok u =>
    simp only [hc, bind, Except.bind, pure, Except.pure, Except.ok.injEq, Prod.mk.injEq] at h
    obtain ⟨-, rfl⟩ := h
    exact insert_local t _

theorem get_some {p : TaskFields ρ × Int} (h : get R t id = some p) : ∃ r, t.get id = some r ∧ r.pending ≠ some .delete := by
  unfold get at h
  split at h
  · rename_i r hr
    split at h
    · cases h
    · rename_i hd
      exact ⟨r, hr, hd⟩
  · cases h

theorem update_local {f : TaskFields ρ} {readAt : Int}
    {e : Edit ρ} (h : update R t id readAt f = .ok (e, t')) : LocalEdit t t' := by
  unfold update at h
  split at h
  · cases h
    exact LocalEdit.refl t
  · rename_i current revision hg
    obtain ⟨r, hr, hd⟩ := get_some hg
    split at h
    · cases h
      exact LocalEdit.refl t
    · cases hc : f.check with
      | error e => simp [hc, bind, Except.bind] at h
      | ok u =>
        cases he : checkEditable t id with
        | error e => simp [hc, he, bind, Except.bind] at h
        | ok u =>
          simp only [hc, he, bind, Except.bind, pure, Except.pure, Except.ok.injEq, Prod.mk.injEq] at h
          obtain ⟨-, rfl⟩ := h
          exact edit_local hr hd rfl

theorem occurrence_some {r : Row} {due : Int} {rule : ρ} (h : occurrence R t id = some (r, due, rule)) :
    t.get id = some r ∧ r.pending ≠ some .delete := by
  unfold occurrence at h
  split at h
  · rename_i r' hr
    split at h
    · cases h
    · rename_i hd
      split at h
      · cases h
        exact ⟨hr, hd⟩
      · cases h
  · cases h

theorem completeOccurrence_local {now : Int} {done : Option Completed} (h : completeOccurrence R t id now = .ok (done, t')) :
    LocalEdit t t' := by
  unfold completeOccurrence at h
  split at h
  · cases h
    exact LocalEdit.refl t
  · rename_i r due rule ho
    obtain ⟨hr, hd⟩ := occurrence_some ho
    cases he : checkEditable t id with
    | error e => simp [he, bind, Except.bind] at h
    | ok u =>
      simp only [he, bind, Except.bind] at h
      split at h
      · simp only [pure, Except.pure, Except.ok.injEq, Prod.mk.injEq] at h
        obtain ⟨-, rfl⟩ := h
        exact edit_local hr hd rfl
      · simp only [pure, Except.pure, Except.ok.injEq, Prod.mk.injEq] at h
        obtain ⟨-, rfl⟩ := h
        refine (insert_local t _).trans (edit_local (r := r) ?_ hd rfl)
        -- the record goes under a key of its own
        have hne : id ≠ t.nextId := Nat.ne_of_lt (get_lt hr)
        unfold touched
        rw [get_modify, if_neg hne, get_insert, if_neg hne, hr]

theorem standing_iff : standing t id = true ↔ ∃ r, t.get id = some r ∧ r.pending ≠ some .delete := by
  unfold standing
  cases t.get id with
  | none => simp
  | some r => simp

theorem stopRepeating_local {now : Int} (h : stopRepeating t id now = .ok t') : LocalEdit t t' := by
  unfold stopRepeating at h
  cases he : checkEditable t id with
  | error e => simp [he, bind, Except.bind] at h
  | ok u =>
    simp only [he, bind, Except.bind] at h
    split at h
    · rename_i hs
      obtain ⟨r, hr, hd⟩ := standing_iff.mp hs
      cases h
      exact edit_local hr hd rfl
    · cases h

theorem setTaskCompleted_local {completed : Bool}
    {now : Int} (h : setTaskCompleted R t id completed now = .ok t') : LocalEdit t t' := by
  unfold setTaskCompleted at h
  cases he : checkEditable t id with
  | error e => simp [he, bind, Except.bind] at h
  | ok u =>
    have hlast : ∀ {v : Tasks}, (if standing t id = true then
        pure (touched (t.modify id (completionRow (if completed then some now else none))) id)
        else .error "this task no longer exists" : Except String Tasks) = .ok v → LocalEdit t v := by
      intro v hv
      split at hv
      · rename_i hs
        obtain ⟨r, hr, hd⟩ := standing_iff.mp hs
        cases hv
        exact edit_local hr hd rfl
      · cases hv
    cases completed with
    | false =>
      simp only [he, bind, Except.bind, pure, Except.pure] at h
      exact hlast h
    | true =>
      cases hc : completeOccurrence R t id now with
      | error e => simp [he, hc, bind, Except.bind] at h
      | ok p =>
        obtain ⟨done, t₁⟩ := p
        simp only [he, hc, bind, Except.bind, if_true] at h
        split at h
        · cases h
          exact completeOccurrence_local hc
        · exact hlast h

theorem setCompleted_local {completed stop : Bool}
    {now : Int} {done : Completed} (h : setCompleted R t id completed stop now = .ok (done, t')) : LocalEdit t t' := by
  unfold setCompleted at h
  split at h
  · cases hs : stopRepeating t id now with
    | error e => simp [hs, bind, Except.bind] at h
    | ok t₁ =>
      simp only [hs, bind, Except.bind, pure, Except.pure, Except.ok.injEq, Prod.mk.injEq] at h
      obtain ⟨-, rfl⟩ := h
      exact stopRepeating_local hs
  · have hrest : ∀ {u : Tasks}, (do
        let t'' ← setTaskCompleted R t id completed now
        pure ((⟨none, none⟩ : Completed), t'')) = Except.ok (done, u) → LocalEdit t u := by
      intro u hu
      cases hs : setTaskCompleted R t id completed now with
      | error e => simp [hs, bind, Except.bind] at hu
      | ok t₁ =>
        simp only [hs, bind, Except.bind, pure, Except.pure, Except.ok.injEq, Prod.mk.injEq] at hu
        obtain ⟨-, rfl⟩ := hu
        exact setTaskCompleted_local hs
    cases completed with
    | false =>
      simp only [bind, Except.bind, pure, Except.pure] at h
      exact hrest h
    | true =>
      cases hc : completeOccurrence R t id now with
      | error e => simp [hc, bind, Except.bind] at h
      | ok p =>
        obtain ⟨outcome, t₁⟩ := p
        simp only [hc, bind, Except.bind, if_true] at h
        split at h
        · cases h
          exact completeOccurrence_local hc
        · exact hrest h

end Oreneta.Store.TaskLists

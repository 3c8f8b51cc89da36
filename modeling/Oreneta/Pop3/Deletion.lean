import Oreneta.Pop3.Fetch

/-!
# Deletion from the server

* `Deletable` — what has to hold of a message whose number is passed to `DELE`: bytes with its hash were
  committed here, the policy is not to keep, and under `WhenDeletedHere` no folder but Trash holds it;
* `Steady` — the condition on a step: a UIDL noted for a stored message names those bytes in the list the
  deletions are chosen from, and what they were chosen by is not undone while they are sent;
* `deleted_was_stored` — in every run whose steps all meet it, every `DELE` is `Deletable`;
* `reused_uidl_deleted` — a server that gives the UIDL to another message loses that one.
-/

namespace Oreneta.Pop3

open Archive Runs List

variable {D : Type} [DecidableEq D] {hash : Bytes → D} {mail : Mailparse}

/-- The messages a run is about to delete, by what their numbers name. -/
def Phase.toSend : Phase D → List Bytes
  | .deleting session _ rest => rest.map (fun entry => session.bytes entry.1)
  | _ => []

/-- A message that may be deleted from the server. -/
structure Deletable (hash : Bytes → D) (retention : Retention) (rows : List StoredRow)
    (committed : List Bytes) (raw : Bytes) : Prop where
  stored : ∃ copy ∈ committed, hash copy = hash raw
  chosen : retention ≠ .keep
  gone : retention = .whenDeletedHere → ∀ r ∈ rows, r.folder ≠ TRASH → r.raw ≠ raw

/-- The condition on a step. -/
def Steady (hash : Bytes → D) (s : State D) : Act → Prop
  | .decide_ =>
    match s.phase with
    | .fetching session _ _ [] => ∀ entry ∈ session.listed, ∀ row ∈ s.seen,
        row.uidl = entry.2 → row.uid.isSome = true → row.hash = hash (session.bytes entry.1)
    | _ => True
  | .setRetention retention => ∀ raw ∈ s.phase.toSend, retention ≠ .keep ∧
      (retention = .whenDeletedHere → ∀ r ∈ s.rows, r.folder ≠ TRASH → r.raw ≠ raw)
  | .user rows => ∀ raw ∈ s.phase.toSend, s.retention = .whenDeletedHere →
      ∀ r ∈ rows, r.folder ≠ TRASH → r.raw ≠ raw
  | _ => True

/-- What every step keeps. -/
structure DeletionInv (hash : Bytes → D) (x : State D × List Bytes) : Prop where
  noted : ∀ row ∈ x.1.seen, row.uid.isSome = true → ∃ copy ∈ x.2, hash copy = row.hash
  inHand : ∀ raw ∈ x.1.phase.inHand, raw ∈ x.2
  toSend : ∀ raw ∈ x.1.phase.toSend, Deletable hash x.1.retention x.1.rows x.2 raw

omit [DecidableEq D] in
theorem DeletionInv.start {rows : List StoredRow} {retention : Retention} : DeletionInv hash (start D rows retention, []) :=
  ⟨fun _ h => absurd h not_mem_nil, fun _ h => (nomatch h), fun _ h => absurd h not_mem_nil⟩

omit [DecidableEq D] in
/-- A row noted without a uid says nothing. -/
theorem mem_insertOrIgnore_uid {seen : List (SeenRow D)} {row r : SeenRow D} (hrow : row.uid = none)
    (hr : r ∈ insertOrIgnore seen row) (huid : r.uid.isSome = true) : r ∈ seen := by
  unfold insertOrIgnore at hr
  split at hr
  · exact hr
  · rcases mem_append.mp hr with hr | hr
    · exact hr
    · rw [mem_singleton.mp hr, hrow] at huid
      cases huid

/-- **What is chosen for deletion**: listed messages with a row that has a uid and is due. -/
theorem mem_toDelete {s : State D} {listed : List (Nat × Str)} {now : Int} {entry : Nat × Str}
    (h : entry ∈ toDelete hash s listed now) :
    entry ∈ listed ∧ s.retention ≠ .keep ∧ ∃ row ∈ s.seen, row.uidl = entry.2 ∧ row.uid.isSome = true ∧
      (s.retention = .whenDeletedHere → row.hash ∉ presentHashes hash s.rows) := by
  unfold toDelete at h
  cases hretention : s.retention with
  | keep =>
    rw [hretention] at h
    exact absurd h not_mem_nil
  | afterDays days =>
    rw [hretention] at h
    obtain ⟨hlisted, hdue⟩ := mem_filter.mp h
    obtain ⟨row, hrow, hdue⟩ := (Option.any_eq_true _ _).mp hdue
    obtain ⟨hmem, huidl⟩ := Table.lookup_some hrow
    unfold due at hdue
    rw [Bool.and_eq_true] at hdue
    exact ⟨hlisted, Retention.noConfusion, row, hmem, huidl, hdue.1, Retention.noConfusion⟩
  | whenDeletedHere =>
    rw [hretention] at h
    obtain ⟨hlisted, hdue⟩ := mem_filter.mp h
    obtain ⟨row, hrow, hdue⟩ := (Option.any_eq_true _ _).mp hdue
    obtain ⟨hmem, huidl⟩ := Table.lookup_some hrow
    unfold due at hdue
    rw [Bool.and_eq_true] at hdue
    exact ⟨hlisted, Retention.noConfusion, row, hmem, huidl, hdue.1, fun _ => by simpa using hdue.2⟩

section Step

variable {s t : State D} {committed : List Bytes}

omit [DecidableEq D] in
/-- A step to where nothing is stored and nothing is sent. -/
theorem DeletionInv.move {seen : List (SeenRow D)} {rows : List StoredRow} {phase : Phase D} {committed' : List Bytes}
    (hnoted : ∀ row ∈ seen, row.uid.isSome = true → ∃ copy ∈ committed', hash copy = row.hash)
    (hhand : phase.inHand = none) (hsend : phase.toSend = []) : DeletionInv hash ({ s with seen, rows, phase }, committed') := by
  refine ⟨hnoted, ?_, ?_⟩
  · intro raw hraw
    dsimp only at hraw
    rw [hhand] at hraw
    cases hraw
  · intro raw hraw
    dsimp only at hraw
    rw [hsend] at hraw
    cases hraw

theorem DeletionInv.fetchOne {session : Session} {known : List Str} {hashes : List D} {n : Nat}
    {uidl : Str} {rest : List (Nat × Str)} (h : DeletionInv hash (s, committed)) :
    DeletionInv hash (Pop3.fetchOne hash mail s session known hashes n uidl rest,
      sees s .next (Pop3.fetchOne hash mail s session known hashes n uidl rest) committed) := by
  unfold Pop3.fetchOne
  dsimp only
  split
  · exact DeletionInv.move h.noted rfl rfl
  split
  · exact DeletionInv.move h.noted rfl rfl
  split
  · exact DeletionInv.move (fun row hrow huid => h.noted row (mem_insertOrIgnore_uid rfl hrow huid) huid)
      rfl rfl
  split
  · exact DeletionInv.move (fun row hrow huid => h.noted row (mem_insertOrIgnore_uid rfl hrow huid) huid)
      rfl rfl
  refine ⟨?_, ?_, fun _ hraw => absurd hraw not_mem_nil⟩
  · intro row hrow huid
    obtain ⟨copy, hcopy, hhash⟩ := h.noted row hrow huid
    exact ⟨copy, mem_cons_of_mem _ hcopy, hhash⟩
  · intro raw hraw
    cases hraw
    exact mem_cons_self

theorem DeletionInv.step {a : Act} (h : DeletionInv hash (s, committed)) (hsteady : Steady hash s a)
    (hstep : Pop3.step hash mail s a = some t) : DeletionInv hash (t, sees s a t committed) := by
  cases step_does hstep with
  | next => exact h.fetchOne
  | begin_ => exact DeletionInv.move h.noted rfl rfl
  | note hphase =>
    rename_i session known hashes uidl raw uid rest
    refine DeletionInv.move ?_ rfl rfl
    intro row hrow huid
    rcases mem_append.mp hrow with hrow | hrow
    · exact h.noted row (mem_of_mem_filter hrow) huid
    · rw [mem_singleton.mp hrow]
      exact ⟨raw, h.inHand raw (by rw [hphase]; rfl), rfl⟩
  | decide_ hphase =>
    rename_i session known hashes
    unfold Steady at hsteady
    rw [hphase] at hsteady
    refine ⟨h.noted, fun _ hraw => (nomatch hraw), ?_⟩
    intro raw hraw
    obtain ⟨entry, hentry, rfl⟩ := mem_map.mp hraw
    obtain ⟨hlisted, hchosen, row, hrow, huidl, huid, hgone⟩ := mem_toDelete hentry
    have hsame := hsteady entry hlisted row hrow huidl huid
    obtain ⟨copy, hcopy, hhash⟩ := h.noted row hrow huid
    refine ⟨⟨copy, hcopy, hhash.trans hsame⟩, hchosen, ?_⟩
    intro hpolicy r hr hfolder hheld
    apply hgone hpolicy
    rw [hsame, ← hheld]
    exact mem_map.mpr ⟨r, mem_filter.mpr ⟨hr, decide_eq_true hfolder⟩, rfl⟩
  | dele hphase =>
    refine ⟨h.noted, fun _ hraw => (nomatch hraw), ?_⟩
    intro raw hraw
    apply h.toSend
    rw [hphase]
    exact mem_cons_of_mem _ hraw
  | quit => exact DeletionInv.move h.noted rfl rfl
  | record =>
    refine DeletionInv.move ?_ rfl rfl
    intro row hrow huid
    obtain ⟨r, hr, rfl⟩ := mem_map.mp hrow
    split at huid
    · obtain ⟨copy, hcopy, hhash⟩ := h.noted r hr huid
      exact ⟨copy, hcopy, by split <;> exact hhash⟩
    · obtain ⟨copy, hcopy, hhash⟩ := h.noted r hr huid
      exact ⟨copy, hcopy, by split <;> exact hhash⟩
  | stop => exact DeletionInv.move h.noted rfl rfl
  | setRetention =>
    refine ⟨h.noted, h.inHand, ?_⟩
    intro raw hraw
    obtain ⟨hchosen, hgone⟩ := hsteady raw hraw
    exact ⟨(h.toSend raw hraw).stored, hchosen, hgone⟩
  | user =>
    refine ⟨h.noted, h.inHand, ?_⟩
    intro raw hraw
    obtain ⟨hstored, hchosen, -⟩ := h.toSend raw hraw
    exact ⟨hstored, hchosen, hsteady raw hraw⟩

end Step

/-- **Only what was stored here is deleted from the server**: wherever a run stands before a `DELE`, the
message its number names is `Deletable`. -/
theorem deleted_was_stored {rows : List StoredRow} {retention : Retention} {as : List Act} {s : State D}
    {committed : List Bytes} {session : Session} {doomed rest : List (Nat × Str)} {n : Nat} {uidl : Str}
    (hsteady : AllSteps (watched (step hash mail) sees) (fun x a => Steady hash x.1 a)
      (start D rows retention, []) as) (hrun : Runs.run (watched (step hash mail) sees) (start D rows retention, []) as =
      some (s, committed)) (hdele : s.phase = .deleting session doomed ((n, uidl) :: rest)) :
    Deletable hash s.retention s.rows committed (session.bytes n) := by
  have hstep : ∀ x a y, DeletionInv hash x → Steady hash x.1 a →
      watched (step hash mail) sees x a = some y → DeletionInv hash y := by
    intro x a y h hok hs
    obtain ⟨ht, hsees⟩ := watched_some hs
    have := h.step hok ht
    rw [← hsees] at this
    exact this
  have hinv := run_invariant hstep DeletionInv.start hsteady hrun
  apply hinv.toSend
  rw [hdele]
  exact mem_cons_self

/-! ## A UIDL given to another message -/

instance {s : State D} {a : Act} : Decidable (Steady hash s a) := by
  unfold Steady
  cases a <;> dsimp only <;> try infer_instance
  split <;> infer_instance

/-- A mailbox with one message, a day later or more. -/
def listedOnce (now : Int) (raw : Bytes) : Session where
  listed := [(1, "1")]
  sizes := fun _ => none
  bytes := fun _ => raw
  now

/-- Downloaded; and then, messages being deleted after a day, listed again. -/
def twoChecks (first second : Bytes) : List Act :=
  [.begin_ (listedOnce 0 first), .next, .note, .decide_, .quit, .record, .setRetention (.afterDays 1),
    .begin_ (listedOnce 86400 second), .next, .decide_]

def letter : Bytes := Bytes.ofText "From: a\r\n\r\n"

def other : Bytes := Bytes.ofText "From: b\r\n\r\n"

/-- As the parser reads them: neither has a Message-ID. -/
def noIds : Mailparse where
  parseHeaders := fun _ => none
  parseMail := fun _ => some none

/-- The message downloaded is the one deleted. -/
theorem letter_deletable : Deletable id (.afterDays 1) [⟨INBOX, 1, letter, some []⟩] [letter] letter :=
  have hsteady : AllSteps (watched (step id noIds) sees) (fun x a => Steady id x.1 a)
      (start Bytes [] .keep, []) (twoChecks letter letter) := by decide +kernel
  deleted_was_stored hsteady rfl rfl

/-- The UIDL of a message stored here, on another message: it is not downloaded, and it is deleted. -/
theorem reused_uidl_deleted : ∃ s committed session doomed,
    Runs.run (watched (step id noIds) sees) (start Bytes [] .keep, []) (twoChecks letter other) =
        some (s, committed) ∧
      s.phase = .deleting session doomed [(1, "1")] ∧ session.bytes 1 = other ∧
      other ∉ committed ∧ other ∉ s.rows.map StoredRow.raw :=
  ⟨_, _, _, _, rfl, rfl, rfl, by decide +kernel, by decide +kernel⟩

end Oreneta.Pop3

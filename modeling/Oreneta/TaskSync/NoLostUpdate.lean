import Oreneta.TaskSync.Sync

/-!
# No lost update, no lost edit

An observer beside the system writes down, for every row, the `ETag` it last recorded, every write
the server accepted and what that write replaced, and what the person last wrote into each task,
until it is discarded by a later edit, a deletion or a choice of the server's copy.

* `Safe` — every accepted write replaced exactly the version its row had last recorded, and every
  edit not discarded is on the server as a version or waits in a row to be sent.
* `edit_lost` — the run on which the code breaks it.  Two calls of `resolve_conflict` for one task
  overlap: the second settles the conflict, the person edits the task, and the first, which read the
  row as waiting to be deleted, then deletes it without looking at it again.
* `no_lost_update` — in every run in which a call of `resolve_conflict` that comes to its end finds
  the task, if it is still there, still in conflict, and still deleted here if it was, the system is
  safe in every state reached.
-/

namespace Oreneta.TaskSync

open Store.TaskLists Runs AutoTable List

variable {ρ : Type}

/-! ## The observer -/

/-- A write the server accepted. -/
structure Write where
  id : Nat
  /-- What stood there until then. -/
  replaced : Option Object
  /-- The `ETag` the row had last recorded. -/
  recorded : Option Nat
  deriving DecidableEq

structure Ledger where
  recorded : Nat → Option Nat
  accepted : List Write
  /-- What the person last wrote into each task, unless it was discarded. -/
  live : List (Nat × Fields)

def Ledger.empty : Ledger := ⟨fun _ => none, [], []⟩

/-- The write a step gets accepted.  A `DELETE` of what is gone already replaces nothing. -/
def acceptedBy (s t : State) (h : Ledger) : List Write :=
  match s.phase, t.phase with
  | .sending _ r, .served _ _ (.saved _) =>
    match r.request, s.server.find r.href with
    | .delete _, none => []
    | _, there => [⟨r.id, there, h.recorded r.id⟩]
  | _, _ => []

/-- The edits that are not discarded after a step. -/
def liveAfter (s : State) (a : Action ρ) (t : State) (live : List (Nat × Fields)) :
    List (Nat × Fields) :=
  match a with
  | .create .. | .update .. | .setCompleted .. =>
    live.filter (fun p => t.tasks.get p.1 = s.tasks.get p.1) ++
      (t.tasks.rows.filter (fun p => s.tasks.get p.1 ≠ some p.2)).map (fun p => (p.1, p.2.fields))
  | .deleteTask id => live.filter (fun p => p.1 ≠ id)
  | .resolveFinish i =>
    match s.resolving[i]? with
    | some r =>
      if r.keep = .server ∧ t.tasks.get r.id ≠ s.tasks.get r.id then live.filter (fun p => p.1 ≠ r.id)
      else live
    | none => live
  | _ => live

def observe (s : State) (a : Action ρ) (t : State) (h : Ledger) : Ledger where
  recorded k :=
    match t.tasks.get k with
    | some r => r.remoteEtag
    | none => h.recorded k
  accepted := h.accepted ++ acceptedBy s t h
  live := liveAfter s a t h.live

/-- The system with its observer. -/
def ledgerStep (C : Codec) (R : Recurrences ρ) : State × Ledger → Action ρ → Option (State × Ledger) :=
  watched (step C R) observe

/-! ## What is claimed of it -/

/-- An object written from these fields. -/
def Carries (C : Codec) (f : Fields) (ics : Str) : Prop :=
  (∃ uid now, ics = C.newObject f uid now) ∨ ∃ base now, C.patch base f now = some ics

/-- The content is, or was, on the server as a version. -/
def OnServer (C : Codec) (s : State) (f : Fields) : Prop :=
  ∃ v ∈ s.server.versions, Carries C f v.ics

/-- The content is in a row with a change waiting. -/
def Waiting (s : State) (id : Nat) (f : Fields) : Prop :=
  ∃ r, s.tasks.get id = some r ∧ r.pending ≠ none ∧ r.fields = f

/-- **No lost update and no lost edit.** -/
def Safe (C : Codec) (x : State × Ledger) : Prop :=
  (∀ w ∈ x.2.accepted, w.replaced.map Object.etag = w.recorded) ∧
    ∀ p ∈ x.2.live, OnServer C x.1 p.2 ∨ Waiting x.1 p.1 p.2

/-! ## Where the code breaks it -/

section Lost

/-- Objects of one line, a title. -/
def titleCodec : Codec where
  parse ics := some ⟨⟨ics, [], none, 1, none, none, []⟩, false⟩
  newObject f _ _ := f.title
  patch _ f _ := some f.title
  newHref uid := some uid

/-- No task repeats. -/
def noRules : Recurrences Unit where
  parse _ := none
  written _ _ := []
  nextLocal _ _ := none
  advanced r := r
  freeMonthDay r := r
  dueDay _ := none

def titled (title : String) : TaskFields Unit := ⟨title.toList, [], none, none, 1, none⟩

/-- Another client's task is read, deleted here, and changed there: the deletion is refused. -/
def refusedDelete : List (Action Unit) :=
  [.remotePut "/a.ics" "milk", .startSync 0, .pushNext [], .fetch [], .reconcile,
    .deleteTask 0, .remotePut "/a.ics" "oat milk", .startSync 1, .pushNext [],
    .serve true true, .answer, .lose]

/-- The person keeps the deletion and, before that call ends, the server's copy, and then edits it:
the first call found nothing on the server, where the other client writes the task again meanwhile. -/
def overlapping : List (Action Unit) :=
  [.resolveStart 0 .mine, .remoteDelete "/a.ics", .resolveGet 0 true,
    .remotePut "/a.ics" "rice milk", .resolveStart 0 .server, .resolveGet 1 true,
    .resolveFinish 1, .update 0 2 (titled "soy milk"), .resolveFinish 0]

theorem carries_titleCodec {f : Fields} {ics : Str} (h : Carries titleCodec f ics) : ics = f.title := by
  rcases h with ⟨_, _, h⟩ | ⟨_, _, h⟩
  · exact h
  · exact (Option.some.inj h).symm

/-- The fields of the task after the last edit of the run. -/
def soyMilk : Fields := ⟨"soy milk", [], none, 1, none, none, []⟩

/-- **An edit is lost**: it is on no version the server ever held and in no row. -/
theorem edit_lost : ∃ x, run (ledgerStep titleCodec noRules) (State.init Server.empty, Ledger.empty)
      (refusedDelete ++ overlapping) = some x ∧ ¬ Safe titleCodec x := by
  have hend : (run (ledgerStep titleCodec noRules) (State.init Server.empty, Ledger.empty)
      (refusedDelete ++ overlapping)).any (fun x => (0, soyMilk) ∈ x.2.live ∧
        x.1.tasks.get 0 = none ∧ ∀ v ∈ x.1.server.versions, v.ics ≠ soyMilk.title) = true := by
    decide +kernel
  obtain ⟨x, hx, hprop⟩ := Option.any_eq_true _ _ |>.mp hend
  obtain ⟨hlive, hrow, hversions⟩ := of_decide_eq_true hprop
  refine ⟨x, hx, fun h => ?_⟩
  rcases h.2 _ hlive with ⟨v, hv, hc⟩ | ⟨r, hr, -⟩
  · exact hversions v hv (carries_titleCodec hc)
  · rw [hrow] at hr
    cases hr

end Lost

/-! ## When nothing is lost -/

/-- The condition on a step: a call of `resolve_conflict` that comes to its end finds the row, if it
is still there, still in conflict, and still waiting to be deleted if it read it so. -/
def Unsettled (s : State) : Action ρ → Prop
  | .resolveFinish i =>
    ∀ r ∈ s.resolving[i]?, ∀ row ∈ s.tasks.get r.id,
      row.conflict ≠ none ∧ (r.pending = some .delete → row.pending = some .delete)
  | _ => True

instance Unsettled.decidable (s : State) : ∀ a : Action ρ, Decidable (Unsettled s a)
  | .resolveFinish i => inferInstanceAs (Decidable (∀ r ∈ s.resolving[i]?, ∀ row ∈ s.tasks.get r.id,
      row.conflict ≠ none ∧ (r.pending = some .delete → row.pending = some .delete)))
  | .startSync _ | .pushNext _ | .serve .. | .answer | .lose | .fetch _ | .reconcile
  | .resolveStart .. | .resolveGet .. | .resolveFail _ | .create _ | .update .. | .setCompleted ..
  | .deleteTask _ | .remotePut .. | .remoteDelete _ => isTrue trivial

/-- A row since the queue read it as `q`: it says what it said unless its `sync_seq` moved on, and is
still waiting to be deleted if it was. -/
structure Follows (q r : Row) : Prop where
  seq : q.syncSeq ≤ r.syncSeq
  fields : q.syncSeq = r.syncSeq → r.fields = q.fields
  delete : q.pending = some .delete → r.pending = some .delete

/-- What a request was made from. -/
def Made (C : Codec) (r : Sent) : Prop :=
  match r.request with
  | .put ics => Carries C r.task.fields ics
  | .delete etag => r.task.pending = some .delete ∧ r.task.remoteEtag = some etag

/-- The invariant of the runs in which no two calls of `resolve_conflict` settle one conflict. -/
structure LedgerInv (C : Codec) (s : State) (h : Ledger) : Prop where
  recorded : ∀ k r, s.tasks.get k = some r → h.recorded k = r.remoteEtag
  accepted : ∀ w ∈ h.accepted, w.replaced.map Object.etag = w.recorded
  live : ∀ p ∈ h.live, OnServer C s p.2 ∨ Waiting s p.1 p.2
  deleting : ∀ k r, s.tasks.get k = some r → r.pending = some .delete → ∀ p ∈ h.live, p.1 ≠ k
  /-- `push` only runs while no task of the list is in conflict. -/
  quiet : s.phase.inPush → ∀ k r, s.tasks.get k = some r → r.conflict = none
  distinct : (s.phase.queued.map Prod.fst).Nodup
  known : ∀ q ∈ s.phase.queued, q.1 < s.tasks.nextId
  etags : ∀ q ∈ s.phase.queued, h.recorded q.1 = q.2.remoteEtag
  follows : ∀ q ∈ s.phase.queued, ∀ r, s.tasks.get q.1 = some r → Follows q.2 r
  made : ∀ r, s.phase.sent = some r → Made C r
  /-- What a request that was saved wrote is a version. -/
  stored : ∀ p r e ics, s.phase = .served p r (.saved e) → r.request = .put ics →
    ∃ v ∈ s.server.versions, v.ics = ics

section Inv

variable {C : Codec} {R : Recurrences ρ} {s t : State} {h : Ledger} {a : Action ρ}

theorem LedgerInv.safe (hi : LedgerInv C s h) : Safe C (s, h) := ⟨hi.accepted, hi.live⟩

theorem LedgerInv.init (server : Server) : LedgerInv C (State.init server) Ledger.empty where
  recorded _ _ h := by simp [State.init] at h
  accepted _ h := by cases h
  live _ h := by cases h
  deleting _ _ _ _ _ h := by cases h
  quiet h := by cases h
  distinct := nodup_nil
  known _ h := by cases h
  etags _ h := by cases h
  follows _ h := by cases h
  made _ h := by cases h
  stored _ _ _ _ h := by cases h

theorem recorded_observe (k : Nat) (r : Row) (hr : t.tasks.get k = some r) : (observe s a t h).recorded k = r.remoteEtag := by
  simp [observe, hr]

/-- What a row recorded does not change while every version of it there is records the same. -/
theorem recorded_same {k : Nat} {e : Option Nat} (hk : h.recorded k = e)
    (hrow : ∀ r, t.tasks.get k = some r → r.remoteEtag = e) : (observe s a t h).recorded k = e := by
  simp only [observe]
  cases ht : t.tasks.get k with
  | none => exact hk
  | some r => exact hrow r ht

theorem OnServer.mono {f : Fields} (hv : ∀ v ∈ s.server.versions, v ∈ t.server.versions)
    (ho : OnServer C s f) : OnServer C t f := by
  obtain ⟨v, hm, hc⟩ := ho
  exact ⟨v, hv v hm, hc⟩

/-- An edit that stays live stays where it is: it is a version for good, and a row with a change
waiting either keeps what it says or has it saved. -/
theorem LedgerInv.live_of (hi : LedgerInv C s h) {live : List (Nat × Fields)}
    (hsub : ∀ p ∈ live, p ∈ h.live) (hv : ∀ v ∈ s.server.versions, v ∈ t.server.versions)
    (hrow : ∀ p ∈ live, ∀ r, s.tasks.get p.1 = some r → r.pending ≠ none → r.fields = p.2 →
      OnServer C t p.2 ∨ Waiting t p.1 p.2) : ∀ p ∈ live, OnServer C t p.2 ∨ Waiting t p.1 p.2 := by
  intro p hp
  rcases hi.live p (hsub p hp) with ho | ⟨r, hr, hpend, hf⟩
  · exact .inl (ho.mono hv)
  · exact hrow p hp r hr hpend hf

theorem Follows.refl (r : Row) : Follows r r := ⟨Nat.le_refl _, fun _ => rfl, fun h => h⟩

theorem Follows.trans {q r x : Row} (h : Follows q r) (h' : Follows r x) : Follows q x where
  seq := Nat.le_trans h.seq h'.seq
  fields he := by
    have h₁ := h.seq
    have h₂ := h'.seq
    rw [h'.fields (by omega), h.fields (by omega)]
  delete hd := h'.delete (h.delete hd)

theorem acceptedBy_nil (h' : ∀ p r w, t.phase ≠ .served p r w) : acceptedBy s t h = [] := by
  unfold acceptedBy
  split
  · rename_i ht
    exact absurd ht (h' _ _ _)
  · rfl

theorem acceptedBy_same (hph : t.phase = s.phase) : acceptedBy s t h = [] := by
  unfold acceptedBy
  split
  · rename_i hs ht
    rw [hph, hs] at ht
    cases ht
  · rfl

/-- What a step owes the invariant.  The changes still queued are among those queued before, and the
rows they were read from record what they recorded. -/
theorem LedgerInv.next (hi : LedgerInv C s h) (hacc : ∀ w ∈ acceptedBy s t h, w.replaced.map Object.etag = w.recorded)
    (hsub : t.phase.queued.Sublist s.phase.queued) (hn : s.tasks.nextId ≤ t.tasks.nextId)
    (hrows : ∀ q ∈ t.phase.queued, ∀ x, t.tasks.get q.1 = some x →
      ∃ r, s.tasks.get q.1 = some r ∧ x.remoteEtag = r.remoteEtag ∧ Follows r x)
    (hquiet : t.phase.inPush → ∀ k r, t.tasks.get k = some r → r.conflict = none) (hmade : ∀ r, t.phase.sent = some r → Made C r)
    (hstored : ∀ p r e ics, t.phase = .served p r (.saved e) → r.request = .put ics →
      ∃ v ∈ t.server.versions, v.ics = ics) (hlive : ∀ p ∈ liveAfter s a t h.live, OnServer C t p.2 ∨ Waiting t p.1 p.2)
    (hdel : ∀ k r, t.tasks.get k = some r → r.pending = some .delete →
      ∀ p ∈ liveAfter s a t h.live, p.1 ≠ k) : LedgerInv C t (observe s a t h) where
  recorded := recorded_observe
  accepted w hw := by
    rcases mem_append.mp hw with hw | hw
    · exact hi.accepted w hw
    · exact hacc w hw
  live := hlive
  deleting := hdel
  quiet := hquiet
  distinct := hi.distinct.sublist (hsub.map _)
  known q hq := Nat.lt_of_lt_of_le (hi.known q (hsub.subset hq)) hn
  etags q hq := by
    refine recorded_same (hi.etags q (hsub.subset hq)) ?_
    intro x hx
    obtain ⟨r, hr, he, -⟩ := hrows q hq x hx
    rw [he, ← hi.recorded _ r hr, hi.etags q (hsub.subset hq)]
  follows q hq x hx := by
    obtain ⟨r, hr, -, hf⟩ := hrows q hq x hx
    exact (hi.follows q (hsub.subset hq) r hr).trans hf
  made := hmade
  stored := hstored

/-- Steps that leave the running sync where it is.  While `push` runs they keep what the rows record
and leave no conflict behind. -/
theorem LedgerInv.same_phase (hi : LedgerInv C s h) (hph : t.phase = s.phase)
    (hv : ∀ v ∈ s.server.versions, v ∈ t.server.versions) (hn : s.tasks.nextId ≤ t.tasks.nextId)
    (hrows : s.phase.inPush → ∀ k x, k < s.tasks.nextId → t.tasks.get k = some x →
      ∃ r, s.tasks.get k = some r ∧ x.remoteEtag = r.remoteEtag ∧ Follows r x)
    (hquiet : s.phase.inPush → ∀ k r, t.tasks.get k = some r → r.conflict = none)
    (hlive : ∀ p ∈ liveAfter s a t h.live, OnServer C t p.2 ∨ Waiting t p.1 p.2)
    (hdel : ∀ k r, t.tasks.get k = some r → r.pending = some .delete →
      ∀ p ∈ liveAfter s a t h.live, p.1 ≠ k) : LedgerInv C t (observe s a t h) := by
  refine hi.next (by simp [acceptedBy_same hph]) (hph ▸ List.Sublist.refl _) hn ?_ (hph ▸ hquiet)
    (hph ▸ hi.made) ?_ hlive hdel
  · intro q hq x hx
    rw [hph] at hq
    exact hrows (Phase.inPush_of_queued hq) q.1 x (hi.known q hq) hx
  · intro p r e ics hp hr
    obtain ⟨v, hm, hics⟩ := hi.stored p r e ics (hph ▸ hp) hr
    exact ⟨v, hv v hm, hics⟩

/-- Steps after which `push` is not running. -/
theorem LedgerInv.leave (hi : LedgerInv C s h) (hph : t.phase.inPush = false) (hn : s.tasks.nextId ≤ t.tasks.nextId)
    (hlive : ∀ p ∈ liveAfter s a t h.live, OnServer C t p.2 ∨ Waiting t p.1 p.2)
    (hdel : ∀ k r, t.tasks.get k = some r → r.pending = some .delete →
      ∀ p ∈ liveAfter s a t h.live, p.1 ≠ k) : LedgerInv C t (observe s a t h) := by
  have hserved : ∀ p r w, t.phase ≠ .served p r w := by
    intro p r w he
    rw [he] at hph
    cases hph
  have hnil : t.phase.queued = [] := Phase.queued_nil hph
  refine hi.next (by simp [acceptedBy_nil hserved]) (by simp [hnil]) hn (by simp [hnil])
    (by simp [hph]) (by simp [Phase.sent_none hph]) ?_ hlive hdel
  intro p r e ics hp
  exact absurd hp (hserved p r _)

/-! ### Edits -/

theorem LedgerInv.edit (hi : LedgerInv C s h) {t' : Tasks} (he : LocalEdit s.tasks t')
    (hlive : liveAfter s a { s with tasks := t' } h.live =
      h.live.filter (fun p => t'.get p.1 = s.tasks.get p.1) ++
        (t'.rows.filter fun p => s.tasks.get p.1 ≠ some p.2).map fun p => (p.1, p.2.fields)) :
    LedgerInv C { s with tasks := t' } (observe s a { s with tasks := t' } h) := by
  have hchanged : ∀ {k : Nat} {x : Row}, t'.get k = some x → s.tasks.get k ≠ some x →
      x.pending = some .put := by
    intro k x hx hne
    cases he.row k with
    | same hs => exact absurd (hs ▸ hx) hne
    | edited r r' _ h' ht =>
      rw [← Option.some.inj (h'.symm.trans hx)]
      exact ht.pending
    | added r' _ h' hf =>
      rw [← Option.some.inj (h'.symm.trans hx)]
      exact hf.pending
  refine hi.same_phase rfl (fun _ hv => hv) he.grows ?_ ?_ ?_ ?_
  · intro _ k x hk hx
    cases he.row k with
    | same hs => exact ⟨x, hs ▸ hx, rfl, Follows.refl x⟩
    | edited r r' hr h' ht =>
      rw [← Option.some.inj (h'.symm.trans hx)]
      have hseq := ht.seq
      exact ⟨r, hr, ht.etag, ⟨by omega, fun heq => by omega, fun hd => absurd hd ht.standing⟩⟩
    | added r' hk' => omega
  · intro hp k x hx
    cases he.row k with
    | same hs => exact hi.quiet hp k x (hs ▸ hx)
    | edited r r' hr h' ht =>
      rw [← Option.some.inj (h'.symm.trans hx), ht.conflict]
      exact hi.quiet hp k r hr
    | added r' _ h' hf =>
      rw [← Option.some.inj (h'.symm.trans hx)]
      exact hf.conflict
  · rw [hlive]
    intro p hp
    rcases mem_append.mp hp with hp | hp
    · obtain ⟨hm, hsame⟩ := mem_filter.mp hp
      have hget : t'.get p.1 = s.tasks.get p.1 := of_decide_eq_true hsame
      rcases hi.live p hm with ho | ⟨r, hr, hpend, hf⟩
      · exact .inl ho
      · exact .inr ⟨r, hget.trans hr, hpend, hf⟩
    · obtain ⟨⟨k, x⟩, hx, rfl⟩ := mem_map.mp hp
      obtain ⟨hm, hne⟩ := mem_filter.mp hx
      have hget : t'.get k = some x := mem_rows.mp hm
      have hput := hchanged hget (of_decide_eq_true hne)
      refine .inr ⟨x, hget, ?_, rfl⟩
      rw [hput]
      exact Option.some_ne_none _
  · rw [hlive]
    intro k x hx hd p hp hpk
    rcases mem_append.mp hp with hp | hp
    · obtain ⟨hm, hsame⟩ := mem_filter.mp hp
      have hget : t'.get p.1 = s.tasks.get p.1 := of_decide_eq_true hsame
      rw [hpk] at hget
      exact hi.deleting k x (hget ▸ hx) hd p hm hpk
    · obtain ⟨⟨k', y⟩, hy, rfl⟩ := mem_map.mp hp
      obtain ⟨hm, hne⟩ := mem_filter.mp hy
      have hget : t'.get k' = some y := mem_rows.mp hm
      have hput := hchanged hget (of_decide_eq_true hne)
      have hk : k' = k := hpk
      subst hk
      rw [Option.some.inj (hx.symm.trans hget), hput] at hd
      cases hd

theorem LedgerInv.deleteTask (hi : LedgerInv C s h) (id : Nat) : LedgerInv C { s with tasks := deleteTask s.tasks id }
      (observe s (.deleteTask id : Action ρ) { s with tasks := deleteTask s.tasks id } h) := by
  have hrow : ∀ {k : Nat} {x : Row}, (Store.TaskLists.deleteTask s.tasks id).get k = some x →
      ∃ r, s.tasks.get k = some r ∧ (k = id ∧ r.remoteEtag.isSome ∧
        x = { r with pending := some .delete, syncSeq := r.syncSeq + 1 } ∨ k ≠ id ∧ x = r) := by
    intro k x hx
    obtain ⟨r, hr, ⟨hk, hdr⟩ | hother⟩ := get_alter_some hx
    · unfold deleteRow at hdr
      split at hdr
      · rename_i he
        cases hdr
        exact ⟨r, hr, .inl ⟨hk, he, rfl⟩⟩
      · cases hdr
    · exact ⟨r, hr, .inr hother⟩
  refine hi.same_phase rfl (fun _ hv => hv) (Nat.le_refl _) ?_ ?_ ?_ ?_
  · intro _ k x _ hx
    obtain ⟨r, hr, ⟨-, -, rfl⟩ | ⟨-, rfl⟩⟩ := hrow hx
    · exact ⟨r, hr, rfl, ⟨Nat.le_succ _, fun he => absurd he (Nat.ne_of_lt (Nat.lt_succ_self _)),
        fun _ => rfl⟩⟩
    · exact ⟨x, hr, rfl, Follows.refl x⟩
  · intro hp k x hx
    obtain ⟨r, hr, ⟨-, -, rfl⟩ | ⟨-, rfl⟩⟩ := hrow hx
    · exact hi.quiet hp k r hr
    · exact hi.quiet hp k x hr
  · refine hi.live_of (fun p hp => mem_of_mem_filter hp) (fun _ hv => hv) ?_
    intro p hp r hr hpend hf
    have hne : p.1 ≠ id := by simpa using of_mem_filter hp
    refine .inr ⟨r, ?_, hpend, hf⟩
    simp only [Store.TaskLists.deleteTask]
    rw [get_alter, if_neg hne, hr]
  · intro k x hx hd p hp
    have hne : p.1 ≠ id := by simpa using of_mem_filter hp
    obtain ⟨r, hr, ⟨rfl, -, rfl⟩ | ⟨-, rfl⟩⟩ := hrow hx
    · exact hne
    · exact hi.deleting k x hr hd p (mem_of_mem_filter hp)

/-! ### The sync -/

/-- Steps of the sync discard nothing, and those that write no row keep every edit where it is. -/
theorem LedgerInv.live_same (hi : LedgerInv C s h) (ht : t.tasks = s.tasks)
    (hv : ∀ v ∈ s.server.versions, v ∈ t.server.versions) : ∀ p ∈ h.live, OnServer C t p.2 ∨ Waiting t p.1 p.2 :=
  hi.live_of (fun _ hp => hp) hv fun _ _ r hr hpend hf => .inr ⟨r, by rw [ht, hr], hpend, hf⟩

theorem LedgerInv.startSync (hi : LedgerInv C s h) (now : Int) : LedgerInv C { s with phase := startSync s.tasks now }
      (observe s (.startSync now : Action ρ) { s with phase := startSync s.tasks now } h) := by
  have hlive := hi.live_same (t := { s with phase := TaskSync.startSync s.tasks now }) rfl fun _ hv => hv
  by_cases hb : blocked s.tasks = true
  · exact hi.leave (by simp [TaskSync.startSync, hb, Phase.inPush]) (Nat.le_refl _) hlive hi.deleting
  · have hstart : TaskSync.startSync s.tasks now = .pushing ⟨now, queue s.tasks, {}⟩ := by
      simp [TaskSync.startSync, hb]
    rw [hstart] at hlive ⊢
    have hrow : ∀ q ∈ queue s.tasks, s.tasks.get q.1 = some q.2 :=
      fun q hq => mem_rows.mp (mem_of_mem_filter hq)
    exact {
      recorded := recorded_observe
      accepted := by
        have hnil := acceptedBy_nil (s := s) (h := h)
          (t := { s with phase := .pushing ⟨now, queue s.tasks, {}⟩ }) (by intro p r w; simp)
        simp only [observe, hnil, append_nil]
        exact hi.accepted
      live := hlive
      deleting := hi.deleting
      quiet := by
        intro _ k r hr
        simp only [blocked, any_eq_true, not_exists, not_and] at hb
        have := hb (k, r) (mem_rows.mpr hr)
        simpa using this
      distinct := s.tasks.keyed.filter _
      known := fun q hq => get_lt (hrow q hq)
      etags := fun q hq => recorded_observe _ _ (hrow q hq)
      follows := fun q hq r hr => by
        rw [Option.some.inj (hr.symm.trans (hrow q hq))]
        exact Follows.refl _
      made := fun r hr => by cases hr
      stored := fun _ _ _ _ he => by cases he }

/-- A turn of the loop that writes no row: what stays queued was queued. -/
theorem LedgerInv.turn_same (hi : LedgerInv C s h) (hin : s.phase.inPush) {ph : Phase}
    (hsub : ph.queued.Sublist s.phase.queued) (hserved : ∀ p r w, ph ≠ .served p r w)
    (hmade : ∀ r, ph.sent = some r → Made C r) (uid : Str) : LedgerInv C { s with phase := ph }
      (observe s (.pushNext uid : Action ρ) { s with phase := ph } h) :=
  hi.next (by simp [acceptedBy_nil (t := { s with phase := ph }) hserved]) hsub (Nat.le_refl _)
    (fun _ _ x hx => ⟨x, hx, rfl, Follows.refl x⟩) (fun _ => hi.quiet hin) hmade
    (fun p r e _ hp => absurd hp (hserved p r _)) (hi.live_same rfl fun _ hv => hv) hi.deleting

theorem LedgerInv.turn (hi : LedgerInv C s h) {p : Push} (hp : s.phase = .pushing p) {uid : Str}
    {t' : Tasks} {ph : Phase} (hturn : Turn C s.tasks p uid (t', ph)) : LedgerInv C { s with tasks := t', phase := ph }
      (observe s (.pushNext uid : Action ρ) { s with tasks := t', phase := ph } h) := by
  have hin : s.phase.inPush := by rw [hp]; rfl
  have hqueued : s.phase.queued = p.queue := by rw [hp]; rfl
  cases hturn with
  | finished hq => exact hi.leave rfl (Nat.le_refl _) (hi.live_same rfl fun _ hv => hv) hi.deleting
  | failed => exact hi.leave rfl (Nat.le_refl _) (hi.live_same rfl fun _ hv => hv) hi.deleting
  | deletes id task rest etag hq hd he hh =>
    refine hi.turn_same hin ?_ (by simp) ?_ uid
    · rw [hqueued, hq]
      exact List.Sublist.refl _
    · rintro r ⟨⟩
      exact ⟨hd, he⟩
  | skipped id task rest hq hd =>
    refine hi.turn_same hin ?_ (by simp) ?_ uid
    · rw [hqueued, hq]
      exact sublist_cons_self _ _
    · rintro r ⟨⟩
  | patches id task rest ics hq hd hh hics =>
    refine hi.turn_same hin ?_ (by simp) ?_ uid
    · rw [hqueued, hq]
      exact List.Sublist.refl _
    · rintro r ⟨⟩
      exact .inr ⟨_, _, hics⟩
  | dropped id task rest hq hd hu =>
    have hmem : (id, task) ∈ s.phase.queued := by
      rw [hqueued, hq]
      exact mem_cons_self
    have hget : ∀ {k : Nat} {x : Row}, (s.tasks.remove id).get k = some x → s.tasks.get k = some x :=
      fun hx => (get_remove_some hx).2
    refine hi.next (by simp [acceptedBy]) ?_ (Nat.le_refl _) ?_ ?_ (by simp [Phase.sent]) (by simp) ?_ ?_
    · rw [hqueued, hq]
      exact sublist_cons_self _ _
    · exact fun _ _ x hx => ⟨x, hget hx, rfl, Follows.refl x⟩
    · exact fun _ k r hr => hi.quiet hin k r (hget hr)
    · refine hi.live_of (fun _ hm => hm) (fun _ hv => hv) ?_
      intro e he r hr hpend hf
      -- the row that goes was waiting to be deleted: no edit of it is live
      have hne : e.1 ≠ id := by
        intro hid
        rw [hid] at hr
        exact hi.deleting id r hr ((hi.follows _ hmem r hr).delete hd) e he hid
      exact .inr ⟨r, by rw [get_remove, if_neg hne, hr], hpend, hf⟩
    · exact fun k r hr => hi.deleting k r (hget hr)
  | creates id task rest href hq hd hh =>
    have hget : ∀ {k : Nat} {x : Row}, (s.tasks.modify id (fun r => { r with
          remoteHref := href, remoteIcs := C.newObject task.fields uid p.now })).get k = some x →
        ∃ r, s.tasks.get k = some r ∧ x.remoteEtag = r.remoteEtag ∧ Follows r x ∧
          x.conflict = r.conflict ∧ x.pending = r.pending := by
      intro k x hx
      obtain ⟨r, hr, ⟨-, rfl⟩ | ⟨-, rfl⟩⟩ := get_modify_some hx
      · exact ⟨r, hr, rfl, ⟨Nat.le_refl _, fun _ => rfl, fun h => h⟩, rfl, rfl⟩
      · exact ⟨x, hr, rfl, Follows.refl x, rfl, rfl⟩
    refine hi.next (by simp [acceptedBy]) ?_ (Nat.le_refl _) ?_ ?_ ?_ (by simp) ?_ ?_
    · rw [hqueued, hq]
      exact List.Sublist.refl _
    · intro q _ x hx
      obtain ⟨r, hr, he, hf, -⟩ := hget hx
      exact ⟨r, hr, he, hf⟩
    · intro _ k x hx
      obtain ⟨r, hr, -, -, hc, -⟩ := hget hx
      rw [hc]
      exact hi.quiet hin k r hr
    · rintro r ⟨⟩
      exact .inl ⟨_, _, rfl⟩
    · refine hi.live_of (fun _ hm => hm) (fun _ hv => hv) ?_
      intro e he r hr hpend hf
      refine .inr ⟨_, get_modify_of hr, ?_⟩
      split <;> exact ⟨hpend, hf⟩
    · intro k x hx hdel
      obtain ⟨r, hr, -, -, -, hpend⟩ := hget hx
      exact hi.deleting k r hr (hpend ▸ hdel)

theorem Served.versions {srv : Server} {r : Sent} {w : Written × Server} (hs : Served srv r w) :
    ∀ v ∈ srv.versions, v ∈ w.2.versions := by
  intro v hv
  cases hs with
  | stores => exact mem_append_left _ hv
  | drops => exact hv
  | gone => exact hv
  | refused => exact hv

theorem LedgerInv.serve (hi : LedgerInv C s h) {p : Push} {r : Sent} (hp : s.phase = .sending p r)
    {w : Written} {srv : Server} (hs : Served s.server r (w, srv)) (tell gone : Bool) :
    LedgerInv C { s with server := srv, phase := .served p r w }
      (observe s (.serve tell gone : Action ρ) { s with server := srv, phase := .served p r w } h) := by
  have hin : s.phase.inPush := by rw [hp]; rfl
  have hqueued : s.phase.queued = (r.id, r.task) :: p.queue := by rw [hp]; rfl
  have hrec : h.recorded r.id = r.task.remoteEtag :=
    hi.etags (r.id, r.task) (hqueued ▸ mem_cons_self)
  have hmade : Made C r := hi.made r (by rw [hp]; rfl)
  refine hi.next ?_ ?_ (Nat.le_refl _) (fun _ _ x hx => ⟨x, hx, rfl, Follows.refl x⟩)
    (fun _ => hi.quiet hin) ?_ ?_ (hi.live_same rfl hs.versions) hi.deleting
  · intro x hx
    simp only [acceptedBy, hp] at hx
    cases hs with
    | stores ics etag hr hm =>
      simp only [hr, mem_singleton] at hx
      rw [hx, hrec]
      exact hm
    | drops o hr ho =>
      simp only [hr, ho, mem_singleton] at hx
      rw [hx, hrec]
      unfold Made at hmade
      rw [hr] at hmade
      exact hmade.2.symm
    | gone etag hr ho => simp [hr, ho] at hx
    | refused => cases hx
  · rw [hqueued]
    exact List.Sublist.refl _
  · rintro x ⟨⟩
    exact hmade
  · rintro p' r' e ics he hr'
    cases he
    cases hs with
    | stores ics' etag hr hm =>
      rw [hr] at hr'
      cases hr'
      exact ⟨_, mem_append_right _ (mem_singleton_self _), rfl⟩
    | drops o hr ho =>
      rw [hr] at hr'
      cases hr'
    | gone etag hr ho =>
      rw [hr] at hr'
      cases hr'

theorem LedgerInv.answer (hi : LedgerInv C s h) {p : Push} {r : Sent} {w : Written}
    (hp : s.phase = .served p r w) {t' : Tasks} {ph : Phase} (ha : takeAnswer s.tasks p r w = (t', ph)) :
    LedgerInv C { s with tasks := t', phase := ph }
      (observe s (.answer : Action ρ) { s with tasks := t', phase := ph } h) := by
  have hin : s.phase.inPush := by rw [hp]; rfl
  have hqueued : s.phase.queued = (r.id, r.task) :: p.queue := by rw [hp]; rfl
  have hmem : (r.id, r.task) ∈ s.phase.queued := hqueued ▸ mem_cons_self
  have hother : ∀ q ∈ p.queue, q.1 ≠ r.id := by
    have hd := hi.distinct
    rw [hqueued, map_cons, nodup_cons] at hd
    exact fun q hq he => hd.1 (mem_map.mpr ⟨q, hq, he⟩)
  unfold takeAnswer at ha
  split at ha
  · rename_i etag ics hr
    cases ha
    have hget : ∀ {k : Nat} {x : Row}, (s.tasks.modify r.id (savedRow r.task.syncSeq etag ics)).get k = some x →
        ∃ y, s.tasks.get k = some y ∧ x.conflict = y.conflict ∧ (k ≠ r.id → x = y) ∧
          (x.pending = some .delete → y.pending = some .delete) := by
      intro k x hx
      obtain ⟨y, hy, ⟨hk, rfl⟩ | ⟨-, rfl⟩⟩ := get_modify_some hx
      · refine ⟨y, hy, rfl, fun hne => absurd hk hne, fun hd => ?_⟩
        simp only [savedRow] at hd
        split at hd
        · cases hd
        · exact hd
      · exact ⟨x, hy, rfl, fun _ => rfl, fun hd => hd⟩
    refine hi.next (by simp [acceptedBy, hp]) ?_ (Nat.le_refl _) ?_ ?_ (by simp [Phase.sent]) (by simp) ?_ ?_
    · rw [hqueued]
      exact sublist_cons_self _ _
    · intro q hq x hx
      obtain ⟨y, hy, -, he, -⟩ := hget hx
      rw [he (hother q hq)]
      exact ⟨y, hy, rfl, Follows.refl y⟩
    · intro _ k x hx
      obtain ⟨y, hy, hc, -⟩ := hget hx
      rw [hc]
      exact hi.quiet hin k y hy
    · refine hi.live_of (fun _ hm => hm) (fun _ hv => hv) ?_
      intro e he y hy hpend hf
      by_cases hid : e.1 = r.id
      · rw [hid] at hy
        by_cases hseq : y.syncSeq = r.task.syncSeq
        · -- nothing was written here since: what was saved is what the row says
          left
          obtain ⟨v, hv, hics⟩ := hi.stored p r etag ics hp hr
          have hcar : Carries C r.task.fields ics := by
            have := hi.made r (by rw [hp]; rfl)
            unfold Made at this
            rw [hr] at this
            exact this
          refine ⟨v, hv, ?_⟩
          rw [hics, ← hf, (hi.follows _ hmem y hy).fields hseq.symm]
          exact hcar
        · refine .inr ⟨savedRow r.task.syncSeq etag ics y, ?_, ?_, hf⟩
          · rw [hid, get_modify_of hy, if_pos rfl]
          · simp only [savedRow, if_neg hseq]
            exact hpend
      · exact .inr ⟨y, by rw [get_modify_of hy, if_neg hid], hpend, hf⟩
    · intro k x hx hd
      obtain ⟨y, hy, -, -, hdel⟩ := hget hx
      exact hi.deleting k y hy (hdel hd)
  · rename_i etag hr
    cases ha
    have hget : ∀ {k : Nat} {x : Row}, (s.tasks.alter r.id (fun row =>
        if row.pending = some .delete then none else some row)).get k = some x →
        s.tasks.get k = some x := by
      intro k x hx
      obtain ⟨y, hy, ⟨-, hx⟩ | ⟨-, rfl⟩⟩ := get_alter_some hx
      · split at hx <;> cases hx
        exact hy
      · exact hy
    refine hi.next (by simp [acceptedBy, hp]) ?_ (Nat.le_refl _) ?_ ?_ (by simp [Phase.sent]) (by simp) ?_ ?_
    · rw [hqueued]
      exact sublist_cons_self _ _
    · exact fun _ _ x hx => ⟨x, hget hx, rfl, Follows.refl x⟩
    · exact fun _ k x hx => hi.quiet hin k x (hget hx)
    · refine hi.live_of (fun _ hm => hm) (fun _ hv => hv) ?_
      intro e he y hy hpend hf
      have hstay : ¬ (e.1 = r.id ∧ y.pending = some .delete) :=
        fun ⟨hid, hd⟩ => hi.deleting r.id y (hid ▸ hy) hd e he hid
      refine .inr ⟨y, ?_, hpend, hf⟩
      rw [get_alter]
      split
      · rename_i hid
        have hd : ¬ y.pending = some .delete := fun hd => hstay ⟨hid, hd⟩
        rw [← hid, hy]
        simp [hd]
      · exact hy
    · exact fun k x hx => hi.deleting k x (hget hx)
  · cases ha
    refine hi.leave rfl (Nat.le_refl _) ?_ ?_
    · refine hi.live_of (fun _ hm => hm) (fun _ hv => hv) ?_
      intro e he y hy hpend hf
      refine .inr ⟨_, get_modify_of hy, ?_⟩
      split <;> exact ⟨hpend, hf⟩
    · intro k x hx hd
      obtain ⟨y, hy, ⟨-, rfl⟩ | ⟨-, rfl⟩⟩ := get_modify_some hx
      · exact hi.deleting k y hy hd
      · exact hi.deleting k x hy hd

theorem LedgerInv.reconcile (hi : LedgerInv C s h) {objects : List Fetched} {report : Report}
    {t' : Tasks} {ph : Phase} (hr : reconcile C s.tasks objects report = (t', ph)) :
    LedgerInv C { s with tasks := t', phase := ph }
      (observe s (.reconcile : Action ρ) { s with tasks := t', phase := ph } h) := by
  obtain ⟨rfl, rfl⟩ | ⟨report', rfl, -, hspec⟩ := reconcile_spec hr
  · exact hi.leave rfl (Nat.le_refl _) (hi.live_same rfl fun _ hv => hv) hi.deleting
  · refine hi.leave rfl hspec.grows ?_ ?_
    · refine hi.live_of (fun _ hm => hm) (fun _ hv => hv) ?_
      intro e he y hy hpend hf
      have hrow := hspec.old e.1 y hy
      right
      unfold Waiting
      show ∃ r, t'.get e.1 = some r ∧ r.pending ≠ none ∧ r.fields = e.2
      generalize t'.get e.1 = o at hrow ⊢
      cases hrow with
      | kept x hx =>
        refine ⟨x, rfl, ?_, ?_⟩
        · rw [hx.held hpend]
          exact hpend
        · rw [hx.held hpend]
          exact hf
      | gone hput hs =>
        -- a row that goes is waiting for nothing but its own deletion
        have hd : y.pending = some .delete := by
          cases hq : y.pending with
          | none => exact absurd hq hpend
          | some q =>
            cases q with
            | put => exact absurd hq hput
            | delete => rfl
        exact absurd rfl (hi.deleting e.1 y hy hd e he)
    · intro k x hx hd
      by_cases hk : k < s.tasks.nextId
      · cases hy : s.tasks.get k with
        | none =>
          have hx' := hspec.absent k hk hy
          rw [hx'] at hx
          cases hx
        | some y =>
          have hrow := hspec.old k y hy
          rw [show t'.get k = some x from hx] at hrow
          cases hrow with
          | kept _ hkept =>
            refine hi.deleting k y hy ?_
            by_cases hn : y.pending = none
            · rw [hkept.clear hn] at hd
              cases hd
            · rw [hkept.held hn] at hd
              exact hd
      · have hnew := (hspec.new k x (by omega) hx).1
        rw [hnew] at hd
        cases hd

/-! ### `resolve_conflict` -/

theorem mem_liveAfter_resolve {i : Nat} {p : Nat × Fields} {live : List (Nat × Fields)}
    (hp : p ∈ liveAfter s (.resolveFinish i : Action ρ) t live) : p ∈ live := by
  simp only [liveAfter] at hp
  split at hp
  · split at hp
    · exact mem_of_mem_filter hp
    · exact hp
  · exact hp

theorem LedgerInv.resolveFinish (hi : LedgerInv C s h) {i : Nat} {r : Resolve}
    {current : Option (Str × Option Nat)} (hr : s.resolving[i]? = some r) (hok : Unsettled s (.resolveFinish i : Action ρ)) :
    LedgerInv C
      { s with tasks := resolveFinish C s.tasks r current, resolving := s.resolving.eraseIdx i }
      (observe s (.resolveFinish i : Action ρ)
        { s with tasks := resolveFinish C s.tasks r current, resolving := s.resolving.eraseIdx i }
        h) := by
  have hopen := hok r hr
  have hother : ∀ {k : Nat}, k ≠ r.id →
      (TaskSync.resolveFinish C s.tasks r current).get k = s.tasks.get k := by
    intro k hk
    unfold TaskSync.resolveFinish
    rw [get_alter, if_neg hk]
  have hself : (TaskSync.resolveFinish C s.tasks r current).get r.id =
      (s.tasks.get r.id).bind (settle C r current) := by
    unfold TaskSync.resolveFinish
    rw [get_alter, if_pos rfl]
  -- `push` does not run while the row is in conflict
  have hpush : s.phase.inPush → ∀ k, (TaskSync.resolveFinish C s.tasks r current).get k = s.tasks.get k := by
    intro hin k
    by_cases hk : k = r.id
    · subst hk
      cases hrow : s.tasks.get r.id with
      | none => rw [hself, hrow]; rfl
      | some row => exact absurd (hi.quiet hin r.id row hrow) (hopen row hrow).1
    · exact hother hk
  refine hi.same_phase rfl (fun _ hv => hv) (Nat.le_refl _) ?_ ?_ ?_ ?_
  · intro hin k x _ hx
    exact ⟨x, (hpush hin k).symm.trans hx, rfl, Follows.refl x⟩
  · intro hin k x hx
    exact hi.quiet hin k x ((hpush hin k).symm.trans hx)
  · refine hi.live_of (fun _ hm => mem_liveAfter_resolve hm) (fun _ hv => hv) ?_
    intro p hp row hrow hpend hf
    by_cases hk : p.1 = r.id
    · have hm := mem_liveAfter_resolve hp
      rw [hk] at hrow
      simp only [liveAfter, hr] at hp
      have hgot : ∀ {y : Row}, settle C r current row = some y →
          (TaskSync.resolveFinish C s.tasks r current).get p.1 = some y := by
        intro y hy
        rw [hk, hself, hrow]
        exact hy
      right
      -- a live edit of this row is not under a choice of the server's copy that changed it
      split at hp
      · have := of_mem_filter hp
        simp [hk] at this
      · rename_i hkeep
        cases hmine : r.keep with
        | server =>
          have hsame : (TaskSync.resolveFinish C s.tasks r current).get r.id = s.tasks.get r.id := by
            by_contra hne
            exact hkeep ⟨hmine, hne⟩
          exact ⟨row, by rw [hk]; exact hsame.trans hrow, hpend, hf⟩
        | mine =>
          cases current with
          | some c =>
            obtain ⟨ics, etag⟩ := c
            have hset : settle C r (some (ics, etag)) row = some { row with
                remoteIcs := ics, remoteEtag := etag, conflict := none,
                pending := row.pending, syncSeq := row.syncSeq + 1 } := by
              simp [settle, hmine, hpend]
            exact ⟨_, hgot hset, hpend, hf⟩
          | none =>
            by_cases hd : r.pending = some .delete
            · exact absurd hk (hi.deleting r.id row hrow ((hopen row hrow).2 hd) p hm)
            · have hset : settle C r none row = some { row with
                  remoteEtag := none, conflict := none, pending := some .put,
                  syncSeq := row.syncSeq + 1 } := by
                simp [settle, hmine, hd]
              exact ⟨_, hgot hset, Option.some_ne_none _, hf⟩
    · exact .inr ⟨row, (hother hk).trans hrow, hpend, hf⟩
  · intro k x hx hd p hp
    have hm := mem_liveAfter_resolve hp
    by_cases hk : k = r.id
    · subst hk
      have hx' : (s.tasks.get r.id).bind (settle C r current) = some x := hself.symm.trans hx
      obtain ⟨row, hrow, hset⟩ := Option.bind_eq_some_iff.mp hx'
      refine hi.deleting r.id row hrow ?_ p hm
      unfold settle at hset
      split at hset
      · split at hset
        · cases hset
          cases hd
        · cases hset
          exact hd
      · cases hset
      · cases hset
        simp only at hd
        split at hd
        · cases hd
        · exact hd
      · split at hset
        · cases hset
        · cases hset
          cases hd
    · exact hi.deleting k x ((hother hk).symm.trans hx) hd p hm

/-! ### Every step -/

theorem LedgerInv.quiet_step (hi : LedgerInv C s h) (ht : t.tasks = s.tasks) (hph : t.phase = s.phase)
    (hv : ∀ v ∈ s.server.versions, v ∈ t.server.versions)
    (hlive : liveAfter s a t h.live = h.live) : LedgerInv C t (observe s a t h) := by
  refine hi.same_phase hph hv (by rw [ht]) ?_ ?_ ?_ ?_
  · intro _ k x _ hx
    rw [ht] at hx
    exact ⟨x, hx, rfl, Follows.refl x⟩
  · intro hin
    rw [ht]
    exact hi.quiet hin
  · rw [hlive]
    exact hi.live_same ht hv
  · rw [hlive, ht]
    exact hi.deleting

theorem LedgerInv.step (hi : LedgerInv C s h) (hok : Unsettled s a) (hs : step C R s a = some t) :
    LedgerInv C t (observe s a t h) := by
  cases a with
  | create f | update id readAt f | setCompleted id completed stop now =>
    unfold TaskSync.step at hs
    obtain ⟨t', ht', rfl⟩ := Option.map_eq_some_iff.mp hs
    exact hi.edit (editTasks_local ht') rfl
  | deleteTask id =>
    cases hs
    exact hi.deleteTask id
  | remotePut href ics =>
    cases hs
    exact hi.quiet_step rfl rfl (fun _ hv => mem_append_left _ hv) rfl
  | remoteDelete href =>
    cases hs
    exact hi.quiet_step rfl rfl (fun _ hv => hv) rfl
  | resolveStart id keep =>
    unfold TaskSync.step resolveStep at hs
    obtain ⟨r, -, rfl⟩ := Option.map_eq_some_iff.mp hs
    exact hi.quiet_step rfl rfl (fun _ hv => hv) rfl
  | resolveGet i tell =>
    simp only [TaskSync.step, resolveStep] at hs
    split at hs
    · cases hs
      exact hi.quiet_step rfl rfl (fun _ hv => hv) rfl
    · cases hs
  | resolveFail i =>
    cases hs
    exact hi.quiet_step rfl rfl (fun _ hv => hv) rfl
  | resolveFinish i =>
    simp only [TaskSync.step, resolveStep] at hs
    split at hs
    · rename_i r hr
      split at hs
      · cases hs
        exact hi.resolveFinish hr hok
      · cases hs
    · cases hs
  | startSync now =>
    simp only [TaskSync.step, syncStep] at hs
    split at hs
    · cases hs
      exact hi.startSync now
    · cases hs
  | pushNext uid =>
    simp only [TaskSync.step, syncStep] at hs
    split at hs
    · rename_i p hp
      cases hs
      exact hi.turn hp (pushNext_turn C s.tasks p uid)
    · cases hs
  | serve tell gone =>
    simp only [TaskSync.step, syncStep] at hs
    split at hs
    · rename_i p r hp
      cases hs
      exact hi.serve hp (serve_served s.server r tell gone) tell gone
    · cases hs
  | answer =>
    simp only [TaskSync.step, syncStep] at hs
    split at hs
    · rename_i p r w hp
      cases hs
      exact hi.answer hp rfl
    · cases hs
  | lose =>
    cases hs
    exact hi.leave rfl (Nat.le_refl _) (hi.live_same rfl fun _ hv => hv) hi.deleting
  | fetch hidden =>
    simp only [TaskSync.step, syncStep] at hs
    split at hs
    · cases hs
      exact hi.leave rfl (Nat.le_refl _) (hi.live_same rfl fun _ hv => hv) hi.deleting
    · cases hs
  | reconcile =>
    simp only [TaskSync.step, syncStep] at hs
    split at hs
    · cases hs
      exact hi.reconcile rfl
    · cases hs

end Inv

/-- **No lost update and no lost edit**, in every state reached by a run in which no call of
`resolve_conflict` ends on a conflict that another one settled. -/
theorem no_lost_update (C : Codec) (R : Recurrences ρ) (server : Server) (as : List (Action ρ)) (x : State × Ledger)
    (hok : AllSteps (ledgerStep C R) (fun y a => Unsettled y.1 a) (State.init server, Ledger.empty) as)
    (hrun : run (ledgerStep C R) (State.init server, Ledger.empty) as = some x) : Safe C x := by
  have hstep : ∀ (y : State × Ledger) (a : Action ρ) (z : State × Ledger), LedgerInv C y.1 y.2 →
      Unsettled y.1 a → ledgerStep C R y a = some z → LedgerInv C z.1 z.2 := by
    intro y a z hi hk hs
    obtain ⟨hz, hobs⟩ := watched_some hs
    rw [hobs]
    exact hi.step hk hz
  exact (run_invariant hstep (LedgerInv.init server) hok hrun).safe

/-- The refused deletion is kept and sent again; a task made meanwhile is edited while it is being
sent, and its answer is lost. -/
def settledRun : List (Action Unit) :=
  refusedDelete ++
    [.resolveStart 0 .mine, .resolveGet 0 true, .create (titled "bread"), .resolveFinish 0,
      .startSync 2, .pushNext [], .serve true true, .answer, .pushNext "/b.ics",
      .serve true true, .update 1 1 (titled "rye bread"), .lose, .startSync 3, .pushNext [],
      .serve true true, .answer, .fetch [], .reconcile]

theorem settledRun_safe : (run (ledgerStep titleCodec noRules) (State.init Server.empty, Ledger.empty) settledRun).isSome ∧
      ∀ x, run (ledgerStep titleCodec noRules) (State.init Server.empty, Ledger.empty) settledRun =
        some x → Safe titleCodec x :=
  ⟨by decide +kernel,
    fun x => no_lost_update titleCodec noRules Server.empty settledRun x (by decide +kernel)⟩

end Oreneta.TaskSync

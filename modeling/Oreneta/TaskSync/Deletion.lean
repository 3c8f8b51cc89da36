import Oreneta.TaskSync.NoLostUpdate

/-!
# A deletion is not undone by a sync

The runs here have one client: edits, deletions and syncs, with answers lost, answers without an
`ETag` and failed reads.  An observer writes down where each task was written, which tasks were
deleted, and for which of these a sync begun later came to its end without reporting a conflict that
the task is in or waits behind.

* `Buried` — nothing stands any more where such a task was ever written, and no row stands for it.
* `deletion_undone` — the run on which the code breaks it: an empty `remote_etag` is taken for a task
  never sent, but a task whose answer was lost has none either; deleting it drops the row, and the
  next sync reads the object back in.
* `deletion_kept` — in every run in which a row without an `ETag` is dropped only when nothing stands
  at its place and nothing is on its way there, the deletions stay buried in every state reached.
-/

namespace Oreneta.TaskSync

open Store.TaskLists Runs AutoTable List Option

variable {ρ : Type}

/-! ## The observer -/

structure Deeds where
  /-- Where each task was written. -/
  wrote : List (Nat × Str)
  deleted : List Nat
  /-- The deletions made before the sync that is running began. -/
  begun : List Nat
  /-- The deletions a sync has come to its end for. -/
  cleared : List Nat

def Deeds.empty : Deeds := ⟨[], [], [], []⟩

/-- Whether a sync's report leaves the task waiting: it is in conflict, or it waits in a queue that
stopped on one. -/
def conflictFor (t : State) (report : Report) (id : Nat) : Bool :=
  match t.tasks.get id with
  | some r => r.conflict.isSome || report.stopped
  | none => false

/-- Where a step gets a task written. -/
def wroteBy (s t : State) : List (Nat × Str) :=
  match s.phase, t.phase with
  | .sending _ r, .served _ _ (.saved _) =>
    match r.request with
    | .put _ => [(r.id, r.href)]
    | .delete _ => []
  | _, _ => []

def noteDeed (s : State) (a : Action ρ) (t : State) (h : Deeds) : Deeds :=
  match a with
  | .deleteTask id => if (s.tasks.get id).isSome then { h with deleted := h.deleted ++ [id] } else h
  | .startSync _ => { h with begun := h.deleted }
  | .serve .. => { h with wrote := h.wrote ++ wroteBy s t }
  | .reconcile =>
    match t.phase with
    | .idle (some report) =>
      { h with cleared := h.cleared ++ h.begun.filter (fun d => !conflictFor t report d) }
    | _ => h
  | _ => h

/-- The system with its observer. -/
def deedStep (C : Codec) (R : Recurrences ρ) : State × Deeds → Action ρ → Option (State × Deeds) :=
  watched (step C R) noteDeed

/-- **The deletions that went through stay**: neither the server nor a row holds what the client
wrote. -/
def Buried (x : State × Deeds) : Prop :=
  ∀ d ∈ x.2.cleared, ∀ w ∈ x.2.wrote, w.1 = d →
    x.1.server.find w.2 = none ∧ ∀ p ∈ x.1.tasks.rows, p.2.remoteHref ≠ w.2

instance (x : State × Deeds) : Decidable (Buried x) :=
  inferInstanceAs (Decidable (∀ d ∈ x.2.cleared, ∀ w ∈ x.2.wrote, w.1 = d →
    x.1.server.find w.2 = none ∧ ∀ p ∈ x.1.tasks.rows, p.2.remoteHref ≠ w.2))

/-! ## Where the code breaks it -/

/-- A task is made and sent, its answer is lost, and it is deleted; the next sync completes. -/
def lostAnswer : List (Action Unit) :=
  [.create (titled "bread"), .startSync 0, .pushNext "/b.ics", .serve true true, .lose,
    .deleteTask 0, .startSync 1, .pushNext [], .fetch [], .reconcile]

/-- **A deletion is undone**: the object is still on the server after a sync that reports nothing,
and a row stands for it again. -/
theorem deletion_undone : ∃ x, run (deedStep titleCodec noRules) (State.init Server.empty, Deeds.empty) lostAnswer = some x ∧
      ¬ Buried x := by
  have hend : (run (deedStep titleCodec noRules) (State.init Server.empty, Deeds.empty)
      lostAnswer).any (fun x => ¬ Buried x) = true := by
    decide +kernel
  obtain ⟨x, hx, hnot⟩ := (Option.any_eq_true _ _).mp hend
  exact ⟨x, hx, of_decide_eq_true hnot⟩

/-! ## When a deletion stays -/

/-- The runs meant: one client, and no conflict settled by hand. -/
def OneClient : Action ρ → Prop
  | .remotePut .. | .remoteDelete _ | .resolveStart .. | .resolveGet .. | .resolveFail _
  | .resolveFinish _ => False
  | _ => True

instance OneClient.decidable : ∀ a : Action ρ, Decidable (OneClient a)
  | .remotePut .. | .remoteDelete _ | .resolveStart .. | .resolveGet .. | .resolveFail _
  | .resolveFinish _ => isFalse id
  | .startSync _ | .pushNext _ | .serve .. | .answer | .lose | .fetch _ | .reconcile | .create _
  | .update .. | .setCompleted .. | .deleteTask _ => isTrue trivial

/-- An address never used before. -/
def FreshHref (s : State) (href : Str) : Prop :=
  href ≠ [] ∧ (∀ v ∈ s.server.versions, v.href ≠ href) ∧ ∀ p ∈ s.tasks.rows, p.2.remoteHref ≠ href

instance FreshHref.decidable (s : State) (href : Str) : Decidable (FreshHref s href) :=
  inferInstanceAs (Decidable (href ≠ [] ∧ (∀ v ∈ s.server.versions, v.href ≠ href) ∧
    ∀ p ∈ s.tasks.rows, p.2.remoteHref ≠ href))

/-- What is assumed of `uuid::Uuid::new_v4`: the address made of it is new. -/
def FreshUid (C : Codec) (s : State) : Action ρ → Prop
  | .pushNext uid => ∀ href ∈ C.newHref uid, FreshHref s href
  | _ => True

instance FreshUid.decidable (C : Codec) (s : State) : ∀ a : Action ρ, Decidable (FreshUid C s a)
  | .pushNext uid => inferInstanceAs (Decidable (∀ href ∈ C.newHref uid, FreshHref s href))
  | .remotePut .. | .remoteDelete _ | .resolveStart .. | .resolveGet .. | .resolveFail _
  | .resolveFinish _ | .startSync _ | .serve .. | .answer | .lose | .fetch _ | .reconcile | .create _
  | .update .. | .setCompleted .. | .deleteTask _ => isTrue trivial

/-- The condition on a step: a row whose version on the server is not known is dropped only when
nothing stands at its place and nothing of it is queued or on its way. -/
def DropsUnsent (s : State) : Action ρ → Prop
  | .deleteTask id =>
    ∀ row ∈ s.tasks.get id, row.remoteEtag = none →
      (row.remoteHref ≠ [] → s.server.find row.remoteHref = none) ∧ id ∉ s.phase.queued.map Prod.fst
  | .pushNext _ =>
    ∀ q ∈ s.phase.queued.head?, q.2.pending = some .delete → q.2.remoteEtag = none →
      q.2.remoteHref ≠ [] → s.server.find q.2.remoteHref = none
  | _ => True

instance DropsUnsent.decidable (s : State) : ∀ a : Action ρ, Decidable (DropsUnsent s a)
  | .deleteTask id => inferInstanceAs (Decidable (∀ row ∈ s.tasks.get id, row.remoteEtag = none →
      (row.remoteHref ≠ [] → s.server.find row.remoteHref = none) ∧
        id ∉ s.phase.queued.map Prod.fst))
  | .pushNext _ => inferInstanceAs (Decidable (∀ q ∈ s.phase.queued.head?,
      q.2.pending = some .delete → q.2.remoteEtag = none → q.2.remoteHref ≠ [] →
        s.server.find q.2.remoteHref = none))
  | .remotePut .. | .remoteDelete _ | .resolveStart .. | .resolveGet .. | .resolveFail _
  | .resolveFinish _ | .startSync _ | .serve .. | .answer | .lose | .fetch _ | .reconcile | .create _
  | .update .. | .setCompleted .. => isTrue trivial

/-- The changes still to be sent, without the one on its way. -/
def Phase.waiting : Phase → List (Nat × Row)
  | .pushing p | .sending p _ | .served p _ _ => p.queue
  | _ => []

/-- Rows have places of their own, and a task is only ever written to its row's. -/
structure Places (s : State) (wrote : List (Nat × Str)) : Prop where
  own : ∀ k k' r r', s.tasks.get k = some r → s.tasks.get k' = some r' → r.remoteHref ≠ [] →
    r.remoteHref = r'.remoteHref → k = k'
  id : ∀ w ∈ wrote, w.1 < s.tasks.nextId
  named : ∀ w ∈ wrote, w.2 ≠ []
  version : ∀ w ∈ wrote, ∃ v ∈ s.server.versions, v.href = w.2
  row : ∀ w ∈ wrote, ∀ r, s.tasks.get w.1 = some r → r.remoteHref = w.2
  /-- Once the row is gone, nothing stands at its place. -/
  gone : ∀ w ∈ wrote, s.tasks.get w.1 = none →
    s.server.find w.2 = none ∧ ∀ k r, s.tasks.get k = some r → r.remoteHref ≠ w.2

/-- A row since the queue read it as `q`. -/
structure Tracks (q r : Row) : Prop where
  seq : q.syncSeq ≤ r.syncSeq
  same : q.syncSeq = r.syncSeq → r.pending = q.pending
  delete : q.pending = some .delete → r.pending = some .delete

/-- A request deletes exactly what was read as deleted. -/
def Sent.Fits (r : Sent) : Prop :=
  match r.request with
  | .put _ => r.task.pending ≠ some .delete
  | .delete _ => r.task.pending = some .delete

/-- Every change queued is of a row still there. -/
structure QueueInv (s : State) : Prop where
  distinct : (s.phase.queued.map Prod.fst).Nodup
  present : ∀ q ∈ s.phase.queued, ∃ r, s.tasks.get q.1 = some r ∧ Tracks q.2 r
  place : ∀ q ∈ s.phase.waiting, ∀ r, s.tasks.get q.1 = some r → r.remoteHref = q.2.remoteHref
  sent : ∀ r, s.phase.sent = some r → r.Fits ∧ r.href ≠ [] ∧
    ∀ row, s.tasks.get r.id = some row → row.remoteHref = r.href
  /-- Nothing stands where a deletion went through. -/
  settled : ∀ p r e etag, s.phase = .served p r (.saved e) → r.request = .delete etag →
    s.server.find r.href = none
  /-- What was read of the collection is what it still holds. -/
  objects : ∀ objects report, s.phase = .reconciling objects report →
    objects.map Fetched.href = s.server.objects.map Object.href

/-- A deletion made before the sync began is in its queue until it went through. -/
structure DeletedInv (s : State) (h : Deeds) : Prop where
  id : ∀ d ∈ h.deleted, d < s.tasks.nextId
  row : ∀ d ∈ h.deleted, ∀ r, s.tasks.get d = some r → r.pending = some .delete
  begun : ∀ d ∈ h.begun, d ∈ h.deleted
  waiting : s.phase.inPush → ∀ d ∈ h.begun, ∀ r, s.tasks.get d = some r →
    ∃ q ∈ s.phase.queued, q.1 = d ∧ q.2.pending = some .delete
  through : ∀ report, (s.phase = .fetching report ∨ ∃ objects, s.phase = .reconciling objects report) →
    report.stopped = false → ∀ d ∈ h.begun, s.tasks.get d = none
  cleared : ∀ d ∈ h.cleared, d < s.tasks.nextId ∧ s.tasks.get d = none

structure DeedInv (s : State) (h : Deeds) : Prop where
  places : Places s h.wrote
  queue : QueueInv s
  deleted : DeletedInv s h

section Inv

variable {C : Codec} {R : Recurrences ρ} {s t : State} {h : Deeds} {a : Action ρ}

theorem DeedInv.buried (hi : DeedInv s h) : Buried (s, h) := by
  intro d hd w hw hwd
  obtain ⟨-, hnone⟩ := hi.deleted.cleared d hd
  obtain ⟨hfind, hrows⟩ := hi.places.gone w hw (hwd ▸ hnone)
  exact ⟨hfind, fun p hp => hrows p.1 p.2 (mem_rows.mp hp)⟩

theorem DeedInv.init (server : Server) : DeedInv (State.init server) Deeds.empty where
  places := {
    own := fun k _ r _ h => by simp [State.init] at h
    id := fun _ h => by cases h
    named := fun _ h => by cases h
    version := fun _ h => by cases h
    row := fun _ h => by cases h
    gone := fun _ h => by cases h }
  queue := {
    distinct := nodup_nil
    present := fun _ h => by cases h
    place := fun _ h => by cases h
    sent := fun _ h => by cases h
    settled := fun _ _ _ _ h => by cases h
    objects := fun _ _ h => by cases h }
  deleted := {
    id := fun _ h => by cases h
    row := fun _ h => by cases h
    begun := fun _ h => by cases h
    waiting := fun h => by cases h
    through := fun report h => by rcases h with h | ⟨_, h⟩ <;> cases h
    cleared := fun _ h => by cases h }

theorem Tracks.refl (r : Row) : Tracks r r := ⟨Nat.le_refl _, fun _ => rfl, fun h => h⟩

theorem Tracks.trans {q r x : Row} (h : Tracks q r) (h' : Tracks r x) : Tracks q x where
  seq := Nat.le_trans h.seq h'.seq
  same he := by
    have h₁ := h.seq
    have h₂ := h'.seq
    rw [h'.same (by omega), h.same (by omega)]
  delete hd := h'.delete (h.delete hd)

/-! ### What a step owes each part -/

/-- Where a row's place comes from in a step that only rewrites rows. -/
inductive PlaceFrom (s t : State) (wrote : List (Nat × Str)) (k : Nat) (x : Row) : Prop where
  | kept (r : Row) (hr : s.tasks.get k = some r) (hh : x.remoteHref = r.remoteHref)
  | none (hk : s.tasks.nextId ≤ k) (hh : x.remoteHref = [])
  | new (hk : ∀ r, s.tasks.get k = some r → r.remoteHref = [])
      (hlow : k < s.tasks.nextId → ∃ r, s.tasks.get k = some r)
      (hrows : ∀ k' r, s.tasks.get k' = some r → r.remoteHref ≠ x.remoteHref)
      (hgone : ∀ w ∈ wrote, s.tasks.get w.1 = Option.none → w.2 ≠ x.remoteHref)
      (honce : ∀ k' x', t.tasks.get k' = some x' → x'.remoteHref = x.remoteHref → k' = k)

theorem Places.next {wrote : List (Nat × Str)} (hp : Places s wrote)
    (hn : s.tasks.nextId ≤ t.tasks.nextId) (hserver : t.server = s.server)
    (hfrom : ∀ k x, t.tasks.get k = some x → PlaceFrom s t wrote k x)
    (hdrop : ∀ w ∈ wrote, ∀ r, s.tasks.get w.1 = some r → t.tasks.get w.1 = none →
      s.server.find w.2 = none) : Places t wrote where
  own k k' x x' hx hx' hne he := by
    cases hfrom k x hx with
    | kept r hr hh =>
      cases hfrom k' x' hx' with
      | kept r' hr' hh' => exact hp.own k k' r r' hr hr' (hh ▸ hne) (by rw [← hh, ← hh', he])
      | none hk' hh' => exact absurd (he.trans hh') hne
      | new _ _ hrows' =>
        exact absurd (by rw [← hh, he]) (hrows' k r hr)
    | none hk hh => exact absurd hh hne
    | new _ _ _ _ honce => exact (honce k' x' hx' he.symm).symm
  id w hw := Nat.lt_of_lt_of_le (hp.id w hw) hn
  named := hp.named
  version := by
    rw [hserver]
    exact hp.version
  row w hw x hx := by
    cases hfrom w.1 x hx with
    | kept r hr hh => rw [hh, hp.row w hw r hr]
    | none hk hh =>
      have := hp.id w hw
      omega
    | new hk hlow =>
      obtain ⟨r, hr⟩ := hlow (hp.id w hw)
      exact absurd ((hp.row w hw r hr).symm.trans (hk r hr)) (hp.named w hw)
  gone w hw hnone := by
    rw [hserver]
    cases hs : s.tasks.get w.1 with
    | none =>
      obtain ⟨hfind, hrows⟩ := hp.gone w hw hs
      refine ⟨hfind, fun k x hx => ?_⟩
      cases hfrom k x hx with
      | kept r hr hh =>
        rw [hh]
        exact hrows k r hr
      | none hk hh =>
        rw [hh]
        exact (hp.named w hw).symm
      | new _ _ _ hgone => exact (hgone w hw hs).symm
    | some r =>
      refine ⟨hdrop w hw r hs hnone, fun k x hx heq => ?_⟩
      have hrw := hp.row w hw r hs
      cases hfrom k x hx with
      | kept r' hr' hh =>
        -- only the row that went had this place
        have hk := hp.own k w.1 r' r hr' hs (by rw [← hh, heq]; exact hp.named w hw) (by rw [← hh, heq, hrw])
        rw [hk, hnone] at hx
        cases hx
      | none hk hh => exact hp.named w hw (heq.symm.trans hh)
      | new _ _ hrows => exact hrows w.1 r hs (hrw.trans heq.symm)

theorem QueueInv.next (hq : QueueInv s) (hsub : t.phase.queued.Sublist s.phase.queued)
    (hwait : ∀ q ∈ t.phase.waiting, q ∈ s.phase.waiting ∧ q ∈ t.phase.queued)
    (hrows : ∀ q ∈ t.phase.queued, ∀ r, s.tasks.get q.1 = some r → ∃ x, t.tasks.get q.1 = some x ∧
      Tracks r x ∧ (q ∈ t.phase.waiting → x.remoteHref = r.remoteHref))
    (hsent : ∀ r, t.phase.sent = some r → r.Fits ∧ r.href ≠ [] ∧
      ∀ row, t.tasks.get r.id = some row → row.remoteHref = r.href)
    (hsettled : ∀ p r e etag, t.phase = .served p r (.saved e) → r.request = .delete etag →
      t.server.find r.href = none) (hobjects : ∀ objects report, t.phase = .reconciling objects report →
      objects.map Fetched.href = t.server.objects.map Object.href) : QueueInv t where
  distinct := hq.distinct.sublist (hsub.map _)
  present q hm := by
    obtain ⟨r, hr, htr⟩ := hq.present q (hsub.subset hm)
    obtain ⟨x, hx, htx, -⟩ := hrows q hm r hr
    exact ⟨x, hx, htr.trans htx⟩
  place q hm x hx := by
    obtain ⟨hw, hmq⟩ := hwait q hm
    obtain ⟨r, hr, -⟩ := hq.present q (hsub.subset hmq)
    obtain ⟨x', hx', -, hh⟩ := hrows q hmq r hr
    rw [some.inj (hx.symm.trans hx'), hh hm]
    exact hq.place q hw r hr
  sent := hsent
  settled := hsettled
  objects := hobjects

/-- What a step owes the deletions: a row that is there was there, and stays deleted if it was. -/
theorem DeletedInv.next (hd : DeletedInv s h) (hn : s.tasks.nextId ≤ t.tasks.nextId)
    (hrows : ∀ k x, k < s.tasks.nextId → t.tasks.get k = some x →
      ∃ r, s.tasks.get k = some r ∧ (r.pending = some .delete → x.pending = some .delete))
    (hwaiting : t.phase.inPush → ∀ d ∈ h.begun, ∀ r, s.tasks.get d = some r → t.tasks.get d ≠ none →
      ∃ q ∈ t.phase.queued, q.1 = d ∧ q.2.pending = some .delete)
    (hthrough : ∀ report, (t.phase = .fetching report ∨ ∃ objects, t.phase = .reconciling objects report) →
      report.stopped = false → ∀ d ∈ h.begun, s.tasks.get d = none) : DeletedInv t h := by
  have hgone : ∀ d, d < s.tasks.nextId → s.tasks.get d = none → t.tasks.get d = none := by
    intro d hlt hnone
    cases hx : t.tasks.get d with
    | none => rfl
    | some x =>
      obtain ⟨r, hr, -⟩ := hrows d x hlt hx
      rw [hnone] at hr
      cases hr
  exact {
    id := fun d hm => Nat.lt_of_lt_of_le (hd.id d hm) hn
    row := fun d hm x hx => by
      obtain ⟨r, hr, hpend⟩ := hrows d x (hd.id d hm) hx
      exact hpend (hd.row d hm r hr)
    begun := hd.begun
    waiting := fun hin d hm x hx => by
      obtain ⟨r, hr, -⟩ := hrows d x (hd.id d (hd.begun d hm)) hx
      exact hwaiting hin d hm r hr (by rw [hx]; exact some_ne_none x)
    through := fun report hrep hs d hm => hgone d (hd.id d (hd.begun d hm)) (hthrough report hrep hs d hm)
    cleared := fun d hm => ⟨Nat.lt_of_lt_of_le (hd.cleared d hm).1 hn, hgone d (hd.cleared d hm).1 (hd.cleared d hm).2⟩ }

/-- Steps that leave the running sync where it is, and deletions waiting. -/
theorem DeletedInv.same_phase (hd : DeletedInv s h) (hph : t.phase = s.phase) (hn : s.tasks.nextId ≤ t.tasks.nextId)
    (hrows : ∀ k x, k < s.tasks.nextId → t.tasks.get k = some x →
      ∃ r, s.tasks.get k = some r ∧ (r.pending = some .delete → x.pending = some .delete)) : DeletedInv t h := by
  refine hd.next hn hrows ?_ ?_
  · rw [hph]
    exact fun hin d hm r hr _ => hd.waiting hin d hm r hr
  · rw [hph]
    exact hd.through

/-- Steps that leave the running sync where it is, and the rows it has queued in place. -/
theorem QueueInv.same_phase (hq : QueueInv s) (hph : t.phase = s.phase) (hserver : t.server = s.server)
    (hrows : ∀ q ∈ s.phase.queued, ∀ r, s.tasks.get q.1 = some r → ∃ x, t.tasks.get q.1 = some x ∧
      Tracks r x ∧ x.remoteHref = r.remoteHref) : QueueInv t := by
  refine hq.next (hph ▸ List.Sublist.refl _) ?_ ?_ ?_ ?_ ?_
  · intro q hm
    rw [hph] at hm ⊢
    refine ⟨hm, ?_⟩
    cases hp : s.phase <;> rw [hp] at hm <;> first | exact hm | exact mem_cons_of_mem _ hm
  · intro q hm r hr
    rw [hph] at hm
    obtain ⟨x, hx, htr, hh⟩ := hrows q hm r hr
    exact ⟨x, hx, htr, fun _ => hh⟩
  · intro r hr
    rw [hph] at hr
    obtain ⟨hfit, hne, hplace⟩ := hq.sent r hr
    refine ⟨hfit, hne, fun x hx => ?_⟩
    have hm : (r.id, r.task) ∈ s.phase.queued := by
      cases hp : s.phase <;> rw [hp] at hr <;> cases hr <;> exact mem_cons_self
    obtain ⟨row, hrow, -⟩ := hq.present _ hm
    obtain ⟨x', hx', -, hh⟩ := hrows _ hm row hrow
    rw [some.inj (hx.symm.trans hx'), hh]
    exact hplace row hrow
  · rw [hph, hserver]
    exact hq.settled
  · rw [hph, hserver]
    exact hq.objects

/-! ### Edits and deletions -/

theorem DeedInv.edit (hi : DeedInv s h) {t' : Tasks} (he : LocalEdit s.tasks t') : DeedInv { s with tasks := t' } h where
  places := by
    refine hi.places.next he.grows rfl ?_ ?_
    · intro k x hx
      cases he.row k with
      | same hs => exact .kept x (hs ▸ hx) rfl
      | edited r r' hr h' ht =>
        refine .kept r hr ?_
        rw [← some.inj (h'.symm.trans hx), ht.href]
      | added r' hk h' hf =>
        refine .none hk ?_
        rw [← some.inj (h'.symm.trans hx), hf.href]
    · intro w hw r hr hnone
      cases he.row w.1 with
      | same hs =>
        rw [show t'.get w.1 = none from hnone, hr] at hs
        cases hs
      | edited _ _ _ h' => cases h'.symm.trans hnone
      | added _ _ h' => cases h'.symm.trans hnone
  queue := by
    refine hi.queue.same_phase rfl rfl ?_
    intro q _ r hr
    cases he.row q.1 with
    | same hs => exact ⟨r, hs.trans hr, Tracks.refl r, rfl⟩
    | edited r₀ r' hr₀ h' ht =>
      have hseq := ht.seq
      rw [some.inj (hr.symm.trans hr₀)]
      exact ⟨r', h', ⟨by omega, fun heq => by omega, fun hd => absurd hd ht.standing⟩, ht.href⟩
    | added _ hk =>
      have := get_lt hr
      omega
  deleted := by
    refine hi.deleted.same_phase rfl he.grows ?_
    intro k x hk hx
    cases he.row k with
    | same hs => exact ⟨x, hs ▸ hx, fun hd => hd⟩
    | edited r r' hr h' ht => exact ⟨r, hr, fun hd => absurd hd ht.standing⟩
    | added _ hk' => omega

theorem get_deleteTask {tasks : Tasks} {id k : Nat} :
    (deleteTask tasks id).get k = if k = id then (tasks.get id).bind deleteRow else tasks.get k :=
  get_alter

theorem deleteRow_some {r x : Row} (h : deleteRow r = some x) :
    x = { r with pending := some .delete, syncSeq := r.syncSeq + 1 } := by
  unfold deleteRow at h
  split at h
  · exact (some.inj h).symm
  · cases h

theorem deleteRow_none {r : Row} (h : deleteRow r = none) : r.remoteEtag = none := by
  unfold deleteRow at h
  split at h
  · cases h
  · rename_i he
    simpa using he

theorem DeedInv.delete (hi : DeedInv s h) {id : Nat} (hok : DropsUnsent s (.deleteTask id : Action ρ)) :
    DeedInv { s with tasks := deleteTask s.tasks id }
      (noteDeed s (.deleteTask id : Action ρ) { s with tasks := deleteTask s.tasks id } h) := by
  have hget : ∀ {k : Nat} {x : Row}, (deleteTask s.tasks id).get k = some x →
      ∃ r, s.tasks.get k = some r ∧ x.remoteHref = r.remoteHref ∧ Tracks r x ∧
        (k = id → x.pending = some .delete) := by
    intro k x hx
    rw [get_deleteTask] at hx
    split at hx
    · rename_i hk
      obtain ⟨r, hr, hdr⟩ := bind_eq_some_iff.mp hx
      rw [deleteRow_some hdr]
      exact ⟨r, hk ▸ hr, rfl, ⟨Nat.le_succ _, fun he => absurd he (Nat.ne_of_lt (Nat.lt_succ_self _)), fun _ => rfl⟩,
        fun _ => rfl⟩
    · rename_i hk
      exact ⟨x, hx, rfl, Tracks.refl x, fun h => absurd h hk⟩
  -- a row that goes at once has nothing on the server and nothing on its way
  have hdrop : ∀ {k : Nat} {r : Row}, s.tasks.get k = some r → (deleteTask s.tasks id).get k = none →
      k = id ∧ r.remoteEtag = none := by
    intro k r hr hnone
    rw [get_deleteTask] at hnone
    split at hnone
    · rename_i hk
      refine ⟨hk, deleteRow_none ?_⟩
      rw [← hk, hr] at hnone
      exact hnone
    · rw [hr] at hnone
      cases hnone
  have hplaces : Places { s with tasks := deleteTask s.tasks id } h.wrote := by
    refine hi.places.next (Nat.le_refl _) rfl ?_ ?_
    · intro k x hx
      obtain ⟨r, hr, hh, -⟩ := hget hx
      exact .kept r hr hh
    · intro w hw r hr hnone
      obtain ⟨hid, he⟩ := hdrop hr hnone
      have hrow := hi.places.row w hw r hr
      rw [hid] at hr
      rw [← hrow]
      exact (hok r hr he).1 (hrow ▸ hi.places.named w hw)
  have hqueue : QueueInv { s with tasks := deleteTask s.tasks id } := by
    refine hi.queue.same_phase rfl rfl ?_
    intro q hq r hr
    cases hx : (deleteTask s.tasks id).get q.1 with
    | none =>
      obtain ⟨hid, he⟩ := hdrop hr hx
      rw [hid] at hr
      exact absurd (mem_map.mpr ⟨q, hq, hid⟩) (hok r hr he).2
    | some x =>
      obtain ⟨r', hr', hh, htr, -⟩ := hget hx
      rw [some.inj (hr.symm.trans hr')]
      exact ⟨x, rfl, htr, hh⟩
  have hdel : DeletedInv { s with tasks := deleteTask s.tasks id } h := by
    refine hi.deleted.same_phase rfl (Nat.le_refl _) ?_
    intro k x _ hx
    obtain ⟨r, hr, -, htr, -⟩ := hget hx
    exact ⟨r, hr, htr.delete⟩
  unfold noteDeed
  simp only
  split
  · rename_i hsome
    refine ⟨hplaces, hqueue, { hdel with id := ?_, row := ?_, begun := ?_ }⟩
    · intro d hd
      rcases mem_append.mp hd with hd | hd
      · exact hdel.id d hd
      · rw [mem_singleton.mp hd]
        obtain ⟨r, hr⟩ := isSome_iff_exists.mp hsome
        have hlt : id < s.tasks.nextId := get_lt hr
        exact hlt
    · intro d hd x hx
      rcases mem_append.mp hd with hd | hd
      · exact hdel.row d hd x hx
      · obtain ⟨r, hr, -, -, hpend⟩ := hget hx
        exact hpend (mem_singleton.mp hd)
    · exact fun d hd => mem_append_left _ (hdel.begun d hd)
  · exact ⟨hplaces, hqueue, hdel⟩

/-! ### The sync -/

/-- Steps that write no row and nothing to the server. -/
theorem Places.same (hp : Places s h.wrote) (ht : t.tasks = s.tasks) (hserver : t.server = s.server) : Places t h.wrote :=
  hp.next (by rw [ht]) hserver (fun k x hx => .kept x (ht ▸ hx) rfl)
    (fun w _ r hr hnone => by rw [ht, hr] at hnone; cases hnone)

/-- Outside `push` nothing is queued. -/
theorem QueueInv.outside (hph : t.phase.inPush = false) (hobjects : ∀ objects report, t.phase = .reconciling objects report →
      objects.map Fetched.href = t.server.objects.map Object.href) : QueueInv t where
  distinct := by
    rw [Phase.queued_nil hph]
    exact nodup_nil
  present q hq := by
    rw [Phase.queued_nil hph] at hq
    cases hq
  place q hq := by
    cases hp : t.phase <;> rw [hp] at hq hph <;> first | cases hq | cases hph
  sent r hr := by
    rw [Phase.sent_none hph] at hr
    cases hr
  settled p r e etag hp := by
    rw [hp] at hph
    cases hph
  objects := hobjects

theorem DeedInv.startSync (hi : DeedInv s h) (now : Int) : DeedInv { s with phase := startSync s.tasks now }
      (noteDeed s (.startSync now : Action ρ) { s with phase := startSync s.tasks now } h) := by
  have hqueued : ∀ d ∈ h.deleted, ∀ r, s.tasks.get d = some r → (d, r) ∈ TaskSync.queue s.tasks := by
    intro d hd r hr
    have hpend := hi.deleted.row d hd r hr
    simp [TaskSync.queue, mem_rows, hr, hpend]
  have hplaces : Places { s with phase := TaskSync.startSync s.tasks now } h.wrote :=
    hi.places.same rfl rfl
  by_cases hb : blocked s.tasks = true
  · have hstart : TaskSync.startSync s.tasks now = .fetching { stopped := !(TaskSync.queue s.tasks).isEmpty } := by
      simp [TaskSync.startSync, hb]
    rw [hstart] at hplaces ⊢
    refine ⟨hplaces, QueueInv.outside rfl (by simp), { hi.deleted with
      begun := fun d hd => hd
      waiting := fun hin => by cases hin
      through := ?_ }⟩
    intro report hrep hstop d hd
    rcases hrep with hrep | ⟨_, hrep⟩ <;> cases hrep
    cases hr : s.tasks.get d with
    | none => rfl
    | some r =>
      have hm := hqueued d hd r hr
      have hnil : TaskSync.queue s.tasks = [] := by simpa using hstop
      rw [hnil] at hm
      cases hm
  · have hstart : TaskSync.startSync s.tasks now = .pushing ⟨now, TaskSync.queue s.tasks, {}⟩ := by
      simp [TaskSync.startSync, hb]
    rw [hstart] at hplaces ⊢
    have hrow : ∀ q ∈ TaskSync.queue s.tasks, s.tasks.get q.1 = some q.2 :=
      fun q hq => mem_rows.mp (mem_of_mem_filter hq)
    refine ⟨hplaces, ?_, { hi.deleted with begun := fun d hd => hd, waiting := ?_, through := ?_ }⟩
    · exact {
        distinct := s.tasks.keyed.filter _
        present := fun q hq => ⟨q.2, hrow q hq, Tracks.refl _⟩
        place := fun q hq r hr => by rw [some.inj (hr.symm.trans (hrow q hq))]
        sent := fun r hr => by cases hr
        settled := fun _ _ _ _ he => by cases he
        objects := fun _ _ he => by cases he }
    · exact fun _ d hd r hr => ⟨(d, r), hqueued d hd r hr, rfl, hi.deleted.row d hd r hr⟩
    · intro report hrep
      rcases hrep with hrep | ⟨_, hrep⟩ <;> cases hrep

/-- A turn that writes no row: what was queued for deletion and is not on its way stays queued. -/
theorem DeletedInv.turn (hd : DeletedInv s h) (ht : t.tasks.nextId = s.tasks.nextId)
    (hget : ∀ {k : Nat} {x : Row}, t.tasks.get k = some x →
      ∃ r, s.tasks.get k = some r ∧ (r.pending = some .delete → x.pending = some .delete))
    (hin : s.phase.inPush) (hin' : t.phase.inPush)
    (hqueued : ∀ q ∈ s.phase.queued, q.2.pending = some .delete → q ∈ t.phase.queued ∨
      t.tasks.get q.1 = none) : DeletedInv t h := by
  refine hd.next (le_of_eq ht.symm) (fun _ _ _ hx => hget hx) ?_ ?_
  · intro _ d hm r hr hthere
    obtain ⟨q, hq, hqd, hpend⟩ := hd.waiting hin d hm r hr
    exact ⟨q, (hqueued q hq hpend).resolve_right (hqd ▸ hthere), hqd, hpend⟩
  · intro report hrep
    rcases hrep with hrep | ⟨_, hrep⟩ <;> rw [hrep] at hin' <;> cases hin'

/-- Steps after which the sync is over, or has stopped on a conflict, and no row comes back. -/
theorem DeletedInv.leave (hd : DeletedInv s h) (ht : t.tasks.nextId = s.tasks.nextId)
    (hget : ∀ {k : Nat} {x : Row}, t.tasks.get k = some x →
      ∃ r, s.tasks.get k = some r ∧ (r.pending = some .delete → x.pending = some .delete)) (hin : t.phase.inPush = false)
    (hthrough : ∀ report, (t.phase = .fetching report ∨
      ∃ objects, t.phase = .reconciling objects report) → report.stopped = false →
      ∀ d ∈ h.begun, s.tasks.get d = none) : DeletedInv t h :=
  hd.next (le_of_eq ht.symm) (fun _ _ _ hx => hget hx) (fun h => by rw [hin] at h; cases h) hthrough

theorem DeletedInv.idle (hd : DeletedInv s h) (last : Option Report) : DeletedInv { s with phase := .idle last } h :=
  hd.leave rfl (fun {_} {x} hx => ⟨x, hx, fun h => h⟩) rfl (by
      intro report hrep
      rcases hrep with hrep | ⟨_, hrep⟩ <;> cases hrep)

variable {ph : Phase}

/-- A turn that writes no row and queues nothing new. -/
theorem DeedInv.turn_same (hi : DeedInv s h) (hin : s.phase.inPush) (hin' : ph.inPush)
    (hsub : ph.queued.Sublist s.phase.queued) (hwait : ∀ q ∈ ph.waiting, q ∈ s.phase.waiting ∧ q ∈ ph.queued)
    (hserved : ∀ p r w, ph ≠ .served p r w) (hsent : ∀ r, ph.sent = some r → r.Fits ∧ r.href ≠ [] ∧
      ∀ row, s.tasks.get r.id = some row → row.remoteHref = r.href)
    (hqueued : ∀ q ∈ s.phase.queued, q.2.pending = some .delete → q ∈ ph.queued) : DeedInv { s with phase := ph } h where
  places := hi.places.same rfl rfl
  queue := hi.queue.next hsub hwait (fun _ _ r hr => ⟨r, hr, Tracks.refl r, fun _ => rfl⟩) hsent
    (fun p r e _ hp => absurd hp (hserved p r _))
    (fun objects report hp => by
      have hp' : ph = .reconciling objects report := hp
      rw [hp'] at hin'
      cases hin')
  deleted := hi.deleted.turn rfl (fun {_} {x} hx => ⟨x, hx, fun h => h⟩) hin hin'
    (fun q hq hpend => .inl (hqueued q hq hpend))

theorem DeedInv.turn (hi : DeedInv s h) {p : Push} (hp : s.phase = .pushing p) {uid : Str}
    (hfresh : FreshUid C s (.pushNext uid : Action ρ)) (hok : DropsUnsent s (.pushNext uid : Action ρ)) {t' : Tasks}
    (hturn : Turn C s.tasks p uid (t', ph)) : DeedInv { s with tasks := t', phase := ph } h := by
  have hin : s.phase.inPush := by rw [hp]; rfl
  have hqueued : s.phase.queued = p.queue := by rw [hp]; rfl
  have hwaiting : s.phase.waiting = p.queue := by rw [hp]; rfl
  have hplace : ∀ {id : Nat} {task : Row} {rest : List (Nat × Row)}, p.queue = (id, task) :: rest →
      ∀ row, s.tasks.get id = some row → row.remoteHref = task.remoteHref := by
    intro id task rest hq row hrow
    exact hi.queue.place (id, task) (by rw [hwaiting, hq]; exact mem_cons_self) row hrow
  have hwaits : ∀ {head : Nat × Row} {rest : List (Nat × Row)}, p.queue = head :: rest → ∀ q ∈ rest, q ∈ s.phase.waiting :=
    fun hq q hm => by rw [hwaiting, hq]; exact mem_cons_of_mem _ hm
  have hother : ∀ {id : Nat} {task : Row} {rest : List (Nat × Row)}, p.queue = (id, task) :: rest → ∀ q ∈ rest, q.1 ≠ id := by
    intro id task rest hq
    have hdist := hi.queue.distinct
    rw [hqueued, hq, map_cons, nodup_cons] at hdist
    exact fun q hm he => hdist.1 (mem_map.mpr ⟨q, hm, he⟩)
  have hsends : ∀ {id : Nat} {task : Row} {rest : List (Nat × Row)} {request : Request}, p.queue = (id, task) :: rest →
      Sent.Fits ⟨id, task, task.remoteHref, request⟩ → task.remoteHref ≠ [] →
      DeedInv { s with phase := .sending { p with queue := rest } ⟨id, task, task.remoteHref, request⟩ } h := by
    intro id task rest request hq hfit hh
    refine hi.turn_same hin rfl ?_ (fun q hm => ⟨hwaits hq q hm, mem_cons_of_mem _ hm⟩) (by simp) ?_ ?_
    · rw [hqueued, hq]
      exact List.Sublist.refl _
    · rintro r ⟨⟩
      exact ⟨hfit, hh, hplace hq⟩
    · intro q hm _
      rw [hqueued, hq] at hm
      exact hm
  cases hturn with
  | finished hq =>
    refine ⟨hi.places.same rfl rfl, QueueInv.outside rfl (by simp), ?_⟩
    refine hi.deleted.leave rfl (fun {_} {x} hx => ⟨x, hx, fun h => h⟩) rfl ?_
    intro report _ _ d hd
    cases hr : s.tasks.get d with
    | none => rfl
    | some r =>
      obtain ⟨q, hm, -⟩ := hi.deleted.waiting hin d hd r hr
      rw [hqueued, hq] at hm
      cases hm
  | failed => exact ⟨hi.places.same rfl rfl, QueueInv.outside rfl (by simp), hi.deleted.idle none⟩
  | deletes id task rest etag hq hd he hh => exact hsends hq hd hh
  | skipped id task rest hq hd =>
    refine hi.turn_same hin rfl ?_ (fun q hm => ⟨hwaits hq q hm, hm⟩) (by simp) (by rintro r ⟨⟩) ?_
    · rw [hqueued, hq]
      exact sublist_cons_self _ _
    · intro q hm hpend
      rw [hqueued, hq] at hm
      rcases mem_cons.mp hm with rfl | hm
      · exact absurd hpend hd
      · exact hm
  | patches id task rest ics hq hd hh hics => exact hsends hq hd hh
  | dropped id task rest hq hd hu =>
    refine ⟨?_, ?_, ?_⟩
    · refine hi.places.next (Nat.le_refl _) rfl (fun k x hx => .kept x (get_remove_some hx).2 rfl) ?_
      intro w hw r hr hnone
      have hid : w.1 = id := by
        by_contra hne
        rw [get_remove, if_neg hne, hr] at hnone
        cases hnone
      -- the place of the row that goes is the one the queue read
      have hrow := hi.places.row w hw r hr
      have hhref : task.remoteHref = w.2 := by
        rw [hid] at hr
        rw [← hplace hq r hr, hrow]
      have hne : task.remoteHref ≠ [] := hhref ▸ hi.places.named w hw
      rcases hu with he | he
      · rw [← hhref]
        exact hok (id, task) (by rw [hqueued, hq]; rfl) hd he hne
      · exact absurd he hne
    · refine hi.queue.next ?_ (fun q hm => ⟨hwaits hq q hm, hm⟩) ?_ (by rintro r ⟨⟩) (by simp) (by simp)
      · rw [hqueued, hq]
        exact sublist_cons_self _ _
      · intro q hm r hr
        refine ⟨r, ?_, Tracks.refl r, fun _ => rfl⟩
        rw [get_remove, if_neg (hother hq q hm), hr]
    · refine hi.deleted.turn rfl (fun {_} {x} hx => ⟨x, (get_remove_some hx).2, fun h => h⟩) hin rfl ?_
      intro q hm hpend
      rw [hqueued, hq] at hm
      rcases mem_cons.mp hm with rfl | hm
      · exact .inr (by rw [get_remove, if_pos rfl])
      · exact .inl hm
  | creates id task rest href hq hd hh =>
    have hget : ∀ {k : Nat} {x : Row}, (s.tasks.modify id (fun r => { r with
          remoteHref := href, remoteIcs := C.newObject task.fields uid p.now })).get k = some x →
        ∃ r, s.tasks.get k = some r ∧ Tracks r x ∧ x.pending = r.pending ∧
          (k = id → x.remoteHref = href) ∧ (k ≠ id → x.remoteHref = r.remoteHref) := by
      intro k x hx
      obtain ⟨r, hr, ⟨hk, rfl⟩ | ⟨hk, rfl⟩⟩ := get_modify_some hx
      · exact ⟨r, hr, ⟨Nat.le_refl _, fun _ => rfl, fun h => h⟩, rfl, fun _ => rfl, fun hne => absurd hk hne⟩
      · exact ⟨x, hr, Tracks.refl x, rfl, fun h => absurd h hk, fun _ => rfl⟩
    refine ⟨?_, ?_, ?_⟩
    · refine hi.places.next (Nat.le_refl _) rfl ?_ ?_
      · intro k x hx
        obtain ⟨r, hr, -, -, hself, hrest⟩ := hget hx
        by_cases hk : k = id
        · subst hk
          rcases hh with ⟨hempty, hnew⟩ | ⟨hne, rfl⟩
          · obtain ⟨hnonempty, hversions, hrows⟩ := hfresh href hnew
            refine .new ?_ (fun _ => ⟨r, hr⟩) ?_ ?_ ?_
            · intro r' hr'
              rw [hplace hq r' hr', hempty]
            · intro k' r' hr'
              rw [hself rfl]
              exact hrows (k', r') (mem_rows.mpr hr')
            · intro w hw _ he
              obtain ⟨v, hv, hvw⟩ := hi.places.version w hw
              exact hversions v hv (hvw.trans (he.trans (hself rfl)))
            · intro k' x' hx' he
              by_contra hne
              obtain ⟨r', hr', -, -, -, hrest'⟩ := hget hx'
              rw [hself rfl, hrest' hne] at he
              exact hrows (k', r') (mem_rows.mpr hr') he
          · exact .kept r hr (by rw [hself rfl, hplace hq r hr])
        · exact .kept r hr (hrest hk)
      · exact fun w _ r hr hnone => absurd hnone (get_modify_ne_none hr)
    · refine hi.queue.next ?_ (fun q hm => ⟨hwaits hq q hm, mem_cons_of_mem _ hm⟩) ?_ ?_ (by simp) (by simp)
      · rw [hqueued, hq]
        exact List.Sublist.refl _
      · intro q hm r hr
        have hx := get_modify_of (k := id) (f := fun r => { r with
          remoteHref := href, remoteIcs := C.newObject task.fields uid p.now }) hr
        obtain ⟨r', hr', htr, -, -, hrest⟩ := hget hx
        rw [some.inj (hr.symm.trans hr')]
        exact ⟨_, hx, htr, fun hw => hrest (hother hq q hw)⟩
      · rintro r ⟨⟩
        refine ⟨hd, ?_, ?_⟩
        · rcases hh with ⟨-, hnew⟩ | ⟨hne, rfl⟩
          · exact (hfresh href hnew).1
          · exact hne
        · intro row hrow
          obtain ⟨_, -, -, -, hself, -⟩ := hget hrow
          exact hself rfl
    · refine hi.deleted.turn rfl ?_ hin rfl ?_
      · intro k x hx
        obtain ⟨r, hr, -, hpend, -⟩ := hget hx
        exact ⟨r, hr, fun hdel => hpend.trans hdel⟩
      · intro q hm _
        rw [hqueued, hq] at hm
        exact .inl hm

/-- A request that is not a `PUT` let through leaves every free place free. -/
theorem Places.served (hp : Places s h.wrote) (srv : Server) (hv : ∀ v ∈ s.server.versions, v ∈ srv.versions)
    (hfind : ∀ href, s.server.find href = none → srv.find href = none) :
    Places { s with server := srv, phase := ph } h.wrote where
  own := hp.own
  id := hp.id
  named := hp.named
  version w hw := by
    obtain ⟨v, hm, he⟩ := hp.version w hw
    exact ⟨v, hv v hm, he⟩
  row := hp.row
  gone w hw hnone := ⟨hfind _ (hp.gone w hw hnone).1, (hp.gone w hw hnone).2⟩

theorem DeedInv.serve (hi : DeedInv s h) {p : Push} {r : Sent} (hp : s.phase = .sending p r)
    {w : Written} {srv : Server} (hs : Served s.server r (w, srv)) (tell gone : Bool) :
    DeedInv { s with server := srv, phase := .served p r w }
      (noteDeed s (.serve tell gone : Action ρ) { s with server := srv, phase := .served p r w } h) := by
  have hin : s.phase.inPush := by rw [hp]; rfl
  have hqueued : s.phase.queued = (r.id, r.task) :: p.queue := by rw [hp]; rfl
  have hwaiting : s.phase.waiting = p.queue := by rw [hp]; rfl
  obtain ⟨hfit, hne, hplace⟩ := hi.queue.sent r (by rw [hp]; rfl)
  obtain ⟨row, hrow, -⟩ := hi.queue.present (r.id, r.task) (hqueued ▸ mem_cons_self)
  have hqueue : (∀ etag, w ≠ .conflict → r.request = .delete etag → srv.find r.href = none) →
      QueueInv { s with server := srv, phase := .served p r w } := by
    intro hsettled
    refine hi.queue.next ?_ ?_ (fun _ _ x hx => ⟨x, hx, Tracks.refl x, fun _ => rfl⟩) ?_ ?_ (by simp)
    · rw [hqueued]
      exact List.Sublist.refl _
    · intro q hm
      rw [hwaiting]
      exact ⟨hm, mem_cons_of_mem _ hm⟩
    · rintro r' ⟨⟩
      exact ⟨hfit, hne, hplace⟩
    · intro p' r' e etag he hreq
      cases he
      exact hsettled etag (by simp) hreq
  have hdeleted : DeletedInv { s with server := srv, phase := .served p r w } h := by
    refine hi.deleted.turn rfl (fun {_} {x} hx => ⟨x, hx, fun h => h⟩) hin rfl ?_
    intro q hm _
    rw [hqueued] at hm
    exact .inl hm
  cases hs with
  | stores ics etag hr hm =>
    have hwrote : wroteBy s { s with
        server := s.server.store r.href ics, phase := .served p r (.saved etag) } = [(r.id, r.href)] := by
      simp [wroteBy, hp, hr]
    simp only [noteDeed, hwrote]
    refine ⟨?_, hqueue (fun etag' _ hreq => by rw [hr] at hreq; cases hreq), { hdeleted with }⟩
    have hboth : ∀ {P : Nat × Str → Prop}, (∀ x ∈ h.wrote, P x) → P (r.id, r.href) →
        ∀ x ∈ h.wrote ++ [(r.id, r.href)], P x :=
      fun hold hnew => forall_mem_append.mpr ⟨hold, forall_mem_singleton.mpr hnew⟩
    refine { own := hi.places.own, id := ?_, named := ?_, version := ?_, row := ?_, gone := ?_ }
    · exact hboth hi.places.id (get_lt hrow)
    · exact hboth hi.places.named hne
    · refine hboth (fun x hx => ?_) ⟨_, mem_append_right _ (mem_singleton_self _), rfl⟩
      obtain ⟨v, hv, he⟩ := hi.places.version x hx
      exact ⟨v, mem_append_left _ hv, he⟩
    · exact hboth hi.places.row hplace
    · refine hboth (fun x hx hnone => ?_) fun hnone => ?_
      · -- the place of a row that is gone is not the one just written to
        obtain ⟨hfind, hrows⟩ := hi.places.gone x hx hnone
        refine ⟨?_, hrows⟩
        have hother : x.2 ≠ r.href := fun he => hrows r.id row hrow ((hplace row hrow).trans he.symm)
        show (s.server.store r.href ics).find x.2 = none
        rw [Server.find_store, if_neg hother]
        exact hfind
      · rw [show s.tasks.get r.id = none from hnone] at hrow
        cases hrow
  | drops o hr ho =>
    have hwrote : wroteBy s { s with
        server := s.server.drop r.href, phase := .served p r (.saved none) } = [] := by
      simp [wroteBy, hp, hr]
    simp only [noteDeed, hwrote, append_nil]
    refine ⟨hi.places.served (s.server.drop r.href) (fun _ hv => hv) ?_, hqueue ?_, hdeleted⟩
    · intro href hnone
      rw [Server.find_drop]
      split
      · rfl
      · exact hnone
    · intro _ _ _
      rw [Server.find_drop, if_pos rfl]
  | gone etag hr ho =>
    have hwrote : wroteBy s { s with phase := .served p r (.saved none) } = [] := by
      simp [wroteBy, hp, hr]
    simp only [noteDeed, hwrote, append_nil]
    exact ⟨hi.places.served s.server (fun _ hv => hv) fun _ h => h, hqueue fun _ _ _ => ho, hdeleted⟩
  | refused =>
    have hwrote : wroteBy s { s with phase := .served p r .conflict } = [] := by
      simp [wroteBy, hp]
    simp only [noteDeed, hwrote, append_nil]
    exact ⟨hi.places.served s.server (fun _ hv => hv) fun _ h => h, hqueue fun _ hne _ => absurd rfl hne, hdeleted⟩

theorem DeedInv.answer (hi : DeedInv s h) {p : Push} {r : Sent} {w : Written} (hp : s.phase = .served p r w) {t' : Tasks}
    (ha : takeAnswer s.tasks p r w = (t', ph)) : DeedInv { s with tasks := t', phase := ph } h := by
  have hin : s.phase.inPush := by rw [hp]; rfl
  have hqueued : s.phase.queued = (r.id, r.task) :: p.queue := by rw [hp]; rfl
  have hwaiting : s.phase.waiting = p.queue := by rw [hp]; rfl
  obtain ⟨hfit, hne, hplace⟩ := hi.queue.sent r (by rw [hp]; rfl)
  obtain ⟨row, hrow, htracks⟩ := hi.queue.present (r.id, r.task) (hqueued ▸ mem_cons_self)
  have hother : ∀ q ∈ p.queue, q.1 ≠ r.id := by
    have hd := hi.queue.distinct
    rw [hqueued, map_cons, nodup_cons] at hd
    exact fun q hq he => hd.1 (mem_map.mpr ⟨q, hq, he⟩)
  unfold takeAnswer at ha
  split at ha
  · rename_i etag ics hr
    cases ha
    have hput : r.task.pending ≠ some .delete := by
      unfold Sent.Fits at hfit
      rw [hr] at hfit
      exact hfit
    have hget : ∀ {k : Nat} {x : Row}, (s.tasks.modify r.id (savedRow r.task.syncSeq etag ics)).get k = some x →
        ∃ y, s.tasks.get k = some y ∧ x.remoteHref = y.remoteHref ∧
          (y.pending = some .delete → x.pending = some .delete) := by
      intro k x hx
      obtain ⟨y, hy, ⟨rfl, rfl⟩ | ⟨-, rfl⟩⟩ := get_modify_some hx
      · refine ⟨y, hy, rfl, fun hd => ?_⟩
        simp only [savedRow]
        split
        · -- deleted here since it was read: its `sync_seq` has moved on
          rename_i hseq
          rw [some.inj (hy.symm.trans hrow)] at hd hseq
          rw [htracks.same hseq.symm] at hd
          exact absurd hd hput
        · exact hd
      · exact ⟨x, hy, rfl, fun hd => hd⟩
    refine ⟨?_, ?_, ?_⟩
    · refine hi.places.next (Nat.le_refl _) rfl ?_ ?_
      · intro k x hx
        obtain ⟨y, hy, hh, -⟩ := hget hx
        exact .kept y hy hh
      · exact fun x _ y hy hnone => absurd hnone (get_modify_ne_none hy)
    · refine hi.queue.next ?_ ?_ ?_ (by rintro r ⟨⟩) (by simp) (by simp)
      · rw [hqueued]
        exact sublist_cons_self _ _
      · intro q hm
        rw [hwaiting]
        exact ⟨hm, hm⟩
      · intro q hm y hy
        refine ⟨y, ?_, Tracks.refl y, fun _ => rfl⟩
        rw [get_modify, if_neg (hother q hm), hy]
    · refine hi.deleted.turn rfl ?_ hin rfl ?_
      · intro k x hx
        obtain ⟨y, hy, -, hd⟩ := hget hx
        exact ⟨y, hy, hd⟩
      · intro q hm hpend
        rw [hqueued] at hm
        rcases mem_cons.mp hm with rfl | hm
        · exact absurd hpend hput
        · exact .inl hm
  · rename_i e etag hr
    cases ha
    have hdel : r.task.pending = some .delete := by
      unfold Sent.Fits at hfit
      rw [hr] at hfit
      exact hfit
    have hget : ∀ {k : Nat} {x : Row}, (s.tasks.alter r.id (fun row =>
        if row.pending = some .delete then none else some row)).get k = some x →
        k ≠ r.id ∧ s.tasks.get k = some x := by
      intro k x hx
      obtain ⟨y, hy, ⟨rfl, hdrop⟩ | ⟨hk, rfl⟩⟩ := get_alter_some hx
      · obtain rfl := some.inj (hy.symm.trans hrow)
        rw [if_pos (htracks.delete hdel)] at hdrop
        cases hdrop
      · exact ⟨hk, hy⟩
    refine ⟨?_, ?_, ?_⟩
    · refine hi.places.next (Nat.le_refl _) rfl (fun k x hx => .kept x (hget hx).2 rfl) ?_
      intro x hx y hy hnone
      have hid : x.1 = r.id := by
        by_contra hne
        have hnone' : (s.tasks.alter r.id _).get x.1 = none := hnone
        rw [get_alter, if_neg hne, hy] at hnone'
        cases hnone'
      have hhref := hi.places.row x hx y hy
      rw [hid] at hy
      rw [← hhref, hplace y hy]
      exact hi.queue.settled p r e etag hp hr
    · refine hi.queue.next ?_ ?_ ?_ (by rintro r ⟨⟩) (by simp) (by simp)
      · rw [hqueued]
        exact sublist_cons_self _ _
      · intro q hm
        rw [hwaiting]
        exact ⟨hm, hm⟩
      · intro q hm y hy
        refine ⟨y, ?_, Tracks.refl y, fun _ => rfl⟩
        rw [get_alter, if_neg (hother q hm), hy]
    · refine hi.deleted.turn rfl (fun {_} {x} hx => ⟨x, (hget hx).2, fun h => h⟩) hin rfl ?_
      intro q hm _
      rw [hqueued] at hm
      rcases mem_cons.mp hm with rfl | hm
      · refine .inr ?_
        cases hx : (s.tasks.alter r.id (fun row =>
            if row.pending = some .delete then none else some row)).get r.id with
        | none => rfl
        | some x => exact absurd rfl (hget hx).1
      · exact .inl hm
  · cases ha
    have hget : ∀ {k : Nat} {x : Row}, (markConflict s.tasks r.id .changed).get k = some x →
        ∃ y, s.tasks.get k = some y ∧ x.remoteHref = y.remoteHref ∧ x.pending = y.pending := by
      intro k x hx
      obtain ⟨y, hy, ⟨-, rfl⟩ | ⟨-, rfl⟩⟩ := get_modify_some hx
      · exact ⟨y, hy, rfl, rfl⟩
      · exact ⟨x, hy, rfl, rfl⟩
    refine ⟨?_, QueueInv.outside rfl (by simp), ?_⟩
    · refine hi.places.next (Nat.le_refl _) rfl ?_ ?_
      · intro k x hx
        obtain ⟨y, hy, hh, -⟩ := hget hx
        exact .kept y hy hh
      · exact fun x _ y hy hnone => absurd hnone (get_modify_ne_none hy)
    · refine hi.deleted.leave rfl ?_ rfl ?_
      · intro k x hx
        obtain ⟨y, hy, -, hpend⟩ := hget hx
        exact ⟨y, hy, fun hd => hpend.trans hd⟩
      · intro report hrep hstop
        rcases hrep with hrep | ⟨_, hrep⟩ <;> cases hrep
        cases hstop

theorem DeedInv.fetch (hi : DeedInv s h) {report : Report} (hp : s.phase = .fetching report) (hidden : List Nat) :
    DeedInv { s with phase := .reconciling (fetchTodos s.server hidden) report } h where
  places := hi.places.same rfl rfl
  queue := by
    refine QueueInv.outside rfl ?_
    intro objects report' he
    cases he
    simp [fetchTodos, Function.comp_def]
  deleted := by
    refine hi.deleted.leave rfl (fun {_} {x} hx => ⟨x, hx, fun h => h⟩) rfl ?_
    intro report' hrep
    rcases hrep with hrep | ⟨_, hrep⟩ <;> cases hrep
    exact hi.deleted.through report (.inl hp)

theorem DeedInv.reconcile (hi : DeedInv s h) {objects : List Fetched} {report : Report}
    (hp : s.phase = .reconciling objects report) {t' : Tasks} {ph : Phase}
    (hr : reconcile C s.tasks objects report = (t', ph)) : DeedInv { s with tasks := t', phase := ph }
      (noteDeed s (.reconcile : Action ρ) { s with tasks := t', phase := ph } h) := by
  obtain ⟨rfl, rfl⟩ | ⟨report', rfl, hstopped, hspec⟩ := reconcile_spec hr
  · exact ⟨hi.places.same rfl rfl, QueueInv.outside rfl (by simp), hi.deleted.idle none⟩
  · have hobjects := hi.queue.objects objects report hp
    -- an address read is one the server holds something at
    have hseen : ∀ {href : Str}, s.server.find href = none ↔ href ∉ objects.map Fetched.href := by
      intro href
      rw [hobjects, Server.find_eq_none]
      simp
    have hold : ∀ {k : Nat} {x : Row}, k < s.tasks.nextId → t'.get k = some x →
        ∃ r, s.tasks.get k = some r ∧ Kept r x := by
      intro k x hk hx
      cases hs : s.tasks.get k with
      | none =>
        rw [hspec.absent k hk hs] at hx
        cases hx
      | some r =>
        have hrow := hspec.old k r hs
        rw [hx] at hrow
        cases hrow with
        | kept _ hkept => exact ⟨r, rfl, hkept⟩
    refine ⟨?_, QueueInv.outside rfl (by simp), ?_⟩
    · refine hi.places.next hspec.grows rfl ?_ ?_
      · intro k x hx
        by_cases hk : k < s.tasks.nextId
        · obtain ⟨r, hs, hkept⟩ := hold hk hx
          exact .kept r hs hkept.href
        · have hk' : s.tasks.nextId ≤ k := Nat.le_of_not_lt hk
          obtain ⟨-, hdone, hunknown⟩ := hspec.new k x hk' hx
          by_cases hempty : x.remoteHref = []
          · exact .none hk' hempty
          · refine .new ?_ (fun hlt => absurd hlt hk) (hunknown hempty) ?_ ?_
            · intro r hs
              rw [get_eq_none_of_le hk'] at hs
              cases hs
            · intro w hw hnone he
              have hfind := (hi.places.gone w hw hnone).1
              rw [he] at hfind
              exact hseen.mp hfind hdone
            · intro k' x' hx' he
              by_cases hlt : k' < s.tasks.nextId
              · obtain ⟨r, hs, hkept⟩ := hold hlt hx'
                exact absurd (hkept.href.symm.trans he) (hunknown hempty k' r hs)
              · refine (hspec.once k k' x x' hk' (Nat.le_of_not_lt hlt) hx hx' ?_ he.symm).symm
                rw [hobjects]
                exact s.server.keyed
      · intro w hw r hs hnone
        have hrow := hspec.old w.1 r hs
        rw [show t'.get w.1 = none from hnone] at hrow
        cases hrow with
        | gone _ hunseen =>
          rw [← hi.places.row w hw r hs]
          exact hseen.mpr hunseen
    · have hgone : ∀ d, d < s.tasks.nextId → s.tasks.get d = none → t'.get d = none := hspec.absent
      refine ⟨?_, ?_, hi.deleted.begun, (fun hin => by cases hin), ?_, ?_⟩
      · exact fun d hd => Nat.lt_of_lt_of_le (hi.deleted.id d hd) hspec.grows
      · intro d hd x hx
        obtain ⟨r, hs, hkept⟩ := hold (hi.deleted.id d hd) hx
        have hpend := hi.deleted.row d hd r hs
        rw [hkept.held (by rw [hpend]; exact some_ne_none _)]
        exact hpend
      · intro report'' hrep
        rcases hrep with hrep | ⟨_, hrep⟩ <;> cases hrep
      · intro d hd
        simp only [noteDeed] at hd
        rcases mem_append.mp hd with hd | hd
        · obtain ⟨hlt, hnone⟩ := hi.deleted.cleared d hd
          exact ⟨Nat.lt_of_lt_of_le hlt hspec.grows, hgone d hlt hnone⟩
        · obtain ⟨hbegun, hfree⟩ := mem_filter.mp hd
          have hlt := hi.deleted.id d (hi.deleted.begun d hbegun)
          refine ⟨Nat.lt_of_lt_of_le hlt hspec.grows, ?_⟩
          show t'.get d = none
          cases hx : t'.get d with
          | none => rfl
          | some x =>
            -- it is still there, so the queue stopped before it: that was reported
            have hgo : report.stopped = false := by
              simp only [conflictFor, hx, hstopped] at hfree
              cases hst : report.stopped <;> simp_all
            obtain ⟨r, hs, -⟩ := hold hlt hx
            rw [hi.deleted.through report (.inr ⟨objects, hp⟩) hgo d hbegun] at hs
            cases hs

/-! ### Every step -/

theorem DeedInv.step (hi : DeedInv s h) (hone : OneClient a) (hfresh : FreshUid C s a)
    (hok : DropsUnsent s a) (hs : step C R s a = some t) : DeedInv t (noteDeed s a t h) := by
  cases a with
  | create f | update id readAt f | setCompleted id completed stop now =>
    unfold TaskSync.step at hs
    obtain ⟨t', ht', rfl⟩ := map_eq_some_iff.mp hs
    exact hi.edit (editTasks_local ht')
  | deleteTask id =>
    cases hs
    exact hi.delete hok
  | remotePut | remoteDelete | resolveStart | resolveGet | resolveFail | resolveFinish => cases hone
  | startSync now =>
    simp only [TaskSync.step, syncStep] at hs
    split at hs
    · cases hs
      exact hi.startSync now
    · cases hs
  | pushNext uid =>
    simp only [TaskSync.step, syncStep] at hs
    split at hs
    · rename_i p hp
      cases hs
      exact hi.turn hp hfresh hok (pushNext_turn C s.tasks p uid)
    · cases hs
  | serve tell gone =>
    simp only [TaskSync.step, syncStep] at hs
    split at hs
    · rename_i p r hp
      cases hs
      exact hi.serve hp (serve_served s.server r tell gone) tell gone
    · cases hs
  | answer =>
    simp only [TaskSync.step, syncStep] at hs
    split at hs
    · rename_i p r w hp
      cases hs
      exact hi.answer hp rfl
    · cases hs
  | lose =>
    cases hs
    exact ⟨hi.places.same rfl rfl, QueueInv.outside rfl (by simp), hi.deleted.idle none⟩
  | fetch hidden =>
    simp only [TaskSync.step, syncStep] at hs
    split at hs
    · rename_i report hp
      cases hs
      exact hi.fetch hp hidden
    · cases hs
  | reconcile =>
    simp only [TaskSync.step, syncStep] at hs
    split at hs
    · rename_i objects report hp
      cases hs
      exact hi.reconcile hp rfl
    · cases hs

end Inv

/-- **A deletion is not undone by a sync**, in every state reached by a run of edits, deletions and
syncs in which a row without an `ETag` is dropped only when nothing of it was sent. -/
theorem deletion_kept (C : Codec) (R : Recurrences ρ) (server : Server) (as : List (Action ρ)) (x : State × Deeds)
    (hok : AllSteps (deedStep C R) (fun y a => OneClient a ∧ FreshUid C y.1 a ∧ DropsUnsent y.1 a)
      (State.init server, Deeds.empty) as)
    (hrun : run (deedStep C R) (State.init server, Deeds.empty) as = some x) : Buried x := by
  have hstep : ∀ (y : State × Deeds) (a : Action ρ) (z : State × Deeds), DeedInv y.1 y.2 →
      OneClient a ∧ FreshUid C y.1 a ∧ DropsUnsent y.1 a → deedStep C R y a = some z →
      DeedInv z.1 z.2 := by
    intro y a z hi hk hs
    obtain ⟨hz, hobs⟩ := watched_some hs
    rw [hobs]
    exact hi.step hk.1 hk.2.1 hk.2.2 hz
  exact (run_invariant hstep (DeedInv.init server) hok hrun).buried

/-- A task is sent, and deleted here together with one never sent; the next sync completes. -/
def deletingRun : List (Action Unit) :=
  [.create (titled "bread"), .startSync 0, .pushNext "/b.ics", .serve true true, .answer,
    .pushNext "/x.ics", .fetch [], .reconcile, .create (titled "milk"), .deleteTask 0,
    .deleteTask 1, .startSync 1, .pushNext "/c.ics", .serve true true, .answer,
    .pushNext "/d.ics", .fetch [], .reconcile]

theorem deletingRun_buried : ∃ x, run (deedStep titleCodec noRules) (State.init Server.empty, Deeds.empty) deletingRun = some x ∧
      0 ∈ x.2.cleared ∧ Buried x := by
  have hend : (run (deedStep titleCodec noRules) (State.init Server.empty, Deeds.empty)
      deletingRun).any (fun x => 0 ∈ x.2.cleared) = true := by
    decide +kernel
  obtain ⟨x, hx, hclear⟩ := (Option.any_eq_true _ _).mp hend
  exact ⟨x, hx, of_decide_eq_true hclear, deletion_kept titleCodec noRules Server.empty deletingRun x (by decide +kernel) hx⟩

end Oreneta.TaskSync

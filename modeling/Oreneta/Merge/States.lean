import Oreneta.Lib.Runs
import Oreneta.Merge.Batches

/-!
# Batch states and item states over whole runs

A run is any order of `create`, `claimNext`, `settle`, `cancel`, `resume` and `recover`; in between,
whatever sends the messages may write anything into `outgoing_attempts`.

* `Agrees` — a cancelled batch with nothing on its way has nothing pending, and a finished batch has
  nothing pending and nothing on its way.
* `deferred_after_cancel`, `claimed_twice_is_done` — the runs on which the code breaks it: `settle`
  and `recover` put a message back in line without looking at the state of its batch, and `claimNext`
  takes "nothing pending" for "nothing left".
* `batch_states_agree` — in every run in which no message is put back in line in a batch that was
  stopped or is finished, and no batch is asked for its next message while its last one is on its
  way, the states agree in every state reached, and no message of a cancelled batch is ever claimed.
-/

namespace Oreneta.Merge

open Oreneta.Store.Outgoing Oreneta.Runs Table List

/-- The operations a run is made of. -/
inductive Op where
  | create (id account fromAddr subjectTemplate : String) (preview : Preview) (reviewed : Nat)
      (spacing now : Int)
  | claimNext (id : String) (now : Int)
  | settle (id : String) (index : Nat) (outcome : Outcome) (now : Int)
  | cancel (id : String) (now : Int)
  | resume (id : String) (retryRejected : Bool)
  | recover (now : Int)
  /-- What sending the messages leaves in `outgoing_attempts`. -/
  | attempts (t : Attempts)
  deriving Repr

/-- One operation; one that fails leaves the tables as they were. -/
def Op.apply (db : Db) : Op → Db
  | .create id account fromAddr template preview reviewed spacing now =>
    match Merge.create db id account fromAddr template preview reviewed spacing now with
    | .ok db' => db'
    | .error _ => db
  | .claimNext id now => (Merge.claimNext db id now).2
  | .settle id index outcome now => Merge.settle db id index outcome now
  | .cancel id now => Merge.cancel db id now
  | .resume id retryRejected =>
    match Merge.resume db id retryRejected with
    | .ok db' => db'
    | .error _ => db
  | .recover now => (Merge.recover db now).2
  | .attempts t => { db with attempts := t }

def step (db : Db) (op : Op) : Option Db := some (op.apply db)

/-- The states of a batch and of its items agree. -/
def Agrees (db : Db) : Prop :=
  ∀ b ∈ db.batches,
    (b.state = .cancelled → (∀ i ∈ itemsOf db b.id, i.state ≠ .sending) →
      ∀ i ∈ itemsOf db b.id, i.state ≠ .pending) ∧
    (b.state = .done → ∀ i ∈ itemsOf db b.id, i.state ≠ .pending ∧ i.state ≠ .sending)

instance (db : Db) : Decidable (Agrees db) :=
  inferInstanceAs (Decidable (∀ b ∈ db.batches,
    (b.state = .cancelled → (∀ i ∈ itemsOf db b.id, i.state ≠ .sending) →
      ∀ i ∈ itemsOf db b.id, i.state ≠ .pending) ∧
    (b.state = .done → ∀ i ∈ itemsOf db b.id, i.state ≠ .pending ∧ i.state ≠ .sending)))

/-! ## Where the code breaks it -/

/-- A preview of one message, ready to go. -/
def onePreview : Preview :=
  ⟨[⟨0, 1, "ana@example.com", "Ana", "Hello", "Hello Ana", []⟩], [], true⟩

/-- **A message refused for now after the mailing was stopped is pending again**: it was claimed,
the mailing cancelled, and the server's 4xx answer then puts it back in line for good. -/
theorem deferred_after_cancel : ∃ db, run step Db.empty
      [.create "m" "acct" "me@example.com" "Hello" onePreview 1 3 0, .claimNext "m" 1,
        .cancel "m" 2, .settle "m" 0 (.deferred "451 try again later") 3] = some db ∧
      ¬ Agrees db := by
  exact ⟨_, rfl, by decide⟩

/-- A batch asked for its next message while its last one is on its way is marked done. -/
theorem claimed_twice_is_done : ∃ db, run step Db.empty
      [.create "m" "acct" "me@example.com" "Hello" onePreview 1 3 0, .claimNext "m" 1,
        .claimNext "m" 2] = some db ∧ ¬ Agrees db := by
  exact ⟨_, rfl, by decide⟩

/-! ## When the states agree -/

/-- The batch of an item that goes back in line is neither stopped nor finished. -/
def Open (db : Db) (id : String) : Prop :=
  ∀ b ∈ db.batches, b.id = id → b.state ≠ .cancelled ∧ b.state ≠ .done

instance (db : Db) (id : String) : Decidable (Open db id) :=
  inferInstanceAs (Decidable (∀ b ∈ db.batches, b.id = id → b.state ≠ .cancelled ∧ b.state ≠ .done))

/-- The condition on a step: no message is put back in line in a batch that was stopped or is
finished, and a batch is asked for its next message only when none of it is on its way, unless one
is pending. -/
def InOrder (db : Db) : Op → Prop
  | .claimNext id _ =>
    (∀ i ∈ db.items, i.batchId = id → i.state ≠ .pending) →
      ∀ i ∈ db.items, i.batchId = id → i.state ≠ .sending
  | .settle id _ (.deferred _) _ => Open db id
  | .recover _ =>
    ∀ i ∈ db.items, i.state = .sending → stateOf db.attempts i.messageId = none → Open db i.batchId
  | _ => True

instance : ∀ (db : Db) (op : Op), Decidable (InOrder db op)
  | db, .claimNext id _ => inferInstanceAs (Decidable
      ((∀ i ∈ db.items, i.batchId = id → i.state ≠ .pending) →
        ∀ i ∈ db.items, i.batchId = id → i.state ≠ .sending))
  | db, .settle id _ (.deferred _) _ => inferInstanceAs (Decidable (Open db id))
  | db, .recover _ => inferInstanceAs (Decidable (∀ i ∈ db.items, i.state = .sending →
      stateOf db.attempts i.messageId = none → Open db i.batchId))
  | _, .create .. | _, .cancel .. | _, .resume .. | _, .attempts .. => isTrue trivial
  | _, .settle _ _ .accepted _ | _, .settle _ _ (.rejected _) _ | _, .settle _ _ (.uncertain _) _ =>
    isTrue trivial

/-- The invariant of the runs that keep to `InOrder`. -/
structure StatesInv (db : Db) : Prop where
  batchesKeyed : Keyed Batch.id db.batches
  itemsKeyed : Keyed Item.key db.items
  owned : ∀ i ∈ db.items, ∃ b ∈ db.batches, b.id = i.batchId
  cancelled : ∀ b ∈ db.batches, b.state = .cancelled →
    ∀ i ∈ db.items, i.batchId = b.id → i.state ≠ .pending
  done : ∀ b ∈ db.batches, b.state = .done →
    ∀ i ∈ db.items, i.batchId = b.id → i.state ≠ .pending ∧ i.state ≠ .sending

variable {db : Db}

theorem StatesInv.agrees (h : StatesInv db) : Agrees db := by
  intro b hb
  refine ⟨fun hc _ i hi => ?_, fun hd i hi => ?_⟩
  · obtain ⟨hm, hid⟩ := mem_itemsOf.mp hi
    exact h.cancelled b hb hc i hm hid
  · obtain ⟨hm, hid⟩ := mem_itemsOf.mp hi
    exact h.done b hb hd i hm hid

theorem StatesInv.empty (t : Attempts) : StatesInv ⟨[], [], t⟩ :=
  ⟨by simp [Keyed], by simp [Keyed], by simp, by simp, by simp⟩

theorem StatesInv.attempts {db : Db} (h : StatesInv db) (t : Attempts) : StatesInv { db with attempts := t } :=
  ⟨h.batchesKeyed, h.itemsKeyed, h.owned, h.cancelled, h.done⟩

/-- The state of a batch read through its key. -/
theorem StatesInv.state_eq (h : StatesInv db) {b : Batch} (hb : b ∈ db.batches)
    {s : BatchState} (hs : batchState db b.id = some s) : b.state = s := by
  unfold batchState at hs
  rw [h.batchesKeyed.lookup_of_mem hb] at hs
  simpa using hs

/-- **Rewriting items keeps the invariant** when no item becomes pending in a batch that is
stopped or finished, and none is put on its way in a finished one. -/
theorem StatesInv.mapItems (h : StatesInv db) {f : Item → Item} (hkey : ∀ i, (f i).key = i.key)
    (hpend : ∀ i ∈ db.items, (f i).state = .pending → i.state = .pending ∨ Open db i.batchId)
    (hsend : ∀ i ∈ db.items, (f i).state = .sending →
      i.state = .sending ∨ batchState db i.batchId = some .sending) : StatesInv { db with items := db.items.map f } := by
  have hid : ∀ i, (f i).batchId = i.batchId := fun i => congrArg Prod.fst (hkey i)
  refine ⟨h.batchesKeyed, ?_, ?_, ?_, ?_⟩
  · unfold Keyed
    rw [map_map]
    have : Item.key ∘ f = Item.key := by funext i; exact hkey i
    rw [this]
    exact h.itemsKeyed
  · intro i hi
    obtain ⟨j, hj, rfl⟩ := mem_map.mp hi
    rw [hid]
    exact h.owned j hj
  · intro b hb hc i hi hbi hp
    obtain ⟨j, hj, rfl⟩ := mem_map.mp hi
    rw [hid] at hbi
    rcases hpend j hj hp with hp' | hopen
    · exact h.cancelled b hb hc j hj hbi hp'
    · exact (hopen b hb hbi.symm).1 hc
  · intro b hb hd i hi hbi
    obtain ⟨j, hj, rfl⟩ := mem_map.mp hi
    rw [hid] at hbi
    obtain ⟨hnp, hns⟩ := h.done b hb hd j hj hbi
    refine ⟨fun hp => ?_, fun hs => ?_⟩
    · rcases hpend j hj hp with hp' | hopen
      · exact hnp hp'
      · exact (hopen b hb hbi.symm).2 hd
    · rcases hsend j hj hs with hs' | hsb
      · exact hns hs'
      · rw [hbi] at hsb
        rw [h.state_eq hb hsb] at hd
        cases hd

/-- **Changing batches keeps the invariant** when a batch that becomes stopped has nothing
pending, and one that becomes finished nothing pending and nothing on its way. -/
theorem StatesInv.mapBatches (h : StatesInv db) {f : Batch → Batch} (hid : ∀ b, (f b).id = b.id)
    (hc : ∀ b ∈ db.batches, (f b).state = .cancelled → b.state = .cancelled)
    (hd : ∀ b ∈ db.batches, (f b).state = .done → b.state = .done ∨
      ∀ i ∈ db.items, i.batchId = b.id → i.state ≠ .pending ∧ i.state ≠ .sending) :
    StatesInv { db with batches := db.batches.map f } := by
  refine ⟨?_, h.itemsKeyed, ?_, ?_, ?_⟩
  · unfold Keyed
    rw [map_map]
    have : Batch.id ∘ f = Batch.id := by funext b; exact hid b
    rw [this]
    exact h.batchesKeyed
  · intro i hi
    obtain ⟨b, hb, hbi⟩ := h.owned i hi
    exact ⟨f b, mem_map_of_mem hb, by rw [hid, hbi]⟩
  · intro b hb hst i hi hbi
    obtain ⟨b', hb', rfl⟩ := mem_map.mp hb
    rw [hid] at hbi
    exact h.cancelled b' hb' (hc b' hb' hst) i hi hbi
  · intro b hb hst i hi hbi
    obtain ⟨b', hb', rfl⟩ := mem_map.mp hb
    rw [hid] at hbi
    rcases hd b' hb' hst with hd' | hnone
    · exact h.done b' hb' hd' i hi hbi
    · exact hnone i hi hbi

/-! ### One step -/

variable {id : String} {now : Int}

theorem StatesInv.create {db' : Db} (h : StatesInv db)
    {account fromAddr template : String} {preview : Preview} {reviewed : Nat} {spacing : Int}
    (hok : Merge.create db id account fromAddr template preview reviewed spacing now = .ok db') : StatesInv db' := by
  unfold Merge.create at hok
  split at hok
  · cases hok
  split at hok
  · cases hok
  simp only at hok
  split at hok
  · cases hok
  rename_i hfresh
  split at hok
  · cases hok
  rename_i hkeys
  cases hok
  -- the items of the new batch are the new ones: an item's batch exists, and this id is new
  have hnew : ∀ i ∈ db.items, i.batchId ≠ id := by
    intro i hi hbi
    obtain ⟨b, hb, hbid⟩ := h.owned i hi
    exact hfresh (mem_map.mpr ⟨b, hb, by rw [hbid, hbi]⟩)
  have hbatch : ∀ i ∈ preview.messages.map (newItem id (domainOf fromAddr) now), i.batchId = id ∧ i.state = .pending := by
    intro i hi
    obtain ⟨m, _, rfl⟩ := mem_map.mp hi
    exact ⟨rfl, rfl⟩
  -- an old batch that is stopped or finished keeps exactly the items it had
  have hold : ∀ b ∈ db.batches, ∀ i ∈ db.items ++ preview.messages.map
      (newItem id (domainOf fromAddr) now), i.batchId = b.id → i ∈ db.items := by
    intro b hb i hi hbi
    rcases mem_append.mp hi with hi | hi
    · exact hi
    · exact absurd (mem_map.mpr ⟨b, hb, by rw [← hbi, (hbatch i hi).1]⟩) hfresh
  refine ⟨?_, by simpa [Keyed] using hkeys, ?_, ?_, ?_⟩
  · apply h.batchesKeyed.append (by simp [Keyed])
    intro a ha b hb
    rw [mem_singleton.mp hb]
    exact fun heq => hfresh (mem_map.mpr ⟨a, ha, heq⟩)
  · intro i hi
    rcases mem_append.mp hi with hi | hi
    · obtain ⟨b, hb, hbi⟩ := h.owned i hi
      exact ⟨b, mem_append_left _ hb, hbi⟩
    · exact ⟨_, mem_append_right _ (mem_singleton.mpr rfl), (hbatch i hi).1.symm⟩
  · intro b hb hst i hi hbi
    rcases mem_append.mp hb with hb | hb
    · exact h.cancelled b hb hst i (hold b hb i hi hbi) hbi
    · rw [mem_singleton.mp hb] at hst
      cases hst
  · intro b hb hst i hi hbi
    rcases mem_append.mp hb with hb | hb
    · exact h.done b hb hst i (hold b hb i hi hbi) hbi
    · rw [mem_singleton.mp hb] at hst
      cases hst

theorem StatesInv.claimNext (h : StatesInv db)
    (hok : InOrder db (.claimNext id now)) : StatesInv (Merge.claimNext db id now).2 := by
  rcases claimNext_cases db id now with ⟨_, he⟩ | ⟨hs, item, _, _, _, he⟩ | ⟨_, hnone, he⟩
  · rw [he]; exact h
  · rw [he]
    apply h.mapItems
    · intro i; split <;> rfl
    · intro i _ hp
      split at hp
      · cases hp
      · exact .inl hp
    · intro i _ hp
      split at hp
      · rename_i hk
        simp only [decide_eq_true_eq] at hk
        exact .inr (by rw [hk.1]; exact hs)
      · exact .inl hp
  · rw [he]
    have hsend := hok hnone
    apply h.mapBatches
    · intro b; split <;> rfl
    · intro b _ hst
      split at hst
      · cases hst
      · exact hst
    · intro b _ hst
      split at hst
      · rename_i hk
        simp only [decide_eq_true_eq] at hk
        exact .inr fun i hi hbi => ⟨hnone i hi (hbi.trans hk), hsend i hi (hbi.trans hk)⟩
      · exact .inl hst

theorem StatesInv.settle (h : StatesInv db) {index : Nat} {outcome : Outcome} (hok : InOrder db (.settle id index outcome now)) :
    StatesInv (Merge.settle db id index outcome now) := by
  have hitems : StatesInv (updateItem db id index (fun i =>
      { i with state := outcome.itemState, error := outcome.error, updatedAt := now })) := by
    apply h.mapItems
    · intro i; split <;> rfl
    · intro i _ hp
      split at hp
      · rename_i hk
        simp only [decide_eq_true_eq] at hk
        cases outcome with
        | deferred e => exact .inr (by rw [hk.1]; exact hok)
        | accepted => cases hp
        | rejected e => cases hp
        | uncertain e => cases hp
      · exact .inl hp
    · intro i _ hp
      split at hp
      · cases outcome <;> cases hp
      · exact .inl hp
  cases outcome with
  | deferred e =>
    apply hitems.mapBatches
    · intro b; split <;> rfl
    · intro b _ hst
      split at hst
      · cases hst
      · exact hst
    · intro b _ hst
      split at hst
      · cases hst
      · exact .inl hst
  | accepted => exact hitems
  | rejected e => exact hitems
  | uncertain e => exact hitems

theorem StatesInv.cancel (h : StatesInv db) : StatesInv (Merge.cancel db id now) := by
  -- the items first: then the batch that becomes cancelled has nothing pending
  have hitems : StatesInv { db with
      items := Table.update (fun i => i.batchId = id ∧ i.state = .pending)
        (fun i => { i with state := .cancelled, updatedAt := now }) db.items } := by
    apply h.mapItems
    · intro i; split <;> rfl
    · intro i _ hp
      split at hp
      · cases hp
      · exact .inl hp
    · intro i _ hp
      split at hp
      · cases hp
      · exact .inl hp
  have hnone : ∀ i ∈ Table.update (fun i => i.batchId = id ∧ i.state = .pending)
      (fun i : Item => { i with state := .cancelled, updatedAt := now }) db.items,
      i.batchId = id → i.state ≠ .pending := by
    intro i hi hbi hp
    obtain ⟨j, _, rfl⟩ := mem_update.mp hi
    split at hp
    · cases hp
    · rename_i hk
      split at hbi
      · contradiction
      · exact hk (by simp [hbi, hp])
  refine ⟨?_, hitems.itemsKeyed, ?_, ?_, ?_⟩
  · exact h.batchesKeyed.update (by intro b; rfl)
  · intro i hi
    obtain ⟨b, hb, hbi⟩ := hitems.owned i hi
    refine ⟨_, mem_map_of_mem hb, ?_⟩
    split <;> exact hbi
  · intro b hb hst i hi hbi
    obtain ⟨b', hb', rfl⟩ := mem_update.mp hb
    split at hst
    · rename_i hk
      simp only [decide_eq_true_eq] at hk
      rw [if_pos (by simp [hk])] at hbi
      exact hnone i hi (hbi.trans hk)
    · rename_i hk
      rw [if_neg hk] at hbi
      exact hitems.cancelled b' hb' hst i hi hbi
  · intro b hb hst i hi hbi
    obtain ⟨b', hb', rfl⟩ := mem_update.mp hb
    split at hst
    · cases hst
    · rename_i hk
      rw [if_neg hk] at hbi
      exact hitems.done b' hb' hst i hi hbi

theorem StatesInv.resume {db' : Db} (h : StatesInv db) {retryRejected : Bool}
    (hok : Merge.resume db id retryRejected = .ok db') : StatesInv db' := by
  unfold Merge.resume at hok
  split at hok
  · cases hok
    have hb : StatesInv { db with
        batches := Table.update (fun b => b.id = id ∧ (b.state = .paused ∨ b.state = .done))
          (fun b => { b with state := .sending, reason := "" }) db.batches } := by
      apply h.mapBatches
      · intro b; split <;> rfl
      · intro b _ hst
        split at hst
        · cases hst
        · exact hst
      · intro b _ hst
        split at hst
        · cases hst
        · exact .inl hst
    cases retryRejected with
    | false => exact hb
    | true =>
      rename_i hany
      -- the batch reopened is the only one with this id, so no batch with it is stopped
      have hopen : Open { db with
          batches := Table.update (fun b => b.id = id ∧ (b.state = .paused ∨ b.state = .done))
            (fun b => { b with state := .sending, reason := "" }) db.batches } id := by
        intro b hmem hbid
        obtain ⟨c, hc, hcid⟩ := any_eq_true.mp hany
        obtain ⟨b', hb', rfl⟩ := mem_update.mp hmem
        have hsame : b'.id = id := by
          split at hbid <;> exact hbid
        have hcb : c = b' := inj_on_of_nodup_map h.batchesKeyed hc hb' (by
          simp only [decide_eq_true_eq] at hcid
          rw [hcid.1, hsame])
        subst hcb
        rw [if_pos hcid]
        exact ⟨by simp, by simp⟩
      apply hb.mapItems
      · intro i; split <;> rfl
      · intro i _ hp
        split at hp
        · rename_i hk
          simp only [decide_eq_true_eq] at hk
          exact .inr (by rw [hk.1]; exact hopen)
        · exact .inl hp
      · intro i _ hp
        split at hp
        · cases hp
        · exact .inl hp
  · cases hok

theorem recoverRow_pending {a : Option AttemptState} {i : Item} (h : (recoverRow now a i).state = .pending) : a = none := by
  unfold recoverRow at h
  split at h
  all_goals first | rfl | cases h

theorem recoverRow_not_sending {a : Option AttemptState} {i : Item} : (recoverRow now a i).state ≠ .sending := by
  unfold recoverRow
  split <;> simp

theorem StatesInv.recover (h : StatesInv db) (hok : InOrder db (.recover now)) : StatesInv (Merge.recover db now).2 := by
  have hitems : StatesInv { db with items := db.items.map (fun i =>
      if i.state = .sending then recoverRow now (stateOf db.attempts i.messageId) i else i) } := by
    apply h.mapItems
    · intro i
      split
      · exact recoverRow_key _ _
      · rfl
    · intro i hi hp
      split at hp
      · rename_i hs
        exact .inr (hok i hi hs (recoverRow_pending hp))
      · exact .inl hp
    · intro i _ hp
      split at hp
      · exact absurd hp recoverRow_not_sending
      · exact .inl hp
  have he : (Merge.recover db now).2 = { db with
      items := db.items.map (fun i =>
        if i.state = .sending then recoverRow now (stateOf db.attempts i.messageId) i else i)
      batches := Table.update (fun b => b.state = .sending)
        (fun b => { b with state := .paused, reason := "Oreneta stopped while this was being sent" })
        db.batches } := by
    rw [← recover_items h.itemsKeyed, ← recover_batches, ← recover_attempts]
  rw [he]
  apply hitems.mapBatches
  · intro b; split <;> rfl
  · intro b _ hst
    split at hst
    · cases hst
    · exact hst
  · intro b _ hst
    split at hst
    · cases hst
    · exact .inl hst

/-- One step that keeps to `InOrder` keeps the invariant. -/
theorem StatesInv.step {db' : Db} {op : Op} (h : StatesInv db) (hok : InOrder db op)
    (hs : Merge.step db op = some db') : StatesInv db' := by
  simp only [Merge.step, Option.some.injEq] at hs
  subst hs
  cases op with
  | create id account fromAddr template preview reviewed spacing now =>
    simp only [Op.apply]
    split
    · rename_i hc; exact h.create hc
    · exact h
  | claimNext id now => exact h.claimNext hok
  | settle id index outcome now => exact h.settle hok
  | cancel id now => exact h.cancel
  | resume id retryRejected =>
    simp only [Op.apply]
    split
    · rename_i hc; exact h.resume hc
    · exact h
  | recover now => exact h.recover hok
  | attempts t => exact h.attempts t

/-! ### Whole runs -/

/-- **Batch states agree with item states** in every state reached by a run that keeps to
`InOrder`, and whatever `claimNext` then returns belongs to a batch that is sending. -/
theorem batch_states_agree {t : Attempts} {ops : List Op} {db : Db}
    (hok : AllSteps step InOrder ⟨[], [], t⟩ ops) (hr : run step ⟨[], [], t⟩ ops = some db) :
    Agrees db ∧ ∀ id now item db', claimNext db id now = (some item, db') →
      ∀ b ∈ db.batches, b.id = item.batchId → b.state ≠ .cancelled := by
  have hinv : StatesInv db :=
    run_invariant (fun _ _ _ hi hk hs => hi.step hk hs) (StatesInv.empty t) hok hr
  refine ⟨hinv.agrees, ?_⟩
  intro id now item db' hc b hb hbid
  rcases claimNext_cases db id now with ⟨_, he⟩ | ⟨hs, it, _, hit, _, he⟩ | ⟨_, _, he⟩
  · rw [he] at hc; cases hc
  · rw [he] at hc
    cases hc
    rw [← hit, ← hbid] at hs
    rw [hinv.state_eq hb hs]
    simp
  · rw [he] at hc; cases hc

/-- A mailing that goes as it should: its one message is deferred, the person carries on, and it
is accepted. -/
def deferredThenAccepted : List Op :=
  [.create "m" "acct" "me@example.com" "Hello" onePreview 1 3 0, .claimNext "m" 1,
    .settle "m" 0 (.deferred "451 try again later") 2, .resume "m" false, .claimNext "m" 3,
    .settle "m" 0 .accepted 4, .claimNext "m" 5]

theorem deferredThenAccepted_agrees : ∃ db, run step Db.empty deferredThenAccepted = some db ∧ Agrees db := by
  have hok : AllSteps step InOrder ⟨[], [], []⟩ deferredThenAccepted := by decide
  exact ⟨_, rfl, (batch_states_agree hok rfl).1⟩

end Oreneta.Merge

import Oreneta.Graph.Projected

/-!
# Rounds are all or nothing

An observer of a run writes down, of each folder, whether its round began without a checkpoint and what the pages
that were taken in said of each item (`Heard`).  He looks only at what the source was asked and answered, and at
what the calls returned.

* `Inv` — the rows staged of a folder are what its pages said last, and the call in flight has staged what its
  page said as far as it has got.
* `inv_step` — every step keeps it.
* `rounds_refine` — in every run from a new profile: cached messages are members, numbers are for ever, nothing
  that is shown changes but by a call that returns that its round is complete, and then the folder holds what the
  round says.
-/

namespace Oreneta.Graph

open Text Table Runs List Option Bool

/-! ## What is heard -/

/-- Of a round: whether it began without a checkpoint, and what was said of which item, the last last. -/
structure Heard where
  full : Bool
  said : List (Str × Bool)
  deriving DecidableEq, Repr

structure Seen where
  /-- The rounds under way, by folder. -/
  rounds : Str → Option Heard
  /-- The page the call in flight was answered with. -/
  page : List (Str × Bool)

def Seen.nothing : Seen := ⟨fun _ => none, []⟩

/-- Whether an item of a page is removed. -/
def occurrence (m : Message) : Str × Bool := (m.id.opaqueId, m.fields.removed.isSome)

/-- The round of the folder with the page the call was answered with. -/
def Seen.heard (seen : Seen) (call : Call) : Heard :=
  match seen.rounds call.remote with
  | some h => { h with said := h.said ++ seen.page }
  | none => ⟨call.checkpoint.isNone, seen.page⟩

def Seen.put (seen : Seen) (remote : Str) (h : Option Heard) : Seen :=
  { seen with rounds := fun x => if x = remote then h else seen.rounds x }

section

variable (C : Client) (account : Str)

def watch (s : State) (a : Action) (_ : State) (seen : Seen) : Seen :=
  match s.call with
  | none => seen
  | some call =>
    match returned C account s a, a with
    | none, .answer (.ok page) => { seen with page := page.items.map occurrence }
    | some (.ok true), _ => seen.put call.remote none
    | some (.ok false), _ => seen.put call.remote (some (seen.heard call))
    | some (.error .resyncRequired), .answer (.error .resyncRequired) => seen.put call.remote none
    | _, _ => seen

end

/-! ## The invariant -/

/-- How far a call has got with its page: `done` of it is staged. -/
structure Reads (remote : Str) (page : List (Str × Bool)) (staged : List Staged) (rest : List Message) : Prop where
  folder : ∀ s ∈ staged, s.folderId = remote
  said : ∃ done, page = done ++ rest.map occurrence ∧
    ∀ x, Log.last (staged.map (fun s => (s.remoteId, s.removed))) x = Log.last done x

def StageOk (remote : Str) (page : List (Str × Bool)) : Stage → Prop
  | .asked => True
  | .reading rest _ staged => Reads remote page staged rest
  | .merged _ item rest _ staged => item.fields.removed.isSome = false ∧ Reads remote page staged (item :: rest)
  | .fetching item rest _ staged => item.fields.removed.isSome = false ∧ Reads remote page staged (item :: rest)

structure CallOk (db : Db) (seen : Seen) (call : Call) : Prop where
  folder : ∃ f ∈ db.folders, f.active = true ∧ f.localName = call.folder ∧ f.remoteId = call.remote
  full : call.full = (seen.heard call).full
  stage : StageOk call.remote seen.page call.stage

/-- What is staged of an item is what the round's pages said of it last. -/
def StagedOk (db : Db) (rounds : Str → Option Heard) : Prop :=
  ∀ folderId, (db.round folderId).map Round.full = (rounds folderId).map Heard.full ∧
    ∀ x, (db.stagedItem folderId x).map Staged.removed = (rounds folderId).elim none (fun h => Log.last h.said x)

structure Inv (s : State) (seen : Seen) : Prop where
  sound : Sound s.db
  staged : StagedOk s.db seen.rounds
  call : ∀ call, s.call = some call → CallOk s.db seen call

theorem Sound.of_same {db after : Db} (h : Sound db) (hf : after.folders = db.folders) (hi : after.items = db.items)
    (hm : after.memberships = db.memberships) (hc : after.messages = db.messages)
    (hs : Keyed Staged.key after.staged) : Sound after where
  folders := by
    rw [hf]
    exact h.folders
  names := by
    rw [hf]
    exact h.names
  items := by
    rw [hi]
    exact h.items
  uids := by
    rw [hi]
    exact h.uids
  known := by
    unfold Db.Member Db.uidOf Db.item
    rw [hm, hi]
    exact h.known
  staged := hs
  cached := by
    unfold Db.IsCached Db.Member Db.uidOf Db.item
    rw [hf, hi, hm, hc]
    exact h.cached

/-! ## The parts of a step -/

section Parts

variable {db : Db} {remote : Str}

theorem round_clearRound (x : Str) : (db.clearRound remote).round x = if x = remote then none else db.round x := by
  unfold Db.round Db.clearRound
  by_cases hx : x = remote
  · rw [if_pos hx, lookup_eq_none]
    intro r hr
    rw [hx]
    simpa using of_mem_filter hr
  · rw [if_neg hx]
    unfold Table.lookup
    rw [find?_filter]
    congr 1
    funext r
    by_cases hr : r.folderId = x <;> simp [hr, hx]

theorem stagedItem_clearRound (g x : Str) :
    (db.clearRound remote).stagedItem g x = if g = remote then none else db.stagedItem g x := by
  unfold Db.stagedItem Db.clearRound
  by_cases hg : g = remote
  · rw [if_pos hg, lookup_eq_none]
    intro s hs hk
    have hne : s.folderId ≠ remote := by simpa using of_mem_filter hs
    exact hne ((congrArg Prod.fst hk).trans hg)
  · rw [if_neg hg]
    unfold Table.lookup
    rw [find?_filter]
    congr 1
    funext s
    by_cases hk : s.key = (g, x)
    · have hs : s.folderId = g := congrArg Prod.fst hk
      simp [hk, hs, hg]
    · simp [hk]

/-- A round that is over leaves nothing staged, and the rounds of other folders as they are. -/
theorem StagedOk.clearRound {seen : Seen} (h : StagedOk db seen.rounds) :
    StagedOk (db.clearRound remote) (seen.put remote none).rounds := by
  intro folderId
  unfold Seen.put
  rw [round_clearRound]
  by_cases hf : folderId = remote
  · simp [hf, stagedItem_clearRound]
  · simp only [if_neg hf, stagedItem_clearRound]
    exact h folderId

theorem Sound.clearRound (h : Sound db) (remote : Str) : Sound (db.clearRound remote) :=
  h.of_same rfl rfl rfl rfl (h.staged.filter _)

theorem stagedItem_putStaged (s : Staged) (g x : Str) : (db.putStaged s).stagedItem g x =
    if (g, x) = s.key then some ((db.stagedItem g x).elim s fun old => { old with fields := s.fields, removed := s.removed })
      else db.stagedItem g x := by
  unfold Db.stagedItem Db.putStaged
  exact lookup_upsert fun _ => rfl

/-- What a page staged overrides what was staged before. -/
theorem stagedItem_foldl_putStaged : ∀ {staged : List Staged} {db : Db}, (∀ s ∈ staged, s.folderId = remote) →
    ∀ g x, ((staged.foldl Db.putStaged db).stagedItem g x).map Staged.removed =
      if g = remote then (Log.last (staged.map (fun s => (s.remoteId, s.removed))) x).or
        ((db.stagedItem g x).map Staged.removed) else (db.stagedItem g x).map Staged.removed
  | [], db, _, g, x => by simp [Log.last_nil]
  | s :: staged, db, h, g, x => by
    obtain ⟨hs, hrest⟩ := forall_mem_cons.mp h
    have hput : ((db.putStaged s).stagedItem g x).map Staged.removed =
        if g = remote ∧ x = s.remoteId then some s.removed else (db.stagedItem g x).map Staged.removed := by
      rw [stagedItem_putStaged]
      have hkey : (g, x) = s.key ↔ g = remote ∧ x = s.remoteId := by
        rw [Staged.key, hs, Prod.mk.injEq]
      by_cases hk : (g, x) = s.key
      · rw [if_pos hk, if_pos (hkey.mp hk)]
        cases db.stagedItem g x <;> rfl
      · rw [if_neg hk, if_neg fun hh => hk (hkey.mpr hh)]
    rw [foldl_cons, stagedItem_foldl_putStaged hrest, hput, map_cons, Log.last_cons]
    by_cases hg : g = remote
    · subst hg
      rw [if_pos rfl, if_pos rfl, Option.or_assoc]
      by_cases hx : x = s.remoteId
      · simp [hx]
      · have hx' : ¬ s.remoteId = x := fun hh => hx hh.symm
        simp [hx, hx']
    · simp [hg]

theorem foldl_putStaged_frame : ∀ (staged : List Staged) (db : Db),
    staged.foldl Db.putStaged db = { db with staged := (staged.foldl Db.putStaged db).staged }
  | [], _ => rfl
  | s :: staged, db => by
    rw [foldl_cons]
    exact foldl_putStaged_frame staged (db.putStaged s)

theorem foldl_putStaged_keyed : ∀ {staged : List Staged} {db : Db}, Keyed Staged.key db.staged →
    Keyed Staged.key (staged.foldl Db.putStaged db).staged
  | [], _, h => h
  | s :: staged, db, h => by
    rw [foldl_cons]
    exact foldl_putStaged_keyed (h.upsert (fun _ => rfl))

theorem addLink_ok {next : Checkpoint} {after : Db} (h : db.addLink remote next = .ok after) :
    after = { db with links := after.links } := by
  unfold Db.addLink at h
  split at h
  · split at h
    · cases h
    · cases h
      rfl
  · cases h
    rfl

theorem round_putRound (r : Round) (x : Str) : (db.putRound r).round x = if x = r.folderId then
    some ((db.round x).elim r fun old => { old with nextCheckpoint := r.nextCheckpoint }) else db.round x := by
  unfold Db.round Db.putRound
  exact lookup_upsert fun _ => rfl

end Parts

/-! ## Reading a page -/

section Reading

variable {C : Client} {account : Str} {db : Db} {call : Call} {seen : Seen}

theorem Reads.nil (remote : Str) (items : List Message) : Reads remote (items.map occurrence) [] items where
  folder _ hs := by cases hs
  said := ⟨[], rfl, fun _ => rfl⟩

theorem Reads.stage {page : List (Str × Bool)} {staged : List Staged} {item : Message} {rest : List Message}
    (h : Reads call.remote page staged (item :: rest)) (fields : Fields) {removed : Bool}
    (hr : item.fields.removed.isSome = removed) :
    Reads call.remote page (stage call staged item.id.opaqueId fields removed) rest where
  folder s hs := by
    unfold Graph.stage Table.insertOrReplace at hs
    rcases mem_append.mp hs with hs | hs
    · exact h.folder s (mem_of_mem_filter hs)
    · rw [mem_singleton.mp hs]
  said := by
    obtain ⟨done, hpage, hlast⟩ := h.said
    refine ⟨done ++ [occurrence item], by rw [hpage, map_cons, append_assoc]; rfl, fun x => ?_⟩
    unfold Graph.stage
    rw [Log.last_insertOrReplace, Log.last_append, Log.last_cons, Log.last_nil, none_or, hlast]
    unfold occurrence
    rw [hr]
    by_cases hx : item.id.opaqueId = x <;> simp [hx]

variable {item : Message} {rest : List Message} {st : Stage}

theorem accept_ok {fields : Fields} {next : Checkpoint} {staged : List Staged} (hr : item.fields.removed.isSome = false) (h : Reads call.remote seen.page staged (item :: rest))
    (ha : accept C call fields item rest next staged = .ok st) : StageOk call.remote seen.page st := by
  unfold accept at ha
  obtain ⟨_, -, ha⟩ := bind_ok.mp ha
  obtain ⟨_, -, ha⟩ := bind_ok.mp ha
  cases ha
  exact h.stage fields hr

theorem takeItem_ok {next : Checkpoint} {staged : List Staged} (h : Reads call.remote seen.page staged (item :: rest))
    (ht : takeItem account db call item rest next staged = .ok st) : StageOk call.remote seen.page st := by
  unfold takeItem at ht
  obtain ⟨_, -, ht⟩ := bind_ok.mp ht
  dsimp only at ht
  split at ht
  · rename_i hr
    cases ht
    exact h.stage .empty hr
  · rename_i hr
    obtain ⟨old, -, ht⟩ := bind_ok.mp ht
    cases ht
    exact ⟨by simpa using hr, h⟩

theorem resume_ok {fields : Fields} {next : Checkpoint} {staged : List Staged} (hr : item.fields.removed.isSome = false) (h : Reads call.remote seen.page staged (item :: rest))
    (hs : resume C db call fields item rest next staged = .ok st) : StageOk call.remote seen.page st := by
  unfold resume at hs
  split at hs
  · exact accept_ok hr h hs
  · obtain ⟨_, -, hs⟩ := bind_ok.mp hs
    cases hs
    exact ⟨hr, h⟩

theorem fetched_ok {next : Checkpoint} {staged : List Staged}
    {answer : Fallible Message} (hr : item.fields.removed.isSome = false) (h : Reads call.remote seen.page staged (item :: rest))
    (hf : fetched C account call item rest next staged answer = .ok st) : StageOk call.remote seen.page st := by
  unfold fetched at hf
  obtain ⟨whole, -, hf⟩ := bind_ok.mp hf
  obtain ⟨_, -, hf⟩ := bind_ok.mp hf
  obtain ⟨_, -, hf⟩ := bind_ok.mp hf
  exact accept_ok hr h hf

end Reading

/-! ## Taking a page in -/

section Commit

variable {C : Client} {db after : Db} {call : Call} {seen : Seen} {next : Checkpoint} {staged : List Staged}

/-- What makes a folder's items what its round said of them last. -/
def Refines (db after : Db) (remote : Str) (heard : Heard) : Prop :=
  ∀ x, after.Member remote x ↔ (Log.last heard.said x).elim (heard.full = false ∧ db.Member remote x)
    (fun removed => removed = false)

/-- The page is in, with what the folder's earlier pages staged. -/
structure Held (db held : Db) (seen : Seen) (call : Call) : Prop where
  frame : held = { db with staged := held.staged, links := held.links }
  keyed : Keyed Staged.key held.staged
  said : ∀ x, (held.stagedItem call.remote x).map Staged.removed = Log.last (seen.heard call).said x
  elsewhere : ∀ g x, g ≠ call.remote → (held.stagedItem g x).map Staged.removed = (db.stagedItem g x).map Staged.removed

theorem held_of_page {linked : Db} (hs : Sound db) (hst : StagedOk db seen.rounds)
    (hr : Reads call.remote seen.page staged []) (hl : db.addLink call.remote next = .ok linked) :
    Held db (staged.foldl Db.putStaged linked) seen call := by
  have hlink := addLink_ok hl
  have hitem : ∀ g x, linked.stagedItem g x = db.stagedItem g x := by
    intro g x
    rw [hlink]
    rfl
  refine ⟨?_, ?_, ?_, ?_⟩
  · rw [foldl_putStaged_frame, hlink]
  · apply foldl_putStaged_keyed
    rw [hlink]
    exact hs.staged
  · intro x
    obtain ⟨done, hpage, hlast⟩ := hr.said
    rw [stagedItem_foldl_putStaged hr.folder, if_pos rfl, hlast, hitem, (hst call.remote).2]
    unfold Seen.heard
    have hdone : done = seen.page := by simpa using hpage.symm
    cases seen.rounds call.remote with
    | none => simp [hdone]
    | some h => simp [hdone, Log.last_append]
  · intro g x hg
    rw [stagedItem_foldl_putStaged hr.folder, if_neg hg, hitem]

theorem Held.sound {held : Db} (h : Held db held seen call) (hs : Sound db) : Sound held :=
  hs.of_same (by rw [h.frame]) (by rw [h.frame]) (by rw [h.frame]) (by rw [h.frame]) h.keyed

/-- The page of a round that goes on: only what is staged, and where the round is, has changed. -/
theorem held_putRound {held : Db} (next : Checkpoint) (h : Held db held seen call) (hs : Sound db) (hst : StagedOk db seen.rounds)
    (hc : CallOk db seen call) : Sound (held.putRound ⟨call.remote, next, call.full⟩) ∧
      StagedOk (held.putRound ⟨call.remote, next, call.full⟩) (seen.put call.remote (some (seen.heard call))).rounds := by
  have hsound := h.sound hs
  refine ⟨hsound.of_same rfl rfl rfl rfl hsound.staged, fun folderId => ?_⟩
  have hround : held.round folderId = db.round folderId := by
    rw [h.frame]
    rfl
  unfold Seen.put
  rw [round_putRound, hround]
  by_cases hf : folderId = call.remote
  · subst hf
    simp only [if_pos]
    refine ⟨?_, h.said⟩
    -- a round under way began as it began; a new one as the call did
    have hold := (hst call.remote).1
    have hfull := hc.full
    unfold Seen.heard at hfull ⊢
    cases hseen : seen.rounds call.remote with
    | none =>
      rw [hseen, map_none, map_eq_none_iff] at hold
      rw [hseen] at hfull
      simpa [hold] using hfull
    | some heard =>
      rw [hseen, map_some] at hold
      obtain ⟨r, hr, hrf⟩ := map_eq_some_iff.mp hold
      simp [hr, hrf]
  · simp only [if_neg hf]
    refine ⟨(hst folderId).1, fun x => ?_⟩
    rw [← (hst folderId).2 x, ← h.elsewhere folderId x hf]
    rfl

/-- **What `commit` does.**  A round that is complete is what the folder now holds; one that is not changes nothing
that is shown. -/
theorem commit_ok (hs : Sound db) (hst : StagedOk db seen.rounds) (hc : CallOk db seen call)
    (hr : Reads call.remote seen.page staged []) {complete : Bool} (h : commit C db call next staged = .ok (after, complete)) :
    Sound after ∧ StagedOk after (seen.put call.remote (if complete then none else some (seen.heard call))).rounds ∧
      (∀ x uid, db.uidOf x = some uid → after.uidOf x = some uid) ∧
      (complete = false → after.items = db.items ∧ after.memberships = db.memberships ∧
        after.messages = db.messages ∧ after.delta = db.delta) ∧
      (complete = true → (∀ g x, g ≠ call.remote → (after.Member g x ↔ db.Member g x)) ∧
        Refines db after call.remote (seen.heard call)) := by
  unfold commit at h
  obtain ⟨_, -, h⟩ := bind_ok.mp h
  obtain ⟨linked, hl, h⟩ := bind_ok.mp h
  have hheld := held_of_page hs hst hr hl
  generalize staged.foldl Db.putStaged linked = held at h hheld
  have hframe := hheld.frame
  dsimp only at h
  split at h
  · obtain ⟨projected, hp, h⟩ := bind_ok.mp h
    cases h
    obtain ⟨f, hf, hfa, hname, hremote⟩ := hc.folder
    have hsound := hheld.sound hs
    have hff : f ∈ held.folders := by
      rw [hframe]
      exact hf
    rw [← hname, ← hremote] at hp
    obtain ⟨hsp, hfp, hkeeps, helse, hmember⟩ := projectRound_spec hsound hff hfa hp
    rw [hremote] at helse hmember
    have hmem : ∀ g x, held.Member g x ↔ db.Member g x := by
      intro g x
      rw [hframe]
      exact Iff.rfl
    have huid : ∀ x, held.uidOf x = db.uidOf x := by
      intro x
      rw [hframe]
      rfl
    have hput : Sound (projected.putDelta ⟨call.remote, next⟩) := hsp.of_same rfl rfl rfl rfl hsp.staged
    refine ⟨hput.clearRound call.remote, ?_, fun x uid hx => hkeeps x uid (by rw [huid]; exact hx),
      fun hfalse => (by cases hfalse), fun _ => ⟨fun g x hg => (helse g x hg).trans (hmem g x), fun x => ?_⟩⟩
    · -- of the folder nothing is staged any more, of the others what was
      intro folderId
      unfold Seen.put
      rw [if_pos rfl, round_clearRound]
      have hround : (projected.putDelta ⟨call.remote, next⟩).round folderId = db.round folderId := by
        unfold Frame at hfp
        rw [hfp, hframe]
        rfl
      rw [hround]
      by_cases hfold : folderId = call.remote
      · simp [hfold, stagedItem_clearRound]
      · simp only [if_neg hfold, stagedItem_clearRound]
        refine ⟨(hst folderId).1, fun x => ?_⟩
        have hitem : (projected.putDelta ⟨call.remote, next⟩).stagedItem folderId x = held.stagedItem folderId x := by
          unfold Db.stagedItem
          show Table.lookup Staged.key projected.staged _ = _
          rw [hfp.staged]
        rw [hitem, hheld.elsewhere folderId x hfold]
        exact (hst folderId).2 x
    · have hx : ((projected.putDelta ⟨call.remote, next⟩).clearRound call.remote).Member call.remote x ↔ _ := hmember x
      rw [hx, hheld.said, hmem, hc.full]
  · cases h
    obtain ⟨hsound, hstaged⟩ := held_putRound next hheld hs hst hc
    refine ⟨hsound, hstaged, fun x uid hx => ?_, fun _ => ?_, fun htrue => (by cases htrue)⟩
    · rw [hframe]
      exact hx
    · rw [hframe]
      exact ⟨rfl, rfl, rfl, rfl⟩

end Commit

/-! ## Every step -/

section Steps

variable {C : Client} {account : Str} {s t : State} {a : Action} {seen : Seen} {call : Call}

/-- A source that says that the folder has to be read anew is believed, if the lease is still valid. -/
def Resynced (C : Client) (account : Str) (s : State) (a : Action) (t : State) : Prop :=
  ∃ call, s.call = some call ∧ a = .answer (.error .resyncRequired) ∧
    returned C account s a = some (.error .resyncRequired) ∧
      t.db = (s.db.clearRound call.remote).forgetCheckpoint call.remote

/-- What is promised of a step. -/
structure StepOk (C : Client) (account : Str) (s : State) (seen : Seen) (a : Action) (t : State) : Prop where
  keeps : ∀ x uid, s.db.uidOf x = some uid → t.db.uidOf x = some uid
  unchanged : returned C account s a ≠ some (.ok true) → t.db.items = s.db.items ∧
    t.db.memberships = s.db.memberships ∧ t.db.messages = s.db.messages ∧
      (t.db.delta = s.db.delta ∨ Resynced C account s a t)
  complete : returned C account s a = some (.ok true) → ∃ call, s.call = some call ∧
    (∀ g x, g ≠ call.remote → (t.db.Member g x ↔ s.db.Member g x)) ∧ Refines s.db t.db call.remote (seen.heard call)

theorem StepOk.quiet (hi : t.db.items = s.db.items) (hm : t.db.memberships = s.db.memberships)
    (hc : t.db.messages = s.db.messages) (hd : t.db.delta = s.db.delta ∨ Resynced C account s a t)
    (hr : returned C account s a ≠ some (.ok true)) : StepOk C account s seen a t where
  keeps x uid hx := by
    unfold Db.uidOf Db.item
    rw [hi]
    exact hx
  unchanged _ := ⟨hi, hm, hc, hd⟩
  complete h := absurd h hr

theorem Inv.ends (h : Inv s seen) : Inv ⟨s.db, none⟩ seen :=
  ⟨h.sound, h.staged, fun _ hc => by cases hc⟩

theorem Inv.goes (h : Inv s seen) (hcall : s.call = some call) {page : List (Str × Bool)} {st : Stage}
    (hst : StageOk call.remote page st) : Inv ⟨s.db, some { call with stage := st }⟩ { seen with page := page } where
  sound := h.sound
  staged := h.staged
  call c hc := by
    cases hc
    have hok := h.call call hcall
    refine ⟨hok.folder, ?_, hst⟩
    rw [hok.full]
    unfold Seen.heard
    dsimp only
    cases seen.rounds call.remote <;> rfl

/-- The tables but for the profile. -/
theorem Inv.of_profile (h : Inv s seen) {profile : Option Profile} {c : Option Call} (hc : c = s.call) :
    Inv ⟨{ s.db with profile := profile }, c⟩ seen where
  sound := h.sound.of_same rfl rfl rfl rfl h.sound.staged
  staged := h.staged
  call call hcall := by
    have hok := h.call call (hc ▸ hcall)
    exact ⟨hok.folder, hok.full, hok.stage⟩

theorem openCall_ok (h : Inv s seen) {lease folder : Str} (ho : openCall C account s.db lease folder = .ok call) :
    CallOk s.db seen call := by
  unfold openCall at ho
  obtain ⟨_, -, ho⟩ := bind_ok.mp ho
  obtain ⟨f, hf, ho⟩ := bind_ok.mp ho
  have hfind := require_ok.mp hf
  have hmem : f ∈ s.db.folders := mem_of_find?_eq_some hfind
  have hp := find?_some hfind
  simp only [and_eq_true, decide_eq_true_eq] at hp
  have hplace : (position s.db f.remoteId).2 = match seen.rounds f.remoteId with
      | some heard => heard.full
      | none => (position s.db f.remoteId).1.isNone := by
    have hround := (h.staged f.remoteId).1
    unfold position
    cases hr : s.db.round f.remoteId with
    | some r =>
      rw [hr, map_some] at hround
      obtain ⟨heard, hh, hfull⟩ := map_eq_some_iff.mp hround.symm
      rw [hh]
      exact hfull.symm
    | none =>
      rw [hr, map_none] at hround
      rw [map_eq_none_iff.mp hround.symm]
  have hall : ∀ {checkpoint : Option Checkpoint}, (position s.db f.remoteId).1 = checkpoint →
      CallOk s.db seen ⟨lease, folder, f.remoteId, f.searchFolder, checkpoint, (position s.db f.remoteId).2, .asked⟩ := by
    rintro checkpoint rfl
    refine ⟨⟨f, hmem, hp.2, hp.1, rfl⟩, ?_, trivial⟩
    rw [hplace]
    unfold Seen.heard
    dsimp only
    cases seen.rounds f.remoteId <;> rfl
  dsimp only at ho
  split at ho
  · rename_i blob hblob
    obtain ⟨_, -, ho⟩ := bind_ok.mp ho
    obtain ⟨_, -, ho⟩ := bind_ok.mp ho
    cases ho
    exact hall hblob
  · rename_i hblob
    obtain ⟨_, -, ho⟩ := bind_ok.mp ho
    cases ho
    exact hall hblob

theorem watch_returned_error {kind : ErrorKind} (hr : returned C account s a = some (.error kind))
    (ha : a ≠ .answer (.error .resyncRequired)) : watch C account s a t seen = seen := by
  unfold watch
  split
  · rfl
  · rw [hr]
    split
    · rename_i h
      cases h
    · rename_i h
      cases h
    · rename_i h
      cases h
    · exact absurd rfl ha
    · rfl

/-- A part of a call that leaves the tables alone. -/
theorem inv_quiet (page : List (Str × Bool)) (h : Inv s seen) (hcall : s.call = some call) {r : Fallible Stage}
    (hp : perform C account s a = some (settled (s.db, .of call r)))
    (hst : ∀ st, r = .ok st → StageOk call.remote page st) (ha : a ≠ .answer (.error .resyncRequired))
    (hw : returned C account s a = none → watch C account s a t seen = { seen with page := page })
    (ht : t = (settled (s.db, Outcome.of call r)).1) : Inv t (watch C account s a t seen) ∧ StepOk C account s seen a t := by
  have hret : returned C account s a = (settled (s.db, Outcome.of call r)).2 := by
    unfold returned
    rw [hp]
    rfl
  subst ht
  cases r with
  | ok st =>
    have hnone : returned C account s a = none := hret
    rw [hw hnone]
    refine ⟨h.goes hcall (hst st rfl), StepOk.quiet rfl rfl rfl (.inl rfl) ?_⟩
    rw [hnone]
    exact fun hh => by cases hh
  | error kind =>
    have herr : returned C account s a = some (.error kind) := hret
    rw [watch_returned_error herr ha]
    refine ⟨h.ends, StepOk.quiet rfl rfl rfl (.inl rfl) ?_⟩
    rw [herr]
    exact fun hh => by cases hh

theorem watch_page_kept (hcall : s.call = some call) (hr : returned C account s a = none)
    (ha : ∀ page, a ≠ .answer (.ok page)) : watch C account s a t seen = { seen with page := seen.page } := by
  unfold watch
  rw [hcall, hr]
  cases a with
  | answer page =>
    cases page with
    | ok page => exact absurd rfl (ha page)
    | error kind => rfl
  | _ => rfl

theorem inv_answer (h : Inv s seen) {page : Fallible Page} (hstep : step C account s (.answer page) = some t) :
    Inv t (watch C account s (.answer page) t seen) ∧ StepOk C account s seen (.answer page) t := by
  obtain ⟨⟨u, result⟩, hp, rfl⟩ := map_eq_some_iff.mp hstep
  have hp' : (s.call.bind fun call => (advance C account s.db call (.answer page)).map settled) = some (u, result) := hp
  obtain ⟨call, hcall, hadv⟩ := bind_eq_some_iff.mp hp'
  obtain ⟨x, hx, hset⟩ := map_eq_some_iff.mp hadv
  simp only [advance] at hx
  split at hx
  · cases hx
    unfold answered at hset
    cases page with
    | ok page =>
      dsimp only at hset
      apply inv_quiet (page.items.map occurrence) h hcall (r := pageTaken C account call page)
      · rw [hp, hset]
      · intro st hst
        unfold pageTaken at hst
        obtain ⟨next, -, hst⟩ := bind_ok.mp hst
        obtain ⟨_, -, hst⟩ := bind_ok.mp hst
        cases hst
        exact Reads.nil call.remote page.items
      · intro hh
        cases hh
      · intro hnone
        unfold watch
        rw [hcall, hnone]
      · rw [hset]
    | error kind =>
      dsimp only at hset
      split at hset
      · rename_i hkind
        subst hkind
        split at hset
        · -- the lease is no longer valid: nothing is forgotten
          rename_i refused hcheck
          have hrefused : refused = .cancelled := by
            unfold Db.check ensure at hcheck
            split at hcheck
            · cases hcheck
            · cases hcheck
              rfl
          subst hrefused
          cases hset
          have hret : returned C account s (.answer (.error .resyncRequired)) = some (.error .cancelled) := by
            unfold returned
            rw [hp]
            rfl
          have hw : watch C account s (.answer (.error .resyncRequired)) ⟨s.db, none⟩ seen = seen := by
            unfold watch
            rw [hcall, hret]
          rw [hw]
          refine ⟨h.ends, StepOk.quiet rfl rfl rfl (.inl rfl) ?_⟩
          rw [hret]
          exact fun hh => by cases hh
        · cases hset
          have hret : returned C account s (.answer (.error .resyncRequired)) = some (.error .resyncRequired) := by
            unfold returned
            rw [hp]
            rfl
          have hw : ∀ t, watch C account s (.answer (.error .resyncRequired)) t seen = seen.put call.remote none := by
            intro t
            unfold watch
            rw [hcall, hret]
          rw [hw]
          refine ⟨⟨(h.sound.clearRound call.remote).of_same rfl rfl rfl rfl (h.sound.clearRound call.remote).staged,
            StagedOk.clearRound h.staged, fun c hc => by cases hc⟩, StepOk.quiet rfl rfl rfl (.inr ⟨call, hcall, rfl, hret, rfl⟩) ?_⟩
          rw [hret]
          exact fun hh => by cases hh
      · rename_i hkind
        cases hset
        have hret : returned C account s (.answer (.error kind)) = some (.error kind) := by
          unfold returned
          rw [hp]
          rfl
        rw [watch_returned_error hret fun hh => by cases hh; exact hkind rfl]
        refine ⟨h.ends, StepOk.quiet rfl rfl rfl (.inl rfl) ?_⟩
        rw [hret]
        exact fun hh => by cases hh
  · cases hx

theorem inv_message (h : Inv s seen) {whole : Fallible Message} (hstep : step C account s (.message whole) = some t) :
    Inv t (watch C account s (.message whole) t seen) ∧ StepOk C account s seen (.message whole) t := by
  obtain ⟨⟨u, result⟩, hp, rfl⟩ := map_eq_some_iff.mp hstep
  have hp' : (s.call.bind fun call => (advance C account s.db call (.message whole)).map settled) = some (u, result) := hp
  obtain ⟨call, hcall, hadv⟩ := bind_eq_some_iff.mp hp'
  obtain ⟨x, hx, hset⟩ := map_eq_some_iff.mp hadv
  have hok := (h.call call hcall).stage
  simp only [advance] at hx
  split at hx
  · rename_i item rest next staged hstage
    cases hx
    rw [hstage] at hok
    apply inv_quiet seen.page h hcall
    · rw [hp, hset]
    · intro st hst
      exact fetched_ok hok.1 hok.2 hst
    · intro hh
      cases hh
    · intro hnone
      exact watch_page_kept hcall hnone fun _ hh => by cases hh
    · rw [hset]
  · cases hx

/-- The last part of a call takes the page in, or fails and leaves the tables alone. -/
theorem inv_committed (h : Inv s seen) (hcall : s.call = some call) {next : Checkpoint} {staged : List Staged}
    (hreads : Reads call.remote seen.page staged []) {u : State} {result : Option (Fallible Bool)}
    (hp : perform C account s .proceed = some (u, result)) (hset : settled (committed C s.db call next staged) = (u, result)) :
    Inv u (watch C account s .proceed u seen) ∧ StepOk C account s seen .proceed u := by
  have hret : returned C account s .proceed = result := by
    unfold returned
    rw [hp]
    rfl
  unfold committed at hset
  cases hc : commit C s.db call next staged with
  | error kind =>
    rw [hc] at hset
    cases hset
    rw [watch_returned_error hret fun hh => by cases hh]
    refine ⟨h.ends, StepOk.quiet rfl rfl rfl (.inl rfl) ?_⟩
    rw [hret]
    exact fun hh => by cases hh
  | ok x =>
    obtain ⟨after, complete⟩ := x
    rw [hc] at hset
    cases hset
    obtain ⟨hsound, hstaged, hkeeps, hquiet, hdone⟩ := commit_ok h.sound h.staged (h.call call hcall) hreads hc
    have hw : watch C account s .proceed ⟨after, none⟩ seen =
        seen.put call.remote (if complete then none else some (seen.heard call)) := by
      unfold watch
      rw [hcall, hret]
      cases complete <;> rfl
    rw [hw]
    refine ⟨⟨hsound, hstaged, fun c hc => by cases hc⟩, ?_⟩
    cases complete with
    | false =>
      obtain ⟨hi, hm, hms, hd⟩ := hquiet rfl
      refine StepOk.quiet hi hm hms (.inl hd) ?_
      rw [hret]
      exact fun hh => by cases hh
    | true =>
      refine ⟨hkeeps, fun hne => absurd hret hne, fun _ => ?_⟩
      obtain ⟨helse, hrefines⟩ := hdone rfl
      exact ⟨call, hcall, helse, hrefines⟩

theorem inv_proceed (h : Inv s seen) (hstep : step C account s .proceed = some t) :
    Inv t (watch C account s .proceed t seen) ∧ StepOk C account s seen .proceed t := by
  obtain ⟨⟨u, result⟩, hp, rfl⟩ := map_eq_some_iff.mp hstep
  have hp' : (s.call.bind fun call => (advance C account s.db call .proceed).map settled) = some (u, result) := hp
  obtain ⟨call, hcall, hadv⟩ := bind_eq_some_iff.mp hp'
  obtain ⟨x, hx, hset⟩ := map_eq_some_iff.mp hadv
  have hok := (h.call call hcall).stage
  -- a part that goes through an item
  have hitem : ∀ {r : Fallible Stage}, x = (s.db, .of call r) → (∀ st, r = .ok st → StageOk call.remote seen.page st) →
      Inv u (watch C account s .proceed u seen) ∧ StepOk C account s seen .proceed u := by
    rintro r rfl hr
    apply inv_quiet seen.page h hcall (r := r)
    · rw [hp, hset]
    · exact hr
    · intro hh
      cases hh
    · intro hnone
      exact watch_page_kept hcall hnone fun _ hh => by cases hh
    · rw [hset]
  simp only [advance] at hx
  split at hx
  · rename_i next staged hstage
    cases hx
    rw [hstage] at hok
    exact inv_committed h hcall hok hp hset
  · rename_i item rest next staged hstage
    rw [hstage] at hok
    exact hitem (some.inj hx).symm fun st hst => takeItem_ok hok hst
  · rename_i fields item rest next staged hstage
    rw [hstage] at hok
    exact hitem (some.inj hx).symm fun st hst => resume_ok hok.1 hok.2 hst
  · cases hx

theorem inv_step (h : Inv s seen) (hstep : step C account s a = some t) :
    Inv t (watch C account s a t seen) ∧ StepOk C account s seen a t := by
  -- what is done to the lease, and what ends a call from outside, returns nothing
  have hlease : ∀ (profile : Option Profile) {c : Option Call}, c = s.call ∨ c = none →
      t = ⟨{ s.db with profile := profile }, c⟩ → returned C account s a = none → (∀ page, a ≠ .answer (.ok page)) →
        Inv t (watch C account s a t seen) ∧ StepOk C account s seen a t := by
    intro profile c hc ht hnone hpage
    subst ht
    have hw : watch C account s a ⟨{ s.db with profile := profile }, c⟩ seen = seen := by
      cases hcall : s.call with
      | none => simp [watch, hcall]
      | some call => exact watch_page_kept hcall hnone hpage
    rw [hw]
    refine ⟨?_, StepOk.quiet rfl rfl rfl (.inl rfl) (by rw [hnone]; exact fun hh => by cases hh)⟩
    rcases hc with hc | rfl
    · exact h.of_profile hc
    · exact h.ends.of_profile (s := ⟨s.db, none⟩) rfl
  cases a with
  | beginProfile generation =>
    exact hlease _ (.inl rfl) (some.inj hstep).symm rfl fun _ hh => by cases hh
  | cancel lease generation inUse =>
    exact hlease _ (.inl rfl) (some.inj hstep).symm rfl fun _ hh => by cases hh
  | recordFailure lease =>
    exact hlease _ (.inl rfl) (some.inj hstep).symm rfl fun _ hh => by cases hh
  | stop => exact hlease s.db.profile (.inr rfl) (some.inj hstep).symm rfl fun _ hh => by cases hh
  | answer page => exact inv_answer h hstep
  | message whole => exact inv_message h hstep
  | proceed => exact inv_proceed h hstep
  | call lease folder =>
    cases hcall : s.call with
    | some call => simp [step, perform, hcall] at hstep
    | none =>
      have hw : ∀ t, watch C account s (.call lease folder) t seen = seen := by
        intro t
        unfold watch
        rw [hcall]
      rw [hw]
      cases ho : openCall C account s.db lease folder with
      | ok call =>
        have hret : returned C account s (.call lease folder) = none := by simp [returned, perform, hcall, ho]
        have ht : t = { s with call := some call } := by simpa [step, perform, hcall, ho, eq_comm] using hstep
        subst ht
        refine ⟨⟨h.sound, h.staged, fun c hc => ?_⟩, StepOk.quiet rfl rfl rfl (.inl rfl) ?_⟩
        · cases hc
          have hok := openCall_ok h ho
          exact ⟨hok.folder, hok.full, hok.stage⟩
        · rw [hret]
          exact fun hh => by cases hh
      | error kind =>
        have hret : returned C account s (.call lease folder) = some (.error kind) := by
          simp [returned, perform, hcall, ho]
        have ht : t = s := by simpa [step, perform, hcall, ho, eq_comm] using hstep
        subst ht
        refine ⟨h, StepOk.quiet rfl rfl rfl (.inl rfl) ?_⟩
        rw [hret]
        exact fun hh => by cases hh

end Steps

/-! ## Every run -/

/-- The tables of a new profile, when its folders are known. -/
structure NewProfile (db : Db) : Prop where
  folders : Keyed Folder.remoteId db.folders
  names : ∀ f ∈ db.folders, ∀ g ∈ db.folders, f.active = true → g.active = true → f.localName = g.localName → f = g
  items : db.items = []
  memberships : db.memberships = []
  rounds : db.rounds = []
  staged : db.staged = []
  messages : db.messages = []

theorem NewProfile.inv {db : Db} (h : NewProfile db) : Inv ⟨db, none⟩ Seen.nothing where
  sound := by
    refine ⟨h.folders, h.names, ?_, ?_, ?_, ?_, ?_⟩
    · simp [h.items, Keyed]
    · simp [h.items, Keyed]
    · simp [Db.Member, h.memberships]
    · simp [h.staged, Keyed]
    · simp [Db.IsCached, Db.Member, h.memberships, h.messages]
  staged folderId := by simp [Db.round, Db.stagedItem, h.rounds, h.staged, Table.lookup, Seen.nothing]
  call _ hc := by cases hc

section Runs

variable {C : Client} {account : Str}

theorem inv_run {db : Db} (h : NewProfile db) {as : List Action} {s : State} {seen : Seen}
    (hrun : Runs.run (watched (step C account) (watch C account)) (⟨db, none⟩, Seen.nothing) as = some (s, seen)) :
    Inv s seen := by
  have hall : ∀ (x : State × Seen) a y, Inv x.1 x.2 → True →
      watched (step C account) (watch C account) x a = some y → Inv y.1 y.2 := by
    intro x a y hx _ hstep
    obtain ⟨ht, hsee⟩ := watched_some hstep
    rw [hsee]
    exact (inv_step hx ht).1
  exact @Runs.run_invariant _ _ _ (fun _ _ => True) (fun x => Inv x.1 x.2) hall as _ _ h.inv AllSteps.of_true hrun

/-- Numbers that are given are kept, and stay the item's own. -/
theorem uidOf_run : ∀ {as : List Action} {s t : State} {seen : Seen}, Inv s seen →
    Runs.run (step C account) s as = some t → ∀ x uid, s.db.uidOf x = some uid →
      t.db.uidOf x = some uid ∧ ∀ y, t.db.uidOf y = some uid → y = x
  | [], _, _, _, h, hrun, x, uid, hx => by
    cases hrun
    exact ⟨hx, fun y hy => h.sound.uidOf_inj hy hx⟩
  | a :: as, s, t, seen, h, hrun, x, uid, hx => by
    obtain ⟨u, hu, hrun⟩ := run_cons hrun
    obtain ⟨hinv, hok⟩ := inv_step h hu
    exact uidOf_run hinv hrun x uid (hok.keeps x uid hx)

/-- **Rounds are all or nothing.**  In every state a run reaches the cached messages of a folder are those of its
members, and an item keeps its number for ever and for itself.  A step with which no call returns that a round is
complete changes nothing that is shown, nor the checkpoint, unless the source asked for a new start.  One with
which a call does makes the folder what the round said. -/
theorem rounds_refine {db : Db} (h : NewProfile db) {as : List Action} {s : State} {seen : Seen}
    (hrun : Runs.run (watched (step C account) (watch C account)) (⟨db, none⟩, Seen.nothing) as = some (s, seen)) :
    (∀ f ∈ s.db.folders, f.active = true → ∀ uid,
      (s.db.IsCached f.localName uid ↔ ∃ id, s.db.uidOf id = some uid ∧ s.db.Member f.remoteId id)) ∧
    (∀ bs t, Runs.run (step C account) s bs = some t → ∀ x uid, s.db.uidOf x = some uid →
      t.db.uidOf x = some uid ∧ ∀ y, t.db.uidOf y = some uid → y = x) ∧ ∀ a t, step C account s a = some t →
      (returned C account s a ≠ some (.ok true) → t.db.items = s.db.items ∧ t.db.memberships = s.db.memberships ∧
        t.db.messages = s.db.messages ∧ (t.db.delta = s.db.delta ∨ Resynced C account s a t)) ∧
      (returned C account s a = some (.ok true) → ∃ call, s.call = some call ∧
        (∀ g x, g ≠ call.remote → (t.db.Member g x ↔ s.db.Member g x)) ∧
        ((seen.heard call).full = true → ∀ x, (t.db.Member call.remote x ↔
          Log.last (seen.heard call).said x = some false)) ∧
        ((seen.heard call).full = false → ∀ x, (t.db.Member call.remote x ↔
          (Log.last (seen.heard call).said x).elim (s.db.Member call.remote x) (fun removed => removed = false)))) := by
  have hinv := inv_run h hrun
  refine ⟨hinv.sound.cached, fun bs t hbs => uidOf_run hinv hbs, fun a t hstep => ?_⟩
  have hok := (inv_step hinv hstep).2
  refine ⟨hok.unchanged, fun hret => ?_⟩
  obtain ⟨call, hcall, helse, hrefines⟩ := hok.complete hret
  refine ⟨call, hcall, helse, fun hfull x => ?_, fun hfull x => ?_⟩
  · rw [hrefines x, hfull]
    cases Log.last (seen.heard call).said x <;> simp
  · rw [hrefines x, hfull]
    cases Log.last (seen.heard call).said x <;> simp

/-! ### A run -/

def everyLink : Client := ⟨fun folder => folder, fun _ _ => true, fun _ => some 0, fun html => html⟩

def inbox : Db :=
  ⟨none, [⟨"F", "INBOX", false, true⟩], [], [], [], [], [], [], []⟩

def letter (id : String) : Message :=
  ⟨⟨"A", .message, id.toList⟩, { Fields.empty with
    parentFolderId := some "F", conversationId := some "c", subject := some [],
    receivedDateTime := some [], isRead := some true, hasAttachments := some false, toRecipients := some [],
    ccRecipients := some [] }⟩

def tombstone (id : String) : Message := ⟨⟨"A", .message, id.toList⟩, { Fields.empty with removed := some [] }⟩

/-- A round of two pages: of the first `x` is removed by the second, `y` is removed and comes back. -/
def twoPages : List Action :=
  [.beginProfile "g", .call "g" "INBOX",
    .answer (.ok ⟨[letter "x", tombstone "y"], some ⟨"A", "F", "1", .nextPage⟩⟩),
    .proceed, .proceed, .proceed, .proceed, .call "g" "INBOX",
    .answer (.ok ⟨[letter "y", tombstone "x"], some ⟨"A", "F", "2", .delta⟩⟩),
    .proceed, .proceed, .proceed]

theorem inbox_new : NewProfile inbox where
  folders := nodup_singleton _
  names f hf g hg _ _ _ := by rw [mem_singleton.mp hf, mem_singleton.mp hg]
  items := rfl
  memberships := rfl
  rounds := rfl
  staged := rfl
  messages := rfl

/-- At the end of the second page the folder holds what the round said. -/
theorem rounds_refine_twoPages : ∃ s seen t call,
    Runs.run (watched (step everyLink "A") (watch everyLink "A")) (⟨inbox, none⟩, Seen.nothing)
      twoPages = some (s, seen) ∧ step everyLink "A" s .proceed = some t ∧
        returned everyLink "A" s .proceed = some (.ok true) ∧ (seen.heard call).full = true ∧
          ∀ x, (t.db.Member call.remote x ↔ Log.last (seen.heard call).said x = some false) := by
  have hsome : ((Runs.run (watched (step everyLink "A") (watch everyLink "A"))
      (⟨inbox, none⟩, Seen.nothing) twoPages).any (fun x => (step everyLink "A" x.1 .proceed).isSome &&
        (returned everyLink "A" x.1 .proceed).any (fun r => r.toOption = some true) && x.1.call.all (fun call => (x.2.heard call).full))) = true := by decide +kernel
  cases hrun : Runs.run (watched (step everyLink "A") (watch everyLink "A")) (⟨inbox, none⟩, Seen.nothing) twoPages with
  | none =>
    rw [hrun] at hsome
    cases hsome
  | some x =>
    obtain ⟨s, seen⟩ := x
    rw [hrun, any_some, and_eq_true, and_eq_true, isSome_iff_exists] at hsome
    obtain ⟨⟨⟨t, ht⟩, hdone⟩, hfull⟩ := hsome
    have hret : returned everyLink "A" s .proceed = some (.ok true) := by
      obtain ⟨r, hr, hok⟩ := (Option.any_eq_true ..).mp hdone
      rw [hr]
      cases r with
      | error e => cases of_decide_eq_true hok
      | ok b => rw [some.inj (of_decide_eq_true hok)]
    obtain ⟨call, hcall, -, hround, -⟩ := ((rounds_refine inbox_new hrun).2.2 .proceed t ht).2 hret
    have hcallfull : (seen.heard call).full = true := by
      rw [hcall] at hfull
      exact hfull
    exact ⟨s, seen, t, call, rfl, ht, hret, hcallfull, hround hcallfull⟩

end Runs

end Oreneta.Graph

import Oreneta.Lib.Chunks
import Oreneta.AutoArchive.Safety

/-!
# Automatic archiving to the local archive: when it makes no second copy

A copy of an earlier run is recognised by the journal row of its message, or by its Message-ID.  The
journal is written after the copy, so a run that stops in between leaves a copy only its Message-ID
tells of, and a message without one is then copied again.

* `Single` — no local folder has two messages with the bytes of one message of the server.
* `Known` — every copy of a message is one that the journal or the Message-ID lookup finds.
* `copyOneLocal_once` — copying a message whose copies are known makes no second one, whatever fails.
* `archived_once` — so does every sequence of runs in which each message is known when it is copied.
* `unnamed_copied_twice` — a message with an empty Message-ID that is not.
-/

namespace Oreneta.AutoArchive

open Oreneta.Prog List

variable {β : Type}

/-- No local folder has two messages with the bytes of one of `ms`. -/
def Single (ms : List (ServerRow β)) (w : World β) : Prop :=
  ∀ m ∈ ms, ∀ r ∈ w.archive, ∀ r' ∈ w.archive,
    r.folder = r'.folder → r.raw = m.raw → r'.raw = m.raw → r.uid = r'.uid

theorem Single.anti {ms : List (ServerRow β)} {w w' : World β} (h : Single ms w)
    (ha : ∀ r ∈ w'.archive, r ∈ w.archive) : Single ms w' :=
  fun m hm r hr r' hr' => h m hm r (ha r hr) r' (ha r' hr')

/-- No copy of these bytes is in the local folder. -/
def Absent (local_ : Str) (raw : β) (w : World β) : Prop :=
  ∀ r ∈ w.archive, r.folder = local_ → r.raw ≠ raw

/-- One more message, of which there was no copy. -/
theorem Single.store {ms : List (ServerRow β)} {w : World β} {local_ : Str} {raw : β}
    (h : Single ms w) (hnew : (∃ m ∈ ms, m.raw = raw) → Absent local_ raw w) : Single ms (w.store local_ raw) := by
  intro m hm r hr r' hr' hf hraw hraw'
  have hcases : ∀ x ∈ (w.store local_ raw).archive, x ∈ w.archive ∨ x = ⟨local_, w.nextUid local_, raw⟩ := by
    intro x hx
    rcases mem_append.mp hx with hx | hx
    · exact .inl (mem_of_mem_filter hx)
    · exact .inr (mem_singleton.mp hx)
  rcases hcases r hr with hr | rfl
  · rcases hcases r' hr' with hr' | rfl
    · exact h m hm r hr r' hr' hf hraw hraw'
    · have habsent := hnew ⟨m, hm, hraw'.symm⟩
      exact absurd (hraw.trans hraw'.symm) (habsent r hr hf)
  · rcases hcases r' hr' with hr' | rfl
    · have habsent := hnew ⟨m, hm, hraw.symm⟩
      exact absurd (hraw'.trans hraw.symm) (habsent r' hr' hf.symm)
    · rfl

/-! ## What a run keeps -/

/-- At every moment so far, and now, there is no second copy; and no write to come puts the bytes of a
message of the server where it was given others. -/
structure Good (ms : List (ServerRow β)) (s : Ctl β) : Prop where
  now : Single ms s.world
  moments : ∀ p ∈ s.trace, Single ms p.2
  faults : ∀ raw, .garbled raw ∈ s.faults → ∀ m ∈ ms, m.raw ≠ raw

section Operations

variable {ms : List (ServerRow β)} {s : Ctl β}

theorem Good.stop (h : Good ms s) : Good ms { s with faults := s.faults.tail } :=
  ⟨h.now, h.moments, fun raw hr => h.faults raw (mem_of_mem_tail hr)⟩

theorem Good.push (h : Good ms s) {e : Event β} {w : World β} (hw : Single ms w) :
    Good ms ⟨w, s.faults.tail, s.trace ++ [(e, w)]⟩ := by
  refine ⟨hw, fun p hp => ?_, fun raw hr => h.faults raw (mem_of_mem_tail hr)⟩
  rcases mem_append.mp hp with hp | hp
  · exact h.moments p hp
  · rw [mem_singleton.mp hp]
    exact hw

/-- An operation that adds no copy. -/
theorem shrink_good {α : Type} {asked : Event β} {answered : α → Event β}
    {effect : Fault β → World β → World β × α} (h : Good ms s) (ha : ∀ fault w, ∀ r ∈ (effect fault w).1.archive, r ∈ w.archive) :
    At (Good ms) (op asked answered effect) (fun _ _ => True) s := by
  apply op_tail h.stop
  · intro e w hw
    refine ⟨h.push ?_, trivial⟩
    rcases hw with rfl | ⟨fault, _, rfl⟩
    · exact h.now
    · exact h.now.anti (ha fault _)
  · intro fault _
    exact ⟨h.push (h.now.anti (ha fault _)), trivial⟩

/-- An operation that only looks: the world stays, and what it answers is read off it. -/
theorem look_good {α : Type} {asked : Event β} {answered : α → Event β} {f : World β → α} (h : Good ms s) :
    At (Good ms) (op asked answered (fun _ w => (w, f w)))
      (fun r t => t.world = s.world ∧ ∀ a, r = .ok a → a = f s.world) s := by
  apply op_tail h.stop
  · intro e w hw
    have hsame : w = s.world := by
      rcases hw with rfl | ⟨_, _, rfl⟩
      · rfl
      · rfl
    exact ⟨h.push (hsame ▸ h.now), hsame, fun a ha => by cases ha⟩
  · intro fault _
    exact ⟨h.push h.now, rfl, fun a ha => by cases ha; rfl⟩

theorem journalSet_good (h : Good ms s) (row : JournalRow) : At (Good ms) (journalSet row) (fun _ _ => True) s :=
  shrink_good h fun _ _ _ hr => hr

theorem journalClear_good (h : Good ms s) (account folder : Str) (uids : List Nat) :
    At (Good ms) (journalClear account folder uids) (fun _ _ => True) s :=
  shrink_good h fun _ _ _ hr => hr

theorem removeLocal_good (h : Good ms s) (folder : Str) (uid : Nat) : At (Good ms) (removeLocal folder uid) (fun _ _ => True) s :=
  shrink_good h fun _ _ _ hr => mem_of_mem_filter hr

theorem readLocal_good (h : Good ms s) (folder : Str) (uid : Nat) : At (Good ms) (readLocal folder uid)
      (fun r t => t.world = s.world ∧ ∀ a, r = .ok a →
        a = (Table.lookup LocalRow.key s.world.archive (folder, uid)).map (·.raw)) s :=
  look_good h

/-- A new copy of a message of which there was none. -/
theorem storeLocal_good (h : Good ms s) {folder : Str} {message : RawMessageCopy β}
    (hnew : Absent folder message.raw s.world) : At (Good ms) (storeLocal folder message) (fun _ _ => True) s := by
  have hplain : Single ms (s.world.store folder message.raw) := h.now.store fun _ => hnew
  have hgarbled : ∀ raw, Fault.garbled raw ∈ s.faults → Single ms (s.world.store folder raw) := by
    intro raw hmem
    apply h.now.store
    rintro ⟨m, hm, hraw⟩
    exact absurd hraw (h.faults raw hmem m hm)
  unfold storeLocal
  apply op_tail h.stop
  · intro e w hw
    refine ⟨h.push ?_, trivial⟩
    rcases hw with rfl | ⟨fault, hfault, rfl⟩
    · exact h.now
    · cases fault with
      | garbled raw => exact hgarbled raw hfault
      | _ => exact hplain
  · intro fault hfault
    refine ⟨h.push ?_, trivial⟩
    cases fault with
    | garbled raw => exact hgarbled raw (hfault.resolve_left (by intro he; cases he))
    | _ => exact hplain

end Operations

/-! ## Copying one message -/

section Copy

variable [DecidableEq β] (idOf : β → Str) (lower : Str → Str)

/-- The Message-ID lookup for `c` finds every copy with these bytes. -/
def Finds (c : Candidate) (raw : β) : Prop :=
  (Text.trim c.messageId).isEmpty = false ∧ lower (idOf raw) = lower c.messageId

/-- The message's journal row names this copy. -/
def Journalled (w : World β) (account folder local_ : Str) (c : Candidate) (uid : Nat) : Prop :=
  ∃ row, Table.lookup JournalRow.key w.journal (account, folder, c.uid) = some row ∧
    row.localFolder = local_ ∧ row.localUid = some uid

/-- Every copy of the message in the local folder is one that the journal or the Message-ID lookup
finds. -/
def Known (w : World β) (account folder local_ : Str) (c : Candidate) (raw : β) : Prop :=
  ∀ r ∈ w.archive, r.folder = local_ → r.raw = raw →
    Finds idOf lower c raw ∨ Journalled w account folder local_ c r.uid

variable {ms : List (ServerRow β)} {s : Ctl β} {account folder local_ : Str} {c : Candidate} {now : Int}

omit [DecidableEq β] in
theorem markVerified_good (h : Good ms s) (uid : Nat) :
    At (Good ms) (markVerified account folder local_ c now uid) (fun _ _ => True) s := by
  unfold markVerified
  refine orFail_at (journalSet_good h _) ?_ fun _ _ _ => trivial
  intro _ t ht _
  exact At.pure ht trivial

theorem storeAndCheck_good (h : Good ms s) {message : RawMessageCopy β} (hnew : Absent local_ message.raw s.world) :
    At (Good ms) (storeAndCheck account folder local_ c message now) (fun _ _ => True) s := by
  unfold storeAndCheck
  refine orFail_at (storeLocal_good h hnew) ?_ fun _ _ _ => trivial
  intro uid t ht _
  refine orFail_at (journalSet_good ht _) ?_ fun _ _ _ => trivial
  intro _ u hu _
  refine At.bind (readLocal_good hu local_ uid) ?_
  intro back v hv _
  split
  · exact markVerified_good hv uid
  · refine At.bind (removeLocal_good hv local_ uid) ?_
    intro _ x hx _
    refine At.bind (journalClear_good hx account folder [c.uid]) ?_
    intro _ y hy _
    exact At.pure hy trivial

omit [DecidableEq β] in
/-- Reading back the copy under `uid` shows whether it has the bytes. -/
theorem readsBack {w : World β} {raw : β} {r : LocalRow β} (hr : r ∈ w.archive) (hraw : r.raw = raw) :
    (Table.lookup LocalRow.key w.archive (r.folder, r.uid)).map (·.raw) = some raw := by
  have hl : Table.lookup LocalRow.key w.archive (r.folder, r.uid) = some r :=
    w.archiveKeyed.lookup_of_mem hr
  rw [hl, Option.map_some, hraw]

/-- After the journal's copy, only copies that the Message-ID lookup finds are left. -/
theorem journalCopy_good (h : Good ms s) {raw : β} {k : Option Nat → M β (Except (Str × Str) Unit)}
    (hknown : Known idOf lower s.world account folder local_ c raw) (hnone : ∀ t, Good ms t → t.world = s.world →
      (∀ r ∈ s.world.archive, r.folder = local_ → r.raw = raw → Finds idOf lower c raw) →
        At (Good ms) (k none) (fun _ _ => True) t)
    (hsome : ∀ uid t, Good ms t → At (Good ms) (k (some uid)) (fun _ _ => True) t) : At (Good ms) (journalCopy local_ raw
      (Table.lookup JournalRow.key s.world.journal (account, folder, c.uid)) k)
      (fun _ _ => True) s := by
  unfold journalCopy
  split
  · rename_i row hrow
    split
    · rename_i hlocal
      split
      · rename_i uid huid
        refine orFail_at (readLocal_good h local_ uid) ?_ fun _ _ _ => trivial
        rintro back t ht ⟨hworld, hback⟩
        split
        · exact hsome uid t ht
        · rename_i hne
          refine hnone t ht hworld fun r hr hf hraw => ?_
          rcases hknown r hr hf hraw with hfinds | ⟨row', hrow', _, huid'⟩
          · exact hfinds
          · -- the journal's copy was read, and it has other bytes
            rw [hrow, Option.some.injEq] at hrow'
            subst hrow'
            rw [huid, Option.some.injEq] at huid'
            rw [hback _ rfl, huid', ← hf] at hne
            exact absurd (readsBack hr hraw) hne
      · rename_i hnouid
        refine hnone s h rfl fun r hr hf hraw => ?_
        rcases hknown r hr hf hraw with hfinds | ⟨row', hrow', _, huid'⟩
        · exact hfinds
        · rw [hrow, Option.some.injEq] at hrow'
          rw [← hrow', hnouid] at huid'
          cases huid'
    · rename_i hother
      refine hnone s h rfl fun r hr hf hraw => ?_
      rcases hknown r hr hf hraw with hfinds | ⟨row', hrow', hlocal', _⟩
      · exact hfinds
      · rw [hrow, Option.some.injEq] at hrow'
        rw [← hrow'] at hlocal'
        exact absurd hlocal' hother
  · rename_i hnorow
    refine hnone s h rfl fun r hr hf hraw => ?_
    rcases hknown r hr hf hraw with hfinds | ⟨row', hrow', _⟩
    · exact hfinds
    · rw [hnorow] at hrow'
      cases hrow'

/-- Of the copies `uids` none has the bytes when the search comes back without one. -/
theorem firstCopy_good {raw : β} {k : Option Nat → M β (Except (Str × Str) Unit)} {w : World β}
    (hsome : ∀ uid t, Good ms t → At (Good ms) (k (some uid)) (fun _ _ => True) t) :
    ∀ (uids : List Nat) (s : Ctl β), Good ms s → s.world = w →
      (∀ t, Good ms t → t.world = w →
        (∀ uid ∈ uids, (Table.lookup LocalRow.key w.archive (local_, uid)).map (·.raw) ≠ some raw) →
          At (Good ms) (k none) (fun _ _ => True) t) →
        At (Good ms) (firstCopy local_ raw k uids) (fun _ _ => True) s
  | [], s, h, hw, hnone => hnone s h hw (by simp)
  | uid :: uids, s, h, hw, hnone => by
    unfold firstCopy
    refine orFail_at (readLocal_good h local_ uid) ?_ (fun _ _ _ => trivial)
    rintro back t ht ⟨hworld, hback⟩
    split
    · exact hsome uid t ht
    · rename_i hne
      refine firstCopy_good hsome uids t ht (hworld.trans hw) fun u hu huw hrest => ?_
      refine hnone u hu huw fun uid' hmem => ?_
      rcases mem_cons.mp hmem with rfl | hmem
      · rw [hback _ rfl, hw] at hne
        exact hne
      · exact hrest uid' hmem

/-- **Copying a message whose copies are known** makes no second copy, whatever fails in it. -/
theorem copyOneLocal_once (h : Good ms s) {message : RawMessageCopy β}
    (hknown : Known idOf lower s.world account folder local_ c message.raw) :
    At (Good ms) (copyOneLocal idOf lower account folder local_ c message now) (fun _ _ => True) s := by
  unfold copyOneLocal journalGet
  refine orFail_at (look_good h) ?_ fun _ _ _ => trivial
  rintro journal t ht ⟨hworld, hjournal⟩
  rw [hjournal journal rfl, ← hworld]
  rw [← hworld] at hknown
  refine journalCopy_good idOf lower ht hknown ?_ ?_
  · intro u hu huw hfinds
    unfold findLocal
    refine orFail_at (look_good hu) ?_ fun _ _ _ => trivial
    rintro uids v hv ⟨hvw, huids⟩
    refine firstCopy_good ?_ uids v hv hvw fun x hx hxw hnone => ?_
    · exact fun uid y hy => markVerified_good hy uid
    · -- a copy would be among those the lookup answered
      refine storeAndCheck_good hx fun r hr hf hraw => ?_
      rw [hxw, huw] at hr
      obtain ⟨hid, hsame⟩ := hfinds r hr hf hraw
      refine hnone r.uid ?_ ?_
      · rw [huids uids rfl, huw, hid]
        simp only [Bool.false_eq_true, if_false, mem_insertionSort]
        refine mem_map_of_mem (mem_filter.mpr ⟨hr, ?_⟩)
        rw [hraw, decide_eq_true hf, decide_eq_true hsame]
        rfl
      · rw [huw, ← hf]
        exact readsBack hr hraw
  · exact fun uid u hu => markVerified_good hu uid

end Copy

/-! ## A whole run -/

section Run

variable (idOf : β → Str) (lower : Str → Str)

/-- Every message of the plan was known when it had been fetched and was about to be copied. -/
def ForeseenIn (plan : Plan) (trace : List (Event β × World β)) : Prop :=
  ∀ p ∈ trace, ∀ account folder uid raw, p.1 = .fetched account folder uid raw →
    ∀ planned ∈ plan.folders, planned.folder = folder → ∀ c ∈ planned.selected, c.uid = uid →
      Known idOf lower p.2 account folder planned.target c raw

theorem ForeseenIn.anti {plan : Plan} {trace trace' : List (Event β × World β)}
    (h : ForeseenIn idOf lower plan trace') (ht : ∀ p ∈ trace, p ∈ trace') : ForeseenIn idOf lower plan trace :=
  fun p hp => h p (ht p hp)

/-- There is no second copy as long as the messages were known. -/
def OnceInv (plan : Plan) (ms : List (ServerRow β)) (s : Ctl β) : Prop :=
  ForeseenIn idOf lower plan s.trace → Good ms s

variable {plan : Plan} {ms : List (ServerRow β)} {s : Ctl β} {idOf lower}

/-- A stretch that forgets no moment and keeps `Good` keeps the invariant. -/
theorem OnceInv.guarded {α : Type} {m : M β α} {Q Q' : α → Ctl β → Prop} (h : OnceInv idOf lower plan ms s)
    (hgrow : At (fun t => ∀ p ∈ s.trace, p ∈ t.trace) m Q s)
    (hgood : ForeseenIn idOf lower plan s.trace → Good ms s → At (Good ms) m Q' s) : At (OnceInv idOf lower plan ms) m Q s := by
  refine ⟨fun hforeseen => ?_, hgrow.2⟩
  have hbefore := hforeseen.anti idOf lower hgrow.1
  exact (hgood hbefore (h hbefore)).1

theorem op_grows {α : Type} {asked : Event β} {answered : α → Event β} {effect : Fault β → World β → World β × α} :
    At (fun t => ∀ p ∈ s.trace, p ∈ t.trace) (op asked answered effect) (fun _ _ => True) s := by
  apply op_tail
  · exact fun _ hp => hp
  · exact fun _ _ _ => ⟨fun _ hp => mem_append_left _ hp, trivial⟩
  · exact fun _ _ => ⟨fun _ hp => mem_append_left _ hp, trivial⟩

/-- An operation that adds no copy. -/
theorem OnceInv.shrink {α : Type} {asked : Event β} {answered : α → Event β}
    {effect : Fault β → World β → World β × α} (h : OnceInv idOf lower plan ms s)
    (ha : ∀ fault w, ∀ r ∈ (effect fault w).1.archive, r ∈ w.archive) :
    At (OnceInv idOf lower plan ms) (op asked answered effect) (fun _ _ => True) s :=
  h.guarded op_grows fun _ hg => shrink_good hg ha

/-- A fetched message is known, if all are. -/
theorem OnceInv.fetch {folder : Str} {uid : Nat} (h : OnceInv idOf lower plan ms s) :
    At (OnceInv idOf lower plan ms) (fetch plan.account folder uid)
      (fun r t => ∀ m, r = .ok (some m) → (.fetched plan.account folder uid m.raw, t.world) ∈ t.trace)
      s := by
  have hgrow : At (fun t => ∀ p ∈ s.trace, p ∈ t.trace) (AutoArchive.fetch plan.account folder uid)
      (fun r t => ∀ m, r = .ok (some m) → (.fetched plan.account folder uid m.raw, t.world) ∈ t.trace)
      s := by
    unfold AutoArchive.fetch
    apply op_tail
    · exact fun _ hp => hp
    · exact fun _ _ _ => ⟨fun _ hp => mem_append_left _ hp, fun m hm => by cases hm⟩
    · intro fault _
      refine ⟨fun _ hp => mem_append_left _ hp, fun m hm => ?_⟩
      rw [Except.ok.injEq] at hm
      rw [hm]
      simp
  unfold AutoArchive.fetch at hgrow ⊢
  exact h.guarded hgrow fun _ hg => shrink_good hg fun _ _ _ hr => hr

variable [DecidableEq β]

theorem copyChunk_once {planned : PlannedFolder} {now : Int} (hp : planned ∈ plan.folders) :
    ∀ (cs : List Candidate) (p : Progress) (verified : List Candidate) (s : Ctl β),
      (∀ c ∈ cs, c ∈ planned.selected) → OnceInv idOf lower plan ms s →
        At (OnceInv idOf lower plan ms) (copyChunk idOf lower plan.account planned.folder planned.target now cs p verified)
          (fun _ _ => True) s
  | [], _, _, _, _, h => At.pure h trivial
  | c :: cs, p, verified, s, hcs, h => by
    have hrest : ∀ x ∈ cs, x ∈ planned.selected := fun x hx => hcs x (mem_cons_of_mem _ hx)
    unfold copyChunk
    refine At.bind h.fetch ?_
    intro r t ht hfetched
    split
    · rename_i message
      have hev := hfetched message rfl
      have hgrow : At (fun u => ∀ p ∈ t.trace, p ∈ u.trace)
          (copyOneLocal idOf lower plan.account planned.folder planned.target c message now)
          (fun _ _ => True) t :=
        (copyOneLocal_at idOf lower (Base.refl t) message).mono (fun u hu p hp => hu.mem_trace hp) fun _ _ _ _ => trivial
      refine At.bind (ht.guarded hgrow fun hforeseen hg => copyOneLocal_once idOf lower hg ?_) ?_
      · exact hforeseen _ hev _ _ _ _ rfl planned hp rfl c (hcs c mem_cons_self) rfl
      · intro r' u hu _
        split
        · exact copyChunk_once hp cs p (verified ++ [c]) u hrest hu
        · exact copyChunk_once hp cs _ verified u hrest hu
    · refine At.bind (ht.shrink fun _ _ _ hr => hr) ?_
      intro _ u hu _
      exact copyChunk_once hp cs _ verified u hrest hu
    · exact copyChunk_once hp cs _ verified t hrest ht

omit [DecidableEq β] in
theorem markKept_once {account folder local_ : Str} {now : Int} :
    ∀ (cs : List Candidate) (s : Ctl β), OnceInv idOf lower plan ms s →
      At (OnceInv idOf lower plan ms) (markKept account folder local_ now cs) (fun _ _ => True) s
  | [], _, h => At.pure h trivial
  | c :: cs, s, h => by
    unfold markKept
    refine At.bind (h.shrink fun _ _ _ hr => hr) ?_
    intro r t ht _
    split
    · refine At.bind (ht.shrink fun _ _ _ hr => hr) ?_
      intro _ u hu _
      exact markKept_once cs u hu
    · exact markKept_once cs t ht

theorem localChunk_once {policy : Policy} {planned : PlannedFolder} {now : Int}
    {chunk : List Candidate} {p : Progress} (hp : planned ∈ plan.folders)
    (hchunk : ∀ c ∈ chunk, c ∈ planned.selected) (h : OnceInv idOf lower plan ms s) :
    At (OnceInv idOf lower plan ms) (localChunk idOf lower policy plan.account planned now chunk p) (fun _ _ => True) s := by
  unfold localChunk
  refine At.bind (copyChunk_once hp chunk p [] s hchunk h) ?_
  rintro ⟨p', verified⟩ t ht _
  simp only
  split
  · exact At.pure ht trivial
  · split
    · refine At.bind (markKept_once verified t ht) ?_
      exact fun _ u hu _ => At.pure hu trivial
    · refine At.bind (ht.shrink fun _ _ _ hr => hr) ?_
      intro r u hu _
      split
      · refine At.bind (hu.shrink fun _ _ _ hr => hr) ?_
        exact fun _ v hv _ => At.pure hv trivial
      · exact At.pure hu trivial

/-- The chunks of a list hold what the list does. -/
theorem mem_of_mem_chunks {cs chunk : List Candidate} {c : Candidate} (hchunk : chunk ∈ chunks cs) (hc : c ∈ chunk) : c ∈ cs := by
  have hflat : (chunks cs).flatten = cs := Chunks.toChunks_flatten chunkSize cs
  rw [← hflat]
  exact mem_flatten.mpr ⟨chunk, hchunk, hc⟩

theorem allFolders_once {policy : Policy} {now : Int} (hdest : plan.destination = .local_) :
    ∀ (folders : List PlannedFolder), (∀ f ∈ folders, f ∈ plan.folders) → ∀ (log : RunLog) (s : Ctl β),
      OnceInv idOf lower plan ms s →
        At (OnceInv idOf lower plan ms) (allFolders idOf lower policy plan now folders log) (fun _ _ => True) s
  | [], _, _, _, h => At.pure h trivial
  | planned :: rest, hf, log, s, h => by
    unfold allFolders
    rw [hdest]
    refine At.bind (allChunks_at _ _ s ?_ h) ?_
    · intro chunk hchunk p t ht
      exact localChunk_once (hf planned mem_cons_self) (fun c hc => mem_of_mem_chunks hchunk hc) ht
    · intro p t ht _
      exact allFolders_once hdest rest (fun f hfr => hf f (mem_cons_of_mem _ hfr)) _ t ht

end Run

/-! ## Any number of runs -/

section Runs

variable [DecidableEq β] (idOf : β → Str) (lower : Str → Str)

/-- Each run starts from the world the one before it ended in, or stopped in. -/
def Chained : World β → List (Run β) → Prop
  | _, [] => True
  | w, r :: rs => r.start = w ∧ Chained (r.final idOf lower).world rs

/-- Whenever the run is about to copy a message, every copy of it that is there already is one that the
journal or the Message-ID lookup finds; and no write that goes wrong writes the bytes of a message of
`ms` instead. -/
structure Run.Foreseen (ms : List (ServerRow β)) (r : Run β) : Prop where
  known : ForeseenIn idOf lower r.plan (r.final idOf lower).trace
  faults : ∀ raw, .garbled raw ∈ r.faults → ∀ m ∈ ms, m.raw ≠ raw

variable {ms : List (ServerRow β)}

theorem Run.once {r : Run β} (hlocal : r.plan.destination = .local_)
    (hforeseen : r.Foreseen idOf lower ms) (hstart : Single ms r.start) : Good ms (r.final idOf lower) := by
  have hinv : OnceInv idOf lower r.plan ms ⟨r.start, r.faults, []⟩ :=
    fun _ => ⟨hstart, by simp, hforeseen.faults⟩
  exact (allFolders_once hlocal r.plan.folders (fun _ hf => hf) _ _ hinv).1 hforeseen.known

/-- **No second copy**, over any number of runs one after another, whatever fails in them and wherever
they stop: if each message that is copied is known then, no local folder ever has two messages with the
bytes of one message of the server. -/
theorem archived_once : ∀ (runs : List (Run β)) (w : World β), Chained idOf lower w runs →
    (∀ r ∈ runs, r.plan.destination = .local_) → (∀ r ∈ runs, r.Foreseen idOf lower ms) →
      Single ms w → ∀ r ∈ runs, ∀ v, r.Moment idOf lower v → Single ms v
  | [], _, _, _, _, _, _, hr, _, _ => by cases hr
  | r :: rs, w, hchain, hlocal, hforeseen, hstart, r', hr', v, hv => by
    rw [← hchain.1] at hstart
    have hgood := r.once idOf lower (hlocal r mem_cons_self) (hforeseen r mem_cons_self) hstart
    rcases mem_cons.mp hr' with rfl | hr'
    · rcases hv with rfl | rfl | ⟨e, he⟩
      · exact hstart
      · exact hgood.now
      · exact hgood.moments _ he
    · exact archived_once rs _ hchain.2 (fun x hx => hlocal x (mem_cons_of_mem _ hx))
        (fun x hx => hforeseen x (mem_cons_of_mem _ hx)) hgood.now r' hr' v hv

end Runs

/-- A run that archives the one message and stops between the copy and the journal; then one that
nothing stops. -/
def stoppedRun (messageId : Str) : Run (List Nat) :=
  { start := oneMessage
    policy := ⟨false⟩
    plan := ⟨"me", .local_, "Archived/me",
      [⟨"INBOX", "Archived/me/INBOX", [⟨7, 0, true, false, messageId, "hi"⟩]⟩]⟩
    now := 0
    faults := [.none, .none, .none, .none, .stop] }

def nextRun (messageId : Str) : Run (List Nat) :=
  { stoppedRun messageId with
    start := ((stoppedRun messageId).final (fun _ => messageId) id).world
    faults := [] }

theorem oneMessage_single : Single oneMessage.server oneMessage :=
  fun _ _ _ hr => absurd hr (by simp [oneMessage])

theorem named_copied_once : ((nextRun "<a>").final (fun _ => "<a>") id).world.archive.length = 1 ∧
      ∀ r ∈ [stoppedRun "<a>", nextRun "<a>"], ∀ v, r.Moment (fun _ => "<a>") id v → Single oneMessage.server v := by
  have hone : ((nextRun "<a>").final (fun _ => "<a>") id).world.archive.length = 1 := by
    decide +kernel
  have hknown : ∀ trace : List (Event (List Nat) × World (List Nat)),
      ForeseenIn (fun _ => "<a>") id (stoppedRun "<a>").plan trace := by
    rintro trace p _ account folder uid raw _ planned hplanned _ c hc _ r _ _ _
    rw [mem_singleton.mp hplanned] at hc
    rw [mem_singleton.mp hc]
    exact .inl ⟨by decide +kernel, rfl⟩
  have hforeseen : ∀ r ∈ [stoppedRun "<a>", nextRun "<a>"], r.Foreseen (fun _ => "<a>") id oneMessage.server := by
    intro r hr
    rcases mem_cons.mp hr with rfl | hr
    · exact ⟨hknown _, by simp [stoppedRun]⟩
    · rw [mem_singleton.mp hr]
      exact ⟨hknown _, by simp [nextRun]⟩
  have hlocal : ∀ r ∈ [stoppedRun "<a>", nextRun "<a>"], r.plan.destination = .local_ := by
    intro r hr
    rcases mem_cons.mp hr with rfl | hr
    · rfl
    · rw [mem_singleton.mp hr]
      rfl
  exact ⟨hone, archived_once _ _ _ oneMessage ⟨rfl, rfl, trivial⟩ hlocal hforeseen oneMessage_single⟩

/-- **A second copy**: a message with an empty Message-ID, archived by two runs of which the first stops
between the copy and the journal. -/
theorem unnamed_copied_twice : ¬ ∀ (idOf : List Nat → Str) (lower : Str → Str) (runs : List (Run (List Nat)))
        (w : World (List Nat)), Chained idOf lower w runs →
      (∀ r ∈ runs, r.plan.destination = .local_) → (w.server.map (·.raw)).Nodup → Single w.server w →
        ∀ r ∈ runs, Single w.server (r.final idOf lower).world := by
  intro h
  have hsingle := h (fun _ => []) id [stoppedRun [], nextRun []] oneMessage ⟨rfl, rfl, trivial⟩
    (by intro r hr
        rcases mem_cons.mp hr with rfl | hr
        · rfl
        · rw [mem_singleton.mp hr]
          rfl)
    (by simp [oneMessage]) oneMessage_single (nextRun []) (by simp)
  have htwo : ((nextRun []).final (fun _ => []) id).world.archive.map (fun r => (r.folder, r.uid, r.raw)) =
      [("Archived/me/INBOX".toList, 1, [1, 2, 3]), ("Archived/me/INBOX".toList, 2, [1, 2, 3])] := by
    decide +kernel
  have hrow : ∀ uid ∈ [1, 2], ∃ r ∈ ((nextRun []).final (fun _ => []) id).world.archive,
      r.folder = "Archived/me/INBOX".toList ∧ r.uid = uid ∧ r.raw = [1, 2, 3] := by
    intro uid huid
    have hmem : ("Archived/me/INBOX".toList, uid, [1, 2, 3]) ∈
        ((nextRun []).final (fun _ => []) id).world.archive.map (fun r => (r.folder, r.uid, r.raw)) := by
      rw [htwo]
      rcases mem_cons.mp huid with rfl | huid
      · exact mem_cons_self
      · rw [mem_singleton.mp huid]
        exact mem_cons_of_mem _ (mem_singleton_self _)
    obtain ⟨r, hr, he⟩ := mem_map.mp hmem
    exact ⟨r, hr, congrArg Prod.fst he, congrArg (fun x => x.2.1) he, congrArg (fun x => x.2.2) he⟩
  obtain ⟨r, hr, hf, hu, hraw⟩ := hrow 1 (by simp)
  obtain ⟨r', hr', hf', hu', hraw'⟩ := hrow 2 (by simp)
  have hsame := hsingle _ (mem_singleton_self _) r hr r' hr' (hf.trans hf'.symm) hraw hraw'
  omega

end Oreneta.AutoArchive

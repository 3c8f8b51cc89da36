import Oreneta.AutoArchive.Execute

/-!
# Automatic archiving to the local archive loses nothing

* `Base` — a stretch of a run that touches no message on the server and no copy that was there before:
  what `copyOneLocal` is, whatever fails in it (`copyOneLocal_at`).
* `Held` — a message is on the server, or in a local folder its own folder is archived to, with the
  same bytes.
* `execute_at` — a run to the local archive keeps every message held at every moment, and asks the
  server to delete only what it fetched and read back before.
* `archived_never_lost` — the same over any number of runs, with anything arriving in between.
-/

namespace Oreneta.AutoArchive

open Oreneta.Prog Table List

variable {β : Type}

/-! ## One operation -/

/-- An event that asks the server to delete nothing. -/
def Event.quiet : Event β → Prop
  | .delete _ _ _ => False
  | _ => True

/-- What one operation can leave: nothing at all if the program stops before it, else the world it
found or the one its effect makes, as one more moment.  The fault it meets is the next one due. -/
theorem op_tail {α : Type} {asked : Event β} {answered : α → Event β}
    {effect : Fault β → World β → World β × α} {J : Ctl β → Prop} {Q : Except Str α → Ctl β → Prop}
    {s : Ctl β} (hstop : J { s with faults := s.faults.tail })
    (herr : ∀ e w, (w = s.world ∨ ∃ fault ∈ s.faults, w = (effect fault s.world).1) →
      J ⟨w, s.faults.tail, s.trace ++ [(asked, w)]⟩ ∧
      Q (.error e) ⟨w, s.faults.tail, s.trace ++ [(asked, w)]⟩)
    (hok : ∀ fault, (fault = .none ∨ fault ∈ s.faults) →
      J ⟨(effect fault s.world).1, s.faults.tail,
        s.trace ++ [(answered (effect fault s.world).2, (effect fault s.world).1)]⟩ ∧
      Q (.ok (effect fault s.world).2) ⟨(effect fault s.world).1, s.faults.tail,
        s.trace ++ [(answered (effect fault s.world).2, (effect fault s.world).1)]⟩) :
    At J (op asked answered effect) Q s := by
  have hnext : ∀ fault, s.faults.headD .none = fault → fault = .none ∨ fault ∈ s.faults := by
    rintro fault rfl
    cases s.faults with
    | nil => exact .inl rfl
    | cons fault faults => exact .inr mem_cons_self
  unfold At op
  cases hf : s.faults.headD .none with
  | stop =>
    refine ⟨hstop, ?_⟩
    intro a t h
    cases h
  | before e =>
    obtain ⟨hj, hq⟩ := herr e s.world (.inl rfl)
    refine ⟨hj, ?_⟩
    intro a t h
    cases h
    exact hq
  | after e =>
    have hmem : Fault.after e ∈ s.faults := (hnext _ hf).resolve_left (by intro h; cases h)
    obtain ⟨hj, hq⟩ := herr e _ (.inr ⟨.after e, hmem, rfl⟩)
    refine ⟨hj, ?_⟩
    intro a t h
    cases h
    exact hq
  | partly done e =>
    have hmem : Fault.partly done e ∈ s.faults := (hnext _ hf).resolve_left (by intro h; cases h)
    obtain ⟨hj, hq⟩ := herr e _ (.inr ⟨.partly done e, hmem, rfl⟩)
    refine ⟨hj, ?_⟩
    intro a t h
    cases h
    exact hq
  | none =>
    obtain ⟨hj, hq⟩ := hok .none (.inl rfl)
    refine ⟨hj, ?_⟩
    intro a t h
    cases h
    exact hq
  | garbled raw =>
    have hmem : Fault.garbled raw ∈ s.faults := (hnext _ hf).resolve_left (by intro h; cases h)
    obtain ⟨hj, hq⟩ := hok (.garbled raw) (.inr hmem)
    refine ⟨hj, ?_⟩
    intro a t h
    cases h
    exact hq

/-- The same without asking which faults are due. -/
theorem op_at {α : Type} {asked : Event β} {answered : α → Event β}
    {effect : Fault β → World β → World β × α} {J : Ctl β → Prop} {Q : Except Str α → Ctl β → Prop}
    {s : Ctl β} (hstop : ∀ faults, J { s with faults })
    (herr : ∀ e faults w, (w = s.world ∨ ∃ fault, w = (effect fault s.world).1) →
      J ⟨w, faults, s.trace ++ [(asked, w)]⟩ ∧ Q (.error e) ⟨w, faults, s.trace ++ [(asked, w)]⟩) (hok : ∀ fault faults,
      J ⟨(effect fault s.world).1, faults, s.trace ++ [(answered (effect fault s.world).2, (effect fault s.world).1)]⟩ ∧
      Q (.ok (effect fault s.world).2) ⟨(effect fault s.world).1, faults,
        s.trace ++ [(answered (effect fault s.world).2, (effect fault s.world).1)]⟩) : At J (op asked answered effect) Q s :=
  op_tail (hstop _) (fun e w hw => herr e _ w (hw.imp_right fun ⟨fault, _, h⟩ => ⟨fault, h⟩)) fun fault _ => hok fault _

theorem orFail_at {α γ : Type} {step : Str} {m : M β (Except Str α)}
    {k : α → M β (Except (Str × Str) γ)} {J : Ctl β → Prop} {R : Except Str α → Ctl β → Prop}
    {Q : Except (Str × Str) γ → Ctl β → Prop} {s : Ctl β} (hm : At J m R s) (hk : ∀ a t, J t → R (.ok a) t → At J (k a) Q t)
    (herr : ∀ e t, J t → Q (.error (step, e)) t) : At J (orFail step m k) Q s := by
  unfold orFail
  refine At.bind hm fun r t hj hq => ?_
  cases r with
  | ok a => exact hk a t hj hq
  | error e => exact At.pure hj (herr e t hj)

/-! ## Stretches that keep what was there -/

/-- From `s` to `t` the server's messages are the same and every copy of `s` is still there, at every
moment in between, and the server was asked to delete nothing. -/
structure Base (s t : Ctl β) : Prop where
  server : t.world.server = s.world.server
  archive : ∀ r ∈ s.world.archive, r ∈ t.world.archive
  trace : ∃ new, t.trace = s.trace ++ new ∧ ∀ p ∈ new, p.1.quiet ∧ p.2.server = s.world.server ∧
    ∀ r ∈ s.world.archive, r ∈ p.2.archive

theorem Base.refl (s : Ctl β) : Base s s := ⟨rfl, fun _ h => h, [], by simp⟩

theorem Base.trans {s t u : Ctl β} (h : Base s t) (h' : Base t u) : Base s u := by
  obtain ⟨new, hnew, hp⟩ := h.trace
  obtain ⟨new', hnew', hp'⟩ := h'.trace
  refine ⟨h'.server.trans h.server, fun r hr => h'.archive r (h.archive r hr), new ++ new', ?_, ?_⟩
  · rw [hnew', hnew, append_assoc]
  · intro p hmem
    rcases mem_append.mp hmem with hmem | hmem
    · exact hp p hmem
    · obtain ⟨hq, hs, ha⟩ := hp' p hmem
      exact ⟨hq, hs.trans h.server, fun r hr => ha r (h.archive r hr)⟩

theorem Base.faults {s t : Ctl β} (h : Base s t) (faults : List (Fault β)) :
    Base s { t with faults } := ⟨h.server, h.archive, h.trace⟩

/-- One more moment that keeps what was there. -/
theorem Base.push {s t : Ctl β} (h : Base s t) {w : World β} {e : Event β} (faults : List (Fault β))
    (hq : e.quiet) (hs : w.server = s.world.server) (ha : ∀ r ∈ s.world.archive, r ∈ w.archive) :
    Base s ⟨w, faults, t.trace ++ [(e, w)]⟩ := by
  obtain ⟨new, hnew, hp⟩ := h.trace
  refine ⟨hs, ha, new ++ [(e, w)], by rw [hnew, append_assoc], fun p hmem => ?_⟩
  rcases mem_append.mp hmem with hmem | hmem
  · exact hp p hmem
  · rw [mem_singleton.mp hmem]
    exact ⟨hq, hs, ha⟩

theorem Base.mem_trace {s t : Ctl β} (h : Base s t) {p : Event β × World β} (hp : p ∈ s.trace) : p ∈ t.trace := by
  obtain ⟨new, hnew, _⟩ := h.trace
  rw [hnew]
  exact mem_append_left _ hp

/-- An operation that leaves the server and the copies alone, or adds one. -/
theorem quiet_at {α : Type} {asked : Event β} {answered : α → Event β}
    {effect : Fault β → World β → World β × α} {s₀ s : Ctl β} (hb : Base s₀ s) (hasked : asked.quiet)
    (hanswered : ∀ a, (answered a).quiet) (hserver : ∀ fault w, (effect fault w).1.server = w.server)
    (harchive : ∀ fault w, ∀ r ∈ w.archive, r ∈ (effect fault w).1.archive) : At (Base s₀) (op asked answered effect)
      (fun r t => Base s t ∧ ∀ a, r = .ok a → ∃ fault, a = (effect fault s.world).2 ∧
        t.world = (effect fault s.world).1 ∧ (answered a, t.world) ∈ t.trace) s := by
  have hself := Base.refl s
  apply op_at
  · exact fun faults => hb.faults faults
  · intro e faults w hw
    have hws : w.server = s.world.server := by
      rcases hw with rfl | ⟨fault, rfl⟩
      · rfl
      · exact hserver fault _
    have hwa : ∀ r ∈ s.world.archive, r ∈ w.archive := by
      rcases hw with rfl | ⟨fault, rfl⟩
      · exact fun _ h => h
      · exact harchive fault _
    refine ⟨hb.push faults hasked (hws.trans hb.server) fun r hr => hwa r (hb.archive r hr), ?_, ?_⟩
    · exact hself.push faults hasked hws hwa
    · intro a h
      cases h
  · intro fault faults
    refine ⟨hb.push faults (hanswered _) ((hserver fault _).trans hb.server)
      fun r hr => harchive fault _ r (hb.archive r hr), ?_, ?_⟩
    · exact hself.push faults (hanswered _) (hserver fault _) (harchive fault _)
    · intro a h
      cases h
      exact ⟨fault, rfl, rfl, by simp⟩

/-! ## Copying one message -/

/-- There is a copy of these bytes in the local folder, and it was read back. -/
def Copied (local_ : Str) (raw : β) (t : Ctl β) : Prop :=
  ∃ uid, ⟨local_, uid, raw⟩ ∈ t.world.archive ∧ ∃ w, (.readBack local_ uid raw, w) ∈ t.trace

theorem Copied.base {local_ : Str} {raw : β} {s t : Ctl β} (h : Copied local_ raw s) (hb : Base s t) : Copied local_ raw t := by
  obtain ⟨uid, harch, w, hread⟩ := h
  exact ⟨uid, hb.archive _ harch, w, hb.mem_trace hread⟩

section Quiet

variable {s₀ s : Ctl β}

theorem silent_at {α : Type} {effect : Fault β → World β → World β × α} (hb : Base s₀ s)
    (hserver : ∀ fault w, (effect fault w).1.server = w.server)
    (harchive : ∀ fault w, ∀ r ∈ w.archive, r ∈ (effect fault w).1.archive) :
    At (Base s₀) (op .other (fun _ => .other) effect) (fun _ t => Base s t) s := by
  refine At.mono (quiet_at hb ?_ ?_ hserver harchive) (fun _ h => h) fun _ _ _ h => h.1
  · trivial
  · exact fun _ => trivial

theorem journalGet_at (hb : Base s₀ s) (account folder : Str) (uid : Nat) :
    At (Base s₀) (journalGet account folder uid) (fun _ t => Base s t) s :=
  silent_at hb (fun _ _ => rfl) fun _ _ _ h => h

theorem journalSet_at (hb : Base s₀ s) (row : JournalRow) : At (Base s₀) (journalSet row) (fun _ t => Base s t) s :=
  silent_at hb (fun _ _ => rfl) fun _ _ _ h => h

theorem journalClear_at (hb : Base s₀ s) (account folder : Str) (uids : List Nat) :
    At (Base s₀) (journalClear account folder uids) (fun _ t => Base s t) s :=
  silent_at hb (fun _ _ => rfl) fun _ _ _ h => h

theorem findLocal_at (hb : Base s₀ s) (idOf : β → Str) (lower : Str → Str) (folder messageId : Str) :
    At (Base s₀) (findLocal idOf lower folder messageId) (fun _ t => Base s t) s :=
  silent_at hb (fun _ _ => rfl) fun _ _ _ h => h

/-- What `fetch` returns is on the server under that uid. -/
theorem fetch_at (hb : Base s₀ s) (account folder : Str) (uid : Nat) : At (Base s₀) (fetch account folder uid)
      (fun r t => Base s t ∧ ∀ m, r = .ok (some m) →
        (∃ row ∈ t.world.server, row.key = (account, folder, uid) ∧ row.raw = m.raw) ∧
        ∃ w, (.fetched account folder uid m.raw, w) ∈ t.trace) s := by
  unfold fetch
  refine At.mono (quiet_at hb ?_ ?_ (fun _ _ => rfl) fun _ _ _ h => h) (fun _ h => h) ?_
  · trivial
  · intro a
    cases a <;> trivial
  · rintro r t _ ⟨hbase, hq⟩
    refine ⟨hbase, ?_⟩
    rintro m rfl
    obtain ⟨fault, ha, hw, hev⟩ := hq _ rfl
    refine ⟨?_, _, hev⟩
    cases hl : Table.lookup ServerRow.key s.world.server (account, folder, uid) with
    | none => rw [hl] at ha; cases ha
    | some row =>
      rw [hl] at ha
      cases ha
      obtain ⟨hmem, hkey⟩ := lookup_some hl
      exact ⟨row, by rw [hbase.server]; exact hmem, hkey, rfl⟩

/-- What `readLocal` returns is in the local archive under that uid. -/
theorem readLocal_at (hb : Base s₀ s) (folder : Str) (uid : Nat) : At (Base s₀) (readLocal folder uid)
      (fun r t => Base s t ∧ ∀ raw, r = .ok (some raw) → Copied folder raw t) s := by
  unfold readLocal
  refine At.mono (quiet_at hb ?_ ?_ (fun _ _ => rfl) fun _ _ _ h => h) (fun _ h => h) ?_
  · trivial
  · intro a
    cases a <;> trivial
  · rintro r t _ ⟨hbase, hq⟩
    refine ⟨hbase, ?_⟩
    rintro raw rfl
    obtain ⟨fault, ha, hw, hev⟩ := hq _ rfl
    refine ⟨uid, ?_, _, hev⟩
    cases hl : Table.lookup LocalRow.key s.world.archive (folder, uid) with
    | none => rw [hl] at ha; cases ha
    | some row =>
      rw [hl] at ha
      cases ha
      obtain ⟨hmem, hkey⟩ := lookup_some hl
      have hrow : row = ⟨folder, uid, row.raw⟩ := by
        cases row
        cases hkey
        rfl
      rw [← hrow]
      exact hbase.archive row hmem

/-- A new copy gets a uid no copy had. -/
theorem storeLocal_at (hb : Base s₀ s) (folder : Str) (message : RawMessageCopy β) : At (Base s₀) (storeLocal folder message)
      (fun r _ => ∀ uid, r = .ok uid → ∀ row ∈ s₀.world.archive, row.key ≠ (folder, uid)) s := by
  have hfresh : ∀ row ∈ s.world.archive, row.key ≠ (folder, s.world.nextUid folder) := by
    intro row hrow he
    have hf : row.folder = folder := congrArg Prod.fst he
    have hu : row.uid = s.world.nextUid folder := congrArg Prod.snd he
    have := s.world.lt_nextUid hrow hf
    omega
  have hkeep : ∀ (raw : β) (w : World β), ∀ row ∈ w.archive, row ∈ (w.store folder raw).archive := by
    intro raw w row hrow
    refine mem_append_left _ (mem_filter.mpr ⟨hrow, ?_⟩)
    rw [decide_eq_true_eq]
    intro he
    have hf : row.folder = folder := congrArg Prod.fst he
    have hu : row.uid = w.nextUid folder := congrArg Prod.snd he
    have := w.lt_nextUid hrow hf
    omega
  unfold storeLocal
  refine At.mono (quiet_at hb ?_ ?_ ?_ ?_) (fun _ h => h) ?_
  · trivial
  · exact fun _ => trivial
  · intro fault w
    cases fault <;> rfl
  · intro fault w
    cases fault with
    | garbled raw => exact hkeep raw w
    | none => exact hkeep message.raw w
    | before e => exact hkeep message.raw w
    | after e => exact hkeep message.raw w
    | partly done e => exact hkeep message.raw w
    | stop => exact hkeep message.raw w
  · rintro r t _ ⟨_, hq⟩
    rintro uid rfl row hrow
    obtain ⟨fault, ha, _⟩ := hq _ rfl
    have hu : uid = s.world.nextUid folder := by
      rw [ha]
      cases fault <;> rfl
    rw [hu]
    exact hfresh row (hb.archive row hrow)

/-- Removing a copy that was not there at the start of the stretch. -/
theorem removeLocal_at (hb : Base s₀ s) {folder : Str} {uid : Nat} (hnew : ∀ row ∈ s₀.world.archive, row.key ≠ (folder, uid)) :
    At (Base s₀) (removeLocal folder uid) (fun _ _ => True) s := by
  have hkeep : ∀ row ∈ s₀.world.archive, row ∈ (s.world.remove folder uid).archive := by
    intro row hrow
    refine mem_filter.mpr ⟨hb.archive row hrow, ?_⟩
    simpa using hnew row hrow
  unfold removeLocal
  apply op_at
  · exact fun faults => hb.faults faults
  · intro e faults w hw
    refine ⟨?_, trivial⟩
    rcases hw with rfl | ⟨fault, rfl⟩
    · exact hb.push faults trivial hb.server hb.archive
    · exact hb.push faults trivial hb.server hkeep
  · intro fault faults
    exact ⟨hb.push faults trivial hb.server hkeep, trivial⟩

end Quiet

section Copy

variable [DecidableEq β] {s₀ s : Ctl β} {account folder local_ : Str} {c : Candidate} {now : Int}

/-- What a copy that succeeds leaves. -/
abbrev Done (local_ : Str) (raw : β) (r : Except (Str × Str) Unit) (t : Ctl β) : Prop :=
  r = .ok () → Copied local_ raw t

omit [DecidableEq β] in
theorem markVerified_at (hb : Base s₀ s) {uid : Nat} {raw : β} (hc : Copied local_ raw s) :
    At (Base s₀) (markVerified account folder local_ c now uid) (Done local_ raw) s := by
  unfold markVerified
  refine orFail_at (journalSet_at hb _) ?_ ?_
  · intro _ t hbt hst
    exact At.pure hbt fun _ => hc.base hst
  · intro e t _ h
    cases h

theorem storeAndCheck_at (hb : Base s₀ s) (message : RawMessageCopy β) :
    At (Base s₀) (storeAndCheck account folder local_ c message now) (Done local_ message.raw) s := by
  unfold storeAndCheck
  refine orFail_at (storeLocal_at hb local_ message) ?_ fun e t _ h => by cases h
  intro uid t hbt hnew
  refine orFail_at (journalSet_at hbt _) ?_ fun e t _ h => by cases h
  intro _ u hbu _
  refine At.bind (readLocal_at hbu local_ uid) ?_
  intro back v hbv hread
  split
  · rename_i hback
    exact markVerified_at hbv (hread.2 _ hback)
  · refine At.bind (removeLocal_at hbv (hnew uid rfl)) ?_
    intro _ x hbx _
    refine At.bind (journalClear_at hbx account folder [c.uid]) ?_
    intro _ y hby _
    exact At.pure hby fun h => by cases h

theorem journalCopy_at (hb : Base s₀ s) {raw : β} {journal : Option JournalRow}
    {k : Option Nat → M β (Except (Str × Str) Unit)} (hnone : ∀ t, Base s₀ t → At (Base s₀) (k none) (Done local_ raw) t)
    (hsome : ∀ uid t, Base s₀ t → Copied local_ raw t → At (Base s₀) (k (some uid)) (Done local_ raw) t) :
    At (Base s₀) (journalCopy local_ raw journal k) (Done local_ raw) s := by
  unfold journalCopy
  split
  · split
    · split
      · refine orFail_at (readLocal_at hb _ _) ?_ fun e t _ h => by cases h
        intro back t hbt hread
        split
        · rename_i hback
          exact hsome _ t hbt (hread.2 raw (by rw [hback]))
        · exact hnone t hbt
      · exact hnone s hb
    · exact hnone s hb
  · exact hnone s hb

theorem firstCopy_at {raw : β} {k : Option Nat → M β (Except (Str × Str) Unit)}
    (hnone : ∀ t, Base s₀ t → At (Base s₀) (k none) (Done local_ raw) t)
    (hsome : ∀ uid t, Base s₀ t → Copied local_ raw t → At (Base s₀) (k (some uid)) (Done local_ raw) t) :
    ∀ (uids : List Nat) (s : Ctl β), Base s₀ s →
      At (Base s₀) (firstCopy local_ raw k uids) (Done local_ raw) s
  | [], s, hb => hnone s hb
  | uid :: uids, s, hb => by
    unfold firstCopy
    refine orFail_at (readLocal_at hb _ _) ?_ (fun e t _ h => by cases h)
    intro back t hbt hread
    split
    · rename_i hback
      exact hsome _ t hbt (hread.2 raw (by rw [hback]))
    · exact firstCopy_at hnone hsome uids t hbt

/-- **Copying one message** touches nothing on the server and no copy that was there before, whatever
fails; if it succeeds, there is a copy with exactly these bytes, and it was read back. -/
theorem copyOneLocal_at (idOf : β → Str) (lower : Str → Str) (hb : Base s₀ s) (message : RawMessageCopy β) :
    At (Base s₀) (copyOneLocal idOf lower account folder local_ c message now) (Done local_ message.raw) s := by
  unfold copyOneLocal
  refine orFail_at (journalGet_at hb _ _ _) ?_ fun e t _ h => by cases h
  intro journal t hbt _
  refine journalCopy_at hbt ?_ ?_
  · intro u hbu
    refine orFail_at (findLocal_at hbu _ _ _ _) ?_ fun e t _ h => by cases h
    intro uids v hbv _
    refine firstCopy_at ?_ ?_ uids v hbv
    · exact fun x hbx => storeAndCheck_at hbx message
    · exact fun uid x hbx hc => markVerified_at hbx hc
  · exact fun uid u hbu hc => markVerified_at hbu hc

/-- A message that may be deleted: it is on the server under the uid, it was fetched, and its bytes are
in the local folder, read back. -/
def Verified (account folder local_ : Str) (t : Ctl β) (uid : Nat) : Prop :=
  ∃ raw, (∃ row ∈ t.world.server, row.key = (account, folder, uid) ∧ row.raw = raw) ∧
    (∃ w, (.fetched account folder uid raw, w) ∈ t.trace) ∧ Copied local_ raw t

omit [DecidableEq β] in
theorem Verified.base {t : Ctl β} {uid : Nat} (h : Verified account folder local_ s uid)
    (hb : Base s t) : Verified account folder local_ t uid := by
  obtain ⟨raw, ⟨row, hrow, hk⟩, ⟨w, hw⟩, hc⟩ := h
  exact ⟨raw, ⟨row, by rw [hb.server]; exact hrow, hk⟩, ⟨w, hb.mem_trace hw⟩, hc.base hb⟩

/-- The messages of a chunk: those that come out as verified are. -/
theorem copyChunk_at (idOf : β → Str) (lower : Str → Str) :
    ∀ (cs : List Candidate) (p : Progress) (verified : List Candidate) (s : Ctl β), Base s₀ s →
      (∀ c ∈ verified, Verified account folder local_ s c.uid) →
        At (Base s₀) (copyChunk idOf lower account folder local_ now cs p verified)
          (fun r t => ∀ c ∈ r.2, Verified account folder local_ t c.uid) s
  | [], p, verified, s, hb, hv => At.pure hb hv
  | c :: cs, p, verified, s, hb, hv => by
    unfold copyChunk
    refine At.bind (fetch_at hb _ _ _) ?_
    rintro r t hbt ⟨hst, hfetch⟩
    have hvt : ∀ c ∈ verified, Verified account folder local_ t c.uid :=
      fun x hx => (hv x hx).base hst
    split
    · rename_i message
      obtain ⟨⟨row, hrow, hkey, hraw⟩, hev⟩ := hfetch message rfl
      -- the copy is a stretch of its own, so what was verified before it still is
      have hcopy : At (Base s₀) (copyOneLocal idOf lower account folder local_ c message now)
          (fun r u => Base t u ∧ Done local_ message.raw r u) t :=
        (copyOneLocal_at idOf lower (Base.refl t) message).mono (fun u hu => hbt.trans hu) fun r u hu hd => ⟨hu, hd⟩
      refine At.bind hcopy ?_
      rintro r u hbu ⟨htu, hdone⟩
      have hvu : ∀ c ∈ verified, Verified account folder local_ u c.uid :=
        fun x hx => (hvt x hx).base htu
      split
      · apply copyChunk_at idOf lower cs p (verified ++ [c]) u hbu
        intro x hx
        rcases mem_append.mp hx with hx | hx
        · exact hvu x hx
        · rw [mem_singleton.mp hx]
          obtain ⟨w, hw⟩ := hev
          refine ⟨message.raw, ⟨row, ?_, hkey, hraw⟩, ⟨w, htu.mem_trace hw⟩, hdone rfl⟩
          rw [htu.server]
          exact hrow
      · exact copyChunk_at idOf lower cs _ verified u hbu hvu
    · refine At.bind (journalClear_at hbt _ _ _) ?_
      intro _ u hbu htu
      exact copyChunk_at idOf lower cs _ verified u hbu fun x hx => (hvt x hx).base htu
    · exact copyChunk_at idOf lower cs _ verified t hbt hvt

omit [DecidableEq β] in
theorem markKept_at : ∀ (cs : List Candidate) (s : Ctl β), Base s₀ s →
    At (Base s₀) (markKept account folder local_ now cs) (fun _ _ => True) s
  | [], _, hb => At.pure hb trivial
  | c :: cs, s, hb => by
    unfold markKept
    refine At.bind (journalGet_at hb _ _ _) ?_
    intro r t hbt _
    split
    · refine At.bind (journalSet_at hbt _) ?_
      intro _ u hbu _
      exact markKept_at cs u hbu
    · exact markKept_at cs t hbt

end Copy

/-! ## A whole run -/

/-- A message is on the server, or in a local folder that its own folder is archived to. -/
def Held (targets : List (Str × Str × Str)) (w : World β) (m : ServerRow β) : Prop :=
  m ∈ w.server ∨ ∃ local_, (m.account, m.folder, local_) ∈ targets ∧ ∃ uid, ⟨local_, uid, m.raw⟩ ∈ w.archive

/-- Every deletion asked for comes after the fetch and the read back of each of its messages, and none
is asked for when the server's copy is kept. -/
def Disciplined (keep : Bool) (targets : List (Str × Str × Str)) (trace : List (Event β × World β)) : Prop :=
  ∀ pre account folder uids w post, trace = pre ++ (.delete account folder uids, w) :: post →
    keep = false ∧ ∀ uid ∈ uids, ∃ raw local_ localUid,
      (account, folder, local_) ∈ targets ∧ (∃ v, (.fetched account folder uid raw, v) ∈ pre) ∧
        ∃ v, (.readBack local_ localUid raw, v) ∈ pre

/-- The invariant of a run: the messages `ms` are held now and were held at every moment, and every
deletion was in order. -/
structure RunInv (keep : Bool) (targets : List (Str × Str × Str)) (ms : List (ServerRow β)) (t : Ctl β) :
    Prop where
  now : ∀ m ∈ ms, Held targets t.world m
  moments : ∀ p ∈ t.trace, ∀ m ∈ ms, Held targets p.2 m
  disciplined : Disciplined keep targets t.trace

theorem Held.mono {targets : List (Str × Str × Str)} {w w' : World β} {m : ServerRow β}
    (h : Held targets w m) (hs : w'.server = w.server) (ha : ∀ r ∈ w.archive, r ∈ w'.archive) : Held targets w' m := by
  rcases h with h | ⟨l, hl, uid, hr⟩
  · exact .inl (by rw [hs]; exact h)
  · exact .inr ⟨l, hl, uid, ha _ hr⟩

theorem Disciplined.append {keep : Bool} {targets : List (Str × Str × Str)} {trace new : List (Event β × World β)}
    (h : Disciplined keep targets trace) (hq : ∀ p ∈ new, p.1.quiet) : Disciplined keep targets (trace ++ new) := by
  intro pre account folder uids w post he
  rcases append_eq_append_iff.mp he with ⟨mid, hpre, hnew⟩ | ⟨mid, htrace, hpost⟩
  · -- the deletion would be one of the new events
    have hmem : (Event.delete account folder uids, w) ∈ new := by
      rw [hnew]
      simp
    exact absurd (hq _ hmem) (by simp [Event.quiet])
  · cases mid with
    | nil =>
      rw [append_nil] at htrace
      have hmem : (Event.delete account folder uids, w) ∈ new := by
        rw [← nil_append new, ← hpost]
        simp
      exact absurd (hq _ hmem) (by simp [Event.quiet])
    | cons x mid =>
      rw [cons_append, List.cons.injEq] at hpost
      rw [← hpost.1] at htrace
      exact h pre account folder uids w mid htrace

section Whole

variable {keep : Bool} {targets : List (Str × Str × Str)} {ms : List (ServerRow β)}

/-- A quiet stretch keeps the invariant. -/
theorem RunInv.base {s t : Ctl β} (h : RunInv keep targets ms s) (hb : Base s t) : RunInv keep targets ms t := by
  obtain ⟨new, hnew, hp⟩ := hb.trace
  refine ⟨fun m hm => (h.now m hm).mono hb.server hb.archive, fun p hmem m hm => ?_, ?_⟩
  · rw [hnew] at hmem
    rcases mem_append.mp hmem with hmem | hmem
    · exact h.moments p hmem m hm
    · exact (h.now m hm).mono (hp p hmem).2.1 (hp p hmem).2.2
  · rw [hnew]
    exact h.disciplined.append fun p hmem => (hp p hmem).1

theorem RunInv.faults {s : Ctl β} (h : RunInv keep targets ms s) (faults : List (Fault β)) :
    RunInv keep targets ms { s with faults } := ⟨h.now, h.moments, h.disciplined⟩

/-- One more moment, in which the messages are held, after an event that is in order. -/
theorem RunInv.push {s : Ctl β} (h : RunInv keep targets ms s) {w : World β} {e : Event β}
    (faults : List (Fault β)) (hw : ∀ m ∈ ms, Held targets w m) (he : ∀ account folder uids, e = .delete account folder uids →
      keep = false ∧ ∀ uid ∈ uids, ∃ raw local_ localUid,
        (account, folder, local_) ∈ targets ∧ (∃ v, (.fetched account folder uid raw, v) ∈ s.trace) ∧
          ∃ v, (.readBack local_ localUid raw, v) ∈ s.trace) : RunInv keep targets ms ⟨w, faults, s.trace ++ [(e, w)]⟩ := by
  refine ⟨hw, fun p hmem m hm => ?_, ?_⟩
  · rcases mem_append.mp hmem with hmem | hmem
    · exact h.moments p hmem m hm
    · rw [mem_singleton.mp hmem]
      exact hw m hm
  · intro pre account folder uids v post heq
    rcases eq_nil_or_concat post with rfl | ⟨post', last, rfl⟩
    · obtain ⟨hpre, hlast⟩ := append_inj' heq rfl
      rw [List.cons.injEq] at hlast
      rw [← hpre]
      exact he account folder uids (congrArg Prod.fst hlast.1)
    · rw [concat_eq_append, ← cons_append, ← append_assoc] at heq
      obtain ⟨htrace, _⟩ := append_inj' heq rfl
      exact h.disciplined pre account folder uids v post' htrace

/-- Deleting verified messages: each of them is in the local archive. -/
theorem deleteOnServer_at {s : Ctl β} {account folder local_ : Str} {uids : List Nat}
    (h : RunInv false targets ms s) (htarget : (account, folder, local_) ∈ targets)
    (hv : ∀ uid ∈ uids, Verified account folder local_ s uid) :
    At (RunInv false targets ms) (deleteOnServer account folder uids) (fun _ _ => True) s := by
  have hheld : ∀ gone : List Nat, (∀ u ∈ gone, u ∈ uids) →
      ∀ m ∈ ms, Held targets (s.world.expunge account folder gone) m := by
    intro gone hgone m hm
    rcases h.now m hm with hserver | ⟨l, hl, uid, hr⟩
    · by_cases hmatch : m.account = account ∧ m.folder = folder ∧ m.uid ∈ gone
      · obtain ⟨rfl, rfl, hu⟩ := hmatch
        obtain ⟨raw, ⟨row, hrow, hkey, hraw⟩, _, localUid, harch, _⟩ := hv m.uid (hgone _ hu)
        have hsame : row = m := inj_on_of_nodup_map s.world.serverKeyed hrow hserver hkey
        refine .inr ⟨local_, htarget, localUid, ?_⟩
        rw [← hsame, hraw]
        exact harch
      · refine .inl (mem_filter.mpr ⟨hserver, ?_⟩)
        simp only [Bool.not_eq_true', Bool.and_eq_false_iff, decide_eq_false_iff_not, contains_eq_mem]
        tauto
    · exact .inr ⟨l, hl, uid, hr⟩
  have horder : ∀ account' folder' uids', Event.delete account folder uids =
      (.delete account' folder' uids' : Event β) → false = false ∧ ∀ uid ∈ uids', ∃ raw local_ localUid,
        (account', folder', local_) ∈ targets ∧ (∃ v, (.fetched account' folder' uid raw, v) ∈ s.trace) ∧
          ∃ v, (.readBack local_ localUid raw, v) ∈ s.trace := by
    intro account' folder' uids' he
    cases he
    refine ⟨rfl, fun uid hu => ?_⟩
    obtain ⟨raw, _, hf, localUid, _, hr⟩ := hv uid hu
    exact ⟨raw, local_, localUid, htarget, hf, hr⟩
  unfold deleteOnServer
  apply op_at
  · exact fun faults => h.faults faults
  · intro e faults w hw
    refine ⟨h.push faults ?_ horder, trivial⟩
    rcases hw with rfl | ⟨fault, rfl⟩
    · exact h.now
    · exact hheld _ fun u hu => Fault.reached_subset hu
  · intro fault faults
    exact ⟨h.push faults (hheld _ fun u hu => Fault.reached_subset hu) horder, trivial⟩

theorem allChunks_at {J : Ctl β → Prop} {one : List Candidate → Progress → M β Progress} :
    ∀ (cs : List (List Candidate)) (p : Progress) (s : Ctl β),
      (∀ chunk ∈ cs, ∀ p s, J s → At J (one chunk p) (fun _ _ => True) s) → J s →
        At J (allChunks one cs p) (fun _ _ => True) s
  | [], _, _, _, hs => At.pure hs trivial
  | chunk :: rest, p, s, hone, hs => by
    unfold allChunks
    refine At.bind (hone chunk mem_cons_self p s hs) ?_
    intro p' t ht _
    exact allChunks_at rest p' t (fun c hc => hone c (mem_cons_of_mem _ hc)) ht

section Folders

variable [DecidableEq β] (idOf : β → Str) (lower : Str → Str)

theorem localChunk_at {policy : Policy} {account : Str} {planned : PlannedFolder} {now : Int}
    {chunk : List Candidate} {p : Progress} {s : Ctl β} (h : RunInv policy.keepServerCopy targets ms s)
    (htarget : (account, planned.folder, planned.target) ∈ targets) : At (RunInv policy.keepServerCopy targets ms)
      (localChunk idOf lower policy account planned now chunk p) (fun _ _ => True) s := by
  unfold localChunk
  have hcopy : At (RunInv policy.keepServerCopy targets ms)
      (copyChunk idOf lower account planned.folder planned.target now chunk p [])
      (fun r t => ∀ c ∈ r.2, Verified account planned.folder planned.target t c.uid) s :=
    (copyChunk_at idOf lower chunk p [] s (Base.refl s) (by simp)).mono (fun t ht => h.base ht) fun _ _ _ hq => hq
  refine At.bind hcopy ?_
  rintro ⟨p', verified⟩ t ht hverified
  simp only
  split
  · exact At.pure ht trivial
  · split
    · refine At.bind (R := fun _ _ => True) ?_ fun _ u hu _ => At.pure hu trivial
      exact (markKept_at verified t (Base.refl t)).mono (fun u hu => ht.base hu) fun _ _ _ hq => hq
    · rename_i hkeep
      have hfalse : policy.keepServerCopy = false := by simpa using hkeep
      rw [hfalse] at ht ⊢
      refine At.bind (deleteOnServer_at ht htarget ?_) ?_
      · intro uid hu
        obtain ⟨c, hc, rfl⟩ := mem_map.mp hu
        exact hverified c hc
      · intro r u hu _
        split
        · refine At.bind (R := fun _ _ => True) ?_ fun _ v hv _ => At.pure hv trivial
          exact (journalClear_at (Base.refl u) _ _ _).mono (fun v hv => hu.base hv) fun _ _ _ _ => trivial
        · exact At.pure hu trivial

theorem allFolders_at {policy : Policy} {plan : Plan} {now : Int} (hdest : plan.destination = .local_) :
    ∀ (folders : List PlannedFolder), (∀ f ∈ folders, (plan.account, f.folder, f.target) ∈ targets) →
      ∀ (log : RunLog) (s : Ctl β), RunInv policy.keepServerCopy targets ms s →
        At (RunInv policy.keepServerCopy targets ms) (allFolders idOf lower policy plan now folders log) (fun _ _ => True) s
  | [], _, _, _, hs => At.pure hs trivial
  | planned :: rest, hf, log, s, hs => by
    unfold allFolders
    rw [hdest]
    refine At.bind (allChunks_at _ _ s ?_ hs) ?_
    · intro chunk _ p u hu
      exact localChunk_at idOf lower hu (hf planned (by simp))
    · intro p t ht _
      exact allFolders_at hdest rest (fun f hfr => hf f (mem_cons_of_mem _ hfr)) _ t ht

/-- **One run to the local archive**, whatever fails in it and wherever it stops: every message is held
at every moment, and every deletion is in order. -/
theorem execute_at {policy : Policy} {plan : Plan} {now : Int} (hdest : plan.destination = .local_)
    (hf : ∀ f ∈ plan.folders, (plan.account, f.folder, f.target) ∈ targets) {s : Ctl β}
    (hs : RunInv policy.keepServerCopy targets ms s) :
    RunInv policy.keepServerCopy targets ms (execute idOf lower policy plan now s).2 :=
  (allFolders_at idOf lower hdest plan.folders hf _ s hs).1

end Folders

end Whole

/-! ## Any number of runs -/

section Runs

variable [DecidableEq β] (idOf : β → Str) (lower : Str → Str)

/-- A run: where it starts, what it carries out, and what fails in it. -/
structure Run (β : Type) where
  start : World β
  policy : Policy
  plan : Plan
  now : Int
  faults : List (Fault β)

/-- Where a run ends, or stops. -/
def Run.final (r : Run β) : Ctl β :=
  (execute idOf lower r.policy r.plan r.now ⟨r.start, r.faults, []⟩).2

/-- The worlds there are while a run goes on. -/
def Run.Moment (r : Run β) (v : World β) : Prop :=
  v = r.start ∨ v = (r.final idOf lower).world ∨ ∃ e, (e, v) ∈ (r.final idOf lower).trace

/-- Where a run's folders are archived to. -/
def Run.targets (r : Run β) : List (Str × Str × Str) :=
  r.plan.folders.map (fun f => (r.plan.account, f.folder, f.target))

/-- Between two runs nothing is deleted; anything may arrive, and the journal may change. -/
structure Arrives (w w' : World β) : Prop where
  server : ∀ m ∈ w.server, m ∈ w'.server
  archive : ∀ r ∈ w.archive, r ∈ w'.archive

/-- The runs follow one another, the first from the world `w`. -/
def Follows : World β → List (Run β) → Prop
  | _, [] => True
  | w, r :: rs => Arrives w r.start ∧ Follows (r.final idOf lower).world rs

omit [DecidableEq β] in
theorem Held.arrives {targets : List (Str × Str × Str)} {w w' : World β} {m : ServerRow β}
    (h : Held targets w m) (ha : Arrives w w') : Held targets w' m := by
  rcases h with h | ⟨l, hl, uid, hr⟩
  · exact .inl (ha.server m h)
  · exact .inr ⟨l, hl, uid, ha.archive _ hr⟩

theorem Run.inv (r : Run β) (hdest : r.plan.destination = .local_) {targets : List (Str × Str × Str)}
    (ht : ∀ x ∈ r.targets, x ∈ targets) (ms : List (ServerRow β)) (hms : ∀ m ∈ ms, Held targets r.start m) :
    RunInv r.policy.keepServerCopy targets ms (r.final idOf lower) := by
  apply execute_at idOf lower hdest
  · intro f hf
    exact ht _ (mem_map_of_mem hf)
  · refine ⟨hms, by simp, ?_⟩
    intro pre account folder uids w post he
    exact absurd he.symm (by simp)

/-- Messages held at the start of some runs stay held at every moment of them. -/
theorem held_through {targets : List (Str × Str × Str)} (ms : List (ServerRow β)) :
    ∀ (runs : List (Run β)) (w : World β), Follows idOf lower w runs →
      (∀ r ∈ runs, r.plan.destination = .local_) → (∀ r ∈ runs, ∀ x ∈ r.targets, x ∈ targets) →
      (∀ m ∈ ms, Held targets w m) →
        ∀ r ∈ runs, ∀ v, r.Moment idOf lower v → ∀ m ∈ ms, Held targets v m
  | [], _, _, _, _, _, _, hr, _, _, _, _ => by cases hr
  | r :: rs, w, hfol, hdest, htar, hms, r', hr', v, hv, m, hm => by
    have hstart : ∀ m ∈ ms, Held targets r.start m := fun m hm => (hms m hm).arrives hfol.1
    have hinv := r.inv idOf lower (hdest r (by simp)) (htar r (by simp)) ms hstart
    rcases mem_cons.mp hr' with rfl | hr'
    · rcases hv with rfl | rfl | ⟨e, he⟩
      · exact hstart m hm
      · exact hinv.now m hm
      · exact hinv.moments _ he m hm
    · exact held_through ms rs _ hfol.2 (fun x hx => hdest x (mem_cons_of_mem _ hx))
        (fun x hx => htar x (mem_cons_of_mem _ hx)) hinv.now r' hr' v hv m hm

/-- **Archiving to the local archive never loses a message**, over any number of runs, whatever fails in
them and wherever they stop.  Every message on the server when a run starts is, at every moment of it
and of the runs after it, still on the server or in a local folder its folder is archived to, with
exactly its bytes; and every deletion a run asks for is of messages it has fetched and whose copy it
has read back with those bytes, and of none when the server's copy is kept. -/
theorem archived_never_lost {w : World β} {before after : List (Run β)} {r : Run β}
    (hfol : Follows idOf lower w (before ++ r :: after)) (hlocal : ∀ x ∈ before ++ r :: after, x.plan.destination = .local_) :
    (∀ m ∈ r.start.server, ∀ x ∈ r :: after, ∀ v, x.Moment idOf lower v →
      Held ((r :: after).flatMap Run.targets) v m) ∧
    Disciplined r.policy.keepServerCopy r.targets (r.final idOf lower).trace := by
  have hlocal' : ∀ x ∈ r :: after, x.plan.destination = .local_ :=
    fun x hx => hlocal x (mem_append_right _ hx)
  have hfol' : Follows idOf lower r.start (r :: after) := by
    have hsuffix : ∀ (l : List (Run β)) (w : World β), Follows idOf lower w (l ++ r :: after) →
        Follows idOf lower r.start (r :: after) := by
      intro l
      induction l with
      | nil => exact fun w h => ⟨⟨fun _ hm => hm, fun _ hr => hr⟩, h.2⟩
      | cons x l ih => exact fun w h => ih _ h.2
    exact hsuffix before w hfol
  constructor
  · intro m hm x hx v hv
    refine held_through idOf lower r.start.server (r :: after) r.start hfol' hlocal' ?_ ?_ x hx v hv m hm
    · intro y hy z hz
      exact mem_flatMap.mpr ⟨y, hy, hz⟩
    · exact fun m hm => .inl hm
  · exact (r.inv idOf lower (hlocal' r (by simp)) (fun _ hx => hx) [] (by simp)).disciplined

end Runs

/-- One message in INBOX, with its bytes. -/
def oneMessage : World (List Nat) :=
  ⟨[⟨"me", "INBOX", 7, [1, 2, 3], true, false⟩], by simp [Keyed], [],
    by simp [Keyed], []⟩

/-- A run that archives it; the first try of the deletion fails after its effect. -/
def archivingRun : Run (List Nat) :=
  { start := oneMessage
    policy := ⟨false⟩
    plan := ⟨"me", .local_, "Archived/me",
      [⟨"INBOX", "Archived/me/INBOX", [⟨7, 0, true, false, "<a>", "hi"⟩]⟩]⟩
    now := 0
    faults := [.none, .none, .none, .none, .none, .none, .none, .after "timeout"] }

theorem archivingRun_keeps : (archivingRun.final (fun _ => []) id).world.server.length = 0 ∧
      ∀ m ∈ oneMessage.server, ∀ v, archivingRun.Moment (fun _ => []) id v →
        Held ([archivingRun].flatMap Run.targets) v m := by
  have hgone : (archivingRun.final (fun _ => []) id).world.server.length = 0 := by decide +kernel
  have hfol : Follows (fun _ => []) id oneMessage ([] ++ archivingRun :: []) :=
    ⟨⟨fun _ h => h, fun _ h => h⟩, trivial⟩
  have hlocal : ∀ x ∈ [] ++ archivingRun :: [], x.plan.destination = .local_ := by
    intro x hx
    rw [mem_singleton.mp hx]
    rfl
  have h := (archived_never_lost (fun _ => []) id hfol hlocal).1
  exact ⟨hgone, fun m hm v hv => h m hm archivingRun (mem_singleton_self _) v hv⟩

end Oreneta.AutoArchive

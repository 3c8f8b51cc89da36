import Oreneta.TaskSync.AccountLists

/-!
# What writes to the entries and deletes nothing

* `Anchored` — one entry a key, and the list of every linked CalDAV entry is here.
* `Grows` — lists, tasks and accounts as they were, declined and linked entries still so, and `Anchored` kept.
* `migrate_grows`, `recordChoice_grows`, `applyRescan_grows`, … — one lemma for each operation.
-/

namespace Oreneta.TaskSync.AccountLists

open Text Fallible Table List Option

def Source.isCollection : Source → Bool
  | .collection _ => true
  | _ => false

/-- The entry's list is here, and is not a copy of an Exchange folder. -/
def Home (lists : List TaskList) (e : Entry) : Prop := ∃ l ∈ lists, l.id = e.listId ∧ l.ewsAccount = []

/-- What a row may become: declined and linked stay, and a list it takes is here. -/
def Carries (lists : List TaskList) (e e' : Entry) : Prop :=
  (e.state = .declined → e'.state = .declined) ∧ (e.state = .linked → e'.state = .linked) ∧
    (e'.state = .linked → e.key.source.isCollection → e.state = .linked ∧ e'.listId = e.listId ∨ Home lists e')

namespace Db

variable {τ : Type} {db db' db'' : Db τ} {key : Key} {e : Entry} {now : Int}

structure Anchored (db : Db τ) : Prop where
  keyed : Keyed Entry.key db.entries
  free : ∀ l ∈ db.lists, l.remoteUrl ≠ [] → l.ewsAccount = []
  home : ∀ key e, db.entry key = some e → e.state = .linked → key.source.isCollection → Home db.lists e

structure Grows (db db' : Db τ) : Prop where
  lists : db'.lists = db.lists
  tasks : db'.tasks = db.tasks
  accounts : db'.accounts = db.accounts
  anchored : db.Anchored → db'.Anchored
  declined : ∀ key, db.stateOf key = some .declined → db'.stateOf key = some .declined
  linked : ∀ key, db.stateOf key = some .linked → db'.stateOf key = some .linked

theorem Grows.refl (db : Db τ) : db.Grows db :=
  ⟨rfl, rfl, rfl, fun h => h, fun _ h => h, fun _ h => h⟩

theorem Grows.trans (h : db.Grows db') (h' : db'.Grows db'') : db.Grows db'' where
  lists := h'.lists.trans h.lists
  tasks := h'.tasks.trans h.tasks
  accounts := h'.accounts.trans h.accounts
  anchored := fun ha => h'.anchored (h.anchored ha)
  declined := fun key hk => h'.declined key (h.declined key hk)
  linked := fun key hk => h'.linked key (h.linked key hk)

/-! ## Rows -/

theorem entry_key (h : db.entry key = some e) : e.key = key := (lookup_some h).2

theorem stateOf_some {state : EntryState} : db.stateOf key = some state ↔ ∃ e, db.entry key = some e ∧ e.state = state := by
  unfold stateOf
  rw [map_eq_some_iff]

theorem stateOf_none : db.stateOf key = none ↔ db.entry key = none := by
  unfold stateOf
  rw [map_eq_none_iff]

section Rows

variable {p : Entry → Bool} {f : Entry → Entry}

theorem entry_updateWhere (hf : ∀ e, (f e).key = e.key) :
    (db.updateWhere p f).entry key = (db.entry key).map (fun e => if p e then f e else e) :=
  lookup_update hf

theorem entry_append : (db.append e).entry key = (db.entry key).or (if key = e.key then some e else none) := by
  show lookup Entry.key (db.entries ++ [e]) key = _
  rw [Table.lookup_append, Table.lookup_singleton]
  rfl

theorem entry_append_other (h : key ≠ e.key) : (db.append e).entry key = db.entry key := by
  rw [entry_append, if_neg h, or_none]

theorem updateWhere_anchored (hf : ∀ e, (f e).key = e.key) (ha : db.Anchored)
    (h : ∀ key e, db.entry key = some e → p e = true → (f e).state = .linked → key.source.isCollection →
      e.state = .linked ∧ (f e).listId = e.listId ∨ Home db.lists (f e)) : (db.updateWhere p f).Anchored := by
  refine ⟨ha.keyed.update hf, ha.free, ?_⟩
  intro key e he hs hc
  rw [entry_updateWhere hf] at he
  obtain ⟨old, hold, rfl⟩ := map_eq_some_iff.mp he
  split at hs
  · rename_i hp
    rw [if_pos hp]
    rcases h key old hold hp hs hc with ⟨hlinked, hid⟩ | hhome
    · obtain ⟨l, hl, hlid, hfree⟩ := ha.home key old hold hlinked hc
      exact ⟨l, hl, hlid.trans hid.symm, hfree⟩
    · exact hhome
  · rename_i hp
    rw [if_neg hp]
    exact ha.home key old hold hs hc

theorem updateWhere_grows (hf : ∀ e, (f e).key = e.key)
    (h : ∀ key e, db.entry key = some e → p e = true → Carries db.lists e (f e)) : db.Grows (db.updateWhere p f) := by
  have hstate : ∀ key e, db.entry key = some e →
      (db.updateWhere p f).stateOf key = some (if p e then f e else e).state := by
    intro key e he
    rw [stateOf_some]
    exact ⟨_, by rw [entry_updateWhere hf, he]; rfl, rfl⟩
  refine ⟨rfl, rfl, rfl, fun ha => updateWhere_anchored hf ha ?_, ?_, ?_⟩
  · intro key e he hp hs hc
    exact (h key e he hp).2.2 hs (by rw [entry_key he]; exact hc)
  · intro key hk
    obtain ⟨e, he, hs⟩ := stateOf_some.mp hk
    rw [hstate key e he]
    split
    · rename_i hp
      rw [(h key e he hp).1 hs]
    · rw [hs]
  · intro key hk
    obtain ⟨e, he, hs⟩ := stateOf_some.mp hk
    rw [hstate key e he]
    split
    · rename_i hp
      rw [(h key e he hp).2.1 hs]
    · rw [hs]

theorem append_grows (hnew : db.entry e.key = none)
    (h : e.state = .linked → e.key.source.isCollection → Home db.lists e) : db.Grows (db.append e) := by
  have hold : ∀ key state, db.stateOf key = some state → (db.append e).stateOf key = some state := by
    intro key state hk
    obtain ⟨old, hold, hs⟩ := stateOf_some.mp hk
    exact stateOf_some.mpr ⟨old, by rw [entry_append, hold]; rfl, hs⟩
  refine ⟨rfl, rfl, rfl, fun ha => ⟨?_, ha.free, ?_⟩, fun key hk => hold key _ hk, fun key hk => hold key _ hk⟩
  · apply ha.keyed.append (by simp [Keyed])
    intro a ha b hb
    rw [mem_singleton.mp hb]
    exact lookup_eq_none.mp hnew a ha
  · intro key e' he hs hc
    rw [entry_append] at he
    cases hk : db.entry key with
    | some old =>
      rw [hk] at he
      cases he
      exact ha.home key _ hk hs hc
    | none =>
      rw [hk, none_or] at he
      split at he
      · rename_i hkey
        cases he
        exact h hs (hkey ▸ hc)
      · cases he

theorem insertEntry_grows (h : e.state = .linked → e.key.source.isCollection → Home db.lists e) :
    db.Grows (db.insertEntry e) := by
  unfold insertEntry
  split
  · exact Grows.refl db
  · rename_i hn
    exact append_grows (by simpa using hn) h

theorem upsert_grows (hf : ∀ e, (f e).key = e.key) (hnew : e.state = .linked → e.key.source.isCollection → Home db.lists e)
    (hold : ∀ old, db.entry e.key = some old → p old = true → Carries db.lists old (f old)) : db.Grows (db.upsert e p f) := by
  unfold upsert
  split
  · apply updateWhere_grows hf
    intro key old hk hp
    obtain ⟨hkey, hp⟩ := Bool.and_eq_true_iff.mp hp
    have hkey : old.key = e.key := of_decide_eq_true hkey
    exact hold old (by rw [← hkey, entry_key hk]; exact hk) hp
  · rename_i hn
    exact append_grows (by simpa using hn) hnew

end Rows

/-! ## One entry -/

theorem addExchange_grows (account : Str) : db.Grows (db.addExchange account now) :=
  insertEntry_grows fun h => (by cases h)

theorem recordFailure_grows (key : Key) (error : Str) : db.Grows (db.recordFailure key error) := by
  refine updateWhere_grows (fun _ => rfl) ?_
  intro key e _ _
  exact ⟨fun h => h, fun h => h, fun h _ => .inl ⟨h, rfl⟩⟩

theorem acknowledge_grows (key : Key) : db.Grows (db.acknowledge key) := by
  refine updateWhere_grows (fun _ => rfl) ?_
  intro key e _ _
  exact ⟨fun h => h, fun h => h, fun h _ => .inl ⟨h, rfl⟩⟩

/-- Declining what is not linked. -/
theorem setDeclined_grows (h : db.stateOf key ≠ some .linked) : db.Grows (db.setDeclined key now) := by
  refine updateWhere_grows (fun _ => rfl) ?_
  intro key' e he hp
  have hkey : e.key = key := of_decide_eq_true hp
  refine ⟨fun _ => rfl, fun hs => absurd ?_ h, fun hs => (by cases hs)⟩
  rw [← hkey, entry_key he]
  exact stateOf_some.mpr ⟨e, he, hs⟩

theorem markLinked_grows {listId : Str} {adopted : Bool} (hd : db.stateOf key ≠ some .declined)
    (hh : ∃ l ∈ db.lists, l.id = listId ∧ l.ewsAccount = []) : db.Grows (db.markLinked key listId adopted now) := by
  refine upsert_grows (fun _ => rfl) (fun _ _ => hh) ?_
  intro old hold _
  exact ⟨fun hs => absurd (stateOf_some.mpr ⟨old, hold, hs⟩) hd, fun _ => rfl, fun _ _ => .inr hh⟩

theorem markLinked_new {listId : Str} {adopted : Bool} (h : db.entry key = none) :
    db.markLinked key listId adopted now = db.append ⟨key, .linked, listId, adopted, true, [], now⟩ := by
  unfold markLinked upsert
  rw [h]
  rfl

theorem markScanned_grows (key : Key) : db.Grows (db.markScanned key now) := by
  refine upsert_grows (fun _ => rfl) (fun h => (by cases h)) ?_
  intro old _ hp
  have hs : old.state = .pending := of_decide_eq_true hp
  refine ⟨fun h => ?_, fun h => ?_, fun h => (by cases h)⟩
  · rw [hs] at h
    cases h
  · rw [hs] at h
    cases h

/-- A collection the account has no list of waits. -/
theorem markWaiting_grows (hd : db.stateOf key ≠ some .declined) (hl : db.stateOf key ≠ some .linked) :
    db.Grows (db.markWaiting key now) := by
  refine upsert_grows (fun _ => rfl) (fun h => (by cases h)) ?_
  intro old hold _
  exact ⟨fun hs => absurd (stateOf_some.mpr ⟨old, hold, hs⟩) hd,
    fun hs => absurd (stateOf_some.mpr ⟨old, hold, hs⟩) hl, fun h => (by cases h)⟩

/-! ## Adopting a list -/

section Web

variable (W : Web τ)

theorem listForUrl_home (ha : db.Anchored) {url listId : Str} (h : db.listForUrl W url = .ok (some listId)) :
    ∃ l ∈ db.lists, l.id = listId ∧ l.ewsAccount = [] := by
  obtain ⟨wanted, -, h⟩ := bind_ok.mp h
  obtain ⟨l, hl, hid⟩ := map_eq_some_iff.mp (Except.ok.inj h)
  have hsame := find?_some hl
  have hbound : l.remoteUrl ≠ [] := by
    intro hempty
    simp [sameUrl, hempty] at hsame
  exact ⟨l, mem_of_find?_eq_some hl, hid, ha.free l (mem_of_find?_eq_some hl) hbound⟩

/-- The entry adopts the list that is kept at its address. -/
theorem adopt_grows (ha : db.Anchored) {url listId : Str} {adopted : Bool} (hd : db.stateOf key ≠ some .declined)
    (h : db.listForUrl W url = .ok (some listId)) : db.Grows (db.markLinked key listId adopted now) :=
  markLinked_grows hd (listForUrl_home W ha h)

theorem mayWrite_retry (h : db.mayWrite key .retry = true) : db.stateOf key = some .pending := by
  have hstate := (Bool.and_eq_true_iff.mp h).2
  simpa using hstate

variable {account : Str}

/-- A read that begins adopts a list only for an entry that waits. -/
theorem beginLink_grows (ha : db.Anchored) {url listId : Str} {mode : Mode} {made : Db τ}
    (h : db.beginLink W account url mode now = .ok (.adopted made listId)) : db.Grows made := by
  obtain ⟨u, -, h⟩ := bind_ok.mp h
  dsimp only at h
  split at h
  · cases h
  · rename_i hw
    obtain ⟨found, hfound, h⟩ := bind_ok.mp h
    cases found with
    | none => cases h
    | some list =>
      cases mode with
      | byHand => cases h
      | retry =>
        cases h
        refine adopt_grows W ha ?_ hfound
        rw [mayWrite_retry (by simpa using hw)]
        exact fun hk => (by cases hk)

theorem failLink_grows (r : Read) (error : Str) : db.Grows (db.failLink r error) := by
  unfold failLink
  split
  · exact recordFailure_grows r.key error
  · exact Grows.refl db

/-! ## What the dialog chose -/

theorem chooseWanted_grows {raw : Str} {acc acc' : Db τ × Choice} (ha : acc.1.Anchored)
    (h : chooseWanted W account now acc raw = .ok acc') : acc.1.Grows acc'.1 := by
  obtain ⟨url, -, h⟩ := bind_ok.mp h
  obtain ⟨u, -, h⟩ := bind_ok.mp h
  cases hs : acc.1.stateOf ⟨account, .collection u⟩ with
  | some state =>
    cases state with
    | linked =>
      simp only [hs] at h
      cases h
      exact Grows.refl _
    | pending =>
      simp only [hs] at h
      cases h
      exact Grows.refl _
    | declined =>
      simp only [hs] at h
      cases h
      exact Grows.refl _
    | scanned =>
      simp only [hs] at h
      obtain ⟨found, hfound, h⟩ := bind_ok.mp h
      cases found with
      | some list =>
        cases h
        exact adopt_grows W ha (by rw [hs]; exact fun hk => (by cases hk)) hfound
      | none =>
        cases h
        exact markWaiting_grows (by rw [hs]; exact fun hk => (by cases hk)) (by rw [hs]; exact fun hk => (by cases hk))
  | none =>
    simp only [hs] at h
    obtain ⟨found, hfound, h⟩ := bind_ok.mp h
    cases found with
    | some list =>
      cases h
      exact adopt_grows W ha (by rw [hs]; exact fun hk => (by cases hk)) hfound
    | none =>
      cases h
      exact markWaiting_grows (by rw [hs]; exact fun hk => (by cases hk)) (by rw [hs]; exact fun hk => (by cases hk))

theorem chooseDeclined_grows {raw : Str} {acc acc' : Db τ × Choice}
    (h : chooseDeclined W account now acc raw = .ok acc') : acc.1.Grows acc'.1 := by
  obtain ⟨u, -, h⟩ := bind_ok.mp h
  cases hs : acc.1.stateOf ⟨account, .collection u⟩ with
  | none =>
    simp only [hs] at h
    cases h
    exact append_grows (stateOf_none.mp hs) fun hl => (by cases hl)
  | some state =>
    cases state with
    | pending =>
      simp only [hs] at h
      cases h
      exact setDeclined_grows (by rw [hs]; exact fun hk => (by cases hk))
    | linked | declined | scanned =>
      simp only [hs] at h
      cases h
      exact Grows.refl _

theorem recordChoice_grows (ha : db.Anchored) {username : Str} {origins wanted declined : List Str}
    {done : Db τ × Choice} (h : db.recordChoice W account username origins wanted declined now = .ok done) : db.Grows done.1 := by
  unfold recordChoice at h
  split at h
  · split at h
    · cases h
      exact Grows.refl db
    · cases h
  · have hmarked : db.Grows (origins.foldl (fun db origin => db.markScanned ⟨account, .server origin username⟩ now) db) := by
      refine Runs.foldl_invariant (P := fun _ made => db.Grows made) ?_ (Grows.refl db)
      intro _ _ _ _ hg
      exact hg.trans (markScanned_grows _)
    obtain ⟨chosen, hchosen, h⟩ := bind_ok.mp h
    have hwanted : db.Grows chosen.1 := by
      refine foldlM_ok (P := fun acc => db.Grows acc.1) ?_ hmarked hchosen
      intro acc _ _ hg hstep
      exact hg.trans (chooseWanted_grows W (hg.anchored ha) hstep)
    refine foldlM_ok (P := fun acc => db.Grows acc.1) ?_ hwanted h
    intro acc _ _ hg hstep
    exact hg.trans (chooseDeclined_grows W hstep)

/-! ## A server listed again -/

/-- What a listing finds is written under the collection's key, and only where there is no entry. -/
theorem applyCandidate_grows {origin url : Str} {acc acc' : Db τ × Rescanned} (ha : acc.1.Anchored)
    (h : applyCandidate W account origin now acc url = .ok acc') :
    acc.1.Grows acc'.1 ∧ ∀ mark, mark.source.isCollection = false → acc'.1.entry mark = acc.1.entry mark := by
  unfold applyCandidate at h
  split at h
  · cases h
    exact ⟨Grows.refl _, fun _ _ => rfl⟩
  · split at h
    · cases h
      exact ⟨Grows.refl _, fun _ _ => rfl⟩
    · obtain ⟨u, -, h⟩ := bind_ok.mp h
      dsimp only at h
      split at h
      · cases h
        exact ⟨Grows.refl _, fun _ _ => rfl⟩
      · rename_i hs
        have hs : acc.1.stateOf ⟨account, .collection u⟩ = none := by simpa using hs
        have hother : ∀ (mark : Key), mark.source.isCollection = false → mark ≠ ⟨account, .collection u⟩ := by
          intro mark hm hk
          rw [hk] at hm
          cases hm
        obtain ⟨found, hfound, h⟩ := bind_ok.mp h
        cases found with
        | some list =>
          cases h
          refine ⟨adopt_grows W ha (by rw [hs]; exact fun hk => (by cases hk)) hfound, ?_⟩
          intro mark hm
          rw [markLinked_new (stateOf_none.mp hs)]
          exact entry_append_other (hother mark hm)
        | none =>
          cases h
          refine ⟨append_grows (stateOf_none.mp hs) fun hl => (by cases hl), ?_⟩
          intro mark hm
          exact entry_append_other (hother mark hm)

theorem applyRescan_grows (ha : db.Anchored) {origin user : Str} {candidates : List Str}
    {done : Db τ × Rescanned} (h : db.applyRescan W account origin user candidates now = .ok done) : db.Grows done.1 := by
  unfold applyRescan at h
  dsimp only at h
  split at h
  · cases h
    exact Grows.refl db
  · rename_i hw
    have hmark : db.stateOf ⟨account, .server origin user⟩ = some .pending := mayWrite_retry (by simpa using hw)
    obtain ⟨⟨made, found⟩, hmade, h⟩ := bind_ok.mp h
    cases h
    have hfold : db.Grows made ∧ made.entry ⟨account, .server origin user⟩ = db.entry ⟨account, .server origin user⟩ := by
      refine foldlM_ok (P := fun acc => db.Grows acc.1 ∧
        acc.1.entry ⟨account, .server origin user⟩ = db.entry ⟨account, .server origin user⟩) ?_
        ⟨Grows.refl db, rfl⟩ hmade
      intro acc _ _ hg hstep
      obtain ⟨hstep, hkept⟩ := applyCandidate_grows W (hg.1.anchored ha) hstep
      exact ⟨hg.1.trans hstep, (hkept _ rfl).trans hg.2⟩
    refine hfold.1.trans (updateWhere_grows (fun _ => rfl) ?_)
    intro key e he hp
    -- the mark still waits: nothing of the listing was written under it
    have hkey : e.key = ⟨account, .server origin user⟩ := of_decide_eq_true hp
    rw [← entry_key he, hkey, hfold.2] at he
    obtain ⟨old, hold, hs⟩ := stateOf_some.mp hmark
    rw [hold] at he
    cases he
    refine ⟨fun h => ?_, fun h => ?_, fun h => (by cases h)⟩
    · rw [hs] at h
      cases h
    · rw [hs] at h
      cases h

/-! ## The upgrade -/

theorem migrate_grows : db.Grows (db.migrate W now) := by
  have haccounts : db.Grows (db.accounts.foldl (migrateAccount now) db) := by
    refine Runs.foldl_invariant (P := fun _ made => db.Grows made) ?_ (Grows.refl db)
    intro _ a made _ hg
    refine hg.trans ?_
    unfold migrateAccount
    split
    · exact Grows.refl _
    · split
      · exact insertEntry_grows fun _ hc => (by cases hc)
      · exact insertEntry_grows fun h => (by cases h)
  refine haccounts.trans ?_
  refine Runs.foldl_invariant (P := fun _ made => (db.accounts.foldl (migrateAccount now) db).Grows made) ?_ (Grows.refl _)
  intro _ c made _ hg
  refine hg.trans ?_
  unfold migrateCalendar
  split
  · exact Grows.refl _
  · exact insertEntry_grows fun h => (by cases h)

end Web

end Db

end Oreneta.TaskSync.AccountLists

import Oreneta.TaskSync.ListsGrow

/-!
# Account lists over every run

* `Kept` — what the program promises of a step: a declined list comes back only by hand, a read that was overtaken
  writes nothing, every linked CalDAV entry has its list, no two lists are one collection.
* `Undisturbed` — the step is none of those that break it: a list is not deleted under another account's entry, a
  read does not end after its collection got a list, or after its entry was declined or its account went.
* `lists_kept` — every step of a run whose steps are all undisturbed is `Kept`.
* `two_lists` — two reads of one collection, begun before either ended, make two lists of it.
-/

namespace Oreneta.TaskSync.AccountLists

open Text Fallible Table Runs List

variable {τ : Type}

/-! ## The promise -/

/-- The two addresses are one collection. -/
def sameAddress (W : Web τ) (u v : Str) : Bool :=
  match normalizeUrl W u, normalizeUrl W v with
  | .ok a, .ok b => a == b
  | _, _ => false

/-- No two lists are one collection. -/
def Apart (W : Web τ) (lists : List TaskList) : Prop :=
  lists.Pairwise (fun l m => l.remoteUrl ≠ [] → m.remoteUrl ≠ [] → sameAddress W l.remoteUrl m.remoteUrl = false)

/-- What became of the reads on their way: whose entry was declined since they began, whose account went. -/
structure Seen where
  declined : List Read
  gone : List Read
  deriving DecidableEq, Repr

def see (s : Sys τ) (_ : Int × Action τ) (t : Sys τ) (h : Seen) : Seen where
  declined := t.reads.filter (fun r => decide (r ∈ h.declined ∨
    s.db.stateOf r.key ≠ some .declined ∧ t.db.stateOf r.key = some .declined))
  gone := t.reads.filter (fun r => decide (r ∈ h.gone ∨ t.db.accountExists r.key.account = false))

/-- The read the action ends. -/
def Action.ends : Action τ → Option Read
  | .readFailed r _ => some r
  | .readDone r _ _ => some r
  | _ => none

/-- A person asked for the list of `key`, and it was read. -/
def Action.linksByHand (key : Key) : Action τ → Prop
  | .readDone r _ _ => r.key = key ∧ r.mode = .byHand
  | _ => False

structure Kept (W : Web τ) (x : Sys τ × Seen) (a : Action τ) (y : Sys τ × Seen) : Prop where
  declined : ∀ key, x.1.db.stateOf key = some .declined → y.1.db.stateOf key = some .declined ∨ a.linksByHand key ∨
    a = .deleteAccount key.account ∧ y.1.db.stateOf key = none
  overtaken : ∀ r, a.ends = some r → r ∈ x.2.declined ∨ r ∈ x.2.gone → y.1.db = x.1.db
  named : ∀ e ∈ y.1.db.entries, e.state = .linked → e.key.source.isCollection → ∃ l ∈ y.1.db.lists, l.id = e.listId
  apart : Apart W y.1.db.lists

/-! ## The steps that do not break it -/

/-- The entry of a collection whose list it is. -/
def Entry.holds (listId : Str) (e : Entry) : Bool :=
  e.state == .linked && e.key.source.isCollection && e.listId == listId

/-- The entry's list goes with its account. -/
def Entry.goesAlong (e : Entry) : Bool :=
  e.state == .linked && e.key.source.isCollection && !e.adopted && !e.listId.isEmpty

/-- The read can write its list, and what it read can be written. -/
def Read.lands (W : Web τ) (r : Read) (name : Str) (objects : List Object) (db : Db τ) : Bool :=
  db.mayWrite r.key r.mode && !(trim name).isEmpty && objects.all (fun o => (W.todo o.ics).isOk)

/-- The entry that waits now is not the one the read was begun for. -/
def Read.stale (r : Read) (x : Sys τ × Seen) : Prop :=
  r ∈ x.2.gone ∧ r.mode = .retry ∧ x.1.db.stateOf r.key = some .pending

def Undisturbed (W : Web τ) (x : Sys τ × Seen) (a : Int × Action τ) : Prop :=
  match a.2 with
  | .decline key => ∀ e ∈ x.1.db.entry key, e.state = .linked → e.listId ≠ [] →
      ∀ other ∈ x.1.db.entries, other.key ≠ key → ¬ other.holds e.listId
  | .deleteAccount account => ∀ e ∈ x.1.db.entries, e.key.account = account → e.goesAlong →
      ∀ other ∈ x.1.db.entries, other.key.account ≠ account → ¬ other.holds e.listId
  | .readDone r name objects =>
    (r.lands W name objects x.1.db →
      r ∉ x.2.declined ∧ r ∉ x.2.gone ∧
        ∀ l ∈ x.1.db.lists, l.remoteUrl ≠ [] → ¬ sameAddress W l.remoteUrl r.url) ∧ ¬ r.stale x
  | .readFailed r _ => ¬ r.stale x
  | .addList _ _ raw _ _ => ∀ url ∈ W.parse (trim raw), ∀ l ∈ x.1.db.lists, l.remoteUrl ≠ [] →
      sameAddress W l.remoteUrl (W.text url) → l.remoteUrl = W.text url
  | _ => True

instance (W : Web τ) (x : Sys τ × Seen) (a : Int × Action τ) : Decidable (Undisturbed W x a) := by
  unfold Undisturbed Read.stale
  split <;> infer_instance

/-- Before the first step: no entry, no read, and the lists the program had. -/
structure Start (W : Web τ) (s : Sys τ) : Prop where
  entries : s.db.entries = []
  reads : s.reads = []
  free : ∀ l ∈ s.db.lists, l.remoteUrl ≠ [] → l.ewsAccount = []
  apart : Apart W s.db.lists

/-! ## Deleting and making lists -/

namespace Db

variable {db db' : Db τ} {key : Key} {e : Entry} {now : Int} {W : Web τ}

/-- The entry is declined or linked: a first read of it that was begun before has nothing left to do. -/
def Settled (db : Db τ) (key : Key) : Prop := db.stateOf key = some .declined ∨ db.stateOf key = some .linked

/-- What an action keeps of the tables. -/
structure Passes (W : Web τ) (db : Db τ) (a : Action τ) (db' : Db τ) : Prop where
  anchored : db'.Anchored
  apart : Apart W db'.lists
  declined : ∀ key, db.stateOf key = some .declined → db'.stateOf key = some .declined ∨ a.linksByHand key ∨
    a = .deleteAccount key.account ∧ db'.stateOf key = none
  settled : ∀ key, db.Settled key → db'.Settled key ∨ db'.accountExists key.account = false

theorem Grows.passes {a : Action τ} (ha : db.Anchored) (hap : Apart W db.lists) (h : db.Grows db') : db.Passes W a db' where
  anchored := h.anchored ha
  apart := h.lists ▸ hap
  declined := fun key hk => .inl (h.declined key hk)
  settled := fun key hk => .inl (hk.imp (h.declined key) (h.linked key))

/-- Lists that were here are here, and the entries stay as they are. -/
theorem Anchored.of_lists (ha : db.Anchored) (he : db'.entries = db.entries) (hl : ∀ l ∈ db.lists, l ∈ db'.lists)
    (hfree : ∀ l ∈ db'.lists, l.remoteUrl ≠ [] → l.ewsAccount = []) : db'.Anchored := by
  refine ⟨by rw [he]; exact ha.keyed, hfree, ?_⟩
  intro key e hk hs hc
  have hk : db.entry key = some e := by
    unfold entry at hk ⊢
    rwa [he] at hk
  obtain ⟨l, hm, hid, hfree⟩ := ha.home key e hk hs hc
  exact ⟨l, hl l hm, hid, hfree⟩

variable {listId : Str}

theorem holds_iff : e.holds listId ↔ e.state = .linked ∧ e.key.source.isCollection ∧ e.listId = listId := by
  simp [Entry.holds, and_assoc]

theorem entry_mem (h : db.entry key = some e) : e ∈ db.entries := (lookup_some h).1

variable {p : Entry → Bool}

/-- A list goes, and every entry that held it is declined. -/
theorem unlist_anchored (ha : db.Anchored) (hp : ∀ e ∈ db.entries, e.holds listId → p e = true) :
    ((db.updateWhere p (declinedEntry now)).deleteListRows listId).Anchored := by
  refine ⟨ha.keyed.update fun _ => rfl, fun l hl => ha.free l (mem_of_mem_filter hl), ?_⟩
  intro key e he hs hc
  have he : (db.updateWhere p (declinedEntry now)).entry key = some e := he
  rw [entry_updateWhere (f := declinedEntry now) fun _ => rfl] at he
  obtain ⟨old, hold, rfl⟩ := Option.map_eq_some_iff.mp he
  split at hs
  · cases hs
  · rename_i hnot
    rw [if_neg hnot]
    obtain ⟨l, hl, hid, hfree⟩ := ha.home key old hold hs hc
    refine ⟨l, mem_filter.mpr ⟨hl, ?_⟩, hid, hfree⟩
    rw [bne_iff_ne, hid]
    intro hlist
    exact hnot (hp old (entry_mem hold) (holds_iff.mpr ⟨hs, by rw [entry_key hold]; exact hc, hlist⟩))

theorem stateOf_declining : (db.updateWhere p (declinedEntry now)).stateOf key =
      (db.entry key).map (fun e => if p e then .declined else e.state) := by
  unfold stateOf
  rw [entry_updateWhere (f := declinedEntry now) fun _ => rfl, Option.map_map]
  congr 1
  funext e
  show (if p e then declinedEntry now e else e).state = _
  split <;> rfl

theorem declining_declined (h : db.stateOf key = some .declined) :
    (db.updateWhere p (declinedEntry now)).stateOf key = some .declined := by
  obtain ⟨e, he, hs⟩ := stateOf_some.mp h
  rw [stateOf_declining, he, Option.map_some]
  split
  · rfl
  · rw [hs]

theorem declining_settled (h : db.Settled key) : (db.updateWhere p (declinedEntry now)).Settled key := by
  rcases h with h | h
  · exact .inl (declining_declined h)
  · obtain ⟨e, he, hs⟩ := stateOf_some.mp h
    unfold Settled
    rw [stateOf_declining, he, Option.map_some]
    split
    · exact .inl rfl
    · exact .inr (by rw [hs])

theorem declining_passes {a : Action τ} (ha : db.Anchored) (hap : Apart W db.lists) :
    db.Passes W a (db.updateWhere p (declinedEntry now)) where
  anchored := updateWhere_anchored (fun _ => rfl) ha (fun _ _ _ _ hs => (by cases hs))
  apart := hap
  declined := fun _ hk => .inl (declining_declined hk)
  settled := fun _ hk => .inl (declining_settled hk)

theorem unlist_passes {a : Action τ} (ha : db.Anchored) (hap : Apart W db.lists)
    (hp : ∀ e ∈ db.entries, e.holds listId → p e = true) :
    db.Passes W a ((db.updateWhere p (declinedEntry now)).deleteListRows listId) where
  anchored := unlist_anchored ha hp
  apart := hap.filter _
  declined := fun _ hk => .inl (declining_declined hk)
  settled := fun _ hk => .inl (declining_settled hk)

theorem decline_passes (ha : db.Anchored) (hap : Apart W db.lists) {done : Db τ × List SecretKey}
    (hok : ∀ e ∈ db.entry key, e.state = .linked → e.listId ≠ [] →
      ∀ other ∈ db.entries, other.key ≠ key → ¬ other.holds e.listId)
    (h : db.decline key now = .ok done) : db.Passes W (.decline key) done.1 := by
  obtain ⟨e, he, h⟩ := bind_ok.mp h
  have he := context_ok.mp he
  cases hs : e.state with
  | declined =>
    simp only [hs] at h
    cases h
    exact (Grows.refl db).passes ha hap
  | scanned =>
    simp only [hs] at h
    cases h
  | pending =>
    simp only [hs] at h
    cases h
    exact declining_passes ha hap
  | linked =>
    simp only [hs] at h
    split at h
    · cases h
      exact declining_passes ha hap
    · rename_i hlist
      cases h
      show db.Passes W _ ((db.setDeclined key now).deleteListRows e.listId)
      apply unlist_passes ha hap
      intro other hm hholds
      by_contra hother
      exact hok e he hs (by simpa using hlist) other hm (by simpa using hother) hholds

theorem deleteList_passes (ha : db.Anchored) (hap : Apart W db.lists)
    (h : db.deleteList listId now = .ok db') : db.Passes W (.deleteList listId) db' := by
  obtain ⟨_, -, h⟩ := bind_ok.mp h
  cases h
  apply unlist_passes ha hap
  intro e _ hholds
  obtain ⟨hs, -, hid⟩ := holds_iff.mp hholds
  exact decide_eq_true ⟨hid, hs⟩

/-! ## An account goes -/

theorem goesAlong_iff : e.goesAlong ↔ e.state = .linked ∧ e.key.source.isCollection ∧ e.adopted = false ∧ e.listId ≠ [] := by
  simp [Entry.goesAlong, and_assoc]

/-- `rest` is what is left when the lists of `own` went. -/
structure Without (db : Db τ) (own : List Entry) (rest : Db τ) : Prop where
  entries : rest.entries = db.entries
  fewer : rest.lists.Sublist db.lists
  spared : ∀ l ∈ db.lists, (∀ e ∈ own, e.goesAlong → e.listId ≠ l.id) → l ∈ rest.lists

theorem forgetEntry_without (acc : Db τ × List SecretKey) (e : Entry) : acc.1.Without [e] (forgetEntry acc e).1 := by
  unfold forgetEntry
  split
  · rename_i u hu
    split
    · rename_i hgoes
      refine ⟨rfl, filter_sublist, ?_⟩
      intro l hl hne
      refine mem_filter.mpr ⟨hl, ?_⟩
      rw [bne_iff_ne]
      intro hid
      exact hne e mem_cons_self (goesAlong_iff.mpr ⟨hgoes.1, by rw [hu]; rfl, hgoes.2⟩) hid.symm
    · exact ⟨rfl, List.Sublist.refl _, fun l hl _ => hl⟩
  · exact ⟨rfl, List.Sublist.refl _, fun l hl _ => hl⟩

theorem foldl_forgetEntry (db : Db τ) (own : List Entry) : db.Without own (own.foldl forgetEntry (db, [])).1 := by
  refine foldl_invariant (P := fun done (acc : Db τ × List SecretKey) => db.Without done acc.1) ?_
    ⟨rfl, List.Sublist.refl _, fun l hl _ => hl⟩
  intro done e acc _ h
  have he := forgetEntry_without acc e
  refine ⟨he.entries.trans h.entries, he.fewer.trans h.fewer, ?_⟩
  intro l hl hne
  apply he.spared l
  · exact h.spared l hl fun e he => hne e (mem_append_left _ he)
  · intro e' he'
    exact hne e' (mem_append_right _ he')

/-- The entries of the account go, and the lists that came with them. -/
theorem forgetAccount_lists (db : Db τ) (account : Str) :
    (db.forgetAccount account).1.entries = db.entries.filter (fun e => decide (e.key.account ≠ account)) ∧
      (db.forgetAccount account).1.lists.Sublist db.lists ∧
      ∀ l ∈ db.lists, (∀ e ∈ db.entries, e.key.account = account → e.goesAlong → e.listId ≠ l.id) →
        l ∈ (db.forgetAccount account).1.lists := by
  have h := db.foldl_forgetEntry (db.entries.filter fun e => decide (e.key.account = account))
  refine ⟨?_, h.fewer, ?_⟩
  · show List.filter _ _ = _
    rw [h.entries]
  · intro l hl hne
    apply h.spared l hl
    intro e he
    obtain ⟨hm, hacc⟩ := mem_filter.mp he
    exact hne e hm (of_decide_eq_true hacc)

theorem entry_deleteAccount (ha : db.Anchored) (account : Str) :
    (db.deleteAccount account).entry key = if key.account = account then none else db.entry key := by
  have hentries : (db.deleteAccount account).entries = db.entries.filter (fun e => decide (e.key.account ≠ account)) :=
    (db.forgetAccount_lists account).1
  unfold entry
  rw [hentries, lookup_filter ha.keyed]
  cases he : lookup Entry.key db.entries key with
  | none => simp
  | some e =>
    have hkey := (lookup_some he).2
    by_cases hacc : key.account = account <;> simp [Option.filter, hkey, hacc]

theorem deleteAccount_passes (ha : db.Anchored) (hap : Apart W db.lists) {account : Str} (hne : account ≠ [])
    (hok : ∀ e ∈ db.entries, e.key.account = account → e.goesAlong →
      ∀ other ∈ db.entries, other.key.account ≠ account → ¬ other.holds e.listId) :
    db.Passes W (.deleteAccount account) (db.deleteAccount account) := by
  obtain ⟨hentries, hsub, hkeep⟩ := db.forgetAccount_lists account
  have hsub : (db.deleteAccount account).lists.Sublist db.lists := filter_sublist.trans hsub
  refine ⟨⟨?_, ?_, ?_⟩, hap.sublist hsub, ?_, ?_⟩
  · show Keyed Entry.key (db.forgetAccount account).1.entries
    rw [hentries]
    exact ha.keyed.filter _
  · exact fun l hl => ha.free l (hsub.subset hl)
  · intro key e he hs hc
    rw [entry_deleteAccount ha] at he
    split at he
    · cases he
    · rename_i hother
      obtain ⟨l, hl, hid, hfree⟩ := ha.home key e he hs hc
      have hkey := entry_key he
      refine ⟨l, mem_filter.mpr ⟨hkeep l hl ?_, ?_⟩, hid, hfree⟩
      · intro gone hgone hacc halong hsame
        refine hok gone hgone hacc halong e (entry_mem he) (by rw [hkey]; exact hother) ?_
        exact holds_iff.mpr ⟨hs, by rw [hkey]; exact hc, hid.symm.trans hsame.symm⟩
      · rw [bne_iff_ne, hfree]
        exact hne.symm
  · intro key hk
    by_cases hacc : key.account = account
    · refine .inr (.inr ⟨by rw [hacc], ?_⟩)
      rw [stateOf_none, entry_deleteAccount ha, if_pos hacc]
    · refine .inl ?_
      unfold stateOf
      rw [entry_deleteAccount ha, if_neg hacc]
      exact hk
  · intro key hk
    by_cases hacc : key.account = account
    · refine .inr ?_
      unfold accountExists
      rw [any_eq_false]
      intro a hm
      have := (mem_filter.mp hm).2
      rw [hacc]
      simpa using this
    · refine .inl ?_
      unfold Settled stateOf
      rw [entry_deleteAccount ha, if_neg hacc]
      exact hk

/-! ## A list is made -/

variable {objects : List Object}

theorem readTodos_ok {read : List (Object × τ)} (h : readTodos W objects = .ok read) :
    objects.all (fun o => (W.todo o.ics).isOk) = true := by
  induction objects generalizing read with
  | nil => rfl
  | cons o objects ih =>
    obtain ⟨todo, htodo, h⟩ := bind_ok.mp h
    obtain ⟨rest, hrest, -⟩ := bind_ok.mp h
    rw [all_cons, ih hrest, htodo]
    rfl

/-- What the last transaction of a read wrote. -/
theorem written_some {r : Read} {name : Str} {made : Db τ} (h : db.written W r name objects now = .ok (some made)) :
    r.lands W name objects db = true ∧ ∃ filled : Db τ, filled.entries = db.entries ∧
      filled.lists = db.lists ++ [⟨r.listId, trim name, r.url, r.username, [], some now⟩] ∧
      made = filled.markLinked r.key r.listId false now := by
  unfold written at h
  split at h
  · cases h
  · rename_i hw
    obtain ⟨created, hcreated, h⟩ := bind_ok.mp h
    obtain ⟨filled, hfilled, h⟩ := bind_ok.mp h
    obtain ⟨_, hname, hcreated⟩ := bind_ok.mp hcreated
    have hname := ensure_ok.mp hname
    obtain ⟨read, hread, hfilled⟩ := bind_ok.mp hfilled
    have hcreated := Except.ok.inj hcreated
    have hfilled := Except.ok.inj hfilled
    cases h
    refine ⟨?_, filled, by rw [← hfilled, ← hcreated], by rw [← hfilled, ← hcreated], rfl⟩
    have hw : db.mayWrite r.key r.mode = true := by simpa using hw
    have hname : (trim name).isEmpty = false := by simpa using hname
    simp [Read.lands, hw, hname, readTodos_ok hread]

theorem markLinked_anchored (ha : db.Anchored) {adopted : Bool}
    (hh : ∃ l ∈ db.lists, l.id = listId ∧ l.ewsAccount = []) : (db.markLinked key listId adopted now).Anchored := by
  unfold markLinked upsert
  split
  · refine updateWhere_anchored (f := linkedEntry listId adopted now) (fun _ => rfl) ha ?_
    intro _ _ _ _ _ _
    exact .inr hh
  · rename_i hn
    refine Grows.anchored (append_grows ?_ ?_) ha
    · simpa using hn
    · exact fun _ _ => hh

theorem stateOf_markLinked {k : Key} {adopted : Bool} :
    (db.markLinked key listId adopted now).stateOf k = if k = key then some .linked else db.stateOf k := by
  unfold markLinked upsert stateOf
  split
  · rename_i hsome
    rw [entry_updateWhere (f := linkedEntry listId adopted now) fun _ => rfl, Option.map_map]
    by_cases hk : k = key
    · obtain ⟨e, he⟩ := Option.isSome_iff_exists.mp hsome
      have hkey : e.key = key := entry_key he
      have he : db.entry key = some e := he
      rw [hk, he, if_pos rfl]
      simp [hkey, linkedEntry]
    · rw [if_neg hk]
      apply Option.map_congr
      intro e he
      have hkey : e.key ≠ key := by
        rw [entry_key he]
        exact hk
      simp [hkey]
  · rename_i hn
    have hnone : db.entry key = none := by simpa using hn
    rw [entry_append]
    by_cases hk : k = key
    · rw [hk, hnone]
      simp
    · simp [hk]

theorem apart_append {lists : List TaskList} {l : TaskList} (h : Apart W lists)
    (hl : ∀ m ∈ lists, m.remoteUrl ≠ [] → ¬ sameAddress W m.remoteUrl l.remoteUrl) : Apart W (lists ++ [l]) := by
  refine pairwise_append.mpr ⟨h, pairwise_singleton _ _, ?_⟩
  intro m hm n hn hmr _
  rw [mem_singleton.mp hn]
  simpa using hl m hm hmr

theorem Anchored.append_list (ha : db.Anchored) {l : TaskList} (he : db'.entries = db.entries)
    (hl : db'.lists = db.lists ++ [l]) (hfree : l.ewsAccount = []) : db'.Anchored := by
  apply ha.of_lists he
  · intro m hm
    rw [hl]
    exact mem_append_left _ hm
  · intro m hm hmr
    rw [hl, mem_append, mem_singleton] at hm
    rcases hm with hm | rfl
    · exact ha.free m hm hmr
    · exact hfree

@[simp]
theorem lists_markLinked {adopted : Bool} : (db.markLinked key listId adopted now).lists = db.lists := by
  unfold markLinked upsert
  split <;> rfl

theorem made_passes {r : Read} {name : Str} {made : Db τ} (ha : db.Anchored)
    (hap : Apart W db.lists) (hfree : ∀ l ∈ db.lists, l.remoteUrl ≠ [] → ¬ sameAddress W l.remoteUrl r.url)
    (h : db.written W r name objects now = .ok (some made)) : db.Passes W (.readDone r name objects) made := by
  obtain ⟨hlands, filled, hentries, hlists, rfl⟩ := written_some h
  have hstate : ∀ k, filled.stateOf k = db.stateOf k := by
    intro k
    unfold stateOf entry
    rw [hentries]
  refine ⟨markLinked_anchored (ha.append_list hentries hlists rfl) ?_, ?_, ?_, ?_⟩
  · rw [hlists]
    exact ⟨_, mem_append_right _ mem_cons_self, rfl, rfl⟩
  · rw [lists_markLinked, hlists]
    exact apart_append hap hfree
  · intro k hk
    rw [stateOf_markLinked]
    by_cases hkey : k = r.key
    · refine .inr (.inl ⟨hkey.symm, ?_⟩)
      -- a read of a waiting entry writes only while it waits
      cases hmode : r.mode with
      | byHand => rfl
      | retry =>
        have hmay : db.mayWrite r.key r.mode = true := by
          simp only [Read.lands, Bool.and_eq_true] at hlands
          exact hlands.1.1
        rw [hmode] at hmay
        rw [hkey, mayWrite_retry hmay] at hk
        cases hk
    · rw [if_neg hkey, hstate]
      exact .inl hk
  · intro k hk
    unfold Settled
    rw [stateOf_markLinked]
    by_cases hkey : k = r.key
    · rw [if_pos hkey]
      exact .inl (.inr rfl)
    · rw [if_neg hkey, hstate]
      exact .inl hk

theorem addList_passes {id name raw server username : Str} (ha : db.Anchored) (hap : Apart W db.lists)
    (hok : ∀ url ∈ W.parse (trim raw), ∀ l ∈ db.lists, l.remoteUrl ≠ [] →
      sameAddress W l.remoteUrl (W.text url) → l.remoteUrl = W.text url)
    (h : db.addList W id name raw server username = .ok db') : db.Passes W (.addList id name raw server username) db' := by
  obtain ⟨url, hurl, h⟩ := bind_ok.mp h
  have hurl := context_ok.mp hurl
  obtain ⟨_, -, h⟩ := bind_ok.mp h
  obtain ⟨_, -, h⟩ := bind_ok.mp h
  obtain ⟨_, hnew, h⟩ := bind_ok.mp h
  have hnew := ensure_ok.mp hnew
  obtain ⟨_, -, h⟩ := bind_ok.mp h
  cases h
  refine ⟨ha.append_list rfl rfl rfl, apart_append hap ?_, fun _ hk => .inl hk, fun _ hk => .inl hk⟩
  intro l hl hbound hsame
  have heq := hok url hurl l hl hbound hsame
  exact hnew (any_eq_true.mpr ⟨l, hl, beq_iff_eq.mpr heq⟩)

end Db

/-! ## One step -/

section Steps

variable {W : Web τ} {s t : Sys τ} {x y : Sys τ × Seen} {a : Int × Action τ}

variable {action : Action τ}

theorem settle_passes {done : Except Str (Db τ)} (ha : s.db.Anchored) (hap : Apart W s.db.lists)
    (h : ∀ db, done = .ok db → s.db.Passes W action db) : s.db.Passes W action (s.settle done).db := by
  cases done with
  | ok db => exact h db rfl
  | error e => exact (Db.Grows.refl s.db).passes ha hap

theorem map_fst_ok {β : Type} {done : Except Str (Db τ × β)} {db : Db τ} (h : done.map Prod.fst = .ok db) :
    ∃ rest, done = .ok (db, rest) := by
  cases done with
  | ok p =>
    cases h
    exact ⟨p.2, rfl⟩
  | error e => cases h

theorem beginRead_passes (ha : s.db.Anchored) (hap : Apart W s.db.lists)
    {account url username listId : Str} {mode : Mode} {now : Int} :
    s.db.Passes W action (s.beginRead W account url username listId mode now).db := by
  unfold Sys.beginRead
  split
  · rename_i db list h
    exact (Db.beginLink_grows W ha h).passes ha hap
  · exact (Db.Grows.refl s.db).passes ha hap
  · exact (Db.Grows.refl s.db).passes ha hap
  · exact (Db.Grows.refl s.db).passes ha hap

theorem addAccount_passes (ha : s.db.Anchored) (hap : Apart W s.db.lists) {account : Account}
    {exchange : Bool} {now : Int} {added : Db τ} (hadded : added = { s.db with accounts := s.db.accounts ++ [account] }) :
    s.db.Passes W action (if exchange then added.addExchange account.id now else added) := by
  have hgrows : added.Grows (if exchange then added.addExchange account.id now else added) := by
    split
    · exact Db.addExchange_grows account.id
    · exact Db.Grows.refl added
  have hsame : added.Anchored := by
    rw [hadded]
    exact ha.of_lists rfl (fun _ hl => hl) ha.free
  have hpasses := hgrows.passes (W := W) (a := action) hsame (by rw [hadded]; exact hap)
  rw [hadded] at hpasses ⊢
  exact ⟨hpasses.anchored, hpasses.apart, hpasses.declined, hpasses.settled⟩

/-- What a step keeps of the tables. -/
theorem step_passes (ha : x.1.db.Anchored) (hap : Apart W x.1.db.lists) (hok : Undisturbed W x a)
    (h : step W x.1 a = some t) : x.1.db.Passes W a.2 t.db := by
  obtain ⟨now, action⟩ := a
  cases action with
  | addAccount account exchange =>
    simp only [step, Option.ite_none_left_eq_some, Option.some.injEq] at h
    obtain ⟨-, rfl⟩ := h
    exact addAccount_passes ha hap rfl
  | migrate =>
    cases h
    exact (Db.migrate_grows W).passes ha hap
  | addExchange account =>
    cases h
    exact (Db.addExchange_grows account).passes ha hap
  | recordChoice account username origins wanted declined =>
    cases h
    apply settle_passes ha hap
    intro db hdone
    obtain ⟨choice, hdone⟩ := map_fst_ok hdone
    exact (Db.recordChoice_grows W ha hdone).passes ha hap
  | begin_ account url username listId mode =>
    simp only [step, Option.ite_none_right_eq_some, Option.some.injEq] at h
    obtain ⟨-, rfl⟩ := h
    exact beginRead_passes ha hap
  | readFailed r error =>
    simp only [step, Option.ite_none_right_eq_some, Option.some.injEq] at h
    obtain ⟨-, rfl⟩ := h
    exact (Db.failLink_grows r error).passes ha hap
  | readDone r name objects =>
    simp only [step, Option.ite_none_right_eq_some, Option.some.injEq] at h
    obtain ⟨-, rfl⟩ := h
    show x.1.db.Passes W _ (x.1.db.endLink W r name objects now)
    unfold Db.endLink
    split
    · rename_i made hmade
      exact Db.made_passes ha hap (hok.1 (Db.written_some hmade).1).2.2 hmade
    · exact (Db.Grows.refl x.1.db).passes ha hap
    · exact (Db.failLink_grows r _).passes ha hap
  | recordFailure key error =>
    cases h
    exact (Db.recordFailure_grows key error).passes ha hap
  | acknowledge key =>
    cases h
    exact (Db.acknowledge_grows key).passes ha hap
  | rescanned account origin user candidates =>
    cases h
    apply settle_passes ha hap
    intro db hdone
    obtain ⟨found, hdone⟩ := map_fst_ok hdone
    exact (Db.applyRescan_grows W ha hdone).passes ha hap
  | decline key =>
    cases h
    apply settle_passes ha hap
    intro db hdone
    obtain ⟨secrets, hdone⟩ := map_fst_ok hdone
    exact Db.decline_passes ha hap hok hdone
  | deleteList listId =>
    cases h
    apply settle_passes ha hap
    intro db hdone
    exact Db.deleteList_passes ha hap hdone
  | deleteAccount account =>
    simp only [step, Option.ite_none_left_eq_some, Option.some.injEq] at h
    obtain ⟨hne, rfl⟩ := h
    exact Db.deleteAccount_passes ha hap hne hok
  | addList id name raw server username =>
    simp only [step, Option.ite_none_right_eq_some, Option.some.injEq] at h
    obtain ⟨-, rfl⟩ := h
    apply settle_passes ha hap
    intro db hdone
    exact Db.addList_passes ha hap hok hdone

/-! ## Overtaken reads -/

structure Steady (W : Web τ) (x : Sys τ × Seen) : Prop where
  anchored : x.1.db.Anchored
  apart : Apart W x.1.db.lists
  overtaken : ∀ r ∈ x.2.declined, r ∈ x.2.gone ∨ x.1.db.Settled r.key

theorem recordFailure_idle {db : Db τ} {key : Key} {error : Str} (ha : db.Anchored)
    (h : db.stateOf key ≠ some .pending) : db.recordFailure key error = db := by
  have hrows : db.entries.map (fun e => if decide (e.key = key ∧ e.state = .pending) then { e with lastError := error } else e) =
      db.entries := by
    rw [map_congr_left (g := id), map_id]
    intro e he
    rw [if_neg]
    · rfl
    · intro hp
      obtain ⟨hkey, hs⟩ := of_decide_eq_true hp
      apply h
      rw [Db.stateOf_some]
      exact ⟨e, by rw [← hkey]; exact ha.keyed.lookup_of_mem he, hs⟩
  show { db with entries := _ } = db
  rw [show Table.update _ _ _ = db.entries from hrows]

/-- An overtaken read finds no entry that waits for it. -/
theorem overtaken_idle (hx : Steady W x) {r : Read} (hr : r ∈ x.2.declined ∨ r ∈ x.2.gone) (hmode : r.mode = .retry)
    (hstale : ¬ r.stale x) : x.1.db.stateOf r.key ≠ some .pending := by
  intro hp
  have hgone : r ∉ x.2.gone := fun hg => hstale ⟨hg, hmode, hp⟩
  rcases hr with hd | hg
  · rcases hx.overtaken r hd with hg | hs | hs
    · exact hgone hg
    · rw [hp] at hs
      cases hs
    · rw [hp] at hs
      cases hs
  · exact hgone hg

theorem failLink_overtaken (hx : Steady W x) {r : Read} {error : Str} (hr : r ∈ x.2.declined ∨ r ∈ x.2.gone)
    (hstale : ¬ r.stale x) : x.1.db.failLink r error = x.1.db := by
  unfold Db.failLink
  split
  · rename_i hmode
    exact recordFailure_idle hx.anchored (overtaken_idle hx hr hmode hstale)
  · rfl

/-- A read that was overtaken writes nothing. -/
theorem overtaken_writes_nothing (hx : Steady W x) (hok : Undisturbed W x a) (h : step W x.1 a = some t) {r : Read}
    (hends : a.2.ends = some r) (hr : r ∈ x.2.declined ∨ r ∈ x.2.gone) : t.db = x.1.db := by
  obtain ⟨now, action⟩ := a
  cases action with
  | readFailed r' error =>
    cases hends
    simp only [step, Option.ite_none_right_eq_some, Option.some.injEq] at h
    obtain ⟨-, rfl⟩ := h
    exact failLink_overtaken hx hr hok
  | readDone r' name objects =>
    cases hends
    simp only [step, Option.ite_none_right_eq_some, Option.some.injEq] at h
    obtain ⟨-, rfl⟩ := h
    obtain ⟨hlands, hstale⟩ := hok
    show x.1.db.endLink W r name objects now = x.1.db
    unfold Db.endLink
    split
    · rename_i made hmade
      obtain ⟨hd, hg, -⟩ := hlands (Db.written_some hmade).1
      exact absurd hr (not_or.mpr ⟨hd, hg⟩)
    · rfl
    · exact failLink_overtaken hx hr hstale
  | _ => cases hends

/-! ## Runs -/

theorem Start.steady (hs : Start W s) : Steady W (s, ⟨[], []⟩) where
  anchored := by
    refine ⟨?_, hs.free, ?_⟩
    · rw [hs.entries]
      exact nodup_nil
    · intro key e he
      have := Db.entry_mem he
      rw [hs.entries] at this
      cases this
  apart := hs.apart
  overtaken := fun _ hr => (by cases hr)

theorem step_steady (hx : Steady W x) (hok : Undisturbed W x a) (h : watched (step W) see x a = some y) : Steady W y := by
  obtain ⟨hstep, hseen⟩ := watched_some h
  have hp := step_passes hx.anchored hx.apart hok hstep
  refine ⟨hp.anchored, hp.apart, ?_⟩
  intro r hr
  rw [hseen] at hr ⊢
  obtain ⟨hreads, hr⟩ := mem_filter.mp hr
  have hgone : r ∈ x.2.gone ∨ y.1.db.accountExists r.key.account = false → r ∈ (see x.1 a y.1 x.2).gone :=
    fun hg => mem_filter.mpr ⟨hreads, decide_eq_true hg⟩
  rcases of_decide_eq_true hr with hd | ⟨-, hd⟩
  · rcases hx.overtaken r hd with hg | hs
    · exact .inl (hgone (.inl hg))
    · rcases hp.settled r.key hs with hs | hnone
      · exact .inr hs
      · exact .inl (hgone (.inr hnone))
  · exact .inr (.inl hd)

theorem step_kept (hx : Steady W x) (hok : Undisturbed W x a) (h : watched (step W) see x a = some y) : Kept W x a.2 y := by
  obtain ⟨hstep, -⟩ := watched_some h
  have hp := step_passes hx.anchored hx.apart hok hstep
  refine ⟨hp.declined, ?_, ?_, hp.apart⟩
  · intro r hends hr
    exact overtaken_writes_nothing hx hok hstep hends hr
  · intro e he hs hc
    obtain ⟨l, hl, hid, -⟩ := hp.anchored.home e.key e (hp.anchored.keyed.lookup_of_mem he) hs hc
    exact ⟨l, hl, hid⟩

/-- In every run whose steps are all undisturbed, every step is `Kept`. -/
theorem lists_kept (hs : Start W s) {as : List (Int × Action τ)}
    (hok : AllSteps (watched (step W) see) (Undisturbed W) (s, ⟨[], []⟩) (as ++ [a]))
    (hx : run (watched (step W) see) (s, ⟨[], []⟩) as = some x) (hy : watched (step W) see x a = some y) : Kept W x a.2 y := by
  have hsteady : Steady W x :=
    run_invariant (fun _ _ _ hi hok h => step_steady hi hok h) hs.steady hok.left hx
  exact step_kept hsteady (hok.right hx).1 hy

end Steps

/-! ## A collection read twice -/

/-- Addresses on a web server, without port, query or fragment. -/
def plainWeb : Web Str where
  Url := Str × Str
  parse t :=
    if "https://".toList.isPrefixOf t then
      some ("https://" ++ (t.drop 8).takeWhile (· ≠ '/'), (t.drop 8).dropWhile (· ≠ '/'))
    else none
  scheme _ := "https"
  path := Prod.snd
  setPath url path := (url.1, path)
  dropFragment := id
  text url := url.1 ++ url.2
  origin := Prod.fst
  startingPoint := .ok
  credentialsMayFollow _ _ := true
  nameFromUrl := id
  todo := .ok

def ana : Account := ⟨"ana@example.org", []⟩

def bru : Account := ⟨"bru@example.org", []⟩

def shared : Str := "https://dav.example.org/tasks/"

def twoAccounts : Sys Str := ⟨⟨[ana, bru], [], [], [], []⟩, []⟩

/-- The account's first read of the collection that both were given. -/
def firstRead (account : Account) (listId : String) : Read :=
  ⟨⟨account.id, .collection shared⟩, shared, account.id, listId.toList, .retry⟩

def choose (account : Account) : Int × Action Str := (1, .recordChoice account.id account.id [] [shared] [])

def begin_ (account : Account) (listId : String) : Int × Action Str :=
  (2, .begin_ account.id shared account.id listId.toList .retry)

def done (account : Account) (listId : String) : Int × Action Str :=
  (3, .readDone (firstRead account listId) "Tasks" [])

theorem twoAccounts_start : Start plainWeb twoAccounts :=
  ⟨rfl, rfl, fun _ h => (by cases h), List.Pairwise.nil⟩

/-- The first account has its list, the other waits. -/
def anaLinked : Sys Str :=
  ⟨⟨[ana, bru], [], [⟨"1", "Tasks", shared, ana.id, [], some 3⟩], [],
    [⟨⟨ana.id, .collection shared⟩, .linked, "1", false, true, [], 3⟩,
      ⟨⟨bru.id, .collection shared⟩, .pending, [], false, true, [], 1⟩]⟩, []⟩

/-- One read ends before the other begins: the second account adopts the list of the first. -/
theorem lists_kept_one_by_one : ∃ x y, run (watched (step plainWeb) see) (twoAccounts, ⟨[], []⟩)
      [choose ana, choose bru, begin_ ana "1", done ana "1"] = some x ∧
    watched (step plainWeb) see x (begin_ bru "2") = some y ∧ Kept plainWeb x (begin_ bru "2").2 y := by
  have hsteps : AllSteps (watched (step plainWeb) see) (Undisturbed plainWeb) (twoAccounts, ⟨[], []⟩)
      ([choose ana, choose bru, begin_ ana "1", done ana "1"] ++ [begin_ bru "2"]) := by decide +kernel
  have hx : run (watched (step plainWeb) see) (twoAccounts, ⟨[], []⟩) [choose ana, choose bru, begin_ ana "1", done ana "1"] =
        some (anaLinked, ⟨[], []⟩) := by decide +kernel
  obtain ⟨y, hy⟩ := Option.isSome_iff_exists.mp (show (watched (step plainWeb) see (anaLinked, ⟨[], []⟩)
    (begin_ bru "2")).isSome by decide +kernel)
  exact ⟨_, y, hx, hy, lists_kept twoAccounts_start hsteps hx hy⟩

/-- Both accounts' reads are begun, and both end. -/
theorem two_lists : ¬ ∀ as t, run (step plainWeb) twoAccounts as = some t → Apart plainWeb t.db.lists := by
  intro h
  have hr : run (step plainWeb) twoAccounts [choose ana, choose bru, begin_ ana "1", begin_ bru "2", done ana "1", done bru "2"] =
      some ⟨⟨[ana, bru], [], [⟨"1", "Tasks", shared, ana.id, [], some 3⟩, ⟨"2", "Tasks", shared, bru.id, [], some 3⟩], [],
        [⟨⟨ana.id, .collection shared⟩, .linked, "1", false, true, [], 3⟩,
          ⟨⟨bru.id, .collection shared⟩, .linked, "2", false, true, [], 3⟩]⟩, []⟩ := by decide +kernel
  have hne := (pairwise_cons.mp (h _ _ hr)).1 _ mem_cons_self (by decide) (by decide)
  revert hne
  decide +kernel

end Oreneta.TaskSync.AccountLists

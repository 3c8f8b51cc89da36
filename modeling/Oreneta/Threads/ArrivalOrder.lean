import Oreneta.Lib.Chains
import Oreneta.Threads.Canonical

/-!
# Threads do not depend on the order of arrival

The messages of one account, each with a Message-ID of its own and naming one as its raw thread key,
cached in batches: split, ordered and repeated in any way.

* `Messages` — such messages; what is said of them are its fields.
* `Tracked` — every row of the account is one of them, and rows with one id have one key.
* `write_learn`, `hand_settle` — what the steps do to the keys is `Chains.learn` and `Chains.settle`.
* `upsert_kept` — after a batch nothing is left to settle.
* `threads_of_chains` — in the end two messages have one key exactly if the chains of their raw keys end
  alike; and every walk ends.
-/

namespace Oreneta.Threads

open Text Chains Relation List Option

/-! ## The messages -/

section Lowercase

variable (lowercase : Str → Str)

/-- A lower-case Message-ID, as `normalize_message_id` gives it: neither `to_lowercase` nor the `lower` of
SQLite changes it, as with ASCII without capitals. -/
structure IsMessageId (s : Str) : Prop where
  nonempty : s ≠ []
  lower : lowercase s = s
  asciiLower : Text.asciiLower s = s
  trimmed : trim s = s

instance (s : Str) : Decidable (IsMessageId lowercase s) :=
  decidable_of_iff (s ≠ [] ∧ lowercase s = s ∧ Text.asciiLower s = s ∧ trim s = s)
    ⟨fun h => ⟨h.1, h.2.1, h.2.2.1, h.2.2.2⟩, fun h => ⟨h.nonempty, h.lower, h.asciiLower, h.trimmed⟩⟩

/-- Messages of one account, each with its folder; a mail's uid is not zero. -/
structure Messages where
  all : List (Str × MessageHeader)
  ids : (all.map (fun m => m.2.messageId)).Nodup
  places : (all.map (fun m => (m.1, m.2.uid))).Nodup
  uid_ne : ∀ m ∈ all, m.2.uid ≠ 0
  isId : ∀ m ∈ all, IsMessageId lowercase m.2.messageId
  isKey : ∀ m ∈ all, IsMessageId lowercase m.2.threadKey ∧ isReserved m.2.threadKey = false

end Lowercase

namespace Messages

variable {lowercase : Str → Str} {ms : Messages lowercase}

/-- The message with the id `a` names `b`. -/
def Names (ms : Messages lowercase) (a b : Str) : Prop :=
  ∃ m ∈ ms.all, m.2.messageId = a ∧ m.2.threadKey = b

/-- The id an id names. -/
def raw (ms : Messages lowercase) (id : Str) : Str :=
  ((ms.all.find? (fun m => m.2.messageId = id)).map (fun m => m.2.threadKey)).getD id

theorem eq_of_id {m m' : Str × MessageHeader} (hm : m ∈ ms.all) (hm' : m' ∈ ms.all)
    (h : m.2.messageId = m'.2.messageId) : m = m' :=
  inj_on_of_nodup_map ms.ids hm hm' h

theorem eq_of_place {m m' : Str × MessageHeader} (hm : m ∈ ms.all) (hm' : m' ∈ ms.all)
    (hfolder : m.1 = m'.1) (huid : m.2.uid = m'.2.uid) : m = m' :=
  inj_on_of_nodup_map ms.places hm hm' (Prod.ext hfolder huid)

theorem raw_eq {m : Str × MessageHeader} (hm : m ∈ ms.all) : ms.raw m.2.messageId = m.2.threadKey := by
  unfold raw
  cases hfind : ms.all.find? (fun m' => m'.2.messageId = m.2.messageId) with
  | none =>
    have := find?_eq_none.mp hfind m hm
    simp at this
  | some m' =>
    have hid : m'.2.messageId = m.2.messageId := by simpa using find?_some hfind
    rw [eq_of_id (mem_of_find?_eq_some hfind) hm hid]
    rfl

end Messages

/-! ## Rows that are these messages -/

/-- The row is the message. -/
structure Holds (row : MessageRow) (m : Str × MessageHeader) : Prop where
  folder : row.folder = m.1
  uid : row.uid = m.2.uid
  messageId : row.messageId = m.2.messageId

/-- Every row of the account is one of the messages, under a key one of them names, and rows with one
id have one key. -/
structure Tracked {lowercase : Str → Str} (ms : Messages lowercase) (account : Str) (rows : List MessageRow) : Prop where
  known : ∀ row ∈ rows, row.account = account → ∃ m ∈ ms.all, Holds row m ∧
    ∃ m' ∈ ms.all, row.threadKey = some m'.2.threadKey
  agree : ∀ row ∈ rows, ∀ row' ∈ rows, row.account = account → row'.account = account →
    row.id = row'.id → row.threadKey = row'.threadKey

section Tracked

variable {lowercase : Str → Str} {ms : Messages lowercase} {account folder : Str} {rows : List MessageRow}
  {row : MessageRow} {m : MessageHeader}

theorem Holds.id {m : Str × MessageHeader} (hm : m ∈ ms.all) (h : Holds row m) : row.id = m.2.messageId := by
  unfold MessageRow.id
  rw [h.messageId]
  exact (ms.isId m hm).asciiLower

theorem key_ne_nil {m : Str × MessageHeader} (hm : m ∈ ms.all) : m.2.threadKey ≠ [] :=
  (ms.isKey m hm).1.nonempty

/-- The key of an id is that of the rows that have it. -/
theorem Tracked.cached_iff (h : Tracked ms account rows) {id key : Str} : cachedThreadKeyOf rows account id = some key ↔
      ∃ row ∈ rows, row.account = account ∧ row.id = id ∧ row.threadKey = some key := by
  constructor
  · intro hkey
    obtain ⟨row, hrow, hacc, hid, hthread, -⟩ := cachedThreadKeyOf_some hkey
    exact ⟨row, hrow, hacc, hid, hthread⟩
  · rintro ⟨row, hrow, hacc, rfl, hthread⟩
    cases hcached : cachedThreadKeyOf rows account row.id with
    | none =>
      have hempty := cachedThreadKeyOf_none.mp hcached row hrow hacc rfl
      obtain ⟨-, -, -, m', hm', hnamed⟩ := h.known row hrow hacc
      unfold MessageRow.key at hempty
      rw [hnamed] at hempty
      exact absurd hempty (key_ne_nil hm')
    | some k =>
      obtain ⟨row', hrow', hacc', hid', hthread', -⟩ := cachedThreadKeyOf_some hcached
      rw [← hthread, ← hthread', h.agree row' hrow' row hrow hacc' hacc hid']

theorem isAt_of_holds {m : Str × MessageHeader} (hacc : row.account = account) (h : Holds row m) :
    row.isAt account m.1 m.2.uid = true := decide_eq_true ⟨hacc, h.folder, h.uid⟩

/-- A row at a message's place is that message. -/
theorem Tracked.holds_of_isAt (h : Tracked ms account rows) (hm : (folder, m) ∈ ms.all)
    (hrow : row ∈ rows) (hat : row.isAt account folder m.uid = true) : Holds row (folder, m) := by
  obtain ⟨hacc, hfolder, huid⟩ := of_isAt hat
  obtain ⟨m', hm', hholds, -⟩ := h.known row hrow hacc
  have : m' = (folder, m) :=
    Messages.eq_of_place hm' hm (hholds.folder.symm.trans hfolder) (hholds.uid.symm.trans huid)
  exact this ▸ hholds

/-! ## One message -/

/-- What a raw key resolves to is what the chain so far tells. -/
theorem resolve_eq (hm : (folder, m) ∈ ms.all) : resolveMessageThreadKey lowercase rows account m.threadKey =
      look (cachedThreadKeyOf rows account) (ms.raw m.messageId) := by
  obtain ⟨hkey, hreserved⟩ := ms.isKey _ hm
  have hraw : ms.raw m.messageId = m.threadKey := Messages.raw_eq hm
  unfold resolveMessageThreadKey look
  rw [hraw]
  dsimp only
  rw [hkey.trimmed, hkey.lower, if_neg]
  rintro (hnil | hres)
  · exact hkey.nonempty hnil
  · exact absurd (hreserved.symm.trans hres) (by decide)

theorem Tracked.resolve_named (h : Tracked ms account rows) (hm : (folder, m) ∈ ms.all) :
    ∃ m' ∈ ms.all, resolveMessageThreadKey lowercase rows account m.threadKey = m'.2.threadKey := by
  rw [resolve_eq hm, Messages.raw_eq hm]
  unfold look
  cases hcached : cachedThreadKeyOf rows account m.threadKey with
  | none => exact ⟨_, hm, rfl⟩
  | some k =>
    obtain ⟨row, hrow, hacc, -, hthread, -⟩ := cachedThreadKeyOf_some hcached
    obtain ⟨-, -, -, m', hm', hnamed⟩ := h.known row hrow hacc
    exact ⟨m', hm', some.inj (hthread.symm.trans hnamed)⟩

/-- The rows after a message was written are rows as they were, of other messages, or the message's. -/
theorem Tracked.of_mem_write (h : Tracked ms account rows) (hm : (folder, m) ∈ ms.all)
    (hrow : row ∈ write lowercase account folder rows m) (hacc : row.account = account) : (row ∈ rows ∧ row.id ≠ m.messageId) ∨
      (Holds row (folder, m) ∧ row.id = m.messageId ∧
        row.threadKey = some (resolveMessageThreadKey lowercase rows account m.threadKey)) := by
  rcases mem_write.mp hrow with ⟨hrow, hat⟩ | ⟨old, hold, hat, rfl⟩ | ⟨-, rfl⟩
  · refine .inl ⟨hrow, fun hid => ?_⟩
    obtain ⟨m', hm', hholds, -⟩ := h.known row hrow hacc
    have hsame : m' = (folder, m) := Messages.eq_of_id hm' hm ((hholds.id hm').symm.trans hid)
    have := isAt_of_holds hacc hholds
    rw [hsame, hat] at this
    cases this
  · have hholds := h.holds_of_isAt hm hold hat
    have hid : (old.overwrite m (resolveMessageThreadKey lowercase rows account m.threadKey)).messageId =
        m.messageId := by
      unfold MessageRow.overwrite
      dsimp only
      rw [if_neg (ms.isId _ hm).nonempty]
    have hnew : Holds (old.overwrite m (resolveMessageThreadKey lowercase rows account m.threadKey))
        (folder, m) := ⟨hholds.folder, hholds.uid, hid⟩
    exact .inr ⟨hnew, hnew.id hm, rfl⟩
  · have hnew : Holds (⟨account, folder, m.uid, m.date,
        some (resolveMessageThreadKey lowercase rows account m.threadKey), m.messageId⟩ : MessageRow)
        (folder, m) := ⟨rfl, rfl, rfl⟩
    exact .inr ⟨hnew, hnew.id hm, rfl⟩

/-- A row at the message's place is there afterwards. -/
theorem exists_written (lowercase : Str → Str) (rows : List MessageRow) (account folder : Str) (m : MessageHeader) :
    ∃ row ∈ write lowercase account folder rows m, row.isAt account folder m.uid = true := by
  by_cases hany : ∃ old ∈ rows, old.isAt account folder m.uid = true
  · obtain ⟨old, hold, hat⟩ := hany
    exact ⟨_, mem_write.mpr (.inr (.inl ⟨old, hold, hat, rfl⟩)), hat⟩
  · have hnone : ∀ old ∈ rows, old.isAt account folder m.uid = false :=
      fun old hold => Bool.eq_false_iff.mpr fun hat => hany ⟨old, hold, hat⟩
    exact ⟨_, mem_write.mpr (.inr (.inr ⟨hnone, rfl⟩)), decide_eq_true ⟨rfl, rfl, rfl⟩⟩

theorem Tracked.write (h : Tracked ms account rows)
    (hm : (folder, m) ∈ ms.all) : Tracked ms account (write lowercase account folder rows m) where
  known := by
    intro row hrow hacc
    rcases h.of_mem_write hm hrow hacc with ⟨hrow, -⟩ | ⟨hholds, -, hthread⟩
    · exact h.known row hrow hacc
    · obtain ⟨m', hm', hnamed⟩ := h.resolve_named hm
      exact ⟨_, hm, hholds, m', hm', hthread.trans (congrArg some hnamed)⟩
  agree := by
    intro row hrow row' hrow' hacc hacc' hid
    rcases h.of_mem_write hm hrow hacc with ⟨hrow, hne⟩ | ⟨-, hid₁, hthread⟩ <;>
      rcases h.of_mem_write hm hrow' hacc' with ⟨hrow', hne'⟩ | ⟨-, hid₂, hthread'⟩
    · exact h.agree row hrow row' hrow' hacc hacc' hid
    · exact absurd (hid.trans hid₂) hne
    · exact absurd (hid.symm.trans hid₁) hne'
    · rw [hthread, hthread']

/-- **Writing a message is learning of its id.** -/
theorem Tracked.write_learn (h : Tracked ms account rows) (hm : (folder, m) ∈ ms.all) :
    cachedThreadKeyOf (Threads.write lowercase account folder rows m) account =
      learn ms.raw (cachedThreadKeyOf rows account) m.messageId := by
  have hafter := h.write hm
  funext z
  by_cases hz : z = m.messageId
  · subst hz
    rw [learn_same, ← resolve_eq hm, hafter.cached_iff]
    obtain ⟨row, hrow, hat⟩ := exists_written lowercase rows account folder m
    have hacc := (of_isAt hat).1
    have hid := (hafter.holds_of_isAt hm hrow hat).id hm
    rcases h.of_mem_write hm hrow hacc with ⟨-, hne⟩ | ⟨-, -, hthread⟩
    · exact absurd hid hne
    · exact ⟨row, hrow, hacc, hid, hthread⟩
  · rw [learn_other hz]
    refine ext fun key => ?_
    rw [hafter.cached_iff, h.cached_iff]
    constructor
    · rintro ⟨row, hrow, hacc, hid, hthread⟩
      rcases h.of_mem_write hm hrow hacc with ⟨hrow, -⟩ | ⟨-, hid', -⟩
      · exact ⟨row, hrow, hacc, hid, hthread⟩
      · exact absurd (hid.symm.trans hid') hz
    · rintro ⟨row, hrow, hacc, hid, hthread⟩
      refine ⟨row, mem_write.mpr (.inl ⟨hrow, ?_⟩), hacc, hid, hthread⟩
      rw [Bool.eq_false_iff]
      intro hat
      exact hz (hid.symm.trans ((h.holds_of_isAt hm hrow hat).id hm))

/-! ## One visit -/

/-- Of the account's rows, those under the id visited are the children. -/
theorem Tracked.isChild_iff (h : Tracked ms account rows) (hrow : row ∈ rows) (hacc : row.account = account)
    {parent canonical : Str} :
    isChild account parent canonical row = true ↔ row.threadKey = some parent ∧ parent ≠ canonical := by
  obtain ⟨m, hm, hholds, m', hm', hnamed⟩ := h.known row hrow hacc
  obtain ⟨hkey, hreserved⟩ := ms.isKey m' hm'
  have huid : row.uid ≠ 0 := by
    rw [hholds.uid]
    exact ms.uid_ne m hm
  unfold isChild
  rw [decide_eq_true_eq, hnamed, any_some, decide_eq_true_eq, hkey.asciiLower, hreserved, some.injEq]
  constructor
  · rintro ⟨-, -, rfl, hne, -⟩
    exact ⟨rfl, hne⟩
  · rintro ⟨rfl, hne⟩
    exact ⟨hacc, huid, rfl, hne, rfl⟩

theorem Tracked.handed_key (h : Tracked ms account rows) (hrow : row ∈ rows)
    (hacc : row.account = account) {parent canonical : Str}
    (hcached : cachedThreadKeyOf rows account parent = some canonical) : (handed account rows parent row).threadKey =
      if row.threadKey = some parent then some canonical else row.threadKey := by
  unfold handed
  rw [hcached]
  dsimp only
  by_cases hkey : row.threadKey = some parent
  · rw [if_pos hkey]
    by_cases hne : parent = canonical
    · rw [if_neg fun hc => ((h.isChild_iff hrow hacc).mp hc).2 hne, hkey, hne]
    · rw [if_pos ((h.isChild_iff hrow hacc).mpr ⟨hkey, hne⟩)]
  · rw [if_neg hkey, if_neg fun hc => hkey ((h.isChild_iff hrow hacc).mp hc).1]

theorem Tracked.hand (h : Tracked ms account rows) (parent : Str) : Tracked ms account (hand account rows parent) := by
  cases hcached : cachedThreadKeyOf rows account parent with
  | none =>
    have : Threads.hand account rows parent = rows := by
      unfold Threads.hand handDown
      rw [hcached]
    rw [this]
    exact h
  | some canonical =>
    -- the key handed down is one the messages name
    obtain ⟨source, hsource, hsourceAcc, -, hsourceKey, -⟩ := cachedThreadKeyOf_some hcached
    obtain ⟨-, -, -, m', hm', hnamed⟩ := h.known source hsource hsourceAcc
    have hcanonical : canonical = m'.2.threadKey := some.inj (hsourceKey.symm.trans hnamed)
    refine ⟨fun row hrow hacc => ?_, fun row hrow row' hrow' hacc hacc' hid => ?_⟩
    · obtain ⟨old, hold, rfl⟩ := mem_hand.mp hrow
      obtain ⟨hsameAcc, hfolder, huid, hmessage⟩ := handed_same account rows parent old
      have hacc : old.account = account := hsameAcc.symm.trans hacc
      obtain ⟨m, hm, hholds, n, hn, hkey⟩ := h.known old hold hacc
      refine ⟨m, hm, ⟨hfolder.trans hholds.folder, huid.trans hholds.uid, hmessage.trans hholds.messageId⟩, ?_⟩
      show ∃ m'' ∈ ms.all, (handed account rows parent old).threadKey = some m''.2.threadKey
      rw [h.handed_key hold hacc hcached]
      split
      · exact ⟨m', hm', congrArg some hcanonical⟩
      · exact ⟨n, hn, hkey⟩
    · obtain ⟨old, hold, rfl⟩ := mem_hand.mp hrow
      obtain ⟨old', hold', rfl⟩ := mem_hand.mp hrow'
      have hacc : old.account = account := (handed_same account rows parent old).1.symm.trans hacc
      have hacc' : old'.account = account := (handed_same account rows parent old').1.symm.trans hacc'
      have hid : (handed account rows parent old).id = (handed account rows parent old').id := hid
      rw [handed_id, handed_id] at hid
      show (handed account rows parent old).threadKey = (handed account rows parent old').threadKey
      rw [h.handed_key hold hacc hcached, h.handed_key hold' hacc' hcached, h.agree old hold old' hold' hacc hacc' hid]

/-- **A visit settles the id visited.** -/
theorem Tracked.hand_settle (h : Tracked ms account rows) (parent : Str) :
    cachedThreadKeyOf (Threads.hand account rows parent) account =
      settle (cachedThreadKeyOf rows account) parent := by
  cases hcached : cachedThreadKeyOf rows account parent with
  | none =>
    have : Threads.hand account rows parent = rows := by
      unfold Threads.hand handDown
      rw [hcached]
    unfold settle
    rw [this, hcached]
  | some canonical =>
    have hafter := h.hand parent
    funext z
    rw [settle_some hcached]
    refine ext fun key => ?_
    rw [hafter.cached_iff]
    have hchanged : ∀ old ∈ rows, old.account = account → old.id = z →
        (handed account rows parent old).threadKey =
          if cachedThreadKeyOf rows account z = some parent then some canonical
          else cachedThreadKeyOf rows account z := by
      intro old hold hacc hid
      have : cachedThreadKeyOf rows account z = old.threadKey := by
        obtain ⟨-, -, -, n, -, hkey⟩ := h.known old hold hacc
        rw [hkey, h.cached_iff]
        exact ⟨old, hold, hacc, hid, hkey⟩
      rw [h.handed_key hold hacc hcached, this]
    constructor
    · rintro ⟨row, hrow, hacc, hid, hkey⟩
      obtain ⟨old, hold, rfl⟩ := mem_hand.mp hrow
      have hacc : old.account = account := (handed_same account rows parent old).1.symm.trans hacc
      have hid : (handed account rows parent old).id = z := hid
      rw [handed_id] at hid
      exact (hchanged old hold hacc hid).symm.trans hkey
    · intro hkey
      -- some row has the id, whichever way it came by its key
      obtain ⟨old, hold, hacc, hid⟩ : ∃ old ∈ rows, old.account = account ∧ old.id = z := by
        cases hz : cachedThreadKeyOf rows account z with
        | none =>
          rw [hz, if_neg (by simp)] at hkey
          cases hkey
        | some k =>
          obtain ⟨old, hold, hacc, hid, -⟩ := h.cached_iff.mp hz
          exact ⟨old, hold, hacc, hid⟩
      refine ⟨handed account rows parent old, mem_hand.mpr ⟨old, hold, rfl⟩, ?_, ?_, ?_⟩
      · exact (handed_same account rows parent old).1.trans hacc
      · exact (handed_id account rows parent old).trans hid
      · exact (hchanged old hold hacc hid).trans hkey

/-! ## A batch -/

/-- The batch is of these messages, none of them twice. -/
def Batch.IsOf (ms : Messages lowercase) (batch : Batch lowercase) : Prop :=
  (∀ m ∈ batch.messages, (batch.folder, m) ∈ ms.all) ∧ batch.messages.Nodup

/-- Between two batches: nothing is left to settle. -/
structure AtRest (ms : Messages lowercase) (account : Str) (rows : List MessageRow) : Prop where
  tracked : Tracked ms account rows
  reached : Reached ms.raw (cachedThreadKeyOf rows account)
  settled : Settled ms.raw [] (cachedThreadKeyOf rows account)

variable {l : List MessageHeader}

theorem Tracked.foldl_write : ∀ {rows : List MessageRow}, Tracked ms account rows →
      (∀ m ∈ l, (folder, m) ∈ ms.all) →
      Tracked ms account (l.foldl (Threads.write lowercase account folder) rows) ∧
        cachedThreadKeyOf (l.foldl (Threads.write lowercase account folder) rows) account =
          (l.map MessageHeader.messageId).foldl (learn ms.raw) (cachedThreadKeyOf rows account) := by
  induction l with
  | nil =>
    intro rows h _
    exact ⟨h, rfl⟩
  | cons m l ih =>
    intro rows h hl
    have hm := hl m mem_cons_self
    obtain ⟨htracked, hkeys⟩ := ih (h.write hm) fun m' hm' => hl m' (mem_cons_of_mem m hm')
    refine ⟨htracked, ?_⟩
    rw [foldl_cons, hkeys, h.write_learn hm, map_cons, foldl_cons]

theorem Tracked.foldl_hand {ps : List Str} : ∀ {rows : List MessageRow}, Tracked ms account rows →
    Tracked ms account (ps.foldl (Threads.hand account) rows) ∧
      cachedThreadKeyOf (ps.foldl (Threads.hand account) rows) account =
        ps.foldl settle (cachedThreadKeyOf rows account) := by
  induction ps with
  | nil =>
    intro rows h
    exact ⟨h, rfl⟩
  | cons p ps ih =>
    intro rows h
    obtain ⟨htracked, hkeys⟩ := ih (h.hand p)
    refine ⟨htracked, ?_⟩
    rw [foldl_cons, hkeys, h.hand_settle p, foldl_cons]

/-- The ids a batch cached are among those gone through. -/
theorem ids_subset_order {batch : Batch lowercase} (hof : batch.IsOf ms) :
    batch.messages.map MessageHeader.messageId ⊆ batch.order := by
  intro id hid
  obtain ⟨m, hm, rfl⟩ := mem_map.mp hid
  have hmessage := ms.isId _ (hof.1 m hm)
  rw [batch.order_perm.mem_iff]
  unfold upsertedIds
  rw [List.mem_dedup, mem_filter]
  refine ⟨mem_map.mpr ⟨m, hm, ?_⟩, decide_eq_true hmessage.nonempty⟩
  rw [hmessage.trimmed, hmessage.lower]

/-- **After a batch nothing is left to settle.** -/
theorem AtRest.upsert (h : AtRest ms account rows) {batch : Batch lowercase} (hof : batch.IsOf ms) :
    AtRest ms account (upsertMessages lowercase account rows batch) := by
  obtain ⟨hwritten, hlearned⟩ := h.tracked.foldl_write hof.1
  have hnodup : (batch.messages.map MessageHeader.messageId).Nodup := by
    refine hof.2.map_on fun m hm m' hm' hid => ?_
    exact congrArg Prod.snd (Messages.eq_of_id (hof.1 m hm) (hof.1 m' hm') hid)
  unfold upsertMessages
  rw [reconcile_eq]
  have hsubset : batch.messages.map MessageHeader.messageId ⊆
      reconciled account (batch.messages.foldl (Threads.write lowercase account batch.folder) rows) batch.order :=
    fun id hid => Visits.subset_visited (ids_subset_order hof hid)
  obtain ⟨hhanded, hsettled⟩ := hwritten.foldl_hand
  refine ⟨hhanded, ?_, ?_⟩
  · rw [hsettled, hlearned]
    exact h.reached.batch
  · rw [hsettled, hlearned]
    exact h.settled.batch hnodup hsubset

theorem atRest_empty (hrows : ∀ row ∈ rows, row.account ≠ account) : AtRest ms account rows := by
  have hnone : ∀ id, cachedThreadKeyOf rows account id = none :=
    fun id => cachedThreadKeyOf_none.mpr fun row hrow hacc => absurd hacc (hrows row hrow)
  refine ⟨⟨fun row hrow hacc => absurd hacc (hrows row hrow),
    fun row hrow _ _ hacc => absurd hacc (hrows row hrow)⟩, ?_, ?_⟩
  · intro x c hx
    rw [hnone] at hx
    cases hx
  · intro x c hx
    rw [hnone] at hx
    cases hx

theorem atRest_upserts {batches : List (Batch lowercase)} (hof : ∀ batch ∈ batches, batch.IsOf ms) :
    ∀ {rows : List MessageRow}, AtRest ms account rows →
      AtRest ms account (batches.foldl (upsertMessages lowercase account) rows) := by
  induction batches with
  | nil =>
    intro rows h
    exact h
  | cons batch batches ih =>
    intro rows h
    exact ih (fun b hb => hof b (mem_cons_of_mem batch hb)) (h.upsert (hof batch mem_cons_self))

/-! ## What is cached stays -/

theorem Present.foldl_write {place : Str} {uid : Nat} : ∀ {rows : List MessageRow}, Present rows account place uid →
      Present (l.foldl (Threads.write lowercase account folder) rows) account place uid := by
  induction l with
  | nil =>
    intro rows h
    exact h
  | cons m l ih =>
    intro rows h
    exact ih h.write

theorem Present.reconcile {place : Str} {uid : Nat} {order : List Str} (h : Present rows account place uid) :
    Present (reconcileThreadKeysFrom account rows order) account place uid := by
  rw [reconcile_eq]
  generalize reconciled account rows order = ps
  induction ps generalizing rows with
  | nil => exact h
  | cons p ps ih => exact ih h.hand

theorem present_written : ∀ {rows : List MessageRow}, ∀ m ∈ l,
    Present (l.foldl (Threads.write lowercase account folder) rows) account folder m.uid := by
  induction l with
  | nil =>
    intro rows m hm
    cases hm
  | cons m' l ih =>
    intro rows m hm
    rcases mem_cons.mp hm with rfl | hm
    · have hwritten : Present (Threads.write lowercase account folder rows m) account folder m.uid :=
        exists_written lowercase rows account folder m
      rw [foldl_cons]
      exact hwritten.foldl_write
    · exact ih m hm

theorem present_upserts {batches : List (Batch lowercase)} : ∀ {rows : List MessageRow}, ∀ batch ∈ batches, ∀ m ∈ batch.messages,
      Present (batches.foldl (upsertMessages lowercase account) rows) account batch.folder m.uid := by
  have hkept : ∀ {bs : List (Batch lowercase)} {rows : List MessageRow} {place : Str} {uid : Nat},
      Present rows account place uid →
        Present (bs.foldl (upsertMessages lowercase account) rows) account place uid := by
    intro bs
    induction bs with
    | nil =>
      intro rows place uid h
      exact h
    | cons b bs ih =>
      intro rows place uid h
      exact ih (Present.reconcile h.foldl_write)
  induction batches with
  | nil =>
    intro rows batch hb
    cases hb
  | cons b bs ih =>
    intro rows batch hb m hm
    rcases mem_cons.mp hb with rfl | hb
    · have hcached : Present (upsertMessages lowercase account rows batch) account batch.folder m.uid :=
        Present.reconcile (present_written m hm)
      rw [foldl_cons]
      exact hkept hcached
    · exact ih batch hb m hm

/-! ## The threads -/

/-- The thread key of the message at a place. -/
def keyAt (rows : List MessageRow) (account folder : Str) (uid : Nat) : Option Str :=
  (rows.find? (fun row => row.isAt account folder uid)).bind MessageRow.threadKey

theorem Tracked.keyAt_eq (h : Tracked ms account rows) {m : Str × MessageHeader} (hm : m ∈ ms.all)
    (hpresent : Present rows account m.1 m.2.uid) :
    keyAt rows account m.1 m.2.uid = cachedThreadKeyOf rows account m.2.messageId ∧
      (keyAt rows account m.1 m.2.uid).isSome = true := by
  obtain ⟨there, hthere, hat⟩ := hpresent
  cases hfind : rows.find? (fun row => row.isAt account m.1 m.2.uid) with
  | none => exact absurd hat (find?_eq_none.mp hfind there hthere)
  | some row =>
    have hrow := mem_of_find?_eq_some hfind
    have hrowAt := find?_some hfind
    obtain ⟨-, -, -, m', -, hkey⟩ := h.known row hrow (of_isAt hrowAt).1
    unfold keyAt
    rw [hfind, bind_some, hkey]
    refine ⟨Eq.symm ?_, rfl⟩
    rw [h.cached_iff]
    exact ⟨row, hrow, (of_isAt hrowAt).1, (h.holds_of_isAt hm hrow hrowAt).id hm, hkey⟩

/-- Every message is in some batch. -/
def Covers (ms : Messages lowercase) (batches : List (Batch lowercase)) : Prop :=
  ∀ m ∈ ms.all, ∃ batch ∈ batches, batch.folder = m.1 ∧ m.2 ∈ batch.messages

/-- With every message cached, following the cache is following the names. -/
theorem AtRest.names (h : AtRest ms account rows) (hpresent : ∀ m ∈ ms.all, Present rows account m.1 m.2.uid) :
    Follows ms.raw (cachedThreadKeyOf rows account) = ms.Names := by
  funext a b
  refine propext ⟨?_, ?_⟩
  · rintro ⟨hsome, rfl⟩
    obtain ⟨key, hkey⟩ := isSome_iff_exists.mp hsome
    obtain ⟨row, hrow, hacc, rfl, -⟩ := h.tracked.cached_iff.mp hkey
    obtain ⟨m, hm, hholds, -⟩ := h.tracked.known row hrow hacc
    refine ⟨m, hm, (hholds.id hm).symm, ?_⟩
    rw [hholds.id hm]
    exact (Messages.raw_eq hm).symm
  · rintro ⟨m, hm, rfl, rfl⟩
    obtain ⟨hkey, hsome⟩ := h.tracked.keyAt_eq hm (hpresent m hm)
    exact ⟨hkey ▸ hsome, Messages.raw_eq hm⟩

theorem AtRest.sameKey_iff (h : AtRest ms account rows)
    (hpresent : ∀ m ∈ ms.all, Present rows account m.1 m.2.uid) {x y : Str × MessageHeader}
    (hx : x ∈ ms.all) (hy : y ∈ ms.all) : (∃ kx, keyAt rows account x.1 x.2.uid = some kx) ∧
      (keyAt rows account x.1 x.2.uid = keyAt rows account y.1 y.2.uid ↔
        SameEnd ms.Names x.2.messageId y.2.messageId) := by
  obtain ⟨hxkey, hxsome⟩ := h.tracked.keyAt_eq hx (hpresent x hx)
  obtain ⟨hykey, hysome⟩ := h.tracked.keyAt_eq hy (hpresent y hy)
  obtain ⟨kx, hkx⟩ := isSome_iff_exists.mp hxsome
  obtain ⟨ky, hky⟩ := isSome_iff_exists.mp hysome
  refine ⟨⟨kx, hkx⟩, ?_⟩
  have hfin : {a | (cachedThreadKeyOf rows account a).isSome = true}.Finite := by
    refine (finite_toSet (ms.all.map fun m => m.2.messageId)).subset fun a ha => ?_
    obtain ⟨key, hkey⟩ := isSome_iff_exists.mp ha
    obtain ⟨row, hrow, hacc, rfl, -⟩ := h.tracked.cached_iff.mp hkey
    obtain ⟨m, hm, hholds, -⟩ := h.tracked.known row hrow hacc
    exact mem_map.mpr ⟨m, hm, (hholds.id hm).symm⟩
  rw [← h.names hpresent, hkx, hky, some.injEq]
  exact keys_eq_iff h.reached h.settled hfin (hxkey.symm.trans hkx) (hykey.symm.trans hky)

/-- **Threading does not depend on the order of arrival.**  However the messages are split into batches,
ordered and repeated, two of them have one thread key in the end exactly if their chains end alike; so
any two ways give the same threads; and no walk visits more ids than its batch and the cache have. -/
theorem threads_of_chains {batches batches' : List (Batch lowercase)}
    (hof : ∀ batch ∈ batches, batch.IsOf ms) (hall : Covers ms batches)
    (hof' : ∀ batch ∈ batches', batch.IsOf ms) (hall' : Covers ms batches') (hrows : ∀ row ∈ rows, row.account ≠ account) :
    (∀ x ∈ ms.all, ∀ y ∈ ms.all,
      (∃ kx, keyAt (batches.foldl (upsertMessages lowercase account) rows) account x.1 x.2.uid = some kx) ∧
      (keyAt (batches.foldl (upsertMessages lowercase account) rows) account x.1 x.2.uid =
          keyAt (batches.foldl (upsertMessages lowercase account) rows) account y.1 y.2.uid ↔
        SameEnd ms.Names x.2.messageId y.2.messageId) ∧
      (keyAt (batches.foldl (upsertMessages lowercase account) rows) account x.1 x.2.uid =
          keyAt (batches.foldl (upsertMessages lowercase account) rows) account y.1 y.2.uid ↔
        keyAt (batches'.foldl (upsertMessages lowercase account) rows) account x.1 x.2.uid =
          keyAt (batches'.foldl (upsertMessages lowercase account) rows) account y.1 y.2.uid)) ∧
    (∀ (cache : List MessageRow) (order : List Str),
      (reconciled account cache order).length ≤ order.length + cache.length) := by
  have hpresent : ∀ {bs : List (Batch lowercase)}, Covers ms bs → ∀ m ∈ ms.all,
      Present (bs.foldl (upsertMessages lowercase account) rows) account m.1 m.2.uid := by
    intro bs hcovers m hm
    obtain ⟨batch, hb, hfolder, hmessage⟩ := hcovers m hm
    rw [← hfolder]
    exact present_upserts batch hb m.2 hmessage
  have hrest := atRest_upserts hof (atRest_empty hrows)
  have hrest' := atRest_upserts hof' (atRest_empty hrows)
  refine ⟨fun x hx y hy => ?_, fun cache order => ?_⟩
  · obtain ⟨hsome, hiff⟩ := hrest.sameKey_iff (hpresent hall) hx hy
    obtain ⟨-, hiff'⟩ := hrest'.sameKey_iff (hpresent hall') hx hy
    exact ⟨hsome, hiff, hiff.trans hiff'.symm⟩
  · have hlength := @Visits.length_visited_le _ _ _ (handing account) cache order order
    have hunseen := Visits.unseen_le ((handing account).items cache) order
    have hitems : ((handing account).items cache).length = cache.length := length_map _
    unfold reconciled
    omega

end Tracked

namespace Sample

/-- Two messages that name each other, and a reply to one of them. -/
def round : Messages Text.asciiLower where
  all :=
    [(['i'], ⟨1, 100, ['b'], ['a']⟩), (['i'], ⟨2, 200, ['a'], ['b']⟩), (['s'], ⟨1, 300, ['a'], ['c']⟩)]
  ids := by decide +kernel
  places := by decide +kernel
  uid_ne := by decide
  isId := by decide +kernel
  isKey := by decide +kernel

/-- The reply first, and the two together, twice. -/
def replyFirst : List (Batch Text.asciiLower) :=
  [⟨['s'], [⟨1, 300, ['a'], ['c']⟩], [['c']], by decide +kernel⟩,
    ⟨['i'], [⟨2, 200, ['a'], ['b']⟩, ⟨1, 100, ['b'], ['a']⟩], [['a'], ['b']], by decide +kernel⟩,
    ⟨['i'], [⟨1, 100, ['b'], ['a']⟩, ⟨2, 200, ['a'], ['b']⟩], [['b'], ['a']], by decide +kernel⟩]

/-- Each by itself. -/
def oneByOne : List (Batch Text.asciiLower) :=
  [⟨['i'], [⟨1, 100, ['b'], ['a']⟩], [['a']], by decide +kernel⟩,
    ⟨['i'], [⟨2, 200, ['a'], ['b']⟩], [['b']], by decide +kernel⟩,
    ⟨['s'], [⟨1, 300, ['a'], ['c']⟩], [['c']], by decide +kernel⟩]

end Sample

open Sample in
theorem round_any_order : SameEnd round.Names ['c'] ['b'] ∧
    keyAt (oneByOne.foldl (upsertMessages Text.asciiLower ['m']) []) ['m'] ['s'] 1 =
      keyAt (oneByOne.foldl (upsertMessages Text.asciiLower ['m']) []) ['m'] ['i'] 2 := by
  have hof : ∀ batch ∈ replyFirst, batch.IsOf round := by
    unfold Batch.IsOf
    decide +kernel
  have hof' : ∀ batch ∈ oneByOne, batch.IsOf round := by
    unfold Batch.IsOf
    decide +kernel
  have hall : Covers round replyFirst := by
    unfold Covers
    decide +kernel
  have hall' : Covers round oneByOne := by
    unfold Covers
    decide +kernel
  have hempty : ∀ row ∈ ([] : List MessageRow), row.account ≠ ['m'] := fun row hrow => by cases hrow
  obtain ⟨-, hiff, hother⟩ := (threads_of_chains hof hall hof' hall' hempty).1
    (['s'], ⟨1, 300, ['a'], ['c']⟩) (by decide) (['i'], ⟨2, 200, ['a'], ['b']⟩) (by decide)
  have hsame : keyAt (replyFirst.foldl (upsertMessages Text.asciiLower ['m']) []) ['m'] ['s'] 1 =
      keyAt (replyFirst.foldl (upsertMessages Text.asciiLower ['m']) []) ['m'] ['i'] 2 := by
    decide +kernel
  exact ⟨hiff.mp hsame, hother.mp hsame⟩

end Oreneta.Threads

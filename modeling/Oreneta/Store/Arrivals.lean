import Oreneta.Lib.Decimal
import Oreneta.Lib.Runs
import Oreneta.Lib.Table

/-!
# New mail is announced once

`store/mod.rs`: which messages of the inbox a sync announces, and the identities of mail that was seen before.

* `mailIdentityFromParts`, `messageIdentity` — the identity of a message; `rowIdentity`, `sqlIdentity` — of a
  cached row, as it is read back and as the backfill computes it.
* `newUnreadInboxMessages`, `backfillObservedMailIdentities`, `upsertMessage`.
* `Once` — what is to hold of a run: no identity is announced twice, none that a backfill covered, and every
  unread message of the range whose identity is new.
* `announced_once` — it holds of every run whose steps all meet `Fits`.

`lowercase` is `str::to_lowercase`; `real` is the text SQLite writes of a number beyond 64 signed bits.
-/

namespace Oreneta.Store.Arrivals

open Text Runs Table List

def INBOX : Str := "INBOX"

/-- A header as it comes from the server, as far as identities go. -/
structure MessageHeader where
  uid : Nat
  gmailMsgId : Option UInt64
  messageId : Str
  seen : Bool
  deriving DecidableEq, Repr

/-- A cached row; the ids are in its JSON. -/
structure Cached where
  folder : Str
  uid : Nat
  gmailMsgId : Option UInt64
  messageId : Option Str
  seen : Bool
  deriving DecidableEq, Repr

def Cached.key (row : Cached) : Str × Nat := (row.folder, row.uid)

structure State where
  rows : List Cached
  /-- The identities in `observed_mail_identities`. -/
  observed : List Str
  deriving DecidableEq, Repr

/-- What an upsert makes of a row: ids that are missing are kept (`json_patch`). -/
def Cached.patch (row : Cached) (header : MessageHeader) : Cached :=
  { row with
    gmailMsgId := header.gmailMsgId.or row.gmailMsgId
    messageId := if header.messageId = [] then row.messageId else some header.messageId
    seen := header.seen }

/-- One message of `upsert_messages`. -/
def upsertMessage (s : State) (folder : Str) (header : MessageHeader) : State :=
  let blank : Cached := ⟨folder, header.uid, none, none, false⟩
  { s with rows :=
    if (Table.lookup Cached.key s.rows (folder, header.uid)).isSome then
      Table.update (fun row => row.key = (folder, header.uid)) (fun row => row.patch header) s.rows
    else s.rows ++ [blank.patch header] }

section Identity

variable (lowercase : Str → Str) (real : Nat → Str)

def mailIdentityFromParts (folder : Str) (uid : Nat) (gmailMsgId : Option Nat) (messageId : Str) : Str :=
  match gmailMsgId with
  | some id => "gmail:" ++ Decimal.ofNat id
  | none =>
    let messageId := trim messageId
    if messageId ≠ [] then "message-id:" ++ lowercase messageId
    else "uid:" ++ (lowercase folder ++ ':' :: Decimal.ofNat uid)

def messageIdentity (header : MessageHeader) (folder : Str) : Str :=
  mailIdentityFromParts lowercase folder header.uid (header.gmailMsgId.map UInt64.toNat) header.messageId

/-- A number of the JSON as SQLite writes it; beyond 64 signed bits it is a real one. -/
def castText (id : UInt64) : Str := if id.toNat < 2 ^ 63 then Decimal.ofNat id.toNat else real id.toNat

/-- `gmail_msg_id_from_json`. -/
def gmailMsgIdFromJson (value : Option Str) : Option Nat := value.bind (Decimal.parseBelow (2 ^ 64))

/-- The identity of a row, as it is read back. -/
def rowIdentity (row : Cached) : Str :=
  mailIdentityFromParts lowercase row.folder row.uid (gmailMsgIdFromJson (row.gmailMsgId.map (castText real)))
    (row.messageId.getD [])

/-- The identity of a row, as the backfill computes it. -/
def sqlIdentity (row : Cached) : Str :=
  match row.gmailMsgId with
  | some id => "gmail:" ++ castText real id
  | none =>
    if row.messageId.getD [] ≠ [] then "message-id:" ++ asciiLower (row.messageId.getD [])
    else "uid:" ++ (asciiLower row.folder ++ ':' :: Decimal.ofNat row.uid)

/-- `INSERT OR IGNORE`: what is observed now, and what is new of it. -/
def record : List Str → List Str → List Str × List Str
  | observed, [] => (observed, [])
  | observed, identity :: identities =>
    if identity ∈ observed then record observed identities
    else
      let recorded := record (identity :: observed) identities
      (recorded.1, identity :: recorded.2)

def backfillObservedMailIdentities (s : State) : State :=
  { s with observed := (record s.observed ((s.rows.filter (fun row => row.uid ≠ 0)).map (sqlIdentity real))).1 }

/-- `new_unread_inbox_messages`: the rows announced, none as the empty list. -/
def newUnreadInboxMessages (s : State) (uidNextBefore uidNextAfter : Nat) (synced : List MessageHeader) :
    List Cached × State :=
  if uidNextBefore = 0 ∨ uidNextAfter ≤ uidNextBefore then ([], s)
  else
    let recorded := record s.observed (synced.map (fun header => messageIdentity lowercase header INBOX))
    ((s.rows.filter (fun row => row.folder = INBOX && uidNextBefore ≤ row.uid && row.uid < uidNextAfter && !row.seen)).filter
      (fun row => recorded.2.contains (rowIdentity lowercase real row)),
      { s with observed := recorded.1 })

end Identity

/-! ## Runs -/

inductive Step where
  | upsert (folder : Str) (header : MessageHeader)
  | backfill
  | arrivals (uidNextBefore uidNextAfter : Nat) (synced : List MessageHeader)
  deriving DecidableEq, Repr

variable (lowercase : Str → Str) (real : Nat → Str)

def step (s : State) : Step → Option State
  | .upsert folder header => some (upsertMessage s folder header)
  | .backfill => some (backfillObservedMailIdentities real s)
  | .arrivals uidNextBefore uidNextAfter synced =>
    some (newUnreadInboxMessages lowercase real s uidNextBefore uidNextAfter synced).2

/-- What a step announces. -/
def announced (s : State) : Step → List Cached
  | .arrivals uidNextBefore uidNextAfter synced =>
    (newUnreadInboxMessages lowercase real s uidNextBefore uidNextAfter synced).1
  | .upsert _ _ => []
  | .backfill => []

/-- What is to hold of a run from the state `s`. -/
structure Once (s : State) (steps : List Step) : Prop where
  /-- No identity is announced by two steps. -/
  twice : ∀ before a between b rest t u, steps = before ++ a :: (between ++ b :: rest) →
    run (step lowercase real) s before = some t →
    run (step lowercase real) t (a :: between) = some u →
    ∀ row ∈ announced lowercase real t a, ∀ row' ∈ announced lowercase real u b,
      rowIdentity lowercase real row ≠ rowIdentity lowercase real row'
  /-- Neither a row a backfill covered nor its identity is announced later. -/
  covered : ∀ before between b rest t u, steps = before ++ .backfill :: (between ++ b :: rest) →
    run (step lowercase real) s before = some t →
    run (step lowercase real) t (.backfill :: between) = some u →
    ∀ row ∈ t.rows, row.uid ≠ 0 → ∀ row' ∈ announced lowercase real u b,
      rowIdentity lowercase real row ≠ rowIdentity lowercase real row' ∧ row.key ≠ row'.key
  /-- Every unread message of the range that is in the batch and was never recorded is announced. -/
  complete : ∀ before uidNextBefore uidNextAfter synced rest t,
    steps = before ++ .arrivals uidNextBefore uidNextAfter synced :: rest →
    run (step lowercase real) s before = some t →
    0 < uidNextBefore → uidNextBefore < uidNextAfter →
    ∀ header ∈ synced, ∀ row ∈ t.rows, row.key = (INBOX, header.uid) →
      uidNextBefore ≤ row.uid → row.uid < uidNextAfter → row.seen = false →
      messageIdentity lowercase header INBOX ∉ t.observed →
      row ∈ announced lowercase real t (.arrivals uidNextBefore uidNextAfter synced)

/-- **When a step keeps identities together.** -/
def Fits (s : State) : Step → Prop
  -- an upsert leaves the identity of the row it updates
  | .upsert folder header => ∀ row ∈ s.rows, row.key = (folder, header.uid) →
      rowIdentity lowercase real (row.patch header) = rowIdentity lowercase real row
  -- a backfill computes the identities the rows are read back with
  | .backfill => ∀ row ∈ s.rows, row.uid ≠ 0 → sqlIdentity real row = rowIdentity lowercase real row
  -- the rows of a batch are read back with the identities of its headers
  | .arrivals _ _ synced => ∀ header ∈ synced, ∀ row ∈ s.rows, row.key = (INBOX, header.uid) →
      rowIdentity lowercase real row = messageIdentity lowercase header INBOX

instance (s : State) (a : Step) : Decidable (Fits lowercase real s a) :=
  match a with
  | .upsert folder header => inferInstanceAs (Decidable (∀ row ∈ s.rows, row.key = (folder, header.uid) →
      rowIdentity lowercase real (row.patch header) = rowIdentity lowercase real row))
  | .backfill => inferInstanceAs (Decidable (∀ row ∈ s.rows, row.uid ≠ 0 →
      sqlIdentity real row = rowIdentity lowercase real row))
  | .arrivals _ _ synced => inferInstanceAs (Decidable (∀ header ∈ synced, ∀ row ∈ s.rows,
      row.key = (INBOX, header.uid) → rowIdentity lowercase real row = messageIdentity lowercase header INBOX))

/-! ## What is recorded -/

theorem mem_record {identity : Str} : ∀ {identities observed : List Str},
    identity ∈ (record observed identities).1 ↔ identity ∈ observed ∨ identity ∈ identities
  | [], observed => by simp [record]
  | first :: rest, observed => by
    rw [record]
    split
    · rename_i hin
      rw [mem_record, mem_cons]
      constructor
      · rintro (h | h)
        · exact .inl h
        · exact .inr (.inr h)
      · rintro (h | rfl | h)
        · exact .inl h
        · exact .inl hin
        · exact .inr h
    · show identity ∈ (record (first :: observed) rest).1 ↔ _
      rw [mem_record, mem_cons, mem_cons]
      tauto

theorem mem_record_new {identity : Str} : ∀ {identities observed : List Str},
    identity ∈ (record observed identities).2 ↔ identity ∉ observed ∧ identity ∈ identities
  | [], observed => by simp [record]
  | first :: rest, observed => by
    rw [record]
    split
    · rename_i hin
      rw [mem_record_new, mem_cons]
      constructor
      · rintro ⟨hno, h⟩
        exact ⟨hno, .inr h⟩
      · rintro ⟨hno, rfl | h⟩
        · exact absurd hin hno
        · exact ⟨hno, h⟩
    · rename_i hout
      show identity ∈ first :: (record (first :: observed) rest).2 ↔ _
      rw [mem_cons, mem_record_new, mem_cons, mem_cons]
      constructor
      · rintro (rfl | ⟨hno, h⟩)
        · exact ⟨hout, .inl rfl⟩
        · exact ⟨fun hm => hno (.inr hm), .inr h⟩
      · rintro ⟨hno, rfl | h⟩
        · exact .inl rfl
        · by_cases he : identity = first
          · exact .inl he
          · exact .inr ⟨fun hm => hm.elim he hno, h⟩

variable {lowercase real}

variable {s : State}

/-- **Which rows a batch announces.** -/
theorem mem_newUnread {uidNextBefore uidNextAfter : Nat} {synced : List MessageHeader} {row : Cached} :
    row ∈ (newUnreadInboxMessages lowercase real s uidNextBefore uidNextAfter synced).1 ↔
      (0 < uidNextBefore ∧ uidNextBefore < uidNextAfter) ∧ row ∈ s.rows ∧ row.folder = INBOX ∧
        (uidNextBefore ≤ row.uid ∧ row.uid < uidNextAfter) ∧ row.seen = false ∧
        rowIdentity lowercase real row ∉ s.observed ∧
        rowIdentity lowercase real row ∈ synced.map (fun header => messageIdentity lowercase header INBOX) := by
  unfold newUnreadInboxMessages
  split
  · rename_i hrange
    refine ⟨fun h => (by cases h), fun h => ?_⟩
    omega
  · rename_i hrange
    have hgood : 0 < uidNextBefore ∧ uidNextBefore < uidNextAfter := by omega
    simp only [mem_filter, contains_iff_mem, mem_record_new, Bool.and_eq_true, decide_eq_true_eq,
      Bool.not_eq_true', hgood, and_self, true_and]
    tauto

variable {t : State}

/-- What is announced was not recorded before, and is now. -/
theorem announced_spec {a : Step} (h : step lowercase real s a = some t) {row : Cached}
    (hrow : row ∈ announced lowercase real s a) :
    rowIdentity lowercase real row ∉ s.observed ∧ rowIdentity lowercase real row ∈ t.observed ∧ row ∈ s.rows := by
  cases a with
  | upsert folder header => cases hrow
  | backfill => cases hrow
  | arrivals uidNextBefore uidNextAfter synced =>
    cases h
    obtain ⟨⟨hpos, hlt⟩, hmem, -, -, -, hout, hin⟩ := mem_newUnread.mp hrow
    refine ⟨hout, ?_, hmem⟩
    unfold newUnreadInboxMessages
    rw [if_neg (by omega)]
    exact mem_record.mpr (.inr hin)

/-- Nothing that was recorded is forgotten. -/
theorem observed_step {a : Step} (h : step lowercase real s a = some t) {identity : Str}
    (hin : identity ∈ s.observed) : identity ∈ t.observed := by
  cases a with
  | upsert folder header =>
    cases h
    exact hin
  | backfill =>
    cases h
    exact mem_record.mpr (.inl hin)
  | arrivals uidNextBefore uidNextAfter synced =>
    cases h
    unfold newUnreadInboxMessages
    split
    · exact hin
    · exact mem_record.mpr (.inl hin)

theorem observed_run {steps : List Step} (h : run (step lowercase real) s steps = some t) {identity : Str}
    (hin : identity ∈ s.observed) : identity ∈ t.observed :=
  @run_invariant _ _ (step lowercase real) (fun _ _ => True) (fun w => identity ∈ w.observed)
    (fun _ _ _ hi _ hstep => observed_step hstep hi) steps s t hin AllSteps.of_true h

/-- **No identity is announced twice**, whatever the steps are. -/
theorem announced_apart {between : List Step} {u : State} {a b : Step}
    (hrun : run (step lowercase real) t (a :: between) = some u) {row row' : Cached}
    (hrow : row ∈ announced lowercase real t a) (hrow' : row' ∈ announced lowercase real u b) :
    rowIdentity lowercase real row ≠ rowIdentity lowercase real row' := by
  obtain ⟨t', hstep, hbetween⟩ := run_cons hrun
  have hthere : rowIdentity lowercase real row ∈ u.observed :=
    observed_run hbetween (announced_spec hstep hrow).2.1
  have hnew : ∃ u', step lowercase real u b = some u' := by cases b <;> exact ⟨_, rfl⟩
  obtain ⟨u', hstep'⟩ := hnew
  intro he
  exact (announced_spec hstep' hrow').1 (he ▸ hthere)

/-! ## Rows keep their identities -/

theorem key_patch (row : Cached) (header : MessageHeader) : (row.patch header).key = row.key := rfl

theorem Keyed.upsert (h : Keyed Cached.key s.rows) (folder : Str) (header : MessageHeader) :
    Keyed Cached.key (upsertMessage s folder header).rows := by
  unfold upsertMessage
  dsimp only
  split
  · exact h.update fun row => key_patch row header
  · rename_i hnone
    rw [Option.not_isSome_iff_eq_none] at hnone
    refine h.append (nodup_singleton _) fun row hrow new hnew => ?_
    rw [mem_singleton.mp hnew]
    exact lookup_eq_none.mp hnone row hrow

theorem keyed_step {a : Step} (h : step lowercase real s a = some t)
    (hkeyed : Keyed Cached.key s.rows) : Keyed Cached.key t.rows := by
  cases a with
  | upsert folder header =>
    cases h
    exact Keyed.upsert hkeyed folder header
  | backfill =>
    cases h
    exact hkeyed
  | arrivals uidNextBefore uidNextAfter synced =>
    cases h
    unfold newUnreadInboxMessages
    split <;> exact hkeyed

theorem keyed_run {steps : List Step} (h : run (step lowercase real) s steps = some t)
    (hkeyed : Keyed Cached.key s.rows) : Keyed Cached.key t.rows :=
  @run_invariant _ _ (step lowercase real) (fun _ _ => True) (fun w => Keyed Cached.key w.rows)
    (fun _ _ _ hi _ hstep => keyed_step hstep hi) steps s t hkeyed AllSteps.of_true h

/-- There is a row under a key, with this identity and no other. -/
def Identified (lowercase : Str → Str) (real : Nat → Str) (key : Str × Nat) (identity : Str) (s : State) : Prop :=
  (∃ row ∈ s.rows, row.key = key) ∧ ∀ row ∈ s.rows, row.key = key → rowIdentity lowercase real row = identity

/-- **A row keeps its identity** over a step that fits. -/
theorem Identified.step {key : Str × Nat} {identity : Str} {s t : State} {a : Step}
    (hi : Identified lowercase real key identity s) (hfits : Fits lowercase real s a)
    (h : step lowercase real s a = some t) : Identified lowercase real key identity t := by
  cases a with
  | backfill =>
    cases h
    exact hi
  | arrivals uidNextBefore uidNextAfter synced =>
    cases h
    unfold newUnreadInboxMessages
    split <;> exact hi
  | upsert folder header =>
    cases h
    obtain ⟨⟨row, hrow, hkey⟩, hall⟩ := hi
    unfold upsertMessage
    dsimp only
    split
    · refine ⟨?_, fun row' hrow' hkey' => ?_⟩
      · refine ⟨_, mem_update.mpr ⟨row, hrow, rfl⟩, ?_⟩
        split
        · exact hkey
        · exact hkey
      · obtain ⟨old, hold, rfl⟩ := mem_update.mp hrow'
        by_cases hsame : old.key = (folder, header.uid)
        · rw [if_pos (decide_eq_true hsame)] at hkey' ⊢
          exact (hfits old hold hsame).trans (hall old hold hkey')
        · rw [if_neg fun he => hsame (of_decide_eq_true he)] at hkey' ⊢
          exact hall old hold hkey'
    · rename_i hnone
      rw [Option.not_isSome_iff_eq_none] at hnone
      refine ⟨⟨row, mem_append_left _ hrow, hkey⟩, fun row' hrow' hkey' => ?_⟩
      rcases mem_append.mp hrow' with hold | hnew
      · exact hall row' hold hkey'
      · rw [mem_singleton.mp hnew] at hkey'
        exact absurd (hkey.trans hkey'.symm) (lookup_eq_none.mp hnone row hrow)

/-! ## Every run -/

/-- **New mail is announced once**, in every run whose steps keep identities together. -/
theorem announced_once (lowercase : Str → Str) (real : Nat → Str) (s : State)
    (hkeyed : Keyed Cached.key s.rows) (steps : List Step)
    (hfits : AllSteps (step lowercase real) (Fits lowercase real) s steps) : Once lowercase real s steps := by
  refine ⟨?_, ?_, ?_⟩
  · intro before a between b rest t u _ _ hrun row hrow row' hrow'
    exact announced_apart hrun hrow hrow'
  · intro before between b rest t u hsteps hbefore hrun row hrow huid row' hrow'
    rw [hsteps] at hfits
    obtain ⟨hbackfill, hlater⟩ := hfits.right hbefore
    obtain ⟨t', hstep, hbetween⟩ := run_cons hrun
    have hrest := hlater t' hstep
    have htkeyed := keyed_run hbefore hkeyed
    -- the identity of the row is recorded by the backfill, and the row keeps it
    have hrecorded : rowIdentity lowercase real row ∈ u.observed := by
      refine observed_run hbetween ?_
      cases hstep
      refine mem_record.mpr (.inr (mem_map.mpr ⟨row, mem_filter.mpr ⟨hrow, ?_⟩, hbackfill row hrow huid⟩))
      exact decide_eq_true huid
    have hidentified : Identified lowercase real row.key (rowIdentity lowercase real row) t' := by
      cases hstep
      refine ⟨⟨row, hrow, rfl⟩, fun other hother hkey => ?_⟩
      rw [inj_on_of_nodup_map htkeyed hother hrow hkey]
    have hkept : Identified lowercase real row.key (rowIdentity lowercase real row) u :=
      run_invariant (fun _ _ _ hi hok hs => hi.step hok hs) hidentified hrest.left hbetween
    have hnew : ∃ u', step lowercase real u b = some u' := by cases b <;> exact ⟨_, rfl⟩
    obtain ⟨u', hstep'⟩ := hnew
    obtain ⟨hout, -, hmem⟩ := announced_spec hstep' hrow'
    refine ⟨fun he => hout (he ▸ hrecorded), fun hkey => hout ?_⟩
    rw [hkept.2 row' hmem hkey.symm]
    exact hrecorded
  · intro before uidNextBefore uidNextAfter synced rest t hsteps hbefore hpos hlt header hheader row hrow hkey hlow hhigh
      hunread hnew
    rw [hsteps] at hfits
    have hagree := (hfits.right hbefore).1 header hheader row hrow hkey
    refine mem_newUnread.mpr ⟨⟨hpos, hlt⟩, hrow, congrArg Prod.fst hkey, ⟨hlow, hhigh⟩, hunread, ?_, ?_⟩
    · rw [hagree]
      exact hnew
    · rw [hagree]
      exact mem_map_of_mem hheader

/-! ## Runs that fit, and one that does not -/

/-- As `str::to_lowercase` does on ASCII and on this letter. -/
def lowercaseUmlaut (s : Str) : Str := s.map (fun c => if c = 'Ä' then 'ä' else c.toLower)

def restored (id : String) : List Step :=
  [.upsert INBOX ⟨1, none, id.toList, false⟩, .backfill, .upsert INBOX ⟨2, none, id.toList, false⟩,
    .arrivals 2 3 [⟨2, none, id.toList, false⟩]]

/-- A message that was seen and is restored is not announced. -/
theorem restored_once : Once lowercaseUmlaut Decimal.ofNat ⟨[], []⟩ (restored "Mid@Example.com") :=
  announced_once lowercaseUmlaut Decimal.ofNat ⟨[], []⟩ nodup_nil (restored "Mid@Example.com") (by decide)

/-- A message with a letter that SQLite does not lower is announced although a backfill covered it. -/
theorem umlaut_announced : ¬ ∀ (s : State) (steps : List Step), Keyed Cached.key s.rows →
    Once lowercaseUmlaut Decimal.ofNat s steps := by
  intro h
  have honce := h ⟨[], []⟩ (restored "Äb@x") nodup_nil
  have hapart := honce.covered [.upsert INBOX ⟨1, none, "Äb@x", false⟩]
    [.upsert INBOX ⟨2, none, "Äb@x", false⟩] (.arrivals 2 3 [⟨2, none, "Äb@x", false⟩]) [] _ _ rfl rfl rfl
    ⟨INBOX, 1, none, some "Äb@x", false⟩ (by decide) (by decide)
    ⟨INBOX, 2, none, some "Äb@x", false⟩ (by decide)
  exact hapart.1 (by decide)

end Oreneta.Store.Arrivals

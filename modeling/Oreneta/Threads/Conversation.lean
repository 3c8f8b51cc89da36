import Oreneta.Threads.Cards

/-!
# A conversation across folders

`get_thread_headers_all_folders` of the store: the cached messages of a thread key in every folder of an account, with the
copies of one message folded.

* `StoredRow`, `StoredRows` — the rows, with the Message-ID a cached body has told.
* `hidden` — a row gives way to an unread copy of its message, or to an older one.
* `getThreadHeadersAllFolders` — the headers in order.
* `Leads`, `exists_leads` — of the copies of a message one gives way to none.
-/

namespace Oreneta.Threads

open Paging Keyset List

/-- A row of `messages`; those who write one bind a text for its subject, its name and its address. -/
structure StoredRow where
  id : Int
  account : Str
  folder : Str
  uid : Nat
  subject : Str
  fromName : Str
  fromAddr : Str
  date : Int
  seen : Int
  starred : Int
  threadKey : Option Str
  /-- `$.message_id` and `$.in_reply_to` of its `json`. -/
  messageId : Option Str
  inReplyTo : Option Str
  deriving DecidableEq, Repr

/-- `COALESCE(NULLIF(thread_key, ''), 'uid:' || uid)`. -/
def StoredRow.conversation (row : StoredRow) : Str :=
  (row.threadKey.filter (fun key => !key.isEmpty)).getD ("uid:" ++ Decimal.ofNat row.uid)

/-- The table, in which an id is one row's. -/
structure StoredRows where
  rows : List StoredRow
  ids : (rows.map StoredRow.id).Nodup

/-- A header of the thread view. -/
structure ThreadHeader extends Header where
  inReplyTo : Str
  deriving DecidableEq, Repr

def StoredRow.header (row : StoredRow) : ThreadHeader where
  uid := row.uid
  subject := row.subject
  fromName := row.fromName
  fromAddr := row.fromAddr
  date := row.date
  seen := row.seen ≠ 0
  starred := row.starred ≠ 0
  threadKey := row.conversation
  folder := row.folder
  inReplyTo := row.inReplyTo.getD []

/-- The copy gives way to the other one. -/
def yields (row dup : StoredRow) : Bool := dup.seen < row.seen || (dup.seen = row.seen && decide (dup.id < row.id))

/-- The subquery: a copy of the message in the conversation the row gives way to. -/
def hidden (rows : List StoredRow) (threadKey : Str) (row : StoredRow) : Bool :=
  rows.any (fun dup => dup.account = row.account && dup.conversation = threadKey && row.messageId.getD [] ≠ [] &&
    dup.messageId = row.messageId && yields row dup)

/-- The `WHERE` of the query. -/
def listed (rows : List StoredRow) (account threadKey : Str) (row : StoredRow) : Bool :=
  row.account = account && row.uid ≠ 0 && row.conversation = threadKey && !hidden rows threadKey row

/-- `get_thread_headers_all_folders`; rows of one date and uid stand as in the table. -/
def getThreadHeadersAllFolders (rows : List StoredRow) (account threadKey : Str) : List ThreadHeader :=
  (arrange earlier (fun row => (row.date, row.uid)) (rows.filter (listed rows account threadKey))).map StoredRow.header

/-! ## Copies -/

/-- The other row is a copy of the message in the same conversation. -/
def Copy (row dup : StoredRow) : Prop :=
  dup.account = row.account ∧ dup.conversation = row.conversation ∧ dup.messageId = row.messageId

/-- The row gives way to no copy: it is unread where one is, and the oldest of these. -/
def Leads (rows : List StoredRow) (row : StoredRow) : Prop := ∀ dup ∈ rows, Copy row dup → yields row dup = false

variable {rows : List StoredRow} {row : StoredRow}

theorem hidden_iff (hid : row.messageId.getD [] ≠ []) : hidden rows row.conversation row = false ↔ Leads rows row := by
  unfold hidden Leads Copy
  rw [any_eq_false]
  refine forall₂_congr fun dup _ => ?_
  simp only [hid, Bool.and_eq_true, decide_eq_true_eq, ne_eq, not_false_eq_true, and_true, not_and, Bool.not_eq_true, and_imp]

theorem not_hidden_of_no_id {threadKey : Str} (hid : row.messageId.getD [] = []) : hidden rows threadKey row = false := by
  unfold hidden
  rw [any_eq_false]
  intro dup _
  simp [hid]

/-- Unread before read, then by age. -/
def precedence (row : StoredRow) : Int × Int := (row.seen, row.id)

theorem yields_eq (row dup : StoredRow) : yields row dup = decide (pairLt (· < ·) (· < ·) (precedence dup) (precedence row)) := by
  unfold yields pairLt precedence
  rw [← Bool.decide_and, ← Bool.decide_or]
  rfl

theorem strict_precedence : Strict (pairLt (· < ·) (· < ·) : Int × Int → Int × Int → Prop) :=
  strict_pairLt strict_lt strict_lt

theorem Copy.symm {dup : StoredRow} (h : Copy row dup) : Copy dup row := ⟨h.1.symm, h.2.1.symm, h.2.2.symm⟩

theorem Copy.trans {a b c : StoredRow} (hab : Copy a b) (hbc : Copy b c) : Copy a c :=
  ⟨hbc.1.trans hab.1, hbc.2.1.trans hab.2.1, hbc.2.2.trans hab.2.2⟩

/-- **One copy gives way to none.** -/
theorem exists_leads (h : row ∈ rows) : ∃ k ∈ rows, Copy row k ∧ Leads rows k := by
  classical
  generalize hcopies : rows.filter (fun dup => Copy row dup) = copies
  have hmem : ∀ {dup : StoredRow}, dup ∈ copies ↔ dup ∈ rows ∧ Copy row dup := by
    intro dup
    rw [← hcopies, mem_filter, decide_eq_true_eq]
  have hperm := @Keyset.arrange_perm_self _ _ (pairLt (· < ·) (· < ·)) _ precedence copies
  have hsorted := @Keyset.arrange_sorted _ _ (pairLt (· < ·) (· < ·)) _ precedence strict_precedence copies
  generalize arrange (pairLt (· < ·) (· < ·)) precedence copies = inOrder at hperm hsorted
  cases inOrder with
  | nil =>
    have hself : row ∈ copies := hmem.mpr ⟨h, rfl, rfl, rfl⟩
    exact absurd (hperm.mem_iff.mpr hself) not_mem_nil
  | cons k rest =>
    obtain ⟨hk, hcopy⟩ := hmem.mp (hperm.mem_iff.mp mem_cons_self)
    refine ⟨k, hk, hcopy, fun dup hdup hkdup => ?_⟩
    rw [yields_eq, decide_eq_false_iff_not]
    rcases mem_cons.mp (hperm.mem_iff.mpr (hmem.mpr ⟨hdup, hcopy.trans hkdup⟩)) with rfl | hrest
    · exact strict_precedence.irrefl _
    · exact rel_of_pairwise_cons hsorted hrest

/-- Two copies that give way to none are one. -/
theorem leads_unique (table : StoredRows) {a b : StoredRow} (ha : a ∈ table.rows) (hb : b ∈ table.rows) (hcopy : Copy a b)
    (hla : Leads table.rows a) (hlb : Leads table.rows b) : a = b := by
  have hab := hla b hb hcopy
  have hba := hlb a ha hcopy.symm
  rw [yields_eq, decide_eq_false_iff_not] at hab hba
  rcases strict_precedence.total (precedence a) (precedence b) with hr | he | hr
  · exact absurd hr hba
  · exact inj_on_of_nodup_map table.ids ha hb (Prod.mk.inj he).2
  · exact absurd hr hab

end Oreneta.Threads

import Oreneta.Lib.Base64
import Oreneta.Lib.Fallible
import Oreneta.Lib.Json
import Oreneta.Lib.Table

/-!
# Local drafts

`store/local_drafts.rs`: documents kept for recovery, each under an identifier and with a revision.

* `validate` — what a document must be to be kept.
* `mutate`, `dispatch` — a save or a delete that says which revision it expects; `get`.
* `answer_cases` — what a call can do; `Accepted`: when it is applied.
* `drafts_registers` — over every run of calls each draft is a register that is compared and swapped.

`write` and `read` are `serde_json::to_string` and `from_str`.
-/

namespace Oreneta.Store.LocalDrafts

open Fallible Text Table List Option

def MIB : Nat := 1024 * 1024

def MAX_DOCUMENT : Nat := 64 * MIB

def MAX_BODY : Nat := 8 * MIB

def MAX_ATTACHMENTS : Nat := 64

def MAX_ATTACHMENT_BYTES : Nat := 40 * MIB

def MAX_ACTIVE : Nat := 256

/-- Exact in JavaScript. -/
def MAX_REVISION : Int := 9007199254740991

/-! ## Documents -/

def identifier (value : Json) : Except Str Str := do
  let id ← context value.asStr "invalid local draft identifier"
  ensure (id ≠ [] ∧ byteLength id ≤ 128 ∧ id.all (fun c => c.isAlphanum || c = '-' || c = '_') = true)
    "invalid local draft identifier"
  .ok id

def textField (value : Json) (field : String) (max : Nat) : Except Str Str := do
  let text ← context ((value.get field).bind Json.asStr) "invalid local draft text field"
  ensure (byteLength text ≤ max) "local draft text exceeds limit"
  .ok text

/-- One attachment, behind those with these ids and so many bytes. -/
def checkAttachment (seen : List Str × Nat) (attachment : Json) : Except Str (List Str × Nat) := do
  let id ← textField attachment "id" 128
  ensure (id ≠ [] ∧ id ∉ seen.1) "invalid or duplicate local draft attachment identifier"
  let filename ← textField attachment "filename" 1024
  ensure (filename ≠ []) "invalid local draft attachment filename"
  let mime ← textField attachment "mime" 256
  ensure (mime ≠ []) "invalid local draft attachment MIME"
  let _ ← if (attachment.get "inlineId").isSome then textField attachment "inlineId" 1024 else .ok []
  let size ← context (attachment.index "size").asU64 "invalid local draft attachment size"
  ensure (size ≤ MAX_ATTACHMENT_BYTES) "local draft attachments exceed limit"
  let bytes := seen.2 + size
  ensure (bytes < 2 ^ 64) "local draft attachments exceed limit"
  ensure (bytes ≤ MAX_ATTACHMENT_BYTES) "local draft attachments exceed limit"
  let encoded ← textField attachment "data" ((MAX_ATTACHMENT_BYTES + 2) / 3 * 4)
  ensure (byteLength encoded = (size + 2) / 3 * 4) "local draft attachment size mismatch"
  let decoded ← context (Base64.decodePadded Base64.standard encoded) "invalid local draft attachment encoding"
  ensure (decoded.length = size) "local draft attachment size mismatch"
  .ok (seen.1 ++ [id], bytes)

/-- What `validate` asks of a document before it is written out. -/
def checkDocument (document : Json) : Except Str Unit := do
  ensure ((document.get "version").bind Json.asU64 = some 1) "unsupported local draft version"
  let compose := document.index "compose"
  ["accountId", "fromEmail", "to", "cc", "bcc", "replyTo", "subject", "inReplyTo", "references",
    "draftMessageId"].forM (fun field => do let _ ← textField compose field (64 * 1024))
  ["html", "text"].forM (fun field => do let _ ← textField compose field MAX_BODY)
  ["rich", "showCcBcc", "pgpSign", "pgpEncrypt"].forM (fun field =>
    ensure (((compose.get field).bind Json.asBool).isSome = true) "invalid local draft option")
  let attachments ← context (compose.index "attachments").asArray "invalid local draft attachments"
  ensure (attachments.length ≤ MAX_ATTACHMENTS) "too many local draft attachments"
  let _ ← attachments.foldlM checkAttachment ([], 0)

variable (write : Json → Str)

def validate (document : Json) : Except Str Str := do
  checkDocument document
  let serialized := write document
  ensure (byteLength serialized ≤ MAX_DOCUMENT) "local draft document exceeds limit"
  .ok serialized

/-! ## The store -/

/-- A row of `local_drafts`. -/
structure Record where
  id : Str
  account : Str
  revision : Int
  deleted : Bool
  document : Option Str
  updatedAt : Int
  deriving DecidableEq, Repr

abbrev Records := List Record

def find (s : Records) (id : Str) : Option Record := Table.lookup Record.id s id

def active (s : Records) : Nat := (s.filter (fun record => !record.deleted)).length

structure Outcome where
  applied : Bool
  revision : Int
  deleted : Bool
  deriving DecidableEq, Repr

/-- What the database says when it fails to begin and read, to count or to write. -/
structure Faults where
  begins : Option Str
  counts : Option Str
  writes : Option Str
  deriving DecidableEq, Repr

def works : Option Str → Except Str Unit
  | none => .ok ()
  | some e => .error e

/-- The text of a document to be saved. -/
def serializedOf : Option Json → Except Str (Option Str)
  | some document => (validate write document).map some
  | none => .ok none

/-- The account a document is of. -/
def accountOf (document : Option Json) : Str :=
  (document.bind (fun d => ((d.index "compose").index "accountId").asStr)).getD []

/-- A new draft keeps to the limit. -/
def checkRoom (faults : Faults) (s : Records) (new : Bool) : Except Str Unit :=
  if new then do
    works faults.counts
    ensure (active s < MAX_ACTIVE) "local draft count limit reached"
  else .ok ()

def mutate (faults : Faults) (s : Records) (id : Str) (expected : Int) (document : Option Json) (now : Int) :
    Except Str (Outcome × Records) := do
  let serialized ← serializedOf write document
  works faults.begins
  let current := find s id
  let revision := (current.map Record.revision).getD 0
  let deleted := (current.map Record.deleted).getD false
  if expected ≠ revision ∨ deleted = true then .ok (⟨false, revision, deleted⟩, s)
  else
    ensure (revision < MAX_REVISION) "local draft revision limit reached"
    checkRoom faults s (document.isSome && current.isNone)
    works faults.writes
    -- the row in conflict is replaced in every column
    let record : Record := ⟨id, accountOf document, revision + 1, document.isNone, serialized, now⟩
    .ok (⟨true, revision + 1, document.isNone⟩, Table.insertOrReplace Record.id s record)

/-- What a call does. -/
inductive Command where
  | save
  | delete
  deriving DecidableEq, Repr

/-- A call to `localDrafts.save` or `localDrafts.delete`. -/
structure Call where
  command : Command
  params : Json
  now : Int
  faults : Faults

/-- The document a call would save. -/
def Call.document (call : Call) : Except Str (Option Json) :=
  match call.command with
  | .save => (context (call.params.get "document") "missing local draft document").map some
  | .delete => .ok none

def dispatch (s : Records) (call : Call) : Except Str (Outcome × Records) := do
  let id ← identifier (call.params.index "id")
  let expected ← context (call.params.index "expected_revision").asI64 "missing local draft revision"
  ensure (0 ≤ expected ∧ expected ≤ MAX_REVISION) "invalid local draft revision"
  let document ← call.document
  mutate write call.faults s id expected document call.now

structure Draft where
  id : Str
  revision : Int
  deleted : Bool
  document : Option Json

/-- `localDrafts.get`. -/
def get (read : Str → Option Json) (s : Records) (params : Json) : Except Str (Option Draft) := do
  let id ← identifier (params.index "id")
  match find s id with
  | none => .ok none
  | some record =>
    if record.deleted then .ok (some ⟨id, record.revision, true, none⟩)
    else
      let raw ← context record.document "missing local draft document"
      ensure (byteLength raw ≤ MAX_DOCUMENT) "local draft document exceeds limit"
      let document ← context (read raw) "invalid stored local draft document"
      let _ ← validate write document
      .ok (some ⟨id, record.revision, false, some document⟩)

/-! ## One call -/

def revision (s : Records) (id : Str) : Int := ((find s id).map Record.revision).getD 0

def deleted (s : Records) (id : Str) : Bool := ((find s id).map Record.deleted).getD false

def Call.id (call : Call) : Str := (call.params.index "id").asStr.getD []

/-- The document of a call, if it has one. -/
def Call.saved (call : Call) : Option Json :=
  match call.command with
  | .save => call.params.get "document"
  | .delete => none

/-- The row a call writes. -/
def Call.record (call : Call) (s : Records) : Record :=
  ⟨call.id, accountOf call.saved, revision s call.id + 1, call.saved.isNone, call.saved.map write, call.now⟩

/-- **When a call is applied**, if the database does its part. -/
structure Accepted (s : Records) (call : Call) : Prop where
  identified : identifier (call.params.index "id") = .ok call.id
  expected : (call.params.index "expected_revision").asI64 = some (revision s call.id)
  alive : deleted s call.id = false
  valid : call.command = .save → ∃ document, call.params.get "document" = some document ∧
    ∃ raw, validate write document = .ok raw
  below : revision s call.id < MAX_REVISION
  room : call.command = .save → find s call.id = none → active s < MAX_ACTIVE

/-- The call is applied. -/
def applies (s : Records) (call : Call) : Bool :=
  match dispatch write s call with
  | .ok (o, _) => o.applied
  | .error _ => false

/-- The store after a call; a call that fails is rolled back. -/
def after (s : Records) (call : Call) : Records :=
  match dispatch write s call with
  | .ok (_, t) => t
  | .error _ => s

def Call.Works (call : Call) : Prop :=
  call.faults.begins = none ∧ call.faults.counts = none ∧ call.faults.writes = none

variable {write}

theorem identifier_ok {value : Json} {id : Str} (h : identifier value = .ok id) : value.asStr = some id := by
  obtain ⟨text, htext, h⟩ := bind_ok.mp h
  obtain ⟨-, -, h⟩ := bind_ok.mp h
  cases h
  exact context_ok.mp htext

theorem validate_ok {document : Json} {raw : Str} (h : validate write document = .ok raw) :
    raw = write document ∧ byteLength raw ≤ MAX_DOCUMENT := by
  obtain ⟨-, -, h⟩ := bind_ok.mp h
  dsimp only at h
  obtain ⟨_, hlength, h⟩ := bind_ok.mp h
  cases h
  exact ⟨rfl, ensure_ok.mp hlength⟩

variable {document : Option Json}

theorem serializedOf_ok {serialized : Option Str}
    (h : serializedOf write document = .ok serialized) : serialized = document.map write ∧
      ∀ d, document = some d → ∃ raw, validate write d = .ok raw := by
  cases document with
  | none =>
    cases h
    exact ⟨rfl, fun d hd => by cases hd⟩
  | some d =>
    unfold serializedOf at h
    cases hraw : validate write d with
    | error e =>
      simp only [hraw] at h
      cases h
    | ok raw =>
      simp only [hraw] at h
      cases h
      refine ⟨congrArg some (validate_ok hraw).1, fun d' hd => ?_⟩
      cases hd
      exact ⟨raw, hraw⟩

variable {call : Call}

theorem document_ok : call.document = .ok document ↔ document = call.saved ∧ (call.command = .save → document ≠ none) := by
  unfold Call.document Call.saved
  cases call.command with
  | save =>
    cases hget : call.params.get "document" with
    | none =>
      constructor
      · intro h
        cases h
      · rintro ⟨rfl, h⟩
        exact absurd rfl (h rfl)
    | some d =>
      constructor
      · intro h
        cases h
        exact ⟨rfl, fun _ => some_ne_none d⟩
      · rintro ⟨rfl, -⟩
        rfl
  | delete =>
    constructor
    · intro h
      cases h
      exact ⟨rfl, fun h => by cases h⟩
    · rintro ⟨rfl, -⟩
      rfl

variable {s : Records}

/-- **What a call that is answered does**: it is refused, or it is accepted and writes its row. -/
theorem answer_cases {t : Records} {o : Outcome} (h : dispatch write s call = .ok (o, t)) : o.applied = false ∧ t = s ∨
      o = ⟨true, revision s call.id + 1, call.saved.isNone⟩ ∧ Accepted write s call ∧
        t = Table.insertOrReplace Record.id s (call.record write s) := by
  obtain ⟨id, hid, h⟩ := bind_ok.mp h
  obtain ⟨expected, hexpected, h⟩ := bind_ok.mp h
  obtain ⟨-, -, h⟩ := bind_ok.mp h
  obtain ⟨document, hdocument, h⟩ := bind_ok.mp h
  obtain ⟨serialized, hserialized, h⟩ := bind_ok.mp h
  obtain ⟨-, -, h⟩ := bind_ok.mp h
  have hcall : id = call.id := by
    unfold Call.id
    rw [identifier_ok hid]
    rfl
  obtain ⟨hsaved, hsome⟩ := document_ok.mp hdocument
  obtain ⟨hraw, hvalid⟩ := serializedOf_ok hserialized
  rw [context_ok] at hexpected
  subst hcall
  subst hsaved
  dsimp only at h
  split at h
  · cases h
    exact .inl ⟨rfl, rfl⟩
  · rename_i hmatch
    rw [not_or, not_not, Bool.not_eq_true] at hmatch
    obtain ⟨hrevision, halive⟩ := hmatch
    obtain ⟨_, hbelow, h⟩ := bind_ok.mp h
    rw [ensure_ok] at hbelow
    obtain ⟨_, hroom, h⟩ := bind_ok.mp h
    obtain ⟨-, -, h⟩ := bind_ok.mp h
    cases h
    have hdocument : call.command = .save → ∃ d, call.params.get "document" = some d ∧ call.saved = some d := by
      intro hsave
      have hne := hsome hsave
      unfold Call.saved at hne ⊢
      rw [hsave] at hne ⊢
      obtain ⟨d, hd⟩ := Option.ne_none_iff_exists'.mp hne
      exact ⟨d, hd, hd⟩
    refine .inr ⟨rfl, ⟨hid, ?_, halive, ?_, hbelow, ?_⟩, ?_⟩
    · rw [hexpected, hrevision]
      rfl
    · intro hsave
      obtain ⟨d, hget, hd⟩ := hdocument hsave
      exact ⟨d, hget, hvalid d hd⟩
    · intro hsave hnone
      obtain ⟨d, -, hd⟩ := hdocument hsave
      rw [hd, hnone] at hroom
      obtain ⟨_, -, hroom⟩ := bind_ok.mp hroom
      exact ensure_ok.mp hroom
    · unfold Call.record
      rw [hraw]
      rfl

theorem applied_spec (h : applies write s call = true) :
    Accepted write s call ∧ after write s call = Table.insertOrReplace Record.id s (call.record write s) := by
  unfold applies at h
  unfold after
  cases hanswer : dispatch write s call with
  | error e =>
    rw [hanswer] at h
    cases h
  | ok answer =>
    obtain ⟨o, t⟩ := answer
    simp only [hanswer] at h
    rcases answer_cases hanswer with ⟨hno, -⟩ | ⟨-, haccepted, ht⟩
    · rw [hno] at h
      cases h
    · exact ⟨haccepted, ht⟩

/-- **A call that is refused or fails changes nothing.** -/
theorem refused_spec (h : applies write s call = false) : after write s call = s := by
  unfold applies at h
  unfold after
  cases hanswer : dispatch write s call with
  | error e => rfl
  | ok answer =>
    obtain ⟨o, t⟩ := answer
    simp only [hanswer] at h
    rcases answer_cases hanswer with ⟨-, ht⟩ | ⟨ho, -, -⟩
    · exact ht
    · rw [ho] at h
      cases h

/-- Every revision is one that a call can expect. -/
def Bounded (s : Records) : Prop := ∀ record ∈ s, 0 < record.revision ∧ record.revision ≤ MAX_REVISION

theorem Bounded.revision {s : Records} (h : Bounded s) (id : Str) : 0 ≤ revision s id ∧ revision s id ≤ MAX_REVISION := by
  unfold LocalDrafts.revision
  cases hfind : find s id with
  | none => exact ⟨by decide, by decide⟩
  | some record =>
    obtain ⟨hpos, hmax⟩ := h record (lookup_some hfind).1
    exact ⟨Int.le_of_lt hpos, hmax⟩

/-- **A call that is accepted is applied**, where the database does its part. -/
theorem applies_of_accepted (hs : Bounded s) (h : Accepted write s call) (hworks : call.Works) : applies write s call = true := by
  obtain ⟨hbegins, hcounts, hwrites⟩ := hworks
  have hdocument : call.document = .ok call.saved := by
    refine document_ok.mpr ⟨rfl, fun hsave => ?_⟩
    obtain ⟨d, hget, -⟩ := h.valid hsave
    unfold Call.saved
    rw [hsave, hget]
    exact some_ne_none d
  have hserialized : ∃ serialized, serializedOf write call.saved = .ok serialized := by
    unfold Call.saved
    cases hcommand : call.command with
    | save =>
      obtain ⟨d, hget, raw, hraw⟩ := h.valid hcommand
      refine ⟨some raw, ?_⟩
      dsimp only
      rw [hget]
      unfold serializedOf
      simp only [hraw]
      rfl
    | delete => exact ⟨none, rfl⟩
  obtain ⟨serialized, hserialized⟩ := hserialized
  have hroom : checkRoom call.faults s (call.saved.isSome && (find s call.id).isNone) = .ok () := by
    unfold checkRoom
    split
    · rename_i hnew
      rw [Bool.and_eq_true, isNone_iff_eq_none] at hnew
      have hsave : call.command = .save := by
        unfold Call.saved at hnew
        cases hcommand : call.command with
        | save => rfl
        | delete =>
          rw [hcommand] at hnew
          cases hnew.1
      refine bind_ok.mpr ⟨(), ?_, ensure_ok.mpr (h.room hsave hnew.2)⟩
      rw [hcounts]
      rfl
    · rfl
  have hmatch : ¬ (revision s call.id ≠ revision s call.id ∨ deleted s call.id = true) := by
    rw [h.alive]
    simp
  have hmutate : ∃ t, mutate write call.faults s call.id (revision s call.id) call.saved call.now =
      .ok (⟨true, revision s call.id + 1, call.saved.isNone⟩, t) := by
    let record : Record :=
      ⟨call.id, accountOf call.saved, revision s call.id + 1, call.saved.isNone, serialized, call.now⟩
    refine ⟨Table.insertOrReplace Record.id s record, bind_ok.mpr ⟨serialized, hserialized, bind_ok.mpr ⟨(), ?_, ?_⟩⟩⟩
    · rw [hbegins]
      rfl
    · refine (if_neg hmatch).trans (bind_ok.mpr ⟨(), ensure_ok.mpr h.below, bind_ok.mpr ⟨(), hroom, ?_⟩⟩)
      refine bind_ok.mpr ⟨(), ?_, rfl⟩
      rw [hwrites]
      rfl
  obtain ⟨t, hmutate⟩ := hmutate
  have hdispatch : dispatch write s call = .ok (⟨true, revision s call.id + 1, call.saved.isNone⟩, t) :=
    bind_ok.mpr ⟨_, h.identified, bind_ok.mpr ⟨_, context_ok.mpr h.expected,
      bind_ok.mpr ⟨(), ensure_ok.mpr (hs.revision call.id), bind_ok.mpr ⟨_, hdocument, hmutate⟩⟩⟩⟩
  unfold applies
  rw [hdispatch]

/-! ## Every run -/

theorem find_insert {record : Record} {id : Str} :
    find (Table.insertOrReplace Record.id s record) id = if id = record.id then some record else find s id :=
  lookup_insertOrReplace

/-- A draft that is there counts if it is not deleted. -/
def counts (record : Record) : Nat := if record.deleted then 0 else 1

theorem active_cons (record : Record) (s : Records) : active (record :: s) = counts record + active s := by
  unfold active counts
  cases hdeleted : record.deleted with
  | false =>
    simp [hdeleted]
    omega
  | true => simp [hdeleted]

theorem active_perm {t : Records} (h : s.Perm t) : active s = active t := (h.filter _).length_eq

/-- The drafts beside the one of an identifier. -/
def beside (s : Records) (id : Str) : Records := s.filter (fun record => decide (record.id ≠ id))

theorem active_insert (s : Records) (record : Record) :
    active (Table.insertOrReplace Record.id s record) = active (beside s record.id) + counts record := by
  have hperm : (Table.insertOrReplace Record.id s record).Perm (record :: beside s record.id) :=
    perm_append_singleton record _
  rw [active_perm hperm, active_cons, Nat.add_comm]

theorem active_beside (h : Keyed Record.id s) (id : Str) : active s = active (beside s id) + ((find s id).map counts).getD 0 := by
  cases hfind : find s id with
  | none =>
    have hsame : beside s id = s := filter_of_lookup_none hfind
    rw [hsame]
    rfl
  | some record =>
    rw [active_perm (h.perm_lookup hfind), active_cons, Nat.add_comm]
    rfl

/-- What is on record for one draft. -/
def own (js : List (Str × Option Json)) (id : Str) : List (Option Json) :=
  js.filterMap (fun e => if e.1 = id then some e.2 else none)

theorem own_append (js js' : List (Str × Option Json)) (id : Str) : own (js ++ js') id = own js id ++ own js' id :=
  filterMap_append

/-- The row of a draft, after these saves and deletes. -/
def Tells (write : Json → Str) (saves : List (Option Json)) (row : Option Record) : Prop :=
  match saves.getLast? with
  | none => row = none
  | some document => ∃ record, row = some record ∧ record.revision = saves.length ∧
      record.deleted = document.isNone ∧ record.document = document.map write

/-- What the store keeps after the calls that were applied: the identifier and the document of each. -/
structure Registers (write : Json → Str) (js : List (Str × Option Json)) (s : Records) : Prop where
  keyed : Keyed Record.id s
  tells : ∀ id, Tells write (own js id) (find s id)
  valid : ∀ id d, (id, some d) ∈ js → ∃ raw, validate write d = .ok raw
  bounded : Bounded s
  room : active s ≤ MAX_ACTIVE

theorem Registers.empty : Registers write [] [] :=
  ⟨nodup_nil, fun _ => rfl, fun _ _ h => (by cases h), fun _ h => (by cases h), Nat.zero_le _⟩

theorem Tells.revision {saves : List (Option Json)} {s : Records} {id : Str} (h : Tells write saves (find s id)) :
    revision s id = saves.length := by
  unfold Tells at h
  unfold LocalDrafts.revision
  cases hlast : saves.getLast? with
  | none =>
    rw [hlast] at h
    rw [h, getLast?_eq_none_iff.mp hlast]
    rfl
  | some document =>
    rw [hlast] at h
    obtain ⟨record, hfind, hrevision, -, -⟩ := h
    rw [hfind]
    exact hrevision

/-- What a call adds to the record of applied calls. -/
def entry (write : Json → Str) (s : Records) (call : Call) : List (Str × Option Json) :=
  if applies write s call = true then [(call.id, call.saved)] else []

/-- **One call** keeps the registers. -/
theorem Registers.after {js : List (Str × Option Json)} {s : Records} (h : Registers write js s) (call : Call) :
    Registers write (js ++ entry write s call) (after write s call) := by
  cases happlies : applies write s call with
  | false =>
    have hentry : entry write s call = [] := if_neg (by rw [happlies]; decide)
    rw [refused_spec happlies, hentry, append_nil]
    exact h
  | true =>
    obtain ⟨haccepted, hafter⟩ := applied_spec happlies
    have hentry : entry write s call = [(call.id, call.saved)] := if_pos happlies
    have hsaved : ∀ d, call.saved = some d → call.command = .save ∧ ∃ raw, validate write d = .ok raw := by
      intro d hd
      unfold Call.saved at hd
      cases hcommand : call.command with
      | save =>
        obtain ⟨d', hget, hraw⟩ := haccepted.valid hcommand
        rw [hcommand] at hd
        dsimp only at hd
        rw [hget] at hd
        cases hd
        exact ⟨rfl, hraw⟩
      | delete =>
        rw [hcommand] at hd
        cases hd
    rw [hafter, hentry]
    refine ⟨h.keyed.insertOrReplace _, fun id => ?_, fun id d hd => ?_, fun record hrecord => ?_, ?_⟩
    · rw [own_append, find_insert]
      by_cases hid : id = call.id
      · subst hid
        have hown : own [(call.id, call.saved)] call.id = [call.saved] := by simp [own]
        rw [hown, if_pos (show call.id = (call.record write s).id from rfl)]
        unfold Tells
        rw [getLast?_concat]
        refine ⟨_, rfl, ?_, rfl, rfl⟩
        rw [length_append, length_singleton]
        show revision s call.id + 1 = _
        rw [(h.tells call.id).revision]
        push_cast
        rfl
      · have hne : ¬ call.id = id := fun he => hid he.symm
        have hother : own [(call.id, call.saved)] id = [] := by simp [own, hne]
        rw [hother, append_nil, if_neg (show ¬ id = (call.record write s).id from hid)]
        exact h.tells id
    · rcases mem_append.mp hd with hd | hd
      · exact h.valid id d hd
      · rw [mem_singleton, Prod.mk.injEq] at hd
        exact (hsaved d hd.2.symm).2
    · rcases mem_append.mp hrecord with hold | hnew
      · exact h.bounded record (mem_of_mem_filter hold)
      · rw [mem_singleton.mp hnew]
        have hbelow := haccepted.below
        have hpos := (h.bounded.revision call.id).1
        exact ⟨show 0 < revision s call.id + 1 by omega, show revision s call.id + 1 ≤ MAX_REVISION by omega⟩
    · have hbefore := active_beside h.keyed call.id
      have hroom := h.room
      rw [active_insert]
      change active (beside s call.id) + counts (call.record write s) ≤ MAX_ACTIVE
      cases hcommand : call.saved with
      | none =>
        have hcount : counts (call.record write s) = 0 := by
          unfold counts Call.record
          rw [hcommand]
          rfl
        omega
      | some d =>
        have hcount : counts (call.record write s) = 1 := by
          unfold counts Call.record
          rw [hcommand]
          rfl
        cases hfind : find s call.id with
        | none =>
          have hfree := haccepted.room (hsaved d hcommand).1 hfind
          rw [hfind] at hbefore
          simp only [map_none, getD_none] at hbefore
          omega
        | some record =>
          have halive := haccepted.alive
          unfold deleted at halive
          rw [hfind] at halive hbefore
          simp only [map_some, getD_some] at halive hbefore
          have hone : counts record = 1 := by
            unfold counts
            rw [halive]
            rfl
          omega

/-- The store after the calls of a run, one after the other. -/
def runCalls (write : Json → Str) (s : Records) (calls : List Call) : Records := calls.foldl (LocalDrafts.after write) s

/-- The calls of a run that are applied: the identifier and the document of each. -/
def journal (write : Json → Str) : Records → List Call → List (Str × Option Json)
  | _, [] => []
  | s, call :: calls => entry write s call ++ journal write (LocalDrafts.after write s call) calls

theorem Registers.run : ∀ (calls : List Call) {js : List (Str × Option Json)} {s : Records}, Registers write js s →
    Registers write (js ++ journal write s calls) (runCalls write s calls)
  | [], js, s, h => by
    rw [journal, append_nil]
    exact h
  | call :: calls, js, s, h => by
    rw [journal, ← append_assoc]
    exact Registers.run calls (h.after call)

/-- A draft that is deleted is not touched again. -/
theorem find_deleted {s : Records} {id : Str} (h : deleted s id = true) (call : Call) :
    find (LocalDrafts.after write s call) id = find s id := by
  cases happlies : applies write s call with
  | false => rw [refused_spec happlies]
  | true =>
    obtain ⟨haccepted, hafter⟩ := applied_spec happlies
    have hother : ¬ id = (call.record write s).id := fun he => by
      have halive := haccepted.alive
      rw [show call.id = id from he.symm, h] at halive
      cases halive
    rw [hafter, find_insert, if_neg hother]

theorem find_deleted_run {id : Str} : ∀ (calls : List Call) {s : Records}, deleted s id = true →
    find (runCalls write s calls) id = find s id
  | [], _, _ => rfl
  | call :: calls, s, h => by
    have hstep := @find_deleted write _ _ h call
    have hstill : deleted (LocalDrafts.after write s call) id = true := by
      unfold deleted at h ⊢
      rw [hstep]
      exact h
    exact (find_deleted_run calls hstill).trans hstep

/-! ## What is read -/

/-- What is to be read of a draft. -/
def shown (js : List (Str × Option Json)) (id : Str) : Option Draft :=
  (own js id).getLast?.map (fun document => ⟨id, (own js id).length, document.isNone, document⟩)

theorem mem_own {js : List (Str × Option Json)} {id : Str} : document ∈ own js id ↔ (id, document) ∈ js := by
  unfold own
  rw [mem_filterMap]
  constructor
  · rintro ⟨⟨id', d⟩, he, hd⟩
    split at hd
    · rename_i hid
      cases hd
      rw [← show id' = id from hid]
      exact he
    · cases hd
  · intro he
    exact ⟨_, he, if_pos rfl⟩

theorem mem_journal {d : Json} {id : Str} : ∀ {calls : List Call} {s : Records},
    (id, some d) ∈ journal write s calls → ∃ call ∈ calls, call.saved = some d
  | [], _, h => by cases h
  | call :: calls, s, h => by
    rcases mem_append.mp h with hnow | hlater
    · unfold entry at hnow
      split at hnow
      · rw [mem_singleton, Prod.mk.injEq] at hnow
        exact ⟨call, mem_cons_self, hnow.2.symm⟩
      · cases hnow
    · obtain ⟨call', hcall, hd⟩ := mem_journal hlater
      exact ⟨call', mem_cons_of_mem _ hcall, hd⟩

/-- **A draft is read as the last call applied to it left it.** -/
theorem Registers.get {read : Str → Option Json} {js : List (Str × Option Json)} {s : Records}
    (h : Registers write js s) (hread : ∀ id d, (id, some d) ∈ js → read (write d) = some d) {params : Json} {id : Str}
    (hid : identifier (params.index "id") = .ok id) : get write read s params = .ok (shown js id) := by
  have htells := h.tells id
  unfold Tells at htells
  refine bind_ok.mpr ⟨id, hid, ?_⟩
  unfold shown
  cases hlast : (own js id).getLast? with
  | none =>
    rw [hlast] at htells
    rw [htells]
    rfl
  | some document =>
    rw [hlast] at htells
    obtain ⟨record, hfind, hrevision, hdeleted, hdocument⟩ := htells
    rw [hfind]
    simp only [map_some, hdeleted, hrevision]
    cases document with
    | none => rfl
    | some d =>
      have hmem : (id, some d) ∈ js := mem_own.mp (mem_of_getLast? hlast)
      obtain ⟨raw, hvalid⟩ := h.valid id d hmem
      obtain ⟨rfl, hlength⟩ := validate_ok hvalid
      rw [map_some] at hdocument
      refine bind_ok.mpr ⟨_, context_ok.mpr hdocument, bind_ok.mpr ⟨(), ensure_ok.mpr hlength,
        bind_ok.mpr ⟨d, context_ok.mpr (hread id d hmem), bind_ok.mpr ⟨_, hvalid, rfl⟩⟩⟩⟩

/-- **Local drafts are registers that are compared and swapped.**  After any calls: a call is applied if and
only if it is accepted, where the database does its part, and is never applied otherwise; one that is applied
counts the revision of its draft up by one and touches no other draft; one that is not changes nothing; a
draft that is deleted is deleted for good; no more drafts are active than the limit; and a draft is read as
the last call applied to it left it, if the documents saved are read back as they are written. -/
theorem drafts_registers (write : Json → Str) (read : Str → Option Json) (calls : List Call)
    (hread : ∀ call ∈ calls, ∀ d, call.saved = some d → read (write d) = some d) : let s := runCalls write [] calls
    (∀ call, (applies write s call = true → Accepted write s call) ∧
      (call.Works → (applies write s call = true ↔ Accepted write s call))) ∧
    (∀ call, applies write s call = true → revision (after write s call) call.id = revision s call.id + 1 ∧
      ∀ id, id ≠ call.id → find (after write s call) id = find s id) ∧
    (∀ call, applies write s call = false → after write s call = s) ∧
    (∀ id, deleted s id = true → ∀ more, find (runCalls write s more) id = find s id) ∧
    active s ≤ MAX_ACTIVE ∧
    ∀ params id, identifier (params.index "id") = .ok id →
      get write read s params = .ok (shown (journal write [] calls) id) := by
  intro s
  have hs : Registers write (journal write [] calls) s := Registers.empty.run calls
  refine ⟨fun call => ⟨fun h => (applied_spec h).1, fun hworks => ⟨fun h => (applied_spec h).1, fun h =>
    applies_of_accepted hs.bounded h hworks⟩⟩, fun call h => ?_, fun call h => refused_spec h,
    fun id h more => find_deleted_run more h, hs.room, fun params id hid => hs.get (fun id d hd => ?_) hid⟩
  · obtain ⟨-, hafter⟩ := applied_spec h
    rw [hafter]
    constructor
    · unfold revision
      rw [find_insert, if_pos (show call.id = (call.record write s).id from rfl)]
      rfl
    · intro id hid
      rw [find_insert, if_neg (show ¬ id = (call.record write s).id from hid)]
  · obtain ⟨call, hcall, hsaved⟩ := mem_journal hd
    exact hread call hcall d hsaved

/-! ## A run -/

/-- A document with a subject. -/
def composed (subject : String) : Json :=
  .obj [("compose", .obj [("accountId", .str []), ("attachments", .arr []),
    ("bcc", .str []), ("cc", .str []), ("draftMessageId", .str []), ("fromEmail", .str []),
    ("html", .str []), ("inReplyTo", .str []), ("pgpEncrypt", .bool false),
    ("pgpSign", .bool false), ("references", .str []), ("replyTo", .str []),
    ("rich", .bool true), ("showCcBcc", .bool false), ("subject", .str subject.toList),
    ("text", .str []), ("to", .str [])]), ("version", .int 1)]

/-- A call that finds the database at work. -/
def callFor (command : Command) (id : String) (expected : Int) (document : Option Json) : Call :=
  ⟨command, .obj ((document.toList.map (fun d => ("document".toList, d))) ++
    [("expected_revision".toList, .int expected), ("id".toList, .str id.toList)]), 0, ⟨none, none, none⟩⟩

/-- Two clients save what they have made of revision 1; the second is refused. -/
def twoClients : List Call :=
  [callFor .save "d" 0 (some (composed "a")), callFor .save "d" 1 (some (composed "b")),
    callFor .save "d" 1 (some (composed "c"))]

/-- What was written of one of these documents is read back. -/
def readBack (raw : Str) : Option Json := ["a", "b", "c"].findSome? (fun subject =>
  if raw = (composed subject).render then some (composed subject) else none)

set_option maxRecDepth 20000 in
theorem readBack_composed : ∀ subject ∈ ["a", "b", "c"], readBack (composed subject).render = some (composed subject) := by
  intro subject hsubject
  simp only [mem_cons, not_mem_nil, or_false] at hsubject
  rcases hsubject with rfl | rfl | rfl <;> rfl

set_option maxRecDepth 20000 in
theorem twoClients_read : get Json.render readBack (runCalls Json.render [] twoClients)
    (.obj [("id", .str ['d'])]) = .ok (some ⟨['d'], 2, false, some (composed "b")⟩) := by
  have hread : ∀ call ∈ twoClients, ∀ d, call.saved = some d → readBack d.render = some d := by
    intro call hcall d hd
    simp only [twoClients, mem_cons, not_mem_nil, or_false] at hcall
    rcases hcall with rfl | rfl | rfl <;> cases hd <;> exact readBack_composed _ (by decide)
  obtain ⟨-, -, -, -, -, hget⟩ := drafts_registers Json.render readBack twoClients hread
  exact (hget (.obj [("id".toList, .str ['d'])]) ['d'] rfl).trans rfl

/-- A call under an identifier that is none: it expects the revision there is, of a draft that is not
deleted, and has nothing to validate, and is not applied. -/
theorem noIdentifier_refused : ¬ ∀ (s : Records) (call : Call), call.Works →
    (call.params.index "expected_revision").asI64 = some (revision s call.id) → deleted s call.id = false →
    (call.command = .save → ∃ d, call.params.get "document" = some d ∧ ∃ raw, validate Json.render d = .ok raw) →
    revision s call.id < MAX_REVISION → active s < MAX_ACTIVE → applies Json.render s call = true := by
  intro h
  have happlied := h [] (callFor .delete "" 0 none) ⟨rfl, rfl, rfl⟩ rfl rfl (fun hsave => by cases hsave)
    (by decide) (by decide)
  cases happlied

end Oreneta.Store.LocalDrafts

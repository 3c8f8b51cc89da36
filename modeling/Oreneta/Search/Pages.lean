import Oreneta.Contacts.NewCard
import Oreneta.Lib.Like
import Oreneta.Paging.Mailbox
import Oreneta.Search.Query

/-!
# Pages of a search

`search_messages_in_folders` of the store and the cursors of `thread_list.rs`: the cached messages of several folders that
match a search, newest first.

* `found` — the clauses of a search over one row; `phrases` is the trigram index.
* `searchMessages`, `searchMessagesInFolders`, `searchNextCursor` — one page.
* `parse_searchCursor` — a cursor is read back.
* `folder_page` — what one folder gives of the rows still to be read.
* `search_complete` — following the cursors gives every row once, in order, and ends.
-/

namespace Oreneta.Search

open Text Keyset Paging List

/-! ## Rows -/

/-- A cached message; those who write one bind a text for its subject, its name and its address. -/
structure Cached where
  id : Int
  account : Str
  folder : Str
  uid : Nat
  uid_u32 : uid < 2 ^ 32
  subject : Str
  fromName : Str
  fromAddr : Str
  date : Int
  date_i64 : I64.min ≤ date ∧ date ≤ I64.max
  seen : Int
  starred : Int
  threadKey : Option Str
  recipients : Option Str
  body : Option Str
  hasAttachments : Option Int

/-- A label of a conversation (`thread_labels`, with the name of the label). -/
structure Labelled where
  account : Str
  threadKey : Str
  name : Str
  deriving DecidableEq, Repr

/-- The cache: no two messages of a folder have the same uid. -/
structure Cache where
  rows : List Cached
  labels : List Labelled
  keyed : (rows.map (fun row => (row.account, row.folder, row.uid))).Nodup

/-- `COALESCE(NULLIF(m.thread_key, ''), 'uid:' || m.uid)`. -/
def Cached.conversation (row : Cached) : Str :=
  (row.threadKey.filter (fun key => !key.isEmpty)).getD ("uid:" ++ Decimal.ofNat row.uid)

/-! ## Clauses -/

def escapeLike (value : Str) : Str :=
  Text.replace '_' ['\\', '_'] (Text.replace '%' ['\\', '%'] (Text.replace '\\' ['\\', '\\'] value))

section Clauses

-- `phrases` are the rows the trigram index finds for a phrase
variable (U : Text.Casing) (phrases : Str → Int → Bool)

/-- One of the terms stands in one of the columns (`any_term_in`). -/
def anyTermIn (terms columns : List Str) : Bool :=
  terms.isEmpty || terms.any (fun term => columns.any (fun column =>
    Like.like '\\' ('%' :: (escapeLike (U.lower term) ++ ['%'])) (asciiLower column)))

def flagged (row : Cached) : Flag → Bool
  | .unread => row.seen = 0
  | .read => row.seen = 1
  | .starred => row.starred = 1
  | .hasAttachment => row.hasAttachments = some 1

/-- `structured_clauses`. -/
def structuredClauses (labels : List Labelled) (query : Query) (row : Cached) : Bool :=
  anyTermIn U query.from_ [row.fromName, row.fromAddr] && anyTermIn U query.to_ [row.recipients.getD []] &&
    anyTermIn U query.subject [row.subject] && query.flags.all (flagged row) &&
    query.after.all (fun after => after ≤ row.date) && query.before.all (fun before => row.date < before) &&
    query.label.all (fun label => labels.any (fun l =>
      l.account = row.account && asciiLower l.name = U.lower label && l.threadKey = row.conversation))

/-- `"` doubled in quotes. -/
def phraseOf (text : Str) : Str := '"' :: (Text.replace '"' ['"', '"'] text ++ ['"'])

/-- The clause of the free text. -/
def freeText (query : Query) (row : Cached) : Bool :=
  let text := Text.trim query.text
  text.isEmpty ||
    if 3 ≤ text.length then phrases (phraseOf text) row.id
    else anyTermIn U [text] [row.subject, row.fromName, row.fromAddr, row.recipients.getD [], row.body.getD []]

/-- All of them. -/
def found (labels : List Labelled) (query : Query) (row : Cached) : Bool :=
  structuredClauses U labels query row && freeText U phrases query row

end Clauses

/-- `Query::is_empty`. -/
def Query.isEmpty (query : Query) : Bool :=
  query.text.isEmpty && query.from_.isEmpty && query.to_.isEmpty && query.subject.isEmpty && query.flags.isEmpty &&
    query.label.isNone && query.after.isNone && query.before.isNone

/-! ## Cursors -/

structure SearchCursor where
  date : Int
  uid : Nat
  folder : Str
  scanned : Nat
  snapshot : Option Str
  offset : Nat
  deriving DecidableEq, Repr

def encoded (text : Str) : Str := Base64.encode Base64.urlSafe (Utf8.encode text)

def decoded (text : Str) : Option Str := (Base64.decode Base64.urlSafe text).bind Utf8.decode

def formatSearchCursor (cursor : SearchCursor) : Str :=
  match cursor.snapshot with
  | some snapshot =>
    "search2:" ++ (Decimal.ofInt cursor.date ++ ':' :: (Decimal.ofNat cursor.uid ++ ':' ::
      (Decimal.ofNat cursor.offset ++ ':' :: (encoded snapshot ++ ':' :: encoded cursor.folder))))
  | none =>
    "search:" ++ (Decimal.ofInt cursor.date ++ ':' :: (Decimal.ofNat cursor.uid ++ ':' ::
      (Decimal.ofNat cursor.scanned ++ ':' :: encoded cursor.folder)))

def parseSearchCursor (cursor : Str) : Option SearchCursor :=
  match Text.stripPrefix "search2:" cursor with
  | some rest => do
    let (date, rest) ← Text.splitOnce ':' rest
    let date ← Decimal.parseInt date
    let (uid, rest) ← Text.splitOnce ':' rest
    let uid ← Decimal.parseBelow (2 ^ 32) uid
    let (offset, rest) ← Text.splitOnce ':' rest
    let offset ← Decimal.parseBelow (2 ^ 32) offset
    let (snapshot, folder) ← Text.splitOnce ':' rest
    let snapshot ← decoded snapshot
    let folder ← decoded folder
    some ⟨date, uid, folder, 0, some snapshot, offset⟩
  | none => do
    let rest ← Text.stripPrefix "search:" cursor
    let (date, rest) ← Text.splitOnce ':' rest
    let date ← Decimal.parseInt date
    let (uid, rest) ← Text.splitOnce ':' rest
    let uid ← Decimal.parseBelow (2 ^ 32) uid
    let (scanned, folder) ← Text.splitOnce ':' rest
    let scanned ← Decimal.parseBelow (2 ^ 32) scanned
    let folder ← decoded folder
    some ⟨date, uid, folder, scanned, none, 0⟩

/-! ## One page -/

/-- Date and uid, the latest first. -/
def folderLt : Int × Nat → Int × Nat → Prop := SortDir.desc.toward (pairLt (· < ·) (· < ·))

instance : DecidableRel folderLt := fun _ _ => inferInstanceAs (Decidable (SortDir.desc.toward _ _ _))

/-- Date, uid and folder, the latest first. -/
def hitLt : Int × Nat × Str → Int × Nat × Str → Prop := SortDir.desc.toward (pairLt (· < ·) (pairLt (· < ·) (· < ·)))

instance : DecidableRel hitLt := fun _ _ => inferInstanceAs (Decidable (SortDir.desc.toward _ _ _))

def Cached.position (row : Cached) : Int × Nat × Str := (row.date, row.uid, row.folder)

def position (header : Header) : Int × Nat × Str := (header.date, header.uid, header.folder)

/-- The row comes after the cursor. -/
def isBehind (cursor : SearchCursor) (row : Cached) : Bool :=
  row.date < cursor.date || (row.date = cursor.date && row.uid < cursor.uid) ||
    (row.date = cursor.date && row.uid = cursor.uid && decide (row.folder < cursor.folder))

/-- A row as it is read; the folder is set later. -/
def Cached.header (row : Cached) : Header :=
  ⟨row.uid, row.subject, row.fromName, row.fromAddr, row.date, row.seen ≠ 0, row.starred ≠ 0, row.conversation, []⟩

section Pages

variable (U : Text.Casing) (phrases : Str → Int → Bool) (cache : Cache) (account : Str)

/-- The rows one folder gives (`search_messages_parsed`). -/
def inFolder (folder : Str) (query : Query) (before : Option SearchCursor) (row : Cached) : Bool :=
  row.account = account && row.folder = folder && row.uid ≠ 0 && found U phrases cache.labels query row &&
    before.all (fun cursor => isBehind cursor row)

def searchMessagesParsed (folder : Str) (query : Query) (limit : Nat) (before : Option SearchCursor) : List Header :=
  if query.isEmpty = true then []
  else ((arrange folderLt (fun row => (row.date, row.uid)) (cache.rows.filter (inFolder U phrases cache account folder query before))).take
    limit).map Cached.header

def searchMessages (folder query : Str) (limit : Nat) (before : Option SearchCursor) : List Header :=
  searchMessagesParsed U phrases cache account folder (parse query) limit before

def sortSearchHits (messages : List Header) (limit : Nat) : List Header := (arrange hitLt position messages).take limit

def searchMessagesInFolders (folders : List Str) (query : Str) (limit : Nat) (before : Option SearchCursor) : List Header :=
  sortSearchHits (folders.flatMap (fun folder =>
    (searchMessages U phrases cache account folder query limit before).map (fun message => { message with folder := folder }))) limit

/-- The cursor after a full page. -/
def searchNextCursor (messages : List Header) (limit scanned : Nat) : Option Str :=
  if messages.length < limit then none
  else messages.getLast?.map (fun header => formatSearchCursor ⟨header.date, header.uid, header.folder, scanned, none, 0⟩)

/-- A page and the cursor of the next, asked for with the cursor of the one before. -/
def searchPage (folders : List Str) (query : Str) (limits : Nat → Nat) (n : Nat) (before : Option Str) :
    Option (List Header × Option Str) :=
  let messages := searchMessagesInFolders U phrases cache account folders query (limits n) (before.bind parseSearchCursor)
  some (messages, searchNextCursor messages (limits n) 0)

end Pages

/-! ## Cursors are read back -/

theorem decoded_encoded (text : Str) : decoded (encoded text) = some text := by
  unfold decoded encoded
  rw [Base64.decode_encode _ fun n hn => Utf8.encode_lt hn, Option.bind_some, Utf8.decode_encode]

/-- The cursor after a row. -/
def rowCursor (row : Cached) : SearchCursor := ⟨row.date, row.uid, row.folder, 0, none, 0⟩

theorem parse_searchCursor (row : Cached) : parseSearchCursor (formatSearchCursor (rowCursor row)) = some (rowCursor row) := by
  have hno : ∀ rest : Str, Text.stripPrefix "search2:" ("search:" ++ rest) = none := fun _ => rfl
  have hzero : (0 : Nat) < 2 ^ 32 := by decide
  unfold formatSearchCursor parseSearchCursor rowCursor
  dsimp only
  rw [hno]
  dsimp only
  rw [Text.stripPrefix_append]
  simp only [Option.bind_eq_bind, Option.bind_some, Text.splitOnce_append _ (colon_not_mem_ofInt _),
    Text.splitOnce_append _ (colon_not_mem_ofNat _), Decimal.parseInt_ofInt row.date_i64, Decimal.parseBelow_ofNat row.uid_u32,
    Decimal.parseBelow_ofNat hzero, decoded_encoded]

/-! ## Every row once -/

theorem strict_hitLt : Strict hitLt := SortDir.strict (strict_pairLt strict_lt (strict_pairLt strict_lt strict_lt)) .desc

theorem strict_folderLt : Strict folderLt := SortDir.strict (strict_pairLt strict_lt strict_lt) .desc

/-- **The comparison of the query is the order the hits are sorted by.** -/
theorem isBehind_eq (row next : Cached) : isBehind (rowCursor row) next = decide (hitLt row.position next.position) := by
  unfold isBehind rowCursor hitLt SortDir.toward pairLt Cached.position
  rw [Bool.eq_iff_iff]
  simp only [Bool.or_eq_true, Bool.and_eq_true, decide_eq_true_eq, and_or_left, or_assoc, and_assoc]

section Complete

variable (U : Text.Casing) (phrases : Str → Int → Bool) (cache : Cache) (account : Str)

/-- The row is one of those searched, and matches. -/
def searched (folders : List Str) (query : Str) (row : Cached) : Bool :=
  row.account = account && folders.contains row.folder && row.uid ≠ 0 && found U phrases cache.labels (parse query) row

/-- All that match, newest first. -/
def hits (folders : List Str) (query : Str) : List Cached :=
  arrange hitLt Cached.position (cache.rows.filter (searched U phrases cache account folders query))

/-- What a page shows of a row. -/
def Cached.shown (row : Cached) : Header := { row.header with folder := row.folder }

variable {U phrases cache account} {folders : List Str} {query : Str}

/-- Rows of one account that differ stand at different places. -/
theorem positions_nodup {rows : List Cached} (hrows : rows.Sublist cache.rows) (haccount : ∀ row ∈ rows, row.account = account) :
    (rows.map Cached.position).Nodup := by
  have hkeys : (rows.map fun row => (row.account, row.folder, row.uid)).Nodup := cache.keyed.sublist (hrows.map _)
  have hsame : rows.map (fun row => (row.account, row.folder, row.uid)) =
      (rows.map Cached.position).map (fun p => (account, p.2.2, p.2.1)) := by
    rw [map_map]
    exact map_congr_left fun row hrow => by rw [haccount row hrow]; rfl
  exact List.Nodup.of_map _ (hsame ▸ hkeys)

theorem searched_account {row : Cached} (h : row ∈ cache.rows.filter (searched U phrases cache account folders query)) :
    row.account = account ∧ row.folder ∈ folders := by
  have hrow := (mem_filter.mp h).2
  unfold searched at hrow
  simp only [Bool.and_eq_true, decide_eq_true_eq, contains_iff_mem] at hrow
  exact ⟨hrow.1.1.1, hrow.1.1.2⟩

theorem hits_nodup : ((cache.rows.filter (searched U phrases cache account folders query)).map Cached.position).Nodup :=
  positions_nodup filter_sublist fun _ h => (searched_account h).1

variable {done rest : List Cached} {before : Option Str}

/-- What stands behind the rows read is what the cursor lets through. -/
theorem rest_eq (hall : hits U phrases cache account folders query = done ++ rest)
    (hbefore : Stands (fun row => formatSearchCursor (rowCursor row)) done before) :
    arrange hitLt Cached.position ((cache.rows.filter (searched U phrases cache account folders query)).filter (fun row =>
      (before.bind parseSearchCursor).all (fun cursor => isBehind cursor row))) = rest := by
  rcases hbefore with ⟨rfl, rfl⟩ | ⟨last, hlast, rfl⟩
  · simp only [Option.bind_none, Option.all_none, filter_true]
    exact hall
  · simp only [Option.bind_some, parse_searchCursor, Option.all_some, isBehind_eq]
    exact arrange_after strict_hitLt hits_nodup hall hlast

/-- **One folder** gives its first rows of those still to be read. -/
theorem folder_page (hquery : (parse query).isEmpty = false) {folder : Str} (hfolder : folder ∈ folders) (limit : Nat)
    {before : Option SearchCursor}
    (hrest : arrange hitLt Cached.position ((cache.rows.filter (searched U phrases cache account folders query)).filter (fun row =>
      before.all (fun cursor => isBehind cursor row))) = rest) :
    (searchMessages U phrases cache account folder query limit before).map (fun message => { message with folder := folder }) =
      ((rest.filter fun row => row.folder = folder).take limit).map Cached.shown := by
  have hfound : cache.rows.filter (inFolder U phrases cache account folder (parse query) before) =
      ((cache.rows.filter (searched U phrases cache account folders query)).filter (fun row =>
        before.all fun cursor => isBehind cursor row)).filter (fun row => row.folder = folder) := by
    rw [filter_filter, filter_filter]
    refine filter_congr fun row _ => ?_
    unfold inFolder searched
    by_cases hsame : row.folder = folder
    · rw [hsame, contains_iff_mem.mpr hfolder, decide_eq_true rfl, Bool.and_true, Bool.true_and, Bool.and_comm]
    · rw [decide_eq_false hsame, Bool.and_false, Bool.false_and, Bool.false_and, Bool.false_and, Bool.false_and]
  have hsame : ∀ row ∈ cache.rows.filter (inFolder U phrases cache account folder (parse query) before), row.folder = folder := by
    intro row hrow
    rw [hfound] at hrow
    exact of_decide_eq_true (mem_filter.mp hrow).2
  generalize hrows : cache.rows.filter (inFolder U phrases cache account folder (parse query) before) = rows at hfound hsame
  have hposition : rows.map Cached.position = (rows.map fun row => (row.date, row.uid)).map (fun p => (p.1, p.2, folder)) := by
    rw [map_map]
    exact map_congr_left fun row hrow => by rw [Cached.position, hsame row hrow]; rfl
  have hkept : rows.Sublist (cache.rows.filter (searched U phrases cache account folders query)) := by
    rw [hfound]
    exact filter_sublist.trans filter_sublist
  have hnodup : (rows.map fun row => (row.date, row.uid)).Nodup :=
    List.Nodup.of_map _ (hposition ▸ hits_nodup.sublist (hkept.map _))
  have hinFolder : ∀ row ∈ arrange folderLt (fun row : Cached => (row.date, row.uid)) rows, row.folder = folder := fun row hrow =>
    hsame row ((arrange_perm_self rows).mem_iff.mp hrow)
  have harranged : arrange folderLt (fun row : Cached => (row.date, row.uid)) rows = rest.filter (fun row => row.folder = folder) := by
    refine @eq_of_strict _ _ _ Cached.position strict_hitLt _ _ ?_ ?_ ?_
    · rw [← hrest, hfound]
      exact (arrange_perm_self _).trans ((arrange_perm_self _).filter _).symm
    · refine (arrange_strict strict_folderLt hnodup).imp_of_mem fun {x y} hx hy hxy => ?_
      rcases hxy with hdate | ⟨hdate, huid⟩
      · exact .inl hdate
      · exact .inr ⟨hdate, .inl huid⟩
    · rw [← hrest]
      exact (arrange_strict strict_hitLt (hits_nodup.sublist (filter_sublist.map _))).sublist filter_sublist
  unfold searchMessages searchMessagesParsed
  rw [if_neg (by rw [hquery]; exact Bool.false_ne_true), hrows, map_map, ← harranged]
  refine map_congr_left fun row hrow => ?_
  have hfolder' := hinFolder row (mem_of_mem_take hrow)
  rw [Cached.shown, hfolder']
  rfl

/-- **One page** is so many of the rows still to be read. -/
theorem searchMessagesInFolders_eq (hfolders : folders.Nodup) (hquery : (parse query).isEmpty = false) (limit : Nat) (hall : hits U phrases cache account folders query = done ++ rest)
    (hbefore : Stands (fun row => formatSearchCursor (rowCursor row)) done before) :
    searchMessagesInFolders U phrases cache account folders query limit (before.bind parseSearchCursor) =
      (rest.take limit).map Cached.shown := by
  have hrest := rest_eq hall hbefore
  have hsorted : rest.Pairwise fun row next => hitLt row.position next.position := by
    rw [← hrest]
    exact arrange_strict strict_hitLt (hits_nodup.sublist (filter_sublist.map _))
  have hmem : ∀ row ∈ rest, row.folder ∈ folders := fun row hrow => by
    rw [← hrest, (arrange_perm_self _).mem_iff] at hrow
    exact (searched_account (mem_of_mem_filter hrow)).2
  have hparts : (folders.flatMap fun folder =>
      (searchMessages U phrases cache account folder query limit (before.bind parseSearchCursor)).map (fun message =>
        { message with folder := folder })) =
      (folders.flatMap fun folder => (rest.filter fun row => row.folder = folder).take limit).map Cached.shown := by
    rw [map_flatMap]
    exact flatMap_congr fun folder hfolder => folder_page hquery hfolder limit hrest
  have hshown : ∀ l : List Cached, arrange hitLt position (l.map Cached.shown) = (arrange hitLt Cached.position l).map Cached.shown :=
    fun l => arrange_map l fun _ _ => rfl
  unfold searchMessagesInFolders sortSearchHits
  rw [hparts, hshown, ← map_take, arrange_parts strict_hitLt hsorted Cached.folder hfolders hmem limit]

theorem searchPage_eq (hfolders : folders.Nodup) (hquery : (parse query).isEmpty = false) (limits : Nat → Nat) (n : Nat) (hall : hits U phrases cache account folders query = done ++ rest)
    (hbefore : Stands (fun row => formatSearchCursor (rowCursor row)) done before) :
    searchPage U phrases cache account folders query limits n before =
      some (answerWith (fun row => formatSearchCursor (rowCursor row)) Cached.shown rest (limits n) (limits n ≤ rest.length)) := by
  have hmessages := searchMessagesInFolders_eq hfolders hquery (limits n) hall hbefore
  have hfull : ((rest.take (limits n)).map Cached.shown).length < limits n ↔ ¬ limits n ≤ rest.length := by
    rw [length_map, length_take]
    omega
  unfold searchPage searchNextCursor answerWith
  dsimp only
  rw [hmessages]
  simp only [hfull, decide_eq_true_eq, getLast?_map, Option.map_map, ite_not]
  rfl

end Complete

/-- **Every hit once, in order**: following the cursors from the first page on ends, and gives every message of the folders
that matches the search, the latest first. -/
theorem search_complete (U : Text.Casing) (phrases : Str → Int → Bool) (cache : Cache) (account : Str) {folders : List Str}
    (hfolders : folders.Nodup) {query : Str} (hquery : (parse query).isEmpty = false) {limits : Nat → Nat}
    (hlimits : ∀ n, 0 < limits n) : ∃ inOrder : List Cached,
      inOrder.Perm (cache.rows.filter (fun row => row.account = account && folders.contains row.folder && row.uid ≠ 0 &&
        found U phrases cache.labels (parse query) row)) ∧
      inOrder.Pairwise (fun row next => hitLt row.position next.position) ∧
      ∃ pages, Walk (searchPage U phrases cache account folders query limits) 0 none pages ∧
        pages.flatten = inOrder.map Cached.shown := by
  refine ⟨hits U phrases cache account folders query, arrange_perm_self _, arrange_strict strict_hitLt hits_nodup, ?_⟩
  refine pages_complete_of hlimits fun n done rest before hall hbefore =>
    ⟨decide (limits n ≤ rest.length), searchPage_eq hfolders hquery limits n hall hbefore, ?_, ?_⟩
  · intro hmore
    exact decide_eq_true (Nat.le_of_lt hmore)
  · rintro hmore rfl
    have hle := of_decide_eq_true hmore
    have hpos := hlimits n
    rw [length_nil] at hle
    omega

def plainHit (id : Int) (folder : Str) (uid : Nat) (h : uid < 2 ^ 32) : Cached :=
  ⟨id, "a", folder, uid, h, "Plan", [], [], 5, by decide, 0, 0, none, none, none, none⟩

/-- Two messages with one date and uid, in two folders. -/
def twins : Cache where
  rows := [plainHit 1 "INBOX" 7 (by decide), plainHit 2 "Sent" 7 (by decide), plainHit 3 "Sent" 2 (by decide)]
  labels := []
  keyed := by decide

/-- The first page ends between them. -/
theorem search_complete_twins : ∃ pages,
    Walk (searchPage Contacts.plainLetters (fun _ _ => false) twins "a" ["INBOX", "Sent"] "subject:plan"
      fun _ => 1) 0 none pages ∧ pages.flatten.map (fun h => (h.folder, h.uid)) =
        [("Sent".toList, 7), ("INBOX".toList, 7), ("Sent".toList, 2)] := by
  obtain ⟨inOrder, hperm, hsorted, pages, hwalk, hflat⟩ := @search_complete Contacts.plainLetters (fun _ _ => false) twins "a"
    ["INBOX", "Sent"] (by decide) "subject:plan" (by decide) (fun _ => 1) (fun _ => Nat.one_pos)
  have heq : inOrder = [plainHit 2 "Sent" 7 (by decide), plainHit 1 "INBOX" 7 (by decide), plainHit 3 "Sent" 2 (by decide)] :=
    @eq_of_strict _ _ _ Cached.position strict_hitLt _ _ (hperm.trans (.swap ..)) hsorted (by decide)
  refine ⟨pages, hwalk, ?_⟩
  rw [hflat, heq]
  rfl

end Oreneta.Search

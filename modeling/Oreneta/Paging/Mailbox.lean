import Mathlib.Order.Interval.Finset.Nat
import Oreneta.Lib.Base64
import Oreneta.Lib.Decimal
import Oreneta.Lib.Utf8
import Oreneta.Paging.Order

/-!
# Pages of a mail folder

`store::get_recent_page_sorted` and the cursors of `thread_list.rs`: the rows of one folder, narrowed and
in a chosen order.

* `Row`, `RecentFilter`, `keeps` — the columns a page reads, and which rows it is narrowed to.
* `column` — what the rows are ordered by, as the SQL expression computes it.
* `formatPageCursor`, `parseMailCursor` — a position as text; `parse_rowCursor`: it is read back.
* `recentPage` — one page; a NULL text fails it (`Row.Written`: no row is stored with one).
* `isAfter_eq` — the comparison of the query is the order it sorts by.
* `mailbox_complete` — following the cursors gives every row once, in order, and ends.
-/

namespace Oreneta.Paging

open Keyset Text Decimal Base64 List

/-- A cached message of one folder, as far as a page reads it. -/
structure Row where
  uid : Nat
  uid_u32 : 0 < uid ∧ uid < 2 ^ 32
  subject : Option Str
  fromName : Option Str
  fromAddr : Option Str
  date : Int
  date_i64 : I64.min ≤ date ∧ date ≤ I64.max
  seen : Int
  starred : Int
  threadKey : Option Str
  hasAttachments : Option Int
  priority : Option Int
  category : Option Str
  deriving DecidableEq

structure RecentFilter where
  unreadOnly : Bool
  starredOnly : Bool
  labelId : Option Str
  withAttachments : Bool
  priorityOnly : Bool
  category : Option Str
  deriving DecidableEq

/-- The conversation of a row (`COALESCE(NULLIF(thread_key, ''), 'uid:' || uid)`). -/
def Row.conversation (row : Row) : Str :=
  (row.threadKey.filter (fun key => !key.isEmpty)).getD ("uid:" ++ Decimal.ofNat row.uid)

/-- The row is one the page is narrowed to; `labels` are the labels of conversations. -/
def keeps (labels : List (Str × Str)) (filter : RecentFilter) (row : Row) : Bool :=
  (!filter.unreadOnly || row.seen = 0) && (!filter.starredOnly || row.starred = 1) &&
    (!filter.withAttachments || row.hasAttachments = some 1) && (!filter.priorityOnly || row.priority = some 1) &&
    filter.category.all (fun category => row.category = some category) &&
    filter.labelId.all (fun label => labels.contains (label, row.conversation))

/-- `Sort::column`. -/
def column (key : SortKey) (row : Row) : Key :=
  match key with
  | .date => .date row.date
  | .sender => .text (asciiLower (((row.fromName.filter (fun n => !n.isEmpty)).or row.fromAddr).getD []))
  | .subject => .text (asciiLower (row.subject.getD []))

structure PageCursor where
  date : Int
  text : Str
  uid : Nat
  deriving DecidableEq, Repr

/-- The value a cursor is compared by. -/
def PageCursor.key (cursor : PageCursor) : SortKey → Key
  | .date => .date cursor.date
  | _ => .text cursor.text

/-- The row comes after the cursor (`key op ?3 OR (key = ?3 AND uid op ?4)`). -/
def isAfter (sort : ListSort) (cursor : PageCursor) (row : Row) : Bool :=
  decide (sort.dir.toward Key.lt (cursor.key sort.key) (column sort.key row)) ||
    (decide (column sort.key row = cursor.key sort.key) && decide (sort.dir.toward (· < ·) cursor.uid row.uid))

/-- `CAST(key AS TEXT)`. -/
def Key.cast : Key → Str
  | .date n => ofInt n
  | .text s => s

/-- `format_page_cursor`: the position after the last row of a page. -/
def formatPageCursor (sort : ListSort) (textKey : Str) (date : Int) (uid : Nat) : Str :=
  match sort.key with
  | .date => "date:" ++ (ofInt date ++ ':' :: Decimal.ofNat uid)
  | _ => "sortk:" ++
      (Base64.encode urlSafe (Utf8.encode textKey) ++ ':' :: Decimal.ofNat uid)

/-- `parse_mail_cursor`. -/
def parseMailCursor (cursor : Str) : Option PageCursor :=
  match stripPrefix "date:" cursor with
  | some rest => do
    let (date, uid) ← splitOnce ':' rest
    let date ← parseInt date
    let uid ← parseBelow (2 ^ 32) uid
    some ⟨date, [], uid⟩
  | none => do
    let rest ← stripPrefix "sortk:" cursor
    let (encoded, uid) ← rsplitOnce ':' rest
    let octets ← Base64.decode urlSafe encoded
    let text ← Utf8.decode octets
    let uid ← parseBelow (2 ^ 32) uid
    some ⟨0, text, uid⟩

/-- What a page shows of a row. -/
structure Header where
  uid : Nat
  subject : Str
  fromName : Str
  fromAddr : Str
  date : Int
  seen : Bool
  starred : Bool
  threadKey : Str
  folder : Str
  deriving DecidableEq, Repr

/-- A row as it is read; a NULL where a text is expected fails the query. -/
def Row.header (row : Row) : Option Header := do
  let subject ← row.subject
  let fromName ← row.fromName
  let fromAddr ← row.fromAddr
  some ⟨row.uid, subject, fromName, fromAddr, row.date, row.seen ≠ 0, row.starred ≠ 0, row.conversation, []⟩

/-- The order of a page: by the column, then by uid. -/
def rowLt (sort : ListSort) : Key × Nat → Key × Nat → Prop := sort.dir.toward (pairLt Key.lt (· < ·))

instance (sort : ListSort) : DecidableRel (rowLt sort) := fun _ _ => inferInstanceAs (Decidable (sort.dir.toward _ _ _))

def Row.position (sort : ListSort) (row : Row) : Key × Nat := (column sort.key row, row.uid)

/-- One page of a folder, with the cursor of the next. -/
def recentPage (rows : List Row) (labels : List (Str × Str)) (filter : RecentFilter) (sort : ListSort) (limit : Nat)
    (before : Option PageCursor) : Option (List Header × Option Str) := do
  let probe := min (limit + 1) (2 ^ 32 - 1)
  let found := rows.filter (fun row => keeps labels filter row && before.all (fun cursor => isAfter sort cursor row))
  let out ← ((arrange (rowLt sort) (Row.position sort) found).take probe).mapM (fun row =>
    row.header.map (fun header => (header, (column sort.key row).cast)))
  let shown := if limit < out.length then out.take limit else out
  some (shown.map Prod.fst,
    if limit < out.length then
      shown.getLast?.map (fun last => formatPageCursor sort last.2 last.1.date last.1.uid)
    else none)

/-! ## Cursors -/

/-- The cursor after a row. -/
def rowCursor (sort : ListSort) (row : Row) : Str :=
  formatPageCursor sort (column sort.key row).cast row.date row.uid

/-- The position of a cursor. -/
def PageCursor.position (sort : ListSort) (cursor : PageCursor) : Key × Nat := (cursor.key sort.key, cursor.uid)

theorem colon_not_mem_ofNat (n : Nat) : ':' ∉ Decimal.ofNat n := fun h =>
  absurd (isDigit_of_mem h) (by decide)

theorem colon_not_mem_ofInt (n : Int) : ':' ∉ ofInt n := fun h => by
  rcases mem_ofInt h with hd | he
  · exact absurd hd (by decide)
  · exact absurd he (by decide)

theorem parse_date {date : Int} (hdate : I64.min ≤ date ∧ date ≤ I64.max) {uid : Nat} (huid : uid < 2 ^ 32) :
    parseMailCursor ("date:" ++ (ofInt date ++ ':' :: Decimal.ofNat uid)) = some ⟨date, [], uid⟩ := by
  unfold parseMailCursor
  rw [stripPrefix_append]
  dsimp only
  rw [splitOnce_append _ (colon_not_mem_ofInt date)]
  simp only [Option.bind_eq_bind, Option.bind_some]
  rw [parseInt_ofInt hdate, Option.bind_some, parseBelow_ofNat huid, Option.bind_some]

theorem parse_text (text : Str) {uid : Nat} (huid : uid < 2 ^ 32) : parseMailCursor ("sortk:" ++
      (Base64.encode urlSafe (Utf8.encode text) ++ ':' :: Decimal.ofNat uid)) = some ⟨0, text, uid⟩ := by
  have hno : ∀ rest : Str, stripPrefix "date:" ("sortk:" ++ rest) = none := fun _ => rfl
  unfold parseMailCursor
  rw [hno]
  dsimp only
  rw [stripPrefix_append]
  simp only [Option.bind_eq_bind, Option.bind_some]
  rw [rsplitOnce_append (colon_not_mem_ofNat uid)]
  simp only [Option.bind_some]
  rw [Base64.decode_encode _ fun n hn => Utf8.encode_lt hn, Option.bind_some, Utf8.decode_encode,
    Option.bind_some, parseBelow_ofNat huid, Option.bind_some]

/-- **A cursor is read back** as the position of the row it was made after. -/
theorem parse_rowCursor (sort : ListSort) (row : Row) : ∃ cursor : PageCursor,
    parseMailCursor (rowCursor sort row) = some cursor ∧ cursor.position sort = row.position sort := by
  have huid := row.uid_u32.2
  obtain ⟨key, dir⟩ := sort
  cases key with
  | date => exact ⟨_, parse_date row.date_i64 huid, rfl⟩
  | sender => exact ⟨_, parse_text _ huid, rfl⟩
  | subject => exact ⟨_, parse_text _ huid, rfl⟩

/-! ## The order of a page -/

theorem strict_rowLt (sort : ListSort) : Strict (rowLt sort) :=
  sort.dir.strict (strict_pairLt strict_key strict_lt)

/-- **The comparison of the query is the order it sorts by.** -/
theorem isAfter_eq (sort : ListSort) (cursor : PageCursor) (row : Row) :
    isAfter sort cursor row = decide (rowLt sort (cursor.position sort) (row.position sort)) := by
  obtain ⟨key, dir⟩ := sort
  unfold isAfter
  rw [← Bool.decide_and, ← Bool.decide_or, decide_eq_decide]
  cases dir with
  | asc => exact or_congr_right (and_congr_left' eq_comm)
  | desc => exact Iff.rfl

/-- Rows with different uids stand at different places. -/
theorem positions_nodup_of_uids (sort : ListSort) {rows : List Row} (h : (rows.map Row.uid).Nodup) :
    (rows.map (Row.position sort)).Nodup := by
  have huids : (rows.map (Row.position sort)).map Prod.snd = rows.map Row.uid := by
    rw [map_map]
    rfl
  exact List.Nodup.of_map Prod.snd (huids ▸ h)

/-- There are fewer rows than uids. -/
theorem length_lt_of_uids {rows : List Row} (h : (rows.map Row.uid).Nodup) : rows.length < 2 ^ 32 := by
  have hsub : (rows.map Row.uid).toFinset ⊆ Finset.Icc 1 (2 ^ 32 - 1) := by
    intro uid huid
    obtain ⟨row, -, rfl⟩ := mem_map.mp (mem_toFinset.mp huid)
    have hrow := row.uid_u32
    rw [Finset.mem_Icc]
    omega
  have hcard := Finset.card_le_card hsub
  rw [toFinset_card_of_nodup h, length_map, Nat.card_Icc] at hcard
  omega

/-! ## Every row once -/

/-- A row as both writers of mail store it: they bind a text for the subject, the name and the address. -/
def Row.Written (row : Row) : Prop := row.subject ≠ none ∧ row.fromName ≠ none ∧ row.fromAddr ≠ none

instance (row : Row) : Decidable row.Written := inferInstanceAs (Decidable (_ ∧ _))

/-- What a page shows of a row without a NULL. -/
def Row.shown (row : Row) : Header :=
  ⟨row.uid, row.subject.getD [], row.fromName.getD [], row.fromAddr.getD [], row.date, row.seen ≠ 0,
    row.starred ≠ 0, row.conversation, []⟩

theorem header_written {row : Row} (h : row.Written) : row.header = some row.shown := by
  obtain ⟨subject, hsubject⟩ := Option.ne_none_iff_exists'.mp h.1
  obtain ⟨name, hname⟩ := Option.ne_none_iff_exists'.mp h.2.1
  obtain ⟨addr, haddr⟩ := Option.ne_none_iff_exists'.mp h.2.2
  unfold Row.header Row.shown
  rw [hsubject, hname, haddr]
  rfl

theorem mapM_of_some {α β : Type} {f : α → Option β} {g : α → β} : ∀ {l : List α}, (∀ x ∈ l, f x = some (g x)) →
    l.mapM f = some (l.map g)
  | [], _ => rfl
  | x :: l, h => by
    have hrest := mapM_of_some (l := l) fun y hy => h y (mem_cons_of_mem _ hy)
    rw [mapM_cons, h x mem_cons_self, hrest]
    rfl

/-- The rows of a list, in its order. -/
def listed (rows : List Row) (labels : List (Str × Str)) (filter : RecentFilter) (sort : ListSort) : List Row :=
  arrange (rowLt sort) (Row.position sort) (rows.filter (keeps labels filter))

variable {rows : List Row} {labels : List (Str × Str)} {filter : RecentFilter} {sort : ListSort}

/-- What is found after a cursor is what stands behind the row it was made after. -/
theorem found_eq (huids : (rows.map Row.uid).Nodup) {done rest : List Row}
    (hall : listed rows labels filter sort = done ++ rest) {before : Option Str} (hbefore : Stands (rowCursor sort) done before) :
    arrange (rowLt sort) (Row.position sort) (rows.filter (fun row => keeps labels filter row &&
      (before.bind parseMailCursor).all (fun cursor => isAfter sort cursor row))) = rest := by
  rcases hbefore with ⟨rfl, rfl⟩ | ⟨last, hlast, rfl⟩
  · simp only [Option.bind_none, Option.all_none, Bool.and_true]
    exact hall
  · obtain ⟨cursor, hparse, hposition⟩ := parse_rowCursor sort last
    have hkept : ((rows.filter (keeps labels filter)).map (Row.position sort)).Nodup :=
      (positions_nodup_of_uids sort huids).sublist (filter_sublist.map _)
    rw [Option.bind_some, hparse]
    simp only [Option.all_some, isAfter_eq, hposition]
    have hafter := arrange_after (strict_rowLt sort) hkept hall hlast
    rw [filter_filter] at hafter
    rw [← hafter]
    exact congrArg _ (filter_congr fun row _ => Bool.and_comm _ _)

/-- **One page** is so many of the rows still to be read, and the cursor after the last of them. -/
theorem recentPage_eq (hwritten : ∀ row ∈ rows, row.Written) (huids : (rows.map Row.uid).Nodup) {limit : Nat}
    (hlimit : limit < 2 ^ 32) {done rest : List Row} (hall : listed rows labels filter sort = done ++ rest)
    {before : Option Str} (hbefore : Stands (rowCursor sort) done before) :
    recentPage rows labels filter sort limit (before.bind parseMailCursor) =
      some (answer (rowCursor sort) Row.shown rest limit) := by
  have hfound := found_eq huids hall hbefore
  have hmem : ∀ row ∈ rest, row ∈ rows := fun row hrow =>
    have hlisted : row ∈ listed rows labels filter sort := hall ▸ mem_append_right done hrow
    mem_of_mem_filter ((arrange_perm_self _).mem_iff.mp hlisted)
  -- no more rows than the probe can ask for
  have hlength : rest.length < 2 ^ 32 := by
    have hle : rest.length ≤ rows.length := by
      have hsum := congrArg List.length hall
      have hperm : (listed rows labels filter sort).length = (rows.filter (keeps labels filter)).length :=
        (arrange_perm_self _).length_eq
      have hfilter := length_filter_le (keeps labels filter) rows
      rw [length_append] at hsum
      omega
    have hrows := length_lt_of_uids huids
    omega
  have hprobe : ∀ row ∈ rest.take (min (limit + 1) (2 ^ 32 - 1)),
      row.header.map (fun header => (header, (column sort.key row).cast)) =
        some (row.shown, (column sort.key row).cast) := fun row hrow => by
    rw [header_written (hwritten row (hmem row (mem_of_mem_take hrow)))]
    rfl
  have hmore : limit < min (min (limit + 1) (2 ^ 32 - 1)) rest.length ↔ limit < rest.length := by omega
  unfold recentPage
  dsimp only
  rw [hfound, mapM_of_some hprobe]
  simp only [Option.bind_eq_bind, Option.bind_some, length_map, length_take, hmore]
  unfold answer
  by_cases hlt : limit < rest.length
  · have htake : (rest.take (min (limit + 1) (2 ^ 32 - 1))).take limit = rest.take limit := by
      rw [take_take, Nat.min_eq_left (by omega)]
    simp only [if_pos hlt, ← map_take, htake, map_map, getLast?_map, Option.map_map]
    rfl
  · have htake : rest.take (min (limit + 1) (2 ^ 32 - 1)) = rest.take limit := by
      rw [take_of_length_le (by omega), take_of_length_le (by omega)]
    simp only [if_neg hlt, htake, map_map]
    rfl

/-- The pages of a list, as they are asked for. -/
def requestsAt (rows : List Row) (labels : List (Str × Str)) (filter : RecentFilter) (sort : ListSort)
    (limits : Nat → Nat) (n : Nat) (before : Option Str) : Option (List Header × Option Str) :=
  recentPage rows labels filter sort (limits n) (before.bind parseMailCursor)

/-- **Every row once, in order**: following the cursors from the first page on ends, and gives the rows a
list is narrowed to as its sort orders them. -/
theorem mailbox_complete (rows : List Row) (hwritten : ∀ row ∈ rows, row.Written) (huids : (rows.map Row.uid).Nodup)
    (labels : List (Str × Str)) (filter : RecentFilter) (sort : ListSort) (limits : Nat → Nat)
    (hlimits : ∀ n, 0 < limits n ∧ limits n < 2 ^ 32) : ∃ inOrder : List Row, inOrder.Perm (rows.filter (keeps labels filter)) ∧
      inOrder.Pairwise (fun row next => rowLt sort (row.position sort) (next.position sort)) ∧
      ∃ pages, Walk (requestsAt rows labels filter sort limits) 0 none pages ∧
        inOrder.mapM Row.header = some pages.flatten := by
  have hkept : ((rows.filter (keeps labels filter)).map (Row.position sort)).Nodup :=
    (positions_nodup_of_uids sort huids).sublist (filter_sublist.map _)
  obtain ⟨pages, hwalk, hflat⟩ := @pages_complete _ _ _ (listed rows labels filter sort) (rowCursor sort) Row.shown
    limits (fun n => (hlimits n).1) (requestsAt rows labels filter sort limits)
    fun n done rest before hall hbefore => recentPage_eq hwritten huids (hlimits n).2 hall hbefore
  refine ⟨listed rows labels filter sort, arrange_perm_self _, arrange_strict (strict_rowLt sort) hkept, pages, hwalk, ?_⟩
  rw [hflat]
  refine mapM_of_some fun row hrow => header_written (hwritten row ?_)
  exact mem_of_mem_filter ((arrange_perm_self _).mem_iff.mp hrow)

theorem one_u32 : 0 < 1 ∧ 1 < 2 ^ 32 := by decide

theorem two_u32 : 0 < 2 ∧ 2 < 2 ^ 32 := by decide

theorem three_u32 : 0 < 3 ∧ 3 < 2 ^ 32 := by decide

def plainRow (uid : Nat) (h : 0 < uid ∧ uid < 2 ^ 32) (fromName fromAddr : Str) (seen : Int) : Row :=
  ⟨uid, h, some [], some fromName, some fromAddr, 0, by decide, seen, 0, none, none, none, none⟩

/-- One row is seen; two senders are the same but for their case, one of them by address. -/
def fourRows : List Row :=
  [plainRow 1 (by decide) "Zoe" [] 0, plainRow 2 (by decide) [] "ANN" 0,
    plainRow 3 (by decide) "ann" [] 0, plainRow 4 (by decide) "Bob" [] 1]

/-- The unread rows by sender, last first, two at a time. -/
theorem fourRows_paged : ∃ pages,
    Walk (requestsAt fourRows [] ⟨true, false, none, false, false, none⟩ ⟨.sender, .desc⟩ fun _ => 2) 0 none pages ∧
      pages.flatten.map Header.uid = [1, 3, 2] := by
  obtain ⟨inOrder, hperm, hsorted, pages, hwalk, hflat⟩ := mailbox_complete fourRows (by decide) (by decide) []
    ⟨true, false, none, false, false, none⟩ ⟨.sender, .desc⟩ (fun _ => 2) fun _ => by decide
  have heq : inOrder = [plainRow 1 (by decide) "Zoe" [] 0, plainRow 3 (by decide) "ann" [] 0,
      plainRow 2 (by decide) [] "ANN" 0] :=
    eq_of_strict (strict_rowLt _) (hperm.trans (by decide)) hsorted (by decide)
  refine ⟨pages, hwalk, ?_⟩
  rw [heq] at hflat
  rw [← Option.some.inj hflat]
  rfl

end Oreneta.Paging

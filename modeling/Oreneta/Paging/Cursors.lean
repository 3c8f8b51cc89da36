import Oreneta.Paging.Mailbox

/-!
# Cursors as texts

The two kinds of cursor of `thread_list.rs`: for a page of a mail folder (`formatPageCursor`, `parseMailCursor`) and
for a page of a search.

* `SearchCursor`, `formatSearchCursor`, `parseSearchCursor` — a place in a search, with or without a kept result.
* `splitn_append` — a part that is split off, and the rest.
* `cursor_texts` — a cursor of either kind is read back, and no text is a cursor of both.
-/

namespace Oreneta.Paging

open Text Decimal Base64 I64 Option

/-- A place in the merged pages of a search. -/
structure SearchCursor where
  date : Int
  uid : Nat
  folder : Str
  scanned : Nat
  snapshot : Option Str
  offset : Nat
  deriving DecidableEq, Repr

/-- The numbers are those of the fields' types. -/
structure SearchCursor.Sized (c : SearchCursor) : Prop where
  date : min ≤ c.date ∧ c.date ≤ max
  uid : c.uid < 2 ^ 32
  scanned : c.scanned < 2 ^ 32
  offset : c.offset < 2 ^ 32

/-- A text in base64. -/
def encodeText (s : Str) : Str := Base64.encode urlSafe (Utf8.encode s)

def decodeText (s : Str) : Option Str := (Base64.decode urlSafe s).bind Utf8.decode

/-- `format_search_cursor`. -/
def formatSearchCursor (c : SearchCursor) : Str :=
  match c.snapshot with
  | some snapshot => "search2:" ++ (ofInt c.date ++ ':' :: (Decimal.ofNat c.uid ++ ':' ::
      (Decimal.ofNat c.offset ++ ':' :: (encodeText snapshot ++ ':' :: encodeText c.folder))))
  | none => "search:" ++ (ofInt c.date ++ ':' :: (Decimal.ofNat c.uid ++ ':' ::
      (Decimal.ofNat c.scanned ++ ':' :: encodeText c.folder)))

/-- `str::splitn`: at most so many parts, the last one with everything that is left. -/
def splitn (c : Char) : Nat → Str → List Str
  | 0, _ => []
  | 1, s => [s]
  | n + 2, s =>
    match splitOnce c s with
    | some (part, rest) => part :: splitn c (n + 1) rest
    | none => [s]

/-- `parse_search_cursor`. -/
def parseSearchCursor (cursor : Str) : Option SearchCursor :=
  match stripPrefix "search2:" cursor with
  | some rest =>
    match splitn ':' 5 rest with
    | [date, uid, offset, snapshot, folder] => do
      let date ← parseInt date
      let uid ← parseBelow (2 ^ 32) uid
      let offset ← parseBelow (2 ^ 32) offset
      let snapshot ← decodeText snapshot
      let folder ← decodeText folder
      some ⟨date, uid, folder, 0, some snapshot, offset⟩
    | _ => none
  | none => do
    let rest ← stripPrefix "search:" cursor
    match splitn ':' 4 rest with
    | [date, uid, scanned, folder] => do
      let date ← parseInt date
      let uid ← parseBelow (2 ^ 32) uid
      let scanned ← parseBelow (2 ^ 32) scanned
      let folder ← decodeText folder
      some ⟨date, uid, folder, scanned, none, 0⟩
    | _ => none

/-! ## Parts of a text -/

theorem splitn_append {c : Char} {part : Str} (n : Nat) (rest : Str) (h : c ∉ part) :
    splitn c (n + 2) (part ++ c :: rest) = part :: splitn c (n + 1) rest := by
  rw [splitn, splitOnce_append rest h]

theorem decode_encodeText (s : Str) : decodeText (encodeText s) = some s := by
  unfold decodeText encodeText
  rw [Base64.decode_encode _ fun n hn => Utf8.encode_lt hn, bind_some, Utf8.decode_encode]

theorem colon_not_mem_encodeText (s : Str) : ':' ∉ encodeText s := by
  intro h
  obtain ⟨n, hn, hc⟩ := mem_encode urlSafe (fun n hn => Utf8.encode_lt hn) h
  have hall : ∀ n < 64, ':' ≠ urlSafe.symbol n := by decide +kernel
  exact hall n hn hc

/-! ## Cursors read back -/

/-- What a cursor of this sort keeps of a row: its date, or the text it is ordered by. -/
def keptBy (sort : ListSort) (textKey : Str) (date : Int) (uid : Nat) : PageCursor :=
  match sort.key with
  | .date => ⟨date, [], uid⟩
  | _ => ⟨0, textKey, uid⟩

theorem parse_formatPageCursor (sort : ListSort) (textKey : Str) {date : Int} (hdate : min ≤ date ∧ date ≤ max)
    {uid : Nat} (huid : uid < 2 ^ 32) :
    parseMailCursor (formatPageCursor sort textKey date uid) = some (keptBy sort textKey date uid) := by
  obtain ⟨key, dir⟩ := sort
  cases key with
  | date => exact parse_date hdate huid
  | sender => exact parse_text textKey huid
  | subject => exact parse_text textKey huid

/-- A cursor with a kept result has no place for how much was scanned, and one without has none for an offset. -/
def SearchCursor.Writable (c : SearchCursor) : Prop :=
  match c.snapshot with
  | some _ => c.scanned = 0
  | none => c.offset = 0

theorem parse_formatSearchCursor {c : SearchCursor} (hc : c.Sized) (hwritable : c.Writable) :
    parseSearchCursor (formatSearchCursor c) = some c := by
  obtain ⟨date, uid, folder, scanned, snapshot, offset⟩ := c
  obtain ⟨hdate, huid, hscanned, hoffset⟩ := hc
  simp only at hdate huid hscanned hoffset
  unfold formatSearchCursor parseSearchCursor
  cases snapshot with
  | some snapshot =>
    have hzero : scanned = 0 := hwritable
    subst hzero
    simp only
    rw [stripPrefix_append]
    simp only
    rw [splitn_append _ _ (colon_not_mem_ofInt date), splitn_append _ _ (colon_not_mem_ofNat uid),
      splitn_append _ _ (colon_not_mem_ofNat offset), splitn_append _ _ (colon_not_mem_encodeText snapshot), splitn]
    simp only [bind_eq_bind, parseInt_ofInt hdate, parseBelow_ofNat huid,
      parseBelow_ofNat hoffset, decode_encodeText, bind_some]
  | none =>
    have hzero : offset = 0 := hwritable
    subst hzero
    have hno : ∀ rest : Str, stripPrefix "search2:" ("search:" ++ rest) = none := fun _ => rfl
    simp only
    rw [hno]
    simp only
    rw [stripPrefix_append]
    simp only [bind_eq_bind, bind_some]
    rw [splitn_append _ _ (colon_not_mem_ofInt date), splitn_append _ _ (colon_not_mem_ofNat uid),
      splitn_append _ _ (colon_not_mem_ofNat scanned), splitn]
    simp only [parseInt_ofInt hdate, parseBelow_ofNat huid, parseBelow_ofNat hscanned, decode_encodeText, bind_some]

theorem start_of_mail {s : Str} {cursor : PageCursor} (h : parseMailCursor s = some cursor) :
    ∃ rest, s = "date:" ++ rest ∨ s = "sortk:" ++ rest := by
  unfold parseMailCursor at h
  split at h
  · next rest hrest => exact ⟨rest, .inl (stripPrefix_some hrest)⟩
  · obtain ⟨rest, hrest, -⟩ := bind_eq_some_iff.mp h
    exact ⟨rest, .inr (stripPrefix_some hrest)⟩

theorem start_of_search {s : Str} {cursor : SearchCursor} (h : parseSearchCursor s = some cursor) :
    ∃ rest, s = "search2:" ++ rest ∨ s = "search:" ++ rest := by
  unfold parseSearchCursor at h
  split at h
  · next rest hrest => exact ⟨rest, .inl (stripPrefix_some hrest)⟩
  · obtain ⟨rest, hrest, -⟩ := bind_eq_some_iff.mp h
    exact ⟨rest, .inr (stripPrefix_some hrest)⟩

/-- A cursor of a folder begins otherwise than one of a search. -/
theorem parsers_disjoint (s : Str) : parseMailCursor s = none ∨ parseSearchCursor s = none := by
  cases hmail : parseMailCursor s with
  | none => exact .inl rfl
  | some cursor =>
    cases hsearch : parseSearchCursor s with
    | none => exact .inr rfl
    | some found =>
      obtain ⟨rest, hs⟩ := start_of_mail hmail
      obtain ⟨rest', hs'⟩ := start_of_search hsearch
      -- the second letter tells them apart
      have hsearch2 : s.take 2 = ['s', 'e'] := by rcases hs' with rfl | rfl <;> rfl
      have hmail2 : s.take 2 = ['d', 'a'] ∨ s.take 2 = ['s', 'o'] := by
        rcases hs with rfl | rfl
        · exact .inl rfl
        · exact .inr rfl
      rw [hsearch2] at hmail2
      exact absurd hmail2 (by decide)

/-- **Cursor texts are read back and never confused**: one of a folder as what its sort uses, one of a search as itself,
and no text is read as both. -/
theorem cursor_texts (sort : ListSort) (textKey : Str) {date : Int} (hdate : min ≤ date ∧ date ≤ max) {uid : Nat}
    (huid : uid < 2 ^ 32) {c : SearchCursor} (hc : c.Sized) (hwritable : c.Writable) (s : Str) :
    parseMailCursor (formatPageCursor sort textKey date uid) = some (keptBy sort textKey date uid) ∧
      parseSearchCursor (formatSearchCursor c) = some c ∧ (parseMailCursor s = none ∨ parseSearchCursor s = none) :=
  ⟨parse_formatPageCursor sort textKey hdate huid, parse_formatSearchCursor hc hwritable, parsers_disjoint s⟩

/-- A colon as the text, a date before 1970, and a search in a folder without a name. -/
theorem cursor_texts_colon : parseMailCursor (formatPageCursor ⟨.subject, .asc⟩ ":" (-1) 7) = some ⟨0, ":", 7⟩ ∧
      parseSearchCursor (formatSearchCursor ⟨-1, 7, [], 0, some ":", 3⟩) = some ⟨-1, 7, [], 0, some ":", 3⟩ ∧
      (parseMailCursor "search:" = none ∨ parseSearchCursor "search:" = none) :=
  cursor_texts ⟨.subject, .asc⟩ ":" (by decide) (by decide) (c := ⟨-1, 7, [], 0, some ":", 3⟩)
    ⟨by decide, by decide, by decide, by decide⟩ rfl _

end Oreneta.Paging

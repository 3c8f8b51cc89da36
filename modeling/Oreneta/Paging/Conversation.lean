import Oreneta.Lib.Base64
import Oreneta.Lib.Decimal
import Oreneta.Lib.Quoted
import Oreneta.Lib.Utf8
import Oreneta.Paging.Order

/-!
# Pages of conversations

`conversation_page.rs`: the cards of a mailbox view in pages, with a cursor that only the view it was made
under takes.

* `View`, `View.digest` — the inputs of a view, and its digest: what a cursor is bound to.
* `Codec` — SHA-256, JSON and base64 as far as cursors need them: no two contexts have one digest, and a
  cursor that was written is read back.
* `page` — one page; `collect`, `decodeCursor`.
* `traversal_complete` — following the cursors gives every card once, in order, and ends.
* `minted_accepted_iff` — a cursor made under one view is taken under another exactly if they are the same
  in all that is bound; `accepted_iff` — which texts are taken at all.
* `paging_complete` — both.
-/

namespace Oreneta.Paging

open Keyset Text Decimal List

def CURSOR_PREFIX : Str := "conv1:"

def RELOAD_REQUIRED : Str := "conversation cursor invalid for this view; reload the first page"

structure Scope where
  account : Str
  folder : Str
  deriving DecidableEq, Repr

/-- `Ord` of a scope: by account, then by folder. -/
def Scope.lt (a b : Scope) : Prop := pairLt (· < ·) (· < ·) (a.account, a.folder) (b.account, b.folder)

instance : DecidableRel Scope.lt := fun _ _ => inferInstanceAs (Decidable (pairLt _ _ _ _))

structure View where
  namespace_ : Str
  scopes : List Scope
  query : Str
  filter : Str
  sort : ListSort
  deriving DecidableEq, Repr

/-- What is digested. -/
structure Context where
  cursorPrefix : Str
  namespace_ : Str
  scopes : List Scope
  query : Str
  filters : List Str
  key : Str
  direction : Str
  deriving DecidableEq, Repr

/-- `Vec::dedup`: of equal neighbours, one. -/
def dedup {α : Type} [DecidableEq α] : List α → List α
  | x :: y :: rest => if x = y then dedup (y :: rest) else x :: dedup (y :: rest)
  | l => l

/-- `sort_unstable` and `dedup`. -/
def canonical {α : Type} [DecidableEq α] (lt : α → α → Prop) [DecidableRel lt] (l : List α) : List α :=
  dedup (arrange lt id l)

/-- The facets a filter asks for, as they are written. -/
def facets (filter : Str) : List Str :=
  ((filter.splitOn ',').map trim).filter (fun facet => !facet.isEmpty && facet ≠ "all")

def keyName : SortKey → Str
  | .date => "date"
  | .sender => "sender"
  | .subject => "subject"

def directionName : SortDir → Str
  | .asc => "asc"
  | .desc => "desc"

def View.context (view : View) : Context :=
  ⟨CURSOR_PREFIX, view.namespace_, canonical Scope.lt view.scopes, trim view.query,
    canonical (· < ·) (facets view.filter), keyName view.sort.key, directionName view.sort.dir⟩

structure Position where
  key : Key
  id : Str
  deriving DecidableEq, Repr

/-- `Ord` of a position: by key, then by id. -/
def Position.lt (a b : Position) : Prop := pairLt Key.lt (· < ·) (a.key, a.id) (b.key, b.id)

instance : DecidableRel Position.lt := fun _ _ => inferInstanceAs (Decidable (pairLt _ _ _ _))

structure Cursor where
  context : Str
  position : Position
  deriving DecidableEq, Repr

/-- Digests and texts of cursors. -/
structure Codec where
  /-- The base64 of the SHA-256 of the JSON of a context. -/
  digest : Context → Str
  digest_inj : Function.Injective digest
  /-- The base64 of the JSON of a cursor. -/
  write : Cursor → Str
  read : Str → Option Cursor
  read_write : ∀ cursor, read (write cursor) = some cursor

variable (co : Codec)

def View.digest (view : View) : Except Str Str :=
  if view.namespace_.isEmpty || view.scopes.any (fun scope => scope.account.isEmpty || scope.folder.isEmpty) then
    .error "conversation view requires a namespace and qualified scopes"
  else .ok (co.digest view.context)

structure Candidate (T : Type) where
  id : Str
  date : Int
  sender : Str
  subject : Str
  item : T

structure Page (T : Type) where
  items : List T
  nextCursor : Option Str
  deriving DecidableEq, Repr

/-- The key is of the kind the sort compares. -/
def Key.fits : Key → SortKey → Bool
  | .date _, .date => true
  | .text _, .sender => true
  | .text _, .subject => true
  | _, _ => false

def decodeCursor (raw context : Str) (sort : ListSort) : Except Str Position :=
  match (stripPrefix CURSOR_PREFIX raw).bind co.read with
  | some cursor =>
    if cursor.context = context ∧ cursor.position.id ≠ [] ∧ cursor.position.key.fits sort.key = true then
      .ok cursor.position
    else .error RELOAD_REQUIRED
  | none => .error RELOAD_REQUIRED

/-- The position a page goes on after, if it is not the first. -/
def decodeBefore (context : Str) (sort : ListSort) : Option Str → Except Str (Option Position)
  | none => .ok none
  | some raw => (decodeCursor co raw context sort).map some

section Page

variable {T : Type}

def Candidate.position (sort : ListSort) (candidate : Candidate T) : Position :=
  ⟨match sort.key with
    | .date => .date candidate.date
    | .sender => .text (asciiLower candidate.sender)
    | .subject => .text (asciiLower candidate.subject), candidate.id⟩

/-- The position is after the cursor (`compare(..).is_gt()`). -/
def follows (sort : ListSort) (before : Option Position) (position : Position) : Bool :=
  before.all (fun before => decide (sort.dir.toward Position.lt before position))

/-- The candidates after a position; `ids` are those seen before. -/
def collect (sort : ListSort) (before : Option Position) :
    List (Candidate T) → List Str → Except Str (List (Position × T))
  | [], _ => .ok []
  | candidate :: rest, ids =>
    if candidate.id.isEmpty || ids.contains candidate.id then
      .error "conversation candidates require unique nonempty qualified identities"
    else
      match collect sort before rest (candidate.id :: ids) with
      | .error e => .error e
      | .ok ordered =>
        .ok (if follows sort before (candidate.position sort) then
            (candidate.position sort, candidate.item) :: ordered
          else ordered)

/-- One limit across all cards supplied. -/
def page (candidates : List (Candidate T)) (view : View) (limit : Nat) (beforeCursor : Option Str) :
    Except Str (Page T) :=
  if limit = 0 then .error "conversation page limit must be positive"
  else do
    let context ← view.digest co
    let before ← decodeBefore co context view.sort beforeCursor
    let ordered ← collect view.sort before candidates []
    let ordered := arrange (view.sort.dir.toward Position.lt) Prod.fst ordered
    let shown := ordered.take limit
    .ok ⟨shown.map Prod.snd,
      if limit < ordered.length then
        shown.getLast?.map (fun last => CURSOR_PREFIX ++ co.write ⟨context, last.1⟩)
      else none⟩

end Page

/-! ## Orders -/

theorem strict_scope : Strict Scope.lt :=
  (strict_pairLt strict_lt strict_lt).comap (f := fun a : Scope => (a.account, a.folder)) fun a b h => by
    cases a
    cases b
    cases h
    rfl

theorem strict_position : Strict Position.lt :=
  (strict_pairLt strict_key strict_lt).comap (f := fun a : Position => (a.key, a.id)) fun a b h => by
    cases a
    cases b
    cases h
    rfl

/-! ## Sorted and without doubles -/

section Canonical

variable {α : Type} [DecidableEq α] {lt : α → α → Prop} [DecidableRel lt]

theorem mem_dedup {x : α} : ∀ {l : List α}, x ∈ dedup l ↔ x ∈ l
  | [] => Iff.rfl
  | [_] => Iff.rfl
  | a :: b :: rest => by
    have ih := mem_dedup (x := x) (l := b :: rest)
    rw [dedup]
    split
    · rename_i hab
      rw [ih, hab]
      simp
    · rw [mem_cons, ih]
      exact mem_cons.symm

omit [DecidableRel lt] in
theorem dedup_strict (h : Strict lt) : ∀ {l : List α}, l.Pairwise (fun x y => ¬ lt y x) → (dedup l).Pairwise lt
  | [], _ => .nil
  | [a], _ => pairwise_singleton _ _
  | a :: b :: rest, hsorted => by
    have ih := dedup_strict h hsorted.tail
    rw [dedup]
    split
    · exact ih
    · rename_i hne
      refine pairwise_cons.mpr ⟨fun z hz => ?_, ih⟩
      rw [mem_dedup] at hz
      have hab := (pairwise_cons.mp hsorted).1 b mem_cons_self
      have hlt : lt a b := (h.total a b).resolve_right fun ho => ho.elim hne hab
      rcases mem_cons.mp hz with rfl | hz
      · exact hlt
      · have hbz := (pairwise_cons.mp hsorted.tail).1 z hz
        rcases h.total b z with hr | rfl | hr
        · exact h.trans hlt hr
        · exact hlt
        · exact absurd hr hbz

/-- **Sorted and without doubles, a list says which elements it has** and nothing else. -/
theorem canonical_eq_iff (h : Strict lt) {l l' : List α} : canonical lt l = canonical lt l' ↔ ∀ x, x ∈ l ↔ x ∈ l' := by
  have hmem : ∀ (l : List α) (x : α), x ∈ canonical lt l ↔ x ∈ l := fun l x =>
    mem_dedup.trans (arrange_perm_self l).mem_iff
  have hstrict : ∀ l : List α, (canonical lt l).Pairwise lt := fun l => dedup_strict h (arrange_sorted h l)
  have hne : ∀ x y : α, lt x y → x ≠ y := fun x y hxy he => h.irrefl y (he ▸ hxy)
  have hnodup : ∀ l : List α, (canonical lt l).Nodup := fun l => (hstrict l).imp (hne _ _)
  constructor
  · intro he x
    rw [← hmem l, he, hmem l']
  · intro hall
    have hperm : (canonical lt l).Perm (canonical lt l') :=
      (perm_ext_iff_of_nodup (hnodup l) (hnodup l')).mpr fun x => by rw [hmem l, hmem l', hall x]
    exact @eq_of_strict α α lt id h _ _ hperm (hstrict l) (hstrict l')

end Canonical

/-- The same question: what a cursor is bound to. -/
structure SameView (a b : View) : Prop where
  namespace_eq : a.namespace_ = b.namespace_
  scopes_iff : ∀ scope, scope ∈ a.scopes ↔ scope ∈ b.scopes
  query_eq : trim a.query = trim b.query
  facets_iff : ∀ facet, facet ∈ facets a.filter ↔ facet ∈ facets b.filter
  sort_eq : a.sort = b.sort

theorem keyName_inj {a b : SortKey} (h : keyName a = keyName b) : a = b := by
  cases a <;> cases b <;> first | rfl | exact absurd h (by decide)

theorem directionName_inj {a b : SortDir} (h : directionName a = directionName b) : a = b := by
  cases a <;> cases b <;> first | rfl | exact absurd h (by decide)

theorem context_eq_iff {a b : View} : a.context = b.context ↔ SameView a b := by
  constructor
  · intro h
    injection h with _ hns hscopes hquery hfilters hkey hdir
    refine ⟨hns, (canonical_eq_iff strict_scope).mp hscopes, hquery, (canonical_eq_iff strict_lt).mp hfilters, ?_⟩
    have hk := keyName_inj hkey
    have hd := directionName_inj hdir
    cases ha : a.sort
    cases hb : b.sort
    rw [ha, hb] at hk hd
    exact congrArg₂ ListSort.mk hk hd
  · rintro ⟨hns, hscopes, hquery, hfacets, hsort⟩
    unfold View.context
    rw [hns, (canonical_eq_iff strict_scope).mpr hscopes, hquery, (canonical_eq_iff strict_lt).mpr hfacets, hsort]

/-! ## One page -/

/-- A view whose digest can be made. -/
def View.Valid (view : View) : Prop :=
  view.namespace_ ≠ [] ∧ ∀ scope ∈ view.scopes, scope.account ≠ [] ∧ scope.folder ≠ []

theorem digest_ok {view : View} (h : view.Valid) : view.digest co = .ok (co.digest view.context) := by
  have hno : ¬ (view.namespace_.isEmpty ||
      view.scopes.any fun scope => scope.account.isEmpty || scope.folder.isEmpty) = true := by
    rw [Bool.or_eq_true, List.isEmpty_iff, any_eq_true]
    rintro (hempty | ⟨scope, hscope, hempty⟩)
    · exact h.1 hempty
    · rw [Bool.or_eq_true, List.isEmpty_iff, List.isEmpty_iff] at hempty
      exact hempty.elim (h.2 scope hscope).1 (h.2 scope hscope).2
  unfold View.digest
  rw [if_neg hno]

theorem digest_some {view : View} {context : Str} (h : view.digest co = .ok context) :
    view.Valid ∧ context = co.digest view.context := by
  unfold View.digest at h
  split at h
  · cases h
  · rename_i hno
    rw [Bool.or_eq_true, List.isEmpty_iff, any_eq_true, not_or, not_exists] at hno
    cases h
    refine ⟨⟨hno.1, fun scope hscope => ?_⟩, rfl⟩
    have hs : ¬ (scope.account.isEmpty || scope.folder.isEmpty) = true := fun hempty =>
      hno.2 scope ⟨hscope, hempty⟩
    rw [Bool.or_eq_true, List.isEmpty_iff, List.isEmpty_iff, not_or] at hs
    exact hs

section Page

variable {T : Type}

/-- Candidates with ids that tell them apart. -/
def Distinct (candidates : List (Candidate T)) : Prop :=
  (∀ candidate ∈ candidates, candidate.id ≠ []) ∧ (candidates.map Candidate.id).Nodup

/-- A candidate where it stands. -/
def Candidate.placed (sort : ListSort) (candidate : Candidate T) : Position × T :=
  (candidate.position sort, candidate.item)

theorem collect_ok (sort : ListSort) (before : Option Position) : ∀ (candidates : List (Candidate T)) (ids : List Str),
    Distinct candidates → (∀ candidate ∈ candidates, candidate.id ∉ ids) →
      collect sort before candidates ids =
        .ok ((candidates.map (Candidate.placed sort)).filter (fun p => follows sort before p.1))
  | [], _, _, _ => rfl
  | candidate :: rest, ids, ⟨hne, hnodup⟩, hids => by
    rw [map_cons, nodup_cons] at hnodup
    have hrest : Distinct rest := ⟨fun c hc => hne c (mem_cons_of_mem _ hc), hnodup.2⟩
    have hfresh : ∀ c ∈ rest, c.id ∉ candidate.id :: ids := by
      intro c hc hmem
      rcases mem_cons.mp hmem with he | hmem
      · exact hnodup.1 (he ▸ mem_map_of_mem hc)
      · exact hids c (mem_cons_of_mem _ hc) hmem
    have hgood : ¬ (candidate.id.isEmpty || ids.contains candidate.id) = true := by
      rw [Bool.or_eq_true, List.isEmpty_iff, contains_iff_mem, not_or]
      exact ⟨hne candidate mem_cons_self, hids candidate mem_cons_self⟩
    rw [collect, if_neg hgood, collect_ok sort before rest _ hrest hfresh, map_cons, filter_cons]
    rfl

variable {candidates : List (Candidate T)}

/-- The positions of candidates with different ids are different. -/
theorem positions_nodup (sort : ListSort) (h : Distinct candidates) :
    ((candidates.map (Candidate.placed sort)).map Prod.fst).Nodup := by
  have hids : ((candidates.map (Candidate.placed sort)).map Prod.fst).map Position.id =
      candidates.map Candidate.id := by
    rw [map_map, map_map]
    rfl
  exact List.Nodup.of_map Position.id (hids ▸ h.2)

/-- The cards of a view in order. -/
def ordered (sort : ListSort) (candidates : List (Candidate T)) : List (Position × T) :=
  arrange (sort.dir.toward Position.lt) Prod.fst (candidates.map (Candidate.placed sort))

theorem strict_sort (sort : ListSort) : Strict (sort.dir.toward Position.lt) := sort.dir.strict strict_position

/-- The cursor after a card. -/
def cursorAfter (view : View) (position : Position) : Str :=
  CURSOR_PREFIX ++ co.write ⟨co.digest view.context, position⟩

variable {view : View} {limit : Nat}

/-- A page of a view, when the cursor reads. -/
theorem page_ok (hview : view.Valid) (hc : Distinct candidates) (hlimit : 0 < limit) {before : Option Str} {position : Option Position}
    (hbefore : decodeBefore co (co.digest view.context) view.sort before = .ok position) : page co candidates view limit before =
      let rest := (ordered view.sort candidates).filter (fun p => follows view.sort position p.1)
      .ok ⟨(rest.take limit).map Prod.snd,
        if limit < rest.length then (rest.take limit).getLast?.map fun last => cursorAfter co view last.1
        else none⟩ := by
  have hfilter := @arrange_filter _ _ _ _ Prod.fst (strict_sort view.sort) (fun p => follows view.sort position p.1)
    (candidates.map (Candidate.placed view.sort))
  unfold page
  rw [if_neg (Nat.pos_iff_ne_zero.mp hlimit), digest_ok co hview]
  simp only [bind, Except.bind]
  rw [hbefore]
  dsimp only
  rw [collect_ok view.sort position candidates [] hc fun _ _ => not_mem_nil]
  dsimp only
  rw [hfilter]
  rfl

/-! ## Every card once -/

theorem fits_position (sort : ListSort) (candidate : Candidate T) : (candidate.position sort).key.fits sort.key = true := by
  unfold Candidate.position
  cases sort.key <;> rfl

theorem mem_ordered {sort : ListSort} {p : Position × T}
    (h : p ∈ ordered sort candidates) : ∃ candidate ∈ candidates, p = candidate.placed sort := by
  obtain ⟨candidate, hc, rfl⟩ := mem_map.mp ((arrange_perm_self _).mem_iff.mp h)
  exact ⟨candidate, hc, rfl⟩

/-- A cursor is read back under its own view. -/
theorem decodeCursor_after {position : Position} (hid : position.id ≠ []) (hfits : position.key.fits view.sort.key = true) :
    decodeCursor co (cursorAfter co view position) (co.digest view.context) view.sort = .ok position := by
  have hgood : co.digest view.context = co.digest view.context ∧ position.id ≠ [] ∧
      position.key.fits view.sort.key = true := ⟨rfl, hid, hfits⟩
  unfold decodeCursor cursorAfter
  rw [stripPrefix_append, Option.bind_some, co.read_write]
  dsimp only
  rw [if_pos hgood]

/-- The cards behind those that were read. -/
theorem ordered_filter {sort : ListSort} (hc : Distinct candidates)
    {d rest : List (Position × T)} (hall : ordered sort candidates = d ++ rest) :
    (ordered sort candidates).filter (fun p => follows sort (d.getLast?.map Prod.fst) p.1) = rest := by
  cases hlast : d.getLast? with
  | none =>
    rw [getLast?_eq_none_iff] at hlast
    subst hlast
    rw [hall]
    exact filter_eq_self.mpr fun _ _ => rfl
  | some last =>
    have hafter := arrange_after (strict_sort sort) (positions_nodup sort hc) hall hlast
    rw [arrange_filter (strict_sort sort)] at hafter
    exact hafter

/-- The pages of a view, as they are asked for. -/
def requests (candidates : Nat → List (Candidate T)) (view : View) (limits : Nat → Nat) (n : Nat)
    (before : Option Str) : Option (List T × Option Str) :=
  (page co (candidates n) view (limits n) before).toOption.map (fun p => (p.items, p.nextCursor))

/-- **Every card once, in order**: following the cursors from the first page on ends, and gives the cards
as the sort orders them. -/
theorem traversal_complete (hview : view.Valid) {base : List (Candidate T)} (hbase : Distinct base)
    {candidates : Nat → List (Candidate T)} (hperm : ∀ n, (candidates n).Perm base) {limits : Nat → Nat}
    (hlimits : ∀ n, 0 < limits n) : ∃ pages, Walk (requests co candidates view limits) 0 none pages ∧
      pages.flatten = (ordered view.sort base).map Prod.snd := by
  refine @pages_complete _ _ _ _ (fun last => cursorAfter co view last.1) _ _ hlimits _ ?_
  intro n d rest before hall hbefore
  have hn : Distinct (candidates n) :=
    ⟨fun c hc => hbase.1 c ((hperm n).mem_iff.mp hc), ((hperm n).map _).nodup_iff.mpr hbase.2⟩
  have hsame : ordered view.sort (candidates n) = ordered view.sort base :=
    arrange_perm (strict_sort view.sort) ((hperm n).map _) (positions_nodup view.sort hn)
  have hread : decodeBefore co (co.digest view.context) view.sort before = .ok (d.getLast?.map Prod.fst) := by
    rcases hbefore with ⟨rfl, rfl⟩ | ⟨last, hlast, rfl⟩
    · rfl
    · have hmem : last ∈ ordered view.sort base := by
        rw [hall]
        exact mem_append_left _ (mem_of_getLast? hlast)
      obtain ⟨c, hc, rfl⟩ := mem_ordered hmem
      rw [hlast]
      exact congrArg (Except.map some) (decodeCursor_after co (hbase.1 c hc) (fits_position view.sort c))
  have hpage := page_ok co hview hn (hlimits n) hread
  dsimp only at hpage
  rw [hsame, ordered_filter hbase hall] at hpage
  unfold requests
  rw [hpage]
  rfl

/-! ## Which cursors are taken -/

theorem decodeCursor_ok {raw context : Str} {sort : ListSort} {position : Position} :
    decodeCursor co raw context sort = .ok position ↔
      ∃ cursor, (stripPrefix CURSOR_PREFIX raw).bind co.read = some cursor ∧
        (cursor.context = context ∧ cursor.position.id ≠ [] ∧ cursor.position.key.fits sort.key = true) ∧
        cursor.position = position := by
  unfold decodeCursor
  constructor
  · intro h
    split at h
    · rename_i cursor hcursor
      split at h
      · rename_i hgood
        cases h
        exact ⟨cursor, hcursor, hgood, rfl⟩
      · cases h
    · cases h
  · rintro ⟨cursor, hcursor, hgood, rfl⟩
    rw [hcursor]
    dsimp only
    rw [if_pos hgood]

/-- The text reads as a cursor of this view: of its digest and its kind of key, with an id. -/
def Reads (view : View) (raw : Str) : Prop :=
  view.Valid ∧ ∃ position, decodeCursor co raw (co.digest view.context) view.sort = .ok position

/-- A page is given, rather than an error. -/
def Gives (candidates : List (Candidate T)) (view : View) (limit : Nat) (before : Option Str) : Prop :=
  ∃ p, page co candidates view limit before = .ok p

/-- What a page that is given says of the request. -/
theorem page_some {before : Option Str} {p : Page T} (h : page co candidates view limit before = .ok p) :
    view.Valid ∧ ∃ position rows, decodeBefore co (co.digest view.context) view.sort before = .ok position ∧
      collect view.sort position candidates [] = .ok rows ∧
      p.nextCursor = if limit < (arrange (view.sort.dir.toward Position.lt) Prod.fst rows).length then
        ((arrange (view.sort.dir.toward Position.lt) Prod.fst rows).take limit).getLast?.map
          (fun last => cursorAfter co view last.1)
        else none := by
  unfold page at h
  split at h
  · cases h
  · cases hd : view.digest co with
    | error e =>
      rw [hd] at h
      cases h
    | ok context =>
      obtain ⟨hvalid, rfl⟩ := digest_some co hd
      cases hb : decodeBefore co (co.digest view.context) view.sort before with
      | error e =>
        simp only [hd, bind, Except.bind, hb] at h
        cases h
      | ok position =>
        cases hrows : collect view.sort position candidates [] with
        | error e =>
          simp only [hd, bind, Except.bind, hb, hrows] at h
          cases h
        | ok rows =>
          simp only [hd, bind, Except.bind, hb, hrows] at h
          cases h
          exact ⟨hvalid, position, rows, rfl, hrows, rfl⟩

/-- **Which texts are taken**: those that read as a cursor of the view, and no others. -/
theorem accepted_iff (hc : Distinct candidates) (hlimit : 0 < limit)
    (view : View) (raw : Str) : Gives co candidates view limit (some raw) ↔ Reads co view raw := by
  constructor
  · rintro ⟨p, hp⟩
    obtain ⟨hvalid, position, -, hread, -⟩ := page_some co hp
    refine ⟨hvalid, ?_⟩
    rw [decodeBefore] at hread
    cases hd : decodeCursor co raw (co.digest view.context) view.sort with
    | error e =>
      rw [hd] at hread
      cases hread
    | ok position => exact ⟨position, rfl⟩
  · rintro ⟨hvalid, position, hread⟩
    have hbefore : decodeBefore co (co.digest view.context) view.sort (some raw) = .ok (some position) := by
      rw [decodeBefore, hread]
      rfl
    exact ⟨_, page_ok co hvalid hc hlimit hbefore⟩

/-- What is collected are candidates with an id. -/
theorem mem_collect {sort : ListSort} {before : Option Position} : ∀ {candidates : List (Candidate T)} {ids : List Str}
    {rows : List (Position × T)} {row : Position × T}, collect sort before candidates ids = .ok rows → row ∈ rows →
      ∃ candidate ∈ candidates, candidate.id ≠ [] ∧ row = candidate.placed sort
  | [], _, rows, row, h, hrow => by
    cases h
    cases hrow
  | candidate :: rest, ids, rows, row, h, hrow => by
    rw [collect] at h
    split at h
    · cases h
    · rename_i hgood
      rw [Bool.or_eq_true, List.isEmpty_iff, not_or] at hgood
      cases hrest : collect sort before rest (candidate.id :: ids) with
      | error e =>
        rw [hrest] at h
        cases h
      | ok more =>
        rw [hrest] at h
        cases h
        have hmore : row ∈ more → ∃ c ∈ candidate :: rest, c.id ≠ [] ∧ row = c.placed sort := fun hm =>
          let ⟨c, hc, hid, he⟩ := mem_collect hrest hm
          ⟨c, mem_cons_of_mem _ hc, hid, he⟩
        split at hrow
        · rcases mem_cons.mp hrow with rfl | hrow
          · exact ⟨candidate, mem_cons_self, hgood.1, rfl⟩
          · exact hmore hrow
        · exact hmore hrow

/-- A cursor some page of this view ended with. -/
def Minted (T : Type) (view : View) (raw : Str) : Prop :=
  ∃ (candidates : List (Candidate T)) (limit : Nat) (before : Option Str) (p : Page T),
    page co candidates view limit before = .ok p ∧ p.nextCursor = some raw

theorem minted_spec {raw : Str} (h : Minted co T view raw) : view.Valid ∧ ∃ candidate : Candidate T, candidate.id ≠ [] ∧
      raw = cursorAfter co view (candidate.position view.sort) := by
  obtain ⟨candidates, limit, before, p, hp, hnext⟩ := h
  obtain ⟨hvalid, position, rows, -, hrows, hcursor⟩ := page_some co hp
  rw [hcursor] at hnext
  split at hnext
  · obtain ⟨last, hlast, rfl⟩ := Option.map_eq_some_iff.mp hnext
    have hmem : last ∈ rows :=
      (arrange_perm_self rows).mem_iff.mp (take_subset _ _ (mem_of_getLast? hlast))
    obtain ⟨candidate, -, hid, rfl⟩ := mem_collect hrows hmem
    exact ⟨hvalid, candidate, hid, rfl⟩
  · cases hnext

theorem SameView.valid {a b : View} (h : SameView a b) (ha : a.Valid) : b.Valid :=
  ⟨h.namespace_eq ▸ ha.1, fun scope hscope => ha.2 scope ((h.scopes_iff scope).mpr hscope)⟩

/-- **A cursor made under one view is taken under another exactly if they ask the same.** -/
theorem minted_accepted_iff {a b : View} {raw : Str} (hminted : Minted co T a raw)
    (hc : Distinct candidates) (hlimit : 0 < limit) : Gives co candidates b limit (some raw) ↔ SameView a b := by
  obtain ⟨hvalid, candidate, hid, rfl⟩ := minted_spec co hminted
  rw [accepted_iff co hc hlimit]
  constructor
  · rintro ⟨-, position, hread⟩
    obtain ⟨cursor, hcursor, ⟨hcontext, -, -⟩, -⟩ := (decodeCursor_ok co).mp hread
    unfold cursorAfter at hcursor
    rw [stripPrefix_append, Option.bind_some, co.read_write, Option.some.injEq] at hcursor
    rw [← hcursor] at hcontext
    exact context_eq_iff.mp (co.digest_inj hcontext)
  · intro hsame
    refine ⟨hsame.valid hvalid, candidate.position a.sort, ?_⟩
    have hcursor : cursorAfter co a (candidate.position a.sort) = cursorAfter co b (candidate.position a.sort) := by
      unfold cursorAfter
      rw [context_eq_iff.mpr hsame]
    rw [hcursor]
    refine decodeCursor_after co hid ?_
    rw [← hsame.sort_eq]
    exact fits_position a.sort candidate

/-- **Conversation pages**: a view with a namespace and qualified scopes is read completely and in order by
following its cursors; a cursor made under one view is taken under another exactly if they ask the same; and
a text is taken only if it reads as a cursor of the view it is given to. -/
theorem paging_complete (T : Type) : (∀ view : View, view.Valid → ∀ base : List (Candidate T), Distinct base →
      ∀ candidates : Nat → List (Candidate T), (∀ n, (candidates n).Perm base) →
      ∀ limits : Nat → Nat, (∀ n, 0 < limits n) →
        ∃ pages, Walk (requests co candidates view limits) 0 none pages ∧
          pages.flatten = (ordered view.sort base).map Prod.snd) ∧
    (∀ (a b : View) (raw : Str), Minted co T a raw → ∀ candidates : List (Candidate T), Distinct candidates →
      ∀ limit, 0 < limit → (Gives co candidates b limit (some raw) ↔ SameView a b)) ∧
    (∀ (view : View) (raw : Str) (candidates : List (Candidate T)), Distinct candidates → ∀ limit, 0 < limit →
      (Gives co candidates view limit (some raw) ↔ Reads co view raw)) :=
  ⟨fun _ hview _ hbase _ hperm _ hlimits => traversal_complete co hview hbase hperm hlimits,
    fun _ _ _ hminted _ hc _ hlimit => minted_accepted_iff co hminted hc hlimit,
    fun view raw _ hc _ hlimit => accepted_iff co hc hlimit view raw⟩

end Page

/-! ## A codec -/

namespace Json

open Quoted

def key : Key → Str
  | .date n => "\"Date\",\"value\":" ++ (ofInt n ++ ['}'])
  | .text s => "\"Text\",\"value\":" ++ (quote s ++ ['}'])

/-- The JSON of a cursor. -/
def cursor (c : Cursor) : Str :=
  "\x7b\"context\":" ++ (quote c.context ++ (",\"position\":\x7b\"key\":\x7b\"kind\":" ++
    (key c.position.key ++ (",\"id\":" ++ (quote c.position.id ++ "\x7d\x7d")))))

/-- A quoted text at the start, and what stands behind it. -/
def quoted (s : Str) : Option (Str × Str) := (stripPrefix ['"'] s).bind unquote

def readKey (s : Str) : Option (Key × Str) :=
  match Text.stripPrefix "\"Date\",\"value\":" s with
  | some rest =>
    (splitOnce '}' rest).bind (fun p => (parseSigned p.1).map (fun n => (.date n, p.2)))
  | none =>
    (stripPrefix "\"Text\",\"value\":" s).bind (fun rest =>
      (quoted rest).bind (fun p => (stripPrefix ['}'] p.2).map (fun rest => (.text p.1, rest))))

def readCursor (s : Str) : Option Cursor := do
  let s ← stripPrefix "\x7b\"context\":" s
  let (context, s) ← quoted s
  let s ← stripPrefix ",\"position\":\x7b\"key\":\x7b\"kind\":" s
  let (key, s) ← readKey s
  let s ← stripPrefix ",\"id\":" s
  let (id, s) ← quoted s
  if s = "\x7d\x7d" then some ⟨context, key, id⟩ else none

theorem quoted_append (s rest : Str) : quoted (quote s ++ rest) = some (s, rest) := by
  have hstrip : stripPrefix ['"'] (quote s ++ rest) = some (escape s ++ '"' :: rest) := by
    rw [quote_append]
    exact stripPrefix_append ['"'] _
  unfold quoted
  rw [hstrip, Option.bind_some, unquote_quote]

theorem readKey_key (k : Key) (rest : Str) : readKey (key k ++ rest) = some (k, rest) := by
  cases k with
  | date n =>
    have hn : '}' ∉ Decimal.ofInt n := fun hm => by
      rcases Decimal.mem_ofInt hm with h | h <;> exact absurd h (by decide)
    have hshape : key (.date n) ++ rest =
        "\"Date\",\"value\":" ++ (ofInt n ++ '}' :: rest) := by
      unfold key
      rw [append_assoc, append_assoc, singleton_append]
    unfold readKey
    rw [hshape, stripPrefix_append]
    dsimp only
    rw [splitOnce_append rest hn, Option.bind_some, parseSigned_ofInt, Option.map_some]
  | text s =>
    have hshape : key (.text s) ++ rest = "\"Text\",\"value\":" ++ (quote s ++ (['}'] ++ rest)) := by
      unfold key
      rw [append_assoc, append_assoc]
    have hno : stripPrefix "\"Date\",\"value\":" ("\"Text\",\"value\":" ++ (quote s ++ (['}'] ++ rest))) = none := rfl
    unfold readKey
    rw [hshape, hno]
    dsimp only
    rw [stripPrefix_append, Option.bind_some, quoted_append, Option.bind_some, stripPrefix_append, Option.map_some]

theorem readCursor_cursor (c : Cursor) : readCursor (cursor c) = some c := by
  unfold readCursor cursor
  rw [stripPrefix_append]
  simp only [Option.bind_eq_bind, Option.bind_some]
  rw [quoted_append]
  simp only [Option.bind_some]
  rw [stripPrefix_append]
  simp only [Option.bind_some]
  rw [readKey_key]
  simp only [Option.bind_some]
  rw [stripPrefix_append]
  simp only [Option.bind_some]
  rw [quoted_append]
  rfl

/-- A context, as the quoted texts in it. -/
def context (c : Context) : Str :=
  quoteAll [c.cursorPrefix, c.namespace_, quoteAll (c.scopes.flatMap fun scope => [scope.account, scope.folder]),
    c.query, quoteAll c.filters, c.key, c.direction]

theorem flatMap_scopes_injective :
    Function.Injective fun scopes : List Scope => scopes.flatMap fun scope => [scope.account, scope.folder] := by
  intro scopes
  induction scopes with
  | nil =>
    rintro (_ | ⟨s, scopes'⟩) h
    · rfl
    · cases h
  | cons s scopes ih =>
    rintro (_ | ⟨s', scopes'⟩) h
    · cases h
    · simp only [flatMap_cons, cons_append, nil_append, List.cons.injEq] at h
      obtain ⟨ha, hf, hrest⟩ := h
      rw [ih hrest]
      cases s
      cases s'
      cases ha
      cases hf
      rfl

theorem context_injective : Function.Injective context := by
  intro a b h
  have hall := quoteAll_injective h
  simp only [List.cons.injEq, and_true] at hall
  obtain ⟨h1, h2, h3, h4, h5, h6, h7⟩ := hall
  have hscopes := flatMap_scopes_injective (quoteAll_injective h3)
  have hfilters := quoteAll_injective h5
  cases a
  cases b
  simp only at h1 h2 h4 h6 h7 hscopes hfilters
  rw [h1, h2, hscopes, h4, hfilters, h6, h7]

end Json

/-- Cursors as base64 of JSON, and the context itself for its digest. -/
def plain : Codec where
  digest := Json.context
  digest_inj := Json.context_injective
  write := fun c => Base64.encode Base64.urlSafe (Utf8.encode (Json.cursor c))
  read := fun raw => ((Base64.decode Base64.urlSafe raw).bind Utf8.decode).bind Json.readCursor
  read_write := fun c => by
    rw [Base64.decode_encode _ fun n hn => Utf8.encode_lt hn, Option.bind_some, Utf8.decode_encode,
      Option.bind_some, Json.readCursor_cursor]

def bySender : View := ⟨"recent:unified:inbox", [⟨"work", "INBOX"⟩], [], [], ⟨.sender, .asc⟩⟩

def threeCards : List (Candidate Nat) :=
  [⟨"a", 1, "Zoe", [], 1⟩, ⟨"b", 2, "ann", [], 2⟩, ⟨"c", 3, "Ann", [], 3⟩]

theorem bySender_valid : bySender.Valid := by
  refine ⟨by decide, fun scope hscope => ?_⟩
  rw [mem_singleton.mp hscope]
  decide

theorem threeCards_distinct : Distinct threeCards := by
  constructor
  · intro candidate hc
    simp only [threeCards, mem_cons, not_mem_nil, or_false] at hc
    rcases hc with rfl | rfl | rfl <;> decide
  · decide

/-- Read one by one, whatever order they are given in, and by no other view. -/
theorem threeCards_paged :
    (∃ pages, Walk (requests plain (fun n => if n = 1 then threeCards.reverse else threeCards) bySender fun _ => 1)
      0 none pages ∧ pages.flatten = [2, 3, 1]) ∧ ∀ raw, Minted plain Nat bySender raw →
      Gives plain threeCards { bySender with query := [' '] } 5 (some raw) ∧
        ¬ Gives plain threeCards { bySender with query := ['x'] } 5 (some raw) := by
  obtain ⟨hpages, hminted, -⟩ := paging_complete plain Nat
  refine ⟨?_, fun raw hraw => ⟨?_, ?_⟩⟩
  · refine hpages bySender bySender_valid threeCards threeCards_distinct _ (fun n => ?_) (fun _ => 1) fun _ => Nat.one_pos
    split
    · exact reverse_perm _
    · exact List.Perm.refl _
  · refine (hminted _ _ raw hraw threeCards threeCards_distinct 5 (by decide)).mpr ?_
    exact ⟨rfl, fun _ => Iff.rfl, by decide, fun _ => Iff.rfl, rfl⟩
  · intro hgives
    have := (hminted _ _ raw hraw threeCards threeCards_distinct 5 (by decide)).mp hgives
    exact absurd this.query_eq (by decide)

/-- A cursor that no page ends with: its sender is not in lower case. -/
def forged : Str := cursorAfter plain bySender ⟨.text ['A'], ['x']⟩

/-- A text no page has given is taken; and a view without a namespace is refused from the start. -/
theorem forged_taken : Gives plain threeCards bySender 1 (some forged) ∧
    (∀ view, ¬ Minted plain Nat view forged) ∧ ¬ Gives plain threeCards { bySender with namespace_ := [] } 1 none := by
  refine ⟨?_, ?_, ?_⟩
  · refine (accepted_iff plain threeCards_distinct Nat.one_pos bySender forged).mpr ⟨bySender_valid, ⟨.text ['A'], ['x']⟩, ?_⟩
    exact decodeCursor_after plain (by decide) rfl
  · intro view hminted
    obtain ⟨-, candidate, -, hraw⟩ := minted_spec plain hminted
    have hread := congrArg plain.read (append_cancel_left hraw)
    rw [plain.read_write, plain.read_write, Option.some.injEq, Cursor.mk.injEq] at hread
    have hsort := (context_eq_iff.mp (plain.digest_inj hread.1)).sort_eq
    have hkey := congrArg Position.key hread.2
    unfold Candidate.position at hkey
    rw [← hsort] at hkey
    injection hkey with htext
    have hmem : 'A' ∈ asciiLower candidate.sender := by
      rw [← htext]
      exact mem_singleton_self 'A'
    obtain ⟨c, -, hc⟩ := mem_map.mp hmem
    have hlower := isUpper_toLower c
    rw [hc] at hlower
    cases hlower
  · rintro ⟨p, hp⟩
    exact (page_some plain hp).1.1 rfl

end Oreneta.Paging

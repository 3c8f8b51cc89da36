import Mathlib.Data.List.Dedup
import Mathlib.Data.List.Sort
import Mathlib.Data.Set.Pairwise.Lattice
import Mathlib.Order.CompletePartialOrder
import Oreneta.Lib.Runs
import Oreneta.Lib.Table
import Oreneta.Lib.Text

/-!
# The same person in two books (`store/person_links.rs`, `store::forget_person`)

The tables `person_links` and `person_link_dismissals`, with what they are compared to: the ids in `people` and the
addresses in `person_emails`.  A link shows rows as one person; it is made and undone by the reader alone.

* `link`, `unlink`, `forgetPerson`, `dismiss` — as the source has them; `Act` also lets the books change.
* `classes` — the people shown as one.
* `classes_link`, `classes_unlink` — what a link and an unlink make of them.
* `links_partition` — after every run the rows are a partition into classes of two or more, and each operation does to
  it what it says.
-/

namespace Oreneta.PersonLinks

open Table List Option

/-! ## The tables -/

/-- A row of `person_links`. -/
structure Link where
  personId : Str
  linkId : Str
  deriving DecidableEq, Repr

/-- A row of `person_emails`. -/
structure Email where
  personId : Str
  addr : Str
  deriving DecidableEq, Repr

structure Store where
  people : List Str
  emails : List Email
  links : List Link
  dismissals : List (Str × Str)
  deriving DecidableEq, Repr

/-! ## The operations -/

/-- A `BTreeSet` of ids. -/
def idSet (ids : List Str) : List Str := (ids.insertionSort (· ≤ ·)).dedup

/-- `SELECT link_id FROM person_links WHERE person_id = id`. -/
def linkOf (links : List Link) (id : Str) : Option Str := (Table.lookup Link.personId links id).map Link.linkId

/-- Links these people as one, under the id made of `uuid` where none of them is linked. -/
def link (s : Store) (ids : List Str) (uuid : Str) : Except Str (Store × Str) :=
  let ids := idSet ids
  if ids.length < 2 then .error "linking needs two people or more"
  else if ids.any (fun id => !s.people.contains id) then
    .error "one of those people is no longer in the address book"
  else
    let existing := ids.filterMap (linkOf s.links)
    let link := existing.head?.getD ("link:" ++ uuid)
    let links := existing.tail.foldl
      (fun links other => Table.update (fun r => r.linkId = other) (fun r => { r with linkId := link }) links) s.links
    let links := ids.foldl (fun links id => Table.insertOrReplace Link.personId links ⟨id, link⟩) links
    .ok ({ s with links := links }, link)

/-- Takes one person out of their link; a link left with one person ends. -/
def unlink (s : Store) (id : Str) : Store :=
  let links := s.links.filter (fun r => r.personId ≠ id)
  match linkOf s.links id with
  | some link =>
    if (links.filter (fun r => r.linkId = link)).length < 2 then
      { s with links := links.filter (fun r => r.linkId ≠ link) }
    else { s with links := links }
  | none => { s with links := links }

/-- `store::forget_person`. -/
def forgetPerson (s : Store) (id : Str) : Store :=
  let s := unlink s id
  { s with
    emails := s.emails.filter (fun r => r.personId ≠ id)
    people := s.people.filter (fun p => p ≠ id) }

/-- `INSERT OR IGNORE INTO person_link_dismissals`. -/
def insertDismissal (dismissals : List (Str × Str)) (pair : Str × Str) : List (Str × Str) :=
  if pair ∈ dismissals then dismissals else dismissals ++ [pair]

/-- "These are not the same person". -/
def dismiss (s : Store) (ids : List Str) : Store :=
  let dismissals := ids.foldl (fun d a =>
    ids.foldl (fun d b => if a < b then insertDismissal d (a, b) else d) d) s.dismissals
  { s with dismissals := dismissals }

inductive Act where
  | link (ids : List Str) (uuid : Str)
  | unlink (id : Str)
  | forgetPerson (id : Str)
  | dismiss (ids : List Str)
  /-- The books are brought in again, or a person is saved. -/
  | books (people : List Str) (emails : List Email)
  deriving DecidableEq, Repr

def step (s : Store) : Act → Store
  | .link ids uuid =>
    match link s ids uuid with
    | .ok (s', _) => s'
    | .error _ => s
  | .unlink id => unlink s id
  | .forgetPerson id => forgetPerson s id
  | .dismiss ids => dismiss s ids
  | .books people emails => { s with people := people, emails := emails }

def run (s : Store) (acts : List Act) : Store := acts.foldl step s

/-- The ids made for new links. -/
def uuids (acts : List Act) : List Str :=
  acts.filterMap fun
    | .link _ uuid => some uuid
    | _ => none

/-! ## The people shown as one -/

def classes (s : Store) : Set (Set Str) := {c | ∃ l, c = {p | linkOf s.links p = some l} ∧ c.Nonempty}

/-- Two people are linked to each other. -/
def Linked (s : Store) (a b : Str) : Prop := ∃ l, linkOf s.links a = some l ∧ linkOf s.links b = some l

/-- The rows are a partition of the linked people into classes of two or more. -/
structure Partition (s : Store) : Prop where
  keyed : Keyed Link.personId s.links
  covers : ⋃₀ classes s = {p | ∃ r ∈ s.links, r.personId = p}
  disjoint : (classes s).PairwiseDisjoint id
  two : ∀ c ∈ classes s, ∃ a ∈ c, ∃ b ∈ c, a ≠ b

/-- What holds after every run; `used` are the ids made for links. -/
structure Sound (used : List Str) (s : Store) : Prop where
  keyed : Keyed Link.personId s.links
  two : ∀ a l, linkOf s.links a = some l → ∃ b, b ≠ a ∧ linkOf s.links b = some l
  made : ∀ a l, linkOf s.links a = some l → ∃ uuid ∈ used, l = "link:" ++ uuid

variable {s s' : Store} {ids : List Str} {uuid id l a b p : Str} {links : List Link}

theorem mem_idSet : id ∈ idSet ids ↔ id ∈ ids := by
  rw [idSet, List.mem_dedup, mem_insertionSort]

/-- A list without repetitions has two elements or fewer than two. -/
theorem nodup_two {α : Type} {set : List α} (hnodup : set.Nodup) : ¬ set.length < 2 ↔ ∃ a ∈ set, ∃ b ∈ set, a ≠ b := by
  match set, hnodup with
  | [], _ => simp
  | [c], _ =>
    refine iff_of_false (fun h => h (by simp)) ?_
    rintro ⟨a, ha, b, hb, hne⟩
    exact hne ((mem_singleton.mp ha).trans (mem_singleton.mp hb).symm)
  | a :: b :: rest, hnodup =>
    refine iff_of_true (by simp) ⟨a, mem_cons_self, b, mem_cons_of_mem _ mem_cons_self, ?_⟩
    rintro rfl
    exact (nodup_cons.mp hnodup).1 mem_cons_self

theorem idSet_two : ¬ (idSet ids).length < 2 ↔ ∃ a ∈ ids, ∃ b ∈ ids, a ≠ b := by
  have hnodup : (idSet ids).Nodup := nodup_dedup _
  rw [nodup_two hnodup]
  simp only [mem_idSet]

/-! ## One link -/

theorem linkOf_insert : linkOf (Table.insertOrReplace Link.personId links ⟨id, l⟩) p =
    if p = id then some l else linkOf links p := by
  unfold linkOf
  rw [lookup_insertOrReplace]
  split
  · rfl
  · rfl

theorem linkOf_update {other : Str} :
    linkOf (Table.update (fun r => r.linkId = other) (fun r => { r with linkId := l }) links) p =
      (linkOf links p).map fun k => if k = other then l else k := by
  have hkey : ∀ r : Link, Link.personId { r with linkId := l } = r.personId := fun _ => rfl
  unfold linkOf
  rw [lookup_update hkey, Option.map_map, Option.map_map]
  congr 1
  funext r
  simp only [Function.comp_apply, decide_eq_true_eq]
  split
  · rfl
  · rfl

theorem linkOf_updates : ∀ (others : List Str) (links : List Link), linkOf (others.foldl (fun links other =>
      Table.update (fun r => r.linkId = other) (fun r => { r with linkId := l }) links) links) p =
    (linkOf links p).map fun k => if k ∈ others then l else k
  | [], links => by simp
  | other :: others, links => by
    rw [foldl_cons, linkOf_updates others, linkOf_update, Option.map_map]
    congr 1
    funext k
    simp only [Function.comp_apply, mem_cons]
    by_cases hk : k = other
    · rw [if_pos hk, if_pos (Or.inl hk), ite_self]
    · rw [if_neg hk]
      by_cases hk' : k ∈ others
      · rw [if_pos hk', if_pos (.inr hk')]
      · rw [if_neg hk', if_neg (by simp [hk, hk'])]

theorem linkOf_inserts : ∀ (ids : List Str) (links : List Link), linkOf (ids.foldl (fun links id =>
      Table.insertOrReplace Link.personId links ⟨id, l⟩) links) p = if p ∈ ids then some l else linkOf links p
  | [], _ => by simp
  | id :: ids, links => by
    rw [foldl_cons, linkOf_inserts ids, linkOf_insert]
    by_cases hp : p ∈ ids
    · rw [if_pos hp, if_pos (mem_cons_of_mem _ hp)]
    · rw [if_neg hp]
      by_cases hid : p = id
      · rw [if_pos hid, if_pos (by simp [hid])]
      · rw [if_neg hid, if_neg (by simp [hid, hp])]

theorem keyed_updates : ∀ (others : List Str) {links : List Link}, Keyed Link.personId links →
    Keyed Link.personId (others.foldl (fun links other =>
      Table.update (fun r => r.linkId = other) (fun r => { r with linkId := l }) links) links)
  | [], _, h => h
  | _ :: others, _, h => keyed_updates others (h.update fun _ => rfl)

theorem keyed_inserts : ∀ (ids : List Str) {links : List Link}, Keyed Link.personId links →
    Keyed Link.personId (ids.foldl (fun links id => Table.insertOrReplace Link.personId links ⟨id, l⟩) links)
  | [], _, h => h
  | _ :: ids, _, h => keyed_inserts ids (h.insertOrReplace _)

/-- What a link that is made does to the rows. -/
structure Made (s : Store) (ids : List Str) (uuid : Str) (s' : Store) (l : Str) : Prop where
  two : ∃ a ∈ ids, ∃ b ∈ ids, a ≠ b
  known : ∀ id ∈ ids, id ∈ s.people
  keyed : Keyed Link.personId s.links → Keyed Link.personId s'.links
  row : ∀ p, linkOf s'.links p = if p ∈ ids ∨ ∃ id ∈ ids, ∃ k, linkOf s.links id = some k ∧ linkOf s.links p = some k then
    some l else linkOf s.links p
  name : (∃ id ∈ ids, linkOf s.links id = some l) ∨
    ((∀ id ∈ ids, linkOf s.links id = none) ∧ l = "link:" ++ uuid)

theorem link_ok (h : link s ids uuid = .ok (s', l)) : Made s ids uuid s' l := by
  unfold link at h
  dsimp only at h
  split at h
  · cases h
  rename_i htwo
  split at h
  · cases h
  rename_i hknown
  have hmem : ∀ k, k ∈ (idSet ids).filterMap (linkOf s.links) ↔ ∃ id ∈ ids, linkOf s.links id = some k := by
    intro k
    rw [mem_filterMap]
    exact exists_congr fun id => and_congr_left fun _ => mem_idSet
  generalize hexisting : (idSet ids).filterMap (linkOf s.links) = existing at h hmem
  have hname : (∃ id ∈ ids, linkOf s.links id = some (existing.head?.getD ("link:" ++ uuid))) ∨
      ((∀ id ∈ ids, linkOf s.links id = none) ∧ existing.head?.getD ("link:" ++ uuid) = "link:" ++ uuid) := by
    cases existing with
    | nil =>
      refine .inr ⟨fun id hid => eq_none_iff_forall_ne_some.mpr fun k hk => ?_, rfl⟩
      exact absurd ((hmem k).mpr ⟨id, hid, hk⟩) not_mem_nil
    | cons k rest => exact .inl ((hmem k).mp mem_cons_self)
  have hhead : ∀ k, (if k ∈ existing.tail then existing.head?.getD ("link:" ++ uuid) else k) =
      if k ∈ existing then existing.head?.getD ("link:" ++ uuid) else k := by
    intro k
    cases existing with
    | nil => rfl
    | cons k' rest =>
      rw [tail_cons, head?_cons, getD_some]
      by_cases hr : k ∈ rest
      · rw [if_pos hr, if_pos (mem_cons_of_mem _ hr)]
      · rw [if_neg hr]
        by_cases hk : k = k'
        · rw [if_pos (by simp [hk]), hk]
        · rw [if_neg (by simp [hk, hr])]
  generalize existing.head?.getD ("link:" ++ uuid) = link at h hname hhead
  cases h
  refine ⟨idSet_two.mp htwo, fun id hid => ?_, fun hkeyed => keyed_inserts _ (keyed_updates _ hkeyed), fun p => ?_, hname⟩
  · by_contra hgone
    exact hknown (any_eq_true.mpr ⟨id, mem_idSet.mpr hid, by simp [hgone]⟩)
  · dsimp only
    rw [linkOf_inserts, linkOf_updates]
    by_cases hp : p ∈ ids
    · rw [if_pos (mem_idSet.mpr hp), if_pos (.inl hp)]
    · rw [if_neg fun h => hp (mem_idSet.mp h)]
      cases hk : linkOf s.links p with
      | none =>
        rw [if_neg (by simp [hp])]
        rfl
      | some k =>
        rw [map_some, hhead]
        by_cases hold : k ∈ existing
        · obtain ⟨id, hid, hlink⟩ := (hmem k).mp hold
          rw [if_pos hold, if_pos (.inr ⟨id, hid, k, hlink, rfl⟩)]
        · rw [if_neg hold, if_neg]
          rintro (h | ⟨id, hid, k', hlink, he⟩)
          · exact hp h
          · cases he
            exact hold ((hmem k).mpr ⟨id, hid, hlink⟩)

/-! ## One unlink -/

theorem linkOf_some (hkeyed : Keyed Link.personId links) : linkOf links p = some l ↔ ⟨p, l⟩ ∈ links := by
  unfold linkOf
  constructor
  · intro h
    obtain ⟨r, hr, rfl⟩ := map_eq_some_iff.mp h
    obtain ⟨hmem, rfl⟩ := lookup_some hr
    exact hmem
  · intro h
    rw [hkeyed.lookup_of_mem h]
    rfl

/-- The rows without those of one person. -/
theorem linkOf_without (hkeyed : Keyed Link.personId links) {k : Str} :
    linkOf (links.filter fun r => r.personId ≠ id) p = some k ↔ p ≠ id ∧ linkOf links p = some k := by
  rw [linkOf_some (hkeyed.filter _), linkOf_some hkeyed, mem_filter, decide_eq_true_eq]
  exact and_comm

/-- What an unlink does to the rows. -/
theorem linkOf_unlink (hkeyed : Keyed Link.personId s.links) (id : Str) :
    Keyed Link.personId (unlink s id).links ∧ ∀ p k, linkOf (unlink s id).links p = some k ↔
      p ≠ id ∧ linkOf s.links p = some k ∧
        (linkOf s.links id = some k → ∃ a, a ≠ id ∧ a ≠ p ∧ linkOf s.links a = some k) := by
  have hkeyed' := hkeyed.filter fun r => r.personId ≠ id
  unfold unlink
  dsimp only
  cases hid : linkOf s.links id with
  | none =>
    refine ⟨hkeyed', fun p k => ?_⟩
    dsimp only
    rw [linkOf_without hkeyed]
    simp
  | some l =>
    dsimp only
    have hleft : ¬ ((s.links.filter fun r => r.personId ≠ id).filter fun r => r.linkId = l).length < 2 ↔
        ∃ a, a ≠ id ∧ linkOf s.links a = some l ∧ ∃ b, b ≠ id ∧ b ≠ a ∧ linkOf s.links b = some l := by
      have hmem : ∀ r, r ∈ (s.links.filter fun r => r.personId ≠ id).filter (fun r => r.linkId = l) ↔
          r.personId ≠ id ∧ linkOf s.links r.personId = some l ∧ r.linkId = l := by
        intro r
        simp only [mem_filter, decide_eq_true_eq, linkOf_some hkeyed]
        constructor
        · rintro ⟨⟨hr, hne⟩, rfl⟩
          exact ⟨hne, hr, rfl⟩
        · rintro ⟨hne, hr, rfl⟩
          exact ⟨⟨hr, hne⟩, rfl⟩
      have hnodup := hkeyed'.filter fun r => r.linkId = l
      rw [nodup_two (List.Nodup.of_map _ hnodup)]
      constructor
      · rintro ⟨r, hr, r', hr', hne⟩
        obtain ⟨h1, h2, h3⟩ := (hmem r).mp hr
        obtain ⟨h1', h2', h3'⟩ := (hmem r').mp hr'
        refine ⟨_, h1, h2, _, h1', fun he => hne ?_, h2'⟩
        cases r
        cases r'
        simp only at he h3 h3'
        rw [he, h3, h3']
      · rintro ⟨a, ha, hla, b, hb, hne, hlb⟩
        refine ⟨⟨a, l⟩, (hmem _).mpr ⟨ha, hla, rfl⟩, ⟨b, l⟩, (hmem _).mpr ⟨hb, hlb, rfl⟩, fun he => hne ?_⟩
        cases he
        rfl
    split
    · rename_i hfew
      refine ⟨hkeyed'.filter _, fun p k => ?_⟩
      have hother : linkOf ((s.links.filter fun r => r.personId ≠ id).filter fun r => r.linkId ≠ l) p = some k ↔
          (p ≠ id ∧ linkOf s.links p = some k) ∧ k ≠ l := by
        rw [← linkOf_without hkeyed, linkOf_some (hkeyed'.filter _), linkOf_some hkeyed', mem_filter, decide_eq_true_eq]
      rw [hother, and_assoc]
      refine and_congr_right fun hp => and_congr_right fun hpk => ?_
      constructor
      · intro hne he
        exact absurd (some.inj he).symm hne
      · rintro hall rfl
        obtain ⟨a, ha, hap, hla⟩ := hall rfl
        exact hleft.mpr ⟨p, hp, hpk, a, ha, hap, hla⟩ hfew
    · rename_i hmany
      refine ⟨hkeyed', fun p k => ?_⟩
      dsimp only
      rw [linkOf_without hkeyed]
      refine and_congr_right fun hp => (and_iff_left fun he => ?_).symm
      obtain ⟨a, ha, hla, b, hb, hba, hlb⟩ := hleft.mp hmany
      rw [← he]
      by_cases hap : a = p
      · exact ⟨b, hb, hap ▸ hba, hlb⟩
      · exact ⟨a, ha, hap, hla⟩

/-! ## The classes -/

theorem mem_classes_of_link (h : linkOf s.links a = some l) : {p | linkOf s.links p = some l} ∈ classes s :=
  ⟨l, rfl, a, h⟩

variable {used : List Str}

theorem Sound.partition (h : Sound used s) : Partition s := by
  refine ⟨h.keyed, ?_, ?_, ?_⟩
  · ext p
    constructor
    · rintro ⟨c, ⟨l, rfl, -⟩, hp⟩
      exact ⟨⟨p, l⟩, (linkOf_some h.keyed).mp hp, rfl⟩
    · rintro ⟨r, hr, rfl⟩
      have hl := (linkOf_some h.keyed).mpr hr
      exact ⟨_, mem_classes_of_link hl, hl⟩
  · rintro c ⟨l, rfl, -⟩ c' ⟨l', rfl, -⟩ hne
    refine Set.disjoint_left.mpr fun p hp hp' => hne ?_
    have hll : l = l' := some.inj (Eq.trans (Eq.symm hp) hp')
    rw [hll]
  · rintro c ⟨l, rfl, a, ha⟩
    obtain ⟨b, hba, hb⟩ := h.two a l ha
    exact ⟨a, ha, b, hb, hba.symm⟩

/-- Whoever a link of these people takes in. -/
def together (s : Store) (ids : List Str) : Set Str :=
  {p | p ∈ ids ∨ ∃ c ∈ classes s, p ∈ c ∧ ∃ id ∈ ids, id ∈ c}

theorem mem_together : p ∈ together s ids ↔
    p ∈ ids ∨ ∃ id ∈ ids, ∃ k, linkOf s.links id = some k ∧ linkOf s.links p = some k := by
  refine or_congr_right ?_
  constructor
  · rintro ⟨c, ⟨k, rfl, -⟩, hp, id, hid, hidc⟩
    exact ⟨id, hid, k, hidc, hp⟩
  · rintro ⟨id, hid, k, hidk, hp⟩
    exact ⟨_, mem_classes_of_link hp, hp, id, hid, hidk⟩

theorem together_closed {k : Str} (h : a ∈ together s ids) (ha : linkOf s.links a = some k)
    (hb : linkOf s.links b = some k) : b ∈ together s ids := by
  rw [mem_together] at h ⊢
  rcases h with hid | ⟨id, hid, k', hidk, hak⟩
  · exact .inr ⟨a, hid, k, ha, hb⟩
  · have hkk : k' = k := some.inj (hak.symm.trans ha)
    exact .inr ⟨id, hid, k, hkk ▸ hidk, hb⟩

/-- Nobody outside of the people taken in has the id the link gets. -/
theorem Made.fresh (h : Made s ids uuid s' l) (hs : Sound used s) (huuid : uuid ∉ used)
    (hp : linkOf s.links p = some l) : p ∈ together s ids := by
  rcases h.name with ⟨id, hid, hidl⟩ | ⟨-, rfl⟩
  · exact mem_together.mpr (.inr ⟨id, hid, l, hidl, hp⟩)
  · obtain ⟨uuid', huuid', he⟩ := hs.made p _ hp
    rw [append_cancel_left he] at huuid
    exact absurd huuid' huuid

theorem Made.row_iff (h : Made s ids uuid s' l) (hs : Sound used s) (huuid : uuid ∉ used) {k : Str} :
    linkOf s'.links p = some k ↔ (p ∈ together s ids ∧ k = l) ∨ (p ∉ together s ids ∧ k ≠ l ∧ linkOf s.links p = some k) := by
  rw [h.row]
  by_cases hp : p ∈ together s ids
  · rw [if_pos (mem_together.mp hp), some.injEq]
    simp only [hp, true_and, not_true_eq_false, false_and, or_false]
    exact eq_comm
  · rw [if_neg fun hm => hp (mem_together.mpr hm)]
    simp only [hp, not_false_eq_true, true_and, false_and, false_or]
    refine (and_iff_right_of_imp ?_).symm
    rintro hk rfl
    exact hp (h.fresh hs huuid hk)

/-- **What a link makes of the classes**: whoever it takes in is one class, and the others stay. -/
theorem classes_link (h : Made s ids uuid s' l) (hs : Sound used s) (huuid : uuid ∉ used) :
    classes s' = {c | c ∈ classes s ∧ ∀ id ∈ ids, id ∉ c} ∪ {together s ids} := by
  have hrow := fun p k => h.row_iff (p := p) hs huuid (k := k)
  have hall : {p | linkOf s'.links p = some l} = together s ids := by
    ext p
    rw [Set.mem_ofPred_eq, hrow]
    simp
  ext c
  constructor
  · rintro ⟨k, rfl, a, ha⟩
    by_cases hk : k = l
    · rw [hk]
      exact .inr hall
    · refine .inl ?_
      obtain ⟨hnot, -, hak⟩ := ((hrow a k).mp ha).resolve_left fun h => hk h.2
      have hsame : {p | linkOf s'.links p = some k} = {p | linkOf s.links p = some k} := by
        ext p
        rw [Set.mem_ofPred_eq, Set.mem_ofPred_eq, hrow]
        constructor
        · rintro (⟨-, he⟩ | ⟨-, -, hp⟩)
          · exact absurd he hk
          · exact hp
        · intro hp
          exact .inr ⟨fun hm => hnot (together_closed hm hp hak), hk, hp⟩
      rw [hsame]
      refine ⟨mem_classes_of_link hak, fun id hid hidk => hnot ?_⟩
      exact mem_together.mpr (.inr ⟨id, hid, k, hidk, hak⟩)
  · rintro (⟨⟨k, rfl, a, ha⟩, hnone⟩ | rfl)
    · have hout : ∀ p, linkOf s.links p = some k → p ∉ together s ids := by
        intro p hp hm
        rcases mem_together.mp hm with hid | ⟨id, hid, k', hidk, hpk⟩
        · exact hnone p hid hp
        · exact hnone id hid (hidk.trans (hpk.symm.trans hp))
      have hk : k ≠ l := by
        rintro rfl
        exact hout a ha (h.fresh hs huuid ha)
      refine ⟨k, ?_, a, ha⟩
      ext p
      rw [Set.mem_ofPred_eq, Set.mem_ofPred_eq, hrow]
      constructor
      · intro hp
        exact .inr ⟨hout p hp, hk, hp⟩
      · rintro (⟨-, he⟩ | ⟨-, -, hp⟩)
        · exact absurd he hk
        · exact hp
    · obtain ⟨a, ha, -⟩ := h.two
      refine ⟨l, hall.symm, a, ?_⟩
      exact mem_together.mpr (.inl ha)

/-- **What an unlink makes of the classes**: the person's class loses the person, and ends if one would be left. -/
theorem classes_unlink (hs : Sound used s) {c : Set Str} (hc : c ∈ classes s) (hid : id ∈ c) :
    classes (unlink s id) = {c' | c' ∈ classes s ∧ c' ≠ c} ∪ {d | d = c \ {id} ∧ ∀ a, d ≠ {a}} := by
  obtain ⟨l, rfl, -⟩ := hc
  have hrow := (linkOf_unlink hs.keyed id).2
  have hidl : linkOf s.links id = some l := hid
  -- the other classes are left alone
  have hother : ∀ k, k ≠ l → {p | linkOf (unlink s id).links p = some k} = {p | linkOf s.links p = some k} := by
    intro k hk
    ext p
    rw [Set.mem_ofPred_eq, Set.mem_ofPred_eq, hrow]
    constructor
    · exact fun h => h.2.1
    · intro hp
      refine ⟨?_, hp, fun he => absurd (some.inj (he.symm.trans hidl)) hk⟩
      rintro rfl
      exact hk (some.inj (hp.symm.trans hidl))
  have hmem : ∀ p, linkOf (unlink s id).links p = some l ↔
      p ≠ id ∧ linkOf s.links p = some l ∧ ∃ a, a ≠ id ∧ a ≠ p ∧ linkOf s.links a = some l := by
    intro p
    rw [hrow]
    exact and_congr_right fun _ => and_congr_right fun _ => ⟨fun h => h hidl, fun h _ => h⟩
  have hclass : ({p | linkOf s.links p = some l} \ {id} : Set Str) = {p | p ≠ id ∧ linkOf s.links p = some l} := by
    ext p
    exact and_comm
  rw [hclass]
  ext d
  constructor
  · rintro ⟨k, rfl, a, ha⟩
    by_cases hk : k = l
    · subst hk
      refine .inr ⟨?_, fun q hq => ?_⟩
      · ext p
        rw [Set.mem_ofPred_eq, Set.mem_ofPred_eq, hmem]
        constructor
        · exact fun h => ⟨h.1, h.2.1⟩
        · rintro ⟨hp, hpl⟩
          obtain ⟨ha1, ha2, b, hb1, hb2, hb3⟩ := (hmem a).mp ha
          by_cases hap : a = p
          · exact ⟨hp, hpl, b, hb1, hap ▸ hb2, hb3⟩
          · exact ⟨hp, hpl, a, ha1, hap, ha2⟩
      · obtain ⟨ha1, ha2, b, hb1, hb2, hb3⟩ := (hmem a).mp ha
        have hb : b ∈ {p | linkOf (unlink s id).links p = some k} := (hmem b).mpr ⟨hb1, hb3, a, ha1, hb2.symm, ha2⟩
        rw [hq] at hb ha
        exact hb2 (hb.trans (Eq.symm ha))
    · refine .inl ?_
      rw [hother k hk]
      rw [Set.mem_ofPred_eq, hrow] at ha
      refine ⟨mem_classes_of_link ha.2.1, fun he => hk ?_⟩
      have hin : id ∈ {p | linkOf s.links p = some k} := he ▸ hid
      exact some.inj (Eq.trans (Eq.symm hin) hidl)
  · rintro (⟨⟨k, rfl, a, ha⟩, hne⟩ | ⟨rfl, hmany⟩)
    · have hk : k ≠ l := by
        rintro rfl
        exact hne rfl
      exact ⟨k, (hother k hk).symm, a, ha⟩
    · obtain ⟨b, hbid, hbl⟩ := hs.two id l hidl
      -- somebody is left beside any of them
      have hbeside : ∀ p, p ≠ id → linkOf s.links p = some l → ∃ a, a ≠ id ∧ a ≠ p ∧ linkOf s.links a = some l := by
        intro p hp hpl
        by_contra hnone
        refine hmany p ?_
        ext a
        constructor
        · rintro ⟨ha, hal⟩
          by_contra hap
          exact hnone ⟨a, ha, hap, hal⟩
        · rintro rfl
          exact ⟨hp, hpl⟩
      refine ⟨l, ?_, b, hbid, hbl⟩
      ext p
      rw [Set.mem_ofPred_eq, Set.mem_ofPred_eq, hmem]
      constructor
      · rintro ⟨hp, hpl⟩
        exact ⟨hp, hpl, hbeside p hp hpl⟩
      · exact fun h => ⟨h.1, h.2.1⟩

/-- Somebody who is not linked is taken out of nothing. -/
theorem unlink_other (h : linkOf s.links id = none) : unlink s id = s := by
  unfold unlink
  rw [h]
  dsimp only
  have hall : s.links.filter (fun r => r.personId ≠ id) = s.links := by
    refine filter_eq_self.mpr fun r hr => decide_eq_true ?_
    exact lookup_eq_none.mp (map_eq_none_iff.mp h) r hr
  rw [hall]

/-! ## Every run -/

theorem sound_empty (h : s.links = []) : Sound [] s := by
  have hnone : ∀ a l, linkOf s.links a ≠ some l := by
    intro a l
    rw [h]
    exact fun he => by cases he
  exact ⟨by rw [h]; exact nodup_nil, fun a l he => absurd he (hnone a l), fun a l he => absurd he (hnone a l)⟩

theorem Sound.unlink (hs : Sound used s) (id : Str) : Sound used (PersonLinks.unlink s id) := by
  obtain ⟨hkeyed, hrow⟩ := linkOf_unlink hs.keyed id
  refine ⟨hkeyed, fun a l ha => ?_, fun a l ha => hs.made a l ((hrow a l).mp ha).2.1⟩
  obtain ⟨hne, hal, hleft⟩ := (hrow a l).mp ha
  by_cases hid : linkOf s.links id = some l
  · obtain ⟨b, hb, hba, hbl⟩ := hleft hid
    exact ⟨b, hba, (hrow b l).mpr ⟨hb, hbl, fun _ => ⟨a, hne, hba.symm, hal⟩⟩⟩
  · obtain ⟨b, hba, hbl⟩ := hs.two a l hal
    refine ⟨b, hba, (hrow b l).mpr ⟨?_, hbl, fun h => absurd h hid⟩⟩
    rintro rfl
    exact hid hbl

theorem Sound.link {used : List Str} (hs : Sound used s) (huuid : uuid ∉ used) (h : Made s ids uuid s' l) :
    Sound (used ++ [uuid]) s' := by
  have hrow := fun p k => h.row_iff (p := p) hs huuid (k := k)
  refine ⟨h.keyed hs.keyed, fun a k ha => ?_, fun a k ha => ?_⟩
  · rcases (hrow a k).mp ha with ⟨hin, rfl⟩ | ⟨hout, hk, hak⟩
    · obtain ⟨b, hb, b', hb', hne⟩ := h.two
      by_cases hba : b = a
      · exact ⟨b', fun he => hne (hba.trans he.symm), (hrow b' k).mpr (.inl ⟨mem_together.mpr (.inl hb'), rfl⟩)⟩
      · exact ⟨b, hba, (hrow b k).mpr (.inl ⟨mem_together.mpr (.inl hb), rfl⟩)⟩
    · obtain ⟨b, hba, hbk⟩ := hs.two a k hak
      exact ⟨b, hba, (hrow b k).mpr (.inr ⟨fun hm => hout (together_closed hm hbk hak), hk, hbk⟩)⟩
  · have hold : ∀ {b k}, linkOf s.links b = some k → ∃ uuid' ∈ used ++ [uuid], k = "link:" ++ uuid' := by
      intro b k hbk
      obtain ⟨uuid', huuid', he⟩ := hs.made b k hbk
      exact ⟨uuid', mem_append_left _ huuid', he⟩
    rcases (hrow a k).mp ha with ⟨-, rfl⟩ | ⟨-, -, hak⟩
    · rcases h.name with ⟨id, -, hid⟩ | ⟨-, he⟩
      · exact hold hid
      · exact ⟨uuid, mem_append_right _ (mem_singleton_self _), he⟩
    · exact hold hak

theorem Sound.step (hs : Sound used s) (a : Act) (huuid : ∀ uuid ∈ uuids [a], uuid ∉ used) :
    Sound (used ++ uuids [a]) (PersonLinks.step s a) := by
  have hsame : ∀ {s' : Store}, s'.links = s.links → Sound used s' := fun he =>
    ⟨by rw [he]; exact hs.keyed, by rw [he]; exact hs.two, by rw [he]; exact hs.made⟩
  have hmore : ∀ {s' : Store} {more : List Str}, Sound used s' → Sound (used ++ more) s' := fun h =>
    ⟨h.keyed, h.two, fun a l hl => (h.made a l hl).imp fun _ hu => ⟨mem_append_left _ hu.1, hu.2⟩⟩
  cases a with
  | link ids uuid =>
    unfold PersonLinks.step
    dsimp only
    cases h : PersonLinks.link s ids uuid with
    | ok result => exact hs.link (huuid uuid mem_cons_self) (link_ok h)
    | error e => exact hmore hs
  | unlink id => exact hmore (hs.unlink id)
  | forgetPerson id =>
    have h := hs.unlink id
    exact hmore ⟨h.keyed, h.two, h.made⟩
  | dismiss ids => exact hmore (hsame rfl)
  | books people emails => exact hmore (hsame rfl)

theorem uuids_cons (a : Act) (acts : List Act) : uuids (a :: acts) = uuids [a] ++ uuids acts := by
  unfold uuids
  rw [← filterMap_append]
  rfl

theorem sound_run : ∀ (acts : List Act) {used : List Str} {s : Store}, Sound used s →
    (used ++ uuids acts).Nodup → Sound (used ++ uuids acts) (run s acts)
  | [], used, s, hs, _ => by
    rw [show uuids [] = [] from rfl, append_nil]
    exact hs
  | a :: acts, used, s, hs, hnodup => by
    rw [uuids_cons, ← append_assoc] at hnodup ⊢
    have hfirst := (nodup_append.mp hnodup).1
    refine sound_run acts (hs.step a fun uuid hu hused => ?_) hnodup
    exact (nodup_append.mp hfirst).2.2 uuid hused uuid hu rfl

/-- **Person links are a partition.** -/
theorem links_partition {acts : List Act} (huuids : (uuids acts).Nodup) {s₀ : Store} (h₀ : s₀.links = []) :
    Partition (run s₀ acts) ∧ (∀ ids uuid, uuid ∉ uuids acts →
      (∀ s' l, link (run s₀ acts) ids uuid = .ok (s', l) → step (run s₀ acts) (.link ids uuid) = s' ∧
        classes s' = {c | c ∈ classes (run s₀ acts) ∧ ∀ id ∈ ids, id ∉ c} ∪
          {{p | p ∈ ids ∨ ∃ c ∈ classes (run s₀ acts), p ∈ c ∧ ∃ id ∈ ids, id ∈ c}}) ∧
      ∀ e, link (run s₀ acts) ids uuid = .error e → step (run s₀ acts) (.link ids uuid) = run s₀ acts) ∧
    (∀ id, (∀ c ∈ classes (run s₀ acts), id ∉ c) → unlink (run s₀ acts) id = run s₀ acts) ∧
    (∀ id, ∀ c ∈ classes (run s₀ acts), id ∈ c →
      classes (unlink (run s₀ acts) id) = {c' | c' ∈ classes (run s₀ acts) ∧ c' ≠ c} ∪ {d | d = c \ {id} ∧ ∀ a, d ≠ {a}}) ∧
    ∀ id, classes (forgetPerson (run s₀ acts) id) = classes (unlink (run s₀ acts) id) := by
  have hs := sound_run acts (sound_empty h₀) huuids
  rw [nil_append] at hs
  refine ⟨hs.partition, fun ids uuid huuid => ⟨fun s' l h => ?_, fun e h => ?_⟩, fun id hid => ?_,
    fun id c hc hid => classes_unlink hs hc hid, fun id => rfl⟩
  · exact ⟨by rw [step, h], classes_link (link_ok h) hs huuid⟩
  · rw [step, h]
  · refine unlink_other (eq_none_iff_forall_ne_some.mpr fun l hl => ?_)
    exact hid _ (mem_classes_of_link hl) hl

def books : Store := ⟨["a", "b", "c"], [], [], []⟩

def linking : List Act :=
  [.link ["b", "a"] "1", .link ["b", "c"] "2", .unlink "a"]

theorem links_partition_books : Partition (run books linking) ∧
    linkOf (run books linking).links "b".toList = some "link:1".toList ∧
    linkOf (run books linking).links "c".toList = some "link:1".toList ∧ linkOf (run books linking).links "a".toList = none :=
  ⟨(links_partition (by decide) rfl).1, by decide, by decide, by decide⟩

end Oreneta.PersonLinks

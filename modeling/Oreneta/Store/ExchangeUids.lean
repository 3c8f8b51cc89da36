import Oreneta.Lib.Decimal
import Oreneta.Lib.Runs
import Oreneta.Lib.Table

/-!
# Numbers of Exchange items

An Exchange item is known by an opaque id, the rest of the program by a uid.  `ews_item_ids` keeps which is which, and the next
uid of a folder is in `folder_state.uid_next`, a column other writers of that table leave `NULL`.

* `mapEwsItem`, `forgetEwsItem`, `ewsItemForUid`, `uidForEwsItem`, `setFolderSyncState`, `setFolderModseq`.
* `Sound` — the mapping of a folder as it is read: injective, from 1 on, and the two readings inverse.
* `uids_stable` — in every run that finds room (`Room`) for each new item, the mapping is sound, no uid is handed out twice, and
  a mapped item keeps its uid until it is forgotten.
* `uid_reused` — `as u32` cuts the counter off: after 2^32 items a uid of another item is handed out.
-/

namespace Oreneta.Store.ExchangeUids

open Runs Table List

/-- An account and a folder of it. -/
structure Place where
  account : Str
  folder : Str
  deriving DecidableEq, Repr

/-- A row of `folder_state`. -/
structure FolderState where
  place : Place
  uidvalidity : Option Int
  uidNext : Option Int
  highestModseq : Option Int
  syncState : Option Str
  deriving DecidableEq, Repr

/-- A row of `ews_item_ids`. -/
structure EwsItem where
  place : Place
  uid : Int
  itemId : Str
  changeKey : Option Str
  deriving DecidableEq, Repr

/-- The primary key. -/
def EwsItem.key (item : EwsItem) : Place × Int := (item.place, item.uid)

/-- The columns of `ews_item_ids_item_idx`. -/
def EwsItem.name (item : EwsItem) : Place × Str := (item.place, item.itemId)

/-- The table `ews_item_ids`, with its primary key and its unique index. -/
@[ext]
structure EwsItems where
  rows : List EwsItem
  keyed : Keyed EwsItem.key rows
  named : Keyed EwsItem.name rows

namespace EwsItems

def empty : EwsItems := ⟨[], nodup_nil, nodup_nil⟩

/-- `INSERT`; it fails when a row has the key or the name. -/
def insert (items : EwsItems) (item : EwsItem) : Option EwsItems :=
  if h : (∀ r ∈ items.rows, r.key ≠ item.key) ∧ ∀ r ∈ items.rows, r.name ≠ item.name then
    some
      { rows := items.rows ++ [item]
        keyed := items.keyed.append (nodup_singleton _) (fun r hr _ hs => mem_singleton.mp hs ▸ h.1 r hr)
        named := items.named.append (nodup_singleton _) (fun r hr _ hs => mem_singleton.mp hs ▸ h.2 r hr) }
  else none

/-- `UPDATE ews_item_ids SET change_key` of the row with a name. -/
def setChangeKey (items : EwsItems) (name : Place × Str) (changeKey : Option Str) : EwsItems where
  rows := Table.update (fun r => r.name = name) (fun r => { r with changeKey }) items.rows
  keyed := items.keyed.update (fun _ => rfl)
  named := items.named.update (fun _ => rfl)

/-- `DELETE` of the row with a name. -/
def delete (items : EwsItems) (name : Place × Str) : EwsItems where
  rows := items.rows.filter (fun r => r.name ≠ name)
  keyed := items.keyed.filter _
  named := items.named.filter _

end EwsItems

/-- The two tables. -/
@[ext]
structure Db where
  states : List FolderState
  items : EwsItems

/-- `as u32` -/
def asU32 (n : Int) : Nat := (n % 2 ^ 32).toNat

section Code

variable (db : Db) (place : Place)

/-- A row of `folder_state` with one of its columns. -/
def blankState : FolderState := ⟨place, none, none, none, none⟩

def setFolderSyncState (syncState : Str) : Db :=
  { db with
    states := Table.upsert FolderState.place { blankState place with syncState := some syncState }
      (fun r => { r with syncState := some syncState }) db.states }

/-- The `u64` is stored as an `i64`. -/
def setFolderModseq (modseq : Nat) : Db :=
  { db with
    states := Table.upsert FolderState.place { blankState place with highestModseq := some (I64.wrap modseq) }
      (fun r => { r with highestModseq := some (I64.wrap modseq) }) db.states }

/-- The rows after `INSERT … ON CONFLICT … RETURNING uid_next - 1`. -/
def takeUid (states : List FolderState) : List FolderState :=
  Table.upsert FolderState.place { blankState place with uidNext := some 2 }
    (fun r => { r with uidNext := some (r.uidNext.getD 1 + 1) }) states

/-- `uid_next` of the folder, 1 where there is none. -/
def counter (states : List FolderState) : Int :=
  ((Table.lookup FolderState.place states place).bind FolderState.uidNext).getD 1

/-- `map_ews_item`: the uid, if no statement fails, and the tables afterwards. -/
def mapEwsItem (itemId : Str) (changeKey : Option Str) : Option Nat × Db :=
  match Table.lookup EwsItem.name db.items.rows (place, itemId) with
  | some item => (some (asU32 item.uid), { db with items := db.items.setChangeKey (place, itemId) changeKey })
  | none =>
    let states := takeUid place db.states
    let next := counter place states - 1
    match db.items.insert ⟨place, next, itemId, changeKey⟩ with
    | some items => (some (asU32 next), ⟨states, items⟩)
    | none => (none, { db with states })

def ewsItemForUid (uid : Nat) : Option (Str × Option Str) :=
  (Table.lookup EwsItem.key db.items.rows (place, uid)).map (fun item => (item.itemId, item.changeKey))

def uidForEwsItem (itemId : Str) : Option Nat :=
  (Table.lookup EwsItem.name db.items.rows (place, itemId)).map (fun item => asU32 item.uid)

def forgetEwsItem (itemId : Str) : Db := { db with items := db.items.delete (place, itemId) }

end Code

/-- A call, in any folder. -/
inductive Op where
  | mapEwsItem (place : Place) (itemId : Str) (changeKey : Option Str)
  | forgetEwsItem (place : Place) (itemId : Str)
  | setFolderSyncState (place : Place) (syncState : Str)
  | setFolderModseq (place : Place) (modseq : Nat)
  deriving DecidableEq, Repr

def step (db : Db) : Op → Option Db
  | .mapEwsItem place itemId changeKey => some (mapEwsItem db place itemId changeKey).2
  | .forgetEwsItem place itemId => some (forgetEwsItem db place itemId)
  | .setFolderSyncState place syncState => some (setFolderSyncState db place syncState)
  | .setFolderModseq place modseq => some (setFolderModseq db place modseq)

/-- The uids handed out in the folder, each with its item: those of items that had none. -/
def hands (place : Place) (db : Db) (op : Op) (_ : Db) (handed : List (Str × Nat)) : List (Str × Nat) :=
  match op with
  | .mapEwsItem other itemId changeKey =>
    if other = place ∧ uidForEwsItem db place itemId = none then
      handed ++ ((mapEwsItem db place itemId changeKey).1.map (fun uid => (itemId, uid))).toList
    else handed
  | _ => handed

/-- The mapping of a folder, as it is read. -/
structure Sound (db : Db) (place : Place) : Prop where
  injective : ∀ {a b uid}, uidForEwsItem db place a = some uid → uidForEwsItem db place b = some uid → a = b
  positive : ∀ {a uid}, uidForEwsItem db place a = some uid → 1 ≤ uid
  inverse : ∀ {a uid}, uidForEwsItem db place a = some uid ↔ (ewsItemForUid db place uid).map Prod.fst = some a

/-- The folder's next uid is one of 32 bits, if the call needs one. -/
def Room (place : Place) (db : Db) : Op → Prop
  | .mapEwsItem other itemId _ => other = place → uidForEwsItem db place itemId = none → counter place db.states < 2 ^ 32
  | _ => True

instance (place : Place) (db : Db) : ∀ op, Decidable (Room place db op)
  | .mapEwsItem _ _ _ => by
    unfold Room
    infer_instance
  | .forgetEwsItem _ _ => .isTrue trivial
  | .setFolderSyncState _ _ => .isTrue trivial
  | .setFolderModseq _ _ => .isTrue trivial

/-- The folder has no row in either table. -/
structure WithoutState (db : Db) (place : Place) : Prop where
  state : Table.lookup FolderState.place db.states place = none
  items : ∀ item ∈ db.items.rows, item.place ≠ place

/-! ## The rows of a folder -/

/-- The folder has a row for the item with the number. -/
def Maps (db : Db) (place : Place) (itemId : Str) (uid : Int) : Prop :=
  ∃ item ∈ db.items.rows, item.place = place ∧ item.itemId = itemId ∧ item.uid = uid

section Rows

variable {db : Db} {place : Place} {a b : Str} {u v : Int}

theorem Maps.item_unique (ha : Maps db place a u) (hb : Maps db place b u) : a = b := by
  obtain ⟨r, hr, hplace, rfl, rfl⟩ := ha
  obtain ⟨s, hs, hplace', rfl, huid⟩ := hb
  have hrow : r = s :=
    inj_on_of_nodup_map db.items.keyed hr hs (Prod.ext (hplace.trans hplace'.symm) huid.symm)
  rw [hrow]

theorem lookup_name {item : EwsItem} : Table.lookup EwsItem.name db.items.rows (place, a) = some item ↔
      item ∈ db.items.rows ∧ item.place = place ∧ item.itemId = a := by
  constructor
  · intro h
    obtain ⟨hmem, hname⟩ := lookup_some h
    exact ⟨hmem, Prod.mk.inj hname⟩
  · rintro ⟨hmem, rfl, rfl⟩
    exact db.items.named.lookup_of_mem hmem

theorem uidForEwsItem_iff {uid : Nat} : uidForEwsItem db place a = some uid ↔ ∃ u, Maps db place a u ∧ asU32 u = uid := by
  unfold uidForEwsItem
  rw [Option.map_eq_some_iff]
  constructor
  · rintro ⟨item, hitem, hcut⟩
    obtain ⟨hmem, hplace, hid⟩ := lookup_name.mp hitem
    exact ⟨item.uid, ⟨item, hmem, hplace, hid, rfl⟩, hcut⟩
  · rintro ⟨u, ⟨item, hmem, hplace, hid, rfl⟩, hcut⟩
    exact ⟨item, lookup_name.mpr ⟨hmem, hplace, hid⟩, hcut⟩

theorem uidForEwsItem_eq_none : uidForEwsItem db place a = none ↔ ∀ u, ¬ Maps db place a u := by
  rw [Option.eq_none_iff_forall_ne_some]
  constructor
  · intro h u hu
    exact h (asU32 u) (uidForEwsItem_iff.mpr ⟨u, hu, rfl⟩)
  · intro h uid huid
    obtain ⟨u, hu, -⟩ := uidForEwsItem_iff.mp huid
    exact h u hu

theorem ewsItemForUid_iff {uid : Nat} : (ewsItemForUid db place uid).map Prod.fst = some a ↔ Maps db place a uid := by
  unfold ewsItemForUid
  rw [Option.map_map, Option.map_eq_some_iff]
  constructor
  · rintro ⟨item, hitem, hid⟩
    obtain ⟨hmem, hkey⟩ := lookup_some hitem
    exact ⟨item, hmem, (Prod.mk.inj hkey).1, hid, (Prod.mk.inj hkey).2⟩
  · rintro ⟨item, hmem, rfl, hid, huid⟩
    refine ⟨item, ?_, hid⟩
    rw [← huid]
    exact db.items.keyed.lookup_of_mem hmem

theorem insert_some {items items' : EwsItems} {item : EwsItem} (h : items.insert item = some items') :
    items'.rows = items.rows ++ [item] := by
  unfold EwsItems.insert at h
  split at h
  · cases h
    rfl
  · cases h

/-- An insertion fails on a row of the same place with the number or the item. -/
theorem insert_none {items : EwsItems} {item : EwsItem} (h : items.insert item = none) :
    ∃ r ∈ items.rows, r.place = item.place ∧ (r.uid = item.uid ∨ r.itemId = item.itemId) := by
  unfold EwsItems.insert at h
  split at h
  · cases h
  · rename_i hclash
    by_contra hnone
    simp only [not_exists, not_and, not_or] at hnone
    apply hclash
    constructor
    · intro r hr hkey
      exact (hnone r hr (Prod.mk.inj hkey).1).1 (Prod.mk.inj hkey).2
    · intro r hr hname
      exact (hnone r hr (Prod.mk.inj hname).1).2 (Prod.mk.inj hname).2

end Rows

/-! ## What a call does to a folder -/

/-- The calls, as the folder sees them. -/
inductive Does (place : Place) (db : Db) : Op → Db → Prop where
  /-- Nothing the folder is asked for changes, nor was it asked for a new uid. -/
  | quiet {op : Op} {t : Db} (hcounter : counter place t.states = counter place db.states)
      (hmaps : ∀ a u, Maps t place a u ↔ Maps db place a u)
      (hold : ∀ itemId changeKey, op = .mapEwsItem place itemId changeKey → uidForEwsItem db place itemId ≠ none) : Does place db op t
  | forgot {t : Db} {itemId : Str} (hcounter : counter place t.states = counter place db.states)
      (hmaps : ∀ a u, Maps t place a u ↔ a ≠ itemId ∧ Maps db place a u) : Does place db (.forgetEwsItem place itemId) t
  /-- A new item takes the next number. -/
  | took {t : Db} {itemId : Str} {changeKey : Option Str} (hnew : uidForEwsItem db place itemId = none)
      (hcounter : counter place t.states = counter place db.states + 1)
      (hmaps : ∀ a u, Maps t place a u ↔ Maps db place a u ∨ a = itemId ∧ u = counter place db.states)
      (hanswer : (mapEwsItem db place itemId changeKey).1 = some (asU32 (counter place db.states))) :
      Does place db (.mapEwsItem place itemId changeKey) t
  /-- The next number is another item's: the insertion fails. -/
  | failed {t : Db} {itemId : Str} {changeKey : Option Str} (hclash : ∃ a, Maps db place a (counter place db.states))
      (hmaps : ∀ a u, Maps t place a u ↔ Maps db place a u) : Does place db (.mapEwsItem place itemId changeKey) t

section Does

variable {db t : Db} {place : Place}

/-- A write of another column leaves the counter. -/
theorem counter_upsert {row : FolderState} {f : FolderState → FolderState} (hplace : ∀ r, (f r).place = r.place)
    (hrow : row.uidNext = none) (hf : ∀ r, (f r).uidNext = r.uidNext) (states : List FolderState) :
    counter place (Table.upsert FolderState.place row f states) = counter place states := by
  unfold counter
  rw [lookup_upsert hplace]
  split
  · cases Table.lookup FolderState.place states place with
    | none => simp [hrow]
    | some r => simp [hf]
  · rfl

theorem counter_takeUid (other : Place) (states : List FolderState) :
    counter place (takeUid other states) = if place = other then counter place states + 1 else counter place states := by
  have hlookup : Table.lookup FolderState.place (takeUid other states) place = if place = other then
      some ((Table.lookup FolderState.place states place).elim { blankState other with uidNext := some 2 }
        (fun r => { r with uidNext := some (r.uidNext.getD 1 + 1) }))
      else Table.lookup FolderState.place states place := lookup_upsert fun _ => rfl
  unfold counter
  rw [hlookup]
  by_cases hplace : place = other
  · rw [if_pos hplace, if_pos hplace]
    cases Table.lookup FolderState.place states place with
    | none => rfl
    | some r => rfl
  · rw [if_neg hplace, if_neg hplace]

theorem maps_setChangeKey {name : Place × Str} {changeKey : Option Str} (a : Str) (u : Int) :
    Maps { db with items := db.items.setChangeKey name changeKey } place a u ↔ Maps db place a u := by
  show (∃ item ∈ Table.update _ _ db.items.rows, _) ↔ _
  unfold Maps Table.update
  simp only [mem_map, exists_exists_and_eq_and]
  refine exists_congr fun r => and_congr_right fun _ => ?_
  split <;> rfl

theorem maps_delete {other : Place} {itemId : Str} (a : Str) (u : Int) :
    Maps (forgetEwsItem db other itemId) place a u ↔ (place, a) ≠ (other, itemId) ∧ Maps db place a u := by
  show (∃ item ∈ db.items.rows.filter _, _) ↔ _
  unfold Maps
  constructor
  · rintro ⟨r, hr, rfl, rfl, hu⟩
    obtain ⟨hr, hname⟩ := mem_filter.mp hr
    exact ⟨of_decide_eq_true hname, r, hr, rfl, rfl, hu⟩
  · rintro ⟨hname, r, hr, rfl, rfl, hu⟩
    exact ⟨r, mem_filter.mpr ⟨hr, decide_eq_true hname⟩, rfl, rfl, hu⟩

theorem maps_append {states : List FolderState} {items : EwsItems} {item : EwsItem} (h : items.rows = db.items.rows ++ [item])
    (a : Str) (u : Int) :
    Maps ⟨states, items⟩ place a u ↔ Maps db place a u ∨ item.place = place ∧ item.itemId = a ∧ item.uid = u := by
  unfold Maps
  simp only [h, mem_append, mem_singleton, or_and_right, exists_or, exists_eq_left]

theorem hands_old {op : Op} (h : ∀ itemId changeKey, op = .mapEwsItem place itemId changeKey → uidForEwsItem db place itemId ≠ none)
    (handed : List (Str × Nat)) : hands place db op t handed = handed := by
  cases op with
  | mapEwsItem other itemId changeKey =>
    refine if_neg ?_
    rintro ⟨rfl, hnone⟩
    exact h itemId changeKey rfl hnone
  | _ => rfl

theorem does_map (other : Place) (itemId : Str) (changeKey : Option Str) :
    Does place db (.mapEwsItem other itemId changeKey) (mapEwsItem db other itemId changeKey).2 := by
  cases hlookup : Table.lookup EwsItem.name db.items.rows (other, itemId) with
  | some item =>
    have hmap : mapEwsItem db other itemId changeKey =
        (some (asU32 item.uid), { db with items := db.items.setChangeKey (other, itemId) changeKey }) := by
      unfold mapEwsItem
      rw [hlookup]
    have hknown : uidForEwsItem db other itemId ≠ none := by
      unfold uidForEwsItem
      rw [hlookup]
      exact Option.some_ne_none _
    rw [hmap]
    refine .quiet rfl maps_setChangeKey ?_
    rintro _ _ ⟨⟩
    exact hknown
  | none =>
    have hcounter : counter other (takeUid other db.states) - 1 = counter other db.states := by
      rw [counter_takeUid, if_pos rfl, Int.add_sub_cancel]
    cases hinsert : db.items.insert ⟨other, counter other db.states, itemId, changeKey⟩ with
    | some items =>
      have hmap : mapEwsItem db other itemId changeKey =
          (some (asU32 (counter other db.states)), ⟨takeUid other db.states, items⟩) := by
        unfold mapEwsItem
        rw [hlookup]
        dsimp only
        rw [hcounter, hinsert]
      have hrows := insert_some hinsert
      by_cases hplace : other = place
      · subst hplace
        have hnew : uidForEwsItem db other itemId = none := by
          unfold uidForEwsItem
          rw [hlookup]
          rfl
        refine .took hnew ?_ ?_ (congrArg Prod.fst hmap)
        · rw [hmap, counter_takeUid, if_pos rfl]
        · intro a u
          rw [hmap, maps_append hrows]
          simp [eq_comm]
      · refine .quiet ?_ ?_ fun _ _ hop => absurd (Op.mapEwsItem.inj hop).1 hplace
        · rw [hmap, counter_takeUid, if_neg (Ne.symm hplace)]
        · intro a u
          rw [hmap, maps_append hrows]
          simp [hplace]
    | none =>
      have hmap : mapEwsItem db other itemId changeKey = (none, { db with states := takeUid other db.states }) := by
        unfold mapEwsItem
        rw [hlookup]
        dsimp only
        rw [hcounter, hinsert]
      by_cases hplace : other = place
      · subst hplace
        refine .failed ?_ fun a u => by rw [hmap]; rfl
        obtain ⟨r, hr, hrplace, huid | hid⟩ := insert_none hinsert
        · exact ⟨r.itemId, r, hr, hrplace, rfl, huid⟩
        · have hrow := lookup_name.mpr ⟨hr, hrplace, hid⟩
          rw [hlookup] at hrow
          cases hrow
      · refine .quiet ?_ (fun a u => by rw [hmap]; rfl) fun _ _ hop => absurd (Op.mapEwsItem.inj hop).1 hplace
        rw [hmap, counter_takeUid, if_neg (Ne.symm hplace)]

/-- **What a call does.** -/
theorem does {op : Op} (h : step db op = some t) : Does place db op t := by
  cases op with
  | mapEwsItem other itemId changeKey =>
    cases h
    exact does_map other itemId changeKey
  | forgetEwsItem other itemId =>
    cases h
    by_cases hplace : other = place
    · subst hplace
      refine .forgot rfl fun a u => ?_
      rw [maps_delete]
      simp
    · refine .quiet rfl (fun a u => ?_) fun _ _ hop => nomatch hop
      rw [maps_delete]
      simp [Ne.symm hplace]
  | setFolderSyncState other syncState =>
    cases h
    refine .quiet ?_ (fun _ _ => Iff.rfl) fun _ _ hop => nomatch hop
    exact counter_upsert (f := fun r => { r with syncState := some syncState }) (fun _ => rfl) rfl (fun _ => rfl) _
  | setFolderModseq other modseq =>
    cases h
    refine .quiet ?_ (fun _ _ => Iff.rfl) fun _ _ hop => nomatch hop
    exact counter_upsert (f := fun r => { r with highestModseq := some (I64.wrap modseq) }) (fun _ => rfl) rfl (fun _ => rfl) _

end Does

/-! ## Runs -/

theorem asU32_cast {n : Int} (h : 0 ≤ n) (hlt : n < 2 ^ 32) : (asU32 n : Int) = n := by
  unfold asU32
  rw [Int.emod_eq_of_lt h hlt, Int.toNat_of_nonneg h]

/-- What every call keeps: the uids in use and those handed out are below the next one. -/
structure Inv (place : Place) (db : Db) (handed : List (Str × Nat)) : Prop where
  counter_pos : 1 ≤ counter place db.states
  counter_le : counter place db.states ≤ 2 ^ 32
  used : ∀ {a u}, Maps db place a u → 1 ≤ u ∧ u < counter place db.states
  listed : ∀ {a u}, Maps db place a u → (a, asU32 u) ∈ handed
  below : ∀ p ∈ handed, (p.2 : Int) < counter place db.states
  once : (handed.map Prod.snd).Nodup

section Runs

variable {db t : Db} {place : Place} {handed : List (Str × Nat)}

theorem WithoutState.counter (h : WithoutState db place) : ExchangeUids.counter place db.states = 1 := by
  unfold ExchangeUids.counter
  rw [h.state]
  rfl

theorem WithoutState.inv (h : WithoutState db place) : Inv place db [] where
  counter_pos := Int.le_of_eq h.counter.symm
  counter_le := by
    rw [h.counter]
    decide
  used := fun ⟨item, hitem, hplace, _⟩ => absurd hplace (h.items item hitem)
  listed := fun ⟨item, hitem, hplace, _⟩ => absurd hplace (h.items item hitem)
  below p hp := absurd hp not_mem_nil
  once := nodup_nil

/-- A number in use is its uid. -/
theorem Inv.cast (h : Inv place db handed) {a : Str} {u : Int} (hu : Maps db place a u) : (asU32 u : Int) = u := by
  have hle := h.counter_le
  obtain ⟨hpos, hlt⟩ := h.used hu
  exact asU32_cast (by omega) (by omega)

theorem Inv.uid_iff (h : Inv place db handed) {a : Str} {uid : Nat} :
    uidForEwsItem db place a = some uid ↔ Maps db place a uid := by
  rw [uidForEwsItem_iff]
  constructor
  · rintro ⟨u, hu, rfl⟩
    rw [h.cast hu]
    exact hu
  · intro hu
    exact ⟨uid, hu, Int.ofNat_inj.mp (h.cast hu)⟩

theorem Inv.sound (h : Inv place db handed) : Sound db place where
  injective := fun ha hb => (h.uid_iff.mp ha).item_unique (h.uid_iff.mp hb)
  positive := fun ha => by
    have hpos := (h.used (h.uid_iff.mp ha)).1
    omega
  inverse := h.uid_iff.trans ewsItemForUid_iff.symm

theorem Inv.step {op : Op} (h : Inv place db handed) (hroom : Room place db op) (hstep : step db op = some t) :
    Inv place t (hands place db op t handed) := by
  cases does hstep with
  | quiet hcounter hmaps hold =>
    rw [hands_old hold]
    refine ⟨hcounter ▸ h.counter_pos, hcounter ▸ h.counter_le, fun {a u} hu => ?_, fun {a u} hu => ?_, hcounter ▸ h.below, h.once⟩
    · rw [hcounter]
      exact h.used ((hmaps a u).mp hu)
    · exact h.listed ((hmaps a u).mp hu)
  | forgot hcounter hmaps =>
    refine ⟨hcounter ▸ h.counter_pos, hcounter ▸ h.counter_le, fun {a u} hu => ?_, fun {a u} hu => ?_, hcounter ▸ h.below, h.once⟩
    · rw [hcounter]
      exact h.used ((hmaps a u).mp hu).2
    · exact h.listed ((hmaps a u).mp hu).2
  | @took _ itemId changeKey hnew hcounter hmaps hanswer =>
    have hlt : counter place db.states < 2 ^ 32 := hroom rfl hnew
    have hpos := h.counter_pos
    have hcast : (asU32 (counter place db.states) : Int) = counter place db.states := asU32_cast (by omega) hlt
    have hhands : hands place db (.mapEwsItem place itemId changeKey) t handed =
        handed ++ [(itemId, asU32 (counter place db.states))] := by
      show (if _ then handed ++ ((mapEwsItem db place itemId changeKey).1.map _).toList else handed) = _
      rw [if_pos ⟨rfl, hnew⟩, hanswer]
      rfl
    rw [hhands]
    refine ⟨by omega, by omega, fun {a u} hu => ?_, fun {a u} hu => ?_, fun p hp => ?_, ?_⟩
    · rcases (hmaps a u).mp hu with hold | ⟨-, rfl⟩
      · have := h.used hold
        omega
      · omega
    · rcases (hmaps a u).mp hu with hold | ⟨rfl, rfl⟩
      · exact mem_append_left _ (h.listed hold)
      · exact mem_append_right _ mem_cons_self
    · rcases mem_append.mp hp with hold | hnew
      · have := h.below p hold
        omega
      · rw [mem_singleton.mp hnew]
        omega
    · rw [map_append]
      refine h.once.append (nodup_singleton _) ?_
      -- every uid handed out before is below the new one
      intro uid hold hnow
      obtain ⟨p, hp, rfl⟩ := mem_map.mp hold
      have hbelow := h.below p hp
      have heq : p.2 = asU32 (counter place db.states) := mem_singleton.mp hnow
      omega
  | failed hclash hmaps =>
    obtain ⟨a, ha⟩ := hclash
    have := h.used ha
    omega

theorem inv_run (hnew : WithoutState db place) {ops : List Op}
    (hroom : AllSteps (watched step (hands place)) (fun x op => Room place x.1 op) (db, []) ops)
    (hrun : run (watched step (hands place)) (db, []) ops = some (t, handed)) : Inv place t handed := by
  have hstep : ∀ (x : Db × List (Str × Nat)) op y, Inv place x.1 x.2 → Room place x.1 op →
      watched step (hands place) x op = some y → Inv place y.1 y.2 := by
    intro x op y hx hop hy
    obtain ⟨ht, hsee⟩ := watched_some hy
    rw [hsee]
    exact hx.step hop ht
  exact @run_invariant _ _ _ _ (fun x => Inv place x.1 x.2) hstep _ _ _ hnew.inv hroom hrun

/-- A call keeps the rows of the items it does not forget. -/
theorem maps_kept {op : Op} {a : Str} {u : Int} (hstep : step db op = some t) (hkeep : op ≠ .forgetEwsItem place a)
    (hu : Maps db place a u) : Maps t place a u := by
  cases does hstep with
  | quiet _ hmaps _ => exact (hmaps a u).mpr hu
  | @forgot _ itemId _ hmaps =>
    refine (hmaps a u).mpr ⟨?_, hu⟩
    rintro rfl
    exact hkeep rfl
  | took _ _ hmaps _ => exact (hmaps a u).mpr (.inl hu)
  | failed _ hmaps => exact (hmaps a u).mpr hu

theorem uid_kept : ∀ {later : List Op} {db t : Db} {a : Str} {uid : Nat}, run step db later = some t →
    (∀ op ∈ later, op ≠ .forgetEwsItem place a) → uidForEwsItem db place a = some uid → uidForEwsItem t place a = some uid
  | [], _, _, _, _, hrun, _, huid => by
    cases hrun
    exact huid
  | op :: later, db, t, a, uid, hrun, hkeep, huid => by
    obtain ⟨next, hstep, hrest⟩ := run_cons hrun
    obtain ⟨u, hu, hcut⟩ := uidForEwsItem_iff.mp huid
    have hu' := maps_kept hstep (hkeep op mem_cons_self) hu
    exact uid_kept hrest (fun op hop => hkeep op (mem_cons_of_mem _ hop)) (uidForEwsItem_iff.mpr ⟨u, hu', hcut⟩)

/-- Mapping an item answers with the uid it has afterwards. -/
theorem Inv.answer (h : Inv place db handed) (itemId : Str) (changeKey : Option Str) :
    ∃ uid, (mapEwsItem db place itemId changeKey).1 = some uid ∧
      uidForEwsItem (mapEwsItem db place itemId changeKey).2 place itemId = some uid := by
  cases hknown : uidForEwsItem db place itemId with
  | some uid =>
    refine ⟨uid, ?_, ?_⟩
    · obtain ⟨item, hitem, rfl⟩ := Option.map_eq_some_iff.mp hknown
      unfold mapEwsItem
      rw [hitem]
    · obtain ⟨u, hu, hcut⟩ := uidForEwsItem_iff.mp hknown
      have hstep : ExchangeUids.step db (.mapEwsItem place itemId changeKey) = some (mapEwsItem db place itemId changeKey).2 := rfl
      exact uidForEwsItem_iff.mpr ⟨u, maps_kept hstep (by simp) hu, hcut⟩
  | none =>
    cases @does_map db place place itemId changeKey with
    | quiet _ _ hold => exact absurd hknown (hold itemId changeKey rfl)
    | took _ _ hmaps hanswer =>
      exact ⟨_, hanswer, uidForEwsItem_iff.mpr ⟨_, (hmaps _ _).mpr (.inr ⟨rfl, rfl⟩), rfl⟩⟩
    | failed hclash _ =>
      obtain ⟨a, ha⟩ := hclash
      have := h.used ha
      omega

end Runs

/-- **Uids stay.**  In a folder that had no state, a run whose new items all find room leaves a sound mapping; no uid was handed
out twice, and each is one of these; a call answers with the uid of its item, which the item keeps until it is forgotten. -/
theorem uids_stable {db t : Db} {place : Place} {handed : List (Str × Nat)} {ops : List Op} (hnew : WithoutState db place)
    (hroom : AllSteps (watched step (hands place)) (fun x op => Room place x.1 op) (db, []) ops)
    (hrun : run (watched step (hands place)) (db, []) ops = some (t, handed)) : Sound t place ∧ (handed.map Prod.snd).Nodup ∧
      (∀ itemId uid, uidForEwsItem t place itemId = some uid → (itemId, uid) ∈ handed) ∧
      (∀ itemId changeKey, ∃ uid, (mapEwsItem t place itemId changeKey).1 = some uid ∧
        uidForEwsItem (mapEwsItem t place itemId changeKey).2 place itemId = some uid) ∧
      ∀ later u, run step t later = some u → ∀ itemId uid, (∀ op ∈ later, op ≠ .forgetEwsItem place itemId) →
        uidForEwsItem t place itemId = some uid → uidForEwsItem u place itemId = some uid := by
  have hinv := inv_run hnew hroom hrun
  refine ⟨hinv.sound, hinv.once, fun itemId uid huid => ?_, hinv.answer, fun later u hlater itemId uid hkeep huid => ?_⟩
  · obtain ⟨n, hn, rfl⟩ := uidForEwsItem_iff.mp huid
    exact hinv.listed hn
  · exact uid_kept hlater hkeep huid

/-! ## Past the last uid -/

def inbox : Place := ⟨"me", "INBOX"⟩

def noRows : Db := ⟨[], .empty⟩

/-- A counter left `NULL` by another column, a uid that was forgotten, and a second one for the same item. -/
theorem uids_stable_forgotten : ∃ t handed, run (watched step (hands inbox)) (noRows, [])
      [.setFolderSyncState inbox "s", .mapEwsItem inbox "a" none, .mapEwsItem inbox "b" none,
        .forgetEwsItem inbox "a", .setFolderModseq inbox 7, .mapEwsItem inbox "a" none] = some (t, handed) ∧
    Sound t inbox ∧ (handed.map Prod.snd).Nodup :=
  have hnew : WithoutState noRows inbox := ⟨rfl, fun _ h => absurd h not_mem_nil⟩
  have hroom : AllSteps (watched step (hands inbox)) (fun x op => Room inbox x.1 op) (noRows, [])
      [.setFolderSyncState inbox "s", .mapEwsItem inbox "a" none, .mapEwsItem inbox "b" none,
        .forgetEwsItem inbox "a", .setFolderModseq inbox 7, .mapEwsItem inbox "a" none] := by decide +kernel
  ⟨_, _, rfl, (uids_stable hnew hroom rfl).1, (uids_stable hnew hroom rfl).2.1⟩

/-- Another item, mapped and forgotten. -/
def oneRound : List Op := [.mapEwsItem inbox "b" none, .forgetEwsItem inbox "b"]

/-- One item is mapped, to 1. -/
structure OnlyFirst (db : Db) (next : Int) : Prop where
  next_eq : counter inbox db.states = next
  maps : ∀ itemId u, Maps db inbox itemId u ↔ itemId = "a" ∧ u = 1

/-- A second item takes the next number. -/
theorem OnlyFirst.takes {db : Db} {next : Int} (h : OnlyFirst db next) (hnext : next ≠ 1) {itemId : Str} (hid : itemId ≠ "a") :
    counter inbox (mapEwsItem db inbox itemId none).2.states = next + 1 ∧
      ∀ x u, Maps (mapEwsItem db inbox itemId none).2 inbox x u ↔ (x = "a" ∧ u = 1) ∨ x = itemId ∧ u = next := by
  cases @does_map db inbox inbox itemId none with
  | quiet _ _ hold =>
    refine absurd (uidForEwsItem_eq_none.mpr fun u hu => ?_) (hold itemId none rfl)
    exact hid ((h.maps itemId u).mp hu).1
  | took _ hcounter hmaps _ =>
    rw [hcounter, h.next_eq]
    refine ⟨rfl, fun x u => ?_⟩
    rw [hmaps, h.maps, h.next_eq]
  | failed hclash _ =>
    obtain ⟨x, hx⟩ := hclash
    rw [h.next_eq] at hx
    exact absurd ((h.maps x next).mp hx).2 hnext

theorem OnlyFirst.round {db : Db} {next : Int} (h : OnlyFirst db next) (hnext : next ≠ 1) :
    ∃ t, run step db oneRound = some t ∧ OnlyFirst t (next + 1) := by
  obtain ⟨hcounter, hmaps⟩ := @OnlyFirst.takes _ _ h hnext "b" (by decide)
  refine ⟨_, rfl, hcounter, fun x u => ?_⟩
  rw [maps_delete, hmaps]
  constructor
  · rintro ⟨hname, hfirst | ⟨rfl, -⟩⟩
    · exact hfirst
    · exact absurd rfl hname
  · rintro ⟨rfl, rfl⟩
    exact ⟨by decide, .inl ⟨rfl, rfl⟩⟩

theorem OnlyFirst.rounds : ∀ (k : Nat) {db : Db} {next : Int}, OnlyFirst db next → 1 < next →
    ∃ t, run step db (List.replicate k oneRound).flatten = some t ∧ OnlyFirst t (next + k)
  | 0, db, _, h, _ => ⟨db, rfl, by simpa using h⟩
  | k + 1, db, next, h, hnext => by
    obtain ⟨s, hs, hround⟩ := h.round (by omega)
    obtain ⟨t, ht, hrest⟩ := OnlyFirst.rounds k hround (by omega)
    refine ⟨t, ?_, ?_⟩
    · rw [replicate_succ, flatten_cons, run_append hs]
      exact ht
    · have hsum : next + 1 + (k : Int) = next + ((k + 1 : Nat) : Int) := by omega
      rw [← hsum]
      exact hrest

theorem uid_after_rounds (k : Nat) : ∃ t, run step noRows (.mapEwsItem inbox "a" none :: ((List.replicate k oneRound).flatten ++
      [.mapEwsItem inbox "c" none])) = some t ∧
    uidForEwsItem t inbox "a" = some 1 ∧ uidForEwsItem t inbox "c" = some (asU32 (2 + k)) := by
  have hfirst : OnlyFirst (mapEwsItem noRows inbox "a" none).2 2 := by
    refine ⟨rfl, fun x u => ?_⟩
    constructor
    · rintro ⟨item, hitem, -, rfl, rfl⟩
      rw [mem_singleton.mp hitem]
      exact ⟨rfl, rfl⟩
    · rintro ⟨rfl, rfl⟩
      exact ⟨_, mem_singleton.mpr rfl, rfl, rfl, rfl⟩
  obtain ⟨s, hs, hrounds⟩ := hfirst.rounds k (by omega)
  obtain ⟨-, hmaps⟩ := @OnlyFirst.takes _ _ hrounds (by omega) "c" (by decide)
  refine ⟨(mapEwsItem s inbox "c" none).2, ?_, ?_, ?_⟩
  · show run step (mapEwsItem noRows inbox "a" none).2 _ = _
    rw [run_append hs]
    rfl
  · exact uidForEwsItem_iff.mpr ⟨1, (hmaps _ _).mpr (.inl ⟨rfl, rfl⟩), rfl⟩
  · exact uidForEwsItem_iff.mpr ⟨_, (hmaps _ _).mpr (.inr ⟨rfl, rfl⟩), rfl⟩

/-- **The uid of another item.**  One item is mapped to 1 and kept; after 2^32 uids the next item is mapped to 1, too. -/
theorem uid_reused : ∃ t, run step noRows (.mapEwsItem inbox "a" none :: ((List.replicate (2 ^ 32 - 1) oneRound).flatten ++
      [.mapEwsItem inbox "c" none])) = some t ∧ uidForEwsItem t inbox "a" = some 1 ∧ uidForEwsItem t inbox "c" = some 1 := by
  obtain ⟨t, hrun, hfirst, hsecond⟩ := uid_after_rounds (2 ^ 32 - 1)
  have hcut : asU32 (2 + ((2 ^ 32 - 1 : Nat) : Int)) = 1 := by decide
  exact ⟨t, hrun, hfirst, hsecond.trans (congrArg some hcut)⟩

end Oreneta.Store.ExchangeUids

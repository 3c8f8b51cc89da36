import Oreneta.Graph.Sync
import Oreneta.Lib.Log

/-!
# What a finished round leaves in a folder

`project_round` writes three tables.  Of them three things matter: the number of an item (`Db.uidOf`), which items
a folder has (`Db.Member`) and which messages are cached (`Db.IsCached`).

* `Sound` — numbers are given once, members are items, and the cached messages of a folder are its members.
* `removeMembership_spec`, `projectItem_spec` — what one staged row does to the three.
* `Projects` — the same for any number of rows: what is said last of an item decides whether it is a member.
* `projectRound_spec` — a round's rows decide for their items; an item without one stays, or goes if the round is
  full.
-/

namespace Oreneta.Graph

open Text Table List

namespace Db

def uidOf (db : Db) (id : Str) : Option Nat := (db.item id).map Item.uid

def Member (db : Db) (folderId id : Str) : Prop := ⟨folderId, id⟩ ∈ db.memberships

def IsCached (db : Db) (folder : Str) (uid : Nat) : Prop := (folder, uid) ∈ db.messages.map Cached.key

instance (db : Db) (folderId id : Str) : Decidable (db.Member folderId id) :=
  inferInstanceAs (Decidable ((⟨folderId, id⟩ : Membership) ∈ db.memberships))

instance (db : Db) (folder : Str) (uid : Nat) : Decidable (db.IsCached folder uid) :=
  inferInstanceAs (Decidable ((folder, uid) ∈ db.messages.map Cached.key))

end Db

structure Sound (db : Db) : Prop where
  folders : Keyed Folder.remoteId db.folders
  names : ∀ f ∈ db.folders, ∀ g ∈ db.folders, f.active = true → g.active = true → f.localName = g.localName → f = g
  items : Keyed Item.remoteId db.items
  uids : Keyed Item.uid db.items
  known : ∀ folderId id, db.Member folderId id → ∃ uid, db.uidOf id = some uid
  staged : Keyed Staged.key db.staged
  cached : ∀ f ∈ db.folders, f.active = true → ∀ uid,
    (db.IsCached f.localName uid ↔ ∃ id, db.uidOf id = some uid ∧ db.Member f.remoteId id)

/-- Only the tables that a round is projected into differ. -/
def Frame (db after : Db) : Prop :=
  after = { db with items := after.items, memberships := after.memberships, messages := after.messages }

theorem Frame.refl (db : Db) : Frame db db := rfl

theorem Frame.trans {a b c : Db} (hab : Frame a b) (hbc : Frame b c) : Frame a c := by
  unfold Frame at *
  rw [hbc, hab]

namespace Sound

variable {db : Db}

/-- A number belongs to one item. -/
theorem uidOf_inj (h : Sound db) {a b : Str} {uid : Nat} (ha : db.uidOf a = some uid) (hb : db.uidOf b = some uid) : a = b := by
  obtain ⟨i, hi, hiu⟩ := Option.map_eq_some_iff.mp ha
  obtain ⟨j, hj, hju⟩ := Option.map_eq_some_iff.mp hb
  obtain ⟨himem, hia⟩ := lookup_some hi
  obtain ⟨hjmem, hjb⟩ := lookup_some hj
  have hij : i = j := inj_on_of_nodup_map h.uids himem hjmem (hiu.trans hju.symm)
  rw [← hia, ← hjb, hij]

/-- An active folder is known by either of its names. -/
theorem name_iff (h : Sound db) {f g : Folder} (hf : f ∈ db.folders) (hg : g ∈ db.folders) (hfa : f.active = true)
    (hga : g.active = true) : g.localName = f.localName ↔ g.remoteId = f.remoteId := by
  constructor
  · intro hn
    rw [h.names g hg f hf hga hfa hn]
  · intro hr
    rw [inj_on_of_nodup_map h.folders hg hf hr]

end Sound

/-! ## One membership less -/

section Remove

variable {db : Db} {folderId folder id : Str}

theorem removeMembership_frame : Frame db (db.removeMembership folderId folder id) := rfl

theorem member_removeMembership (g x : Str) : (db.removeMembership folderId folder id).Member g x ↔
    db.Member g x ∧ ¬ (g = folderId ∧ x = id) := by
  unfold Db.Member Db.removeMembership
  rw [mem_filter, decide_eq_true_eq, ne_eq, Membership.mk.injEq]

theorem isCached_removeMembership (g : Str) (uid : Nat) : (db.removeMembership folderId folder id).IsCached g uid ↔
      db.IsCached g uid ∧ ¬ (g = folder ∧ db.uidOf id = some uid) := by
  unfold Db.IsCached Db.removeMembership
  simp only [mem_map, mem_filter]
  constructor
  · rintro ⟨m, ⟨hm, hp⟩, hk⟩
    refine ⟨⟨m, hm, hk⟩, ?_⟩
    rintro ⟨rfl, hu⟩
    obtain ⟨rfl, rfl⟩ := Prod.mk.inj hk
    unfold Db.uidOf at hu
    simp [hu] at hp
  · rintro ⟨⟨m, hm, hk⟩, hn⟩
    obtain ⟨rfl, rfl⟩ := Prod.mk.inj hk
    refine ⟨m, ⟨hm, ?_⟩, rfl⟩
    unfold Db.uidOf at hn
    rw [Bool.not_eq_true', Bool.and_eq_false_iff, decide_eq_false_iff_not, beq_eq_false_iff_ne]
    exact not_and_or.mp hn

theorem Sound.removeMembership (h : Sound db) {f : Folder} (hf : f ∈ db.folders) (hfa : f.active = true) (id : Str) :
    Sound (db.removeMembership f.remoteId f.localName id) where
  folders := h.folders
  names := h.names
  items := h.items
  uids := h.uids
  staged := h.staged
  known g x hx := h.known g x ((member_removeMembership g x).mp hx).1
  cached g hg hga uid := by
    rw [isCached_removeMembership, h.cached g hg hga uid, h.name_iff hf hg hfa hga]
    constructor
    · rintro ⟨⟨x, hu, hm⟩, hn⟩
      refine ⟨x, hu, (member_removeMembership _ _).mpr ⟨hm, ?_⟩⟩
      rintro ⟨hgf, rfl⟩
      exact hn ⟨hgf, hu⟩
    · rintro ⟨x, hu, hm⟩
      obtain ⟨hm, hn⟩ := (member_removeMembership _ _).mp hm
      refine ⟨⟨x, hu, hm⟩, ?_⟩
      rintro ⟨hgf, hid⟩
      exact hn ⟨hgf, h.uidOf_inj hu hid⟩

end Remove

/-! ## One item shown -/

section Item

variable {C : Client} {db after : Db} {folderId folder : Str} {s : Staged}

theorem le_foldr_max {n : Nat} : ∀ {l : List Nat}, n ∈ l → n ≤ l.foldr max 0
  | m :: l, h => by
    rcases mem_cons.mp h with rfl | h
    · exact le_max_left _ _
    · exact le_trans (le_foldr_max h) (le_max_right _ _)

theorem nextUid_fresh {i : Item} (hi : i ∈ db.items) : i.uid ≠ db.nextUid := by
  have : i.uid ≤ (db.items.map Item.uid).foldr max 0 := le_foldr_max (mem_map.mpr ⟨i, hi, rfl⟩)
  unfold Db.nextUid
  omega

variable {uid : Nat}

/-- The number an item is shown under is its own, or nobody's. -/
theorem uidFor_spec {id : Str} (h : db.uidFor id = .ok uid) :
    db.uidOf id = some uid ∨ db.item id = none ∧ ∀ i ∈ db.items, i.uid ≠ uid := by
  unfold Db.uidFor at h
  split at h
  · rename_i i hi
    cases h
    exact .inl (by rw [Db.uidOf, hi]; rfl)
  · rename_i hi
    unfold Db.capacity at h
    split at h
    · cases h
      exact .inr ⟨hi, fun i hi => nextUid_fresh hi⟩
    · cases h

/-- What `projectItem` makes of the row of a message keeps its key. -/
theorem keys_updateMessage {f : Cached → Cached} (hf : ∀ m, (f m).key = m.key) :
    (db.updateMessage folder uid f).messages.map Cached.key = db.messages.map Cached.key :=
  keys_update hf

theorem isCached_updateMessage {f : Cached → Cached} (hf : ∀ m, (f m).key = m.key) (g : Str) (u : Nat) :
    (db.updateMessage folder uid f).IsCached g u ↔ db.IsCached g u := by
  unfold Db.IsCached
  rw [keys_updateMessage hf]

theorem isCached_upsertMessage {h : Header} (g : Str) (u : Nat) :
    (db.upsertMessage folder h).IsCached g u ↔ (g = folder ∧ u = h.uid) ∨ db.IsCached g u := by
  unfold Db.IsCached Db.upsertMessage
  rw [mem_keys_upsert (f := Db.updatedMessage h) fun _ => rfl]
  show (g, u) = (folder, h.uid) ∨ _ ↔ _
  rw [Prod.mk.injEq]

/-- The tables an item is written to, whatever becomes of the columns of its message. -/
structure Shown (folderId folder id : Str) (uid : Nat) (fields : Fields) (db after : Db) : Prop where
  frame : Frame db after
  items : after.items = (db.putItem ⟨id, uid, fields⟩).items
  memberships : after.memberships = (db.putMembership ⟨folderId, id⟩).memberships
  cached : ∀ g u, after.IsCached g u ↔ (g = folder ∧ u = uid) ∨ db.IsCached g u

variable {fields : Fields}

theorem Shown.updateMessage {id : Str} {u : Nat} {f : Cached → Cached} {name : Str}
    (h : Shown folderId folder id uid fields db after) (hf : ∀ m, (f m).key = m.key) :
    Shown folderId folder id uid fields db (after.updateMessage name u f) where
  frame := h.frame.trans rfl
  items := h.items
  memberships := h.memberships
  cached g v := by rw [isCached_updateMessage hf, h.cached]

theorem shown_of_upsert {id : Str} {h : Header} (hu : h.uid = uid) : Shown folderId folder id uid fields db
      (((db.putItem ⟨id, uid, fields⟩).putMembership ⟨folderId, id⟩).upsertMessage folder h) where
  frame := rfl
  items := rfl
  memberships := rfl
  cached g u := by
    rw [isCached_upsertMessage, hu]
    exact Iff.rfl

theorem projectItem_shown (h : Db.projectItem C folderId folder s db = .ok after) :
    ∃ uid, db.uidFor s.remoteId = .ok uid ∧ Shown folderId folder s.remoteId uid s.fields db after := by
  unfold Db.projectItem at h
  obtain ⟨uid, hu, h⟩ := bind_ok.mp h
  obtain ⟨head, hh, h⟩ := bind_ok.mp h
  refine ⟨uid, hu, ?_⟩
  have hlists : Shown folderId folder s.remoteId uid s.fields db
      ((((db.putItem ⟨s.remoteId, uid, s.fields⟩).putMembership ⟨folderId, s.remoteId⟩).upsertMessage folder
        head).updateMessage folder uid (Db.writeLists head)) :=
    (shown_of_upsert (header_uid hh)).updateMessage (f := Db.writeLists head) fun _ => rfl
  -- an older body is dropped, and the one that came is written
  have hfresh : Shown folderId folder s.remoteId uid s.fields db
      (if Db.bodyStale (db.item s.remoteId) s.fields then Db.updateMessage folder uid Db.dropBody
        ((((db.putItem ⟨s.remoteId, uid, s.fields⟩).putMembership ⟨folderId, s.remoteId⟩).upsertMessage folder
          head).updateMessage folder uid (Db.writeLists head))
        else (((db.putItem ⟨s.remoteId, uid, s.fields⟩).putMembership ⟨folderId, s.remoteId⟩).upsertMessage folder
          head).updateMessage folder uid (Db.writeLists head)) := by
    split
    · exact hlists.updateMessage fun _ => rfl
    · exact hlists
  dsimp only at h
  split at h
  · obtain ⟨parsed, -, h⟩ := bind_ok.mp h
    cases h
    exact hfresh.updateMessage fun _ => rfl
  · cases h
    exact hfresh

theorem Shown.uidOf {id : Str} (h : Shown folderId folder id uid fields db after)
    (hu : db.uidFor id = .ok uid) (x : Str) : after.uidOf x = if x = id then some uid else db.uidOf x := by
  have hlookup : after.item x = if x = id then some ((db.item x).elim ⟨id, uid, fields⟩ fun old => { old with fields := fields })
      else db.item x := by
    unfold Db.item
    rw [h.items]
    exact lookup_upsert fun _ => rfl
  unfold Db.uidOf
  rw [hlookup]
  by_cases hx : x = id
  · subst hx
    rw [if_pos rfl, if_pos rfl]
    rcases uidFor_spec hu with hold | ⟨hnone, -⟩
    · obtain ⟨i, hi, hiu⟩ := Option.map_eq_some_iff.mp hold
      rw [hi, ← hiu]
      rfl
    · rw [hnone]
      rfl
  · rw [if_neg hx, if_neg hx]

theorem Shown.member {id : Str} (h : Shown folderId folder id uid fields db after)
    (g x : Str) : after.Member g x ↔ (g = folderId ∧ x = id) ∨ db.Member g x := by
  unfold Db.Member
  rw [h.memberships]
  unfold Db.putMembership
  by_cases hmem : (⟨folderId, id⟩ : Membership) ∈ db.memberships
  · rw [if_pos hmem]
    constructor
    · exact .inr
    · rintro (⟨rfl, rfl⟩ | hx)
      · exact hmem
      · exact hx
  · rw [if_neg hmem, mem_append, mem_singleton, Membership.mk.injEq]
    exact or_comm

/-- Numbers that are given are kept. -/
theorem Shown.keeps {id : Str} (h : Shown folderId folder id uid fields db after)
    (hu : db.uidFor id = .ok uid) {x : Str} {u : Nat} (hx : db.uidOf x = some u) : after.uidOf x = some u := by
  rw [h.uidOf hu]
  split
  · rename_i hxid
    subst hxid
    rcases uidFor_spec hu with hold | ⟨hnone, -⟩
    · rw [← hold, hx]
    · rw [Db.uidOf, hnone] at hx
      cases hx
  · exact hx

theorem uids_putItem (hs : Keyed Item.uid db.items) {id : Str}
    (hu : db.uidFor id = .ok uid) : Keyed Item.uid (db.putItem ⟨id, uid, fields⟩).items := by
  unfold Db.putItem Table.upsert
  dsimp only
  split
  · exact hs.update fun _ => rfl
  · rename_i hnew
    rcases uidFor_spec hu with hold | ⟨-, hfresh⟩
    · obtain ⟨i, hi, -⟩ := Option.map_eq_some_iff.mp hold
      unfold Db.item at hi
      rw [hi] at hnew
      exact absurd rfl hnew
    · apply hs.append (by simp [Keyed])
      intro a ha b hb
      rw [mem_singleton.mp hb]
      exact hfresh a ha

theorem Sound.shown (hs : Sound db) {f : Folder} (hf : f ∈ db.folders) (hfa : f.active = true) {id : Str} (hu : db.uidFor id = .ok uid) (h : Shown f.remoteId f.localName id uid fields db after) :
    Sound after := by
  have hframe := h.frame
  unfold Frame at hframe
  have hfolders : after.folders = db.folders := by rw [hframe]
  have hstaged : after.staged = db.staged := by rw [hframe]
  refine ⟨?_, ?_, ?_, ?_, ?_, ?_, ?_⟩
  · rw [hfolders]
    exact hs.folders
  · rw [hfolders]
    exact hs.names
  · rw [h.items]
    exact hs.items.upsert fun _ => rfl
  · rw [h.items]
    exact uids_putItem hs.uids hu
  · intro g x hx
    rcases (h.member g x).mp hx with ⟨-, rfl⟩ | hx
    · exact ⟨uid, by rw [h.uidOf hu, if_pos rfl]⟩
    · obtain ⟨u, hxu⟩ := hs.known g x hx
      exact ⟨u, h.keeps hu hxu⟩
  · rw [hstaged]
    exact hs.staged
  · intro g hg hga u
    rw [hfolders] at hg
    rw [h.cached, hs.cached g hg hga u, hs.name_iff hf hg hfa hga]
    constructor
    · rintro (⟨hgf, rfl⟩ | ⟨x, hxu, hm⟩)
      · exact ⟨id, by rw [h.uidOf hu, if_pos rfl], (h.member _ _).mpr (.inl ⟨hgf, rfl⟩)⟩
      · exact ⟨x, h.keeps hu hxu, (h.member _ _).mpr (.inr hm)⟩
    · rintro ⟨x, hxu, hm⟩
      rw [h.uidOf hu] at hxu
      rcases (h.member _ _).mp hm with ⟨hgf, rfl⟩ | hm
      · rw [if_pos rfl] at hxu
        exact .inl ⟨hgf, (Option.some.inj hxu).symm⟩
      · by_cases hx : x = id
        · -- a member of its own already has the number
          subst hx
          rw [if_pos rfl] at hxu
          obtain ⟨v, hv⟩ := hs.known _ _ hm
          have hkeep := h.keeps hu hv
          rw [h.uidOf hu, if_pos rfl] at hkeep
          exact .inr ⟨x, by rw [hv, ← hkeep, hxu], hm⟩
        · rw [if_neg hx] at hxu
          exact .inr ⟨x, hxu, hm⟩

end Item

/-! ## The rows of a round -/

/-- What is said of items, removed or not, has become true of the folder, and of no other. -/
structure Projects (f : Folder) (said : Str → Option Bool) (db after : Db) : Prop where
  sound : Sound after
  frame : Frame db after
  keeps : ∀ x uid, db.uidOf x = some uid → after.uidOf x = some uid
  elsewhere : ∀ g x, g ≠ f.remoteId → (after.Member g x ↔ db.Member g x)
  member : ∀ x, after.Member f.remoteId x ↔ (said x).elim (db.Member f.remoteId x) (fun removed => removed = false)

section Round

variable {C : Client} {db mid after : Db} {f : Folder}

theorem Projects.refl (h : Sound db) : Projects f (fun _ => none) db db where
  sound := h
  frame := Frame.refl db
  keeps _ _ hx := hx
  elsewhere _ _ _ := Iff.rfl
  member _ := Iff.rfl

/-- What is said later overrides. -/
theorem Projects.trans {first second : Str → Option Bool} (h : Projects f first db mid)
    (h' : Projects f second mid after) : Projects f (fun x => (second x).or (first x)) db after where
  sound := h'.sound
  frame := h.frame.trans h'.frame
  keeps x uid hx := h'.keeps x uid (h.keeps x uid hx)
  elsewhere g x hg := (h'.elsewhere g x hg).trans (h.elsewhere g x hg)
  member x := by
    rw [h'.member]
    cases second x with
    | none => exact h.member x
    | some removed => exact Iff.rfl

theorem Projects.of_removeMembership (h : Sound db) (hf : f ∈ db.folders) (hfa : f.active = true) (id : Str) :
    Projects f (fun x => if id = x then some true else none) db (db.removeMembership f.remoteId f.localName id) where
  sound := h.removeMembership hf hfa id
  frame := removeMembership_frame
  keeps _ _ hx := hx
  elsewhere g x hg := by
    rw [member_removeMembership]
    exact ⟨And.left, fun hm => ⟨hm, fun hn => hg hn.1⟩⟩
  member x := by
    rw [member_removeMembership]
    by_cases hx : id = x
    · simp [hx]
    · have hx' : ¬ x = id := fun h => hx h.symm
      simp [hx, hx']

theorem Projects.of_shown (h : Sound db) (hf : f ∈ db.folders) (hfa : f.active = true) {id : Str} {uid : Nat}
    {fields : Fields} (hu : db.uidFor id = .ok uid) (hs : Shown f.remoteId f.localName id uid fields db after) :
    Projects f (fun x => if id = x then some false else none) db after where
  sound := h.shown hf hfa hu hs
  frame := hs.frame
  keeps _ _ hx := hs.keeps hu hx
  elsewhere g x hg := by
    rw [hs.member]
    exact ⟨fun hm => hm.resolve_left fun hn => hg hn.1, .inr⟩
  member x := by
    rw [hs.member]
    by_cases hx : id = x
    · simp [hx]
    · have hx' : ¬ x = id := fun h => hx h.symm
      simp [hx, hx']

theorem projectStaged_spec (h : Sound db) (hf : f ∈ db.folders) (hfa : f.active = true) {s : Staged}
    (hp : Db.projectStaged C f.remoteId f.localName db s = .ok after) :
    Projects f (fun x => if s.remoteId = x then some s.removed else none) db after := by
  unfold Db.projectStaged at hp
  split at hp
  · rename_i hr
    cases hp
    rw [hr]
    exact Projects.of_removeMembership h hf hfa s.remoteId
  · rename_i hr
    obtain ⟨uid, hu, hs⟩ := projectItem_shown hp
    rw [Bool.not_eq_true] at hr
    rw [hr]
    exact Projects.of_shown h hf hfa hu hs

theorem Frame.folders (h : Frame db after) : after.folders = db.folders := by
  unfold Frame at h
  rw [h]

theorem Frame.staged (h : Frame db after) : after.staged = db.staged := by
  unfold Frame at h
  rw [h]

theorem foldl_removeMembership (hfa : f.active = true) : ∀ {l : List Membership} {db : Db}, Sound db → f ∈ db.folders →
      Projects f (Log.last (l.map (fun m => (m.remoteId, true)))) db
        (l.foldl (fun d m => d.removeMembership f.remoteId f.localName m.remoteId) db)
  | [], _, h, _ => Projects.refl h
  | m :: l, db, h, hf => by
    have hone := Projects.of_removeMembership h hf hfa m.remoteId
    have hrest := foldl_removeMembership hfa (l := l) hone.sound (by rw [hone.frame.folders]; exact hf)
    exact hone.trans hrest

theorem foldlM_projectStaged (hfa : f.active = true) : ∀ {l : List Staged} {db : Db}, Sound db → f ∈ db.folders →
    l.foldlM (Db.projectStaged C f.remoteId f.localName) db = .ok after →
      Projects f (Log.last (l.map (fun s => (s.remoteId, s.removed)))) db after
  | [], _, h, _, hp => by
    cases hp
    exact Projects.refl h
  | s :: l, db, h, hf, hp => by
    rw [foldlM_cons] at hp
    obtain ⟨mid, hs, hp⟩ := bind_ok.mp hp
    have hone := projectStaged_spec h hf hfa hs
    have hrest := foldlM_projectStaged hfa hone.sound (by rw [hone.frame.folders]; exact hf) hp
    exact hone.trans hrest

/-! ### The rows as a log -/

theorem mem_stagedOf {folderId : Str} {s : Staged} : s ∈ db.stagedOf folderId ↔ s ∈ db.staged ∧ s.folderId = folderId := by
  unfold Db.stagedOf
  rw [(perm_insertionSort _ _).mem_iff, mem_filter, decide_eq_true_eq]

theorem keyed_stagedOf (h : Keyed Staged.key db.staged) (folderId : Str) : Keyed Staged.remoteId (db.stagedOf folderId) := by
  have hfilter : Keyed Staged.key (db.staged.filter fun s => decide (s.folderId = folderId)) := h.filter _
  have hsorted : (db.stagedOf folderId).Perm (db.staged.filter fun s => decide (s.folderId = folderId)) :=
    perm_insertionSort _ _
  have hnodup : ((db.stagedOf folderId).map Staged.key).Nodup := (hsorted.map Staged.key).nodup_iff.mpr hfilter
  unfold Keyed
  rw [nodup_map_iff_inj_on hnodup.of_map]
  intro a ha b hb hab
  apply inj_on_of_nodup_map hnodup ha hb
  unfold Staged.key
  rw [(mem_stagedOf.mp ha).2, (mem_stagedOf.mp hb).2, hab]

/-- What is staged of an item is what the sorted rows say of it. -/
theorem last_stagedOf (h : Keyed Staged.key db.staged) (folderId x : Str) :
    Log.last ((db.stagedOf folderId).map (fun s => (s.remoteId, s.removed))) x =
      (db.stagedItem folderId x).map Staged.removed := by
  unfold Db.stagedItem
  cases hl : Table.lookup Staged.key db.staged (folderId, x) with
  | none =>
    rw [Option.map_none, Log.last_eq_none]
    intro e he hx
    obtain ⟨s, hs, rfl⟩ := mem_map.mp he
    obtain ⟨hs, hsf⟩ := mem_stagedOf.mp hs
    exact lookup_eq_none.mp hl s hs (Prod.ext hsf hx)
  | some s =>
    obtain ⟨hs, hk⟩ := lookup_some hl
    obtain ⟨hsf, rfl⟩ := Prod.mk.inj hk
    exact Log.last_of_keyed (keyed_stagedOf h folderId) (mem_stagedOf.mpr ⟨hs, hsf⟩)

theorem mem_missing {folderId : Str} (h : Keyed Staged.key db.staged) {x : Str} :
    (⟨folderId, x⟩ : Membership) ∈ db.missing folderId ↔
      db.Member folderId x ∧ (db.stagedItem folderId x).map Staged.removed ≠ some false := by
  unfold Db.missing Db.Member Db.stagedItem
  rw [mem_filter]
  refine and_congr_right fun _ => ?_
  simp only [decide_true, Bool.true_and, Bool.not_eq_true', any_eq_false, Bool.and_eq_true, decide_eq_true_eq,
    Bool.not_eq_true', not_and, Bool.not_eq_false]
  constructor
  · intro hall hl
    obtain ⟨s, hl, hr⟩ := Option.map_eq_some_iff.mp hl
    obtain ⟨hs, hk⟩ := lookup_some hl
    rw [hall s hs hk] at hr
    cases hr
  · intro hne s hs hk
    by_contra hr
    rw [Bool.not_eq_true] at hr
    apply hne
    rw [← hk, h.lookup_of_mem hs, Option.map_some, hr]

theorem dropMissing_spec (h : Sound db) (hf : f ∈ db.folders) (hfa : f.active = true) (full : Bool) :
    Projects f (fun x => if full = true ∧ db.Member f.remoteId x ∧
        (db.stagedItem f.remoteId x).map Staged.removed ≠ some false then some true else none) db
      (db.dropMissing f.remoteId f.localName full) := by
  unfold Db.dropMissing
  split
  · rename_i hfull
    have hall := foldl_removeMembership hfa (l := db.missing f.remoteId) h hf
    have hsaid : Log.last ((db.missing f.remoteId).map fun m => (m.remoteId, true)) = fun x =>
        if full = true ∧ db.Member f.remoteId x ∧
          (db.stagedItem f.remoteId x).map Staged.removed ≠ some false then some true else none := by
      funext x
      split
      · rename_i hx
        cases hl : Log.last ((db.missing f.remoteId).map fun m => (m.remoteId, true)) x with
        | none => exact absurd rfl (Log.last_eq_none.mp hl _ (mem_map.mpr ⟨_, (mem_missing h.staged).mpr hx.2, rfl⟩))
        | some v =>
          obtain ⟨m, -, he⟩ := mem_map.mp (Log.last_mem hl)
          rw [← (Prod.mk.inj he).2]
      · rename_i hx
        rw [Log.last_eq_none]
        intro e he hxe
        obtain ⟨m, hm, rfl⟩ := mem_map.mp he
        have hmf : m.folderId = f.remoteId := by
          have := of_mem_filter hm
          simp only [Bool.and_eq_true, decide_eq_true_eq] at this
          exact this.1
        have hmx : m = ⟨f.remoteId, x⟩ := by
          cases m
          simp only [Membership.mk.injEq]
          exact ⟨hmf, hxe⟩
        rw [hmx] at hm
        exact hx ⟨hfull, (mem_missing h.staged).mp hm⟩
    rw [hsaid] at hall
    exact hall
  · rename_i hfull
    have hnone : (fun x => if full = true ∧ db.Member f.remoteId x ∧
        (db.stagedItem f.remoteId x).map Staged.removed ≠ some false then some true else none) =
        fun _ : Str => (none : Option Bool) := by
      funext x
      rw [if_neg fun hx => hfull hx.1]
    rw [hnone]
    exact Projects.refl h

/-- **A finished round.** What is staged of an item decides; nothing staged means that it is gone if the round is
full, and as it was if not. -/
theorem projectRound_spec (h : Sound db) (hf : f ∈ db.folders) (hfa : f.active = true) {full : Bool}
    (hp : db.projectRound C f.remoteId f.localName full = .ok after) :
    Sound after ∧ Frame db after ∧ (∀ x uid, db.uidOf x = some uid → after.uidOf x = some uid) ∧
      (∀ g x, g ≠ f.remoteId → (after.Member g x ↔ db.Member g x)) ∧
        ∀ x, after.Member f.remoteId x ↔ ((db.stagedItem f.remoteId x).map Staged.removed).elim
          (full = false ∧ db.Member f.remoteId x) (fun removed => removed = false) := by
  unfold Db.projectRound at hp
  have hkept := dropMissing_spec h hf hfa full
  obtain ⟨projected, hfold, hp⟩ := bind_ok.mp hp
  obtain ⟨_, -, hp⟩ := bind_ok.mp hp
  cases hp
  have hrows := foldlM_projectStaged hfa hkept.sound (by rw [hkept.frame.folders]; exact hf) hfold
  have hboth := hkept.trans hrows
  refine ⟨hboth.sound, hboth.frame, hboth.keeps, hboth.elsewhere, fun x => ?_⟩
  have hstaged : (db.dropMissing f.remoteId f.localName full).stagedItem f.remoteId x = db.stagedItem f.remoteId x := by
    unfold Db.stagedItem
    rw [hkept.frame.staged]
  rw [hboth.member, last_stagedOf hkept.sound.staged, hstaged]
  cases hs : (db.stagedItem f.remoteId x).map Staged.removed with
  | some removed => exact Iff.rfl
  | none =>
    rw [Option.none_or]
    by_cases hmem : db.Member f.remoteId x
    · cases full <;> simp [hmem]
    · simp [hmem]

end Round

end Oreneta.Graph

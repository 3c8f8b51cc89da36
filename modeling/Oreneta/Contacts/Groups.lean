import Oreneta.Contacts.Person
import Oreneta.Lib.ByteSlices

/-!
# Groups

`contacts/groups.rs`: a group of a card's properties.  The members are named by their UIDs.

* `memberUid` — the UID a value names; nothing where the program panics (`memberUid_panics`).
* `memberUid_memberValue` — what a member is written with names it.
* `GroupScan.step`, `groupFromProperties` — one property after another; `groupFromProperties_some` — what comes of it: the
  members are the UIDs the member values name, and the name is `nameOf`.
-/

namespace Oreneta.Contacts

open Text ByteSlices List

/-- How a group card says it is a group. -/
inductive GroupStyle where
  /-- `KIND:group` and `MEMBER`. -/
  | vcard4
  /-- `X-ADDRESSBOOKSERVER-KIND:group` and `X-ADDRESSBOOKSERVER-MEMBER`. -/
  | apple
  deriving DecidableEq, Repr

def GroupStyle.memberProperty : GroupStyle → Str
  | .vcard4 => "MEMBER"
  | .apple => "X-ADDRESSBOOKSERVER-MEMBER"

structure GroupCard where
  uid : Str
  name : Str
  members : List Str
  style : GroupStyle
  deriving DecidableEq, Repr

def isKindGroup (property : Property) : Bool :=
  (property.name == "KIND" || property.name == "X-ADDRESSBOOKSERVER-KIND") &&
    asciiLower (trim property.value) == "group"

def isGroup (properties : List Property) : Bool := properties.any isKindGroup

def isMember (property : Property) : Bool :=
  property.name == "MEMBER" || property.name == "X-ADDRESSBOOKSERVER-MEMBER"

/-! ## Members -/

/-- A value with no scheme is a UID. -/
def bareUid (value : Str) : Option Str := if value.isEmpty || value.contains ':' then none else some value

def URN_UUID : Str := "urn:uuid:"

/-- The UID a member value names, if it names one; nothing where the program panics. -/
def memberUid (text : Str) : Option (Option Str) :=
  let value := trim text
  if 9 < byteLength value then
    (sliceTo value 9).bind (fun scheme =>
      if asciiLower scheme = URN_UUID then
        (sliceFrom value 9).map (fun rest => if (trim rest).isEmpty then none else some (trim rest))
      else some (bareUid value))
  else some (bareUid value)

def memberValue (uid : Str) : Str := URN_UUID ++ uid

/-- The program panics on the values of more than nine bytes with a character across the ninth. -/
theorem memberUid_panics {text : Str} : memberUid text = none ↔ Across (trim text) 9 := by
  unfold memberUid
  dsimp only
  generalize trim text = value
  by_cases hlong : 9 < byteLength value
  · rw [if_pos hlong]
    constructor
    · intro h
      rcases hcut : cut value 9 with _ | ⟨front, back⟩
      · rcases cut_eq_none.mp hcut with hshort | hacross
        · omega
        · exact hacross
      · -- where one slice is one, the other is too
        rw [sliceTo, sliceFrom, hcut, Option.map_some, Option.map_some, Option.bind_some, Option.map_some] at h
        split at h
        · cases h
        · cases h
    · intro hacross
      rw [sliceTo, cut_eq_none.mpr (.inr hacross)]
      rfl
  · rw [if_neg hlong]
    refine ⟨fun h => (by cases h), ?_⟩
    rintro ⟨front, c, back, hvalue, hbefore, hafter⟩
    have hlen : byteLength value = byteLength front + (c.utf8Size + byteLength back) := by
      rw [hvalue, byteLength_append, byteLength_cons]
    omega

/-- What a member is written with names it. -/
theorem memberUid_memberValue {uid : Str} (hne : uid ≠ []) (htrim : trim uid = uid) :
    memberUid (memberValue uid) = some (some uid) := by
  have hvalue : trim (memberValue uid) = memberValue uid := by
    have hlast : uid.rdropWhile isWhitespace = uid := by
      have h := trimBy_trimmed isWhitespace uid
      rw [← trim_eq_trimBy, htrim] at h
      rw [rdropWhile_eq_self_iff]
      intro hne'
      have := h.2 (uid.getLast hne') (getLast?_eq_some_getLast hne')
      simp [this]
    have hkeeps := trimBy_keeps (p := isWhitespace) (c := 'u') (d := ':') rfl rfl "rn:uuid" uid
    rw [hlast] at hkeeps
    exact hkeeps
  have hnine : byteLength URN_UUID = 9 := by decide
  have hpos : 0 < byteLength uid := by
    cases uid with
    | nil => exact absurd rfl hne
    | cons c rest =>
      have := c.utf8Size_pos
      rw [byteLength_cons]
      omega
  have hlong : 9 < byteLength (memberValue uid) := by
    rw [memberValue, byteLength_append, hnine]
    omega
  have hcut : cut (memberValue uid) 9 = some (URN_UUID, uid) := by
    have h := cut_append URN_UUID uid
    rwa [hnine] at h
  have hscheme : asciiLower URN_UUID = URN_UUID := by decide
  have hempty : uid.isEmpty = false := by
    cases uid with
    | nil => exact absurd rfl hne
    | cons c rest => rfl
  unfold memberUid
  dsimp only
  rw [hvalue, if_pos hlong, sliceTo, sliceFrom, hcut, Option.map_some, Option.bind_some, if_pos hscheme,
    Option.map_some, Option.map_some, htrim, hempty]
  rfl

/-! ## A card -/

structure GroupScan where
  group : GroupCard
  structured : Str
  deriving DecidableEq, Repr

/-- A member is listed once. -/
def GroupScan.member (s : GroupScan) (uid : Str) : GroupScan :=
  if s.group.members.contains uid then s
  else { s with group := { s.group with members := s.group.members ++ [uid] } }

def GroupScan.step (s : GroupScan) (property : Property) : Option GroupScan :=
  if property.name = "UID" then some { s with group := { s.group with uid := trim property.value } }
  else if property.name = "FN" then
    if s.group.name = [] then some { s with group := { s.group with name := trim property.value } } else some s
  else if property.name = "N" then
    -- Apple writes the group's name as the family name too
    if s.structured = [] then some { s with structured := trim (unescape ((property.raw.splitOn ';').head?.getD [])) }
    else some s
  else if isMember property then
    (memberUid property.value).map (fun uid =>
      match uid with
      | some uid => s.member uid
      | none => s)
  else some s

def GroupScan.finish (s : GroupScan) : GroupCard :=
  if s.group.name = [] then { s.group with name := s.structured } else s.group

/-- A card as a group, if it is one; nothing where the program panics. -/
def groupFromProperties (properties : List Property) : Option (Option GroupCard) :=
  match properties.find? isKindGroup with
  | none => some none
  | some kind =>
    let style := if kind.name = "KIND" then .vcard4 else .apple
    (properties.foldlM GroupScan.step ⟨⟨[], [], [], style⟩, []⟩).map (fun s => some s.finish)

/-! ## What a card says -/

def isNamed (name : String) (property : Property) : Bool := property.name == name.toList

/-- The first of some texts that is not empty. -/
def firstText : List Str → Str
  | [] => []
  | s :: rest => if s = [] then firstText rest else s

/-- What a name is made of in an `N`: what stands before the first semicolon, escaped or not. -/
def nPart (property : Property) : Str := trim (unescape ((property.raw.splitOn ';').head?.getD []))

def fnOf (properties : List Property) : Str :=
  firstText ((properties.filter (isNamed "FN")).map (fun p => trim p.value))

def structuredOf (properties : List Property) : Str := firstText ((properties.filter (isNamed "N")).map nPart)

def nameOf (properties : List Property) : Str := firstText [fnOf properties, structuredOf properties]

/-- The UIDs the member lines name. -/
def Names (properties : List Property) (uid : Str) : Prop :=
  ∃ p ∈ properties, isMember p = true ∧ memberUid p.value = some (some uid)

theorem isMember_cases {p : Property} (h : isMember p = true) : p.name = "MEMBER" ∨ p.name = "X-ADDRESSBOOKSERVER-MEMBER" := by
  unfold isMember at h
  rwa [Bool.or_eq_true, beq_iff_eq, beq_iff_eq] at h

theorem isMember_ne {p : Property} {name : Str} (h : isMember p = true)
    (hname : name ≠ "MEMBER" ∧ name ≠ "X-ADDRESSBOOKSERVER-MEMBER") : p.name ≠ name := by
  rcases isMember_cases h with he | he
  · rw [he]
    exact hname.1.symm
  · rw [he]
    exact hname.2.symm

theorem GroupScan.mem_member (s : GroupScan) (uid u : Str) :
    u ∈ (s.member uid).group.members ↔ u ∈ s.group.members ∨ u = uid := by
  unfold GroupScan.member
  split
  · rename_i hc
    refine ⟨.inl, fun h => h.elim id ?_⟩
    rintro rfl
    exact contains_iff_mem.mp hc
  · rw [mem_append, mem_singleton]

theorem GroupScan.member_rest (s : GroupScan) (uid : Str) :
    (s.member uid).group.name = s.group.name ∧ (s.member uid).structured = s.structured ∧
      (s.member uid).group.style = s.group.style := by
  unfold GroupScan.member
  split
  · exact ⟨rfl, rfl, rfl⟩
  · exact ⟨rfl, rfl, rfl⟩

theorem firstText_cons (s : Str) (rest : List Str) : firstText (s :: rest) = if s = [] then firstText rest else s := rfl

theorem firstText_single (s : Str) : firstText [s] = s := by
  rw [firstText_cons]
  split
  · rename_i h
    rw [h]
    rfl
  · rfl

theorem firstText_pair (a b : Str) : firstText [a, b] = if a = [] then b else a := by
  rw [firstText_cons, firstText_single]

/-- A step takes over what one property says. -/
theorem GroupScan.step_spec {s s' : GroupScan} {p : Property} (h : s.step p = some s') :
    s'.group.name = firstText (s.group.name :: (([p].filter (isNamed "FN")).map (fun p => trim p.value))) ∧
      s'.structured = firstText (s.structured :: (([p].filter (isNamed "N")).map nPart)) ∧
      (∀ u, u ∈ s'.group.members ↔ u ∈ s.group.members ∨ Names [p] u) ∧
      s'.group.style = s.group.style := by
  have hself : ∀ name : String, p.name = name.toList → [p].filter (isNamed name) = [p] := by
    intro name hname
    exact filter_cons_of_pos (by rw [isNamed, hname, beq_self_eq_true])
  have hother : ∀ name : String, p.name ≠ name.toList → [p].filter (isNamed name) = [] := by
    intro name hname
    exact filter_cons_of_neg (by rw [isNamed, beq_iff_eq]; exact hname)
  have hnames : isMember p ≠ true → ∀ u, ¬ Names [p] u := by
    rintro hm u ⟨q, hq, hmq, -⟩
    rw [mem_singleton.mp hq] at hmq
    exact hm hmq
  unfold GroupScan.step at h
  by_cases huid : p.name = "UID"
  · have hm : isMember p ≠ true := fun hm => isMember_ne hm (by decide) huid
    rw [if_pos huid] at h
    cases h
    rw [hother "FN" (by rw [huid]; decide), hother "N" (by rw [huid]; decide), map_nil, firstText_single, map_nil,
      firstText_single]
    exact ⟨rfl, rfl, fun u => ⟨.inl, fun h => h.elim id fun h => absurd h (hnames hm u)⟩, rfl⟩
  rw [if_neg huid] at h
  by_cases hfn : p.name = "FN"
  · have hm : isMember p ≠ true := fun hm => isMember_ne hm (by decide) hfn
    rw [if_pos hfn] at h
    rw [hself "FN" hfn, hother "N" (by rw [hfn]; decide), map_singleton, map_nil, firstText_pair, firstText_single]
    by_cases hempty : s.group.name = []
    · rw [if_pos hempty] at h
      cases h
      rw [if_pos hempty]
      exact ⟨rfl, rfl, fun u => ⟨.inl, fun h => h.elim id fun h => absurd h (hnames hm u)⟩, rfl⟩
    · rw [if_neg hempty] at h
      cases h
      rw [if_neg hempty]
      exact ⟨rfl, rfl, fun u => ⟨.inl, fun h => h.elim id fun h => absurd h (hnames hm u)⟩, rfl⟩
  rw [if_neg hfn] at h
  by_cases hn : p.name = "N"
  · have hm : isMember p ≠ true := fun hm => isMember_ne hm (by decide) hn
    rw [if_pos hn] at h
    rw [hother "FN" hfn, hself "N" hn, map_nil, map_singleton, firstText_single, firstText_pair]
    by_cases hempty : s.structured = []
    · rw [if_pos hempty] at h
      cases h
      rw [if_pos hempty]
      exact ⟨rfl, rfl, fun u => ⟨.inl, fun h => h.elim id fun h => absurd h (hnames hm u)⟩, rfl⟩
    · rw [if_neg hempty] at h
      cases h
      rw [if_neg hempty]
      exact ⟨rfl, rfl, fun u => ⟨.inl, fun h => h.elim id fun h => absurd h (hnames hm u)⟩, rfl⟩
  rw [if_neg hn] at h
  rw [hother "FN" hfn, hother "N" hn, map_nil, map_nil, firstText_single, firstText_single]
  by_cases hm : isMember p = true
  · rw [if_pos hm] at h
    obtain ⟨uid, huid, rfl⟩ := Option.map_eq_some_iff.mp h
    have hread : ∀ u, Names [p] u ↔ uid = some u := by
      intro u
      constructor
      · rintro ⟨q, hq, -, hu⟩
        rw [mem_singleton.mp hq, huid] at hu
        exact Option.some.inj hu
      · rintro rfl
        exact ⟨p, mem_singleton_self p, hm, huid⟩
    cases uid with
    | none => exact ⟨rfl, rfl, fun u => ⟨.inl, fun h => h.elim id fun h => absurd ((hread u).mp h) (by simp)⟩, rfl⟩
    | some uid =>
      obtain ⟨h1, h2, h3⟩ := s.member_rest uid
      refine ⟨h1, h2, fun u => ?_, h3⟩
      rw [GroupScan.mem_member, hread, Option.some.injEq]
      exact or_congr_right eq_comm
  · rw [if_neg hm] at h
    cases h
    exact ⟨rfl, rfl, fun u => ⟨.inl, fun h => h.elim id fun h => absurd h (hnames hm u)⟩, rfl⟩

theorem firstText_append (s : Str) (first rest : List Str) :
    firstText (firstText (s :: first) :: rest) = firstText (s :: (first ++ rest)) := by
  rw [firstText_cons s, firstText_cons s]
  split
  · induction first with
    | nil => rfl
    | cons t first ih =>
      rw [firstText_cons t, cons_append, firstText_cons t]
      split
      · exact ih
      · rename_i ht
        rw [firstText_cons, if_neg ht]
  · rename_i hs
    rw [firstText_cons, if_neg hs]

theorem names_append {a b : List Property} {u : Str} : Names (a ++ b) u ↔ Names a u ∨ Names b u := by
  unfold Names
  simp only [mem_append, or_and_right, exists_or]

theorem GroupScan.foldlM_spec : ∀ {properties : List Property} {s s' : GroupScan}, properties.foldlM GroupScan.step s = some s' →
      s'.group.name = firstText (s.group.name :: ((properties.filter (isNamed "FN")).map (fun p => trim p.value))) ∧
        s'.structured = firstText (s.structured :: ((properties.filter (isNamed "N")).map nPart)) ∧
        (∀ u, u ∈ s'.group.members ↔ u ∈ s.group.members ∨ Names properties u) ∧
        s'.group.style = s.group.style
  | [], s, s', h => by
    cases h
    refine ⟨(firstText_single _).symm, (firstText_single _).symm, fun u => ⟨.inl, fun h => h.elim id ?_⟩, rfl⟩
    rintro ⟨p, hp, -⟩
    cases hp
  | p :: properties, s, s', h => by
    rw [foldlM_cons] at h
    obtain ⟨mid, hmid, h⟩ := Option.bind_eq_some_iff.mp h
    obtain ⟨hname, hstructured, hmembers, hstyle⟩ := GroupScan.step_spec hmid
    obtain ⟨hname', hstructured', hmembers', hstyle'⟩ := GroupScan.foldlM_spec h
    have hcons : p :: properties = [p] ++ properties := rfl
    refine ⟨?_, ?_, fun u => ?_, hstyle'.trans hstyle⟩
    · rw [hname', hname, firstText_append, hcons, filter_append, map_append]
    · rw [hstructured', hstructured, firstText_append, hcons, filter_append, map_append]
    · rw [hmembers', hmembers, hcons, names_append, or_assoc]

/-- What is read of a group card. -/
theorem groupFromProperties_some {properties : List Property} {group : GroupCard}
    (h : groupFromProperties properties = some (some group)) :
    isGroup properties = true ∧ group.name = nameOf properties ∧ ∀ u, u ∈ group.members ↔ Names properties u := by
  unfold groupFromProperties at h
  split at h
  · cases h
  · rename_i kind hkind
    obtain ⟨s, hs, hgroup⟩ := Option.map_eq_some_iff.mp h
    cases hgroup
    obtain ⟨hname, hstructured, hmembers, -⟩ := GroupScan.foldlM_spec hs
    have hfinish : s.finish.members = s.group.members := by
      unfold GroupScan.finish
      split <;> rfl
    have hfinish' : s.finish.name = firstText [s.group.name, s.structured] := by
      unfold GroupScan.finish
      rw [firstText_pair]
      split <;> rfl
    refine ⟨any_eq_true.mpr ⟨kind, mem_of_find?_eq_some hkind, find?_some hkind⟩, ?_, fun u => ?_⟩
    · rw [hfinish', hname, hstructured]
      rfl
    · rw [hfinish, hmembers]
      exact ⟨fun h => h.elim (fun h => by cases h) id, .inr⟩

end Oreneta.Contacts

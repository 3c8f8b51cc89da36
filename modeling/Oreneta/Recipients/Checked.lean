import Mathlib.Data.List.Forall2
import Oreneta.Contacts.NewCard
import Oreneta.Lib.Lines
import Oreneta.Recipients.AddressList
import Oreneta.Recipients.Core

/-!
# Who is checked and who is mailed

The keys held are looked up, and the recipients of reports compared, by `splitAddressList`; the message goes to
`envelopeRecipients`.  A field is the text of mailboxes and groups (`Entry`), `addrparse` reads it as these
(`ReadsAs`), and `checked_iff` says when both lists are the bare addresses: no mailbox has a display name, and
every group begins and ends with an address in angle brackets.
-/

namespace Oreneta.Recipients

open Text List

/-! ## Fields -/

/-- A mailbox in a field, with the white space before it. -/
structure Mailbox where
  lead : Str
  name : Str
  address : Str
  /-- An address without a name stands in angle brackets. -/
  angled : Bool
  deriving DecidableEq, Repr

def Mailbox.text (m : Mailbox) : Str :=
  m.lead ++
    if m.name = [] then if m.angled then '<' :: (m.address ++ ['>']) else m.address
    else writtenName m.name ++ (" <" ++ (m.address ++ ['>']))

/-- A mailbox, or a group: its name as it is written, and its members. -/
inductive Entry where
  | mailbox (m : Mailbox)
  | group (lead label : Str) (members : List Mailbox)

def Entry.text : Entry → Str
  | .mailbox m => m.text
  | .group lead label members => (lead ++ (label ++ [':'])) ++ (join [','] (members.map Mailbox.text) ++ [';'])

def Entry.mailboxes : Entry → List Mailbox
  | .mailbox m => [m]
  | .group _ _ members => members

def fieldText (field : List Entry) : Str := join [','] (field.map Entry.text)

def mailboxesOf (field : List Entry) : List Mailbox := field.flatMap Entry.mailboxes

/-- The field the composer writes for its recipients. -/
def fieldOf : List Recipient → List Entry
  | [] => []
  | r :: rs => .mailbox ⟨[], r.name, r.address, false⟩ :: rs.map (fun x => .mailbox ⟨[' '], x.name, x.address, false⟩)

/-! ## What is assumed, and what is claimed -/

/-- A mailbox is read with its address, and with a display name when it has one. -/
def Reads (m : Mailbox) (info : SingleInfo) : Prop := info.addr = m.address ∧ (shownName info = [] ↔ m.name = [])

inductive EntryReads : Entry → MailAddr → Prop where
  | single {m : Mailbox} {info : SingleInfo} (h : Reads m info) : EntryReads (.mailbox m) (.single info)
  | group {lead label name : Str} {members : List Mailbox} {infos : List SingleInfo} (h : List.Forall₂ Reads members infos) :
    EntryReads (.group lead label members) (.group name infos)

/-- `addrparse` reads the field as the mailboxes and groups it is the text of. -/
def ReadsAs (addrparse : Str → Option (List MailAddr)) (field : List Entry) : Prop :=
  ∃ list, addrparse (fieldText field) = some list ∧ List.Forall₂ EntryReads field list

/-- An address without white space and without the marks of a field. -/
structure PlainAddress (address : Str) : Prop where
  ne_nil : address ≠ []
  solid : ∀ c ∈ address, isWhitespace c = false
  marks : ∀ c ∈ address, isMark c = false ∧ c ≠ ':'

/-- The name of a group: no marks, or a text between quotes that has neither quotes nor `<`. -/
def PlainLabel (label : Str) : Prop :=
  (∀ c ∈ label, isMark c = false) ∨ ∃ s, label = '"' :: (s ++ ['"']) ∧ '"' ∉ s ∧ '<' ∉ s

/-- Only a mark has a mark in its lower case. -/
def KeepsMarks (U : Casing) : Prop := ∀ c, ∀ d ∈ U.lowerChar c, d = ':' ∨ d = ';' → d = c

/-- Both lists are the bare addresses, lower-cased. -/
structure Checked (U : Casing) (addrparse : Str → Option (List MailAddr)) (field : List Entry) : Prop where
  exact : splitAddressList addrparse U.lower (fieldText field) = (mailboxesOf field).map (fun m => U.lower m.address)
  mailed : ∀ a, a ∈ splitAddressList addrparse U.lower (fieldText field) ↔
    a ∈ (envelopeRecipients U.lower (parseAddrs (fieldText field)) [] []).map U.lower

def Unnamed (field : List Entry) : Prop := ∀ m ∈ mailboxesOf field, m.name = []

/-- A group that begins and ends with an address in angle brackets. -/
def AngledEnds : Entry → Prop
  | .mailbox _ => True
  | .group _ _ members => members ≠ [] ∧ (∀ m ∈ members.head?, m.angled = true) ∧ ∀ m ∈ members.getLast?, m.angled = true

def Labelled : Entry → Prop
  | .mailbox _ => True
  | .group lead label _ => (∀ c ∈ lead, isWhitespace c = true) ∧ PlainLabel label

/-! ## The list that is checked -/

section Exact

variable {U : Casing} {addrparse : Str → Option (List MailAddr)} {field : List Entry}

theorem PlainAddress.trim {address : Str} (h : PlainAddress address) : trim address = address :=
  trim_of_no_space h.solid

/-- Something more makes the lower case longer. -/
theorem lower_ne_longer {before after address : Str} (h : before ≠ []) :
    U.lower (before ++ (address ++ after)) ≠ U.lower address := by
  intro he
  have hlen := congrArg List.length he
  rw [U.lower_append, U.lowerIn_append, length_append, length_append,
    U.lowerIn_length before.reverse [] (after ++ []) [] address] at hlen
  have hpos : 0 < (U.lowerIn [] before (address ++ after)).length := length_pos_of_ne_nil (U.lowerIn_ne_nil h _ _)
  unfold Casing.lower at hlen
  omega

/-- A mailbox is checked by its address exactly when it has no display name. -/
theorem lower_formatted_iff {m : Mailbox} {info : SingleInfo} (hread : Reads m info) (haddr : PlainAddress m.address) :
    U.lower (Text.trim (formatted info)) = U.lower m.address ↔ m.name = [] := by
  rw [formatted_eq, hread.1]
  constructor
  · intro he
    by_contra hname
    have hshown : shownName info ≠ [] := fun h => hname (hread.2.mp h)
    have hone : Trimmed isWhitespace ['>'] := by constructor <;> decide
    have htrim : Text.trim (shownName info ++ (" <" ++ (m.address ++ ['>']))) =
        (shownName info ++ " <") ++ (m.address ++ ['>']) := by
      have hshape : shownName info ++ (" <" ++ (m.address ++ ['>'])) =
          shownName info ++ ((" <" ++ m.address) ++ ['>']) := by rw [append_assoc]
      have hname : Trimmed isWhitespace (shownName info) := trimBy_trimmed _ _
      rw [hshape, trim_eq_trimBy, trimBy_eq_self (trimmed_append hname hone hshown (by simp) _)]
      simp
    rw [if_neg hshown, htrim] at he
    exact lower_ne_longer (append_ne_nil_of_left_ne_nil hshown _) he
  · intro hname
    rw [if_pos (hread.2.mpr hname), haddr.trim]

theorem formatted_trim_ne_nil {m : Mailbox} {info : SingleInfo} (hread : Reads m info) (haddr : PlainAddress m.address) :
    Text.trim (formatted info) ≠ [] := by
  rw [formatted_eq, hread.1]
  split
  · rw [haddr.trim]
    exact haddr.ne_nil
  · have hgt : '>' ∈ Text.trim (shownName info ++ (" <" ++ (m.address ++ ['>']))) := by
      rw [← count_pos_iff, count_trim (by decide)]
      simp [count_append]
    exact ne_nil_of_mem hgt

theorem reads_members : ∀ {field : List Entry} {list : List MailAddr}, List.Forall₂ EntryReads field list →
    List.Forall₂ Reads (mailboxesOf field) (list.flatMap MailAddr.members)
  | [], [], _ => .nil
  | e :: field, a :: list, .cons h hrest => by
    have hhead : List.Forall₂ Reads e.mailboxes a.members := by
      cases h with
      | single h => exact .cons h .nil
      | group h => exact h
    exact rel_append hhead (reads_members hrest)

/-- What is checked, mailbox by mailbox. -/
theorem splitAddressList_eq {list : List MailAddr} (hlist : addrparse (fieldText field) = some list)
    (hreads : List.Forall₂ EntryReads field list) (haddr : ∀ m ∈ mailboxesOf field, PlainAddress m.address) :
    splitAddressList addrparse U.lower (fieldText field) =
      (list.flatMap MailAddr.members).map (fun info => U.lower (Text.trim (formatted info))) := by
  have hfull : ∀ info ∈ list.flatMap MailAddr.members, Text.trim (formatted info) ≠ [] := by
    intro info hinfo
    obtain ⟨i, hi, rfl⟩ := mem_iff_getElem.mp hinfo
    have hmembers := reads_members hreads
    have hi' : i < (mailboxesOf field).length := hmembers.length_eq ▸ hi
    exact formatted_trim_ne_nil (List.Forall₂.get hmembers hi' hi) (haddr _ (getElem_mem hi'))
  have hne : ∀ info ∈ list.flatMap MailAddr.members, formatted info ≠ [] := by
    intro info hinfo he
    exact hfull info hinfo (by rw [he]; rfl)
  unfold splitAddressList
  simp only [hlist]
  have hpushed : ((list.flatMap MailAddr.members).map formatted).filter (fun s => s ≠ []) =
      (list.flatMap MailAddr.members).map formatted := by
    refine filter_eq_self.mpr fun s hs => ?_
    obtain ⟨info, hinfo, rfl⟩ := mem_map.mp hs
    exact decide_eq_true (hne info hinfo)
  rw [foldl_pushAddr, nil_append, hpushed, map_map]
  refine filter_eq_self.mpr fun s hs => ?_
  obtain ⟨info, hinfo, rfl⟩ := mem_map.mp hs
  exact decide_eq_true (U.lower_ne_nil (hfull info hinfo))

/-- The addresses are checked as they are exactly when no mailbox has a display name. -/
theorem exact_iff (hread : ReadsAs addrparse field) (haddr : ∀ m ∈ mailboxesOf field, PlainAddress m.address) :
    splitAddressList addrparse U.lower (fieldText field) = (mailboxesOf field).map (fun m => U.lower m.address) ↔
      Unnamed field := by
  obtain ⟨list, hlist, hreads⟩ := hread
  rw [splitAddressList_eq hlist hreads haddr]
  unfold Unnamed
  have hmembers := reads_members hreads
  revert haddr
  generalize mailboxesOf field = ms at hmembers
  generalize list.flatMap MailAddr.members = infos at hmembers
  intro haddr
  induction hmembers with
  | nil => simp
  | cons h hrest ih =>
    rw [map_cons, map_cons, List.cons.injEq, forall_mem_cons, lower_formatted_iff h (haddr _ mem_cons_self)]
    exact and_congr_right fun _ => ih fun m hm => haddr m (mem_cons_of_mem _ hm)

end Exact

/-! ## The list that is mailed to -/

theorem mem_envelope {lower : Str → Str} {entries : List Str} {a : Str} :
    a ∈ (envelopeRecipients lower entries [] []).map lower ↔ a ∈ (entries.map bareAddr).map lower := by
  rw [envelopeRecipients_eq, append_nil, append_nil]
  constructor
  · intro h
    obtain ⟨b, hb, rfl⟩ := mem_map.mp h
    exact mem_map_of_mem (withoutRepeats_subset _ hb)
  · intro h
    obtain ⟨b, hb, rfl⟩ := mem_map.mp h
    obtain ⟨c, hc, heq⟩ := @mem_withoutRepeats lower _ _ hb
    exact heq ▸ mem_map_of_mem hc

/-- The pieces of a group's members: the first has what stands before it, the last the mark that ends the group. -/
def memberPieces (before : Str) : List Mailbox → List Str
  | [] => [before ++ [';']]
  | [m] => [before ++ (m.text ++ [';'])]
  | m :: n :: rest => (before ++ m.text) :: memberPieces [] (n :: rest)

/-- The pieces a field is cut into. -/
def Entry.pieces : Entry → List Str
  | .mailbox m => [m.text]
  | .group lead label members => memberPieces (lead ++ (label ++ [':'])) members

section Joined

theorem memberPieces_ne_nil (before : Str) : ∀ members : List Mailbox, memberPieces before members ≠ []
  | [] => cons_ne_nil _ _
  | [_] => cons_ne_nil _ _
  | _ :: _ :: _ => cons_ne_nil _ _

theorem Entry.pieces_ne_nil (e : Entry) : e.pieces ≠ [] := by
  cases e with
  | mailbox m => exact cons_ne_nil _ _
  | group lead label members => exact memberPieces_ne_nil _ _

theorem join_memberPieces (before : Str) : ∀ members : List Mailbox,
    join [','] (memberPieces before members) = before ++ (join [','] (members.map Mailbox.text) ++ [';'])
  | [] => rfl
  | [m] => rfl
  | m :: n :: rest => by
    have ih := join_memberPieces [] (n :: rest)
    obtain ⟨p, ps, hp⟩ := exists_cons_of_ne_nil (memberPieces_ne_nil [] (n :: rest))
    rw [map_cons] at ih
    rw [memberPieces, map_cons, map_cons, hp, join, ← hp, ih, join]
    simp only [append_assoc, nil_append]

theorem join_pieces (e : Entry) : join [','] e.pieces = e.text := by
  cases e with
  | mailbox m => rfl
  | group lead label members => exact join_memberPieces _ members

theorem join_flatMap_pieces : ∀ field : List Entry, fieldText field = join [','] (field.flatMap Entry.pieces)
  | [] => rfl
  | [e] => by
    have hone : [e].flatMap Entry.pieces = e.pieces := append_nil _
    rw [hone, join_pieces]
    rfl
  | e :: f :: rest => by
    have ih := join_flatMap_pieces (f :: rest)
    have hne : (f :: rest).flatMap Entry.pieces ≠ [] := append_ne_nil_of_left_ne_nil f.pieces_ne_nil _
    rw [flatMap_cons, join_append e.pieces_ne_nil hne, ← ih, join_pieces]
    exact append_assoc _ _ _

end Joined

/-! ## What the core cuts -/

section Core

variable {U : Casing} {field : List Entry}

/-- Nothing the core's scanner knows. -/
def Quiet (c : Char) : Prop := c ≠ ',' ∧ c ≠ '"' ∧ c ≠ '<' ∧ c ≠ '>'

instance (c : Char) : Decidable (Quiet c) := inferInstanceAs (Decidable (_ ∧ _))

theorem quiet_of_isMark {c : Char} (h : isMark c = false) : Quiet c := by
  simp only [isMark, Bool.or_eq_false_iff, decide_eq_false_iff_not] at h
  exact ⟨h.1.1.2, h.1.1.1.2, h.1.1.1.1.1, h.1.1.1.1.2⟩

theorem quiet_of_isWhitespace {c : Char} (h : isWhitespace c = true) : Quiet c := by
  refine ⟨?_, ?_, ?_, ?_⟩ <;> (rintro rfl; exact absurd h (by decide))

theorem quiet_passes {s : Bool × Bool} {text : Str} (h : ∀ c ∈ text, Quiet c) : Cuts.Passes coreScanner s text s := by
  refine Cuts.Passes.stay fun c hc => ?_
  obtain ⟨hcomma, hquote, hlt, hgt⟩ := h c hc
  refine ⟨?_, fun hcut => hcomma (of_decide_eq_true hcut.2)⟩
  simp only [coreScanner, hquote, hlt, hgt, false_and, if_false]

/-- A text in quotes. -/
theorem quoted_passes {s : Str} (h : '"' ∉ s) : Cuts.Passes coreScanner (false, false) ('"' :: (s ++ ['"'])) (false, false) := by
  have hinside : Cuts.Passes coreScanner (true, false) s (true, false) := by
    refine Cuts.Passes.stay fun c hc => ⟨?_, fun hcut => by cases hcut.1⟩
    have hne : c ≠ '"' := fun he => h (he ▸ hc)
    simp [coreScanner, hne]
  refine Cuts.Passes.cons (by decide) rfl (hinside.append ?_)
  exact Cuts.Passes.cons (by decide) rfl (Cuts.Passes.nil _)

theorem label_passes {label : Str} (h : PlainLabel label) : Cuts.Passes coreScanner (false, false) label (false, false) := by
  obtain h | ⟨s, rfl, hs, -⟩ := h
  · exact quiet_passes fun c hc => quiet_of_isMark (h c hc)
  · exact quoted_passes hs

/-- A mailbox without a name, read as a piece or in one. -/
structure Bare (m : Mailbox) : Prop where
  unnamed : m.name = []
  address : PlainAddress m.address
  lead : ∀ c ∈ m.lead, isWhitespace c = true

variable {m : Mailbox}

theorem Bare.quiet_address (h : Bare m) : ∀ c ∈ m.address, Quiet c :=
  fun c hc => quiet_of_isMark (h.address.marks c hc).1

theorem Bare.text_eq (h : Bare m) : m.text = m.lead ++ if m.angled = true then '<' :: (m.address ++ ['>']) else m.address := by
  rw [Mailbox.text, if_pos h.unnamed]

theorem Bare.passes (h : Bare m) : Cuts.Passes coreScanner (false, false) m.text (false, false) := by
  rw [h.text_eq]
  refine (quiet_passes fun c hc => quiet_of_isWhitespace (h.lead c hc)).append ?_
  split
  · have hinside : Cuts.Passes coreScanner (false, true) m.address (false, true) := quiet_passes h.quiet_address
    refine Cuts.Passes.cons (by decide) rfl (hinside.append ?_)
    exact Cuts.Passes.cons (by decide) rfl (Cuts.Passes.nil _)
  · exact quiet_passes h.quiet_address

theorem memberPieces_passes : ∀ {members : List Mailbox} {before : Str},
    Cuts.Passes coreScanner (false, false) before (false, false) → (∀ m ∈ members, Bare m) →
    ∀ p ∈ memberPieces before members, Cuts.Passes coreScanner (false, false) p (false, false)
  | [], before, hbefore, _, p, hp => by
    rw [mem_singleton.mp hp]
    exact hbefore.append (quiet_passes (by decide))
  | [m], before, hbefore, h, p, hp => by
    rw [mem_singleton.mp hp]
    exact hbefore.append ((h m mem_cons_self).passes.append (quiet_passes (by decide)))
  | m :: n :: rest, before, hbefore, h, p, hp => by
    rcases mem_cons.mp hp with rfl | hp
    · exact hbefore.append (h m mem_cons_self).passes
    · exact memberPieces_passes (Cuts.Passes.nil _) (fun x hx => h x (mem_cons_of_mem _ hx)) p hp

theorem pieces_passes {e : Entry} (hlabel : Labelled e) (h : ∀ m ∈ e.mailboxes, Bare m) :
    ∀ p ∈ e.pieces, Cuts.Passes coreScanner (false, false) p (false, false) := by
  cases e with
  | mailbox m =>
    intro p hp
    rw [mem_singleton.mp hp]
    exact (h m mem_cons_self).passes
  | group lead label members =>
    refine memberPieces_passes ?_ h
    refine (quiet_passes fun c hc => quiet_of_isWhitespace (hlabel.1 c hc)).append ?_
    exact (label_passes hlabel.2).append (quiet_passes (by decide))

theorem Bare.solid (h : Bare m) : ∃ c ∈ m.text, isWhitespace c = false := by
  obtain ⟨c, rest, hc⟩ := exists_cons_of_ne_nil h.address.ne_nil
  have hmem : c ∈ m.address := hc ▸ mem_cons_self
  refine ⟨c, ?_, h.address.solid c hmem⟩
  rw [h.text_eq]
  split <;> simp [hmem]

theorem memberPieces_solid : ∀ {members : List Mailbox} {before : Str}, (∀ m ∈ members, Bare m) →
    ∀ p ∈ memberPieces before members, ∃ c ∈ p, isWhitespace c = false
  | [], before, _, p, hp => by
    rw [mem_singleton.mp hp]
    exact ⟨';', by simp, by decide⟩
  | [m], before, h, p, hp => by
    rw [mem_singleton.mp hp]
    exact ⟨';', by simp, by decide⟩
  | m :: n :: rest, before, h, p, hp => by
    rcases mem_cons.mp hp with rfl | hp
    · obtain ⟨c, hc, hsolid⟩ := (h m mem_cons_self).solid
      exact ⟨c, mem_append_right _ hc, hsolid⟩
    · exact memberPieces_solid (fun x hx => h x (mem_cons_of_mem _ hx)) p hp

/-- No piece is blank. -/
theorem pieces_solid {e : Entry} (h : ∀ m ∈ e.mailboxes, Bare m) : ∀ p ∈ e.pieces, trim p ≠ [] := by
  intro p hp
  obtain ⟨c, hc, hsolid⟩ : ∃ c ∈ p, isWhitespace c = false := by
    cases e with
    | mailbox m =>
      rw [mem_singleton.mp hp]
      exact (h m mem_cons_self).solid
    | group lead label members => exact memberPieces_solid h p hp
  exact trim_ne_nil hc hsolid

theorem bareAddr_trim (s : Str) : bareAddr (trim s) = bareAddr s := by
  unfold bareAddr
  rw [trim_trim]

/-- What the core mails to: the address it reads in each piece. -/
theorem parseAddrs_bareAddr (hlabels : ∀ e ∈ field, Labelled e) (h : ∀ m ∈ mailboxesOf field, Bare m) :
    (parseAddrs (fieldText field)).map bareAddr = (field.flatMap Entry.pieces).map bareAddr := by
  have hmember : ∀ e ∈ field, ∀ m ∈ e.mailboxes, Bare m := fun e he m hm => h m (mem_flatMap.mpr ⟨e, he, hm⟩)
  have hpasses : ∀ p ∈ field.flatMap Entry.pieces, Cuts.Passes coreScanner coreScanner.start p coreScanner.start := by
    intro p hp
    obtain ⟨e, he, hp⟩ := mem_flatMap.mp hp
    exact pieces_passes (hlabels e he) (hmember e he) p hp
  have hsolid : ∀ p ∈ field.flatMap Entry.pieces, trim p ≠ [] := by
    intro p hp
    obtain ⟨e, he, hp⟩ := mem_flatMap.mp hp
    exact pieces_solid (hmember e he) p hp
  rw [parseAddrs_eq, join_flatMap_pieces]
  generalize field.flatMap Entry.pieces = ps at hpasses hsolid
  have hread : ∀ ps : List Str, (∀ p ∈ ps, trim p ≠ []) → (ps.flatMap entry).map bareAddr = ps.map bareAddr := by
    intro ps
    induction ps with
    | nil => exact fun _ => rfl
    | cons p ps ih =>
      intro hps
      rw [flatMap_cons, entry, if_neg (hps p mem_cons_self), map_append, map_cons, bareAddr_trim,
        ih fun q hq => hps q (mem_cons_of_mem _ hq)]
      rfl
  cases ps with
  | nil => rfl
  | cons p ps =>
    have hbetween : Cuts.Between coreScanner ',' [] := by constructor <;> decide
    rw [Cuts.pieces_join hbetween (Cuts.clean_of_passes hpasses)]
    simp only [nil_append, map_id']
    exact hread _ hsolid

end Core

/-! ## What the core reads in a piece -/

section Pieces

variable {U : Casing} {field : List Entry}

theorem bareAddr_angled {before address after : Str} (hbefore : '<' ∉ before) (haddress : '>' ∉ address)
    (htrim : trim address = address) : bareAddr (before ++ '<' :: (address ++ '>' :: after)) = address := by
  obtain ⟨start, hstart, hpiece⟩ : ∃ start, '<' ∉ start ∧ trim (before ++ '<' :: (address ++ '>' :: after)) =
      start ++ '<' :: (address ++ '>' :: trimEnd after) := by
    refine ⟨before.dropWhile isWhitespace, fun hm => hbefore ((dropWhile_sublist _).subset hm), ?_⟩
    have hdrop : (before ++ '<' :: (address ++ '>' :: after)).dropWhile isWhitespace =
        (before.dropWhile isWhitespace ++ '<' :: address) ++ '>' :: after := by
      have hlt : isWhitespace '<' = false := by decide
      rw [dropWhile_append]
      split
      · rename_i hempty
        rw [List.isEmpty_iff.mp hempty, dropWhile_cons_of_neg (by simp [hlt])]
        rfl
      · simp
    unfold trim trimStart trimEnd
    rw [hdrop, rdropWhile_append_cons (by decide)]
    simp
  unfold bareAddr
  simp only [hpiece, splitOnce_append _ hstart, splitOnce_append _ haddress, htrim]

theorem bareAddr_open {s : Str} (h : '<' ∉ s) : bareAddr s = trim s := by
  unfold bareAddr
  have hno : '<' ∉ trim s := fun hm => h ((trimBy_sublist _ _).subset hm)
  simp only [splitOnce_eq_none.mpr hno]

theorem Bare.notMem {m : Mailbox} (h : Bare m) : '<' ∉ m.lead ∧ '<' ∉ m.address ∧ '>' ∉ m.address :=
  ⟨fun hm => (quiet_of_isWhitespace (h.lead _ hm)).2.2.1 rfl, fun hm => (h.quiet_address _ hm).2.2.1 rfl,
    fun hm => (h.quiet_address _ hm).2.2.2 rfl⟩

/-- An address in angle brackets is found whatever is around it, but for a `<`. -/
theorem Bare.bareAddr_angled {m : Mailbox} (h : Bare m) (hangled : m.angled = true) {before : Str} (hbefore : '<' ∉ before)
    (after : Str) : bareAddr (before ++ (m.text ++ after)) = m.address := by
  obtain ⟨hlead, -, hgt⟩ := h.notMem
  have hno : '<' ∉ before ++ m.lead := by
    rw [mem_append, not_or]
    exact ⟨hbefore, hlead⟩
  have hshape : before ++ (m.text ++ after) = (before ++ m.lead) ++ '<' :: (m.address ++ '>' :: after) := by
    rw [h.text_eq, if_pos hangled]
    simp
  rw [hshape, Recipients.bareAddr_angled hno hgt h.address.trim]

theorem Bare.bareAddr_text {m : Mailbox} (h : Bare m) : bareAddr m.text = m.address := by
  by_cases hangled : m.angled = true
  · have := h.bareAddr_angled hangled not_mem_nil []
    rwa [nil_append, append_nil] at this
  · have htext : m.text = m.lead ++ m.address := by rw [h.text_eq, if_neg hangled]
    obtain ⟨hlead, haddr, -⟩ := h.notMem
    rw [htext, bareAddr_open (by rw [mem_append, not_or]; exact ⟨hlead, haddr⟩), trim_eq_trimBy, trimBy_blank_append h.lead]
    exact h.address.trim

/-- Members are read as their addresses when the ends are in angle brackets. -/
theorem memberPieces_bareAddr : ∀ {members : List Mailbox} {before : Str}, (∀ m ∈ members, Bare m) → '<' ∉ before →
    members ≠ [] → (before = [] ∨ ∀ m ∈ members.head?, m.angled = true) → (∀ m ∈ members.getLast?, m.angled = true) →
    (memberPieces before members).map bareAddr = members.map Mailbox.address
  | [], _, _, _, hne, _, _ => absurd rfl hne
  | [m], before, h, hbefore, _, _, hlast => by
    have hm := (h m mem_cons_self).bareAddr_angled (hlast m rfl) hbefore [';']
    rw [memberPieces, map_cons, hm]
    rfl
  | m :: n :: rest, before, h, hbefore, _, hfirst, hlast => by
    have hm : bareAddr (before ++ m.text) = m.address := by
      rcases hfirst with rfl | hfirst
      · exact (h m mem_cons_self).bareAddr_text
      · have := (h m mem_cons_self).bareAddr_angled (hfirst m rfl) hbefore []
        rwa [append_nil] at this
    have hrest := @memberPieces_bareAddr (n :: rest) [] (fun x hx => h x (mem_cons_of_mem _ hx)) not_mem_nil
      (cons_ne_nil _ _) (.inl rfl) fun x hx => hlast x (by rw [getLast?_cons_cons]; exact hx)
    rw [memberPieces, map_cons, hm, hrest]
    rfl

theorem PlainLabel.notMem {label : Str} (h : PlainLabel label) : '<' ∉ label := by
  obtain h | ⟨s, rfl, -, hs⟩ := h
  · exact fun hm => (quiet_of_isMark (h _ hm)).2.2.1 rfl
  · simp [hs]

theorem Labelled.notMem {lead label : Str} {members : List Mailbox} (h : Labelled (.group lead label members)) :
    '<' ∉ lead ++ (label ++ [':']) := by
  have hlead : '<' ∉ lead := fun hm => (quiet_of_isWhitespace (h.1 _ hm)).2.2.1 rfl
  simp only [mem_append, not_or]
  exact ⟨hlead, h.2.notMem, by decide⟩

theorem pieces_bareAddr {e : Entry} (hlabel : Labelled e) (h : ∀ m ∈ e.mailboxes, Bare m) (hends : AngledEnds e) :
    e.pieces.map bareAddr = e.mailboxes.map Mailbox.address := by
  cases e with
  | mailbox m => exact congrArg (fun a => [a]) (h m mem_cons_self).bareAddr_text
  | group lead label members =>
    exact memberPieces_bareAddr h hlabel.notMem hends.1 (.inr hends.2.1) hends.2.2

/-- A mark that stands in a piece without `<` is in what is read of it. -/
theorem mem_bareAddr {s : Str} {c : Char} (h : '<' ∉ s) (hc : c ∈ s) (hsolid : isWhitespace c = false) : c ∈ bareAddr s := by
  rw [bareAddr_open h, ← count_pos_iff, count_trim hsolid]
  exact count_pos_iff.mpr hc

/-- Members whose last one is not in angle brackets: the mark that ends the group is read with it. -/
theorem memberPieces_last : ∀ {members : List Mailbox} {before : Str}, (∀ m ∈ members, Bare m) → '<' ∉ before →
    (∀ m ∈ members.getLast?, m.angled = false) → ∃ p ∈ memberPieces before members, ';' ∈ bareAddr p
  | [], before, _, hbefore, _ => by
    refine ⟨before ++ [';'], mem_cons_self, mem_bareAddr ?_ (by simp) (by decide)⟩
    rw [mem_append, not_or]
    exact ⟨hbefore, by decide⟩
  | [m], before, h, hbefore, hlast => by
    have hm := h m mem_cons_self
    refine ⟨before ++ (m.text ++ [';']), mem_cons_self, mem_bareAddr ?_ (by simp) (by decide)⟩
    rw [hm.text_eq, if_neg (by simp [hlast m rfl])]
    obtain ⟨hlead, haddr, -⟩ := hm.notMem
    simp only [mem_append, not_or]
    exact ⟨hbefore, ⟨hlead, haddr⟩, by decide⟩
  | m :: n :: rest, before, h, hbefore, hlast => by
    obtain ⟨p, hp, hmark⟩ := @memberPieces_last (n :: rest) [] (fun x hx => h x (mem_cons_of_mem _ hx)) not_mem_nil
      (fun x hx => hlast x (by rw [getLast?_cons_cons]; exact hx))
    exact ⟨p, mem_cons_of_mem _ hp, hmark⟩

/-- Members whose first one is not in angle brackets: what stands before it is read with it. -/
theorem memberPieces_first {m : Mailbox} {rest : List Mailbox} {before : Str} (hm : Bare m) (hbefore : '<' ∉ before)
    (hcolon : ':' ∈ before) (hangled : m.angled = false) : ∃ p ∈ memberPieces before (m :: rest), ':' ∈ bareAddr p := by
  obtain ⟨hlead, haddr, -⟩ := hm.notMem
  have htext : '<' ∉ m.text := by
    rw [hm.text_eq, if_neg (by simp [hangled]), mem_append, not_or]
    exact ⟨hlead, haddr⟩
  cases rest with
  | nil =>
    refine ⟨before ++ (m.text ++ [';']), mem_cons_self, mem_bareAddr ?_ (by simp [hcolon]) (by decide)⟩
    simp only [mem_append, not_or]
    exact ⟨hbefore, htext, by decide⟩
  | cons n rest =>
    refine ⟨before ++ m.text, mem_cons_self, mem_bareAddr ?_ (by simp [hcolon]) (by decide)⟩
    rw [mem_append, not_or]
    exact ⟨hbefore, htext⟩

/-- A group that does not begin and end in angle brackets has a mark in what is read of it. -/
theorem mark_of_not_angledEnds {e : Entry} (hlabel : Labelled e) (h : ∀ m ∈ e.mailboxes, Bare m) (hends : ¬ AngledEnds e) :
    ∃ p ∈ e.pieces, ':' ∈ bareAddr p ∨ ';' ∈ bareAddr p := by
  cases e with
  | mailbox m => exact absurd trivial hends
  | group lead label members =>
    have hcolon : ':' ∈ lead ++ (label ++ [':']) := by simp
    cases members with
    | nil =>
      obtain ⟨p, hp, hmark⟩ := @memberPieces_last [] _ h hlabel.notMem (by simp)
      exact ⟨p, hp, .inr hmark⟩
    | cons m rest =>
      by_cases hfirst : m.angled = true
      · have hlast : ∀ x ∈ (m :: rest).getLast?, x.angled = false := by
          intro x hx
          by_contra hangled
          refine hends ⟨cons_ne_nil _ _, fun y hy => Option.some.inj hy ▸ hfirst, fun y hy => ?_⟩
          have hsame : x = y := Option.some.inj (hx.symm.trans hy)
          rw [← hsame]
          simpa using hangled
        obtain ⟨p, hp, hmark⟩ := memberPieces_last h hlabel.notMem hlast
        exact ⟨p, hp, .inr hmark⟩
      · obtain ⟨p, hp, hmark⟩ := @memberPieces_first m rest _ (h m mem_cons_self) hlabel.notMem hcolon (by simpa using hfirst)
        exact ⟨p, hp, .inl hmark⟩

/-- A mark of the text is in its lower case, and no other is. -/
theorem mem_lower_mark (hmarks : KeepsMarks U) {c : Char} (hc : c = ':' ∨ c = ';') {s : Str} : c ∈ U.lower s ↔ c ∈ s := by
  have hsigma : c ≠ 'Σ' ∧ c ≠ 'σ' ∧ c ≠ 'ς' := by
    rcases hc with rfl | rfl <;> decide
  constructor
  · intro h
    obtain ⟨a, d, b, rfl, hd⟩ := U.mem_lowerIn h
    unfold Casing.lowerAt at hd
    split at hd
    · rw [mem_singleton] at hd
      rcases U.sigmaIn_cases (a.reverse ++ []) (b ++ []) with hs | hs
      · exact absurd (hd.trans hs) hsigma.2.1
      · exact absurd (hd.trans hs) hsigma.2.2
    · rw [hmarks d c hd hc]
      exact mem_append_right _ mem_cons_self
  · intro h
    obtain ⟨a, b, rfl⟩ := append_of_mem h
    have hself : U.lowerChar c = [c] := by
      rcases hc with rfl | rfl
      · exact U.ascii ':' (by decide)
      · exact U.ascii ';' (by decide)
    rw [Casing.lower, U.lowerIn_append, Casing.lowerIn, Casing.lowerAt, if_neg hsigma.1, hself]
    exact mem_append_right _ (mem_append_left _ mem_cons_self)

end Pieces

/-! ## Both lists -/

section Both

variable {U : Casing} {addrparse : Str → Option (List MailAddr)} {field : List Entry}

theorem checked_of_ends (hread : ReadsAs addrparse field) (haddr : ∀ m ∈ mailboxesOf field, PlainAddress m.address)
    (hlead : ∀ m ∈ mailboxesOf field, ∀ c ∈ m.lead, isWhitespace c = true) (hlabels : ∀ e ∈ field, Labelled e)
    (hunnamed : Unnamed field) (hends : ∀ e ∈ field, AngledEnds e) : Checked U addrparse field := by
  have hbare : ∀ m ∈ mailboxesOf field, Bare m := fun m hm => ⟨hunnamed m hm, haddr m hm, hlead m hm⟩
  have hexact := (@exact_iff U _ _ hread haddr).mpr hunnamed
  refine ⟨hexact, fun a => ?_⟩
  have hpieces : (field.flatMap Entry.pieces).map bareAddr = (mailboxesOf field).map Mailbox.address := by
    unfold mailboxesOf
    rw [map_flatMap, map_flatMap]
    refine flatMap_congr fun e he => ?_
    exact pieces_bareAddr (hlabels e he) (fun m hm => hbare m (mem_flatMap.mpr ⟨e, he, hm⟩)) (hends e he)
  rw [hexact, mem_envelope, parseAddrs_bareAddr hlabels hbare, hpieces, map_map]
  rfl

theorem ends_of_checked (hmarks : KeepsMarks U) (hread : ReadsAs addrparse field)
    (haddr : ∀ m ∈ mailboxesOf field, PlainAddress m.address)
    (hlead : ∀ m ∈ mailboxesOf field, ∀ c ∈ m.lead, isWhitespace c = true) (hlabels : ∀ e ∈ field, Labelled e)
    (h : Checked U addrparse field) : ∀ e ∈ field, AngledEnds e := by
  have hunnamed := (exact_iff hread haddr).mp h.exact
  have hbare : ∀ m ∈ mailboxesOf field, Bare m := fun m hm => ⟨hunnamed m hm, haddr m hm, hlead m hm⟩
  intro e he
  by_contra hends
  obtain ⟨p, hp, hmark⟩ := mark_of_not_angledEnds (hlabels e he) (fun m hm => hbare m (mem_flatMap.mpr ⟨e, he, hm⟩)) hends
  -- what is mailed to has a mark, and no address has
  obtain ⟨c, hc, hmem⟩ : ∃ c, (c = ':' ∨ c = ';') ∧ c ∈ bareAddr p := by
    rcases hmark with hmark | hmark
    · exact ⟨':', .inl rfl, hmark⟩
    · exact ⟨';', .inr rfl, hmark⟩
  have hmailed : U.lower (bareAddr p) ∈ splitAddressList addrparse U.lower (fieldText field) := by
    rw [h.mailed, mem_envelope, parseAddrs_bareAddr hlabels hbare]
    exact mem_map_of_mem (mem_map_of_mem (mem_flatMap.mpr ⟨e, he, hp⟩))
  rw [h.exact] at hmailed
  obtain ⟨m, hm, heq⟩ := mem_map.mp hmailed
  have hin : c ∈ m.address := (mem_lower_mark hmarks hc).mp (heq ▸ (mem_lower_mark hmarks hc).mpr hmem)
  obtain ⟨hno, hcolon⟩ := (haddr m hm).marks c hin
  rcases hc with rfl | rfl
  · exact hcolon rfl
  · cases hno

theorem Composed.mailbox_text {r : Recipient} (h : Composed r) (lead : Str) :
    (Entry.mailbox ⟨lead, r.name, r.address, false⟩).text = lead ++ formatRecipient r := by
  rw [h.format]
  rfl

variable {rs : List Recipient}

/-- The field of the composer's recipients is what the composer writes. -/
theorem fieldText_fieldOf (h : ∀ r ∈ rs, Composed r) : fieldText (fieldOf rs) = formatRecipients rs := by
  cases rs with
  | nil => rfl
  | cons r rs =>
    have hspaced : ∀ (s : Str) (l : List Str), join [','] (s :: l.map (fun x => ' ' :: x)) = join ", " (s :: l) := by
      have hlit : ", " = [',', ' '] := by decide
      intro s l
      induction l generalizing s with
      | nil => rfl
      | cons t l ih =>
        have hfirst : ∀ u : List Str, join [','] ((' ' :: t) :: u) = ' ' :: join [','] (t :: u) := by
          intro u
          cases u with
          | nil => rfl
          | cons v u => rfl
        rw [map_cons, join, hfirst, ih, join, hlit]
        simp
    have hentries : (fieldOf (r :: rs)).map Entry.text =
        formatRecipient r :: (rs.map formatRecipient).map (fun x => ' ' :: x) := by
      rw [fieldOf, map_cons, (h r mem_cons_self).mailbox_text, nil_append, map_map, map_map]
      refine congrArg _ (map_congr_left fun x hx => ?_)
      exact (h x (mem_cons_of_mem _ hx)).mailbox_text [' ']
    rw [fieldText, hentries, hspaced]
    rfl

theorem mem_fieldOf {e : Entry} (h : e ∈ fieldOf rs) : ∃ r ∈ rs, ∃ lead, e = .mailbox ⟨lead, r.name, r.address, false⟩ := by
  cases rs with
  | nil => cases h
  | cons r rs =>
    rcases mem_cons.mp h with rfl | h
    · exact ⟨r, mem_cons_self, [], rfl⟩
    · obtain ⟨x, hx, rfl⟩ := mem_map.mp h
      exact ⟨x, mem_cons_of_mem _ hx, [' '], rfl⟩

theorem unnamed_fieldOf : Unnamed (fieldOf rs) ↔ ∀ r ∈ rs, r.name = [] := by
  unfold Unnamed mailboxesOf
  cases rs with
  | nil => simp [fieldOf]
  | cons r rs =>
    have hmailboxes : (fieldOf (r :: rs)).flatMap Entry.mailboxes =
        ⟨[], r.name, r.address, false⟩ :: rs.map (fun x => ⟨[' '], x.name, x.address, false⟩) := by
      rw [fieldOf, flatMap_cons, flatMap_map, map_eq_flatMap]
      rfl
    rw [hmailboxes, forall_mem_cons, forall_mem_cons, forall_mem_map]

theorem plainLetters_marks : KeepsMarks Contacts.plainLetters := by
  intro c d hd hmark
  unfold Contacts.plainLetters at hd
  simp only at hd
  split at hd
  · rw [mem_singleton.mp hd] at hmark
    exact absurd hmark (by decide)
  · rw [mem_singleton] at hd
    rcases Casing.toLower_cases c with he | ⟨-, halpha, -, -⟩
    · rw [hd, he]
    · rw [← hd] at halpha
      rcases hmark with rfl | rfl <;> exact absurd halpha (by decide)

/-- Two addresses in angle brackets, and one alone. -/
def teamField : List Entry :=
  [.group [] "Team" [⟨[' '], [], "Ann@example.org", true⟩, ⟨[' '], [], "bo@example.org", true⟩],
    .mailbox ⟨[' '], [], "cy@example.org", false⟩]

def teamList (raw : Str) : Option (List MailAddr) :=
  if raw = fieldText teamField then
    some [.group "Team" [⟨none, "Ann@example.org"⟩, ⟨none, "bo@example.org"⟩],
      .single ⟨none, "cy@example.org"⟩]
  else none

/-- One recipient with a name. -/
def namedAnn : Recipient := ⟨"Ann", "Ann@example.org", .ok, []⟩

def annList (raw : Str) : Option (List MailAddr) :=
  if raw = formatRecipients [namedAnn] then some [.single ⟨some "Ann", "Ann@example.org"⟩] else none

end Both

end Oreneta.Recipients

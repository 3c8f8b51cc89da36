import Oreneta.Recipients.AddressList
import Oreneta.Recipients.Core

/-!
# The people on a message, read back

The text kept of an address header has every mailbox as `name <address>`, the name as `addrparse` decoded it: its
quotes are gone, whatever it holds.  `readBack_iff` says from which headers that text is read back as the same
mailboxes, by the composer and by the core: no entry has a separator outside quotes and brackets or leaves them
open for the next (`Cuts.Clean`), and every mailbox by itself is read as it is (`Kept`).
-/

namespace Oreneta.Recipients

open Text List

/-- The mailboxes of one or more header values, each with its display name, trimmed, and its address. -/
def mailboxes (addrparse : Str → Option (List MailAddr)) (values : List Str) : List (Str × Str) :=
  values.flatMap fun raw =>
    if trim raw = [] then []
    else (((addrparse (trim raw)).getD []).flatMap MailAddr.members).map (fun info => (shownName info, info.addr))

/-- A mailbox as the text kept has it. -/
def stored (b : Str × Str) : Str := if b.1 = [] then b.2 else b.1 ++ (" <" ++ (b.2 ++ ['>']))

/-- Both readers give the mailboxes, in order. -/
structure ReadBack (boxes : List (Str × Str)) (text : Str) : Prop where
  composer : (parseRecipients text).map (fun r => (r.name, r.address)) = boxes
  core : (parseAddrs text).map splitNameAddr = boxes

/-- A name between quotation marks. -/
def Wrapped (name : Str) : Prop := 2 ≤ name.length ∧ name.head? = some '"' ∧ name.getLast? = some '"'

instance (name : Str) : Decidable (Wrapped name) := inferInstanceAs (Decidable (_ ∧ _))

/-- A mailbox that is read as it is when it stands alone. -/
structure Kept (b : Str × Str) : Prop where
  address : trim b.2 = b.2 ∧ jsTrim b.2 = b.2
  /-- An address without a name has no `<` with a `>` after it. -/
  bare : b.1 = [] → ∀ before after, b.2 = before ++ '<' :: after → '>' ∉ after
  name : b.1 ≠ [] → jsTrim b.1 = b.1 ∧ '<' ∉ b.1 ∧ ¬ Wrapped b.1
  angled : b.1 ≠ [] → '<' ∉ b.2 ∧ '>' ∉ b.2

/-! ## The text kept -/

theorem stored_mailbox (info : SingleInfo) : stored (shownName info, info.addr) = formatted info := (formatted_eq info).symm

theorem stored_ne_nil {b : Str × Str} (h : b.2 ≠ []) : stored b ≠ [] := by
  unfold stored
  split
  · exact h
  · rename_i hname
    exact append_ne_nil_of_left_ne_nil hname _

/-- The text kept of headers that `addrparse` reads. -/
theorem collectAddressList_eq {addrparse : Str → Option (List MailAddr)} {values : List Str}
    (hread : ∀ raw ∈ values, trim raw ≠ [] → (addrparse (trim raw)).isSome = true)
    (haddr : ∀ b ∈ mailboxes addrparse values, b.2 ≠ []) :
    collectAddressList addrparse values = join ", " ((mailboxes addrparse values).map stored) := by
  have hpush : ∀ step : List Str → Str → List Str, (∀ out raw, trim raw = [] → step out raw = out) →
      (∀ out raw list, trim raw ≠ [] → addrparse (trim raw) = some list →
        step out raw = list.foldl (fun out entry => pushAddr entry out) out) →
      ∀ values out : List Str, (∀ raw ∈ values, trim raw ≠ [] → (addrparse (trim raw)).isSome = true) →
      (∀ b ∈ mailboxes addrparse values, b.2 ≠ []) → values.foldl step out = out ++ (mailboxes addrparse values).map stored := by
    intro step hskip hpushed values
    induction values with
    | nil =>
      intro out _ _
      exact (append_nil out).symm
    | cons raw values ih =>
      intro out hread haddr
      have hsplit : mailboxes addrparse (raw :: values) = mailboxes addrparse [raw] ++ mailboxes addrparse values := by
        simp [mailboxes]
      rw [hsplit] at haddr ⊢
      have hrest := fun out => ih out (fun r hr => hread r (mem_cons_of_mem _ hr))
        (fun b hb => haddr b (mem_append_right _ hb))
      rw [foldl_cons, hrest, map_append, ← append_assoc]
      congr 1
      by_cases hblank : trim raw = []
      · rw [hskip _ _ hblank]
        simp [mailboxes, hblank]
      · obtain ⟨list, hlist⟩ := Option.isSome_iff_exists.mp (hread raw mem_cons_self hblank)
        have hboxes : mailboxes addrparse [raw] = (list.flatMap MailAddr.members).map (fun info => (shownName info, info.addr)) := by
          simp [mailboxes, hblank, hlist]
        have hfull : ((list.flatMap MailAddr.members).map formatted).filter (fun s => s ≠ []) =
            (list.flatMap MailAddr.members).map formatted := by
          refine filter_eq_self.mpr fun s hs => ?_
          obtain ⟨info, hinfo, rfl⟩ := mem_map.mp hs
          have hne := haddr (shownName info, info.addr) (mem_append_left _ (hboxes ▸ mem_map_of_mem hinfo))
          exact decide_eq_true (stored_mailbox info ▸ stored_ne_nil hne)
        rw [hpushed _ _ _ hblank hlist, hboxes, map_map]
        refine (foldl_pushAddr list out).trans (congrArg _ (hfull.trans ?_))
        exact map_congr_left fun info _ => (stored_mailbox info).symm
  unfold collectAddressList
  exact congrArg _ (hpush _ (fun _ _ h => if_pos h) (fun out raw list h hl => by rw [if_neg h, hl]) values [] hread haddr)

/-! ## What the composer reads of a piece -/

theorem unescape_sublist : ∀ s : Str, (unescape s).Sublist s
  | [] => List.Sublist.refl _
  | [c] => List.Sublist.refl _
  | c :: d :: rest => by
    unfold unescape
    split
    · exact ((unescape_sublist rest).cons_cons d).cons c
    · exact (unescape_sublist (d :: rest)).cons_cons c

theorem unquote_sublist (name : Str) : (unquote name).Sublist name := by
  unfold unquote
  simp only
  split
  · exact trimBy_sublist _ _
  · exact (unescape_sublist _).trans (((dropLast_sublist _).trans (tail_sublist _)).trans (trimBy_sublist _ _))

/-- A name unquoted is itself only when it was trimmed and not wrapped. -/
theorem unquote_eq_iff {s name : Str} (h : jsTrim s = jsTrim name) : unquote s = name ↔ jsTrim name = name ∧ ¬ Wrapped name := by
  have hwrap : (jsTrim s).length < 2 ∨ (jsTrim s).head? ≠ some '"' ∨ (jsTrim s).getLast? ≠ some '"' ↔ ¬ Wrapped (jsTrim s) := by
    unfold Wrapped
    rw [not_and_or, not_and_or, Nat.not_le]
  unfold unquote
  simp only
  rw [if_congr hwrap rfl rfl, h]
  constructor
  · intro he
    by_cases hw : Wrapped (jsTrim name)
    · rw [if_neg (not_not_intro hw)] at he
      have hshort := (unescape_sublist (jsTrim name).tail.dropLast).length_le
      have hsub : (jsTrim name).length ≤ name.length := (trimBy_sublist _ _).length_le
      have hlong := hw.1
      rw [he, length_dropLast, length_tail] at hshort
      omega
    · rw [if_pos hw] at he
      exact ⟨he, he ▸ hw⟩
  · rintro ⟨htrim, hw⟩
    rw [htrim, if_pos hw]

/-- The composer's reading of a piece. -/
def composerRead (piece : Str) : Option (Str × Str) := (parseRecipient piece).map (fun r => (r.name, r.address))

/-- What is read of a piece: its address is trimmed, has no `<` when there is a name, and name and address are apart
in the piece. -/
theorem composerRead_spec {piece : Str} {b : Str × Str} (h : composerRead piece = some b) :
    jsTrim b.2 = b.2 ∧ (b.1 ≠ [] → '<' ∉ b.2) ∧ (b.1 ++ b.2).Sublist piece := by
  have hself : ∀ s : Str, jsTrim (jsTrim s) = jsTrim s := fun s => trimBy_eq_self (trimBy_trimmed _ s)
  unfold composerRead parseRecipient at h
  simp only at h
  split at h
  · cases h
  split at h
  · obtain rfl := Option.some.inj h
    exact ⟨hself piece, fun hne => absurd rfl hne, trimBy_sublist _ _⟩
  rename_i before opened hopen
  split at h
  · obtain rfl := Option.some.inj h
    exact ⟨hself piece, fun hne => absurd rfl hne, trimBy_sublist _ _⟩
  rename_i inside after hclose
  obtain rfl := Option.some.inj h
  obtain ⟨hpiece, hlast⟩ := rsplitOnce_some hopen
  obtain ⟨hopened, -⟩ := rsplitOnce_some hclose
  refine ⟨hself inside, fun _ hm => hlast ?_, ?_⟩
  · rw [hopened]
    exact mem_append_left _ ((trimBy_sublist _ _).subset hm)
  · have hin : (jsTrim inside).Sublist ('<' :: opened) := by
      rw [hopened]
      exact ((trimBy_sublist _ _).trans (sublist_append_left _ _)).cons '<'
    have hall := (unquote_sublist before).append hin
    rw [← hpiece] at hall
    exact hall.trans (trimBy_sublist _ _)

/-! ## What the core reads of a piece -/

theorem replacePair_sublist {c d : Char} : ∀ s : Str, (replacePair c d d s).Sublist s
  | [] => List.Sublist.refl _
  | [x] => List.Sublist.refl _
  | x :: y :: rest => by
    unfold replacePair
    split
    · rename_i h
      rw [h.2]
      exact ((replacePair_sublist rest).cons_cons d).cons x
    · exact (replacePair_sublist (y :: rest)).cons_cons x

theorem unwrapName_sublist (name : Str) : (unwrapName name).Sublist name := by
  unfold unwrapName
  split
  · exact ((trimBy_sublist _ _).trans ((replacePair_sublist _).trans (replacePair_sublist _))).trans
      ((dropLast_sublist _).trans (tail_sublist _))
  · exact List.Sublist.refl _

/-- A name unwrapped is itself only when it was not wrapped. -/
theorem unwrapName_eq_iff {name : Str} : unwrapName name = name ↔ ¬ Wrapped name := by
  unfold unwrapName
  constructor
  · intro he hw
    rw [if_pos (show 2 ≤ name.length ∧ _ from hw)] at he
    have hshort := ((trimBy_sublist isWhitespace _).trans ((@replacePair_sublist '\\' '\\' _).trans
      (@replacePair_sublist '\\' '"' name.tail.dropLast))).length_le
    have hlong := hw.1
    rw [← trim_eq_trimBy, he, length_dropLast, length_tail] at hshort
    omega
  · exact fun hw => if_neg hw

/-- The core's reading of a piece. -/
def coreRead (piece : Str) : Option (Str × Str) := if trim piece = [] then none else some (splitNameAddr piece)

theorem splitNameAddr_sublist (piece : Str) : ((splitNameAddr piece).1 ++ (splitNameAddr piece).2).Sublist piece := by
  unfold splitNameAddr
  simp only
  cases hopen : splitOnce '<' (trim piece) with
  | none => exact trimBy_sublist _ _
  | some p =>
    obtain ⟨before, opened⟩ := p
    cases hclose : splitOnce '>' opened with
    | none =>
      simp only [hclose]
      exact trimBy_sublist _ _
    | some q =>
      obtain ⟨inside, after⟩ := q
      simp only [hclose]
      have hin : (trim inside).Sublist ('<' :: opened) := by
        rw [(splitOnce_some hclose).1]
        exact ((trimBy_sublist _ _).trans (sublist_append_left _ _)).cons '<'
      have hall := ((unwrapName_sublist (trim before)).trans (trimBy_sublist _ before)).append hin
      rw [← (splitOnce_some hopen).1] at hall
      exact hall.trans (trimBy_sublist _ _)

/-! ## A mailbox by itself -/

section Alone

variable {name addr : Str}

theorem stored_named (hname : name ≠ []) : stored (name, addr) = (name ++ [' ']) ++ '<' :: (addr ++ ['>']) := by
  have hlit : " <" = [' ', '<'] := by decide
  simp [stored, hname, hlit]

/-- Trimming keeps the address in its brackets, and what stands before it but for white space at its beginning. -/
theorem jsTrim_stored (hname : name ≠ []) : ∃ before, jsTrim (stored (name, addr)) = before ++ '<' :: (addr ++ ['>']) ∧
    jsTrim before = jsTrim name := by
  refine ⟨(name ++ [' ']).dropWhile jsWhitespace, ?_, ?_⟩
  · have hopen : jsWhitespace '<' = false := by decide
    have hclose : jsWhitespace '>' = false := by decide
    rw [stored_named hname, jsTrim, trimBy, ← cons_append, ← append_assoc]
    have hdrop : ((name ++ [' '] ++ '<' :: addr) ++ ['>']).dropWhile jsWhitespace =
        ((name ++ [' ']).dropWhile jsWhitespace ++ '<' :: addr) ++ ['>'] := by
      rw [append_assoc, dropWhile_append]
      split
      · rename_i hempty
        rw [List.isEmpty_iff.mp hempty, cons_append, dropWhile_cons_of_neg (by simp [hopen])]
        simp
      · rw [append_assoc]
    rw [hdrop, rdropWhile_concat_neg _ _ _ (by simp [hclose]), append_assoc]
  · have hself : ∀ s : Str, jsTrim (s.dropWhile jsWhitespace) = jsTrim s := by
      intro s
      unfold jsTrim trimBy
      rw [dropWhile_idempotent]
    rw [hself]
    exact trimBy_append_of_blank (by decide) name

/-- What the composer reads of a named mailbox. -/
theorem composerRead_named (hname : name ≠ []) : composerRead (stored (name, addr)) = some (name, addr) ↔
    jsTrim addr = addr ∧ '<' ∉ addr ∧ jsTrim name = name ∧ ¬ Wrapped name := by
  obtain ⟨before, htrim, hbefore⟩ := @jsTrim_stored name addr hname
  have hne : jsTrim (stored (name, addr)) ≠ [] := by
    rw [htrim]
    simp
  have hgiven : '<' ∉ addr → composerRead (stored (name, addr)) = some (unquote before, jsTrim addr) := by
    intro hlt
    have hopened : '<' ∉ addr ++ ['>'] := by
      rw [mem_append, not_or]
      exact ⟨hlt, by decide⟩
    have hclose : rsplitOnce '>' (addr ++ ['>']) = some (addr, []) := rsplitOnce_append not_mem_nil
    unfold composerRead parseRecipient
    simp only [htrim ▸ hne, htrim, if_false, rsplitOnce_append hopened, hclose, Option.map_some]
  constructor
  · intro hread
    obtain ⟨haddr, hlt, -⟩ := composerRead_spec hread
    have hlt := hlt hname
    rw [hgiven hlt] at hread
    have hunquote := (unquote_eq_iff hbefore).mp (Prod.mk.inj (Option.some.inj hread)).1
    exact ⟨haddr, hlt, hunquote.1, hunquote.2⟩
  · rintro ⟨haddr, hlt, htrimmed, hwrap⟩
    rw [hgiven hlt, haddr, (unquote_eq_iff hbefore).mpr ⟨htrimmed, hwrap⟩]

/-- What the core reads of a named mailbox. -/
theorem coreRead_named (hname : name ≠ []) (htrimmed : trim name = name) :
    coreRead (stored (name, addr)) = some (name, addr) ↔ trim addr = addr ∧ '<' ∉ name ∧ '>' ∉ addr ∧ ¬ Wrapped name := by
  have hwhole : trim (stored (name, addr)) = stored (name, addr) := by
    have hone : Trimmed isWhitespace ['>'] := by constructor <;> decide
    have hshape : stored (name, addr) = name ++ ((" <" ++ addr) ++ ['>']) := by
      simp [stored, hname]
    rw [hshape]
    exact trimBy_eq_self (trimmed_append (trimBy_eq_self_iff.mp htrimmed) hone hname (by simp) _)
  have hne : trim (stored (name, addr)) ≠ [] := by
    rw [hwhole, stored_named hname]
    simp
  have hspace : trim (name ++ [' ']) = name :=
    trimBy_append_blank (by decide) (trimBy_eq_self_iff.mp htrimmed)
  have hgiven : '<' ∉ name → ∀ inside after, splitOnce '>' (addr ++ ['>']) = some (inside, after) →
      coreRead (stored (name, addr)) = some (unwrapName name, trim inside) := by
    intro hlt inside after hclose
    have hbefore : '<' ∉ name ++ [' '] := by
      rw [mem_append, not_or]
      exact ⟨hlt, by decide⟩
    unfold coreRead splitNameAddr
    rw [if_neg hne]
    simp only [hwhole]
    rw [stored_named hname, splitOnce_append _ hbefore]
    simp only [hclose, hspace]
  constructor
  · intro hread
    have hread' := hread
    unfold coreRead at hread'
    rw [if_neg hne] at hread'
    have hspec := splitNameAddr_spec (stored (name, addr))
    rw [Option.some.inj hread'] at hspec
    obtain ⟨hlt, haddr, -⟩ := hspec
    have hgt : '>' ∉ addr := by
      intro hm
      -- the first `>` would end the address before its end
      obtain ⟨inside, after, hsplit, hfirst⟩ := eq_append_cons_of_mem hm
      have hclose : splitOnce '>' (addr ++ ['>']) = some (inside, after ++ ['>']) := by
        rw [hsplit, append_assoc, cons_append, splitOnce_append _ hfirst]
      rw [hgiven hlt inside _ hclose] at hread
      have hlen := congrArg List.length (Prod.mk.inj (Option.some.inj hread)).2
      have hshort : (trim inside).length ≤ inside.length := (trimBy_sublist _ _).length_le
      rw [hsplit, length_append, length_cons] at hlen
      omega
    rw [hgiven hlt addr [] (splitOnce_append [] hgt)] at hread
    exact ⟨haddr, hlt, hgt, unwrapName_eq_iff.mp (Prod.mk.inj (Option.some.inj hread)).1⟩
  · rintro ⟨haddr, hlt, hgt, hwrap⟩
    rw [hgiven hlt addr [] (splitOnce_append [] hgt), unwrapName_eq_iff.mpr hwrap, haddr]

/-- An address alone is read by both as it is. -/
theorem read_bare (haddr : trim addr = addr) (hjs : jsTrim addr = addr) (hne : addr ≠ [])
    (hbare : ∀ before after, addr = before ++ '<' :: after → '>' ∉ after) :
    composerRead addr = some ([], addr) ∧ coreRead addr = some ([], addr) := by
  constructor
  · unfold composerRead parseRecipient
    simp only [hjs, hne, if_false]
    cases hopen : rsplitOnce '<' addr with
    | none => rfl
    | some p =>
      obtain ⟨before, opened⟩ := p
      have hgt := hbare before opened (rsplitOnce_some hopen).1
      simp only [rsplitOnce_eq_none.mpr hgt, Option.map_some]
  · unfold coreRead splitNameAddr
    simp only [haddr, hne, if_false]
    cases hopen : splitOnce '<' addr with
    | none => rfl
    | some p =>
      obtain ⟨before, opened⟩ := p
      have hgt := hbare before opened (splitOnce_some hopen).1
      simp only [splitOnce_eq_none.mpr hgt]

theorem bare_of_read (hread : coreRead addr = some ([], addr)) (before after : Str) (he : addr = before ++ '<' :: after) :
    '>' ∉ after := by
  intro hm
  unfold coreRead at hread
  split at hread
  · cases hread
  have hread := Option.some.inj hread
  have htrim : trim addr = addr := by
    have := (splitNameAddr_spec addr).2.1
    rwa [hread] at this
  have hmem : '<' ∈ addr := he ▸ mem_append_right _ mem_cons_self
  obtain ⟨first, opened, hopen, hfirst⟩ := eq_append_cons_of_mem hmem
  have hsplit : splitOnce '<' addr = some (first, opened) := by
    conv_lhs => rw [hopen]
    exact splitOnce_append _ hfirst
  -- the first `<` stands before the one given, or is it
  have hlater : '>' ∈ opened := by
    have hlen : first.length ≤ before.length := by
      by_contra hlt
      have hp : (before ++ ['<']) <+: first := by
        refine @List.prefix_of_prefix_length_le _ _ _ addr ⟨after, ?_⟩ ⟨'<' :: opened, hopen.symm⟩ ?_
        · rw [append_assoc, singleton_append, ← he]
        · simp only [length_append, length_cons, length_nil]
          omega
      exact hfirst (hp.subset (by simp))
    obtain ⟨mid, hmid⟩ := prefix_of_prefix_length_le ⟨_, hopen.symm⟩ ⟨_, he.symm⟩ hlen
    have htail : '<' :: opened = mid ++ '<' :: after := by
      have := hopen.symm.trans he
      rw [← hmid, append_assoc] at this
      exact append_cancel_left this
    cases mid with
    | nil => exact (List.cons.inj htail).2 ▸ hm
    | cons x mid => exact (List.cons.inj htail).2 ▸ mem_append_right _ (mem_cons_of_mem _ hm)
  obtain ⟨inside, rest, hclose, hinside⟩ := eq_append_cons_of_mem hlater
  have hlen : ((splitNameAddr addr).2).length ≤ inside.length := by
    unfold splitNameAddr
    simp only [htrim, hsplit]
    rw [hclose, splitOnce_append _ hinside]
    exact (trimBy_sublist _ _).length_le
  have htotal : inside.length < addr.length := by
    rw [hopen, hclose]
    simp only [length_append, length_cons]
    omega
  rw [hread] at hlen
  simp only at hlen
  omega

/-- **A mailbox alone is read by both as it is exactly when it is `Kept`.** -/
theorem kept_iff (htrimmed : trim name = name) (hne : addr ≠ []) : composerRead (stored (name, addr)) = some (name, addr) ∧
    coreRead (stored (name, addr)) = some (name, addr) ↔ Kept (name, addr) := by
  by_cases hname : name = []
  · subst hname
    have hs : stored ([], addr) = addr := rfl
    rw [hs]
    constructor
    · rintro ⟨hcomposer, hcore⟩
      have hjs := (composerRead_spec hcomposer).1
      have haddr : trim addr = addr := by
        have := (splitNameAddr_spec addr).2.1
        have hcore' := hcore
        unfold coreRead at hcore'
        split at hcore'
        · cases hcore'
        · rwa [Option.some.inj hcore'] at this
      exact ⟨⟨haddr, hjs⟩, fun _ => bare_of_read hcore, fun h => absurd rfl h, fun h => absurd rfl h⟩
    · intro h
      exact read_bare h.address.1 h.address.2 hne (h.bare rfl)
  · rw [composerRead_named hname, coreRead_named hname htrimmed]
    constructor
    · rintro ⟨⟨hjs, hlt, hnamejs, hwrap⟩, haddr, hnamelt, hgt, -⟩
      exact ⟨⟨haddr, hjs⟩, fun h => absurd h hname, fun _ => ⟨hnamejs, hnamelt, hwrap⟩, fun _ => ⟨hlt, hgt⟩⟩
    · intro h
      obtain ⟨hnamejs, hnamelt, hwrap⟩ := h.name hname
      obtain ⟨hlt, hgt⟩ := h.angled hname
      exact ⟨⟨h.address.2, hlt, hnamejs, hwrap⟩, h.address.1, hnamelt, hgt, hwrap⟩

end Alone

/-! ## The whole text -/

/-- Headers whose mailboxes are read back. -/
structure Survives (boxes : List (Str × Str)) : Prop where
  each : ∀ b ∈ boxes, Kept b
  /-- No `,` or `;` of an entry stands outside quotes and angle brackets, and every entry but the last closes them. -/
  composer : Cuts.Clean composerScanner (boxes.map stored)
  /-- The same of `,`, without escapes. -/
  core : Cuts.Clean coreScanner (boxes.map stored)

theorem parseRecipients_map (text : Str) : (parseRecipients text).map (fun r => (r.name, r.address)) =
    (Cuts.pieces composerScanner composerScanner.start [] text).filterMap composerRead := by
  rw [parseRecipients, splitRecipients_eq, map_filterMap]
  rfl

theorem parseAddrs_map (text : Str) : (parseAddrs text).map splitNameAddr =
    (Cuts.pieces coreScanner coreScanner.start [] text).filterMap coreRead := by
  rw [parseAddrs_eq]
  induction Cuts.pieces coreScanner coreScanner.start [] text with
  | nil => rfl
  | cons piece rest ih =>
    rw [flatMap_cons, map_append, ih, filterMap_cons]
    unfold entry coreRead
    split
    · rfl
    · have hsame : splitNameAddr (trim piece) = splitNameAddr piece := by
        unfold splitNameAddr
        rw [trim_trim]
      rw [map_cons, hsame]
      rfl

theorem composerRead_spaced (e : Str) : composerRead ([' '] ++ e) = composerRead e := by
  unfold composerRead parseRecipient jsTrim
  rw [trimBy_blank_append (by decide)]

theorem coreRead_spaced (e : Str) : coreRead ([' '] ++ e) = coreRead e := by
  unfold coreRead splitNameAddr
  rw [trim_eq_trimBy, trim_eq_trimBy, trimBy_blank_append (by decide)]

/-- The separators of an entry are those of its name and of its address. -/
theorem marks_stored {σ : Type} {k : Cuts.Scanner σ} (h : ∀ c ∈ [' ', '<', '>'], k.separates c = false) (b : Str × Str) :
    Cuts.marks k (stored b) = Cuts.marks k (b.1 ++ b.2) := by
  have hopen : Cuts.marks k " <" = 0 := by
    have hlit : " <" = [' ', '<'] := by decide
    rw [hlit, Cuts.marks_cons, Cuts.marks_cons, h ' ' (by decide), h '<' (by decide)]
    rfl
  have hclose : Cuts.marks k ['>'] = 0 := by
    rw [Cuts.marks_cons, h '>' (by decide)]
    rfl
  unfold stored
  split
  · rename_i hname
    rw [hname, nil_append]
  · rw [Cuts.marks_append, Cuts.marks_append, Cuts.marks_append, Cuts.marks_append, hopen, hclose]
    omega

/-- Entries joined, and read by a reader whose pieces have the separators of what is read. -/
theorem read_stored_iff {σ : Type} [DecidableEq σ] {k : Cuts.Scanner σ} {read : Str → Option (Str × Str)}
    (hbetween : Cuts.Between k ',' [' ']) (hmarks : ∀ c ∈ [' ', '<', '>'], k.separates c = false)
    (hread : ∀ piece b, read piece = some b → (b.1 ++ b.2).Sublist piece) (hspaced : ∀ e, read ([' '] ++ e) = read e)
    {boxes : List (Str × Str)} (hne : boxes ≠ []) :
    (Cuts.pieces k k.start [] (join ", " (boxes.map stored))).filterMap read = boxes ↔
      Cuts.Clean k (boxes.map stored) ∧ ∀ b ∈ boxes, read (stored b) = some b := by
  have hlit : ", " = [',', ' '] := by decide
  have hweights : (boxes.map stored).map (Cuts.marks k) = boxes.map (fun b => Cuts.marks k (b.1 ++ b.2)) := by
    rw [map_map]
    exact map_congr_left fun b _ => marks_stored hmarks b
  have hle : ∀ piece b, read piece = some b → Cuts.marks k (b.1 ++ b.2) ≤ Cuts.marks k piece :=
    fun piece b h => Cuts.marks_sublist (hread piece b h)
  rw [hlit, Cuts.read_join_iff hbetween hle hspaced (by simpa using hne) hweights, map_map, map_inj_left]
  rfl

theorem mailboxes_spec {addrparse : Str → Option (List MailAddr)} {values : List Str}
    (hat : ∀ raw list, addrparse raw = some list → ∀ entry ∈ list, ∀ info ∈ entry.members, '@' ∈ info.addr) :
    ∀ b ∈ mailboxes addrparse values, trim b.1 = b.1 ∧ b.2 ≠ [] := by
  intro b hb
  obtain ⟨raw, -, hb⟩ := mem_flatMap.mp hb
  split at hb
  · cases hb
  obtain ⟨info, hinfo, rfl⟩ := mem_map.mp hb
  obtain ⟨entry, hentry, hinfo⟩ := mem_flatMap.mp hinfo
  cases hlist : addrparse (trim raw) with
  | none =>
    rw [hlist] at hentry
    cases hentry
  | some list =>
    rw [hlist] at hentry
    exact ⟨trim_trim _, ne_nil_of_mem (hat _ _ hlist entry hentry info hinfo)⟩

/-- **Which headers are read back.** `addrparse` gives no address without an `@`. -/
theorem readBack_iff (addrparse : Str → Option (List MailAddr)) (values : List Str)
    (hread : ∀ raw ∈ values, trim raw ≠ [] → (addrparse (trim raw)).isSome = true)
    (hat : ∀ raw list, addrparse raw = some list → ∀ entry ∈ list, ∀ info ∈ entry.members, '@' ∈ info.addr) :
    ReadBack (mailboxes addrparse values) (collectAddressList addrparse values) ↔ Survives (mailboxes addrparse values) := by
  have hspec := @mailboxes_spec addrparse values hat
  rw [collectAddressList_eq hread fun b hb => (hspec b hb).2]
  generalize mailboxes addrparse values = boxes at hspec
  by_cases hne : boxes = []
  · subst hne
    exact ⟨fun _ => ⟨by simp, trivial, trivial⟩, fun _ => ⟨rfl, rfl⟩⟩
  have hcomposer := @read_stored_iff _ _ composerScanner composerRead (by constructor <;> decide) (by decide)
    (fun _ _ h => (composerRead_spec h).2.2) composerRead_spaced boxes hne
  have hcore := @read_stored_iff _ _ coreScanner coreRead (by constructor <;> decide) (by decide) (fun piece b h => by
      unfold coreRead at h
      split at h
      · cases h
      · exact Option.some.inj h ▸ splitNameAddr_sublist piece) coreRead_spaced boxes hne
  rw [← parseRecipients_map] at hcomposer
  rw [← parseAddrs_map] at hcore
  constructor
  · intro h
    obtain ⟨hcleanComposer, hreadComposer⟩ := hcomposer.mp h.composer
    obtain ⟨hcleanCore, hreadCore⟩ := hcore.mp h.core
    refine ⟨fun b hb => ?_, hcleanComposer, hcleanCore⟩
    exact (kept_iff (hspec b hb).1 (hspec b hb).2).mp ⟨hreadComposer b hb, hreadCore b hb⟩
  · intro h
    have halone := fun b hb => (kept_iff (hspec b hb).1 (hspec b hb).2).mpr (h.each b hb)
    exact ⟨hcomposer.mpr ⟨h.composer, fun b hb => (halone b hb).1⟩, hcore.mpr ⟨h.core, fun b hb => (halone b hb).2⟩⟩

/-- A header with a group, a plain name and an address alone. -/
def teamHeader : Str := "Team: Ann Roe <ann@example.org>, bo@example.org;, Cy Lee <cy@example.org>"

def teamRead (raw : Str) : Option (List MailAddr) :=
  if raw = teamHeader then
    some [.group "Team" [⟨some "Ann Roe", "ann@example.org"⟩, ⟨none, "bo@example.org"⟩],
      .single ⟨some "Cy Lee", "cy@example.org"⟩]
  else none

theorem teamHeader_readBack : ReadBack (mailboxes teamRead [teamHeader]) (collectAddressList teamRead [teamHeader]) ↔
    Survives (mailboxes teamRead [teamHeader]) :=
  readBack_iff teamRead [teamHeader] (by decide) (by
    intro raw list h entry hentry info hinfo
    unfold teamRead at h
    split at h
    · obtain rfl := Option.some.inj h
      rcases mem_pair.mp hentry with rfl | rfl
      · rcases mem_pair.mp hinfo with rfl | rfl <;> decide
      · rw [mem_singleton.mp hinfo]
        decide
    · cases h)

/-- One person, whose name was quoted in the header for the comma in it. -/
def quotedHeader : Str := "\"Doe, Jane\" <jane@example.org>"

def quotedRead (raw : Str) : Option (List MailAddr) :=
  if raw = quotedHeader then some [.single ⟨some "Doe, Jane", "jane@example.org"⟩] else none

theorem quotedHeader_split : mailboxes quotedRead [quotedHeader] = [("Doe, Jane".toList, "jane@example.org".toList)] ∧
    ¬ ReadBack (mailboxes quotedRead [quotedHeader]) (collectAddressList quotedRead [quotedHeader]) ∧
    (parseRecipients (collectAddressList quotedRead [quotedHeader])).map (fun r => (r.name, r.address)) =
      [([], "Doe".toList), ("Jane".toList, "jane@example.org".toList)] ∧
    (parseAddrs (collectAddressList quotedRead [quotedHeader])).map splitNameAddr =
      [([], "Doe".toList), ("Jane".toList, "jane@example.org".toList)] := by
  refine ⟨by decide +kernel, fun h => ?_, by decide +kernel, by decide +kernel⟩
  have hlen := congrArg List.length h.core
  exact absurd hlen (by decide +kernel)

end Oreneta.Recipients

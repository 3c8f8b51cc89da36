import Oreneta.Recipients.Core

/-!
# Who is mailed is who was written

`agrees_iff`: the composer and the core agree on the recipients of a field exactly when no name has a `<`, no
name has a comma after an odd number of quotes, every name but the last has an even number of quotes, and no
address begins or ends with what the core takes for white space and the composer does not (`Readable`).

The proof goes over the recipients one by one.  A comma that is not guarded cuts the first entry inside its
name.  An odd number of quotes leaves them open over the comma that follows: then an entry has a comma more than
its name, and there are not enough commas left for the others.
-/

namespace Oreneta.Recipients

open Text List

/-- The name and the address of a recipient. -/
def pair (r : Recipient) : Str × Str := (r.name, r.address)

/-- The composer reads back what it wrote, the core reads the same, and mails exactly that. -/
structure Agrees (lower : Str → Str) (rs : List Recipient) : Prop where
  composer : (parseRecipients (formatRecipients rs)).map pair = rs.map pair
  core : (parseAddrs (formatRecipients rs)).map splitNameAddr = rs.map pair
  /-- However the entries are spread over the header's fields. -/
  envelope : ∀ to_ cc bcc, to_ ++ (cc ++ bcc) = parseAddrs (formatRecipients rs) →
    envelopeRecipients lower to_ cc bcc = withoutRepeats lower (rs.map Recipient.address)
  mailed : ∀ e ∈ parseAddrs (formatRecipients rs), ∃ a ∈ envelopeRecipients lower (parseAddrs (formatRecipients rs)) [] [],
    lower a = lower (splitNameAddr e).2
  written : ∀ a ∈ envelopeRecipients lower (parseAddrs (formatRecipients rs)) [] [],
    ∃ e ∈ parseAddrs (formatRecipients rs), (splitNameAddr e).2 = a

/-- The recipients the core reads as they were written. -/
structure Readable (rs : List Recipient) : Prop where
  angle : ∀ r ∈ rs, '<' ∉ r.name
  trimmed : ∀ r ∈ rs, trim r.address = r.address
  /-- Every comma of a name has an even number of quotes before it. -/
  commas : ∀ r ∈ rs, ∀ before after, r.name = before ++ ',' :: after → before.count '"' % 2 = 0
  /-- Every name but the last has an even number of quotes. -/
  quotes : ∀ r ∈ rs.dropLast, r.name.count '"' % 2 = 0

theorem guarded_iff {name : Str} : Guarded true name ↔
    ∀ before after, name = before ++ ',' :: after → before.count '"' % 2 = 0 := by
  refine forall_congr' fun before => forall_congr' fun after => imp_congr_right fun _ => ?_
  unfold openAfter
  split <;> simp_all

/-- A name that is not guarded has a first comma where quotes are closed. -/
theorem first_unguarded {name : Str} (h : ¬ Guarded true name) :
    ∃ before after, name = before ++ ',' :: after ∧ Guarded true before ∧ openAfter true before = false := by
  induction hn : name.length using Nat.strong_induction_on generalizing name with
  | _ n ih =>
    unfold Guarded at h
    push Not at h
    obtain ⟨before, after, he, hopen⟩ := h
    by_cases hguard : Guarded true before
    · exact ⟨before, after, he, hguard, Bool.eq_false_iff.mpr hopen⟩
    · have hlen : before.length < n := by
        rw [← hn, he, length_append, length_cons]
        omega
      obtain ⟨before', after', he', hrest⟩ := ih before.length hlen hguard rfl
      exact ⟨before', after' ++ ',' :: after, by rw [he, he']; simp, hrest⟩

/-! ## Readable recipients are read -/

variable {before : Str}

theorem entry_of_trimmed {s : Str} (hbefore : ∀ c ∈ before, isWhitespace c = true)
    (h : Trimmed isWhitespace s) (hne : s ≠ []) : entry (before ++ s) = [s] := by
  have htrim : trim (before ++ s) = s := by rw [trim_eq_trimBy, trimBy_blank_append hbefore, trimBy_eq_self h]
  rw [entry, htrim, if_neg hne]

variable {r : Recipient} {rs : List Recipient}

/-- The entries after one that leaves no quotes open. -/
theorem entriesFrom_next {x : Recipient} (hbefore : ∀ c ∈ before, isWhitespace c = true)
    (h : Composed r) (hname : '<' ∉ r.name) (haddress : trim r.address = r.address) (hguard : Guarded true r.name)
    (heven : oddQuotes r.name = false) : entriesFrom false false before (join ", " ((r :: x :: rs).map formatRecipient)) =
      Recipients.written r :: entriesFrom false false [' '] (join ", " ((x :: rs).map formatRecipient)) := by
  have hcomma : ∀ cur s : Str, entriesFrom false false cur (", " ++ s) =
      entry cur ++ entriesFrom false false [' '] s := by
    intro cur s
    have hlit : ", " = [',', ' '] := by decide
    have hspace := @entriesFrom_plain false false [' '] (by decide) [] s
    rw [singleton_append, nil_append] at hspace
    rw [hlit, cons_append, cons_append, nil_append, entriesFrom, if_neg (by decide), if_neg (by decide),
      if_neg (by decide), if_pos (by decide), hspace]
  rw [map_cons, map_cons, join, h.format, append_assoc, entriesFrom_written h hname hguard, heven, hcomma,
    entry_of_trimmed hbefore (h.trim_written haddress) (written_ne_nil h), singleton_append]

/-- The entry of the last recipient, whatever its quotes. -/
theorem entriesFrom_last (hbefore : ∀ c ∈ before, isWhitespace c = true) (h : Composed r)
    (hname : '<' ∉ r.name) (haddress : trim r.address = r.address) (hguard : Guarded true r.name) :
    entriesFrom false false before (join ", " ([r].map formatRecipient)) = [Recipients.written r] := by
  have hread := entriesFrom_written h hname hguard before []
  rw [append_nil] at hread
  rw [map_cons, map_nil, join, h.format, hread, entriesFrom,
    entry_of_trimmed hbefore (h.trim_written haddress) (written_ne_nil h)]

/-- Two recipients or more: what the first must be, and what the others. -/
theorem readable_cons {x : Recipient} : Readable (r :: x :: rs) ↔
    ('<' ∉ r.name ∧ trim r.address = r.address ∧ Guarded true r.name ∧ oddQuotes r.name = false) ∧ Readable (x :: rs) := by
  have hodd : oddQuotes r.name = false ↔ r.name.count '"' % 2 = 0 := by
    unfold oddQuotes
    rcases Nat.mod_two_eq_zero_or_one (r.name.count '"') with h | h <;> simp [h]
  rw [hodd, guarded_iff]
  constructor
  · intro h
    refine ⟨⟨h.angle r mem_cons_self, h.trimmed r mem_cons_self, h.commas r mem_cons_self, h.quotes r mem_cons_self⟩, ?_⟩
    exact ⟨fun y hy => h.angle y (mem_cons_of_mem _ hy), fun y hy => h.trimmed y (mem_cons_of_mem _ hy),
      fun y hy => h.commas y (mem_cons_of_mem _ hy), fun y hy => h.quotes y (mem_cons_of_mem _ hy)⟩
  · rintro ⟨⟨hangle, htrim, hcommas, hquotes⟩, h⟩
    constructor
    · exact forall_mem_cons.mpr ⟨hangle, h.angle⟩
    · exact forall_mem_cons.mpr ⟨htrim, h.trimmed⟩
    · exact forall_mem_cons.mpr ⟨hcommas, h.commas⟩
    · exact forall_mem_cons.mpr ⟨hquotes, h.quotes⟩

theorem core_reads : ∀ {rs : List Recipient} {before : Str}, (∀ c ∈ before, isWhitespace c = true) →
    (∀ r ∈ rs, Composed r) → Readable rs →
    (entriesFrom false false before (join ", " (rs.map formatRecipient))).map splitNameAddr = rs.map pair
  | [], before, hbefore, _, _ => by
    have hblank : trim before = [] := by
      have := trimBy_blank_append hbefore []
      rw [append_nil] at this
      rw [trim_eq_trimBy, this]
      rfl
    rw [map_nil, join, entriesFrom, entry, if_pos hblank, map_nil, map_nil]
  | [r], before, hbefore, h, hread => by
    have hr := h r mem_cons_self
    have hname := hread.angle r mem_cons_self
    have haddress := hread.trimmed r mem_cons_self
    have hguard := guarded_iff.mpr (hread.commas r mem_cons_self)
    rw [entriesFrom_last hbefore hr hname haddress hguard, map_cons, splitNameAddr_written hr hname haddress]
    rfl
  | r :: x :: rs, before, hbefore, h, hread => by
    obtain ⟨⟨hname, haddress, hguard, heven⟩, hrest⟩ := readable_cons.mp hread
    have hr := h r mem_cons_self
    rw [entriesFrom_next hbefore hr hname haddress hguard heven, map_cons, splitNameAddr_written hr hname haddress,
      core_reads (by decide) (fun y hy => h y (mem_cons_of_mem _ hy)) hrest]
    rfl

/-! ## What is read is readable -/

/-- A comma that is not guarded cuts the first entry: what is read of it is no recipient's. -/
theorem unguarded_cut {r : Recipient} {before rest : Str} (hbefore : ∀ c ∈ before, isWhitespace c = true)
    (hname : '<' ∉ r.name) (hguard : ¬ Guarded true r.name) :
    ∃ first others, entriesFrom false false before (Recipients.written r ++ rest) = first :: others ∧
      '"' ∈ (splitNameAddr first).2 := by
  obtain ⟨start, after, he, hstart, hclosed⟩ := first_unguarded hguard
  have hneeds : needsQuotes r.name = true := by
    rw [he]
    simp [needsQuotes]
  have hne : r.name ≠ [] := by
    rw [he]
    simp
  have hlt : '<' ∉ start := fun hm => hname (he ▸ mem_append_left _ hm)
  have hescape : Quoted.escape r.name = Quoted.escape start ++ ',' :: Quoted.escape after := by
    rw [he]
    simp [Quoted.escape]
  have hwritten : ∃ tail, Recipients.written r ++ rest = '"' :: (Quoted.escape start ++ ',' :: tail) := by
    rw [Recipients.written, if_neg hne, writtenName, if_pos hneeds, append_assoc, Quoted.quote_append, hescape,
      append_assoc, cons_append]
    exact ⟨_, rfl⟩
  obtain ⟨tail, htail⟩ := hwritten
  have hhead : isWhitespace '"' = false := by decide
  have hcut : trim (before ++ '"' :: Quoted.escape start) = '"' :: (Quoted.escape start).rdropWhile isWhitespace := by
    rw [trim_eq_trimBy, trimBy_blank_append hbefore, trimBy_cons hhead]
  have hno : '<' ∉ '"' :: (Quoted.escape start).rdropWhile isWhitespace := by
    rw [mem_cons, not_or]
    exact ⟨by decide, fun hm => notMem_escape hlt ((List.rdropWhile_prefix isWhitespace _).subset hm)⟩
  refine ⟨'"' :: (Quoted.escape start).rdropWhile isWhitespace, entriesFrom false false [] tail, ?_, ?_⟩
  · rw [htail, entriesFrom_quote, Bool.not_false, entriesFrom_escape hlt hstart, hclosed, entriesFrom, if_neg (by decide),
      if_neg (by decide), if_neg (by decide), if_pos (by decide), append_assoc, singleton_append, entry, hcut,
      if_neg (cons_ne_nil _ _), singleton_append]
  · have hself : trim ('"' :: (Quoted.escape start).rdropWhile isWhitespace) =
        '"' :: (Quoted.escape start).rdropWhile isWhitespace := by rw [← hcut, trim_trim]
    unfold splitNameAddr
    simp only [hself, splitOnce_eq_none.mpr hno]
    exact mem_cons_self

/-- The commas of the names that are read are no more than those of the entries. -/
theorem read_commas (entries : List Str) : ((entries.map splitNameAddr).map (fun q => q.1.count ',')).sum ≤
    (entries.map (List.count ',')).sum := by
  induction entries with
  | nil => exact le_refl _
  | cons e entries ih =>
    have := (splitNameAddr_spec e).2.2
    simp only [map_cons, sum_cons]
    omega

/-- An odd number of quotes keeps the next comma in the entry: too few commas are left for the others. -/
theorem odd_merged {x : Recipient} (hbefore : ∀ c ∈ before, isWhitespace c = true)
    (hcomposed : ∀ y ∈ r :: x :: rs, Composed y) (hname : '<' ∉ r.name) (haddress : trim r.address = r.address)
    (hguard : Guarded true r.name) (hodd : oddQuotes r.name = true)
    (hread : (entriesFrom false false before (join ", " ((r :: x :: rs).map formatRecipient))).map splitNameAddr =
      (r :: x :: rs).map pair) : False := by
  have h := hcomposed r mem_cons_self
  have hrest : ∀ y ∈ x :: rs, Composed y := fun y hy => hcomposed y (mem_cons_of_mem _ hy)
  generalize hfield : join ", " ((r :: x :: rs).map formatRecipient) = field at hread
  -- what is read before the first entry is pushed has the comma in it
  obtain ⟨more, others, hfirst⟩ : ∃ more others, entriesFrom false false before field =
      entry (before ++ (Recipients.written r ++ ',' :: more)) ++ others := by
    have hmerge : ∃ s, entriesFrom false false before field =
        entriesFrom true false (before ++ Recipients.written r ++ [',']) s := by
      have hlit : ", " = [','] ++ [' '] := by decide
      refine ⟨' ' :: join ", " ((x :: rs).map formatRecipient), ?_⟩
      rw [← hfield, map_cons, map_cons, join, h.format, append_assoc, entriesFrom_written h hname hguard,
        hodd, hlit, append_assoc, entriesFrom_quoted (by decide)]
      rfl
    obtain ⟨s, hs⟩ := hmerge
    obtain ⟨more, others, he⟩ := entriesFrom_first true false (before ++ Recipients.written r ++ [',']) s
    exact ⟨more, others, by rw [hs, he]; simp⟩
  obtain ⟨first, hentry, hcount⟩ : ∃ first, entry (before ++ (Recipients.written r ++ ',' :: more)) = [first] ∧
      r.name.count ',' + 1 ≤ first.count ',' := by
    have hw := count_written h
    have htrimmed := h.trim_written haddress
    cases hwritten : Recipients.written r with
    | nil => exact absurd hwritten (written_ne_nil h)
    | cons c s =>
      rw [hwritten] at hw htrimmed
      have hc : isWhitespace c = false := htrimmed.1 c rfl
      have hcomma : isWhitespace ',' = false := by decide
      refine ⟨c :: (s ++ ',' :: more.rdropWhile isWhitespace), ?_, ?_⟩
      · have htrim : trim (before ++ (c :: s ++ ',' :: more)) = c :: (s ++ ',' :: more.rdropWhile isWhitespace) := by
          rw [trim_eq_trimBy, trimBy_blank_append hbefore, cons_append, trimBy_keeps hc hcomma]
        rw [entry, htrim, if_neg (cons_ne_nil _ _)]
      · rw [← cons_append, count_append, hw, count_cons_self]
        omega
  have hblank : before.count ',' = 0 := count_eq_zero_of_not_mem fun hm => absurd (hbefore _ hm) (by decide)
  have htotal := entriesFrom_commas false false before field
  have hlength := congrArg List.length hread
  have hnames := congrArg (fun l => (l.map fun q => q.1.count ',').sum) hread
  have hothers := read_commas others
  have hfieldCount : field.count ',' = ((r :: x :: rs).map fun y => y.name.count ',').sum + (x :: rs).length :=
    hfield ▸ count_field r h hrest
  simp only [hfirst, hentry, singleton_append, map_cons, sum_cons, length_cons, length_map,
    map_map, pair, Function.comp_def] at htotal hlength hnames hothers hfieldCount hread
  have hreadFirst : splitNameAddr first = (r.name, r.address) := (List.cons.inj hread).1
  rw [hreadFirst] at hnames
  simp only at hnames
  omega

theorem readable_of_read : ∀ {rs : List Recipient} {before : Str}, (∀ c ∈ before, isWhitespace c = true) →
    (∀ r ∈ rs, Composed r) → (∀ r ∈ rs, '<' ∉ r.name) → (∀ r ∈ rs, trim r.address = r.address) →
    (entriesFrom false false before (join ", " (rs.map formatRecipient))).map splitNameAddr = rs.map pair → Readable rs
  | [], _, _, _, _, _, _ => ⟨by simp, by simp, by simp, by simp⟩
  | r :: rs, before, hbefore, hcomposed, hangle, htrim, hread => by
    have h := hcomposed r mem_cons_self
    have hname := hangle r mem_cons_self
    have haddress := htrim r mem_cons_self
    have hguard : Guarded true r.name := by
      by_contra hguard
      obtain ⟨rest, hfield⟩ : ∃ rest, join ", " ((r :: rs).map formatRecipient) = Recipients.written r ++ rest := by
        cases rs with
        | nil => exact ⟨[], by rw [map_cons, map_nil, join, h.format, append_nil]⟩
        | cons x rs => exact ⟨_, by rw [map_cons, map_cons, join, h.format, append_assoc]⟩
      obtain ⟨first, others, hfirst, hquote⟩ := @unguarded_cut r before rest hbefore hname hguard
      rw [hfield, hfirst, map_cons, map_cons, List.cons.injEq] at hread
      rw [hread.1] at hquote
      exact h.notMem (by decide) hquote
    cases rs with
    | nil =>
      refine ⟨hangle, htrim, ?_, by simp⟩
      intro y hy
      rw [mem_singleton.mp hy]
      exact guarded_iff.mp hguard
    | cons x rs =>
      have heven : oddQuotes r.name = false := by
        by_contra hodd
        exact odd_merged hbefore hcomposed hname haddress hguard (Bool.not_eq_false _ ▸ hodd) hread
      refine readable_cons.mpr ⟨⟨hname, haddress, hguard, heven⟩, ?_⟩
      rw [entriesFrom_next hbefore h hname haddress hguard heven, map_cons] at hread
      have htail := (List.cons.inj (hread.trans map_cons)).2
      exact readable_of_read (by decide) (fun y hy => hcomposed y (mem_cons_of_mem _ hy))
        (fun y hy => hangle y (mem_cons_of_mem _ hy)) (fun y hy => htrim y (mem_cons_of_mem _ hy)) htail

/-- The core's reading, and the rest follows from it. -/
theorem core_iff (h : ∀ r ∈ rs, Composed r) :
    (parseAddrs (formatRecipients rs)).map splitNameAddr = rs.map pair ↔ Readable rs := by
  constructor
  · intro hread
    have hspec : ∀ r ∈ rs, '<' ∉ r.name ∧ trim r.address = r.address := by
      intro r hr
      have hm : pair r ∈ (parseAddrs (formatRecipients rs)).map splitNameAddr := hread ▸ mem_map_of_mem hr
      obtain ⟨e, -, he⟩ := mem_map.mp hm
      have := splitNameAddr_spec e
      rw [he] at this
      exact ⟨this.1, this.2.1⟩
    exact @readable_of_read rs [] (by simp) h (fun r hr => (hspec r hr).1) (fun r hr => (hspec r hr).2) hread
  · exact fun hread => @core_reads rs [] (by simp) h hread

/-- **Whose field is read as it was written, and mailed to whom it names.** -/
theorem agrees_iff (lower : Str → Str) (rs : List Recipient) (h : ∀ r ∈ rs, Composed r) : Agrees lower rs ↔ Readable rs := by
  constructor
  · exact fun hagrees => (core_iff h).mp hagrees.core
  · intro hread
    have hcore := (core_iff h).mpr hread
    have haddresses : (parseAddrs (formatRecipients rs)).map bareAddr = rs.map Recipient.address := by
      have := congrArg (List.map Prod.snd) hcore
      rw [map_map, map_map] at this
      have hbare : bareAddr = Prod.snd ∘ splitNameAddr := funext bareAddr_eq
      rw [hbare]
      exact this
    constructor
    · exact composer_reads h
    · exact hcore
    · intro to_ cc bcc he
      rw [envelopeRecipients_eq, he, haddresses]
    · intro e he
      rw [envelopeRecipients_eq, append_nil, append_nil]
      exact mem_withoutRepeats (mem_map.mpr ⟨e, he, bareAddr_eq e⟩)
    · intro a ha
      rw [envelopeRecipients_eq, append_nil, append_nil] at ha
      obtain ⟨e, he, heq⟩ := mem_map.mp (withoutRepeats_subset _ ha)
      exact ⟨e, he, by rw [← bareAddr_eq, heq]⟩

/-- Two recipients, one with a comma and two quotes in the name. -/
def readableField : List Recipient :=
  [⟨"Doe, \"J\" Jane", "jane@example.org", .ok, []⟩, ⟨[], "bob@example.org", .ok, []⟩]

theorem readableField_agrees : Agrees id readableField ↔ Readable readableField :=
  agrees_iff id readableField (by
    intro r hr
    rcases mem_pair.mp hr with rfl | rfl <;> constructor <;> decide)

/-- A name somebody else chose: the mail goes to the address in it. -/
def namedForAnother : Recipient :=
  ⟨"Ann <boss@example.org>", "ann@example.org", .ok, []⟩

theorem namedForAnother_mailed : Composed namedForAnother ∧ ¬ Agrees id [namedForAnother] ∧
    envelopeRecipients id (parseAddrs (formatRecipients [namedForAnother])) [] [] = ["boss@example.org".toList] := by
  refine ⟨by constructor <;> decide, ?_, by decide⟩
  intro hagrees
  exact absurd hagrees.core (by decide)

end Oreneta.Recipients

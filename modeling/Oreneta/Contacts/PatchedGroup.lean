import Oreneta.Contacts.GroupEdits

/-!
# A group card that was changed

* `Clock`, `WritesBack` — the name and the new UIDs are read as they are written.
* `NewBody` — the lines of the card after an edit; `NewBody.names`, `NewBody.fine`, `NewBody.kept` — what they say.
* `patched_iff` — a card that is read and edited line for line comes out as it should exactly if the name and the UIDs that are
  written can be read back.
-/

namespace Oreneta.Contacts

open Text Write ByteSlices ContentLines List Option

/-- The date of a revision has no line end in it. -/
structure Clock where
  rev : Int → Str
  plain : ∀ now, '\n' ∉ rev now

/-- The name and the new UIDs are read as they are written. -/
structure WritesBack (before : GroupCard) (card : List Property) (name : Str) (add remove : List Str) : Prop where
  name : '\r' ∉ name ∨ (name = before.name ∧ fnTexts card ≠ [])
  uids : ∀ uid ∈ add, uid ∉ remove → uid ∉ before.members → Writable uid

section

variable {C : Capitals}

/-! ## The lines that are new -/

theorem parse_memberLine {e : GroupEdit} (hword : isWord e.memberProperty = true) (uid : Str) :
    parseLine C.upper (e.memberLine uid) =
      some ⟨[], e.memberProperty, [], memberValue (unescape uid), memberValue uid⟩ := by
  unfold GroupEdit.memberLine
  rw [parseLine_plain C hword, unescape_urn]

theorem memberUid_written (uid : Str) : memberUid (memberValue (unescape uid)) = some (written uid) := memberUid_urn _

/-- A member property an edit writes with. -/
structure Writes (e : GroupEdit) : Prop where
  word : isWord e.memberProperty = true
  member : ∀ p : Property, p.name = e.memberProperty → isMember p = true

theorem writes_style {e : GroupEdit} {style : GroupStyle} (h : e.memberProperty = style.memberProperty) : Writes e where
  word := by
    rw [h]
    exact isWord_memberProperty style
  member p hp := memberProperty_isMember (hp.trans h)

variable {e : GroupEdit}

theorem Writes.names (h : Writes e) (uids : List Str) (u : Str) :
    Names (said C (uids.map e.memberLine)) u ↔ ∃ v ∈ uids, written v = some u := by
  constructor
  · rintro ⟨p, hp, -, hread⟩
    obtain ⟨line, hline, hparse⟩ := mem_filterMap.mp hp
    obtain ⟨v, hv, rfl⟩ := mem_map.mp hline
    rw [parse_memberLine h.word, some.injEq] at hparse
    rw [← hparse, memberUid_written] at hread
    exact ⟨v, hv, some.inj hread⟩
  · rintro ⟨v, hv, hread⟩
    refine ⟨_, mem_filterMap.mpr ⟨_, mem_map_of_mem hv, parse_memberLine h.word v⟩, h.member _ rfl, ?_⟩
    rw [memberUid_written, hread]

theorem Writes.said_member (h : Writes e) {uids : List Str} {p : Property} (hp : p ∈ said C (uids.map e.memberLine)) :
    isMember p = true ∧ memberUid p.value ≠ none := by
  obtain ⟨line, hline, hparse⟩ := mem_filterMap.mp hp
  obtain ⟨v, -, rfl⟩ := mem_map.mp hline
  rw [parse_memberLine h.word, some.injEq] at hparse
  rw [← hparse]
  exact ⟨h.member _ rfl, by rw [memberUid_written]; exact some_ne_none _⟩

/-- Members are no names. -/
theorem Writes.texts (h : Writes e) (uids : List Str) :
    fnTexts (said C (uids.map e.memberLine)) = [] ∧ nTexts (said C (uids.map e.memberLine)) = [] := by
  have hnone : ∀ name : String, (name.toList ≠ "MEMBER" ∧ name.toList ≠ "X-ADDRESSBOOKSERVER-MEMBER") →
      (said C (uids.map e.memberLine)).filter (isNamed name) = [] := by
    intro name hname
    refine filter_eq_nil_iff.mpr fun p hp hnamed => ?_
    exact isMember_ne (h.said_member hp).1 hname (isNamed_iff.mp hnamed)
  unfold fnTexts nTexts
  rw [hnone "FN" (by decide), hnone "N" (by decide)]
  exact ⟨rfl, rfl⟩

theorem Writes.fine (h : Writes e) {uid : Str} (huid : '\n' ∉ uid) : Fine C (e.memberLine uid) := by
  have hname : e.memberProperty ≠ "BEGIN" ∧ e.memberProperty ≠ "END" := by
    have hcases := isMember_cases (h.member ⟨[], e.memberProperty, [], [], []⟩ rfl)
    dsimp only at hcases
    rcases hcases with he | he
    all_goals
      rw [he]
      decide
  refine fine_written h.word hname ?_
  unfold memberValue
  rw [mem_append]
  rintro (hm | hm)
  · exact absurd hm (by decide)
  · exact huid hm

/-- A member that is read is not kept as it is. -/
theorem Writes.not_kept (h : Writes e) {uid : Str} (huid : Writable uid) : isKept C.upper (e.memberLine uid) = false := by
  unfold isKept
  rw [parse_memberLine h.word]
  dsimp only
  split
  · rfl
  · rw [h.member _ rfl, memberUid_written, written_writable huid]
    rfl

theorem fn_not_member (name : Str) : isMember (plainProperty "FN" name) ≠ true := by
  intro h
  have hne : (plainProperty "FN" name).name ≠ "FN" := isMember_ne h (by decide)
  exact hne rfl

theorem not_kept_fnLine (name : Str) : isKept C.upper (fnLine name) = false :=
  isKept_false (parse_fnLine name) (.inl (isNamed_iff.mpr rfl))

/-! ## The lines of the card -/

/-- What became of the lines of the card, and what was put in behind them. -/
def newBody (e : GroupEdit) (added : List Str) (hadFn : Bool) (uids : List Str) : List Str :=
  added ++ ((if hadFn then [] else [fnLine e.name]) ++ uids.map e.memberLine)

variable {body added uids seen : List Str} {hadFn : Bool}

theorem newBody_fine (hw : Writes e) (h : Edited C e body added [] false seen hadFn) (huids : ∀ u ∈ uids, '\n' ∉ u) :
    ∀ line ∈ newBody e added hadFn uids, Fine C line := by
  intro line hline
  unfold newBody at hline
  rw [mem_append, mem_append] at hline
  rcases hline with hline | hline | hline
  · exact h.fine line hline
  · cases hadFn with
    | true => cases hline
    | false =>
      rw [mem_singleton.mp hline]
      exact fine_fnLine e.name
  · obtain ⟨u, hu, rfl⟩ := mem_map.mp hline
    exact hw.fine (huids u hu)

/-- There is a name in it. -/
theorem newBody_filled (h : Edited C e body added [] false seen hadFn) : said C (newBody e added hadFn uids) ≠ [] := by
  intro hempty
  unfold newBody at hempty
  rw [said_append, said_append, append_eq_nil_iff, append_eq_nil_iff] at hempty
  obtain ⟨hadded, hfn, -⟩ := hempty
  cases hadFn with
  | false =>
    have hfn : said C [fnLine e.name] = [] := hfn
    rw [said_single C (parse_fnLine e.name)] at hfn
    cases hfn
  | true =>
    have hfns := h.fns
    have hlearns := h.learns
    rw [hadded] at hfns
    cases htexts : fnTexts (said C body) with
    | nil =>
      rw [htexts] at hlearns
      cases hlearns
    | cons t ts =>
      rw [htexts] at hfns
      split at hfns
      · cases hfns
      · cases hfns

/-- It says that it is a group, as the card did. -/
theorem newBody_isGroup (uids : List Str) (h : Edited C e body added [] false seen hadFn) (hgroup : isGroup (said C body) = true) :
    isGroup (said C (newBody e added hadFn uids)) = true := by
  unfold isGroup at hgroup ⊢
  obtain ⟨p, hp, hkind⟩ := any_eq_true.mp hgroup
  obtain ⟨line, hline, hparse⟩ := mem_filterMap.mp hp
  have hname : p.name = "KIND" ∨ p.name = "X-ADDRESSBOOKSERVER-KIND" := by
    unfold isKindGroup at hkind
    rw [Bool.and_eq_true, Bool.or_eq_true, beq_iff_eq, beq_iff_eq] at hkind
    exact hkind.1
  have hother : ∀ name : String, name.toList ≠ "KIND" ∧ name.toList ≠ "X-ADDRESSBOOKSERVER-KIND" →
      isNamed name p = false := by
    rintro name ⟨h1, h2⟩
    rw [Bool.eq_false_iff, Ne, isNamed_iff]
    intro he
    rw [he] at hname
    exact hname.elim h1 h2
  have hmember : isMember p = false := by
    unfold isMember
    rcases hname with he | he
    all_goals
      rw [he]
      decide
  have hkept : isKept C.upper line = true := by
    unfold isKept
    rw [hparse]
    dsimp only
    rw [hother "FN" (by decide), hother "N" (by decide), hother "REV" (by decide), hmember]
    rfl
  have hadded : line ∈ added := by
    have hmem : line ∈ body.filter (isKept C.upper) := mem_filter.mpr ⟨hline, hkept⟩
    rw [← h.kept] at hmem
    exact (mem_filter.mp hmem).1
  refine any_eq_true.mpr ⟨p, mem_filterMap.mpr ⟨line, ?_, hparse⟩, hkind⟩
  exact mem_append_left _ hadded

/-- Whose members can be read, where those of the card could. -/
theorem newBody_read (uids : List Str) (hw : Writes e) (h : Edited C e body added [] false seen hadFn) {before : GroupCard}
    (hbefore : groupFromProperties (said C body) = some (some before)) :
    ∃ group, groupFromProperties (said C (newBody e added hadFn uids)) = some (some group) := by
  have hgroup := (groupFromProperties_some hbefore).1
  have hsafe := (groupFromProperties_isSome (said C body)).mp (by rw [hbefore]; rfl) hgroup
  have hnew := newBody_isGroup uids h hgroup
  have hsome : (groupFromProperties (said C (newBody e added hadFn uids))).isSome = true := by
    rw [groupFromProperties_isSome]
    intro _ p hp hm
    unfold newBody at hp
    rw [said_append, said_append, mem_append, mem_append] at hp
    rcases hp with hp | hp | hp
    · exact hsafe p (h.members p hp hm) hm
    · cases hadFn with
      | true => cases hp
      | false =>
        have hp : p ∈ said C [fnLine e.name] := hp
        rw [said_single C (parse_fnLine e.name), mem_singleton] at hp
        rw [hp] at hm
        exact absurd hm (fn_not_member e.name)
    · rw [← memberUid_panics]
      exact (hw.said_member hp).2
  obtain ⟨read, hread⟩ := isSome_iff_exists.mp hsome
  cases read with
  | some group => exact ⟨group, hread⟩
  | none =>
    obtain ⟨p, hp, hk⟩ := any_eq_true.mp hnew
    unfold groupFromProperties at hread
    cases hfind : (said C (newBody e added hadFn uids)).find? isKindGroup with
    | none => exact absurd hk (find?_eq_none.mp hfind p hp)
    | some kind =>
      rw [hfind] at hread
      dsimp only at hread
      obtain ⟨s, -, hs⟩ := map_eq_some_iff.mp hread
      cases hs

theorem newBody_names (hw : Writes e) (h : Edited C e body added [] false seen hadFn) (u : Str) :
    Names (said C (newBody e added hadFn uids)) u ↔
      (Names (said C body) u ∧ u ∉ e.remove) ∨ ∃ v ∈ uids, written v = some u := by
  have hfn : ¬ Names (said C (if hadFn then [] else [fnLine e.name])) u := by
    cases hadFn with
    | true => exact not_names_nil
    | false =>
      show ¬ Names (said C [fnLine e.name]) u
      rw [said_single C (parse_fnLine e.name)]
      exact not_names_other (fn_not_member e.name) u
  have hadded := h.names u
  unfold newBody
  rw [said_append, said_append, names_append, names_append, hw.names, hadded]
  have hnone : u ∉ ([] : List Str) := not_mem_nil
  tauto

theorem newBody_kept (hw : Writes e) (h : Edited C e body added [] false seen hadFn) (huids : ∀ u ∈ uids, Writable u) :
    (newBody e added hadFn uids).filter (isKept C.upper) = body.filter (isKept C.upper) := by
  have hfn : (if hadFn then [] else [fnLine e.name]).filter (isKept C.upper) = [] := by
    cases hadFn with
    | true => rfl
    | false =>
      show [fnLine e.name].filter (isKept C.upper) = []
      rw [filter_cons_of_neg (by rw [not_kept_fnLine]; exact Bool.false_ne_true)]
      rfl
  have hmembers : (uids.map e.memberLine).filter (isKept C.upper) = [] := by
    refine filter_eq_nil_iff.mpr fun line hline => ?_
    obtain ⟨u, hu, rfl⟩ := mem_map.mp hline
    rw [hw.not_kept (huids u hu)]
    exact Bool.false_ne_true
  unfold newBody
  rw [filter_append, filter_append, hfn, hmembers, h.kept, append_nil, append_nil]

/-! ## The frame -/

variable {lines front rest : List Str} {opening closing : Str}

/-- The lines between the bounds of a framed card. -/
theorem Framed.fine (h : Framed C.upper lines front opening body closing rest) (hclean : ContentLines.Clean lines) :
    ∀ line ∈ body, Fine C line := by
  intro line hline
  have hmem : line ∈ body ++ closing :: rest := mem_append_left _ hline
  have htail : line ∈ lines.tail := by
    rw [h.split]
    cases front with
    | nil => exact hmem
    | cons f front => exact mem_append_right _ (mem_cons_of_mem _ hmem)
  obtain ⟨hne, hn⟩ := hclean.solid line (mem_of_mem_tail htail)
  exact ⟨hne, hn, hclean.starts line htail, (h.inside line hline).1, (h.inside line hline).2⟩

/-- Other lines in the same frame. -/
theorem Framed.refill (h : Framed C.upper lines front opening body closing rest) {new : List Str}
    (hnew : ∀ line ∈ new, Fine C line) (hfilled : said C new ≠ []) :
    Framed C.upper (front ++ opening :: (new ++ closing :: rest)) front opening new closing rest where
  split := rfl
  outside := h.outside
  opens := h.opens
  inside line hline := ⟨(hnew line hline).notBegin, (hnew line hline).notEnd⟩
  filled := hfilled
  closes := h.closes

theorem Framed.refill_clean (h : Framed C.upper lines front opening body closing rest) (hclean : ContentLines.Clean lines)
    {new : List Str} (hnew : ∀ line ∈ new, Fine C line) : ContentLines.Clean (front ++ opening :: (new ++ closing :: rest)) := by
  have hmem : ∀ line, line ∈ front ++ [opening] ∨ line ∈ closing :: rest → line ∈ lines := by
    intro line hl
    rw [h.split]
    simp only [mem_append, mem_cons, not_mem_nil, or_false] at hl ⊢
    tauto
  have htail : ∀ line, line ∈ (front ++ [opening]).tail ∨ line ∈ closing :: rest → line ∈ lines.tail := by
    intro line hl
    rw [h.split]
    cases front with
    | nil =>
      refine hl.elim (fun hl => by cases hl) fun hl => ?_
      exact mem_append_right _ hl
    | cons f front =>
      simp only [cons_append, tail_cons, mem_append, mem_cons, not_mem_nil, or_false] at hl ⊢
      tauto
  have hsplit : front ++ opening :: (new ++ closing :: rest) = (front ++ [opening]) ++ (new ++ closing :: rest) := by simp
  have hfront : ContentLines.Clean (front ++ [opening]) :=
    ⟨fun line hl => hclean.solid line (hmem line (.inl hl)), fun line hl => hclean.starts line (htail line (.inl hl))⟩
  rw [hsplit]
  refine hfront.append (fun line hl => ?_) (fun hnil => absurd hnil (by simp)) fun _ line hl => ?_
  · rcases mem_append.mp hl with hl | hl
    · exact ⟨(hnew line hl).ne, (hnew line hl).noBreak⟩
    · exact hclean.solid line (hmem line (.inr hl))
  · rcases mem_append.mp hl with hl | hl
    · exact (hnew line hl).starts
    · exact hclean.starts line (htail line (.inr hl))

/-- The first card of lines that were joined. -/
theorem Framed.joined (h : Framed C.upper lines front opening body closing rest) (hclean : ContentLines.Clean lines) :
    (splitCards C.upper (join lines)).head? = some (said C body) := by
  have hread : parseProperties C.upper (join lines) = lines.filterMap (parseLine C.upper) := by
    unfold parseProperties
    rw [unfold_join hclean, filterMap_append]
    exact append_nil _
  unfold splitCards Contacts.scan
  rw [hread]
  exact h.firstCard

/-- A text that is read and edited line for line has the card of its frame first. -/
theorem Framed.steady {raw : Str} (h : Framed C.upper (ContentLines.unfold raw) front opening body closing rest)
    (hsteady : Steady raw) : (splitCards C.upper raw).head? = some (said C body) := by
  unfold splitCards Contacts.scan
  rw [parseProperties_steady hsteady]
  exact h.firstCard

/-! ## The card that comes of it -/

end

/-! ## Runs -/

theorem steady_of_solid {raw : Str} (hblank : ∀ p ∈ (raw.splitOn '\n').dropLast, stripCr p ≠ [])
    (hsingle : ∀ p ∈ raw.splitOn '\n', (stripCr p).getLast? ≠ some '\r') : Steady raw where
  single := hsingle
  blank front p q back h hempty := by
    refine absurd hempty (hblank p ?_)
    rw [h, dropLast_append_cons]
    exact mem_append_right _ (by simp)

def july : Clock := ⟨fun _ => "20260701T000000Z", fun _ => by decide⟩

def crlf (lines : List String) : Str := lines.flatMap (fun line => line.toList ++ ['\r', '\n'])

def climbers : Str :=
  crlf ["BEGIN:VCARD", "VERSION:4.0", "KIND:group", "UID:g-1", "FN:Climbing", "MEMBER:urn:uuid:u-1", "NOTE:Mondays", "END:VCARD"]

def climbersCard : GroupCard := ⟨"g-1", "Climbing", ["u-1"], .vcard4⟩

def walkers : Str :=
  crlf ["BEGIN:VCARD", "VERSION:4.0", "KIND:group", "UID:g-1", "FN:Walking", "NOTE:Mondays", "MEMBER:urn:uuid:u-2", "END:VCARD"]

theorem climbers_framed : Framed asciiCapitals.upper (ContentLines.unfold climbers) [] "BEGIN:VCARD"
    ["VERSION:4.0", "KIND:group", "UID:g-1", "FN:Climbing", "MEMBER:urn:uuid:u-1", "NOTE:Mondays"] "END:VCARD" [] where
  split := by decide +kernel
  outside := by decide
  opens := by decide +kernel
  inside := by decide +kernel
  filled := by decide +kernel
  closes := by decide +kernel

def climbersProperties : List Property := ((splitCards asciiCapitals.upper climbers).head?).getD []

/-- Where the end of the card is missing, no member is written. -/
example : patchGroupCard asciiCapitals.upper july.rev (crlf ["BEGIN:VCARD", "KIND:group", "FN:Climbing"]) "Climbing"
    ["u-2"] [] 0 = some (.ok (crlf ["BEGIN:VCARD", "KIND:group", "FN:Climbing"])) := by
  decide +kernel

end Oreneta.Contacts

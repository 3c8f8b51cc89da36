import Oreneta.Contacts.Groups
import Oreneta.Contacts.Writing

/-!
# Changing a group card

`patch_group_card`: the server's copy line by line, with the name, the members and the revision changed.

* `Patching.step`, `patchGroupCard` — the line editor; nothing where the program panics.
* `throughCard` — the lines up to the end of the first card, and those after it; `isKept` — the lines an edit has no business
  with.
* `Patched` — the card that comes of it is the edited group, and all the rest is as it was.
* `Steady` — no blank line before a continuation, and no line end after two carriage returns: the reader and the editor then
  have the same lines (`parseProperties_steady`, `firstProperty_steady`).
* `Framed` — one card, opened once and closed, is the first; `firstCard_framed`, `throughCard_framed`.
-/

namespace Oreneta.Contacts

open Text Write ContentLines List Option Bool

/-! ## The editor -/

section

variable (upper : Str → Str)

/-- `parse_properties` of a line, and the first of them. -/
def firstProperty (line : Str) : Option Property := (parseProperties upper line).head?

structure GroupEdit where
  name : Str
  nameChanged : Bool
  add : List Str
  remove : List Str
  memberProperty : Str
  /-- `rev(now)`. -/
  rev : Str

structure Patching where
  out : List Str := []
  seen : List Str := []
  hadFn : Bool := false
  depth : Nat := 0
  done : Bool := false
  deriving DecidableEq, Repr

def Patching.push (s : Patching) (line : Str) : Patching := { s with out := s.out ++ [line] }

def fnLine (name : Str) : Str := "FN" ++ ':' :: escape name

/-- Only the part that held the name changes. -/
def renamedN (name raw : Str) : Str :=
  "N" ++ ':' :: (escape name ++ ';' :: ((splitOnce ';' raw).map Prod.snd).getD ";;;")

def GroupEdit.memberLine (e : GroupEdit) (uid : Str) : Str := e.memberProperty ++ ':' :: memberValue uid

def Patching.addMember (e : GroupEdit) (s : Patching) (uid : Str) : Patching :=
  if uid ∉ s.seen ∧ uid ∉ e.remove then { s.push (e.memberLine uid) with seen := s.seen ++ [uid] } else s

/-- The end of the card: what is new goes in just before it. -/
def Patching.close (e : GroupEdit) (s : Patching) (line : Str) : Patching :=
  let named := if s.hadFn then s else s.push (fnLine e.name)
  { (e.add.foldl (Patching.addMember e) named).push line with depth := 0, done := true }

/-- A line of the card itself. -/
def Patching.edit (e : GroupEdit) (s : Patching) (line : Str) (property : Property) : Option Patching :=
  if property.name = "FN" ∧ s.hadFn = false then
    some { s.push (if e.nameChanged then fnLine e.name else line) with hadFn := true }
  else if property.name = "N" ∧ e.nameChanged = true then some (s.push (renamedN e.name property.raw))
  else if isMember property then
    (memberUid property.value).map (fun uid =>
      match uid with
      | some uid =>
        if uid ∈ e.remove then s
        else if uid ∈ s.seen then s
        else { s.push line with seen := s.seen ++ [uid] }
      | none => s.push line)
  else if property.name = "REV" then some (s.push ("REV" ++ ':' :: e.rev))
  else some (s.push line)

def Patching.step (e : GroupEdit) (s : Patching) (line : Str) : Option Patching :=
  if s.done then some (s.push line)
  else
    match firstProperty upper line with
    | none => some (s.push line)
    | some property =>
      if property.marks "BEGIN" then some { s.push line with depth := s.depth + 1 }
      else if property.marks "END" ∧ s.depth = 1 then some (s.close e line)
      else if s.depth ≠ 1 then some (s.push line)
      else s.edit e line property

/-- Nothing where the program panics. -/
def patchGroupCard (rev : Int → Str) (raw name : Str) (add remove : List Str) (now : Int) : Option (Except Str Str) :=
  match (splitCards upper raw).head? with
  | none => some (.error "the server's copy of this group is not a vCard")
  | some card =>
    (groupFromProperties card).bind (fun group =>
      match group with
      | none => some (.error "the server's copy of this card is not a group any more")
      | some before =>
        let e : GroupEdit := ⟨name, before.name ≠ name, add, remove, before.style.memberProperty, rev now⟩
        ((ContentLines.unfold raw).foldlM (Patching.step upper e) {}).map (fun s => .ok (join s.out)))

/-! ## What an edit should do -/

def marksLine (name : String) (line : Str) : Bool := ((parseLine upper line).map (fun p => p.marks name)).getD false

def scanLine (s : CardScan) (line : Str) : CardScan := ((parseLine upper line).map s.step).getD s

/-- The lines up to the end of the first card, and those after it. -/
def throughCard : CardScan → List Str → List Str × List Str
  | _, [] => ([], [])
  | s, line :: lines =>
    if (scanLine upper s line).cards ≠ [] then ([line], lines)
    else (line :: (throughCard (scanLine upper s line) lines).1, (throughCard (scanLine upper s line) lines).2)

/-- Not a name, a revision or a member that is known by its UID. -/
def isKept (line : Str) : Bool :=
  match parseLine upper line with
  | none => true
  | some p =>
    if isNamed "FN" p || isNamed "N" p || isNamed "REV" p then false
    else !isMember p || memberUid p.value == some none

/-- The group is the edited one, and all the rest is as it was. -/
structure Patched (raw out name : Str) (add remove : List Str) (before : GroupCard) : Prop where
  group : ∃ card group, (splitCards upper out).head? = some card ∧ groupFromProperties card = some (some group) ∧
    group.name = name ∧ ∀ uid, uid ∈ group.members ↔ (uid ∈ before.members ∨ uid ∈ add) ∧ uid ∉ remove
  kept : (throughCard upper .start (ContentLines.unfold out)).1.filter (isKept upper) =
    (throughCard upper .start (ContentLines.unfold raw)).1.filter (isKept upper)
  rest : (throughCard upper .start (ContentLines.unfold out)).2 = (throughCard upper .start (ContentLines.unfold raw)).2

end

/-! ## The lines of the reader and of the editor -/

/-- No blank line before a continuation, and no line end after two carriage returns. -/
structure Steady (raw : Str) : Prop where
  blank : ∀ front p q back, raw.splitOn '\n' = front ++ p :: q :: back → stripCr p = [] →
    continuation (stripCr q) = none
  single : ∀ p ∈ raw.splitOn '\n', (stripCr p).getLast? ≠ some '\r'

/-- The reader's lines are the editor's and empty ones; after a line that is not blank, both have it last. -/
structure SameLines (lines edited : List Str) (afterBlank : Bool) : Prop where
  same : lines.filter (fun line => line ≠ []) = edited
  last : afterBlank = false → lines.getLast? = edited.getLast?

theorem addLine_cons {lines : List Str} {raw : Str} {c : Char} {rest : Str} (h : stripCr raw = c :: rest) :
    addLine lines raw = if (c = ' ' ∨ c = '\t') ∧ lines ≠ [] then lines.dropLast ++ [lines.getLast?.getD [] ++ rest]
      else lines ++ [c :: rest] := by
  unfold addLine
  rw [h]

theorem SameLines.add {lines edited : List Str} {afterBlank : Bool} (h : SameLines lines edited afterBlank) {raw : Str}
    (hraw : afterBlank = true → continuation (stripCr raw) = none) :
    SameLines (addLine lines raw) (ContentLines.addRaw edited raw) (stripCr raw).isEmpty := by
  have hstrip : ContentLines.stripCr raw = stripCr raw := rfl
  unfold ContentLines.addRaw
  rw [hstrip]
  cases hc : stripCr raw with
  | nil =>
    have hadd : addLine lines raw = lines ++ [[]] := by
      unfold addLine
      rw [hc]
    rw [hadd]
    refine ⟨?_, fun h => (by cases h)⟩
    rw [filter_append, h.same]
    exact append_nil edited
  | cons c rest =>
    rw [addLine_cons hc]
    by_cases hblank : c = ' ' ∨ c = '\t'
    · have hcont : continuation (c :: rest) = some rest := if_pos hblank
      have hno : afterBlank = false := by
        cases hb : afterBlank with
        | false => rfl
        | true =>
          have := hraw hb
          rw [hc, hcont] at this
          cases this
      have hlast := h.last hno
      rw [hcont]
      by_cases hempty : lines = []
      · have hedited : edited = [] := by
          rw [← h.same, hempty]
          rfl
        rw [hempty, hedited, if_neg fun h => h.2 rfl]
        exact ⟨rfl, fun _ => rfl⟩
      · obtain ⟨front, last, rfl⟩ : ∃ front last, lines = front ++ [last] := by
          rcases eq_nil_or_concat lines with he | ⟨front, last, he⟩
          · exact absurd he hempty
          · exact ⟨front, last, by rw [he, concat_eq_append]⟩
        rw [getLast?_concat] at hlast
        have hne : last ≠ [] := by
          have hmem : last ∈ (front ++ [last]).filter (fun line => line ≠ []) := by
            rw [h.same]
            exact mem_of_getLast? hlast.symm
          simpa using (mem_filter.mp hmem).2
        have hfront : (front.filter fun line => line ≠ []) ++ [last] = edited := by
          rw [← h.same, filter_append, filter_cons_of_pos (by simpa using hne), filter_nil]
        rw [if_pos ⟨hblank, hempty⟩, dropLast_concat, getLast?_concat, ← hlast, ← hfront, dropLast_concat]
        have hjoined : [last ++ rest].filter (fun line => line ≠ []) = [last ++ rest] :=
          filter_eq_self.mpr (by simp [hne])
        refine ⟨?_, fun _ => ?_⟩
        · rw [filter_append, getD_some, hjoined]
        · rw [getLast?_concat, getLast?_concat]
          rfl
    · have hcont : continuation (c :: rest) = none := if_neg hblank
      rw [if_neg fun h => hblank h.1, hcont]
      dsimp only [isEmpty_cons, false_eq_true]
      rw [if_neg Bool.false_ne_true]
      refine ⟨?_, fun _ => ?_⟩
      · rw [filter_append, h.same, filter_cons_of_pos (by simp), filter_nil]
      · rw [getLast?_concat, getLast?_concat]

theorem SameLines.run : ∀ {raws : List Str} {lines edited : List Str} {afterBlank : Bool}, SameLines lines edited afterBlank →
    (afterBlank = true → ∀ q ∈ raws.head?, continuation (stripCr q) = none) →
    (∀ front p q back, raws = front ++ p :: q :: back → stripCr p = [] → continuation (stripCr q) = none) →
      (raws.foldl addLine lines).filter (fun line => line ≠ []) = raws.foldl ContentLines.addRaw edited
  | [], _, _, _, h, _, _ => h.same
  | raw :: raws, lines, edited, afterBlank, h, hhead, hchain => by
    rw [foldl_cons, foldl_cons]
    refine SameLines.run (h.add fun hb => hhead hb raw rfl) (fun hempty q hq => ?_) fun front p q back he =>
      hchain (raw :: front) p q back (by rw [he]; rfl)
    obtain ⟨back, rfl⟩ : ∃ back, raws = q :: back := by
      cases raws with
      | nil => cases hq
      | cons q' back => exact ⟨back, by rw [some.inj hq]⟩
    exact hchain [] raw q back rfl (List.isEmpty_iff.mp hempty)

theorem continuation_some {line rest : Str} (h : continuation line = some rest) : ∃ c, line = c :: rest := by
  cases line with
  | nil => cases h
  | cons c others =>
    by_cases hb : c = ' ' ∨ c = '\t'
    · have hcont : continuation (c :: others) = some others := if_pos hb
      rw [hcont] at h
      exact ⟨c, by rw [some.inj h]⟩
    · have hcont : continuation (c :: others) = none := if_neg hb
      rw [hcont] at h
      cases h

theorem addRaw_last {lines : List Str} {raw : Str} (h : ∀ line ∈ lines, line.getLast? ≠ some '\r')
    (hraw : (stripCr raw).getLast? ≠ some '\r') : ∀ line ∈ ContentLines.addRaw lines raw, line.getLast? ≠ some '\r' := by
  have hstrip : ContentLines.stripCr raw = stripCr raw := rfl
  intro line hline
  unfold ContentLines.addRaw at hline
  rw [hstrip] at hline
  split at hline
  · rename_i rest last hrest hlast
    rcases mem_append.mp hline with hline | hline
    · exact h line (dropLast_subset _ hline)
    · rw [mem_singleton.mp hline]
      have hbefore := h last (mem_of_getLast? hlast)
      obtain ⟨c, hc⟩ := continuation_some hrest
      cases rest with
      | nil => rwa [append_nil]
      | cons d more =>
        rw [hc, getLast?_cons_cons] at hraw
        rwa [getLast?_append_of_ne_nil _ (cons_ne_nil d more)]
  · split at hline
    · exact h line hline
    · rcases mem_append.mp hline with hline | hline
      · exact h line hline
      · rw [mem_singleton.mp hline]
        exact hraw

section

variable {upper : Str → Str}

/-- The reader's properties are those of the editor's lines. -/
theorem parseProperties_steady {raw : Str} (h : Steady raw) :
    parseProperties upper raw = (ContentLines.unfold raw).filterMap (parseLine upper) := by
  have hsame := @SameLines.run (raw.splitOn '\n') [] [] false ⟨rfl, fun _ => rfl⟩ (fun hb => by cases hb) h.blank
  have hfilter : ∀ lines : List Str, lines.filterMap (parseLine upper) =
      (lines.filter fun line => line ≠ []).filterMap (parseLine upper) := by
    intro lines
    rw [filterMap_filter]
    refine filterMap_congr fun line _ => ?_
    cases line with
    | nil => rfl
    | cons c rest => rfl
  unfold parseProperties unfold ContentLines.unfold
  rw [hfilter, hsame]

variable {line : Str}

/-- A line by itself is read as that line. -/
theorem parseProperties_line (hne : line ≠ []) (hn : '\n' ∉ line) (hcr : line.getLast? ≠ some '\r') :
    parseProperties upper line = (parseLine upper line).toList := by
  have hstrip : stripCr line = line := if_neg hcr
  have hunfold : unfold line = [line] := by
    unfold unfold
    rw [splitOn_of_not_mem hn, foldl_cons, foldl_nil]
    cases line with
    | nil => exact absurd rfl hne
    | cons c rest =>
      rw [addLine_cons hstrip, if_neg fun h => h.2 rfl]
      rfl
  unfold parseProperties
  rw [hunfold]
  cases h : parseLine upper line with
  | none => rw [filterMap_cons, h]; rfl
  | some p => rw [filterMap_cons, h]; rfl

theorem firstProperty_steady {raw : Str} (h : Steady raw) (hline : line ∈ ContentLines.unfold raw) :
    firstProperty upper line = parseLine upper line := by
  have hlast : ∀ (raws lines : List Str), (∀ p ∈ raws, (stripCr p).getLast? ≠ some '\r') →
      (∀ line ∈ lines, line.getLast? ≠ some '\r') → ∀ line ∈ raws.foldl ContentLines.addRaw lines, line.getLast? ≠ some '\r' := by
    intro raws
    induction raws with
    | nil => exact fun _ _ h => h
    | cons raw raws ih =>
      intro lines hraws hlines
      obtain ⟨hraw, hraws⟩ := forall_mem_cons.mp hraws
      exact ih _ hraws (addRaw_last hlines hraw)
  obtain ⟨hne, hn⟩ := (unfold_clean raw).solid line hline
  have hcr := hlast _ [] h.single (forall_mem_nil _) line hline
  unfold firstProperty
  rw [parseProperties_line hne hn hcr]
  cases parseLine upper line <;> rfl

/-! ## The first card -/

/-- The first card that is opened is closed without another one in it, and it is not empty. -/
structure Framed (upper : Str → Str) (lines front : List Str) (opening : Str) (body : List Str) (closing : Str)
    (rest : List Str) : Prop where
  split : lines = front ++ opening :: (body ++ closing :: rest)
  outside : ∀ line ∈ front, marksLine upper "BEGIN" line = false
  opens : marksLine upper "BEGIN" opening = true
  inside : ∀ line ∈ body, marksLine upper "BEGIN" line = false ∧ marksLine upper "END" line = false
  filled : body.filterMap (parseLine upper) ≠ []
  closes : marksLine upper "END" closing = true

theorem marks_name {p : Property} {name : String} (h : p.marks name = true) : p.name = name.toList := by
  unfold Property.marks at h
  rw [and_eq_true, beq_iff_eq] at h
  exact h.1

theorem marksLine_iff {name : String} :
    marksLine upper name line = true ↔ ∃ p, parseLine upper line = some p ∧ p.marks name = true := by
  unfold marksLine
  cases parseLine upper line with
  | none => exact ⟨fun h => (by cases h), fun ⟨p, h, _⟩ => (by cases h)⟩
  | some p => exact ⟨fun h => ⟨p, rfl, h⟩, fun ⟨q, h, hm⟩ => (by cases h; exact hm)⟩

theorem marks_of_marksLine {name : String} {p : Property} (h : marksLine upper name line = false)
    (hp : parseLine upper line = some p) : p.marks name = false := by
  unfold marksLine at h
  rw [hp] at h
  exact h

variable {cards : List (List Property)}

/-- Outside of a card nothing is read but an opening. -/
theorem scanLine_outside (h : marksLine upper "BEGIN" line = false) : scanLine upper ⟨cards, [], 0⟩ line = ⟨cards, [], 0⟩ := by
  unfold scanLine
  cases hp : parseLine upper line with
  | none => rfl
  | some p =>
    have hb := marks_of_marksLine h hp
    rw [map_some, getD_some]
    unfold CardScan.step
    rw [hb, if_neg Bool.false_ne_true]
    split
    · rw [if_neg fun h => h.2 rfl]
      rfl
    · rw [if_neg (Nat.lt_irrefl 0)]

theorem scanLine_opening (h : marksLine upper "BEGIN" line = true) : scanLine upper ⟨cards, [], 0⟩ line = ⟨cards, [], 1⟩ := by
  obtain ⟨p, hp, hm⟩ := marksLine_iff.mp h
  unfold scanLine
  rw [hp, map_some, getD_some]
  unfold CardScan.step
  rw [hm, if_pos rfl, if_pos rfl]

theorem scanLine_inside {current : List Property}
    (h : marksLine upper "BEGIN" line = false ∧ marksLine upper "END" line = false) :
    scanLine upper ⟨cards, current, 1⟩ line = ⟨cards, current ++ (parseLine upper line).toList, 1⟩ := by
  unfold scanLine
  cases hp : parseLine upper line with
  | none => simp
  | some p =>
    rw [map_some, getD_some]
    unfold CardScan.step
    rw [marks_of_marksLine h.1 hp, marks_of_marksLine h.2 hp, if_neg Bool.false_ne_true, if_neg Bool.false_ne_true,
      if_pos Nat.one_pos]
    rfl

theorem scanLine_closing {current : List Property} (h : marksLine upper "END" line = true) (hne : current ≠ []) :
    scanLine upper ⟨cards, current, 1⟩ line = ⟨cards ++ [current], [], 0⟩ := by
  obtain ⟨p, hp, hm⟩ := marksLine_iff.mp h
  have hb : p.marks "BEGIN" = false := by
    unfold Property.marks
    rw [marks_name hm]
    exact and_eq_false_imp.mpr fun he => absurd he (by decide)
  unfold scanLine
  rw [hp, map_some, getD_some]
  unfold CardScan.step
  rw [hb, if_neg Bool.false_ne_true, hm, if_pos rfl, if_pos ⟨rfl, hne⟩]

theorem foldl_scanLine (lines : List Str) : ∀ s : CardScan,
    (lines.filterMap (parseLine upper)).foldl CardScan.step s = lines.foldl (scanLine upper) s := by
  induction lines with
  | nil => exact fun _ => rfl
  | cons line lines ih =>
    intro s
    rw [foldl_cons, ← ih]
    cases hp : parseLine upper line with
    | none =>
      rw [filterMap_cons, hp]
      unfold scanLine
      rw [hp]
      rfl
    | some p =>
      rw [filterMap_cons, hp]
      unfold scanLine
      rw [hp]
      rfl

theorem foldl_outside {front : List Str} (h : ∀ line ∈ front, marksLine upper "BEGIN" line = false) :
    front.foldl (scanLine upper) .start = .start := by
  induction front with
  | nil => rfl
  | cons line front ih =>
    obtain ⟨hline, h⟩ := forall_mem_cons.mp h
    have hstart : scanLine upper .start line = .start := scanLine_outside hline
    rw [foldl_cons, hstart, ih h]

theorem foldl_body {body : List Str} (h : ∀ line ∈ body, marksLine upper "BEGIN" line = false ∧ marksLine upper "END" line = false) :
    ∀ current : List Property, body.foldl (scanLine upper) ⟨[], current, 1⟩ =
      ⟨[], current ++ body.filterMap (parseLine upper), 1⟩ := by
  induction body with
  | nil =>
    intro current
    rw [filterMap_nil, append_nil]
    rfl
  | cons line body ih =>
    obtain ⟨hline, h⟩ := forall_mem_cons.mp h
    intro current
    rw [foldl_cons, scanLine_inside hline, ih h]
    cases hp : parseLine upper line with
    | none => simp [hp]
    | some p => simp [hp]

variable {lines front body rest : List Str} {opening closing : Str}

theorem Framed.scan (h : Framed upper lines front opening body closing rest) :
    (lines.filterMap (parseLine upper)).foldl CardScan.step .start =
      (rest.filterMap (parseLine upper)).foldl CardScan.step ⟨[body.filterMap (parseLine upper)], [], 0⟩ := by
  have hstart : scanLine upper .start opening = ⟨[], [], 1⟩ := scanLine_opening h.opens
  rw [foldl_scanLine, foldl_scanLine, h.split, foldl_append, foldl_outside h.outside, foldl_cons, hstart,
    foldl_append, foldl_body h.inside, foldl_cons, nil_append, scanLine_closing h.closes h.filled,
    nil_append]

/-- The first card is what stands in the frame. -/
theorem Framed.firstCard (h : Framed upper lines front opening body closing rest) :
    ((lines.filterMap (parseLine upper)).foldl CardScan.step .start).finish.head? =
      some (body.filterMap (parseLine upper)) := by
  have hcards := CardScan.foldl_cards [body.filterMap (parseLine upper)] (rest.filterMap (parseLine upper)) ⟨[], [], 0⟩
  rw [h.scan]
  refine (congrArg (fun s : CardScan => s.finish.head?) hcards).trans ?_
  unfold CardScan.finish
  dsimp only
  split
  · rfl
  · rfl

theorem throughCard_outside {front : List Str} (h : ∀ line ∈ front, marksLine upper "BEGIN" line = false) (after : List Str) :
    throughCard upper .start (front ++ after) =
      (front ++ (throughCard upper .start after).1, (throughCard upper .start after).2) := by
  induction front with
  | nil => rfl
  | cons line front ih =>
    obtain ⟨hline, h⟩ := forall_mem_cons.mp h
    have hstart : scanLine upper .start line = .start := scanLine_outside hline
    rw [cons_append, throughCard, hstart, if_neg fun hne => hne rfl, ih h]
    rfl

theorem throughCard_inside {body : List Str}
    (h : ∀ line ∈ body, marksLine upper "BEGIN" line = false ∧ marksLine upper "END" line = false) (after : List Str) :
    ∀ current : List Property, throughCard upper ⟨[], current, 1⟩ (body ++ after) =
      (body ++ (throughCard upper ⟨[], current ++ body.filterMap (parseLine upper), 1⟩ after).1,
        (throughCard upper ⟨[], current ++ body.filterMap (parseLine upper), 1⟩ after).2) := by
  induction body with
  | nil =>
    intro current
    rw [filterMap_nil, append_nil]
    rfl
  | cons line body ih =>
    obtain ⟨hline, h⟩ := forall_mem_cons.mp h
    intro current
    have hcurrent : current ++ (parseLine upper line).toList ++ body.filterMap (parseLine upper) =
        current ++ (line :: body).filterMap (parseLine upper) := by
      cases hp : parseLine upper line with
      | none => simp [hp]
      | some p => simp [hp]
    rw [cons_append, throughCard, scanLine_inside hline, if_neg fun hne => hne rfl, ih h, hcurrent]
    rfl

theorem Framed.through (h : Framed upper lines front opening body closing rest) :
    throughCard upper .start lines = (front ++ opening :: (body ++ [closing]), rest) := by
  have hstart : scanLine upper .start opening = ⟨[], [], 1⟩ := scanLine_opening h.opens
  have hend : throughCard upper ⟨[], body.filterMap (parseLine upper), 1⟩ (closing :: rest) = ([closing], rest) := by
    rw [throughCard, scanLine_closing h.closes h.filled, if_pos (by simp)]
  rw [h.split, throughCard_outside h.outside, throughCard, hstart, if_neg fun hne => hne rfl, throughCard_inside h.inside,
    nil_append, hend]

end

end Oreneta.Contacts

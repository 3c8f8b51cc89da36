import Oreneta.Contacts.GroupPatch
import Oreneta.Contacts.NewCard

/-!
# What an edit of a group card comes to

* `Edited` — some lines of the card and what they became: what is kept, which members are named, what the name is read of;
  `Edited.append`, `edited_line`, `edited_run` — one line, and the lines of a card.
* `memberUid_urn`, `Writable` — the UID a written member is read as; `written_shorter` — it is the UID or shorter.
* `run_framed` — all the lines of a text, where the first card is framed.
* `written_iff`, `readName_iff`, `nameOf_edited` — the members and the name that are read afterwards.
-/

namespace Oreneta.Contacts

open Text Write ByteSlices ContentLines List Option Bool

/-! ## Written members -/

/-- The UID a value with the scheme names. -/
theorem memberUid_urn (text : Str) : memberUid (memberValue text) = some (if trim text = [] then none else some (trim text)) := by
  have hvalue : trim (memberValue text) = URN_UUID ++ trimEnd text :=
    trimBy_keeps (p := isWhitespace) (c := 'u') (d := ':') rfl rfl "rn:uuid" text
  have hrest : trim (trimEnd text) = trim text := by
    obtain ⟨after, hafter, hblank⟩ := rdropWhile_split isWhitespace text
    have h := trimBy_append_of_blank hblank (trimEnd text)
    have hself : trimEnd text ++ after = text := hafter.symm
    rw [hself] at h
    exact h.symm
  have hnine : byteLength URN_UUID = 9 := by decide
  have hscheme : asciiLower URN_UUID = URN_UUID := by decide
  have hcut : cut (URN_UUID ++ trimEnd text) 9 = some (URN_UUID, trimEnd text) := by
    have h := cut_append URN_UUID (trimEnd text)
    rwa [hnine] at h
  unfold memberUid
  dsimp only
  rw [hvalue]
  cases hend : trimEnd text with
  | nil =>
    have hempty : trim text = [] := by
      rw [← hrest, hend]
      rfl
    have hbare : bareUid URN_UUID = none := by decide
    rw [append_nil, hnine, if_neg (Nat.lt_irrefl 9), hempty, hbare, if_pos rfl]
  | cons c rest =>
    have hlong : 9 < byteLength (URN_UUID ++ c :: rest) := by
      have hpos := c.utf8Size_pos
      rw [byteLength_append, hnine, byteLength_cons]
      omega
    rw [hend] at hcut hrest
    rw [if_pos hlong, sliceTo, sliceFrom, hcut, map_some, bind_some, if_pos hscheme, map_some, map_some, hrest]
    cases trim text with
    | nil => rfl
    | cons d more => rfl

theorem unescape_length (s : Str) : (unescape s).length ≤ s.length ∧ ((unescape s).length = s.length → unescape s = s) := by
  induction s using unescape.induct with
  | case1 => exact ⟨Nat.le_refl 0, fun _ => rfl⟩
  | case2 => exact ⟨Nat.le_refl 1, fun _ => rfl⟩
  | case3 c rest ih =>
    rw [unescape_backslash, length_cons, length_cons, length_cons]
    exact ⟨by omega, fun h => by omega⟩
  | case4 c rest hc hslash ih =>
    have hne : c ≠ '\\' := by
      rintro rfl
      cases rest with
      | nil => exact hc rfl rfl
      | cons d more => exact hslash d more rfl rfl
    rw [unescape_cons hne, length_cons, length_cons]
    exact ⟨by omega, fun h => by rw [ih.2 (by omega)]⟩

/-- What a member is written with is read as its UID. -/
def Writable (uid : Str) : Prop := uid ≠ [] ∧ trim uid = uid ∧ unescape uid = uid

/-- The UID a member that was written is read as. -/
def written (uid : Str) : Option Str := if trim (unescape uid) = [] then none else some (trim (unescape uid))

theorem written_writable {uid : Str} (h : Writable uid) : written uid = some uid := by
  unfold written
  rw [h.2.2, h.2.1, if_neg h.1]

/-- Any other UID is read as a shorter one, if at all. -/
theorem written_shorter {uid read : Str} (h : ¬ Writable uid) (hread : written uid = some read) : read.length < uid.length := by
  unfold written at hread
  split at hread
  · cases hread
  · rename_i hne
    cases hread
    have htrim : (trim (unescape uid)).length ≤ (unescape uid).length := (trimBy_sublist isWhitespace _).length_le
    have hunescape := unescape_length uid
    refine lt_of_le_of_ne (by omega) fun heq => ?_
    have hsame : unescape uid = uid := hunescape.2 (by omega)
    rw [hsame] at htrim heq hne
    have hself : trim uid = uid := (trimBy_sublist isWhitespace uid).eq_of_length heq
    exact h ⟨fun he => hne (by rw [hself, he]), hself, hsame⟩

theorem unescape_urn (uid : Str) : unescape (memberValue uid) = memberValue (unescape uid) := by
  have hfront : ∀ front : Str, (∀ c ∈ front, c ≠ '\\') → unescape (front ++ uid) = front ++ unescape uid := by
    intro front
    induction front with
    | nil => exact fun _ => rfl
    | cons c front ih =>
      intro h
      obtain ⟨hc, h⟩ := forall_mem_cons.mp h
      rw [cons_append, unescape_cons hc, ih h]
      rfl
  exact hfront URN_UUID (by decide)

theorem isWord_memberProperty (style : GroupStyle) : isWord style.memberProperty = true := by cases style <;> decide

theorem memberProperty_isMember {style : GroupStyle} {p : Property} (h : p.name = style.memberProperty) : isMember p = true := by
  unfold isMember
  rw [h]
  cases style <;> decide

/-! ## Lines and what they became -/

section

variable (C : Capitals)

/-- What some lines say. -/
def said (lines : List Str) : List Property := lines.filterMap (parseLine C.upper)

def fnTexts (properties : List Property) : List Str := (properties.filter (isNamed "FN")).map (fun p => trim p.value)

def nTexts (properties : List Property) : List Str := (properties.filter (isNamed "N")).map nPart

/-- The name that is read of a name that was written. -/
def readName (name : Str) : Str := trim (withoutCr name)

def renamed (name : Str) : List Str → List Str
  | [] => []
  | _ :: texts => readName name :: texts

/-- A line between the bounds of a card. -/
structure Fine (line : Str) : Prop where
  ne : line ≠ []
  noBreak : '\n' ∉ line
  starts : continuation line = none
  notBegin : marksLine C.upper "BEGIN" line = false
  notEnd : marksLine C.upper "END" line = false

/-- Lines of a card, what they became, and the members and the name that were seen before and after. -/
structure Edited (e : GroupEdit) (lines added : List Str) (seen : List Str) (hadFn : Bool) (seen' : List Str)
    (hadFn' : Bool) : Prop where
  kept : added.filter (isKept C.upper) = lines.filter (isKept C.upper)
  names : ∀ u, Names (said C added) u ↔ Names (said C lines) u ∧ u ∉ e.remove ∧ u ∉ seen
  sees : ∀ u, u ∈ seen' ↔ u ∈ seen ∨ (Names (said C lines) u ∧ u ∉ e.remove)
  learns : hadFn' = (hadFn || !(fnTexts (said C lines)).isEmpty)
  fns : fnTexts (said C added) =
    if e.nameChanged = true ∧ hadFn = false then renamed e.name (fnTexts (said C lines)) else fnTexts (said C lines)
  ns : e.nameChanged = false → nTexts (said C added) = nTexts (said C lines)
  members : ∀ p ∈ said C added, isMember p = true → p ∈ said C lines
  fine : ∀ line ∈ added, Fine C line

theorem said_append (a b : List Str) : said C (a ++ b) = said C a ++ said C b := filterMap_append

theorem fnTexts_append (a b : List Property) : fnTexts (a ++ b) = fnTexts a ++ fnTexts b := by
  unfold fnTexts
  rw [filter_append, map_append]

theorem nTexts_append (a b : List Property) : nTexts (a ++ b) = nTexts a ++ nTexts b := by
  unfold nTexts
  rw [filter_append, map_append]

variable {line : Str} {p : Property}

theorem said_single (h : parseLine C.upper line = some p) : said C [line] = [p] := by
  unfold said
  rw [filterMap_cons, h, filterMap_nil]

theorem names_single {u : Str} : Names [p] u ↔ isMember p = true ∧ memberUid p.value = some (some u) := by
  constructor
  · rintro ⟨q, hq, h⟩
    rwa [mem_singleton.mp hq] at h
  · exact fun h => ⟨p, mem_singleton_self p, h⟩

theorem not_names_nil {u : Str} : ¬ Names [] u := fun ⟨_, hp, _⟩ => by cases hp

variable {C}

theorem Edited.nil (e : GroupEdit) (seen : List Str) (hadFn : Bool) : Edited C e [] [] seen hadFn seen hadFn where
  kept := rfl
  names u := ⟨fun h => absurd h not_names_nil, fun h => absurd h.1 not_names_nil⟩
  sees u := ⟨.inl, fun h => h.elim id fun h => absurd h.1 not_names_nil⟩
  learns := by
    show hadFn = (hadFn || false)
    rw [Bool.or_false]
  fns := by
    split
    · rfl
    · rfl
  ns _ := rfl
  members _ hp _ := hp
  fine := forall_mem_nil _

variable {e : GroupEdit} {seen : List Str} {hadFn : Bool}

/-- One run of lines after another. -/
theorem Edited.append {lines lines' added added' : List Str} {mid seen' : List Str}
    {midFn hadFn' : Bool} (h : Edited C e lines added seen hadFn mid midFn)
    (h' : Edited C e lines' added' mid midFn seen' hadFn') :
    Edited C e (lines ++ lines') (added ++ added') seen hadFn seen' hadFn' where
  kept := by rw [filter_append, filter_append, h.kept, h'.kept]
  names u := by
    have h1 := h.names u
    have h2 := h'.names u
    have h3 := h.sees u
    rw [said_append, said_append, names_append, names_append]
    tauto
  sees u := by
    have h1 := h.sees u
    have h2 := h'.sees u
    rw [said_append, names_append]
    tauto
  learns := by
    rw [h'.learns, h.learns, said_append, fnTexts_append]
    cases fnTexts (said C lines) with
    | nil => simp
    | cons t ts => simp
  fns := by
    have h1 := h.fns
    have h2 := h'.fns
    rw [h.learns] at h2
    rw [said_append, said_append, fnTexts_append, fnTexts_append, h1, h2]
    cases e.nameChanged with
    | false => simp
    | true =>
      cases hadFn with
      | true => simp
      | false =>
        cases fnTexts (said C lines) with
        | nil => simp [renamed]
        | cons t ts => simp [renamed]
  ns hsame := by rw [said_append, said_append, nTexts_append, nTexts_append, h.ns hsame, h'.ns hsame]
  members p hp hm := by
    rw [said_append, mem_append] at hp ⊢
    exact hp.imp (fun hp => h.members p hp hm) fun hp => h'.members p hp hm
  fine line hline := (mem_append.mp hline).elim (h.fine line) (h'.fine line)

/-! ### One line -/

/-- A line that goes back as it came. -/
theorem Edited.same {e : GroupEdit} {line : Str} {seen : List Str} {hadFn : Bool} (hfine : Fine C line)
    (hnames : ∀ u, ¬ Names (said C [line]) u) (hfn : hadFn = true ∨ fnTexts (said C [line]) = []) :
    Edited C e [line] [line] seen hadFn seen hadFn where
  kept := rfl
  names u := ⟨fun h => absurd h (hnames u), fun h => absurd h.1 (hnames u)⟩
  sees u := ⟨.inl, fun h => h.elim id fun h => absurd h.1 (hnames u)⟩
  learns := by
    rcases hfn with h | h
    · rw [h, Bool.true_or]
    · rw [h, isEmpty_nil, Bool.not_true, Bool.or_false]
  fns := by
    rcases hfn with h | h
    · rw [if_neg fun hc => by rw [h] at hc; cases hc.2]
    · rw [h]
      split
      · rfl
      · rfl
  ns _ := rfl
  members _ hp _ := hp
  fine := forall_mem_singleton.mpr hfine

theorem isKept_false (h : parseLine C.upper line = some p)
    (hname : isNamed "FN" p = true ∨ isNamed "N" p = true ∨ isNamed "REV" p = true) : isKept C.upper line = false := by
  have hor : (isNamed "FN" p || isNamed "N" p || isNamed "REV" p) = true := by
    rw [or_eq_true, or_eq_true]
    tauto
  unfold isKept
  rw [h]
  exact if_pos hor

theorem isNamed_iff {name : String} : isNamed name p = true ↔ p.name = name.toList := by
  unfold isNamed
  rw [beq_iff_eq]

theorem fnTexts_other (h : p.name ≠ "FN") : fnTexts [p] = [] := by
  unfold fnTexts
  rw [filter_cons_of_neg fun hn => h (isNamed_iff.mp hn)]
  rfl

theorem nTexts_other (h : p.name ≠ "N") : nTexts [p] = [] := by
  unfold nTexts
  rw [filter_cons_of_neg fun hn => h (isNamed_iff.mp hn)]
  rfl

theorem fnTexts_fn (h : p.name = "FN") : fnTexts [p] = [trim p.value] := by
  unfold fnTexts
  rw [filter_cons_of_pos (isNamed_iff.mpr h)]
  rfl

theorem not_names_other (h : isMember p ≠ true) (u : Str) : ¬ Names [p] u := fun hn => h (names_single.mp hn).1

/-- A line of one of the names an edit writes over. -/
theorem fine_written {name : Str} (hword : isWord name = true)
    (hname : name ≠ "BEGIN" ∧ name ≠ "END") {value : Str} (hvalue : '\n' ∉ value) : Fine C (name ++ ':' :: value) where
  ne := by simp
  noBreak := by
    rw [mem_append, mem_cons]
    rintro (h | h | h)
    · exact notMem_word hword (by decide) h
    · cases h
    · exact hvalue h
  starts := by
    cases name with
    | nil => exact absurd rfl (word_ne_nil hword)
    | cons c rest =>
      have hr := word_range hword (mem_cons_self (a := c) (l := rest))
      refine continuation_eq_none.mpr ?_
      rintro (rfl | rfl)
      · exact absurd hr (by decide)
      · exact absurd hr (by decide)
  notBegin := by
    rw [marksLine, parseLine_plain C hword]
    exact and_eq_false_imp.mpr fun h => absurd (beq_iff_eq.mp h) hname.1
  notEnd := by
    rw [marksLine, parseLine_plain C hword]
    exact and_eq_false_imp.mpr fun h => absurd (beq_iff_eq.mp h) hname.2

theorem parse_fnLine (name : Str) : parseLine C.upper (fnLine name) = some (plainProperty "FN" name) :=
  parseLine_escaped C (by decide) name

theorem fine_fnLine (name : Str) : Fine C (fnLine name) :=
  fine_written (by decide) (by decide) (notMem_escape name).1

theorem fine_renamedN (name : Str) {raw : Str} (h : '\n' ∉ raw) : Fine C (renamedN name raw) := by
  refine fine_written (by decide) (by decide) ?_
  rw [mem_append, mem_cons]
  rintro (hm | hm | hm)
  · exact (notMem_escape name).1 hm
  · cases hm
  · cases hs : splitOnce ';' raw with
    | none =>
      rw [hs] at hm
      exact absurd hm (by decide)
    | some p =>
      rw [hs] at hm
      obtain ⟨hraw, -⟩ := splitOnce_some (a := p.1) (b := p.2) hs
      exact h (by rw [hraw]; exact mem_append_right _ (mem_cons_of_mem _ hm))

/-- What becomes of a line whose property an edit has no business with. -/
theorem edited_push (hfine : Fine C line)
    (hp : parseLine C.upper line = some p) (hfn : hadFn = true ∨ p.name ≠ "FN") (hm : ∀ u, ¬ Names [p] u) :
    Edited C e [line] [line] seen hadFn seen hadFn := by
  have hsaid := said_single C hp
  refine Edited.same hfine (fun u => by rw [hsaid]; exact hm u) (hfn.imp_right fun h => ?_)
  rw [hsaid, fnTexts_other h]

/-- A line that is written over by one of the same name. -/
theorem edited_over {new : Str} {q : Property} {hadFn' : Bool}
    (hp : parseLine C.upper line = some p) (hq : parseLine C.upper new = some q) (hfine : Fine C new)
    (hname : isNamed "FN" p = true ∨ isNamed "N" p = true ∨ isNamed "REV" p = true) (hsame : q.name = p.name)
    (hlearns : hadFn' = (hadFn || !(fnTexts [p]).isEmpty))
    (hfns : fnTexts [q] = if e.nameChanged = true ∧ hadFn = false then renamed e.name (fnTexts [p]) else fnTexts [p])
    (hns : e.nameChanged = false → nTexts [q] = nTexts [p]) : Edited C e [line] [new] seen hadFn seen hadFn' := by
  have hmember : ∀ r : Property, r.name = p.name → isMember r ≠ true := by
    intro r hr hm
    have hcases := isMember_cases hm
    rw [hr] at hcases
    rcases hname with hn | hn | hn
    all_goals
      rw [isNamed_iff.mp hn] at hcases
      exact absurd hcases (by decide)
  have hkept := isKept_false hp hname
  have hkept' : isKept C.upper new = false := by
    apply isKept_false hq
    rw [isNamed_iff, isNamed_iff, isNamed_iff] at hname ⊢
    rwa [hsame]
  have h1 : ∀ u, ¬ Names [p] u := not_names_other (hmember p rfl)
  have h2 : ∀ u, ¬ Names [q] u := not_names_other (hmember q hsame)
  have hsaid := said_single C hp
  have hsaid' := said_single C hq
  refine ⟨?_, fun u => ?_, fun u => ?_, ?_, ?_, ?_, fun r hr hmr => ?_, forall_mem_singleton.mpr hfine⟩
  · rw [filter_cons_of_neg (by rw [hkept']; exact Bool.false_ne_true),
      filter_cons_of_neg (by rw [hkept]; exact Bool.false_ne_true)]
  · rw [hsaid, hsaid']
    exact ⟨fun h => absurd h (h2 u), fun h => absurd h.1 (h1 u)⟩
  · rw [hsaid]
    exact ⟨.inl, fun h => h.elim id fun h => absurd h.1 (h1 u)⟩
  · rw [hsaid]
    exact hlearns
  · rw [hsaid, hsaid']
    exact hfns
  · rw [hsaid, hsaid']
    exact hns
  · rw [hsaid', mem_singleton] at hr
    rw [hr] at hmr
    exact absurd hmr (hmember q hsame)

/-- A line of a member that is not named any more, or is named already. -/
theorem edited_gone {uid : Str}
    (hp : parseLine C.upper line = some p) (hm : isMember p = true) (huid : memberUid p.value = some (some uid))
    (hgone : uid ∈ e.remove ∨ uid ∈ seen) : Edited C e [line] [] seen hadFn seen hadFn := by
  have hsaid := said_single C hp
  have hnone : said C [] = [] := rfl
  have hread : ∀ u, Names [p] u ↔ uid = u := by
    intro u
    rw [names_single, huid]
    exact ⟨fun h => some.inj (some.inj h.2), fun h => ⟨hm, by rw [h]⟩⟩
  have hfn : p.name ≠ "FN" := isMember_ne hm (by decide)
  have hn : p.name ≠ "N" := isMember_ne hm (by decide)
  have hkept : isKept C.upper line = false := by
    unfold isKept
    rw [hp]
    dsimp only
    split
    · rfl
    · rw [hm, huid]
      rfl
  refine ⟨?_, fun u => ?_, fun u => ?_, ?_, ?_, fun _ => ?_, fun r hr _ => (by cases hr), forall_mem_nil _⟩
  · rw [filter_cons_of_neg (by rw [hkept]; exact Bool.false_ne_true)]
  · rw [hsaid, hnone, hread]
    refine ⟨fun h => absurd h not_names_nil, ?_⟩
    rintro ⟨rfl, hrem, hseen⟩
    exact absurd hgone (by tauto)
  · rw [hsaid, hread]
    refine ⟨.inl, fun h => h.elim id ?_⟩
    rintro ⟨rfl, hrem⟩
    exact hgone.resolve_left hrem
  · rw [hsaid, fnTexts_other hfn, isEmpty_nil, Bool.not_true, Bool.or_false]
  · rw [hsaid, hnone, fnTexts_other hfn]
    split <;> rfl
  · rw [hsaid, hnone, nTexts_other hn]
    rfl

/-- A line of a member that is named for the first time. -/
theorem edited_first {uid : Str} (hfine : Fine C line) (hp : parseLine C.upper line = some p) (hm : isMember p = true)
    (huid : memberUid p.value = some (some uid)) (hrem : uid ∉ e.remove) (hseen : uid ∉ seen) :
    Edited C e [line] [line] seen hadFn (seen ++ [uid]) hadFn := by
  have hsaid := said_single C hp
  have hread : ∀ u, Names [p] u ↔ uid = u := by
    intro u
    rw [names_single, huid]
    exact ⟨fun h => some.inj (some.inj h.2), fun h => ⟨hm, by rw [h]⟩⟩
  have hfn : p.name ≠ "FN" := isMember_ne hm (by decide)
  refine ⟨rfl, fun u => ?_, fun u => ?_, ?_, ?_, fun _ => rfl, fun _ hr _ => hr, forall_mem_singleton.mpr hfine⟩
  · rw [hsaid, hread]
    refine ⟨?_, And.left⟩
    rintro rfl
    exact ⟨rfl, hrem, hseen⟩
  · rw [hsaid, hread, mem_append, mem_singleton]
    refine or_congr_right ⟨?_, fun h => h.1.symm⟩
    rintro rfl
    exact ⟨rfl, hrem⟩
  · rw [hsaid, fnTexts_other hfn, isEmpty_nil, Bool.not_true, Bool.or_false]
  · rw [hsaid, fnTexts_other hfn]
    split <;> rfl

variable {s : Patching}

/-- What becomes of one line of the card. -/
theorem edited_line (hrev : '\n' ∉ e.rev) {s' : Patching} (hdepth : s.depth = 1)
    (hdone : s.done = false) (hfine : Fine C line) (hfirst : firstProperty C.upper line = parseLine C.upper line)
    (hraw : e.nameChanged = true → ∀ p, parseLine C.upper line = some p → p.name = "N" → '\n' ∉ p.raw)
    (h : s.step C.upper e line = some s') : ∃ added, s'.out = s.out ++ added ∧ s'.depth = 1 ∧ s'.done = false ∧
      Edited C e [line] added s.seen s.hadFn s'.seen s'.hadFn := by
  unfold Patching.step at h
  rw [hdone, if_neg Bool.false_ne_true, hfirst] at h
  cases hp : parseLine C.upper line with
  | none =>
    rw [hp] at h
    cases h
    have hsaid : said C [line] = [] := by
      unfold said
      rw [filterMap_cons, hp, filterMap_nil]
    exact ⟨[line], rfl, hdepth, hdone, Edited.same hfine (fun u => by rw [hsaid]; exact not_names_nil)
      (.inr (by rw [hsaid]; rfl))⟩
  | some p =>
    rw [hp] at h
    dsimp only at h
    rw [marks_of_marksLine hfine.notBegin hp, if_neg Bool.false_ne_true, marks_of_marksLine hfine.notEnd hp,
      if_neg fun hc => Bool.false_ne_true hc.1, if_neg fun hc => hc hdepth] at h
    unfold Patching.edit at h
    by_cases hfn : p.name = "FN" ∧ s.hadFn = false
    · rw [if_pos hfn] at h
      cases h
      refine ⟨_, rfl, hdepth, hdone, ?_⟩
      have htexts := fnTexts_fn hfn.1
      have hn : p.name ≠ "N" := by
        rw [hfn.1]
        decide
      have hlearns : true = (s.hadFn || !(fnTexts [p]).isEmpty) := by
        rw [htexts, hfn.2]
        rfl
      have hkind : isNamed "FN" p = true ∨ isNamed "N" p = true ∨ isNamed "REV" p = true := .inl (isNamed_iff.mpr hfn.1)
      cases hchanged : e.nameChanged with
      | true =>
        have hwritten : fnTexts [plainProperty "FN" e.name] = [readName e.name] := fnTexts_fn rfl
        refine edited_over hp (parse_fnLine e.name) (fine_fnLine e.name) hkind hfn.1.symm hlearns ?_ fun hc => ?_
        · rw [hwritten, if_pos ⟨hchanged, hfn.2⟩, htexts]
          rfl
        · rw [hchanged] at hc
          cases hc
      | false =>
        refine edited_over hp hp hfine hkind rfl hlearns ?_ fun _ => rfl
        rw [if_neg fun hc => by rw [hchanged] at hc; cases hc.1]
    rw [if_neg hfn] at h
    have hfn' : s.hadFn = true ∨ p.name ≠ "FN" := by
      cases hh : s.hadFn with
      | true => exact .inl rfl
      | false => exact .inr fun hc => hfn ⟨hc, hh⟩
    by_cases hn : p.name = "N" ∧ e.nameChanged = true
    · rw [if_pos hn] at h
      cases h
      have hother : p.name ≠ "FN" := by
        rw [hn.1]
        decide
      have hq : parseLine C.upper (renamedN e.name p.raw) = some ⟨[], "N", [], _, _⟩ := parseLine_plain C (by decide) _
      refine ⟨_, rfl, hdepth, hdone, edited_over hp hq (fine_renamedN e.name (hraw hn.2 p hp hn.1))
        (.inr (.inl (isNamed_iff.mpr hn.1))) hn.1.symm ?_ ?_ fun hc => ?_⟩
      · rw [fnTexts_other hother, isEmpty_nil, Bool.not_true, Bool.or_false]
        rfl
      · rw [fnTexts_other hother, fnTexts_other (by show "N".toList ≠ "FN".toList; decide)]
        split <;> rfl
      · rw [hn.2] at hc
        cases hc
    rw [if_neg hn] at h
    by_cases hm : isMember p = true
    · rw [if_pos hm] at h
      obtain ⟨uid, huid, rfl⟩ := map_eq_some_iff.mp h
      cases uid with
      | none =>
        refine ⟨[line], rfl, hdepth, hdone, edited_push hfine hp (.inr (isMember_ne hm (by decide))) fun u hu => ?_⟩
        have := (names_single.mp hu).2
        rw [huid] at this
        cases this
      | some uid =>
        dsimp only
        by_cases hrem : uid ∈ e.remove
        · rw [if_pos hrem]
          exact ⟨[], (append_nil _).symm, hdepth, hdone, edited_gone hp hm huid (.inl hrem)⟩
        rw [if_neg hrem]
        by_cases hseen : uid ∈ s.seen
        · rw [if_pos hseen]
          exact ⟨[], (append_nil _).symm, hdepth, hdone, edited_gone hp hm huid (.inr hseen)⟩
        rw [if_neg hseen]
        exact ⟨[line], rfl, hdepth, hdone, edited_first hfine hp hm huid hrem hseen⟩
    rw [if_neg hm] at h
    by_cases hr : p.name = "REV"
    · rw [if_pos hr] at h
      cases h
      have hother : p.name ≠ "FN" ∧ p.name ≠ "N" := by
        rw [hr]
        decide
      have hq : parseLine C.upper ("REV" ++ ':' :: e.rev) = some ⟨[], "REV", [], _, _⟩ :=
        parseLine_plain C (by decide) _
      refine ⟨_, rfl, hdepth, hdone, edited_over hp hq (fine_written (by decide) (by decide) hrev)
        (.inr (.inr (isNamed_iff.mpr hr))) hr.symm ?_ ?_ fun _ => ?_⟩
      · rw [fnTexts_other hother.1, isEmpty_nil, Bool.not_true, Bool.or_false]
        rfl
      · rw [fnTexts_other hother.1, fnTexts_other (by show "REV".toList ≠ "FN".toList; decide)]
        split <;> rfl
      · rw [nTexts_other hother.2, nTexts_other (by show "REV".toList ≠ "N".toList; decide)]
    · rw [if_neg hr] at h
      cases h
      exact ⟨[line], rfl, hdepth, hdone, edited_push hfine hp hfn' (not_names_other hm)⟩

/-- What becomes of the lines of the card. -/
theorem edited_run {e : GroupEdit} (hrev : '\n' ∉ e.rev) : ∀ {lines : List Str} {s s' : Patching}, s.depth = 1 → s.done = false →
    (∀ line ∈ lines, Fine C line ∧ firstProperty C.upper line = parseLine C.upper line ∧
      (e.nameChanged = true → ∀ p, parseLine C.upper line = some p → p.name = "N" → '\n' ∉ p.raw)) →
    lines.foldlM (Patching.step C.upper e) s = some s' →
      ∃ added, s'.out = s.out ++ added ∧ s'.depth = 1 ∧ s'.done = false ∧
        Edited C e lines added s.seen s.hadFn s'.seen s'.hadFn
  | [], s, s', hdepth, hdone, _, h => by
    cases h
    exact ⟨[], (append_nil _).symm, hdepth, hdone, Edited.nil e _ _⟩
  | line :: lines, s, s', hdepth, hdone, hlines, h => by
    obtain ⟨⟨hfine, hfirst, hraw⟩, hlines⟩ := forall_mem_cons.mp hlines
    rw [foldlM_cons] at h
    obtain ⟨mid, hmid, h⟩ := bind_eq_some_iff.mp h
    obtain ⟨first, hout, hdepth', hdone', hedited⟩ := edited_line hrev hdepth hdone hfine hfirst hraw hmid
    obtain ⟨more, hout', hdepth'', hdone'', hedited'⟩ := edited_run hrev hdepth' hdone' hlines h
    exact ⟨first ++ more, by rw [hout', hout, append_assoc], hdepth'', hdone'', hedited.append hedited'⟩

/-! ## All the lines -/

/-- Before the card every line goes back as it came. -/
theorem run_outside {e : GroupEdit} : ∀ {front : List Str} {s : Patching}, s.depth = 0 → s.done = false →
    (∀ line ∈ front, marksLine C.upper "BEGIN" line = false ∧ firstProperty C.upper line = parseLine C.upper line) →
      front.foldlM (Patching.step C.upper e) s = some { s with out := s.out ++ front }
  | [], s, _, _, _ => by
    rw [append_nil]
    rfl
  | line :: front, s, hdepth, hdone, h => by
    obtain ⟨⟨hbegin, hfirst⟩, h⟩ := forall_mem_cons.mp h
    have hstep : s.step C.upper e line = some (s.push line) := by
      unfold Patching.step
      rw [hdone, if_neg Bool.false_ne_true, hfirst]
      cases hp : parseLine C.upper line with
      | none => rfl
      | some p =>
        dsimp only
        rw [marks_of_marksLine hbegin hp, if_neg Bool.false_ne_true,
          if_neg fun hc => absurd (hdepth.symm.trans hc.2) (by decide), if_pos (by rw [hdepth]; decide)]
    rw [foldlM_cons, hstep, bind_eq_bind, bind_some]
    refine (run_outside (s := s.push line) hdepth hdone h).trans ?_
    unfold Patching.push
    dsimp only
    rw [append_assoc, singleton_append]

/-- After the card too. -/
theorem run_done {e : GroupEdit} : ∀ {rest : List Str} {s : Patching}, s.done = true →
      rest.foldlM (Patching.step C.upper e) s = some { s with out := s.out ++ rest }
  | [], s, _ => by
    rw [append_nil]
    rfl
  | line :: rest, s, hdone => by
    have hstep : s.step C.upper e line = some (s.push line) := by
      unfold Patching.step
      rw [hdone, if_pos rfl]
    rw [foldlM_cons, hstep, bind_eq_bind, bind_some]
    refine (run_done (s := s.push line) hdone).trans ?_
    unfold Patching.push
    dsimp only
    rw [append_assoc, singleton_append]

theorem step_opening (hdone : s.done = false)
    (hfirst : firstProperty C.upper line = parseLine C.upper line) (h : marksLine C.upper "BEGIN" line = true) :
    s.step C.upper e line = some { s.push line with depth := s.depth + 1 } := by
  obtain ⟨p, hp, hm⟩ := marksLine_iff.mp h
  unfold Patching.step
  rw [hdone, if_neg Bool.false_ne_true, hfirst, hp]
  dsimp only
  rw [hm, if_pos rfl]

theorem step_closing (hdepth : s.depth = 1) (hdone : s.done = false)
    (hfirst : firstProperty C.upper line = parseLine C.upper line) (h : marksLine C.upper "END" line = true) :
    s.step C.upper e line = some (s.close e line) := by
  obtain ⟨p, hp, hm⟩ := marksLine_iff.mp h
  have hb : p.marks "BEGIN" = false := by
    unfold Property.marks
    rw [marks_name hm]
    exact and_eq_false_imp.mpr fun he => absurd he (by decide)
  unfold Patching.step
  rw [hdone, if_neg Bool.false_ne_true, hfirst, hp]
  dsimp only
  rw [hb, if_neg Bool.false_ne_true, if_pos ⟨hm, hdepth⟩]

/-- The members that are new go in, each once. -/
theorem foldl_addMember (e : GroupEdit) : ∀ (add : List Str) (s : Patching), ∃ uids : List Str,
    (add.foldl (Patching.addMember e) s).out = s.out ++ uids.map e.memberLine ∧
      ∀ u, u ∈ uids ↔ u ∈ add ∧ u ∉ s.seen ∧ u ∉ e.remove
  | [], s => ⟨[], (append_nil _).symm, fun u => ⟨fun h => (by cases h), fun h => (by cases h.1)⟩⟩
  | uid :: add, s => by
    obtain ⟨uids, hout, hmem⟩ := foldl_addMember e add (s.addMember e uid)
    rw [foldl_cons]
    unfold Patching.addMember at hout hmem ⊢
    by_cases hnew : uid ∉ s.seen ∧ uid ∉ e.remove
    · rw [if_pos hnew] at hout hmem ⊢
      refine ⟨uid :: uids, ?_, fun u => ?_⟩
      · rw [hout]
        unfold Patching.push
        dsimp only
        rw [map_cons, append_assoc, singleton_append]
      · rw [mem_cons, hmem, mem_cons, mem_append, mem_singleton]
        constructor
        · rintro (rfl | ⟨hadd, hseen, hrem⟩)
          · exact ⟨.inl rfl, hnew⟩
          · exact ⟨.inr hadd, fun hs => hseen (.inl hs), hrem⟩
        · rintro ⟨rfl | hadd, hseen, hrem⟩
          · exact .inl rfl
          · by_cases hu : u = uid
            · exact .inl hu
            · exact .inr ⟨hadd, fun hs => hs.elim hseen hu, hrem⟩
    · rw [if_neg hnew] at hout hmem ⊢
      refine ⟨uids, hout, fun u => ?_⟩
      rw [hmem, mem_cons]
      refine ⟨fun h => ⟨.inr h.1, h.2⟩, ?_⟩
      rintro ⟨rfl | hadd, hrest⟩
      · exact absurd hrest hnew
      · exact ⟨hadd, hrest⟩

theorem close_out (e : GroupEdit) (s : Patching) (line : Str) : ∃ uids : List Str,
    (s.close e line).out = s.out ++ ((if s.hadFn then [] else [fnLine e.name]) ++ uids.map e.memberLine ++ [line]) ∧
      ∀ u, u ∈ uids ↔ u ∈ e.add ∧ u ∉ s.seen ∧ u ∉ e.remove := by
  obtain ⟨uids, hout, hmem⟩ := foldl_addMember e e.add (if s.hadFn then s else s.push (fnLine e.name))
  have hseen : (if s.hadFn then s else s.push (fnLine e.name)).seen = s.seen := by
    split <;> rfl
  have hnamed : (if s.hadFn then s else s.push (fnLine e.name)).out =
      s.out ++ (if s.hadFn then [] else [fnLine e.name]) := by
    split
    · rw [append_nil]
    · rfl
  refine ⟨uids, ?_, fun u => by rw [hmem, hseen]⟩
  show (e.add.foldl (Patching.addMember e) _).out ++ [line] = _
  rw [hout, hnamed]
  simp only [append_assoc]

/-- The lines of a framed card come out in the same frame. -/
theorem run_framed (hrev : '\n' ∉ e.rev) {lines front body rest : List Str} {opening closing : Str}
    (h : Framed C.upper lines front opening body closing rest)
    (hfirst : ∀ line ∈ lines, firstProperty C.upper line = parseLine C.upper line) (hfine : ∀ line ∈ body, Fine C line)
    (hraw : e.nameChanged = true → ∀ p ∈ said C body, p.name = "N" → '\n' ∉ p.raw)
    (hrun : lines.foldlM (Patching.step C.upper e) {} = some s) :
    ∃ (added uids seen : List Str) (hadFn : Bool), Edited C e body added [] false seen hadFn ∧
      (∀ u, u ∈ uids ↔ u ∈ e.add ∧ u ∉ seen ∧ u ∉ e.remove) ∧
      s.out = front ++ opening ::
        ((added ++ ((if hadFn then [] else [fnLine e.name]) ++ uids.map e.memberLine)) ++ closing :: rest) := by
  have hmem : ∀ line, line ∈ front ∨ line = opening ∨ line ∈ body ∨ line = closing ∨ line ∈ rest → line ∈ lines := by
    intro line hl
    rw [h.split, mem_append, mem_cons, mem_append, mem_cons]
    tauto
  rw [h.split, foldlM_append, run_outside rfl rfl fun line hl => ⟨h.outside line hl, hfirst line (hmem line (.inl hl))⟩,
    bind_eq_bind, bind_some, foldlM_cons,
    step_opening rfl (hfirst opening (hmem _ (.inr (.inl rfl)))) h.opens, bind_eq_bind, bind_some,
    foldlM_append] at hrun
  obtain ⟨mid, hmid, hrun⟩ := bind_eq_some_iff.mp hrun
  obtain ⟨added, hout, hdepth, hdone, hedited⟩ := edited_run hrev rfl rfl (fun line hl =>
    ⟨hfine line hl, hfirst line (hmem line (.inr (.inr (.inl hl)))), fun hc p hp => hraw hc p
      (mem_filterMap.mpr ⟨line, hl, hp⟩)⟩) hmid
  rw [foldlM_cons, step_closing hdepth hdone (hfirst closing (hmem _ (.inr (.inr (.inr (.inl rfl)))))) h.closes,
    bind_eq_bind, bind_some, run_done rfl] at hrun
  obtain ⟨uids, hclose, huids⟩ := close_out e mid closing
  refine ⟨added, uids, mid.seen, mid.hadFn, hedited, huids, ?_⟩
  rw [← some.inj hrun]
  dsimp only
  rw [hclose, hout]
  show (([] ++ front) ++ [opening]) ++ added ++ _ ++ rest = _
  simp only [nil_append, append_assoc, cons_append]

/-! ## The members and the name that are read -/

theorem exists_longest (uids : List Str) : ∃ bound, ∀ u ∈ uids, u.length ≤ bound := by
  induction uids with
  | nil => exact ⟨0, forall_mem_nil _⟩
  | cons uid uids ih =>
    obtain ⟨bound, h⟩ := ih
    exact ⟨max uid.length bound, forall_mem_cons.mpr ⟨le_max_left _ _, fun u hu => le_trans (h u hu) (le_max_right _ _)⟩⟩

/-- The members are the wanted ones exactly if every UID that had to be written is read back: the longest of the others is
read of none. -/
theorem written_iff {N : Str → Prop} {add remove uids : List Str}
    (huids : ∀ u, u ∈ uids ↔ u ∈ add ∧ ¬ (N u ∧ u ∉ remove) ∧ u ∉ remove) :
    (∀ u, ((N u ∧ u ∉ remove) ∨ ∃ v ∈ uids, written v = some u) ↔ (N u ∨ u ∈ add) ∧ u ∉ remove) ↔
      ∀ u ∈ add, u ∉ remove → ¬ N u → Writable u := by
  constructor
  · intro h
    have hlonger : ∀ u ∈ uids, ¬ Writable u → ∃ v ∈ uids, ¬ Writable v ∧ u.length < v.length := by
      intro u hu hbad
      obtain ⟨hadd, hold, hrem⟩ := (huids u).mp hu
      obtain ⟨v, hv, hread⟩ := ((h u).mpr ⟨.inr hadd, hrem⟩).resolve_left hold
      by_cases hgood : Writable v
      · rw [written_writable hgood] at hread
        exact absurd (some.inj hread ▸ hgood) hbad
      · exact ⟨v, hv, hgood, written_shorter hgood hread⟩
    obtain ⟨bound, hbound⟩ := exists_longest uids
    have hnone : ∀ k, ∀ u ∈ uids, bound - u.length ≤ k → Writable u := by
      intro k
      induction k with
      | zero =>
        intro u hu hk
        by_contra hbad
        obtain ⟨v, hv, -, hlen⟩ := hlonger u hu hbad
        have := hbound v hv
        omega
      | succ k ih =>
        intro u hu hk
        by_contra hbad
        obtain ⟨v, hv, hbad', hlen⟩ := hlonger u hu hbad
        have := hbound v hv
        exact hbad' (ih v hv (by omega))
    intro u hadd hrem hnew
    exact hnone bound u ((huids u).mpr ⟨hadd, fun ho => hnew ho.1, hrem⟩) (Nat.sub_le _ _)
  · intro h u
    have hgood : ∀ v ∈ uids, written v = some v := by
      intro v hv
      obtain ⟨hadd, hold, hrem⟩ := (huids v).mp hv
      exact written_writable (h v hadd hrem fun hn => hold ⟨hn, hrem⟩)
    have hread : (∃ v ∈ uids, written v = some u) ↔ u ∈ uids := by
      constructor
      · rintro ⟨v, hv, he⟩
        rw [hgood v hv] at he
        exact some.inj he ▸ hv
      · exact fun hu => ⟨u, hu, hgood u hu⟩
    rw [hread, huids]
    tauto

theorem readName_iff {name : Str} (htrim : trim name = name) : readName name = name ↔ '\r' ∉ name := by
  constructor
  · intro h hcr
    have hlt : (withoutCr name).length < name.length := by
      refine lt_of_le_of_ne (length_filter_le _ _) fun he => ?_
      have hall := length_filter_eq_length_iff.mp he _ hcr
      simp at hall
    have hle : (readName name).length ≤ (withoutCr name).length := (trimBy_sublist isWhitespace _).length_le
    rw [h] at hle
    omega
  · intro h
    unfold readName
    rw [withoutCr_eq_self h, htrim]

theorem readName_ne_nil {name : Str} (hne : name ≠ []) (htrim : trim name = name) : readName name ≠ [] := by
  intro h
  cases name with
  | nil => exact hne rfl
  | cons c rest =>
    have htrimmed := trimBy_trimmed isWhitespace (c :: rest)
    rw [← trim_eq_trimBy, htrim] at htrimmed
    have hc : isWhitespace c = false := htrimmed.1 c rfl
    have hcr : c ≠ '\r' := by
      rintro rfl
      cases hc
    have hcount := count_trim hc (withoutCr (c :: rest))
    have hempty : trim (withoutCr (c :: rest)) = [] := h
    rw [hempty, withoutCr, filter_cons_of_pos (by simpa using hcr), count_cons_self, count_nil] at hcount
    omega

theorem nameOf_eq (properties : List Property) :
    nameOf properties = firstText [firstText (fnTexts properties), firstText (nTexts properties)] := rfl

/-- The name that is read after an edit. -/
theorem nameOf_edited {body added extra : List Str}
    (h : Edited C e body added [] false seen hadFn) (hextra : fnTexts (said C extra) = [] ∧ nTexts (said C extra) = [])
    (hname : readName e.name ≠ []) : nameOf (said C (added ++ ((if hadFn then [] else [fnLine e.name]) ++ extra))) =
      if e.nameChanged = false ∧ fnTexts (said C body) ≠ [] then nameOf (said C body) else readName e.name := by
  have hnew : fnTexts (said C [fnLine e.name]) = [readName e.name] := by
    rw [said_single C (parse_fnLine e.name)]
    exact fnTexts_fn rfl
  have hnewN : nTexts (said C [fnLine e.name]) = [] := by
    rw [said_single C (parse_fnLine e.name)]
    exact nTexts_other (by show "FN".toList ≠ "N".toList; decide)
  have hfirst : ∀ rest other : List Str, firstText [firstText (readName e.name :: rest), firstText other] = readName e.name := by
    intro rest other
    rw [firstText_cons _ rest, if_neg hname, firstText_pair, if_neg hname]
  rw [nameOf_eq, said_append, said_append, fnTexts_append, fnTexts_append, nTexts_append, nTexts_append, hextra.1, hextra.2,
    h.fns, h.learns, Bool.false_or]
  cases hfn : fnTexts (said C body) with
  | nil =>
    have hnone : (if e.nameChanged = true ∧ false = false then renamed e.name [] else []) = ([] : List Str) := by
      split <;> rfl
    have hwritten : (if (!([] : List Str).isEmpty) = true then [] else [fnLine e.name]) = [fnLine e.name] := rfl
    rw [hnone, hwritten, hnew, if_neg fun hc => hc.2 rfl]
    exact hfirst [] _
  | cons t ts =>
    have hwritten : (if (!(t :: ts).isEmpty) = true then [] else [fnLine e.name]) = [] := rfl
    have hnothing : fnTexts (said C []) = [] ∧ nTexts (said C []) = [] := ⟨rfl, rfl⟩
    rw [hwritten, hnothing.1, hnothing.2, append_nil, append_nil, append_nil]
    cases hchanged : e.nameChanged with
    | true =>
      rw [if_pos (And.intro rfl rfl), if_neg fun hc => by cases hc.1]
      exact hfirst _ _
    | false =>
      rw [if_neg (fun hc => by cases hc.1), if_pos ⟨rfl, cons_ne_nil _ _⟩, h.ns hchanged, nameOf_eq, hfn]

end

end Oreneta.Contacts

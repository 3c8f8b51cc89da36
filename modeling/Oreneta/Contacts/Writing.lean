import Oreneta.Contacts.Person
import Oreneta.Lib.ContentLines

/-!
# Writing vCards

`contacts/vcard_write.rs`: values escaped, lines folded, and a new card for a person.

* `escape`, `labelled`, `nLine`, `newCard` — as in the source; `unescape_escape`, `structuredParts_escape` — what is read of an
  escaped value.
* `join` — lines folded at 75 octets, as `ContentLines.render` has them (`join_eq_render`).
* `unfold_join` — the reader's lines of what was joined are the lines, and an empty one after the last line end.
* `parseLine_plain`, `parseLine_typed` — what the reader takes a written line for.
-/

namespace Oreneta.Contacts.Write

open Text ContentLines List Bool

/-! ## Values -/

def escapeChar (c : Char) : Str :=
  if c = '\\' then ['\\', '\\']
  else if c = ',' then ['\\', ',']
  else if c = ';' then ['\\', ';']
  else if c = '\n' then ['\\', 'n']
  else if c = '\r' then []
  else [c]

/-- Backslash, comma, semicolon and line breaks. -/
def escape (value : Str) : Str := value.flatMap escapeChar

def withoutCr (s : Str) : Str := s.filter (fun c => c ≠ '\r')

theorem withoutCr_eq_self {s : Str} (h : '\r' ∉ s) : withoutCr s = s :=
  filter_eq_self.mpr fun _ hc => decide_eq_true fun he => h (he ▸ hc)

theorem escape_cons (c : Char) (s : Str) : escape (c :: s) = escapeChar c ++ escape s := flatMap_cons

/-- How a character is written: behind a backslash, not at all, or as it is. -/
theorem escapeChar_cases (c : Char) :
    (∃ d, escapeChar c = ['\\', d] ∧ (if d = 'n' ∨ d = 'N' then '\n' else d) = c ∧ c ≠ '\r' ∧ d ≠ '\n' ∧ d ≠ '\r') ∨
      (c = '\r' ∧ escapeChar c = []) ∨
      (escapeChar c = [c] ∧ c ≠ '\\' ∧ c ≠ ';' ∧ c ≠ '\n' ∧ c ≠ '\r') := by
  by_cases h1 : c = '\\'
  · subst h1
    exact .inl ⟨'\\', rfl, by decide, by decide, by decide, by decide⟩
  by_cases h2 : c = ','
  · subst h2
    exact .inl ⟨',', rfl, by decide, by decide, by decide, by decide⟩
  by_cases h3 : c = ';'
  · subst h3
    exact .inl ⟨';', rfl, by decide, by decide, by decide, by decide⟩
  by_cases h4 : c = '\n'
  · subst h4
    exact .inl ⟨'n', rfl, by decide, by decide, by decide, by decide⟩
  by_cases h5 : c = '\r'
  · subst h5
    exact .inr (.inl ⟨rfl, rfl⟩)
  · refine .inr (.inr ⟨?_, h1, h3, h4, h5⟩)
    rw [escapeChar, if_neg h1, if_neg h2, if_neg h3, if_neg h4, if_neg h5]

theorem unescape_backslash (c : Char) (rest : Str) :
    unescape ('\\' :: c :: rest) = (if c = 'n' ∨ c = 'N' then '\n' else c) :: unescape rest := rfl

variable {c : Char}

theorem unescape_cons (h : c ≠ '\\') (rest : Str) : unescape (c :: rest) = c :: unescape rest := by
  rw [unescape]
  · exact fun he => absurd he h
  · exact fun d tail he => absurd he h

/-- Escaping is undone, but for the carriage returns. -/
theorem unescape_escape (s : Str) : unescape (escape s) = withoutCr s := by
  induction s with
  | nil => rfl
  | cons c s ih =>
    rw [escape_cons]
    rcases escapeChar_cases c with ⟨d, hc, hd, hcr, -, -⟩ | ⟨rfl, hc⟩ | ⟨hc, hslash, -, -, hcr⟩
    · rw [hc, cons_append, singleton_append, unescape_backslash, hd, ih, withoutCr, withoutCr,
        filter_cons_of_pos (by simpa using hcr)]
    · rw [hc, nil_append, ih, withoutCr, withoutCr, filter_cons_of_neg (by simp)]
    · rw [hc, singleton_append, unescape_cons hslash, ih, withoutCr, withoutCr, filter_cons_of_pos (by simpa using hcr)]

/-- No line ends in an escaped value. -/
theorem notMem_escape (s : Str) : '\n' ∉ escape s ∧ '\r' ∉ escape s := by
  have hchar : ∀ x, x = '\n' ∨ x = '\r' → x ∉ escape s := by
    intro x hx hmem
    obtain ⟨c, -, hc⟩ := mem_flatMap.mp hmem
    rcases escapeChar_cases c with ⟨d, he, -, -, hn, hr⟩ | ⟨-, he⟩ | ⟨he, -, -, hn, hr⟩
    · rw [he] at hc
      rcases hx with rfl | rfl
      · simp [hn.symm] at hc
      · simp [hr.symm] at hc
    · rw [he] at hc
      cases hc
    · rw [he, mem_singleton] at hc
      rcases hx with rfl | rfl
      · exact hn hc.symm
      · exact hr hc.symm
  exact ⟨hchar '\n' (.inl rfl), hchar '\r' (.inr rfl)⟩

theorem structuredFrom_escape (s : Str) : ∀ (current rest : Str),
    structuredFrom false current (escape s ++ rest) = structuredFrom false (current ++ escape s) rest := by
  induction s with
  | nil => exact fun current rest => by rw [escape, flatMap_nil, nil_append, append_nil]
  | cons c s ih =>
    intro current rest
    rw [escape_cons, append_assoc]
    rcases escapeChar_cases c with ⟨d, hc, -, -, -, -⟩ | ⟨-, hc⟩ | ⟨hc, hslash, hsemi, -, -⟩
    · rw [hc, cons_append, singleton_append, structuredFrom, if_pos rfl, structuredFrom, ih]
      simp
    · rw [hc, nil_append, nil_append, ih]
    · rw [hc, singleton_append, structuredFrom, if_neg hslash, if_neg hsemi, ih]
      simp

/-- An escaped value is one piece. -/
theorem structuredParts_escape (s rest : Str) : structuredParts (escape s ++ ';' :: rest) = escape s :: structuredParts rest := by
  unfold structuredParts
  rw [structuredFrom_escape, nil_append, structuredFrom, if_neg (by decide), if_pos rfl]

theorem structuredParts_escape_last (s : Str) : structuredParts (escape s) = [escape s] := by
  have h := structuredFrom_escape s [] []
  rw [append_nil, nil_append] at h
  exact h

/-! ## Lines -/

/-- A line folded at 75 octets, never inside a character. -/
def foldFrom : Nat → Str → Str
  | _, [] => []
  | width, c :: line =>
    if 75 < width + c.utf8Size then '\r' :: '\n' :: ' ' :: c :: foldFrom (1 + c.utf8Size) line
    else c :: foldFrom (width + c.utf8Size) line

def join (lines : List Str) : Str := lines.flatMap (fun line => foldFrom 0 line ++ ['\r', '\n'])

/-- Behind the blank of a continuation there is room for 74 octets. -/
theorem foldFrom_continued : ∀ (line : Str) (width : Nat), foldFrom (1 + width) line = ContentLines.foldFrom line width false
  | [], _ => rfl
  | c :: line, width => by
    have hroom : 75 < 1 + width + c.utf8Size ↔ 74 < width + c.utf8Size := by omega
    rw [foldFrom, ContentLines.foldFrom, foldFrom_continued line c.utf8Size, Nat.add_assoc,
      foldFrom_continued line (width + c.utf8Size)]
    simp only [false_eq_true, if_false, ← Nat.add_assoc, hroom]

theorem foldFrom_first : ∀ (line : Str) (width : Nat), foldFrom width line = ContentLines.foldFrom line width true
  | [], _ => rfl
  | c :: line, width => by
    rw [foldFrom, ContentLines.foldFrom, foldFrom_continued line c.utf8Size, foldFrom_first line (width + c.utf8Size)]
    simp only [if_true]

theorem foldFrom_short : ∀ (line : Str) (width : Nat), width + ContentLines.octets line ≤ 75 → foldFrom width line = line
  | [], _, _ => rfl
  | c :: line, width, h => by
    have hlen : ContentLines.octets (c :: line) = c.utf8Size + ContentLines.octets line := rfl
    rw [foldFrom, if_neg (by omega), foldFrom_short line _ (by omega)]

theorem join_eq_render (lines : List Str) : join lines = ContentLines.render lines := by
  unfold join ContentLines.render
  congr 1
  funext line
  unfold ContentLines.fold
  split
  · rw [foldFrom_short line 0 (by omega)]
  · rw [foldFrom_first]

/-- The physical lines of a folded line. -/
theorem foldFrom_pieces : ∀ (line : Str) (width : Nat), '\n' ∉ line →
    ∃ (first : Str) (more : List Str), foldFrom width line = first ++ more.flatMap (fun m => '\r' :: '\n' :: ' ' :: m) ∧
      first ++ more.flatten = line ∧ '\n' ∉ first ∧ (∀ m ∈ more, '\n' ∉ m) ∧
      ∀ c tail, line = c :: tail → width + c.utf8Size ≤ 75 → first.head? = some c
  | [], _, _ => ⟨[], [], rfl, rfl, not_mem_nil, forall_mem_nil _, fun _ _ h => (by cases h)⟩
  | c :: line, width, h => by
    have hc : '\n' ≠ c := fun he => h (he ▸ mem_cons_self)
    have hline : '\n' ∉ line := fun hm => h (mem_cons_of_mem _ hm)
    rw [foldFrom]
    by_cases hfull : 75 < width + c.utf8Size
    · rw [if_pos hfull]
      obtain ⟨first, more, hfold, hflat, hfirst, hmore, -⟩ := foldFrom_pieces line (1 + c.utf8Size) hline
      refine ⟨[], (c :: first) :: more, ?_, ?_, not_mem_nil, ?_, ?_⟩
      · rw [hfold]
        simp
      · rw [flatten_cons, nil_append, cons_append, hflat]
      · exact forall_mem_cons.mpr ⟨by simp [hc, hfirst], hmore⟩
      · intro d tail he hroom
        cases he
        omega
    · rw [if_neg hfull]
      obtain ⟨first, more, hfold, hflat, hfirst, hmore, -⟩ := foldFrom_pieces line (width + c.utf8Size) hline
      refine ⟨c :: first, more, ?_, ?_, by simp [hc, hfirst], hmore, ?_⟩
      · rw [hfold, cons_append]
      · rw [cons_append, hflat]
      · intro d tail he _
        cases he
        rfl

theorem stripCr_concat (raw : Str) : stripCr (raw ++ ['\r']) = raw := by
  rw [stripCr, if_pos (by simp), dropLast_concat]

theorem splitOn_pieces (rest : Str) : ∀ (more : List Str) (first : Str), '\n' ∉ first → (∀ m ∈ more, '\n' ∉ m) →
    (first ++ more.flatMap (fun m => '\r' :: '\n' :: ' ' :: m) ++ '\r' :: '\n' :: rest).splitOn '\n' =
      (first ++ ['\r']) :: (more.map (fun m => ' ' :: m ++ ['\r']) ++ rest.splitOn '\n')
  | [], first, hfirst, _ => by
    rw [flatMap_nil, append_nil, splitOn_line hfirst]
    rfl
  | m :: more, first, hfirst, hmore => by
    obtain ⟨hm, hmore⟩ := forall_mem_cons.mp hmore
    have hcut : first ++ (m :: more).flatMap (fun m => '\r' :: '\n' :: ' ' :: m) ++ '\r' :: '\n' :: rest =
        first ++ '\r' :: '\n' :: ((' ' :: m) ++ more.flatMap (fun m => '\r' :: '\n' :: ' ' :: m) ++ '\r' :: '\n' :: rest) := by
      simp
    rw [hcut, splitOn_line hfirst, splitOn_pieces rest more (' ' :: m) (by simp [hm]) hmore]
    rfl

theorem foldl_continued (lines : List Str) : ∀ (more : List Str) (line : Str),
    (more.map (fun m => ' ' :: m ++ ['\r'])).foldl addLine (lines ++ [line]) = lines ++ [line ++ more.flatten]
  | [], line => by rw [map_nil, foldl_nil, flatten_nil, append_nil]
  | m :: more, line => by
    have hjoin : addLine (lines ++ [line]) (' ' :: m ++ ['\r']) = lines ++ [line ++ m] := by
      unfold addLine
      rw [stripCr_concat]
      simp
    rw [map_cons, foldl_cons, hjoin, foldl_continued lines more, flatten_cons, append_assoc]

theorem foldl_joined {line : Str} {lines : List Str} (hline : line ≠ [] ∧ '\n' ∉ line)
    (hstart : lines ≠ [] → continuation line = none) (rest : Str) :
    ((foldFrom 0 line ++ '\r' :: '\n' :: rest).splitOn '\n').foldl addLine lines =
      (rest.splitOn '\n').foldl addLine (lines ++ [line]) := by
  obtain ⟨hne, hn⟩ := hline
  cases line with
  | nil => exact absurd rfl hne
  | cons c tail =>
    obtain ⟨first, more, hfold, hflat, hfirst, hmore, hhead⟩ := foldFrom_pieces (c :: tail) 0 hn
    have hc := hhead c tail rfl (by
      have := c.utf8Size_le_four
      omega)
    have hnew : addLine lines (first ++ ['\r']) = lines ++ [first] := by
      cases first with
      | nil => cases hc
      | cons d others =>
        cases hc
        unfold addLine
        rw [stripCr_concat]
        dsimp only
        rw [if_neg fun h => continuation_eq_none.mp (hstart h.2) h.1]
    rw [hfold, splitOn_pieces rest more first hfirst hmore, foldl_cons, foldl_append, hnew, foldl_continued, hflat]

/-- What was joined is read back, with an empty line after the last line end. -/
theorem unfold_join {lines : List Str} (h : ContentLines.Clean lines) : unfold (join lines) = lines ++ [[]] := by
  have hfold : ∀ (more before : List Str), ContentLines.Clean (before ++ more) →
      ((join more).splitOn '\n').foldl addLine before = before ++ more ++ [[]] := by
    intro more
    induction more with
    | nil =>
      intro before _
      rw [append_nil]
      rfl
    | cons line more ih =>
      intro before hclean
      have hline := hclean.solid line (by simp)
      have hstart : before ≠ [] → continuation line = none := by
        intro hne
        apply hclean.starts
        cases before with
        | nil => exact absurd rfl hne
        | cons b bs => simp
      have hcut : join (line :: more) = foldFrom 0 line ++ '\r' :: '\n' :: join more := by simp [join]
      rw [hcut, foldl_joined hline hstart, ih _ (by simpa using hclean), append_assoc, append_assoc, append_assoc]
      rfl
  have := hfold lines [] (by simpa using h)
  rwa [nil_append] at this

/-! ## A new card -/

/-- The whole name as the given name. -/
def nameLine (name : Str) : Str := "N:;" ++ escape name ++ ";;;"

def nLine (person : Person) : Str :=
  if person.given = [] ∧ person.family = [] then nameLine person.name
  else "N:" ++ escape person.family ++ ';' :: escape person.given ++ ";;;"

/-- A label that can stand as a type. -/
def isType (label : Str) : Bool := !label.isEmpty && label.all (fun c => c.isAlphanum || c == '-')

def labelled (property label value : Str) : Str :=
  if isType (trim label) then
    property ++ ";TYPE=" ++ asciiLower (trim label) ++ ':' :: escape (trim value)
  else property ++ ':' :: escape (trim value)

/-- The lines of a new card. -/
def newCardLines (person : Person) (uid : Str) : List Str :=
  ["BEGIN:VCARD".toList, "VERSION:3.0".toList, "UID:".toList ++ escape uid, "FN:".toList ++ escape person.name,
      nLine person] ++
    (if person.organisation = [] then [] else ["ORG:".toList ++ escape person.organisation]) ++
    person.emails.map (fun email => labelled "EMAIL".toList email.label email.addr) ++
    person.phones.map (fun phone => labelled "TEL".toList phone.label phone.number) ++
    (if person.note = [] then [] else ["NOTE:".toList ++ escape person.note]) ++
    ["END:VCARD".toList]

def newCard (person : Person) (uid : Str) : Str := join (newCardLines person uid)

/-! ## What a written line says -/

/-- `str::to_uppercase`, as Unicode has it. -/
structure Capitals where
  upper : Str → Str
  ascii : ∀ s : Str, (∀ c ∈ s, c.toNat < 128) → upper s = s.map Char.toUpper

theorem splitAtValue_append {head : Str} (value : Str) (hquote : '"' ∉ head) (hcolon : ':' ∉ head) :
    splitAtValue (head ++ ':' :: value) false = some (head, value) := by
  induction head with
  | nil => rfl
  | cons c head ih =>
    obtain ⟨hq, hquote⟩ := not_or.mp fun h => hquote (mem_cons.mpr h)
    obtain ⟨hc, hcolon⟩ := not_or.mp fun h => hcolon (mem_cons.mpr h)
    rw [cons_append, splitAtValue, if_neg (Ne.symm hq), if_neg fun h => hc h.1.symm, ih hquote hcolon, Option.map_some]

theorem splitUnquoted_append {separator : Char} {front : Str} (hquote : '"' ∉ front) (hsep : separator ∉ front)
    (hother : separator ≠ '"') (rest : Str) : ∀ current : Str,
    splitUnquoted separator (front ++ separator :: rest) current false =
      (current ++ front) :: splitUnquoted separator rest [] false := by
  induction front with
  | nil =>
    intro current
    rw [nil_append, splitUnquoted, if_neg hother, if_pos ⟨rfl, rfl⟩, append_nil]
  | cons c front ih =>
    intro current
    obtain ⟨hq, hquote⟩ := not_or.mp fun h => hquote (mem_cons.mpr h)
    obtain ⟨hs, hsep⟩ := not_or.mp fun h => hsep (mem_cons.mpr h)
    rw [cons_append, splitUnquoted, if_neg (Ne.symm hq), if_neg fun h => hs h.1.symm, ih hquote hsep,
      append_assoc, singleton_append]

theorem splitUnquoted_whole {separator : Char} {s : Str} (hquote : '"' ∉ s) (hsep : separator ∉ s) : ∀ current : Str,
    splitUnquoted separator s current false = [current ++ s] := by
  induction s with
  | nil =>
    intro current
    rw [splitUnquoted, append_nil]
  | cons c s ih =>
    intro current
    obtain ⟨hq, hquote⟩ := not_or.mp fun h => hquote (mem_cons.mpr h)
    obtain ⟨hs, hsep⟩ := not_or.mp fun h => hsep (mem_cons.mpr h)
    rw [splitUnquoted, if_neg (Ne.symm hq), if_neg fun h => hs h.1.symm, ih hquote hsep, append_assoc, singleton_append]

theorem splitOn_of_not_mem {s : Str} (h : c ∉ s) : s.splitOn c = [s] := by
  induction s with
  | nil => exact splitOn_nil c
  | cons x s ih =>
    obtain ⟨hx, hs⟩ := not_or.mp fun hm => h (mem_cons.mpr hm)
    rw [splitOn_cons_eq_if_modifyHead, if_neg (by simpa using Ne.symm hx), ih hs]
    rfl

/-- The name of a property: capitals and hyphens. -/
def isWord (name : Str) : Bool := !name.isEmpty && name.all (fun c => c.isUpper || c == '-')

variable {name : Str}

theorem word_char (h : isWord name = true) (hc : c ∈ name) : c.isUpper = true ∨ c = '-' := by
  unfold isWord at h
  rw [and_eq_true, all_eq_true] at h
  simpa using h.2 c hc

theorem word_ne_nil (h : isWord name = true) : name ≠ [] := by
  rintro rfl
  cases h

theorem isUpper_range (h : c.isUpper = true) : 65 ≤ c.toNat ∧ c.toNat ≤ 90 := by
  rw [isUpper_eq] at h
  have h' := of_decide_eq_true h
  exact ⟨UInt32.le_iff_toNat_le.mp h'.1, UInt32.le_iff_toNat_le.mp h'.2⟩

theorem word_range (h : isWord name = true) (hc : c ∈ name) : c.toNat = 45 ∨ (65 ≤ c.toNat ∧ c.toNat ≤ 90) := by
  rcases word_char h hc with hu | rfl
  · exact .inr (isUpper_range hu)
  · exact .inl rfl

theorem notMem_word (h : isWord name = true) {x : Char} (hx : x.toNat ≠ 45 ∧ (x.toNat < 65 ∨ 90 < x.toNat)) : x ∉ name := by
  intro hm
  have := word_range h hm
  omega

theorem isWhitespace_of_range (h : 33 ≤ c.toNat ∧ c.toNat < 127) : isWhitespace c = false := by
  unfold isWhitespace
  simp only [or_eq_false_iff, and_eq_false_iff, decide_eq_false_iff_not]
  omega

theorem trim_word (h : isWord name = true) : trim name = name :=
  trim_of_no_space fun c hc => isWhitespace_of_range (by
    have := word_range h hc
    omega)

theorem upper_word (C : Capitals) (h : isWord name = true) : C.upper name = name := by
  rw [C.ascii name fun c hc => by
    have := word_range h hc
    omega]
  have hself : ∀ c ∈ name, c.toUpper = id c := by
    intro c hc
    have hr := word_range h hc
    unfold Char.toUpper
    rw [dif_neg]
    · rfl
    · rintro ⟨hlo, -⟩
      have hlo : 97 ≤ c.toNat := UInt32.le_iff_toNat_le.mp hlo
      omega
  rw [map_congr_left hself, map_id]

/-- A line with a colon is not blank. -/
theorem trim_colon (head value : Str) : (trim (head ++ ':' :: value)).isEmpty = false := by
  have hcount := count_trim (c := ':') rfl (head ++ ':' :: value)
  cases h : trim (head ++ ':' :: value) with
  | nil =>
    rw [h, count_append, count_cons_self, count_nil] at hcount
    omega
  | cons c rest => rfl

theorem lineValue_plain {params : List (Str × Str)} (h : params.any isQuotedPrintable = false) (raw : Str) :
    lineValue params raw = (unescape raw, raw) := by
  rw [lineValue, h]
  rfl

/-- A line with a name and a value. -/
theorem parseLine_plain (C : Capitals) (h : isWord name = true) (value : Str) :
    parseLine C.upper (name ++ ':' :: value) = some ⟨[], name, [], unescape value, value⟩ := by
  have hquote : '"' ∉ name := notMem_word h (by decide)
  have hsplit := splitAtValue_append value hquote (notMem_word h (by decide) : ':' ∉ name)
  have hparts : splitUnquoted ';' name [] false = [[] ++ name] :=
    splitUnquoted_whole hquote (notMem_word h (by decide)) []
  have hdot : splitOnce '.' name = none := splitOnce_eq_none.mpr (notMem_word h (by decide))
  have hne : name.isEmpty = false := by
    cases name with
    | nil => exact absurd rfl (word_ne_nil h)
    | cons c rest => rfl
  unfold parseLine
  rw [trim_colon, hsplit]
  dsimp only [Option.bind_some, false_eq_true]
  rw [if_neg Bool.false_ne_true, hparts]
  dsimp only [nil_append]
  rw [hdot]
  dsimp only
  rw [trim_word h, hne, if_neg Bool.false_ne_true, upper_word C h, map_nil, lineValue_plain rfl]

/-- The characters of a label that can stand as a type. -/
theorem label_range (h : c.isAlphanum = true ∨ c = '-') :
    c.toNat = 45 ∨ (48 ≤ c.toNat ∧ c.toNat ≤ 57) ∨ (65 ≤ c.toNat ∧ c.toNat ≤ 90) ∨ (97 ≤ c.toNat ∧ c.toNat ≤ 122) := by
  rcases h with h | rfl
  · unfold Char.isAlphanum at h
    rw [isAlpha_eq, or_eq_true, or_eq_true] at h
    rcases h with (h | h) | h
    · exact .inr (.inr (.inl (isUpper_range h)))
    · rw [isLower_eq, and_eq_true, decide_eq_true_iff, decide_eq_true_iff] at h
      exact .inr (.inr (.inr ⟨UInt32.le_iff_toNat_le.mp h.1, UInt32.le_iff_toNat_le.mp h.2⟩))
    · unfold Char.isDigit at h
      rw [and_eq_true, decide_eq_true_iff, decide_eq_true_iff] at h
      exact .inr (.inl ⟨UInt32.le_iff_toNat_le.mp h.1, UInt32.le_iff_toNat_le.mp h.2⟩)
  · exact .inl rfl

/-- A line with a type. -/
theorem parseLine_typed (C : Capitals) {label : Str} (h : isWord name = true)
    (hlabel : ∀ c ∈ label, c.isAlphanum = true ∨ c = '-') (value : Str) :
    parseLine C.upper (name ++ ";TYPE=".toList ++ label ++ ':' :: value) =
      some ⟨[], name, [("TYPE".toList, label)], unescape value, value⟩ := by
  have hnot : ∀ x : Char, x.toNat ≠ 45 → (x.toNat < 48 ∨ 57 < x.toNat) → (x.toNat < 65 ∨ 90 < x.toNat) →
      (x.toNat < 97 ∨ 122 < x.toNat) → x ∉ label := by
    intro x h1 h2 h3 h4 hm
    have := label_range (hlabel x hm)
    omega
  have htype : ";TYPE=".toList = ';' :: "TYPE".toList ++ ['='] := by decide
  have hhead : name ++ ";TYPE=".toList ++ label = name ++ ';' :: ("TYPE".toList ++ '=' :: label) := by
    rw [htype]
    simp
  have hname : ∀ x : Char, x.toNat ≠ 45 ∧ (x.toNat < 65 ∨ 90 < x.toNat) → x ∉ name := fun x hx => notMem_word h hx
  have hkey : ∀ x : Char, x.toNat ≠ 45 ∧ (x.toNat < 65 ∨ 90 < x.toNat) → x ∉ "TYPE".toList :=
    fun x hx => notMem_word (by decide) hx
  have hquote : '"' ∉ name ++ ';' :: ("TYPE".toList ++ '=' :: label) := by
    rw [mem_append, mem_cons, mem_append, mem_cons]
    rintro (hm | hm | hm | hm | hm)
    · exact hname '"' (by decide) hm
    · cases hm
    · exact hkey '"' (by decide) hm
    · cases hm
    · exact hnot '"' (by decide) (by decide) (by decide) (by decide) hm
  have hcolon : ':' ∉ name ++ ';' :: ("TYPE".toList ++ '=' :: label) := by
    rw [mem_append, mem_cons, mem_append, mem_cons]
    rintro (hm | hm | hm | hm | hm)
    · exact hname ':' (by decide) hm
    · cases hm
    · exact hkey ':' (by decide) hm
    · cases hm
    · exact hnot ':' (by decide) (by decide) (by decide) (by decide) hm
  have hrest : splitUnquoted ';' ("TYPE".toList ++ '=' :: label) [] false = ["TYPE".toList ++ '=' :: label] := by
    apply splitUnquoted_whole
    · exact fun hm => hquote (mem_append_right _ (mem_cons_of_mem _ hm))
    · rw [mem_append, mem_cons]
      rintro (hm | hm | hm)
      · exact hkey ';' (by decide) hm
      · cases hm
      · exact hnot ';' (by decide) (by decide) (by decide) (by decide) hm
  have hparts : splitUnquoted ';' (name ++ ';' :: ("TYPE".toList ++ '=' :: label)) [] false =
      [name, "TYPE".toList ++ '=' :: label] := by
    rw [splitUnquoted_append (hname '"' (by decide)) (hname ';' (by decide)) (by decide), hrest, nil_append]
  have hdot : splitOnce '.' name = none := splitOnce_eq_none.mpr (hname '.' (by decide))
  have hlabelTrim : trim label = label := trim_of_no_space fun c hc => isWhitespace_of_range (by
    have := label_range (hlabel c hc)
    omega)
  have hunquote : unquote label = label := by
    unfold unquote
    dsimp only
    rw [hlabelTrim, if_neg]
    rintro ⟨-, hhead, -⟩
    exact hnot '"' (by decide) (by decide) (by decide) (by decide) (mem_of_mem_head? hhead)
  have hparam : parseParam C.upper ("TYPE".toList ++ '=' :: label) = ("TYPE".toList, label) := by
    rw [parseParam, splitOnce_append label (hkey '=' (by decide))]
    dsimp only
    rw [trim_word (by decide), upper_word C (by decide), hunquote]
  have hencoded : [("TYPE".toList, label)].any isQuotedPrintable = false := by
    have hother : ("TYPE".toList == "ENCODING".toList) = false := by decide
    simp only [any_cons, any_nil, isQuotedPrintable, hother, Bool.false_and, Bool.or_false]
  have hne : name.isEmpty = false := by
    cases name with
    | nil => exact absurd rfl (word_ne_nil h)
    | cons c rest => rfl
  rw [hhead]
  unfold parseLine
  rw [trim_colon, splitAtValue_append value hquote hcolon]
  dsimp only [Option.bind_some, false_eq_true]
  rw [if_neg Bool.false_ne_true, hparts]
  dsimp only
  rw [hdot]
  dsimp only
  rw [trim_word h, hne, if_neg Bool.false_ne_true, upper_word C h, map_singleton, hparam, lineValue_plain hencoded]

end Oreneta.Contacts.Write

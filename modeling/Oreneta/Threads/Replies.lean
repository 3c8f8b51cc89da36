import Oreneta.Lib.ByteSlices
import Oreneta.Lib.Trim
import Oreneta.Threads.Keys

/-!
# Subjects of replies

A subject with reply markers and tags in front of it is grouped as the subject itself.

* `Marker`, `Tag`, `Replied` — what mail programs put in front of a subject.
* `stripReplyPrefix_marker`, `stripReplyPrefix_tag` — one of them, with anything behind it.
* `grouping_element` — it makes no difference; `threadGroupingSubject_idem`.
* `stripReplyPrefixChecked`, `groupingChecked` — the functions as the source has them, with every slice checked.
* `reply_keeps_branch` — all of it.
-/

namespace Oreneta.Threads

open Text ByteSlices List

/-! ## What is put in front -/

/-- A number in brackets or parentheses. -/
def Count (count : Str) : Prop :=
  ∃ digits : Str, digits ≠ [] ∧ digits.all Char.isDigit = true ∧
    (count = '[' :: (digits ++ [']']) ∨ count = '(' :: (digits ++ [')']))

/-- A listed prefix in any case, a number or none, and a colon. -/
def Marker (m : Str) : Prop :=
  ∃ spelled count : Str, ∃ colon : Char, asciiLower spelled ∈ PREFIXES ∧ (count = [] ∨ Count count) ∧
    (colon = ':' ∨ colon = '：') ∧ m = spelled ++ (count ++ [colon])

def Tag (t : Str) : Prop := ∃ inside : Str, ']' ∉ inside ∧ t = '[' :: (inside ++ [']'])

def Blank (s : Str) : Prop := ∀ c ∈ s, isWhitespace c = true

/-- `r` is `s` with markers and tags in front, and any white space around them. -/
inductive Replied (s : Str) : Str → Prop where
  | plain : Replied s s
  | element {r before e after : Str} (h : Replied s r) (he : Marker e ∨ Tag e) (hbefore : Blank before) (hafter : Blank after) :
      Replied s (before ++ (e ++ (after ++ r)))

/-! ## One marker -/

theorem prefix_chars : ∀ word ∈ PREFIXES, ∀ c ∈ word, c ∉ ['[', '(', ':', '：'] ∧ isWhitespace c = false := by decide

theorem prefix_ne_nil : ∀ word ∈ PREFIXES, 2 ≤ word.length := by decide

variable {c : Char}

/-- A character of a prefix, in any case. -/
theorem spelled_char {spelled : Str} (h : asciiLower spelled ∈ PREFIXES) (hc : c ∈ spelled) :
    c ∉ ['[', '(', ':', '：'] ∧ isWhitespace c = false := by
  have hlow := prefix_chars _ h c.toLower (mem_map_of_mem hc)
  refine ⟨fun hm => hlow.1 ?_, by rw [← isWhitespace_toLower]; exact hlow.2⟩
  have hsame : ∀ d ∈ ['[', '(', ':', '：'], d.toLower = d := by decide
  rw [hsame c hm]
  exact hm

theorem count_char {count : Str} (h : count = [] ∨ Count count) {colon : Char} (hcolon : colon = ':' ∨ colon = '：') (rest : Str) :
    ∃ c more, count ++ colon :: rest = c :: more ∧ c ∈ ['[', '(', ':', '：'] := by
  rcases h with rfl | ⟨digits, -, -, rfl | rfl⟩
  · rcases hcolon with rfl | rfl
    · exact ⟨_, _, rfl, by decide⟩
    · exact ⟨_, _, rfl, by decide⟩
  · exact ⟨_, _, rfl, by decide⟩
  · exact ⟨_, _, rfl, by decide⟩

/-- The number goes with the marker. -/
theorem stripReplyCount_count {count : Str} (h : count = [] ∨ Count count) {colon : Char} (hcolon : colon = ':' ∨ colon = '：')
    (rest : Str) : (stripReplyCount (count ++ colon :: rest)).getD (count ++ colon :: rest) = colon :: rest := by
  have hdigit : ∀ {digits : Str} (close : Char), close.isDigit = false → digits.all Char.isDigit = true → close ∉ digits := by
    intro digits close hclose hall hm
    rw [all_eq_true.mp hall close hm] at hclose
    cases hclose
  rcases h with rfl | ⟨digits, hne, hall, rfl | rfl⟩
  · rcases hcolon with rfl | rfl
    · rfl
    · rfl
  · have hsplit := splitOnce_append (colon :: rest) (hdigit ']' (by decide) hall)
    have hcons : '[' :: (digits ++ [']']) ++ colon :: rest = '[' :: (digits ++ ']' :: (colon :: rest)) := by simp
    rw [hcons]
    show ((splitOnce ']' (digits ++ ']' :: (colon :: rest))).bind _).getD _ = _
    rw [hsplit, Option.bind_some, if_pos ⟨hne, hall⟩, Option.getD_some]
  · have hsplit := splitOnce_append (colon :: rest) (hdigit ')' (by decide) hall)
    have hcons : '(' :: (digits ++ [')']) ++ colon :: rest = '(' :: (digits ++ ')' :: (colon :: rest)) := by simp
    rw [hcons]
    show ((splitOnce ')' (digits ++ ')' :: (colon :: rest))).bind _).getD _ = _
    rw [hsplit, Option.bind_some, if_pos ⟨hne, hall⟩, Option.getD_some]

/-- A text that goes on with another letter has no colon there. -/
theorem stripPrefixWord_letter {probe word : Str} {more : Str} (h : probe.drop word.length = c :: more)
    (hc : c ∉ ['[', '(', ':', '：']) : stripPrefixWord probe word = none := by
  simp only [mem_cons, not_mem_nil, or_false, not_or] at hc
  obtain ⟨h1, h2, h3, h4⟩ := hc
  have hcount : stripReplyCount (c :: more) = none := by
    unfold stripReplyCount
    split
    · rename_i he
      exact absurd (List.cons.inj he).1 h1
    · rename_i he
      exact absurd (List.cons.inj he).1 h2
    · rfl
  unfold stripPrefixWord
  split
  · dsimp only
    rw [h, hcount, Option.getD_none]
    split
    · rename_i he
      exact absurd (List.cons.inj he).1 h3
    · rename_i he
      exact absurd (List.cons.inj he).1 h4
    · rfl
  · rfl

/-- A listed prefix of a marker is the one it is spelled with, or none of the text. -/
theorem stripPrefixWord_marker {spelled count : Str} {colon : Char} (hspelled : asciiLower spelled ∈ PREFIXES)
    (hcount : count = [] ∨ Count count) (hcolon : colon = ':' ∨ colon = '：') (rest : Str) {word : Str} (hword : word ∈ PREFIXES) :
    stripPrefixWord (spelled ++ (count ++ colon :: rest)) word = if word = asciiLower spelled then some rest else none := by
  have hlen : (asciiLower spelled).length = spelled.length := length_map _
  split
  · rename_i hsame
    subst hsame
    unfold stripPrefixWord
    rw [hlen, take_left' rfl, if_pos rfl, drop_left' rfl]
    dsimp only
    rw [stripReplyCount_count hcount hcolon]
    rcases hcolon with rfl | rfl
    · rfl
    · rfl
  · rename_i hne
    by_cases hmatch : asciiLower ((spelled ++ (count ++ colon :: rest)).take word.length) = word
    · rcases lt_trichotomy word.length spelled.length with hlt | heq | hgt
      · -- the next letter of the marker stands where the colon would
        have hdrop : (spelled ++ (count ++ colon :: rest)).drop word.length =
            spelled.drop word.length ++ (count ++ colon :: rest) := drop_append_of_le_length (by omega)
        cases hd : spelled.drop word.length with
        | nil =>
          have := drop_eq_nil_iff.mp hd
          omega
        | cons c more =>
          rw [hd] at hdrop
          have hc : c ∈ spelled := mem_of_mem_drop (by rw [hd]; exact mem_cons_self)
          exact stripPrefixWord_letter hdrop (spelled_char hspelled hc).1
      · rw [take_left' heq.symm] at hmatch
        exact absurd hmatch.symm hne
      · -- a sign of the marker would be a letter of the prefix
        obtain ⟨c, more, hmore, hsign⟩ := count_char hcount hcolon rest
        rw [hmore] at hmatch
        have hc : c ∈ (spelled ++ c :: more).take word.length := by
          have hsplit : (spelled ++ c :: more).take word.length = spelled ++ (c :: more).take (word.length - spelled.length) := by
            rw [take_append, take_of_length_le (by omega)]
          rw [hsplit]
          refine mem_append_right _ ?_
          obtain ⟨k, hk⟩ : ∃ k, word.length - spelled.length = k + 1 := ⟨word.length - spelled.length - 1, by omega⟩
          rw [hk, take_succ_cons]
          exact mem_cons_self
        have hlower : asciiLower ((spelled ++ c :: more).take word.length) ∈ PREFIXES := by
          rw [hmatch]
          exact hword
        exact absurd hsign (spelled_char hlower hc).1
    · unfold stripPrefixWord
      rw [if_neg hmatch]

theorem findSome_ite {α β : Type} [DecidableEq α] {f : α → Option β} {a : α} {b : β} : ∀ {l : List α},
    (∀ x ∈ l, f x = if x = a then some b else none) → a ∈ l → l.findSome? f = some b
  | x :: l, h, ha => by
    obtain ⟨hx, h⟩ := forall_mem_cons.mp h
    rw [findSome?_cons, hx]
    by_cases he : x = a
    · rw [if_pos he]
    · rw [if_neg he]
      exact findSome_ite h ((mem_cons.mp ha).resolve_left (Ne.symm he))

theorem untagged_of_none {subject : Str} (h : stripLeadingBracketTag subject = none) : untagged subject = subject := by
  rw [untagged]
  split
  · rename_i rest hsome
    rw [h] at hsome
    cases hsome
  · rfl

theorem untagged_of_some {subject rest : Str} (h : stripLeadingBracketTag subject = some rest) :
    untagged subject = untagged (trimStart rest) := by
  rw [untagged]
  split
  · rename_i rest' hsome
    rw [h, Option.some.injEq] at hsome
    rw [hsome]
  · rename_i hnone
    rw [h] at hnone
    cases hnone

theorem trimStart_cons (h : isWhitespace c = false) (s : Str) : trimStart (c :: s) = c :: s :=
  dropWhile_cons_of_neg (by simp [h])

/-- A text that begins with a marker is one of a reply. -/
theorem stripReplyPrefix_marker {m : Str} (h : Marker m) (rest : Str) : stripReplyPrefix (m ++ rest) = some rest := by
  obtain ⟨spelled, count, colon, hspelled, hcount, hcolon, rfl⟩ := h
  have hsplit : spelled ++ (count ++ [colon]) ++ rest = spelled ++ (count ++ colon :: rest) := by simp
  obtain ⟨c, more, rfl⟩ : ∃ c more, spelled = c :: more := by
    cases spelled with
    | nil => exact absurd (prefix_ne_nil _ hspelled) (by simp [asciiLower])
    | cons c more => exact ⟨c, more, rfl⟩
  obtain ⟨hc, hspace⟩ := spelled_char hspelled (mem_cons_self (a := c) (l := more))
  have hbracket : c ≠ '[' := by
    rintro rfl
    exact hc (by decide)
  have htag : stripLeadingBracketTag (c :: more ++ (count ++ colon :: rest)) = none := by
    unfold stripLeadingBracketTag
    rw [cons_append, trimStart_cons hspace]
    split
    · rename_i he
      exact absurd (List.cons.inj he).1 hbracket
    · rfl
  have htrim : trimStart (c :: more ++ (count ++ colon :: rest)) = c :: more ++ (count ++ colon :: rest) :=
    trimStart_cons hspace _
  rw [hsplit, stripReplyPrefix, htrim, untagged_of_none htag]
  exact findSome_ite (fun word hword => stripPrefixWord_marker hspelled hcount hcolon rest hword) hspelled

theorem stripLeadingBracketTag_tag {t : Str} (h : Tag t) (rest : Str) : stripLeadingBracketTag (t ++ rest) = some rest := by
  obtain ⟨inside, hinside, rfl⟩ := h
  have hsplit : '[' :: (inside ++ [']']) ++ rest = '[' :: (inside ++ ']' :: rest) := by simp
  unfold stripLeadingBracketTag
  rw [hsplit, trimStart_cons (by decide)]
  show (splitOnce ']' (inside ++ ']' :: rest)).map Prod.snd = some rest
  rw [splitOnce_append rest hinside]
  rfl

/-- A tag is passed over in the search for a marker. -/
theorem stripReplyPrefix_tag {t : Str} (h : Tag t) (rest : Str) : stripReplyPrefix (t ++ rest) = stripReplyPrefix rest := by
  have hstart : trimStart (t ++ rest) = t ++ rest := by
    obtain ⟨inside, -, rfl⟩ := h
    exact trimStart_cons (by decide) _
  unfold stripReplyPrefix
  rw [hstart, untagged_of_some (stripLeadingBracketTag_tag h rest)]

/-! ## All of them -/

variable {s : Str}

theorem groupingFrom_reply {rest : Str} (h : stripReplyPrefix s = some rest) : groupingFrom s = groupingFrom (trim rest) := by
  rw [groupingFrom]
  split
  · rename_i rest' hsome
    rw [h, Option.some.injEq] at hsome
    rw [hsome]
  · rename_i hnone
    rw [h] at hnone
    cases hnone

theorem groupingFrom_tag {rest : Str} (hreply : stripReplyPrefix s = none) (h : stripLeadingBracketTag s = some rest) :
    groupingFrom s = groupingFrom (trim rest) := by
  rw [groupingFrom]
  split
  · rename_i hsome
    rw [hreply] at hsome
    cases hsome
  · split
    · rename_i rest' hsome
      rw [h, Option.some.injEq] at hsome
      rw [hsome]
    · rename_i hnone
      rw [h] at hnone
      cases hnone

theorem groupingFrom_done (hreply : stripReplyPrefix s = none) (h : stripLeadingBracketTag s = none) : groupingFrom s = s := by
  rw [groupingFrom]
  split
  · rename_i hsome
    rw [hreply] at hsome
    cases hsome
  · split
    · rename_i hsome
      rw [h] at hsome
      cases hsome
    · rfl

/-- An element begins and ends with a sign of its own. -/
theorem element_ends {e : Str} (h : Marker e ∨ Tag e) : ∃ c inside d, e = c :: (inside ++ [d]) ∧ isWhitespace c = false ∧
    isWhitespace d = false := by
  rcases h with ⟨spelled, count, colon, hspelled, -, hcolon, rfl⟩ | ⟨inside, -, rfl⟩
  · cases spelled with
    | nil => exact absurd (prefix_ne_nil _ hspelled) (by simp [asciiLower])
    | cons c more =>
      refine ⟨c, more ++ count, colon, by simp, (spelled_char hspelled mem_cons_self).2, ?_⟩
      rcases hcolon with rfl | rfl
      · decide
      · decide
  · exact ⟨'[', inside, ']', rfl, by decide, by decide⟩

theorem trim_element {e before : Str} (h : Marker e ∨ Tag e) (hbefore : Blank before) (t : Str) :
    trim (before ++ (e ++ t)) = e ++ trimEnd t := by
  obtain ⟨c, inside, d, rfl, hc, hd⟩ := element_ends h
  have hsplit : c :: (inside ++ [d]) ++ t = c :: (inside ++ d :: t) := by simp
  rw [trim_eq_trimBy, trimBy_blank_append hbefore, hsplit, trimBy_keeps hc hd]
  simp [trimEnd]

theorem trim_trimEnd (t : Str) : trim (trimEnd t) = trim t := by
  obtain ⟨after, hafter, hblank⟩ := rdropWhile_split isWhitespace t
  have h := trimBy_append_of_blank hblank (trimEnd t)
  have hself : trimEnd t ++ after = t := hafter.symm
  rw [hself] at h
  exact h.symm

/-- White space around a subject is no part of it. -/
theorem stripReplyPrefix_trim (t : Str) : stripReplyPrefix (trim (trimEnd t)) = stripReplyPrefix (trimEnd t) := by
  have htrim : trimStart (trim (trimEnd t)) = trimStart (trimEnd t) := by
    have hend : trim (trimEnd t) = trimStart (trimEnd t) := by
      unfold trim trimEnd
      rw [rdropWhile_eq_self_iff]
      intro hne
      have hlast : (trimStart (t.rdropWhile isWhitespace)).getLast hne = (t.rdropWhile isWhitespace).getLast
          (ne_nil_of_mem ((dropWhile_suffix isWhitespace).subset (getLast_mem hne))) :=
        List.IsSuffix.getLast (dropWhile_suffix isWhitespace) hne
      rw [hlast]
      exact rdropWhile_last_not isWhitespace t _
    rw [hend]
    exact dropWhile_idempotent isWhitespace _
  unfold stripReplyPrefix
  rw [htrim]

/-- **An element in front of a subject makes no difference.** -/
theorem grouping_element {e before after r : Str} (h : Marker e ∨ Tag e) (hbefore : Blank before) (hafter : Blank after) :
    threadGroupingSubject (before ++ (e ++ (after ++ r))) = threadGroupingSubject r := by
  have hrest : groupingFrom (trim (trimEnd (after ++ r))) = threadGroupingSubject r := by
    rw [trim_trimEnd, trim_eq_trimBy, trimBy_blank_append hafter]
    rfl
  unfold threadGroupingSubject at hrest ⊢
  rw [trim_element h hbefore, ← hrest]
  rcases h with hmarker | htag
  · exact groupingFrom_reply (stripReplyPrefix_marker hmarker _)
  · have hpass := stripReplyPrefix_tag htag (trimEnd (after ++ r))
    cases hreply : stripReplyPrefix (trimEnd (after ++ r)) with
    | some rest =>
      have htrimmed := stripReplyPrefix_trim (after ++ r)
      rw [groupingFrom_reply (hpass.trans hreply), groupingFrom_reply (htrimmed.trans hreply)]
    | none => exact groupingFrom_tag (hpass.trans hreply) (stripLeadingBracketTag_tag htag _)

theorem grouping_replied {r : Str} (h : Replied s r) : threadGroupingSubject r = threadGroupingSubject s := by
  induction h with
  | plain => rfl
  | element _ he hbefore hafter ih => rw [grouping_element he hbefore hafter, ih]

/-- What is left has no white space around it, no marker and no tag. -/
theorem groupingFrom_final (s : Str) (h : trim s = s) : trim (groupingFrom s) = groupingFrom s ∧
    stripReplyPrefix (groupingFrom s) = none ∧ stripLeadingBracketTag (groupingFrom s) = none := by
  induction s using groupingFrom.induct with
  | case1 s rest hreply ih =>
    rw [groupingFrom_reply hreply]
    exact ih (trim_trim rest)
  | case2 s hreply rest htag ih =>
    rw [groupingFrom_tag hreply htag]
    exact ih (trim_trim rest)
  | case3 s hreply htag =>
    rw [groupingFrom_done hreply htag]
    exact ⟨h, hreply, htag⟩

/-- A subject with nothing in front of it. -/
theorem grouping_plain (htrim : trim s = s) (htag : stripLeadingBracketTag s = none)
    (hstart : stripLeadingBracketTag (trimStart s) = none) (hwords : PREFIXES.findSome? (stripPrefixWord (trimStart s)) = none) :
    threadGroupingSubject s = s := by
  have hreply : stripReplyPrefix s = none := by rw [stripReplyPrefix, untagged_of_none hstart, hwords]
  rw [threadGroupingSubject, htrim, groupingFrom_done hreply htag]

theorem threadGroupingSubject_idem (s : Str) : threadGroupingSubject (threadGroupingSubject s) = threadGroupingSubject s := by
  obtain ⟨htrim, hreply, htag⟩ := groupingFrom_final (trim s) (trim_trim s)
  show groupingFrom (trim (groupingFrom (trim s))) = groupingFrom (trim s)
  rw [htrim, groupingFrom_done hreply htag]

/-! ## The slices -/

/-- The place of the first byte of a kind (`position`, `find`). -/
def findByte (c : Char) (s : Str) : Option Nat := (splitOnce c s).map (fun p => byteLength p.1)

/-- `strip_leading_bracket_tag`; nothing where a slice falls inside a character. -/
def stripLeadingBracketTagChecked (subject : Str) : Option (Option Str) :=
  let trimmed := trimStart subject
  if trimmed.head? ≠ some '[' then some none
  else
    match findByte ']' trimmed with
    | none => some none
    | some end_ => (sliceFrom trimmed (end_ + 1)).map some

/-- `strip_reply_count`. -/
def stripReplyCountChecked (rest : Str) : Option (Option Str) :=
  match rest with
  | [] => some none
  | c :: _ =>
    if c ≠ '[' ∧ c ≠ '(' then some none
    else
      let close := if c = '[' then ']' else ')'
      match findByte close rest with
      | none => some none
      | some end_ =>
        if end_ ≤ 1 then some none
        else
          (slice rest 1 end_).bind (fun digits =>
            if digits.all Char.isDigit then (sliceFrom rest (end_ + 1)).map some else some none)

/-- One round of the loop over the prefixes. -/
def stripPrefixWordChecked (probe word : Str) : Option (Option Str) :=
  if (cut probe (byteLength word)).isNone then some none
  else
    (sliceTo probe (byteLength word)).bind (fun front =>
      if asciiLower front ≠ word then some none
      else
        (sliceFrom probe (byteLength word)).bind (fun rest =>
          (stripReplyCountChecked rest).map (fun counted =>
            match counted.getD rest with
            | ':' :: rest => some rest
            | '：' :: rest => some rest
            | _ => none)))

theorem findByte_some {n : Nat} (h : findByte c s = some n) :
    ∃ before after, splitOnce c s = some (before, after) ∧ s = before ++ c :: after ∧ byteLength before = n := by
  obtain ⟨⟨before, after⟩, hsplit, hn⟩ := Option.map_eq_some_iff.mp h
  exact ⟨before, after, hsplit, (splitOnce_some hsplit).1, hn⟩

/-- The slice behind a sign of one byte. -/
theorem sliceFrom_behind (hc : c.utf8Size = 1) (before after : Str) :
    sliceFrom (before ++ c :: after) (byteLength before + 1) = some after := by
  have hlen : byteLength (before ++ [c]) = byteLength before + 1 := by
    rw [byteLength_append, byteLength_cons, hc]
    rfl
  have h := sliceFrom_append (before ++ [c]) after
  rwa [hlen, append_assoc, singleton_append] at h

theorem stripLeadingBracketTagChecked_eq (subject : Str) :
    stripLeadingBracketTagChecked subject = some (stripLeadingBracketTag subject) := by
  unfold stripLeadingBracketTagChecked stripLeadingBracketTag
  dsimp only
  cases htrim : trimStart subject with
  | nil => rfl
  | cons c rest =>
    by_cases hc : c = '['
    · subst hc
      rw [if_neg fun h => h rfl]
      cases hfind : findByte ']' ('[' :: rest) with
      | none =>
        have hsplit : splitOnce ']' ('[' :: rest) = none := Option.map_eq_none_iff.mp hfind
        rw [splitOnce_cons_of_ne (by decide), Option.map_eq_none_iff] at hsplit
        show some none = some ((splitOnce ']' rest).map Prod.snd)
        rw [hsplit]
        rfl
      | some n =>
        obtain ⟨before, after, hsplit, hs, rfl⟩ := findByte_some hfind
        rw [splitOnce_cons_of_ne (by decide)] at hsplit
        obtain ⟨p, hp, he⟩ := Option.map_eq_some_iff.mp hsplit
        show (sliceFrom ('[' :: rest) (byteLength before + 1)).map some = some ((splitOnce ']' rest).map Prod.snd)
        rw [hs, sliceFrom_behind (by decide), hp, Option.map_some, Option.map_some, ← (Prod.mk.inj he).2]
    · have hhead : (c :: rest).head? ≠ some '[' := fun h => hc (Option.some.inj h)
      rw [if_pos hhead]
      split
      · rename_i he
        exact absurd (List.cons.inj he).1 hc
      · rfl

theorem stripReplyCountChecked_eq (rest : Str) : stripReplyCountChecked rest = some (stripReplyCount rest) := by
  have hcounted : ∀ {c close : Char} (inside : Str), c.utf8Size = 1 → close.utf8Size = 1 → c ≠ close →
      (match findByte close (c :: inside) with
      | none => some none
      | some end_ =>
        if end_ ≤ 1 then some none
        else
          (slice (c :: inside) 1 end_).bind (fun digits =>
            if digits.all Char.isDigit then (sliceFrom (c :: inside) (end_ + 1)).map some else some none)) =
      some ((splitOnce close inside).bind fun p => if p.1 ≠ [] ∧ p.1.all Char.isDigit = true then some p.2 else none) := by
    intro c close inside hc hclose hne
    cases hfind : findByte close (c :: inside) with
    | none =>
      have hsplit : splitOnce close (c :: inside) = none := Option.map_eq_none_iff.mp hfind
      rw [splitOnce_cons_of_ne hne, Option.map_eq_none_iff] at hsplit
      rw [hsplit]
      rfl
    | some n =>
      obtain ⟨before, after, hsplit, hs, rfl⟩ := findByte_some hfind
      dsimp only
      rw [splitOnce_cons_of_ne hne] at hsplit
      obtain ⟨⟨digits, after'⟩, hp, he⟩ := Option.map_eq_some_iff.mp hsplit
      obtain ⟨rfl, rfl⟩ := Prod.mk.inj he
      have hlen : byteLength (c :: digits) = 1 + byteLength digits := by rw [byteLength_cons, hc]
      rw [hp, Option.bind_some]
      dsimp only
      by_cases hempty : digits = []
      · subst hempty
        rw [if_pos (by rw [hlen]; decide), if_neg fun h => h.1 rfl]
      · have hpos : 0 < byteLength digits := by
          cases digits with
          | nil => exact absurd rfl hempty
          | cons d more =>
            have := d.utf8Size_pos
            rw [byteLength_cons]
            omega
        have hslice : slice (c :: inside) 1 (byteLength (c :: digits)) = some digits := by
          have h := slice_append [c] digits (close :: after')
          have hone : byteLength [c] = 1 := by
            rw [byteLength_cons, hc]
            rfl
          rw [hone] at h
          rw [hs]
          exact h
        rw [if_neg (by rw [hlen]; omega), hslice, Option.bind_some]
        by_cases hall : digits.all Char.isDigit = true
        · rw [if_pos hall, if_pos ⟨hempty, hall⟩, hs, sliceFrom_behind hclose]
          rfl
        · rw [if_neg hall, if_neg fun h => hall h.2]
  unfold stripReplyCountChecked
  cases rest with
  | nil => rfl
  | cons c inside =>
    by_cases h1 : c = '['
    · subst h1
      exact hcounted inside (by decide) (by decide) (by decide)
    · by_cases h2 : c = '('
      · subst h2
        exact hcounted inside (by decide) (by decide) (by decide)
      · dsimp only
        rw [if_pos ⟨h1, h2⟩]
        unfold stripReplyCount
        split
        · rename_i he
          exact absurd (List.cons.inj he).1 h1
        · rename_i he
          exact absurd (List.cons.inj he).1 h2
        · rfl

/-- A letter of any case is one byte. -/
theorem utf8Size_toLower (c : Char) : c.toLower.utf8Size = c.utf8Size := by
  delta Char.toLower
  split
  · rename_i h
    have hlo : 65 ≤ c.val.toNat := h.1
    have hhi : c.val.toNat ≤ 90 := h.2
    have hshift : ('a'.val - 'A'.val).toNat = 32 := by decide
    have hlow : ∀ d : Char, d.val.toNat ≤ 127 → d.utf8Size = 1 := fun d hd =>
      Char.utf8Size_eq_one_iff.mpr (UInt32.le_iff_toNat_le.mpr hd)
    rw [hlow c (by omega)]
    refine hlow _ ?_
    rw [UInt32.toNat_add]
    omega
  · rfl

theorem byteLength_asciiLower (s : Str) : byteLength (asciiLower s) = byteLength s := by
  unfold byteLength asciiLower
  rw [map_map]
  exact congrArg List.sum (map_congr_left fun c _ => utf8Size_toLower c)

theorem stripPrefixWordChecked_eq (probe word : Str) : stripPrefixWordChecked probe word = some (stripPrefixWord probe word) := by
  have hcut : asciiLower (probe.take word.length) = word →
      cut probe (byteLength word) = some (probe.take word.length, probe.drop word.length) := by
    intro hword
    have hlen : byteLength word = byteLength (probe.take word.length) := by
      rw [← byteLength_asciiLower (probe.take word.length), hword]
    have h := cut_append (probe.take word.length) (probe.drop word.length)
    rwa [take_append_drop, ← hlen] at h
  unfold stripPrefixWordChecked
  cases hplace : cut probe (byteLength word) with
  | none =>
    have hno : stripPrefixWord probe word = none := by
      refine if_neg fun hword => ?_
      rw [hcut hword] at hplace
      cases hplace
    rw [hno]
    rfl
  | some p =>
    obtain ⟨front, rest⟩ := p
    obtain ⟨rfl, -⟩ := cut_some hplace
    have hfront : sliceTo (front ++ rest) (byteLength word) = some front := by rw [sliceTo, hplace, Option.map_some]
    have hrest : sliceFrom (front ++ rest) (byteLength word) = some rest := by rw [sliceFrom, hplace, Option.map_some]
    rw [if_neg (by simp), hfront, Option.bind_some]
    by_cases hword : asciiLower front = word
    · have hlen : word.length = front.length := by rw [← hword, asciiLower, length_map]
      rw [if_neg fun h => h hword, hrest, Option.bind_some, stripReplyCountChecked_eq, Option.map_some]
      unfold stripPrefixWord
      rewrite [hlen, take_left' rfl, drop_left' rfl, if_pos hword]
      rfl
    · rw [if_pos hword]
      refine congrArg some (Eq.symm (if_neg fun htake => hword ?_))
      have hsame := (Option.some.inj (hplace.symm.trans (hcut htake)))
      rw [(Prod.mk.inj hsame).1]
      exact htake

/-- The first loop of `strip_reply_prefix`. -/
def untaggedChecked (probe : Str) : Option Str :=
  match _h : stripLeadingBracketTagChecked probe with
  | none => none
  | some none => some probe
  | some (some rest) => untaggedChecked (trimStart rest)
termination_by probe.length
decreasing_by
  rw [stripLeadingBracketTagChecked_eq, Option.some.injEq] at _h
  have hlt := stripLeadingBracketTag_length _h
  have hle := length_trimStart_le rest
  omega

def firstPrefixChecked (probe : Str) : List Str → Option (Option Str)
  | [] => some none
  | word :: words =>
    match stripPrefixWordChecked probe word with
    | none => none
    | some none => firstPrefixChecked probe words
    | some (some rest) => some (some rest)

/-- `strip_reply_prefix`, with every slice checked. -/
def stripReplyPrefixChecked (subject : Str) : Option (Option Str) :=
  (untaggedChecked (trimStart subject)).bind (fun probe => firstPrefixChecked probe PREFIXES)

theorem untaggedChecked_eq (probe : Str) : untaggedChecked probe = some (untagged probe) := by
  induction probe using untagged.induct with
  | case1 probe rest hsome ih =>
    rw [untagged_of_some hsome, ← ih, untaggedChecked]
    split
    · rename_i h
      rw [stripLeadingBracketTagChecked_eq] at h
      cases h
    · rename_i h
      rw [stripLeadingBracketTagChecked_eq, hsome] at h
      cases h
    · rename_i h
      rw [stripLeadingBracketTagChecked_eq, hsome, Option.some.injEq, Option.some.injEq] at h
      rw [h]
  | case2 probe hnone =>
    rw [untagged_of_none hnone, untaggedChecked]
    split
    · rename_i h
      rw [stripLeadingBracketTagChecked_eq] at h
      cases h
    · rfl
    · rename_i h
      rw [stripLeadingBracketTagChecked_eq, hnone] at h
      cases h

theorem firstPrefixChecked_eq (probe : Str) : ∀ words : List Str,
    firstPrefixChecked probe words = some (words.findSome? (stripPrefixWord probe))
  | [] => rfl
  | word :: words => by
    rw [firstPrefixChecked, stripPrefixWordChecked_eq, findSome?_cons]
    cases stripPrefixWord probe word with
    | none => exact firstPrefixChecked_eq probe words
    | some rest => rfl

theorem stripReplyPrefixChecked_eq (subject : Str) : stripReplyPrefixChecked subject = some (stripReplyPrefix subject) := by
  rw [stripReplyPrefixChecked, untaggedChecked_eq, Option.bind_some, firstPrefixChecked_eq]
  rfl

/-- The loop of `thread_grouping_subject`, with every slice checked. -/
def groupingChecked (subject : Str) : Option Str :=
  match _h : stripReplyPrefixChecked subject with
  | none => none
  | some (some rest) => groupingChecked (trim rest)
  | some none =>
    match _h : stripLeadingBracketTagChecked subject with
    | none => none
    | some (some rest) => groupingChecked (trim rest)
    | some none => some subject
termination_by subject.length
decreasing_by
  · rw [stripReplyPrefixChecked_eq, Option.some.injEq] at _h
    have hlt := stripReplyPrefix_length _h
    have hle := length_trim_le rest
    omega
  · rw [stripLeadingBracketTagChecked_eq, Option.some.injEq] at _h
    have hlt := stripLeadingBracketTag_length _h
    have hle := length_trim_le rest
    omega

theorem groupingChecked_eq (subject : Str) : groupingChecked subject = some (groupingFrom subject) := by
  induction subject using groupingFrom.induct with
  | case1 subject rest hreply ih =>
    rw [groupingFrom_reply hreply, ← ih, groupingChecked]
    split
    · rename_i h
      rw [stripReplyPrefixChecked_eq] at h
      cases h
    · rename_i h
      rw [stripReplyPrefixChecked_eq, hreply, Option.some.injEq, Option.some.injEq] at h
      rw [h]
    · rename_i h
      rw [stripReplyPrefixChecked_eq, hreply] at h
      cases h
  | case2 subject hreply rest htag ih =>
    rw [groupingFrom_tag hreply htag, ← ih, groupingChecked]
    split
    · rename_i h
      rw [stripReplyPrefixChecked_eq] at h
      cases h
    · rename_i h
      rw [stripReplyPrefixChecked_eq, hreply] at h
      cases h
    · split
      · rename_i h
        rw [stripLeadingBracketTagChecked_eq] at h
        cases h
      · rename_i h
        rw [stripLeadingBracketTagChecked_eq, htag, Option.some.injEq, Option.some.injEq] at h
        rw [h]
      · rename_i h
        rw [stripLeadingBracketTagChecked_eq, htag] at h
        cases h
  | case3 subject hreply htag =>
    rw [groupingFrom_done hreply htag, groupingChecked]
    split
    · rename_i h
      rw [stripReplyPrefixChecked_eq] at h
      cases h
    · rename_i h
      rw [stripReplyPrefixChecked_eq, hreply] at h
      cases h
    · split
      · rename_i h
        rw [stripLeadingBracketTagChecked_eq] at h
        cases h
      · rename_i h
        rw [stripLeadingBracketTagChecked_eq, htag] at h
        cases h
      · rfl

/-! ## A reply stays in its branch -/

/-- **A reply never starts a new branch.** Whatever markers and tags stand in front of a subject, it is grouped as the
subject alone; what a subject is grouped as is grouped as itself; and the program reads every text without cutting a
character in two. -/
theorem reply_keeps_branch (s : Str) : (∀ r, Replied s r → threadGroupingSubject r = threadGroupingSubject s) ∧
    threadGroupingSubject (threadGroupingSubject s) = threadGroupingSubject s ∧
    groupingChecked (trim s) = some (threadGroupingSubject s) :=
  ⟨fun _ h => grouping_replied h, threadGroupingSubject_idem s, groupingChecked_eq (trim s)⟩

/-- A counted answer to a mail of a list. -/
theorem reply_keeps_branch_plan : threadGroupingSubject "[list] Re[2]： plan".toList = threadGroupingSubject "plan".toList := by
  have hspace : Blank [' '] := by
    intro c hc
    rw [mem_singleton.mp hc]
    decide
  have hnone : Blank [] := fun c hc => absurd hc not_mem_nil
  have hmarker : Marker "Re[2]：".toList :=
    ⟨"Re".toList, "[2]".toList, '：', by decide, .inr ⟨['2'], by decide, by decide, .inl (by decide)⟩, .inr rfl, by decide⟩
  have htag : Tag "[list]".toList := ⟨"list".toList, by decide, by decide⟩
  have hplain : Replied "plan".toList "plan".toList := .plain
  have hreplied := Replied.element (.element hplain (.inl hmarker) hnone hspace) (.inr htag) hnone hspace
  have hshape : "[list] Re[2]： plan".toList =
      [] ++ ("[list]".toList ++ ([' '] ++ ([] ++ ("Re[2]：".toList ++ ([' '] ++ "plan".toList))))) := by decide
  rw [hshape]
  exact (reply_keeps_branch "plan".toList).1 _ hreplied

end Oreneta.Threads

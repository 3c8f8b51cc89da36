import Oreneta.Contacts.Reading
import Oreneta.Contacts.Writing

/-!
# A new card is read back

* `cardProperties` — the properties of a new card; `splitCards_newCard` — its octets are read as that one card.
* `typeLabel` — what is left of a label; `firstOfEach` — addresses that are the same are one.
* `newCard_read` — the person that is read of a new card.
-/

namespace Oreneta.Contacts

open Text Write List

/-! ## The properties -/

def plainProperty (name value : Str) : Property := ⟨[], name, [], withoutCr value, escape value⟩

def labelledProperty (name label value : Str) : Property :=
  ⟨[], name, if isType (trim label) then [("TYPE", asciiLower (trim label))] else [], withoutCr (trim value),
    escape (trim value)⟩

def nRaw (person : Person) : Str :=
  if person.given = [] ∧ person.family = [] then ';' :: (escape person.name ++ ";;;")
  else escape person.family ++ ';' :: (escape person.given ++ ";;;")

/-- What stands between `BEGIN` and `END`. -/
def cardProperties (person : Person) (uid : Str) : List Property :=
  [⟨[], "VERSION", [], "3.0", "3.0"⟩, plainProperty "UID" uid,
      plainProperty "FN" person.name, ⟨[], "N", [], unescape (nRaw person), nRaw person⟩] ++
    (if person.organisation = [] then [] else [plainProperty "ORG" person.organisation]) ++
    person.emails.map (fun email => labelledProperty "EMAIL" email.label email.addr) ++
    person.phones.map (fun phone => labelledProperty "TEL" phone.label phone.number) ++
    (if person.note = [] then [] else [plainProperty "NOTE" person.note])

variable {name : Str}

theorem parseLine_escaped (C : Capitals) (h : isWord name = true) (value : Str) :
    parseLine C.upper (name ++ ':' :: escape value) = some (plainProperty name value) := by
  rw [parseLine_plain C h, unescape_escape]
  rfl

theorem label_alphanum {label : Str} (h : isType label = true) : ∀ c ∈ asciiLower label, c.isAlphanum = true ∨ c = '-' := by
  unfold isType at h
  rw [Bool.and_eq_true, all_eq_true] at h
  intro c hc
  obtain ⟨d, hd, rfl⟩ := mem_map.mp hc
  have hd := h.2 d hd
  rcases Casing.toLower_cases d with he | ⟨-, hal, -, -⟩
  · rw [he]
    simpa using hd
  · exact .inl (by rw [Char.isAlphanum, hal, Bool.true_or])

theorem parseLine_labelled (C : Capitals) (h : isWord name = true) (label value : Str) :
    parseLine C.upper (labelled name label value) = some (labelledProperty name label value) := by
  unfold labelled labelledProperty
  by_cases htype : isType (trim label) = true
  · rw [if_pos htype, if_pos htype, parseLine_typed C h (label_alphanum htype), unescape_escape]
  · rw [if_neg htype, if_neg htype, parseLine_plain C h, unescape_escape]

theorem parseLine_n (C : Capitals) (person : Person) :
    parseLine C.upper (nLine person) = some ⟨[], "N", [], unescape (nRaw person), nRaw person⟩ := by
  have hn : "N:" = "N" ++ [':'] := by decide
  have hn' : "N:;" = "N" ++ [':', ';'] := by decide
  have hline : nLine person = "N" ++ ':' :: nRaw person := by
    unfold nLine nRaw nameLine
    split
    · rw [hn']
      simp
    · rw [hn]
      simp
  rw [hline, parseLine_plain C (by decide)]

/-- The lines of a new card are read as its properties. -/
theorem parse_newCardLines (C : Capitals) (person : Person) (uid : Str) :
    (newCardLines person uid).filterMap (parseLine C.upper) =
      [⟨[], "BEGIN", [], "VCARD", "VCARD"⟩] ++ cardProperties person uid ++ [⟨[], "END", [], "VCARD", "VCARD"⟩] := by
  have hbegin : parseLine C.upper "BEGIN:VCARD" = some ⟨[], "BEGIN", [], "VCARD", "VCARD"⟩ := by
    rw [show "BEGIN:VCARD" = "BEGIN" ++ ':' :: "VCARD" by decide, parseLine_plain C (by decide)]
    decide
  have hend : parseLine C.upper "END:VCARD" = some ⟨[], "END", [], "VCARD", "VCARD"⟩ := by
    rw [show "END:VCARD" = "END" ++ ':' :: "VCARD" by decide, parseLine_plain C (by decide)]
    decide
  have hversion : parseLine C.upper "VERSION:3.0" = some ⟨[], "VERSION", [], "3.0", "3.0"⟩ := by
    rw [show "VERSION:3.0" = "VERSION" ++ ':' :: "3.0" by decide, parseLine_plain C (by decide)]
    decide
  have hvalue : ∀ (name : Str) (line : Str), isWord name = true → line = name ++ [':'] → ∀ value,
      parseLine C.upper (line ++ escape value) = some (plainProperty name value) := by
    intro name line hword hline value
    rw [hline, append_assoc]
    exact parseLine_escaped C hword value
  have huid := hvalue "UID" "UID:" (by decide) (by decide) uid
  have hfn := hvalue "FN" "FN:" (by decide) (by decide) person.name
  have horg := hvalue "ORG" "ORG:" (by decide) (by decide) person.organisation
  have hnote := hvalue "NOTE" "NOTE:" (by decide) (by decide) person.note
  have hmap : ∀ {α : Type} (l : List α) (line : α → Str) (property : α → Property),
      (∀ a, parseLine C.upper (line a) = some (property a)) →
      (l.map line).filterMap (parseLine C.upper) = l.map property := by
    intro α l line property h
    rw [filterMap_map]
    have hfun : (parseLine C.upper ∘ line) = fun a => some (property a) := funext h
    rw [hfun]
    exact congrFun filterMap_eq_map' l
  have hif : ∀ (p : Prop) [Decidable p] (line : Str) (property : Property), parseLine C.upper line = some property →
      (if p then [] else [line]).filterMap (parseLine C.upper) = if p then [] else [property] := by
    intro p _ line property h
    split
    · rfl
    · rw [filterMap_cons, h, filterMap_nil]
  unfold newCardLines cardProperties
  rw [filterMap_append, filterMap_append, filterMap_append, filterMap_append, filterMap_append,
    hif _ _ _ horg, hif _ _ _ hnote,
    hmap person.emails _ _ fun email => parseLine_labelled C (by decide) email.label email.addr,
    hmap person.phones _ _ fun phone => parseLine_labelled C (by decide) phone.label phone.number]
  simp only [filterMap_cons, filterMap_nil, hbegin, hversion, huid, hfn, parseLine_n, hend, append_assoc,
    cons_append, nil_append]

/-! ## The card -/

/-- A line with a first character, not a blank, and no line feed. -/
def Solid (line : Str) : Prop := '\n' ∉ line ∧ ∃ c rest, line = c :: rest ∧ c ≠ ' ' ∧ c ≠ '\t'

theorem clean_of_solid {lines : List Str} (h : ∀ line ∈ lines, Solid line) : ContentLines.Clean lines where
  solid line hline := by
    obtain ⟨hn, c, rest, rfl, -, -⟩ := h line hline
    exact ⟨cons_ne_nil _ _, hn⟩
  starts line hline := by
    obtain ⟨-, c, rest, rfl, hspace, htab⟩ := h line (mem_of_mem_tail hline)
    exact ContentLines.continuation_eq_none.mpr fun hb => hb.elim hspace htab

theorem solid_word (h : isWord name = true) {tail : Str} (htail : '\n' ∉ tail) : Solid (name ++ tail) := by
  refine ⟨fun hm => ?_, ?_⟩
  · rcases mem_append.mp hm with hm | hm
    · exact notMem_word h (by decide) hm
    · exact htail hm
  · cases name with
    | nil => exact absurd rfl (word_ne_nil h)
    | cons c rest =>
      have hr := word_range h (mem_cons_self (a := c) (l := rest))
      refine ⟨c, rest ++ tail, rfl, ?_, ?_⟩
      · rintro rfl
        exact absurd hr (by decide)
      · rintro rfl
        exact absurd hr (by decide)

theorem solid_labelled (h : isWord name = true) (label value : Str) : Solid (labelled name label value) := by
  have hvalue : '\n' ∉ ':' :: escape (trim value) := by
    rw [mem_cons]
    rintro (hm | hm)
    · cases hm
    · exact (notMem_escape _).1 hm
  unfold labelled
  split
  · rename_i htype
    rw [append_assoc, append_assoc]
    apply solid_word h
    rw [mem_append, mem_append]
    rintro (hm | hm | hm)
    · exact absurd hm (by decide)
    · exact absurd (label_range (label_alphanum htype _ hm)) (by decide)
    · exact hvalue hm
  · exact solid_word h hvalue

theorem solid_newCardLines (person : Person) (uid : Str) : ∀ line ∈ newCardLines person uid, Solid line := by
  have hescaped : ∀ (name line : Str) (value : Str), isWord name = true → line = name ++ [':'] → Solid (line ++ escape value) := by
    intro name line value hword hline
    rw [hline, append_assoc]
    apply solid_word hword
    rw [mem_append, mem_singleton]
    rintro (hm | hm)
    · cases hm
    · exact (notMem_escape value).1 hm
  have hplain : ∀ name tail : Str, isWord name = true → (tail.all fun c => c ≠ '\n') = true → Solid (name ++ tail) := by
    intro name tail hword htail
    refine solid_word hword fun hm => ?_
    exact absurd (all_eq_true.mp htail _ hm) (by decide)
  have hn : Solid (nLine person) := by
    have hn1 : "N:" = "N" ++ [':'] := by decide
    have hn2 : "N:;" = "N" ++ [':', ';'] := by decide
    have hsemis : '\n' ∉ ";;;".toList := by decide
    have h1 := (notMem_escape person.name).1
    have h2 := (notMem_escape person.family).1
    have h3 := (notMem_escape person.given).1
    unfold nLine nameLine
    split
    · rw [hn2, append_assoc, append_assoc]
      apply solid_word (by decide)
      simp only [mem_append, mem_cons, not_mem_nil, or_false]
      rintro ((hm | hm) | hm | hm)
      · cases hm
      · cases hm
      · exact h1 hm
      · exact hsemis hm
    · rw [hn1, append_assoc, append_assoc, append_assoc]
      apply solid_word (by decide)
      simp only [mem_append, mem_cons, not_mem_nil, or_false]
      rintro (hm | hm | (hm | hm) | hm)
      · cases hm
      · exact h2 hm
      · cases hm
      · exact h3 hm
      · exact hsemis hm
  intro line hline
  unfold newCardLines at hline
  simp only [mem_append, mem_cons, not_mem_nil, or_false, mem_map] at hline
  rcases hline with (((((rfl | rfl | rfl | rfl | rfl) | hline) | ⟨email, -, rfl⟩) | ⟨phone, -, rfl⟩) | hline) | rfl
  · exact hplain "BEGIN" ":VCARD" (by decide) (by decide)
  · exact hplain "VERSION" ":3.0" (by decide) (by decide)
  · exact hescaped "UID" _ uid (by decide) (by decide)
  · exact hescaped "FN" _ person.name (by decide) (by decide)
  · exact hn
  · split at hline
    · cases hline
    · rw [mem_singleton.mp hline]
      exact hescaped "ORG" _ person.organisation (by decide) (by decide)
  · exact solid_labelled (by decide) _ _
  · exact solid_labelled (by decide) _ _
  · split at hline
    · cases hline
    · rw [mem_singleton.mp hline]
      exact hescaped "NOTE" _ person.note (by decide) (by decide)
  · exact hplain "END" ":VCARD" (by decide) (by decide)

/-- The names a card's properties can have between its bounds. -/
def cardNames : List Str :=
  ["VERSION", "UID", "FN", "N", "ORG", "EMAIL", "TEL", "NOTE"]

theorem name_mem_cardNames {person : Person} {uid : Str} {p : Property} (h : p ∈ cardProperties person uid) :
    p.name ∈ cardNames := by
  unfold cardProperties at h
  simp only [mem_append, mem_cons, not_mem_nil, or_false, mem_map] at h
  rcases h with ((((rfl | rfl | rfl | rfl) | h) | ⟨email, -, rfl⟩) | ⟨phone, -, rfl⟩) | h
  · exact mem_cons_self
  · exact mem_of_getElem? (show cardNames[1]? = _ from rfl)
  · exact mem_of_getElem? (show cardNames[2]? = _ from rfl)
  · exact mem_of_getElem? (show cardNames[3]? = _ from rfl)
  · split at h
    · cases h
    · rw [mem_singleton.mp h]
      exact mem_of_getElem? (show cardNames[4]? = _ from rfl)
  · exact mem_of_getElem? (show cardNames[5]? = _ from rfl)
  · exact mem_of_getElem? (show cardNames[6]? = _ from rfl)
  · split at h
    · cases h
    · rw [mem_singleton.mp h]
      exact mem_of_getElem? (show cardNames[7]? = _ from rfl)

/-- Properties that open and close nothing are a card's, one after another. -/
theorem foldl_inside {s : CardScan} (hdepth : s.depth = 1) : ∀ {properties : List Property},
    (∀ p ∈ properties, p.marks "BEGIN" = false ∧ p.marks "END" = false) →
      properties.foldl CardScan.step s = { s with current := s.current ++ properties }
  | [], _ => by rw [append_nil]; rfl
  | p :: properties, h => by
    obtain ⟨⟨hbegin, hend⟩, h⟩ := forall_mem_cons.mp h
    have hstep : s.step p = { s with current := s.current ++ [p] } := by
      unfold CardScan.step
      rw [hbegin, hend, if_neg Bool.false_ne_true, if_neg Bool.false_ne_true, if_pos (by omega)]
    rw [foldl_cons, hstep]
    refine (foldl_inside (s := { s with current := s.current ++ [p] }) hdepth h).trans ?_
    simp

theorem marks_of_name {p : Property} {name : String} (h : p.name ≠ name.toList) : p.marks name = false := by
  unfold Property.marks
  rw [beq_eq_false_iff_ne.mpr h, Bool.false_and]

/-- A new card is one card. -/
theorem splitCards_newCard (C : Capitals) (person : Person) (uid : Str) :
    splitCards C.upper (newCard person uid) = [cardProperties person uid] := by
  have hinside : ∀ p ∈ cardProperties person uid, p.marks "BEGIN" = false ∧ p.marks "END" = false := by
    intro p hp
    have hname : ∀ name ∈ cardNames, name ≠ "BEGIN" ∧ name ≠ "END" := by decide
    obtain ⟨hb, he⟩ := hname _ (name_mem_cardNames hp)
    exact ⟨marks_of_name hb, marks_of_name he⟩
  have hproperties : parseProperties C.upper (newCard person uid) =
      [⟨[], "BEGIN", [], "VCARD", "VCARD"⟩] ++ cardProperties person uid ++ [⟨[], "END", [], "VCARD", "VCARD"⟩] := by
    have hblank : [[]].filterMap (parseLine C.upper) = [] := rfl
    unfold parseProperties newCard
    rw [unfold_join (clean_of_solid (solid_newCardLines person uid)), filterMap_append, parse_newCardLines, hblank, append_nil]
  have hne : cardProperties person uid ≠ [] := by
    unfold cardProperties
    simp
  unfold splitCards scan
  rw [hproperties, foldl_append, foldl_append]
  have hopen : [(⟨[], "BEGIN", [], "VCARD", "VCARD"⟩ : Property)].foldl CardScan.step CardScan.start =
      ⟨[], [], 1⟩ := by decide
  rw [hopen, foldl_inside rfl hinside, foldl_cons, foldl_nil, nil_append]
  have hbegin : (⟨[], "END", [], "VCARD", "VCARD"⟩ : Property).marks "BEGIN" = false := by decide
  have hend : (⟨[], "END", [], "VCARD", "VCARD"⟩ : Property).marks "END" = true := by decide
  unfold CardScan.step
  rw [hbegin, hend, if_neg Bool.false_ne_true, if_pos rfl, if_pos ⟨rfl, hne⟩]
  rfl

/-! ## The person -/

/-- What is left of a label: it is written as a type, if it can be, and some types are not labels. -/
def typeLabel (label : Str) : Str :=
  if isType (trim label) && !isUse (asciiLower (trim label)) then asciiLower (trim label) else []

/-- The first of the addresses that are the same. -/
def firstOfEach : List EmailAddress → List EmailAddress
  | [] => []
  | e :: emails => e :: (firstOfEach emails).filter (fun other => other.addr ≠ e.addr)

/-- The person that is read of a new card. -/
def readBack (U : Casing) (person : Person) (uid : Str) : Person where
  uid := trim (withoutCr uid)
  name := person.name
  given := if person.given = [] ∧ person.family = [] then person.name else person.given
  family := person.family
  organisation := person.organisation
  note := person.note
  emails := firstOfEach ((person.emails.map (fun e => ⟨U.lower e.addr, typeLabel e.label⟩)).filter (fun e => e.addr ≠ []))
  phones := (person.phones.map (fun p => ⟨p.number, typeLabel p.label⟩)).filter (fun p => p.number ≠ [])
  photo := none

/-- No white space at the ends, and no carriage return. -/
def Plain (s : Str) : Prop := trim s = s ∧ '\r' ∉ s

/-- The fields of a person are plain. -/
structure Plain.Fields (person : Person) : Prop where
  name : Plain person.name
  given : Plain person.given
  family : Plain person.family
  organisation : Plain person.organisation
  note : Plain person.note
  emails : ∀ e ∈ person.emails, Plain e.addr ∧ Plain e.label
  phones : ∀ p ∈ person.phones, Plain p.number ∧ Plain p.label

section

variable (U : Casing)

theorem lower_type {label : Str} (h : isType label = true) : U.lower (trim (asciiLower label)) = asciiLower label := by
  have hrange : ∀ c ∈ asciiLower label, 33 ≤ c.toNat ∧ c.toNat < 127 := by
    intro c hc
    have := label_range (label_alphanum h c hc)
    omega
  rw [trim_of_no_space fun c hc => isWhitespace_of_range (hrange c hc), U.lower_ascii fun c hc => by
    have := hrange c hc
    omega, asciiLower_asciiLower]

theorem labelFor_labelled (name label value : Str) (all : List Property) :
    labelFor U (labelledProperty name label value) all = typeLabel label := by
  have hsibling : (labelledProperty name label value).sibling all = none := rfl
  unfold labelFor typeLabel
  rw [hsibling]
  dsimp only
  by_cases h : isType (trim label) = true
  · have hcomma : ',' ∉ asciiLower (trim label) := by
      intro hm
      exact absurd (label_range (label_alphanum h _ hm)) (by decide)
    have hne : (asciiLower (trim label)).isEmpty = false := by
      unfold isType at h
      rw [Bool.and_eq_true] at h
      cases hl : trim label with
      | nil => rw [hl] at h; cases h.1
      | cons c rest => rfl
    have htypes : (labelledProperty name label value).types U = [asciiLower (trim label)] := by
      have hkey : ("TYPE".toList == "TYPE".toList || "TYPE".toList.isEmpty) = true := by decide
      have htype : ∀ l : Str, [("TYPE".toList, l)].filter (fun p => p.1 == "TYPE".toList || p.1.isEmpty) =
          [("TYPE".toList, l)] := fun l => filter_cons_of_pos hkey
      unfold labelledProperty Property.types
      dsimp only
      rw [if_pos h, htype, flatMap_singleton, splitOn_of_not_mem hcomma, map_singleton, lower_type U h, filter_cons_of_pos (by rw [hne]; rfl), filter_nil]
    rw [htypes, h, Bool.true_and, find?_cons, find?_nil]
    cases isUse (asciiLower (trim label)) <;> rfl
  · have htypes : (labelledProperty name label value).types U = [] := by
      unfold labelledProperty Property.types
      dsimp only
      rw [if_neg h]
      rfl
    rw [htypes, Bool.eq_false_iff.mpr h]
    rfl

/-! ### Field by field -/

variable {U} {all : List Property}

theorem step_uid (s : PersonScan) (value : Str) : s.step U all (plainProperty "UID" value) =
    { s with person := { s.person with uid := trim (withoutCr value) } } := by
  unfold PersonScan.step plainProperty
  rw [if_pos rfl]

variable {s : PersonScan}

theorem step_fn (h : s.person.name = []) (value : Str) : s.step U all (plainProperty "FN" value) =
    { s with person := { s.person with name := trim (withoutCr value) } } := by
  unfold PersonScan.step plainProperty
  dsimp only
  rw [if_neg (by decide), if_pos rfl, if_pos h]

theorem step_n (h : s.structuredName = []) (value raw : Str) : s.step U all ⟨[], "N", [], value, raw⟩ =
      { s with
        structuredName := raw
        person := { s.person with given := (nameParts raw).1, family := (nameParts raw).2 } } := by
  unfold PersonScan.step
  dsimp only
  rw [if_neg (by decide), if_neg (by decide), if_pos rfl, if_pos h]

theorem step_org (h : s.person.organisation = []) (value : Str) : s.step U all (plainProperty "ORG" value) =
      { s with person := { s.person with organisation := trim (withoutCr value) } } := by
  unfold PersonScan.step plainProperty
  dsimp only
  rw [if_neg (by decide), if_neg (by decide), if_neg (by decide), if_pos rfl, if_pos h, structuredParts_escape_last]
  unfold field
  rw [getElem?_cons_zero, Option.map_some, Option.getD_some, unescape_escape]

theorem step_note (h : s.person.note = []) (value : Str) : s.step U all (plainProperty "NOTE" value) =
      { s with person := { s.person with note := trim (withoutCr value) } } := by
  unfold PersonScan.step plainProperty
  dsimp only
  rw [if_neg (by decide), if_neg (by decide), if_neg (by decide), if_neg (by decide), if_pos rfl, if_pos h]

theorem step_email (s : PersonScan) {p : Property} (h : p.name = "EMAIL") : s.step U all p = s.address U all p := by
  unfold PersonScan.step
  rw [h, if_neg (by decide), if_neg (by decide), if_neg (by decide), if_neg (by decide), if_neg (by decide), if_pos rfl]

theorem step_tel (s : PersonScan) {p : Property} (h : p.name = "TEL") : s.step U all p = s.phone U all p := by
  unfold PersonScan.step
  rw [h, if_neg (by decide), if_neg (by decide), if_neg (by decide), if_neg (by decide), if_neg (by decide),
    if_neg (by decide), if_pos rfl]

theorem step_other (s : PersonScan) (value raw : Str) : s.step U all ⟨[], "VERSION", [], value, raw⟩ = s := by
  unfold PersonScan.step
  dsimp only
  rw [if_neg (by decide), if_neg (by decide), if_neg (by decide), if_neg (by decide), if_neg (by decide),
    if_neg (by decide), if_neg (by decide), if_neg (by decide)]

/-! ### Addresses and numbers -/

theorem firstOfEach_unseen (e : EmailAddress) (emails : List EmailAddress) (seen : List Str) :
    (firstOfEach (e :: emails)).filter (fun other => other.addr ∉ seen) =
      if e.addr ∈ seen then (firstOfEach emails).filter (fun other => other.addr ∉ seen)
      else e :: (firstOfEach emails).filter (fun other => other.addr ∉ seen ++ [e.addr]) := by
  rw [firstOfEach]
  split
  · rename_i hseen
    rw [filter_cons_of_neg (by simpa using hseen), filter_filter]
    refine filter_congr fun other _ => ?_
    by_cases ho : other.addr ∈ seen
    · simp [ho]
    · have hne : other.addr ≠ e.addr := fun he => ho (he ▸ hseen)
      simp [ho, hne]
  · rename_i hseen
    rw [filter_cons_of_pos (by simpa using hseen), filter_filter]
    congr 1
    exact filter_congr fun other _ => by simp

def PersonScan.list (s : PersonScan) (seen : List Str) (emails : List EmailAddress) : PersonScan :=
  { s with seen := seen, person := { s.person with emails := emails } }

/-- The addresses that are not listed yet, each once. -/
theorem foldl_addresses {α : Type} {read : α → EmailAddress} {add : PersonScan → α → PersonScan} :
    ∀ {l : List α}, (∀ a ∈ l, ∀ s, add s a = if (read a).addr ≠ [] ∧ (read a).addr ∉ s.seen then
      s.list (s.seen ++ [(read a).addr]) (s.person.emails ++ [read a]) else s) → ∀ s : PersonScan, ∃ seen, l.foldl add s =
      s.list seen (s.person.emails ++
        (firstOfEach ((l.map read).filter (fun e => e.addr ≠ []))).filter (fun e => e.addr ∉ s.seen))
  | [], _, s => ⟨s.seen, by simp [firstOfEach, PersonScan.list]⟩
  | a :: l, hadd, s => by
    obtain ⟨hfirst, hadd⟩ := forall_mem_cons.mp hadd
    obtain ⟨seen, ih⟩ := foldl_addresses hadd (add s a)
    refine ⟨seen, ?_⟩
    rw [foldl_cons, ih, hfirst, map_cons]
    by_cases hempty : (read a).addr = []
    · rw [if_neg fun h => h.1 hempty, filter_cons_of_neg (by simpa using hempty)]
    · rw [filter_cons_of_pos (by simpa using hempty), firstOfEach_unseen]
      by_cases hseen : (read a).addr ∈ s.seen
      · rw [if_neg fun h => h.2 hseen, if_pos hseen]
      · rw [if_pos ⟨hempty, hseen⟩, if_neg hseen]
        simp only [PersonScan.list, append_assoc, singleton_append]
        rfl

/-- The numbers that are not empty. -/
theorem foldl_numbers {α : Type} {read : α → PhoneNumber} {add : PersonScan → α → PersonScan} :
    ∀ {l : List α}, (∀ a ∈ l, ∀ s, add s a = if (read a).number = [] then s
      else { s with person := { s.person with phones := s.person.phones ++ [read a] } }) →
    ∀ s : PersonScan, l.foldl add s =
      { s with person := { s.person with phones := s.person.phones ++ (l.map read).filter (fun p => p.number ≠ []) } }
  | [], _, s => by simp
  | a :: l, hadd, s => by
    obtain ⟨hfirst, hadd⟩ := forall_mem_cons.mp hadd
    rw [foldl_cons, foldl_numbers hadd, hfirst, map_cons]
    by_cases hempty : (read a).number = []
    · rw [if_pos hempty, filter_cons_of_neg (by simpa using hempty)]
    · rw [if_neg hempty, filter_cons_of_pos (by simpa using hempty)]
      simp

theorem address_labelled {e : EmailAddress} (h : Plain e.addr) (s : PersonScan) :
    s.step U all (labelledProperty "EMAIL" e.label e.addr) =
      if U.lower e.addr ≠ [] ∧ U.lower e.addr ∉ s.seen then
        s.list (s.seen ++ [U.lower e.addr]) (s.person.emails ++ [⟨U.lower e.addr, typeLabel e.label⟩])
      else s := by
  have hvalue : trim (labelledProperty "EMAIL" e.label e.addr).value = e.addr := by
    show trim (withoutCr (trim e.addr)) = e.addr
    rw [h.1, withoutCr_eq_self h.2, h.1]
  rw [step_email s rfl]
  unfold PersonScan.address
  dsimp only
  rw [hvalue, labelFor_labelled]
  generalize U.lower e.addr = addr
  cases addr with
  | nil => rw [if_neg (by simp), if_neg fun h => h.1 rfl]
  | cons c rest =>
    by_cases hseen : c :: rest ∈ s.seen
    · rw [if_neg (by simpa using hseen), if_neg fun h => h.2 hseen]
    · rw [if_pos (by simpa using hseen), if_pos ⟨cons_ne_nil _ _, hseen⟩]
      rfl

theorem phone_labelled {p : PhoneNumber} (h : Plain p.number) (s : PersonScan) :
    s.step U all (labelledProperty "TEL" p.label p.number) =
      if p.number = [] then s
      else { s with person := { s.person with phones := s.person.phones ++ [⟨p.number, typeLabel p.label⟩] } } := by
  have hvalue : trim (labelledProperty "TEL" p.label p.number).value = p.number := by
    show trim (withoutCr (trim p.number)) = p.number
    rw [h.1, withoutCr_eq_self h.2, h.1]
  rw [step_tel s rfl]
  unfold PersonScan.phone
  dsimp only
  rw [hvalue, labelFor_labelled]
  simp only [List.isEmpty_iff]

/-- The parts of the name. -/
theorem nameParts_nRaw {person : Person} (h : Plain.Fields person) :
    nameParts (nRaw person) = (if person.given = [] ∧ person.family = [] then person.name else person.given, person.family) := by
  have hpiece : ∀ {s : Str}, Plain s → trim (unescape (escape s)) = s := by
    intro s hs
    rw [unescape_escape, withoutCr_eq_self hs.2, hs.1]
  have hsemis : ";;;" = ';' :: [';', ';'] := by decide
  have hsecond : ∀ a b : Str, structuredParts (escape a ++ ';' :: (escape b ++ ";;;")) =
      escape a :: escape b :: structuredParts [';', ';'] := by
    intro a b
    rw [structuredParts_escape, hsemis, structuredParts_escape]
  unfold nameParts nRaw field
  split
  · rename_i hempty
    have hparts := hsecond [] person.name
    have hnil : escape [] = [] := rfl
    rw [hnil, nil_append] at hparts
    rw [hparts]
    show (trim (unescape (escape person.name)), []) = _
    rw [hpiece h.name, hempty.2]
  · rw [hsecond]
    show (trim (unescape (escape person.given)), trim (unescape (escape person.family))) = _
    rw [hpiece h.given, hpiece h.family]

/-- The properties of a new card are read as the person. -/
theorem personFromProperties_newCard {person : Person} (hname : person.name ≠ []) (h : Plain.Fields person) (uid : Str) :
    personFromProperties U (cardProperties person uid) = readBack U person uid := by
  have htext : ∀ {s : Str}, Plain s → trim (withoutCr s) = s := fun hs => by rw [withoutCr_eq_self hs.2, hs.1]
  have hrun : ∀ all : List Property, (((cardProperties person uid).foldl (PersonScan.step U all) {}).finish) =
      readBack U person uid := by
    intro all
    have hstart : [⟨[], "VERSION", [], "3.0", "3.0"⟩, plainProperty "UID" uid,
        plainProperty "FN" person.name, ⟨[], "N", [], unescape (nRaw person), nRaw person⟩].foldl (PersonScan.step U all) {} =
        ⟨{ uid := trim (withoutCr uid), name := person.name, given := (nameParts (nRaw person)).1,
           family := (nameParts (nRaw person)).2 }, nRaw person, []⟩ := by
      rw [foldl_cons, foldl_cons, foldl_cons, foldl_cons, foldl_nil, step_other, step_uid,
        step_fn rfl, step_n rfl, htext h.name]
    have horg : ∀ s : PersonScan, s.person.organisation = [] →
        (if person.organisation = [] then [] else [plainProperty "ORG" person.organisation]).foldl
          (PersonScan.step U all) s = { s with person := { s.person with organisation := person.organisation } } := by
      intro s hs
      split
      · rename_i hempty
        rw [hempty, ← hs]
        rfl
      · rw [foldl_cons, foldl_nil, step_org hs, htext h.organisation]
    have hnote : ∀ s : PersonScan, s.person.note = [] →
        (if person.note = [] then [] else [plainProperty "NOTE" person.note]).foldl
          (PersonScan.step U all) s = { s with person := { s.person with note := person.note } } := by
      intro s hs
      split
      · rename_i hempty
        rw [hempty, ← hs]
        rfl
      · rw [foldl_cons, foldl_nil, step_note hs, htext h.note]
    unfold cardProperties
    rw [foldl_append, foldl_append, foldl_append, foldl_append, hstart, horg _ rfl, List.foldl_map, List.foldl_map]
    obtain ⟨seen, hemails⟩ := @foldl_addresses EmailAddress (fun e => ⟨U.lower e.addr, typeLabel e.label⟩)
      (fun s e => s.step U all (labelledProperty "EMAIL" e.label e.addr)) person.emails
      (fun e he s => address_labelled (h.emails e he).1 s)
      ⟨{ uid := trim (withoutCr uid), name := person.name, given := (nameParts (nRaw person)).1,
         family := (nameParts (nRaw person)).2, organisation := person.organisation }, nRaw person, []⟩
    have hphones := @foldl_numbers PhoneNumber (fun p => ⟨p.number, typeLabel p.label⟩)
      (fun s p => s.step U all (labelledProperty "TEL" p.label p.number)) person.phones
      (fun p hp s => phone_labelled (h.phones p hp).1 s)
    rw [hemails, hphones, hnote _ rfl, nameParts_nRaw h]
    have hkeep : (if person.name = [] ∧ nRaw person ≠ [] then nameFromStructured (nRaw person) else person.name) =
        person.name := if_neg fun hn => hname hn.1
    have hall : ∀ l : List EmailAddress, l.filter (fun e => e.addr ∉ ([] : List Str)) = l :=
      fun l => filter_eq_self.mpr (by simp)
    unfold PersonScan.finish PersonScan.list readBack
    dsimp only
    rw [hkeep, if_neg hname, nil_append, nil_append, hall]
  exact hrun _

/-- **A new card is read back** as one person: the UID without white space around it and without carriage returns, the
names, the organisation and the note as they are, the addresses in lower case and each once, the numbers, and of every
label what a type can say. -/
theorem newCard_read (U : Casing) (C : Capitals) (person : Person) (uid : Str) (hname : person.name ≠ [])
    (h : Plain.Fields person) : peopleFromVcards U C.upper (Utf8.bytes (newCard person uid)) = [readBack U person uid] := by
  have hgroup : isGroup (cardProperties person uid) = false := by
    have hnames : ∀ name ∈ cardNames, (name == "KIND" || name == "X-ADDRESSBOOKSERVER-KIND") = false := by
      decide
    unfold isGroup
    rw [any_eq_false]
    intro p hp
    unfold isKindGroup
    rw [hnames _ (name_mem_cardNames hp), Bool.false_and]
    exact Bool.false_ne_true
  have huseful : (readBack U person uid).isUseful = true := by
    have hne : (trim (readBack U person uid).name).isEmpty = false := by
      show (trim person.name).isEmpty = false
      rw [h.name.1]
      cases hn : person.name with
      | nil => exact absurd hn hname
      | cons c rest => rfl
    unfold Person.isUseful
    rw [hne]
    rfl
  unfold peopleFromVcards
  rw [cardsOf_bytes, splitCards_newCard, filter_cons_of_pos (by rw [hgroup]; rfl), filter_nil, map_singleton,
    personFromProperties_newCard hname h, filter_cons_of_pos huseful, filter_nil]

end

/-! ## On a person -/

/-- The letter case of ASCII and of the sigmas. -/
def plainLetters : Casing where
  lowerChar c := if c = 'Σ' then ['σ'] else [c.toLower]
  cased c := c.isAlpha || ['Σ', 'σ', 'ς'].contains c
  caseIgnorable _ := false
  ascii c h := by
    rw [if_neg]
    rintro rfl
    exact absurd h (by decide)
  ne_nil c := by split_ifs <;> exact cons_ne_nil _ _
  fixed c d hd := by
    split_ifs at hd with hc
    · rw [mem_singleton.mp hd]
      decide
    · rw [mem_singleton.mp hd, if_neg (fun he => hc (Casing.toLower_eq_sigma.mp he)), Casing.toLower_toLower]
  sigma := by decide
  finalSigma := by decide
  letter c h := ⟨by rw [h, Bool.true_or], rfl⟩
  sigmaCased := by decide
  space c h := by
    have hother : ∀ x, isWhitespace x = false → c ≠ x := by
      rintro x hx rfl
      rw [h] at hx
      cases hx
    have hal : c.isAlpha = false := by
      by_contra ha
      rw [isWhitespace_of_isAlpha (by simpa using ha)] at h
      cases h
    refine ⟨?_, ?_, rfl⟩
    · rw [if_neg (hother 'Σ' rfl)]
      rcases Casing.toLower_cases c with he | ⟨he, -, -, -⟩
      · rw [he]
      · rw [hal] at he
        cases he
    · simp [hal, hother 'Σ' rfl, hother 'σ' rfl, hother 'ς' rfl]
  nonspace c h d hd := by
    split_ifs at hd
    · rw [mem_singleton.mp hd]
      rfl
    · rw [mem_singleton.mp hd, isWhitespace_toLower]
      exact h

def asciiCapitals : Capitals := ⟨fun s => s.map Char.toUpper, fun _ _ => rfl⟩

def bo : Person where
  name := "Bo; Jr."
  emails := [⟨"Bo@example.com", "work"⟩]

theorem newCard_read_bo : peopleFromVcards plainLetters asciiCapitals.upper (Utf8.bytes (newCard bo "u-1")) =
      [readBack plainLetters bo "u-1"] :=
  newCard_read plainLetters asciiCapitals bo "u-1" (by decide)
    { name := by
        unfold Plain
        decide
      given := by
        unfold Plain
        decide
      family := by
        unfold Plain
        decide
      organisation := by
        unfold Plain
        decide
      note := by
        unfold Plain
        decide
      emails := by
        unfold Plain
        decide
      phones := fun p hp => by cases hp }

def ana : Person where
  name := "Ana"
  emails := [⟨"ana@example.com", "Mobile"⟩, ⟨"Ana@example.com", "home"⟩,
    ⟨"ana@example.org", "at work"⟩, ⟨[], []⟩]

/-- A label with a capital, one with a blank, an address listed twice, an empty one, and a UID with a blank before it. -/
theorem label_misread : (peopleFromVcards plainLetters asciiCapitals.upper (Utf8.bytes (newCard ana " u-1"))).map
        (fun p => (p.uid, p.emails)) =
      [("u-1".toList, [⟨"ana@example.com".toList, "mobile".toList⟩, ⟨"ana@example.org".toList, []⟩])] := by
  rw [peopleFromVcards, cardsOf_bytes]
  decide +kernel

end Oreneta.Contacts

import Oreneta.Ics.Lines
import Oreneta.Lib.Trim

/-!
# iCalendar: the address a people line names

`address_of` of `calendar/ics.rs` and `value`, `param` and `person` of `calendar/itip.rs`, beside the address the
line names by RFC 5545, whose value begins after the first colon outside of quotes.

* `person` — as the source reads a line; `namedAddress` — as the format does.
* `addressOf_eq_iff` — `address_of` reads a line right exactly if its first colon is outside of quotes.
* `addressOf_person_iff` — the two readers agree exactly if the scheme is spelled in one case and nothing stands before
  it.
* `attendee_read_iff` — the line written for a person is read back exactly if there is no colon in the name.
-/

namespace Oreneta.Ics

open Text List

/-! ## The two readers -/

/-- `itip::param`. -/
def param (line key : Str) : Option Str :=
  if ':' ∈ line then
    ((line.takeWhile (fun c => c ≠ ':')).splitOn ';').tail.findSome? fun p =>
      (splitOnce '=' p).bind fun kv =>
        if upper kv.1 = upper key then some ((kv.2.dropWhile (fun c => c = '"')).rdropWhile (fun c => c = '"'))
        else none
  else none

/-- `itip::person`. -/
def person (line : Str) : Participant where
  name := (param line "CN").getD []
  addr :=
    let addr := afterColon line
    let addr := match stripPrefix "mailto:" addr with
      | some rest => rest
      | none => (stripPrefix "MAILTO:" addr).getD addr
    asciiLower (trim addr)
  response := match (param line "PARTSTAT").map upper with
    | some answer =>
      if answer = "ACCEPTED" then "accept"
      else if answer = "DECLINED" then "decline"
      else if answer = "TENTATIVE" then "tentative"
      else if answer = "NEEDS-ACTION" then "none"
      else []
    | none => []

/-! ## What a line names -/

/-- What stands after the first colon outside of quotes. -/
def valueOf : Bool → Str → Str
  | _, [] => []
  | quoted, c :: rest =>
    if c = '"' then valueOf (!quoted) rest
    else if c = ':' && !quoted then rest
    else valueOf quoted rest

/-- The address a people line names, in small letters and without its scheme. -/
def namedAddress (line : Str) : Str := addressOf (':' :: valueOf false line)

/-- The first colon of a line is outside of quotes. -/
def ColonOutside (line : Str) : Prop := (line.takeWhile (fun c => c ≠ ':')).count '"' % 2 = 0

instance (line : Str) : Decidable (ColonOutside line) := inferInstanceAs (Decidable (_ = _))

/-- A mailto scheme is all in small letters or all in capitals, and nothing stands before it. -/
def SchemePlain (line : Str) : Prop :=
  upper ((trim (afterColon line)).take 7) = "MAILTO:" →
    "mailto:" <+: afterColon line ∨ "MAILTO:" <+: afterColon line

/-! ## Colons -/

theorem toLower_eq_iff {c x : Char} (hx : x.toNat < 65) : c.toLower = x ↔ c = x := by
  delta Char.toLower
  split
  · rename_i h
    have hlo : 65 ≤ c.val.toNat := h.1
    have hhi : c.val.toNat ≤ 90 := h.2
    constructor
    · intro he
      have hn : (c.val + ('a'.val - 'A'.val)).toNat = x.toNat := by
        rw [← he]
        rfl
      have hshift : ('a'.val - 'A'.val).toNat = 32 := by decide
      rw [UInt32.toNat_add] at hn
      omega
    · intro he
      have hn : c.val.toNat = x.toNat := by
        rw [he]
        rfl
      omega
  · rfl

theorem count_map {f : Char → Char} {x : Char} (hf : ∀ c, f c = x ↔ c = x) (s : Str) : (s.map f).count x = s.count x := by
  induction s with
  | nil => rfl
  | cons c s ih =>
    rw [map_cons, count_cons, count_cons, ih]
    by_cases hc : c = x
    · simp [hc, (hf x).mpr rfl]
    · have hfc : f c ≠ x := fun h => hc ((hf c).mp h)
      simp [hc, hfc]

theorem count_asciiLower (s : Str) : (asciiLower s).count ':' = s.count ':' :=
  count_map (fun _ => toLower_eq_iff (by decide)) s

theorem count_upper (s : Str) : (upper s).count ':' = s.count ':' := count_map (fun _ => toUpper_eq_iff (by decide)) s

/-- Only the colon of a scheme is taken off an address. -/
theorem count_addressOf (line : Str) : (addressOf line).count ':' +
    (if upper ((trim (afterColon line)).take 7) = "MAILTO:" then 1 else 0) = (afterColon line).count ':' := by
  have htrim := count_trim (by decide : isWhitespace ':' = false)
  unfold addressOf
  dsimp only
  rw [count_asciiLower, htrim]
  split
  · rename_i hscheme
    have hone : ((trim (afterColon line)).take 7).count ':' = 1 := by
      rw [← count_upper, hscheme]
      rfl
    have hsplit := congrArg (List.count ':') (take_append_drop 7 (trim (afterColon line)))
    rw [count_append, htrim, hone] at hsplit
    omega
  · rw [htrim, Nat.add_zero]

/-! ## Quotes -/

theorem valueOf_append {quoted : Bool} : ∀ {head : Str} (rest : Str),
    (quoted = false → ':' ∉ head) → '"' ∉ head → valueOf quoted (head ++ rest) = valueOf quoted rest
  | [], _, _, _ => rfl
  | c :: head, rest, hcolon, hquote => by
    have hc : c ≠ '"' := fun h => hquote (by rw [h]; exact mem_cons_self)
    have hnot : (decide (c = ':') && !quoted) = false := by
      cases quoted with
      | true => simp
      | false =>
        have : c ≠ ':' := fun h => hcolon rfl (by rw [h]; exact mem_cons_self)
        simp [this]
    rw [cons_append, valueOf, if_neg hc, hnot, if_neg Bool.false_ne_true]
    exact valueOf_append rest (fun hq hm => hcolon hq (mem_cons_of_mem _ hm))
      fun hm => hquote (mem_cons_of_mem _ hm)

/-- Up to its first colon a line is in quotes after an odd number of them. -/
theorem valueOf_takeWhile : ∀ (line : Str) (quoted : Bool),
    valueOf quoted line = valueOf (quoted ^^ decide ((line.takeWhile (fun c => c ≠ ':')).count '"' % 2 = 1))
      (line.dropWhile (fun c => c ≠ ':'))
  | [], quoted => rfl
  | c :: line, quoted => by
    by_cases hc : c = ':'
    · subst hc
      simp
    · have ih := valueOf_takeWhile line
      rw [takeWhile_cons_of_pos (by simpa using hc), dropWhile_cons_of_pos (by simpa using hc), valueOf]
      by_cases hq : c = '"'
      · subst hq
        rw [if_pos rfl, ih, count_cons_self]
        congr 1
        rcases Nat.mod_two_eq_zero_or_one ((line.takeWhile (fun c => decide (c ≠ ':'))).count '"') with h | h
        · have h' : ((line.takeWhile (fun c => decide (c ≠ ':'))).count '"' + 1) % 2 = 1 := by omega
          rw [h, h']
          cases quoted <;> rfl
        · have h' : ((line.takeWhile (fun c => decide (c ≠ ':'))).count '"' + 1) % 2 = 0 := by omega
          rw [h, h']
          cases quoted <;> rfl
      · rw [if_neg hq, count_cons_of_ne hq, if_neg (by simp [hc]), ih]

/-- The value found in quotes lies behind a quote and a colon. -/
theorem valueOf_quoted : ∀ (quoted : Bool) (rest : Str), valueOf quoted rest ≠ [] →
    ∃ u, rest = u ++ ':' :: valueOf quoted rest ∧ (quoted = true → '"' ∈ u)
  | _, [], h => absurd rfl h
  | quoted, c :: rest, h => by
    rw [valueOf] at h ⊢
    by_cases hq : c = '"'
    · rw [if_pos hq] at h ⊢
      obtain ⟨u, hu, -⟩ := valueOf_quoted (!quoted) rest h
      exact ⟨c :: u, by rw [cons_append, ← hu], fun _ => by rw [hq]; exact mem_cons_self⟩
    · rw [if_neg hq] at h ⊢
      by_cases hc : (decide (c = ':') && !quoted) = true
      · rw [if_pos hc] at h ⊢
        rw [Bool.and_eq_true, decide_eq_true_eq, Bool.not_eq_true'] at hc
        exact ⟨[], by rw [hc.1]; rfl, fun he => by rw [hc.2] at he; cases he⟩
      · rw [if_neg hc] at h ⊢
        obtain ⟨u, hu, hmem⟩ := valueOf_quoted quoted rest h
        exact ⟨c :: u, by rw [cons_append, ← hu], fun he => mem_cons_of_mem _ (hmem he)⟩

theorem afterColon_cons (v : Str) : afterColon (':' :: v) = v := rfl

/-- A line whose first colon is outside of quotes has its value behind it. -/
theorem valueOf_outside {line : Str} (h : ColonOutside line) : valueOf false line = afterColon line := by
  have hno : decide ((line.takeWhile (fun c => c ≠ ':')).count '"' % 2 = 1) = false := by
    have h' : (line.takeWhile (fun c => c ≠ ':')).count '"' % 2 = 0 := h
    rw [h']
    rfl
  rw [valueOf_takeWhile, hno, Bool.xor_false]
  unfold afterColon
  cases hd : line.dropWhile (fun c => c ≠ ':') with
  | nil => rfl
  | cons c rest =>
    have hc : c = ':' := by
      have hhead := head?_dropWhile_not (fun c => decide (c ≠ ':')) line
      rw [hd] at hhead
      simpa using hhead
    rw [hc]
    rfl

theorem addressOf_congr {line line' : Str} (h : afterColon line = afterColon line') : addressOf line = addressOf line' := by
  unfold addressOf
  rw [h]

/-- A text with a quote before its first colon begins with no scheme. -/
theorem no_scheme {u v : Str} (hquote : '"' ∈ u) (hcolon : ':' ∉ u) : upper ((trim (u ++ ':' :: v)).take 7) ≠ "MAILTO:" := by
  have hu : '"' ∈ u.dropWhile Text.isWhitespace := by
    have hmem := hquote
    rw [← takeWhile_append_dropWhile (p := Text.isWhitespace) (l := u)] at hmem
    rcases mem_append.mp hmem with hmem | hmem
    · have hblank := mem_takeWhile_imp hmem
      exact absurd hblank (by decide)
    · exact hmem
  have hu' : ':' ∉ u.dropWhile Text.isWhitespace := fun h => hcolon ((dropWhile_sublist _).subset h)
  have htrim : Text.trim (u ++ ':' :: v) =
      u.dropWhile Text.isWhitespace ++ ':' :: v.rdropWhile Text.isWhitespace := by
    have hne : (u.dropWhile Text.isWhitespace).isEmpty = false := by
      cases hd : u.dropWhile Text.isWhitespace with
      | nil =>
        rw [hd] at hu
        cases hu
      | cons c rest => rfl
    rw [Text.trim_eq_trimBy, Text.trimBy, dropWhile_append, hne, if_neg Bool.false_ne_true]
    exact Text.rdropWhile_append_cons (by decide) _ _
  rw [htrim]
  intro h
  generalize u.dropWhile Text.isWhitespace = head at hu hu' h
  by_cases hlen : 7 ≤ head.length
  · -- the scheme's colon would stand before the first colon
    rw [take_append_of_le_length hlen] at h
    have hcount : (head.take 7).count ':' = 0 :=
      count_eq_zero.mpr fun hm => hu' ((take_sublist 7 head).subset hm)
    rw [← count_upper, h] at hcount
    exact absurd hcount (by decide)
  · have hmem : '"' ∈ upper ((head ++ ':' :: v.rdropWhile isWhitespace).take 7) := by
      rw [take_append, take_of_length_le (by omega)]
      exact mem_map.mpr ⟨'"', mem_append_left _ hu, rfl⟩
    rw [h] at hmem
    exact absurd hmem (by decide)

/-- **`address_of` reads the address a line names** exactly if the first colon of the line is outside of quotes. -/
theorem addressOf_eq_iff {line : Str} (hne : namedAddress line ≠ []) :
    addressOf line = namedAddress line ↔ ColonOutside line := by
  constructor
  · intro h
    by_contra hin
    have hodd : decide ((line.takeWhile (fun c => c ≠ ':')).count '"' % 2 = 1) = true := by
      have hin' : ¬ (line.takeWhile (fun c => c ≠ ':')).count '"' % 2 = 0 := hin
      rw [decide_eq_true_eq]
      omega
    have hvalue : valueOf false line = valueOf true (line.dropWhile fun c => c ≠ ':') := by
      rw [valueOf_takeWhile, hodd]
      rfl
    have hvne : valueOf false line ≠ [] := by
      intro hnil
      rw [namedAddress, hnil] at hne
      exact hne rfl
    obtain ⟨u, hu, hquote⟩ := valueOf_quoted true (line.dropWhile fun c => c ≠ ':') (hvalue ▸ hvne)
    rw [← hvalue] at hu
    -- what lies behind the first colon, and behind the one that counts
    obtain ⟨u', hafter, hquote'⟩ : ∃ u', afterColon line = u' ++ ':' :: valueOf false line ∧ '"' ∈ u' := by
      cases u with
      | nil => exact absurd (hquote rfl) not_mem_nil
      | cons c u' =>
        have hc : c = ':' := by
          have hhead := head?_dropWhile_not (fun c => decide (c ≠ ':')) line
          rw [hu] at hhead
          simpa using hhead
        refine ⟨u', by rw [afterColon, hu]; rfl, ?_⟩
        rcases mem_cons.mp (hquote rfl) with he | hm
        · rw [hc] at he
          cases he
        · exact hm
    have hcount := count_addressOf line
    have hnamed := count_addressOf (':' :: valueOf false line)
    rw [← namedAddress, ← h, afterColon_cons] at hnamed
    rw [hafter, count_append, count_cons_self] at hcount
    by_cases hcolon : ':' ∈ u'
    · have hpos := count_pos_iff.mpr hcolon
      split at hcount <;> split at hnamed <;> omega
    · rw [if_neg (no_scheme hquote' hcolon)] at hcount
      split at hnamed <;> omega
  · intro h
    exact addressOf_congr (by rw [afterColon_cons, valueOf_outside h])

/-! ## The two readers together -/

theorem isPrefix_trim {scheme v : Str} {c : Char} (hlast : scheme.getLast? = some c) (hc : isWhitespace c = false)
    (hfirst : ∀ d ∈ scheme.head?, isWhitespace d = false) (rest : Str) (h : v = scheme ++ rest) :
    trim v = scheme ++ rest.rdropWhile isWhitespace := by
  obtain ⟨front, rfl⟩ := getLast?_eq_some_iff.mp hlast
  rw [h, trim_eq_trimBy, trimBy]
  have hstart : (front ++ [c] ++ rest).dropWhile isWhitespace = front ++ [c] ++ rest := by
    cases front with
    | nil => exact dropWhile_cons_of_neg (by simp [hc])
    | cons d front => exact dropWhile_cons_of_neg (by simp [hfirst d rfl])
  rw [hstart, append_assoc, singleton_append, rdropWhile_append_cons hc, append_assoc]
  rfl

/-- **The two readers agree on a line** exactly if its scheme is spelled in one case and nothing stands before it. -/
theorem addressOf_person_iff (line : Str) : addressOf line = (person line).addr ↔ SchemePlain line := by
  have hrest : ∀ rest : Str, trim (rest.rdropWhile isWhitespace) = trim rest := by
    intro rest
    obtain ⟨after, hafter, hblank⟩ := rdropWhile_split isWhitespace rest
    conv_rhs => rw [hafter]
    exact (trimBy_append_of_blank hblank _).symm
  have hexact : ∀ {scheme rest : Str}, scheme = "mailto:" ∨ scheme = "MAILTO:" →
      afterColon line = scheme ++ rest →
        addressOf line = asciiLower (trim rest) ∧ (person line).addr = asciiLower (trim rest) := by
    intro scheme rest hs hv
    have htrim : trim (afterColon line) = scheme ++ rest.rdropWhile isWhitespace := by
      rcases hs with rfl | rfl
      · exact isPrefix_trim rfl (by decide : isWhitespace ':' = false) (by decide +kernel) rest hv
      · exact isPrefix_trim rfl (by decide : isWhitespace ':' = false) (by decide +kernel) rest hv
    constructor
    · unfold addressOf
      rw [htrim]
      rcases hs with rfl | rfl
      · exact congrArg asciiLower (hrest rest)
      · exact congrArg asciiLower (hrest rest)
    · simp only [person]
      rw [hv]
      rcases hs with rfl | rfl
      · rw [stripPrefix_append]
      · have hnone : stripPrefix "mailto:" ("MAILTO:" ++ rest) = none := rfl
        rw [hnone, stripPrefix_append]
        rfl
  by_cases hplain : "mailto:" <+: afterColon line ∨ "MAILTO:" <+: afterColon line
  · refine iff_of_true ?_ fun _ => hplain
    rcases hplain with ⟨rest, hv⟩ | ⟨rest, hv⟩
    · obtain ⟨h1, h2⟩ := hexact (.inl rfl) hv.symm
      rw [h1, h2]
    · obtain ⟨h1, h2⟩ := hexact (.inr rfl) hv.symm
      rw [h1, h2]
  · have hnone : ∀ scheme : Str, ¬ scheme <+: afterColon line → stripPrefix scheme (afterColon line) = none := by
      intro scheme hs
      rw [stripPrefix, if_neg fun h => hs (List.isPrefixOf_iff_prefix.mp h)]
    have hperson : (person line).addr = asciiLower (trim (afterColon line)) := by
      simp only [person]
      rw [hnone _ fun h => hplain (.inl h), hnone _ fun h => hplain (.inr h)]
      rfl
    rw [hperson]
    by_cases hscheme : upper ((trim (afterColon line)).take 7) = "MAILTO:"
    · -- one colon less is left
      refine iff_of_false ?_ fun h => hplain (h hscheme)
      intro h
      have hcount := count_addressOf line
      rw [h, if_pos hscheme, count_asciiLower, count_trim (by decide)] at hcount
      omega
    · refine iff_of_true ?_ fun h => absurd h hscheme
      unfold addressOf
      dsimp only
      rw [if_neg hscheme, trim_trim]

/-! ## The line written for a person -/

theorem trim_normalized (addr : Str) : trim (normalized addr) = normalized addr :=
  trimBy_eq_self (trimBy_trimmed isWhitespace addr).asciiLower

theorem normalized_ne_nil {addr : Str} (h : '@' ∈ addr) : normalized addr ≠ [] := by
  intro hnil
  have hat : '@' ∈ trim addr := by
    rw [← count_pos_iff, count_trim (by decide), count_pos_iff]
    exact h
  have hmem : Char.toLower '@' ∈ normalized addr := mem_map_of_mem hat
  rw [hnil] at hmem
  cases hmem

/-- The name in a line is plain, or in quotes. -/
theorem cn_cases (name : Str) : (':' ∉ cn name ∧ '"' ∉ cn name ∧ ':' ∉ name) ∨
      ∃ clean : Str, cn name = ";CN=" ++ '"' :: (clean ++ ['"']) ∧ '"' ∉ clean ∧ (':' ∈ clean ↔ ':' ∈ name) := by
  have hcolon : ':' ∈ (trim name).filter (fun c => decide (c ≠ '"') && !isControl c) ↔ ':' ∈ name := by
    have hcount := Text.count_trim (by decide : Text.isWhitespace ':' = false) name
    rw [mem_filter, ← count_pos_iff, ← count_pos_iff, hcount]
    exact and_iff_left (by decide)
  have hquote : '"' ∉ (trim name).filter (fun c => decide (c ≠ '"') && !isControl c) := by
    intro h
    have := (mem_filter.mp h).2
    simp at this
  unfold cn
  split
  · rename_i hempty
    refine .inl ⟨not_mem_nil, not_mem_nil, fun h => ?_⟩
    have hpos := count_pos_iff.mpr h
    rw [← Text.count_trim (by decide : Text.isWhitespace ':' = false), List.isEmpty_iff.mp hempty] at hpos
    exact absurd hpos (by decide)
  · unfold quoteParam
    dsimp only
    split
    · exact .inr ⟨_, rfl, hquote, hcolon⟩
    · rename_i hplain
      have hno : ':' ∉ (Text.trim name).filter (fun c => decide (c ≠ '"') && !isControl c) := by
        intro h
        exact hplain (any_eq_true.mpr ⟨':', h, by decide⟩)
      refine .inl ⟨fun h => ?_, fun h => ?_, fun h => hno (hcolon.mpr h)⟩
      · rcases mem_append.mp h with h | h
        · exact absurd h (by decide)
        · exact hno h
      · rcases mem_append.mp h with h | h
        · exact absurd h (by decide)
        · exact hquote h

theorem attendeeLine_eq (who : Participant) : ∃ tail : Str, ':' ∉ tail ∧ '"' ∉ tail ∧ attendeeLine who =
    "ATTENDEE" ++ cn who.name ++ tail ++ ':' :: ("mailto:" ++ normalized who.addr) := by
  have hpart : ∃ partstat : Str, (partstat = "ACCEPTED" ∨ partstat = "DECLINED" ∨
      partstat = "TENTATIVE" ∨ partstat = "NEEDS-ACTION") ∧ attendeeLine who =
        "ATTENDEE" ++ cn who.name ++ ";ROLE=REQ-PARTICIPANT;PARTSTAT=" ++ partstat ++
          (if partstat = "NEEDS-ACTION".toList then ";RSVP=TRUE".toList else []) ++ ":mailto:".toList ++
            normalized who.addr := by
    refine ⟨_, ?_, rfl⟩
    split
    · exact .inl rfl
    · split
      · exact .inr (.inl rfl)
      · split
        · exact .inr (.inr (.inl rfl))
        · exact .inr (.inr (.inr rfl))
  obtain ⟨partstat, hcases, hline⟩ := hpart
  refine ⟨";ROLE=REQ-PARTICIPANT;PARTSTAT=" ++ partstat ++
    (if partstat = "NEEDS-ACTION".toList then ";RSVP=TRUE".toList else []), ?_, ?_, ?_⟩
  · rcases hcases with rfl | rfl | rfl | rfl <;> decide
  · rcases hcases with rfl | rfl | rfl | rfl <;> decide
  · have hmail : ":mailto:" ++ normalized who.addr = ':' :: ("mailto:" ++ normalized who.addr) := rfl
    rw [hline, append_assoc _ ":mailto:".toList, hmail]
    simp only [append_assoc]

theorem valueOf_attendeeLine (who : Participant) : valueOf false (attendeeLine who) = "mailto:" ++ normalized who.addr := by
  obtain ⟨tail, hcolon, hquote, hline⟩ := attendeeLine_eq who
  have htail : ∀ rest, valueOf false (tail ++ ':' :: rest) = rest := by
    intro rest
    rw [valueOf_append _ (fun _ => hcolon) hquote]
    rfl
  rw [hline, append_assoc, append_assoc, valueOf_append _ (fun _ => by decide) (by decide)]
  rcases cn_cases who.name with ⟨h1, h2, -⟩ | ⟨clean, hcn, h1, -⟩
  · rw [valueOf_append _ (fun _ => h1) h2, htail]
  · rw [hcn, append_assoc, valueOf_append _ (fun _ => by decide) (by decide), cons_append, valueOf, if_pos rfl,
      append_assoc, valueOf_append _ (fun h => by cases h) h1, singleton_append, valueOf, if_pos rfl]
    exact htail _

/-- By the format, the line written for a person names the person's address. -/
theorem namedAddress_attendeeLine (who : Participant) : namedAddress (attendeeLine who) = normalized who.addr := by
  have hplain : SchemePlain (':' :: ("mailto:" ++ normalized who.addr)) :=
    fun _ => .inl ⟨normalized who.addr, rfl⟩
  have hread : (person (':' :: ("mailto:" ++ normalized who.addr))).addr =
      Text.asciiLower (Text.trim (normalized who.addr)) := by
    simp only [person, afterColon_cons, Text.stripPrefix_append]
  rw [namedAddress, valueOf_attendeeLine, (addressOf_person_iff _).mpr hplain, hread, trim_normalized, normalized,
    Text.asciiLower_asciiLower]

theorem colonOutside_attendeeLine (who : Participant) : ColonOutside (attendeeLine who) ↔ ':' ∉ who.name := by
  obtain ⟨tail, hcolon, hquote, hline⟩ := attendeeLine_eq who
  -- what stands before the first colon
  have htake : ∀ {head rest : Str}, ':' ∉ head → (head ++ ':' :: rest).takeWhile (fun c => decide (c ≠ ':')) = head := by
    intro head rest h
    have hall : ∀ c ∈ head, decide (c ≠ ':') = true := by
      intro c hc
      refine decide_eq_true ?_
      rintro rfl
      exact h hc
    rw [takeWhile_append_of_pos hall, takeWhile_cons_of_neg (by decide), append_nil]
  have hnone : ∀ {s : Str}, '"' ∉ s → s.count '"' = 0 := fun h => count_eq_zero.mpr h
  unfold ColonOutside
  rcases cn_cases who.name with ⟨h1, h2, h3⟩ | ⟨clean, hcn, h1, h2⟩
  · refine iff_of_true ?_ h3
    have hhead : ':' ∉ "ATTENDEE" ++ cn who.name ++ tail := by
      simp only [mem_append, not_or]
      exact ⟨⟨by decide, h1⟩, hcolon⟩
    rw [hline, htake hhead, count_append, count_append, hnone h2, hnone hquote]
    rfl
  · by_cases hc : ':' ∈ clean
    · refine iff_of_false ?_ (not_not.mpr (h2.mp hc))
      cases hs : Text.splitOnce ':' clean with
      | none => exact absurd hc (Text.splitOnce_eq_none.mp hs)
      | some parts =>
        obtain ⟨hclean, hbefore⟩ := Text.splitOnce_some hs
        have hhead : ':' ∉ "ATTENDEE" ++ ";CN=" ++ '"' :: parts.1 := by
          simp only [mem_append, mem_cons, not_or]
          exact ⟨⟨by decide, by decide⟩, by decide, hbefore⟩
        have hquote1 : '"' ∉ parts.1 := fun h => h1 (by rw [hclean]; exact mem_append_left _ h)
        have hwhole : attendeeLine who = "ATTENDEE" ++ ";CN=" ++ '"' :: parts.1 ++ ':' ::
            (parts.2 ++ ['"'] ++ tail ++ ':' :: ("mailto:" ++ normalized who.addr)) := by
          rw [hline, hcn, hclean]
          simp only [append_assoc, cons_append]
        rw [hwhole, htake hhead]
        simp only [count_append, count_cons_self, hnone hquote1]
        decide
    · refine iff_of_true ?_ fun h => hc (h2.mpr h)
      have hhead : ':' ∉ "ATTENDEE" ++ cn who.name ++ tail := by
        rw [hcn]
        simp only [mem_append, mem_cons, not_or]
        exact ⟨⟨by decide, by decide, by decide, hc, by decide⟩, hcolon⟩
      rw [hline, htake hhead, hcn]
      simp only [count_append, count_cons_self, hnone h1, hnone hquote]
      rfl

theorem addressOf_attendeeLine {who : Participant} (h : '@' ∈ who.addr) :
    addressOf (attendeeLine who) = normalized who.addr ↔ ':' ∉ who.name := by
  have hne : namedAddress (attendeeLine who) ≠ [] := by
    rw [namedAddress_attendeeLine]
    exact normalized_ne_nil h
  have hread := addressOf_eq_iff hne
  rwa [namedAddress_attendeeLine, colonOutside_attendeeLine] at hread

/-- **The line written for a person is read back** by both readers exactly if there is no colon in the name. -/
theorem attendee_read_iff {who : Participant} (h : '@' ∈ who.addr) :
    (addressOf (attendeeLine who) = normalized who.addr ∧ (person (attendeeLine who)).addr = normalized who.addr) ↔
      ':' ∉ who.name := by
  constructor
  · rintro ⟨haddr, -⟩
    exact (addressOf_attendeeLine h).mp haddr
  · intro hname
    have haddr := (addressOf_attendeeLine h).mpr hname
    have hafter : afterColon (attendeeLine who) = "mailto:" ++ normalized who.addr := by
      rw [← valueOf_outside ((colonOutside_attendeeLine who).mpr hname), valueOf_attendeeLine]
    refine ⟨haddr, ?_⟩
    rw [← (addressOf_person_iff _).mpr fun _ => .inl ⟨normalized who.addr, hafter.symm⟩]
    exact haddr

end Oreneta.Ics

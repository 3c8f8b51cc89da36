import Oreneta.Lib.SieveTests
import Oreneta.Lib.Spelling
import Oreneta.Rules.Narrower

/-!
# Whether a condition is broader on the server

What a condition's test says of a message on the server, against `rules::holds` of the message here.  A
correspondent is `name <address>` in a header, with commas between several, and `name address` here
(`rule_subject`).

* `serverHolds` — the test as the server reads it.
* `server_contains` — `:contains` finds, folding ASCII, what stands in a haystack, or the comma between two
  correspondents.
* `test_narrow_iff` — the conditions the server never finds where they do not hold here (`ServerNarrow`).
* `cafe_broader` — a negated condition is broader on the server for a letter outside ASCII.
-/

namespace Oreneta.Rules.Sieve

open Text List
open Oreneta.Sieve (Mail evalTest keyMatches escapeWildcards)
open Oreneta.Text (Casing asciiLower Trimmed isWhitespace isWhitespace_of_isAlpha isWhitespace_toLower)

/-! ## Messages -/

structure Correspondent where
  name : Str
  addr : Str
  deriving DecidableEq, Repr

structure Message where
  from_ : Correspondent
  to_ : List Correspondent
  cc : List Correspondent
  subject : Str
  deriving DecidableEq, Repr

/-- A correspondent in a header. -/
def Correspondent.written (p : Correspondent) : Str := p.name ++ " <" ++ p.addr ++ ">"

/-- A correspondent here. -/
def Correspondent.offered (p : Correspondent) : Str := p.name ++ [' '] ++ p.addr

/-- What a message offers the rules to match on (`rule_subject`). -/
def ruleSubject (m : Message) : Subject :=
  ⟨m.from_.name, m.from_.addr, m.to_.map (·.offered), m.cc.map (·.offered), m.subject⟩

/-- The correspondents of a header. -/
def Message.people (m : Message) (header : Str) : List Correspondent :=
  if header = "from" then [m.from_]
  else if header = "to" then m.to_
  else if header = "cc" then m.cc
  else []

/-- The message as the server has it; a header without correspondents is not there. -/
def Message.mail (m : Message) : Mail where
  values header :=
    if header = "subject" then [m.subject]
    else if (m.people header).isEmpty then []
    else [join ", " ((m.people header).map (·.written))]
  addresses header := (m.people header).map (·.addr)

/-- The test of a condition, as the server reads it. -/
def serverHolds (blank : Char → Bool) (text : Str) (m : Message) : Bool :=
  match readTest text with
  | some t => evalTest blank m.mail t
  | none => false

/-- The conditions that are never broader on the server. -/
def ServerNarrow (U : Casing) (c : Condition) : Prop :=
  let needle := trim c.value
  match c.op with
  | .contains =>
    U.openLeft needle = false ∧ U.openRight needle = false ∧
      (needle = [','] → c.field = .subject ∨ c.field = .from_)
  | .notContains => (∀ x ∈ needle, U.Plain x) ∧ ¬ U.OtherSpelling (asciiLower needle)
  | .is => True
  | .startsWith => U.openRight needle = false
  | .endsWith => U.openLeft needle = false

/-! ## Needles -/

/-- Nothing that separates a name from an address. -/
def Bare (n : Str) : Prop := ∀ x ∈ n, isWhitespace x = false ∧ x ≠ '<' ∧ x ≠ '>'

theorem literalPattern_eq (text : Str) : literalPattern text = escapeWildcards text := by
  induction text with
  | nil => rfl
  | cons c text ih =>
    have hcons : literalPattern (c :: text) =
        Text.replace '?' "\\?" (Text.replace '*' "\\*" (if c = '\\' then "\\\\" else [c])) ++ literalPattern text := by
      unfold literalPattern
      simp only [Text.replace, flatMap_cons, flatMap_append]
    have hesc : escapeWildcards (c :: text) =
        (if c = '\\' ∨ c = '*' ∨ c = '?' then ['\\', c] else [c]) ++ escapeWildcards text := flatMap_cons
    rw [hcons, hesc, ih]
    congr 1
    by_cases h1 : c = '\\'
    · subst h1
      rfl
    · by_cases h2 : c = '*'
      · subst h2
        rfl
      · by_cases h3 : c = '?'
        · subst h3
          rfl
        · simp [h1, h2, h3, Text.replace]

/-- What a condition with a test is. -/
structure Testable (c : Condition) : Prop where
  ne_nil : trim c.value ≠ []
  bare : c.field ≠ .subject → Bare (trim c.value)
  op : c.field ≠ .subject → c.op ≠ .is ∧ c.op ≠ .startsWith

theorem testable_of_ok {c : Condition} {text : Str} (h : test c = .ok text) : Testable c := by
  unfold test at h
  simp only at h
  split at h
  · cases h
  · rename_i hne
    split at h
    · cases h
    · rename_i hspan
      refine ⟨by simpa using hne, fun hf x hx => ?_, fun hf => ?_⟩
      · simp only [hf, ne_eq, not_false_eq_true, decide_true, Bool.true_and, any_eq_true, not_exists,
          not_and, Bool.or_eq_true, decide_eq_true_eq, not_or] at hspan
        obtain ⟨⟨h1, h2⟩, h3⟩ := hspan x hx
        exact ⟨by simpa using h1, h2, h3⟩
      · constructor
        · intro hop
          simp [hop, hf] at h
        · intro hop
          simp [hop, hf] at h

theorem serverHolds_eq {c : Condition} {text : Str} (h : test c = .ok text) (blank : Char → Bool)
    (m : Message) : serverHolds blank text m = evalTest blank m.mail (testSyntax c) := by
  rw [serverHolds, readTest_of_ok h]

/-! ## What `:contains` finds -/

section Contains

variable {n : Str}

theorem bare_not_mem (h : Bare n) : ' ' ∉ n ∧ '<' ∉ n ∧ '>' ∉ n := by
  refine ⟨fun hm => ?_, fun hm => (h _ hm).2.1 rfl, fun hm => (h _ hm).2.2 rfl⟩
  have := (h _ hm).1
  cases this

theorem bare_asciiLower (h : Bare n) : Bare (asciiLower n) := by
  intro x hx
  obtain ⟨c, hc, rfl⟩ := mem_map.mp hx
  obtain ⟨h1, h2, h3⟩ := h c hc
  refine ⟨by rw [isWhitespace_toLower]; exact h1, ?_⟩
  rcases Casing.toLower_cases c with he | ⟨-, he, -, -⟩
  · rw [he]
    exact ⟨h2, h3⟩
  · constructor
    · intro heq
      rw [heq] at he
      exact absurd he (by decide)
    · intro heq
      rw [heq] at he
      exact absurd he (by decide)

theorem infix_offered (hbare : Bare n) (p : Correspondent) :
    n <:+: asciiLower p.offered ↔ n <:+: asciiLower p.name ∨ n <:+: asciiLower p.addr := by
  have he : asciiLower p.offered = asciiLower p.name ++ ' ' :: asciiLower p.addr := by
    simp [Correspondent.offered, asciiLower]
  rw [he, infix_append_cons (bare_not_mem hbare).1]

theorem infix_written (hne : n ≠ []) (hbare : Bare n) (p : Correspondent) :
    n <:+: asciiLower p.written ↔ n <:+: asciiLower p.offered := by
  obtain ⟨h1, h2, h3⟩ := bare_not_mem hbare
  have he : asciiLower p.written =
      asciiLower p.name ++ ' ' :: ([] ++ '<' :: (asciiLower p.addr ++ '>' :: [])) := by
    simp [Correspondent.written, asciiLower]
  rw [he, infix_append_cons h1, infix_append_cons h2, infix_append_cons h3, infix_offered hbare]
  simp [hne]

/-- In a list of correspondents, what is found is found in one of them, or is the comma between two. -/
theorem infix_people (hne : n ≠ []) (hbare : Bare n) : ∀ people : List Correspondent,
    n <:+: asciiLower (join ", " (people.map (·.written))) ↔
      (∃ p ∈ people, n <:+: asciiLower p.offered) ∨ (n = [','] ∧ 2 ≤ people.length)
  | [] => by simp [join, asciiLower, hne]
  | [p] => by simpa [join] using infix_written hne hbare p
  | p :: q :: rest => by
    obtain ⟨h1, h2, h3⟩ := bare_not_mem hbare
    have ih := infix_people hne hbare (q :: rest)
    have hjoin : asciiLower (join ", " ((p :: q :: rest).map (·.written))) =
        asciiLower p.written ++ ([','] ++ ' ' :: asciiLower (join ", " ((q :: rest).map (·.written)))) := by
      simp [join, asciiLower]
    have hhead : n <:+: asciiLower p.written ++ ([','] ++ ' ' :: asciiLower (join ", " ((q :: rest).map (·.written)))) ↔
        n <:+: asciiLower p.written ∨ n <:+: [','] ∨
          n <:+: asciiLower (join ", " ((q :: rest).map (·.written))) := by
      have hw : asciiLower p.written = (asciiLower p.name ++ " <" ++ asciiLower p.addr) ++ '>' :: [] := by
        simp [Correspondent.written, asciiLower]
      rw [hw, append_assoc, cons_append, nil_append, infix_append_cons h3,
        infix_append_cons h1, infix_append_cons h3]
      simp [hne]
    have hcomma : n <:+: [','] ↔ n = [','] := by
      constructor
      · intro h
        exact infix_eq_of_length h (length_pos_iff.mpr hne)
      · rintro rfl
        exact infix_refl _
    rw [hjoin, hhead, infix_written hne hbare, hcomma, ih]
    simp only [mem_cons, exists_eq_or_imp, length_cons]
    constructor
    · rintro (h | h | (h | ⟨h, -⟩))
      · exact .inl (.inl h)
      · exact .inr ⟨h, by omega⟩
      · exact .inl (.inr h)
      · exact .inr ⟨h, by omega⟩
    · rintro ((h | h) | ⟨h, -⟩)
      · exact .inl h
      · exact .inr (.inr (.inl h))
      · exact .inr (.inl h)

/-- Some header of the field names two correspondents. -/
def Several (m : Message) (f : Field) : Prop := ∃ h ∈ headerNames f, 2 ≤ (m.people h).length

/-- The folded text stands in something the field offers here. -/
def FoundFolded (n : Str) (m : Message) (f : Field) : Prop :=
  ∃ h ∈ (ruleSubject m).haystacks f, asciiLower n <:+: asciiLower h

theorem haystacks_people {f : Field} (hf : f ≠ .subject) (m : Message) :
    (ruleSubject m).haystacks f = (headerNames f).flatMap (fun h => (m.people h).map (·.offered)) := by
  cases f with
  | subject => exact absurd rfl hf
  | from_ => simp [ruleSubject, Subject.haystacks, headerNames, Message.people, Correspondent.offered]
  | to_ => simp [ruleSubject, Subject.haystacks, headerNames, Message.people]
  | cc => simp [ruleSubject, Subject.haystacks, headerNames, Message.people]
  | recipient => simp [ruleSubject, Subject.haystacks, headerNames, Message.people]

theorem headerNames_ne_subject {f : Field} (hf : f ≠ .subject) {h : Str} (hh : h ∈ headerNames f) : h ≠ "subject" := by
  cases f with
  | subject => exact absurd rfl hf
  | from_ => simp only [headerNames, mem_singleton] at hh; rw [hh]; decide
  | to_ => simp only [headerNames, mem_singleton] at hh; rw [hh]; decide
  | cc => simp only [headerNames, mem_singleton] at hh; rw [hh]; decide
  | recipient =>
    simp only [headerNames, mem_cons, not_mem_nil, or_false] at hh
    rcases hh with rfl | rfl <;> decide

variable {blank : Char → Bool}

/-- White space ignored at the ends of a value hides nothing that is sought. -/
theorem contains_trimBy (hblank : ∀ c, blank c = true → isWhitespace c = true) (hne : n ≠ [])
    (hn : Trimmed isWhitespace n) (v : Str) :
    keyMatches .contains n (trimBy blank v) = true ↔ asciiLower n <:+: asciiLower v := by
  have hkey : keyMatches .contains n (trimBy blank v) = true ↔
      asciiLower n <:+: asciiLower (trimBy blank v) := contains_iff
  rw [hkey]
  constructor
  · intro h
    obtain ⟨before, after, hv, -, -⟩ := trimBy_split blank v
    refine h.trans ⟨asciiLower before, asciiLower after, ?_⟩
    conv_rhs => rw [hv]
    simp [asciiLower]
  · intro h
    obtain ⟨before, after, hv, hb, ha⟩ := trimBy_split blank v
    have hne' : asciiLower n ≠ [] := fun he => hne (map_eq_nil_iff.mp he)
    have hsplit : asciiLower v = asciiLower before ++ (asciiLower (trimBy blank v) ++ asciiLower after) := by
      conv_lhs => rw [hv]
      simp [asciiLower]
    have hws : ∀ s : Str, (∀ c ∈ s, blank c = true) → ∀ c ∈ asciiLower s, isWhitespace c = true := by
      intro s hs c hc
      obtain ⟨d, hd, rfl⟩ := mem_map.mp hc
      rw [isWhitespace_toLower]
      exact hblank d (hs d hd)
    rw [hsplit] at h
    exact infix_of_blank_ends hne' (Trimmed.asciiLower hn) (hws before hb) (hws after ha) h

/-- **What `:contains` finds on the server**: what stands, ASCII case folded, in something the field offers
here, or the comma between two correspondents. -/
theorem server_contains (hblank : ∀ c, blank c = true → isWhitespace c = true) (hne : n ≠ [])
    (hn : Trimmed isWhitespace n) {f : Field} (hbare : f ≠ .subject → Bare n) (m : Message) :
    evalTest blank m.mail (.header .contains (headerNames f) [n]) = true ↔
      FoundFolded n m f ∨ (n = [','] ∧ Several m f) := by
  have heval : evalTest blank m.mail (.header .contains (headerNames f) [n]) = true ↔
      ∃ h ∈ headerNames f, ∃ v ∈ m.mail.values h, asciiLower n <:+: asciiLower v := by
    simp only [evalTest, any_eq_true, mem_singleton, exists_eq_left, contains_trimBy hblank hne hn]
  rw [heval]
  by_cases hf : f = .subject
  · subst hf
    have hno : ¬ Several m .subject := by
      rintro ⟨h, hh, h2⟩
      rw [headerNames, mem_singleton] at hh
      subst hh
      simp [Message.people] at h2
    simp [hno, FoundFolded, headerNames, Message.mail, ruleSubject, Subject.haystacks]
  · have hlow : asciiLower n = [','] ↔ n = [','] := by
      constructor
      · intro h
        obtain ⟨c, hc, hcl⟩ := map_eq_singleton_iff.mp h
        rcases Casing.toLower_cases c with he | ⟨-, he, -, -⟩
        · rw [hc, ← hcl, he]
        · rw [hcl] at he
          exact absurd he (by decide)
      · rintro rfl
        rfl
    have hne' : asciiLower n ≠ [] := fun he => hne (map_eq_nil_iff.mp he)
    have hper : ∀ h ∈ headerNames f, (∃ v ∈ m.mail.values h, asciiLower n <:+: asciiLower v) ↔
        (∃ p ∈ m.people h, asciiLower n <:+: asciiLower p.offered) ∨
          (n = [','] ∧ 2 ≤ (m.people h).length) := by
      intro h hh
      have hpeople := infix_people hne' (bare_asciiLower (hbare hf)) (m.people h)
      rw [hlow] at hpeople
      rw [← hpeople]
      simp only [Message.mail, if_neg (headerNames_ne_subject hf hh)]
      cases hp : m.people h with
      | nil => simp [join, asciiLower, hne]
      | cons p rest => simp
    rw [FoundFolded, haystacks_people hf, Several]
    simp only [mem_flatMap, mem_map]
    constructor
    · rintro ⟨h, hh, hv⟩
      rcases (hper h hh).mp hv with ⟨p, hp, hin⟩ | ⟨hc, h2⟩
      · exact .inl ⟨_, ⟨h, hh, p, hp, rfl⟩, hin⟩
      · exact .inr ⟨hc, h, hh, h2⟩
    · rintro (⟨_, ⟨h, hh, p, hp, rfl⟩, hin⟩ | ⟨hc, h, hh, h2⟩)
      · exact ⟨h, hh, (hper h hh).mpr (.inl ⟨p, hp, hin⟩)⟩
      · exact ⟨h, hh, (hper h hh).mpr (.inr ⟨hc, h2⟩)⟩

end Contains

/-! ## What the condition finds here -/

section Here

variable {U : Casing} {n : Str}

theorem exists_asciiLower_split {h : Str} (hin : asciiLower n <:+: asciiLower h) :
    ∃ u m v, h = u ++ (m ++ v) ∧ asciiLower m = asciiLower n := by
  obtain ⟨a, b, hab⟩ := hin
  rw [append_assoc] at hab
  obtain ⟨u, mv, rfl, -, hmv⟩ := map_eq_append_iff.mp hab.symm
  obtain ⟨m, v, rfl, hm, -⟩ := map_eq_append_iff.mp hmv
  exact ⟨u, m, v, rfl, hm⟩

/-- A text that is `n` up to ASCII case, among neighbours its sigmas do not look at, is `n` in lower case. -/
theorem lowerIn_folded {m before after : Str} (hm : asciiLower m = asciiLower n)
    (hleft : U.casedNear before = true → U.openLeft n = false)
    (hright : U.casedNear after = true → U.openRight n = false) : U.lowerIn before m after = U.lower n := by
  rw [U.lowerIn_asciiEq hm rfl, U.lowerIn_eq_lower hleft hright]

theorem lower_infix {h : Str} (hleft : U.openLeft n = false) (hright : U.openRight n = false)
    (hin : asciiLower n <:+: asciiLower h) : U.lower n <:+: U.lower h := by
  obtain ⟨u, m, v, rfl, hm⟩ := exists_asciiLower_split hin
  rw [U.lower_append, U.lowerIn_append, lowerIn_folded hm (fun _ => hleft) fun _ => hright]
  exact ⟨_, _, append_assoc _ _ _⟩

theorem lower_space_append {w : Str} (hw : ∀ c ∈ w, isWhitespace c = true) (s : Str) : U.lower (w ++ s) = w ++ U.lower s := by
  have hnear : U.casedNear w.reverse = false := U.casedNear_spaces (by simpa using hw)
  rw [U.lower_append, U.lowerIn_space hw]
  congr 1
  apply U.lowerIn_congr
  intro a b _
  have hr : U.casedNear (a.reverse ++ w.reverse) = U.casedNear (a.reverse ++ []) :=
    Casing.casedNear_append_congr hnear a.reverse
  exact Casing.sigmaIn_congr hr rfl

theorem lower_append_space {w : Str} (hw : ∀ c ∈ w, isWhitespace c = true) (s : Str) : U.lower (s ++ w) = U.lower s ++ w := by
  have hnear : U.casedNear w = false := U.casedNear_spaces hw
  rw [U.lower_append, U.lowerIn_space hw]
  congr 1
  apply U.lowerIn_congr
  intro a b _
  exact Casing.sigmaIn_congr rfl (Casing.casedNear_append_congr hnear b)

theorem holds_eq (hne : trim n ≠ []) (f : Field) (op : Op) (m : Message) : holds U.lower ⟨f, op, n⟩ (ruleSubject m) =
      (match op with
      | .contains => ((ruleSubject m).haystacks f).any fun h => Text.contains (U.lower h) (U.lower (trim n))
      | .notContains => !((ruleSubject m).haystacks f).any fun h => Text.contains (U.lower h) (U.lower (trim n))
      | .is => ((ruleSubject m).haystacks f).any fun h => trim (U.lower h) = U.lower (trim n)
      | .startsWith =>
        ((ruleSubject m).haystacks f).any fun h => (U.lower (trim n)).isPrefixOf (Text.trimStart (U.lower h))
      | .endsWith =>
        ((ruleSubject m).haystacks f).any fun h => (U.lower (trim n)).isSuffixOf (trimEnd (U.lower h))) := by
  have hempty : (U.lower (trim n)).isEmpty = false := by simpa using U.lower_ne_nil hne
  unfold holds
  simp only [hempty, Bool.false_eq_true, if_false]
  cases op <;> simp only [any_map, Function.comp_def]

/-- What starts with the needle up to ASCII case starts with it here. -/
theorem prefix_lower (hne : n ≠ []) (hn : Trimmed isWhitespace n) (hright : U.openRight n = false)
    {before x v : Str} (hb : ∀ c ∈ before, isWhitespace c = true) (hx : asciiLower x = asciiLower n) :
    U.lower n <+: Text.trimStart (U.lower (before ++ (x ++ v))) := by
  have hnear : U.casedNear before.reverse = false := U.casedNear_spaces (by simpa using hb)
  have hlow : U.lower (before ++ (x ++ v)) =
      before ++ (U.lower n ++ U.lowerIn (x.reverse ++ before.reverse) v []) := by
    rw [U.lower_append, U.lowerIn_space hb, U.lowerIn_append, lowerIn_folded hx _ fun _ => hright]
    intro hc
    rw [hnear] at hc
    cases hc
  have hstart : (U.lower n ++ U.lowerIn (x.reverse ++ before.reverse) v []).dropWhile isWhitespace =
      U.lower n ++ U.lowerIn (x.reverse ++ before.reverse) v [] := by
    have htrim := (U.lowerIn_trimmed hn [] []).1
    cases hl : U.lower n with
    | nil => exact absurd hl (U.lower_ne_nil hne)
    | cons c l =>
      have hc : isWhitespace c = false := htrim c (by unfold Casing.lower at hl; rw [hl]; rfl)
      rw [cons_append, dropWhile_cons_of_neg (by simp [hc])]
  rw [hlow, Text.trimStart, dropWhile_append_of_pos hb, hstart]
  exact prefix_append _ _

/-- What ends with the needle up to ASCII case ends with it here. -/
theorem suffix_lower (hne : n ≠ []) (hn : Trimmed isWhitespace n) (hleft : U.openLeft n = false)
    {u x after : Str} (ha : ∀ c ∈ after, isWhitespace c = true) (hx : asciiLower x = asciiLower n) :
    U.lower n <:+ trimEnd (U.lower (u ++ (x ++ after))) := by
  have hnear : U.casedNear after = false := U.casedNear_spaces ha
  have hlow : U.lower (u ++ (x ++ after)) = U.lowerIn [] u (x ++ after) ++ U.lower n ++ after := by
    rw [U.lower_append, U.lowerIn_append, append_nil, lowerIn_folded hx (fun _ => hleft) _, U.lowerIn_space ha, append_assoc]
    intro hc
    rw [hnear] at hc
    cases hc
  have hend : (U.lowerIn [] u (x ++ after) ++ U.lower n).rdropWhile isWhitespace =
      U.lowerIn [] u (x ++ after) ++ U.lower n := by
    rw [rdropWhile_eq_self_iff]
    intro hne'
    rw [getLast_append_of_right_ne_nil _ _ (U.lower_ne_nil hne)]
    have htrim := (U.lowerIn_trimmed hn [] []).2
    have := htrim _ (getLast?_eq_some_getLast (U.lower_ne_nil hne))
    simp [this]
  rw [hlow, trimEnd, rdropWhile_append_blank ha, hend]
  exact suffix_append _ _

/-- What is the needle up to ASCII case, white space at its ends aside, is the needle here. -/
theorem trim_lower (hn : Trimmed isWhitespace n) {before x after : Str}
    (hb : ∀ c ∈ before, isWhitespace c = true) (ha : ∀ c ∈ after, isWhitespace c = true)
    (hx : asciiLower x = asciiLower n) : trim (U.lower (before ++ (x ++ after))) = U.lower n := by
  have hlow : U.lower x = U.lower n := U.lowerIn_asciiEq hx rfl []
  have htrim : Trimmed isWhitespace (U.lower n) := U.lowerIn_trimmed hn [] []
  rw [lower_space_append hb, lower_append_space ha, hlow, trim_eq_trimBy, trimBy_blank_append hb]
  exact trimBy_append_blank ha htrim

end Here

/-! ## Where the server's test is broader -/

section Narrow

variable {U : Casing} {n : Str}

/-- A message with one correspondent in the field, or with that name for its subject. -/
def Message.one (f : Field) (p : Correspondent) : Message :=
  match f with
  | .from_ => ⟨p, [], [], []⟩
  | .to_ => ⟨⟨[], []⟩, [p], [], []⟩
  | .cc => ⟨⟨[], []⟩, [], [p], []⟩
  | .recipient => ⟨⟨[], []⟩, [p], [], []⟩
  | .subject => ⟨⟨[], []⟩, [], [], p.name⟩

theorem haystacks_one (f : Field) (p : Correspondent) :
    (ruleSubject (Message.one f p)).haystacks f = [if f = .subject then p.name else p.offered] := by
  cases f <;> rfl

theorem not_several_one (f : Field) (p : Correspondent) : ¬ Several (Message.one f p) f := by
  rintro ⟨h, hh, h2⟩
  cases f with
  | recipient =>
    simp only [headerNames, mem_cons, not_mem_nil, or_false] at hh
    rcases hh with rfl | rfl
    · simp [Message.people, Message.one] at h2
    · simp [Message.people, Message.one] at h2
  | _ =>
    simp only [headerNames, mem_singleton] at hh
    subst hh
    simp [Message.people, Message.one] at h2

/-- The text stands, in lower case, in something the field offers here. -/
def FoundLower (U : Casing) (n : Str) (m : Message) (f : Field) : Prop :=
  ∃ h ∈ (ruleSubject m).haystacks f, U.lower n <:+: U.lower h

theorem foundLower_one (hne : n ≠ []) (hn : Trimmed isWhitespace n) (f : Field) (t : Str) :
    FoundLower U n (Message.one f ⟨t, []⟩) f ↔ U.lower n <:+: U.lower t := by
  have hsp : ∀ c ∈ [' '], isWhitespace c = true := by simp [isWhitespace]
  rw [FoundLower, haystacks_one]
  simp only [mem_singleton, exists_eq_left]
  split
  · rfl
  · have ho : U.lower (Correspondent.offered ⟨t, []⟩) = U.lower t ++ [' '] := by
      rw [Correspondent.offered, append_nil, lower_append_space hsp]
    rw [ho]
    constructor
    · intro h
      exact infix_of_blank_ends (U.lower_ne_nil hne) (U.lowerIn_trimmed hn [] []) (forall_mem_nil _) hsp h
    · exact fun h => h.trans (prefix_append _ _).isInfix

theorem foundFolded_one (hne : n ≠ []) (hn : Trimmed isWhitespace n) (f : Field) (t : Str) :
    FoundFolded n (Message.one f ⟨t, []⟩) f ↔ asciiLower n <:+: asciiLower t := by
  rw [FoundFolded, haystacks_one]
  simp only [mem_singleton, exists_eq_left]
  split
  · rfl
  · have ho : asciiLower (Correspondent.offered ⟨t, []⟩) = asciiLower t ++ [' '] := by
      simp [Correspondent.offered, asciiLower]
    have hne' : asciiLower n ≠ [] := fun he => hne (map_eq_nil_iff.mp he)
    rw [ho]
    constructor
    · intro h
      exact infix_of_blank_ends hne' (Trimmed.asciiLower hn) (forall_mem_nil _) (by simp [isWhitespace]) h
    · exact fun h => h.trans (prefix_append _ _).isInfix

theorem infix_asciiLower_append (n u v : Str) : asciiLower n <:+: asciiLower (u ++ (n ++ v)) :=
  ⟨asciiLower u, asciiLower v, by simp [asciiLower]⟩

/-- A message to two correspondents without name or address. -/
theorem comma_not_found {f : Field} (hf : f ≠ .subject ∧ f ≠ .from_) : ∃ m, Several m f ∧ ¬ FoundLower U [','] m f := by
  have hsp : ∀ c ∈ [' '], isWhitespace c = true := by simp [isWhitespace]
  have hspace : U.lower [' '] = [' '] := U.lowerIn_space hsp [] []
  have hcomma : U.lower [','] = [','] :=
    U.lowerIn_fixed (by simpa using U.ascii ',' (by decide)) [] []
  have hno : ∀ m : Message, (∀ h ∈ (ruleSubject m).haystacks f, h = [' ']) → ¬ FoundLower U [','] m f := by
    rintro m hall ⟨h, hh, hin⟩
    rw [hall h hh, hspace, hcomma] at hin
    exact absurd (infix_eq_of_length hin (by simp)) (by decide)
  let two : List Correspondent := [⟨[], []⟩, ⟨[], []⟩]
  cases f with
  | subject => exact absurd rfl hf.1
  | from_ => exact absurd rfl hf.2
  | to_ =>
    refine ⟨⟨⟨[], []⟩, two, [], []⟩, ⟨"to", by simp [headerNames], by simp [Message.people, two]⟩, hno _ ?_⟩
    simp [ruleSubject, Subject.haystacks, two, Correspondent.offered]
  | cc =>
    refine ⟨⟨⟨[], []⟩, [], two, []⟩, ⟨"cc", by simp [headerNames], by simp [Message.people, two]⟩, hno _ ?_⟩
    simp [ruleSubject, Subject.haystacks, two, Correspondent.offered]
  | recipient =>
    refine ⟨⟨⟨[], []⟩, two, [], []⟩, ⟨"to", by simp [headerNames], by simp [Message.people, two]⟩, hno _ ?_⟩
    simp [ruleSubject, Subject.haystacks, two, Correspondent.offered]

theorem contains_narrow_iff (hne : n ≠ []) (hn : Trimmed isWhitespace n) (f : Field) :
    (∀ m, FoundFolded n m f ∨ (n = [','] ∧ Several m f) → FoundLower U n m f) ↔
      U.openLeft n = false ∧ U.openRight n = false ∧ (n = [','] → f = .subject ∨ f = .from_) := by
  constructor
  · intro h
    have hfold : ∀ t, asciiLower n <:+: asciiLower t → U.lower n <:+: U.lower t := fun t ht =>
      (foundLower_one hne hn f t).mp (h _ (.inl ((foundFolded_one hne hn f t).mpr ht)))
    refine ⟨?_, ?_, ?_⟩
    · by_contra ho
      obtain ⟨x, -, hx⟩ := Casing.exists_openLeft hne (by simpa using ho)
      exact hx (hfold (x :: n) (by simpa using infix_asciiLower_append n [x] []))
    · by_contra ho
      obtain ⟨x, -, hx⟩ := Casing.exists_openRight hne (by simpa using ho)
      exact hx (hfold (n ++ [x]) (by simpa using infix_asciiLower_append n [] [x]))
    · intro hcomma
      by_contra hf
      rw [not_or] at hf
      obtain ⟨m, hs, hno⟩ := comma_not_found (U := U) hf
      rw [← hcomma] at hno
      exact hno (h m (.inr ⟨hcomma, hs⟩))
  · rintro ⟨hleft, hright, hcomma⟩ m (⟨t, ht, hin⟩ | ⟨hc, hs⟩)
    · exact ⟨t, ht, lower_infix hleft hright hin⟩
    · exfalso
      obtain ⟨h, hh, h2⟩ := hs
      rcases hcomma hc with rfl | rfl
      · simp only [headerNames, mem_singleton] at hh
        subst hh
        simp [Message.people] at h2
      · simp only [headerNames, mem_singleton] at hh
        subst hh
        simp [Message.people] at h2

theorem notContains_narrow_iff (hne : n ≠ []) (hn : Trimmed isWhitespace n) (f : Field) :
    (∀ m, ¬ (FoundFolded n m f ∨ (n = [','] ∧ Several m f)) → ¬ FoundLower U n m f) ↔
      (∀ x ∈ n, U.Plain x) ∧ ¬ U.OtherSpelling (asciiLower n) := by
  constructor
  · intro h
    by_contra hno
    obtain ⟨t, hlow, hfold⟩ := Casing.exists_otherSpelling hno
    refine h (Message.one f ⟨t, []⟩) ?_ ((foundLower_one hne hn f t).mpr hlow)
    rintro (hin | ⟨-, hs⟩)
    · exact hfold ((foundFolded_one hne hn f t).mp hin)
    · exact not_several_one f _ hs
  · rintro ⟨hplain, ho⟩ m hserver ⟨t, ht, hin⟩
    exact hserver (.inl ⟨t, ht, Casing.infix_asciiLower hne hplain ho hin⟩)

/-! ## The other operators -/

/-- What is sought starts the value, once the white space ignored is gone. -/
theorem server_startsWith {blank : Char → Bool} (n : Str) (m : Message) :
    evalTest blank m.mail (.header .matches (headerNames .subject) [literalPattern n ++ "*"]) = true ↔
      ∃ x v, trimBy blank m.subject = x ++ v ∧ asciiLower x = asciiLower n := by
  have hkey := Oreneta.Sieve.matches_prefix n (trimBy blank m.subject)
  rw [literalPattern_eq, ← hkey]
  simp [evalTest, headerNames, Message.mail, keyMatches]

theorem server_endsWith {blank : Char → Bool} (n : Str) (m : Message) :
    evalTest blank m.mail (.header .matches (headerNames .subject) ["*" ++ literalPattern n]) = true ↔
      ∃ u x, trimBy blank m.subject = u ++ x ∧ asciiLower x = asciiLower n := by
  have hkey := Oreneta.Sieve.matches_suffix n (trimBy blank m.subject)
  rw [literalPattern_eq, ← hkey]
  simp [evalTest, headerNames, Message.mail, keyMatches]

theorem server_addressEnds {blank : Char → Bool} (n : Str) (m : Message) (f : Field) :
    evalTest blank m.mail (.address .matches (headerNames f) ["*" ++ literalPattern n]) = true ↔
      ∃ h ∈ headerNames f, ∃ p ∈ m.people h, ∃ u x, p.addr = u ++ x ∧ asciiLower x = asciiLower n := by
  have hkey : ∀ a, keyMatches .matches ("*" ++ literalPattern n) a = true ↔
      ∃ u x, a = u ++ x ∧ asciiLower x = asciiLower n := fun a => by
    rw [literalPattern_eq]
    exact Oreneta.Sieve.matches_suffix n a
  simp only [evalTest, any_eq_true, mem_singleton, exists_eq_left, Message.mail, mem_map, hkey, exists_exists_and_eq_and]

theorem server_is {blank : Char → Bool} (n : Str) (m : Message) :
    evalTest blank m.mail (.header .is (headerNames .subject) [n]) = true ↔
      asciiLower (trimBy blank m.subject) = asciiLower n := by
  simp [evalTest, headerNames, Message.mail, keyMatches]

theorem trimBy_of_trimmed {blank : Char → Bool} (hblank : ∀ c, blank c = true → isWhitespace c = true) {s : Str}
    (h : Trimmed isWhitespace s) : trimBy blank s = s := by
  have hno : ∀ c, isWhitespace c = false → blank c = false := by
    intro c hc
    by_contra hb
    rw [hblank c (by simpa using hb)] at hc
    cases hc
  exact trimBy_eq_self ⟨fun c hc => hno c (h.1 c hc), fun c hc => hno c (h.2 c hc)⟩

theorem trimmed_cons {x : Char} (hx : isWhitespace x = false) (hne : n ≠ []) (hn : Trimmed isWhitespace n) :
    Trimmed isWhitespace (x :: n) := by
  constructor
  · intro c hc
    rw [head?_cons, Option.mem_some_iff] at hc
    rwa [← hc]
  · intro c hc
    rw [getLast?_cons_of_ne_nil hne] at hc
    exact hn.2 c hc

theorem trimmed_concat {x : Char} (hx : isWhitespace x = false) (hne : n ≠ []) (hn : Trimmed isWhitespace n) :
    Trimmed isWhitespace (n ++ [x]) := by
  constructor
  · intro c hc
    rw [head?_append_of_ne_nil _ hne] at hc
    exact hn.1 c hc
  · intro c hc
    rw [getLast?_concat, Option.mem_some_iff] at hc
    rwa [← hc]

theorem startsWith_narrow_iff {blank : Char → Bool} (hblank : ∀ c, blank c = true → isWhitespace c = true)
    (hne : n ≠ []) (hn : Trimmed isWhitespace n) :
    (∀ m : Message, (∃ x v, trimBy blank m.subject = x ++ v ∧ asciiLower x = asciiLower n) →
      U.lower n <+: Text.trimStart (U.lower m.subject)) ↔ U.openRight n = false := by
  constructor
  · intro h
    by_contra ho
    obtain ⟨x, hx, hno⟩ := Casing.exists_openRight hne (by simpa using ho)
    have hself := trimBy_of_trimmed hblank (trimmed_concat (isWhitespace_of_isAlpha hx) hne hn)
    have hp := h ⟨⟨[], []⟩, [], [], n ++ [x]⟩ ⟨n, [x], hself, rfl⟩
    exact hno (hp.isInfix.trans (dropWhile_suffix _).isInfix)
  · rintro hright m ⟨x, v, htrim, hx⟩
    obtain ⟨before, after, hs, hb, -⟩ := trimBy_split blank m.subject
    rw [htrim, append_assoc] at hs
    rw [hs]
    exact prefix_lower hne hn hright (fun c hc => hblank c (hb c hc)) hx

theorem endsWith_narrow_iff {blank : Char → Bool} (hblank : ∀ c, blank c = true → isWhitespace c = true)
    (hne : n ≠ []) (hn : Trimmed isWhitespace n) :
    (∀ m : Message, (∃ u x, trimBy blank m.subject = u ++ x ∧ asciiLower x = asciiLower n) →
      U.lower n <:+ trimEnd (U.lower m.subject)) ↔ U.openLeft n = false := by
  constructor
  · intro h
    by_contra ho
    obtain ⟨x, hx, hno⟩ := Casing.exists_openLeft hne (by simpa using ho)
    have hself := trimBy_of_trimmed hblank (trimmed_cons (isWhitespace_of_isAlpha hx) hne hn)
    have hp := h ⟨⟨[], []⟩, [], [], x :: n⟩ ⟨[x], n, hself, rfl⟩
    exact hno (hp.isInfix.trans (List.rdropWhile_prefix _ _).isInfix)
  · rintro hleft m ⟨u, x, htrim, hx⟩
    obtain ⟨before, after, hs, -, ha⟩ := trimBy_split blank m.subject
    rw [htrim, append_assoc, ← append_assoc] at hs
    rw [hs]
    exact suffix_lower hne hn hleft (fun c hc => hblank c (ha c hc)) hx

/-- An address that ends with the needle, last in what the field offers here. -/
theorem addressEnds_narrow_iff (hne : n ≠ []) (hn : Trimmed isWhitespace n) {f : Field} (hf : f ≠ .subject) : (∀ m : Message,
      (∃ h ∈ headerNames f, ∃ p ∈ m.people h, ∃ u x, p.addr = u ++ x ∧ asciiLower x = asciiLower n) →
        ∃ h ∈ (ruleSubject m).haystacks f, U.lower n <:+ trimEnd (U.lower h)) ↔
      U.openLeft n = false := by
  have hsp : ∀ c ∈ [' '], isWhitespace c = true := by simp [isWhitespace]
  constructor
  · intro h
    by_contra ho
    obtain ⟨x, hx, hno⟩ := Casing.exists_openLeft hne (by simpa using ho)
    let p : Correspondent := ⟨[], x :: n⟩
    have hhay := haystacks_one f p
    have hserver : ∃ h ∈ headerNames f, ∃ q ∈ (Message.one f p).people h, ∃ u x, q.addr = u ++ x ∧
        asciiLower x = asciiLower n := by
      refine ⟨(headerNames f).head (by cases f <;> simp [headerNames]), head_mem _, p, ?_, [x], n, rfl, rfl⟩
      cases f with
      | subject => exact absurd rfl hf
      | _ => simp [headerNames, Message.people, Message.one]
    obtain ⟨t, ht, hs⟩ := h _ hserver
    rw [hhay, if_neg hf, mem_singleton] at ht
    have hlow : U.lower t = [' '] ++ U.lower (x :: n) := by
      rw [ht, ← lower_space_append hsp]
      rfl
    rw [hlow] at hs
    have hin : U.lower n <:+: [' '] ++ U.lower (x :: n) :=
      hs.isInfix.trans (List.rdropWhile_prefix _ _).isInfix
    have htrim : Trimmed isWhitespace (U.lower n) := U.lowerIn_trimmed hn [] []
    exact hno (infix_of_blank_append (U.lower_ne_nil hne) htrim.1 hsp hin)
  · rintro hleft m ⟨h, hh, p, hp, u, x, ha, hx⟩
    refine ⟨p.offered, ?_, ?_⟩
    · rw [haystacks_people hf]
      exact mem_flatMap.mpr ⟨h, hh, mem_map.mpr ⟨p, hp, rfl⟩⟩
    · have hnil : ∀ c ∈ ([] : Str), isWhitespace c = true := forall_mem_nil _
      have hsuf := suffix_lower (U := U) hne hn hleft (u := p.name ++ [' '] ++ u) hnil hx
      rw [append_nil] at hsuf
      rw [Correspondent.offered, ha, ← append_assoc]
      exact hsuf

theorem is_narrow {blank : Char → Bool} (hblank : ∀ c, blank c = true → isWhitespace c = true)
    (hn : Trimmed isWhitespace n) {m : Message} (h : asciiLower (trimBy blank m.subject) = asciiLower n) :
    trim (U.lower m.subject) = U.lower n := by
  obtain ⟨before, after, hs, hb, ha⟩ := trimBy_split blank m.subject
  rw [hs]
  exact trim_lower hn (fun c hc => hblank c (hb c hc)) (fun c hc => hblank c (ha c hc)) h

end Narrow

/-! ## Every condition -/

theorem foundLower_iff {U : Casing} {n : Str} {m : Message} {f : Field} :
    (((ruleSubject m).haystacks f).any fun h => Text.contains (U.lower h) (U.lower n)) = true ↔
      FoundLower U n m f := by
  rw [FoundLower, any_eq_true]
  simp only [contains_iff]

/-- **The conditions that are never broader on the server**: the comma aside, a condition on what is found is
never broader unless a capital sigma at an end of the text sought takes its form from what stands around it;
a negated one is never broader if the text sought is spelled, up to ASCII case, in one way. -/
theorem test_narrow_iff (U : Casing) (blank : Char → Bool)
    (hblank : ∀ x, blank x = true → isWhitespace x = true) (c : Condition) (text : Str) (h : test c = .ok text) :
    (∀ m : Message, serverHolds blank text m = true → holds U.lower c (ruleSubject m) = true) ↔
      ServerNarrow U c := by
  obtain ⟨hne, hbare, hops⟩ := testable_of_ok h
  have htrim : Trimmed isWhitespace (trim c.value) := by
    rw [trim_eq_trimBy]
    exact trimBy_trimmed isWhitespace c.value
  obtain ⟨f, op, value⟩ := c
  simp only [serverHolds_eq h, holds_eq hne, ServerNarrow, testSyntax]
  cases op with
  | contains =>
    simp only [server_contains hblank hne htrim hbare, foundLower_iff]
    exact contains_narrow_iff hne htrim f
  | notContains =>
    have hserver : ∀ m : Message, evalTest blank m.mail (.not (.header .contains (headerNames f) [trim value])) = true ↔
        ¬ (FoundFolded (trim value) m f ∨ (trim value = [','] ∧ Several m f)) := by
      intro m
      rw [← server_contains hblank hne htrim hbare]
      simp [evalTest]
    simp only [hserver, Bool.not_eq_true', ← Bool.not_eq_true, foundLower_iff]
    exact notContains_narrow_iff hne htrim f
  | is =>
    have hf : f = .subject := by
      by_contra hf
      exact (hops hf).1 rfl
    subst hf
    simp only [server_is, iff_true]
    intro m hm
    simp [ruleSubject, Subject.haystacks, is_narrow hblank htrim hm]
  | startsWith =>
    have hf : f = .subject := by
      by_contra hf
      exact (hops hf).2 rfl
    subst hf
    simp only [server_startsWith, any_eq_true, List.isPrefixOf_iff_prefix]
    simpa [ruleSubject, Subject.haystacks] using startsWith_narrow_iff hblank hne htrim
  | endsWith =>
    by_cases hf : f = .subject
    · subst hf
      simp only [if_true, server_endsWith, any_eq_true, isSuffixOf_iff_suffix]
      simpa [ruleSubject, Subject.haystacks] using endsWith_narrow_iff hblank hne htrim
    · simp only [if_neg hf, server_addressEnds, any_eq_true, isSuffixOf_iff_suffix]
      exact addressEnds_narrow_iff hne htrim hf

/-- The letter case of ASCII, of `É` and of the sigmas. -/
def fewLetters : Casing where
  lowerChar c := if c.toNat < 128 then [c.toLower] else if c = 'É' then ['é'] else if c = 'Σ' then ['σ'] else [c]
  cased c := c.isAlpha || ['É', 'é', 'Σ', 'σ', 'ς'].contains c
  caseIgnorable c := ['\'', '.', ':', '^'].contains c
  ascii c h := by rw [if_pos h]
  ne_nil c := by
    split_ifs <;> exact cons_ne_nil _ _
  fixed c d hd := by
    split_ifs at hd with h1 h2 h3
    · rw [mem_singleton] at hd
      have hlt : d.toNat < 128 := by
        rcases Casing.toLower_cases c with he | ⟨-, -, -, he⟩
        · rw [hd, he]
          exact h1
        · rw [hd]
          exact he
      rw [if_pos hlt, hd, Casing.toLower_toLower]
    · rw [mem_singleton.mp hd]
      decide
    · rw [mem_singleton.mp hd]
      decide
    · rw [mem_singleton.mp hd, if_neg h1, if_neg h2, if_neg h3]
  sigma := by decide
  finalSigma := by decide
  letter c h := by
    refine ⟨by rw [h]; rfl, ?_⟩
    by_contra hi
    have hm : c ∈ ['\'', '.', ':', '^'] := contains_iff_mem.mp (by simpa only [Bool.not_eq_false] using hi)
    simp only [mem_cons, not_mem_nil, or_false] at hm
    rcases hm with rfl | rfl | rfl | rfl <;> exact absurd h (by decide)
  sigmaCased := by decide
  space c h := by
    have hal : c.isAlpha = false := by
      by_contra ha
      rw [isWhitespace_of_isAlpha (by simpa using ha)] at h
      cases h
    have hother : ∀ x, isWhitespace x = false → c ≠ x := by
      rintro x hx rfl
      rw [h] at hx
      cases hx
    have hE := hother 'É' rfl
    have hS := hother 'Σ' rfl
    refine ⟨?_, ?_, ?_⟩
    · rw [if_neg hE, if_neg hS]
      split_ifs
      · rcases Casing.toLower_cases c with he | ⟨he, -, -, -⟩
        · rw [he]
        · rw [hal] at he
          cases he
      · rfl
    · simp [hal, hE, hS, hother 'é' rfl, hother 'σ' rfl, hother 'ς' rfl]
    · simp [hother '\'' rfl, hother '.' rfl, hother ':' rfl, hother '^' rfl]
  nonspace c h d hd := by
    split_ifs at hd
    · rw [mem_singleton.mp hd, isWhitespace_toLower]
      exact h
    · rw [mem_singleton.mp hd]
      rfl
    · rw [mem_singleton.mp hd]
      rfl
    · rw [mem_singleton.mp hd]
      exact h

/-- A condition that never is broader on the server. -/
theorem hello_narrow : ServerNarrow fewLetters ⟨.subject, .contains, "hello"⟩ ∧
      ((∀ m : Message, serverHolds (fun x => x = ' ') "header :contains \"subject\" \"hello\"" m = true →
        holds fewLetters.lower ⟨.subject, .contains, "hello"⟩ (ruleSubject m) = true) ↔
      ServerNarrow fewLetters ⟨.subject, .contains, "hello"⟩) :=
  ⟨⟨by decide, by decide, fun h => absurd h (by decide)⟩,
    test_narrow_iff fewLetters (fun x => x = ' ') (fun x hx => by rw [of_decide_eq_true hx]; rfl) _ _ (by decide)⟩

/-- **A negated condition is broader on the server for a letter outside ASCII**: a message about a `café` does
not carry a `CAFÉ` there, and does here. -/
theorem cafe_broader : test ⟨.subject, .notContains, "CAFÉ"⟩ = .ok "not header :contains \"subject\" \"CAFÉ\"" ∧
      serverHolds (fun x => x = ' ') "not header :contains \"subject\" \"CAFÉ\"" ⟨⟨[], "a@b.c"⟩, [], [], "the café"⟩ = true ∧
      holds fewLetters.lower ⟨.subject, .notContains, "CAFÉ"⟩ (ruleSubject ⟨⟨[], "a@b.c"⟩, [], [], "the café"⟩) = false := by
  refine ⟨by decide +kernel, by decide +kernel, by decide +kernel⟩

end Oreneta.Rules.Sieve

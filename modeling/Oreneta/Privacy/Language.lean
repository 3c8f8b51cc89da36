import Mathlib.Data.List.Infix
import Oreneta.Privacy.Filters

/-!
# The language of a rule

What a rule says of an address, and what matching finds of it.

* `Derives` — what a list of tokens reads of a text; `Rule.Language` — the addresses of a rule: they have an allowed start
  from which the tokens read a part, or all the rest.
* `matchFrom_iff` — matching from one place.
* `counted_or_overlaps` — an occurrence of a literal is one of those that are tried, or begins inside of one.
* `matches_iff` — a rule matches its language exactly if no match is lost to an occurrence that was stepped over.
-/

namespace Oreneta.Privacy

open List

/-! ## The language -/

/-- The tokens read a text up to what is left of it. -/
inductive Derives : List Token → Str → Str → Prop where
  | done (place : Str) : Derives [] place place
  | lit {tokens : List Token} {place rest : Str} (text : Str) (h : Derives tokens place rest) :
      Derives (.lit text :: tokens) (text ++ place) rest
  | star {tokens : List Token} {place rest : Str} (any : Str) (h : Derives tokens place rest) :
      Derives (.star :: tokens) (any ++ place) rest
  | sep {tokens : List Token} {place rest : Str} {c : Char} (hc : isSeparator c = true) (h : Derives tokens place rest) :
      Derives (.sep :: tokens) (c :: place) rest
  /-- The end of the address stands for a separator. -/
  | sepEnd {tokens : List Token} {rest : Str} (h : Derives tokens [] rest) : Derives (.sep :: tokens) [] rest

/-- The tokens read a part of what stands at a place; all of it, if the pattern ends there. -/
def Accepts (tokens : List Token) (place : Str) (endAnchor : Bool) : Prop :=
  ∃ rest, Derives tokens place rest ∧ (endAnchor = true → rest = [])

/-- The address goes on with `rest` behind the first `://`. -/
def BehindScheme (url rest : Str) : Prop :=
  ∃ scheme, url = scheme ++ ("://" ++ rest) ∧
    ∀ before after, url = before ++ ("://" ++ after) → scheme.length ≤ before.length

/-- The start of the host, or a place behind a dot of it; the host ends at the first of `/`, `?`, `#` and `:`. -/
def HostStart (url place : Str) : Prop :=
  ∃ rest, BehindScheme url rest ∧
    (place = rest ∨ ∃ labels, rest = labels ++ '.' :: place ∧ ∀ c ∈ labels, endsHost c = false)

/-- Where a rule may start. -/
def Rule.Start (rule : Rule) (url place : Str) : Prop :=
  if rule.hostAnchor then HostStart url place else if rule.startAnchor then place = url else place <:+ url

def Rule.Language (rule : Rule) (url : Str) : Prop :=
  ∃ place, rule.Start url place ∧ Accepts rule.tokens place rule.endAnchor

/-! ## Matching from one place -/

/-- **Matching from a place** decides what the tokens read there. -/
theorem matchFrom_iff (endAnchor : Bool) : ∀ (tokens : List Token) (place : Str),
    matchFrom tokens place endAnchor = true ↔ Accepts tokens place endAnchor
  | [], place => by
    rw [matchFrom, Bool.or_eq_true, Bool.not_eq_true', List.isEmpty_iff]
    constructor
    · intro h
      refine ⟨place, .done place, fun he => ?_⟩
      exact h.resolve_left fun hf => by rw [he] at hf; cases hf
    · rintro ⟨rest, h, hend⟩
      cases h
      cases endAnchor with
      | false => exact .inl rfl
      | true => exact .inr (hend rfl)
  | .lit text :: tokens, place => by
    rw [matchFrom, Bool.and_eq_true, matchFrom_iff endAnchor tokens, List.isPrefixOf_iff_prefix]
    constructor
    · rintro ⟨⟨tail, rfl⟩, rest, h, hend⟩
      rw [drop_left] at h
      exact ⟨rest, .lit text h, hend⟩
    · rintro ⟨rest, h, hend⟩
      cases h with
      | lit _ h => exact ⟨prefix_append _ _, rest, by rwa [drop_left], hend⟩
  | .sep :: tokens, [] => by
    rw [matchFrom, matchFrom_iff endAnchor tokens]
    constructor
    · rintro ⟨rest, h, hend⟩
      exact ⟨rest, .sepEnd h, hend⟩
    · rintro ⟨rest, h, hend⟩
      cases h with
      | sepEnd h => exact ⟨rest, h, hend⟩
  | .sep :: tokens, c :: place => by
    rw [matchFrom, Bool.and_eq_true, matchFrom_iff endAnchor tokens]
    constructor
    · rintro ⟨hc, rest, h, hend⟩
      exact ⟨rest, .sep hc h, hend⟩
    · rintro ⟨rest, h, hend⟩
      cases h with
      | sep hc h => exact ⟨hc, rest, h, hend⟩
  | .star :: tokens, place => by
    rw [matchFrom, any_eq_true]
    constructor
    · rintro ⟨tail, htail, hmatch⟩
      obtain ⟨any, rfl⟩ := (mem_tails _ _).mp htail
      obtain ⟨rest, h, hend⟩ := (matchFrom_iff endAnchor tokens tail).mp hmatch
      exact ⟨rest, .star any h, hend⟩
    · rintro ⟨rest, h, hend⟩
      cases h with
      | star any h =>
        refine ⟨_, (mem_tails _ _).mpr (suffix_append any _), ?_⟩
        exact (matchFrom_iff endAnchor tokens _).mpr ⟨rest, h, hend⟩

/-! ## Where a rule may start -/

theorem afterScheme_iff : ∀ {url rest : Str}, afterScheme url = some rest ↔ BehindScheme url rest
  | [], rest => by
    refine iff_of_false (fun h => by cases h) ?_
    rintro ⟨scheme, h, -⟩
    have := congrArg List.length h
    simp at this
  | c :: url, rest => by
    rw [afterScheme]
    by_cases hpre : "://" <+: c :: url
    · rw [if_pos (List.isPrefixOf_iff_prefix.mpr hpre), Option.some.injEq]
      obtain ⟨tail, htail⟩ := hpre
      have hdrop : (c :: url).drop 3 = tail := by rw [← htail]; rfl
      rw [hdrop]
      constructor
      · rintro rfl
        exact ⟨[], htail.symm, fun _ _ _ => Nat.zero_le _⟩
      · rintro ⟨scheme, hurl, hfirst⟩
        have hnil : scheme = [] := length_eq_zero_iff.mp (Nat.le_zero.mp (hfirst [] tail htail.symm))
        rw [hnil, nil_append, ← htail] at hurl
        exact append_cancel_left hurl
    · rw [if_neg fun h => hpre (List.isPrefixOf_iff_prefix.mp h), afterScheme_iff]
      constructor
      · rintro ⟨scheme, rfl, hfirst⟩
        refine ⟨c :: scheme, rfl, fun before after hb => ?_⟩
        cases before with
        | nil => exact absurd ⟨after, hb.symm⟩ hpre
        | cons d before =>
          have := hfirst before after (List.cons.inj hb).2
          simpa using this
      · rintro ⟨scheme, hurl, hfirst⟩
        cases scheme with
        | nil => exact absurd ⟨rest, hurl.symm⟩ hpre
        | cons d scheme =>
          refine ⟨scheme, (List.cons.inj hurl).2, fun before after hb => ?_⟩
          have := hfirst (c :: before) after (by rw [hb]; rfl)
          simpa using this

theorem mem_dotStarts : ∀ {host place : Str}, place ∈ dotStarts host ↔
    ∃ labels, host = labels ++ '.' :: place ∧ ∀ c ∈ labels, endsHost c = false
  | [], place => by
    refine iff_of_false not_mem_nil ?_
    rintro ⟨labels, h, -⟩
    exact absurd h.symm (by simp)
  | c :: host, place => by
    rw [dotStarts]
    by_cases hend : endsHost c = true
    · rw [if_pos hend]
      refine iff_of_false not_mem_nil ?_
      rintro ⟨labels, h, hlabels⟩
      cases labels with
      | nil =>
        rw [nil_append, List.cons.injEq] at h
        rw [h.1] at hend
        exact absurd hend (by decide)
      | cons d labels =>
        have hd := hlabels d mem_cons_self
        rw [← (List.cons.inj h).1, hend] at hd
        cases hd
    · rw [if_neg hend]
      have hlater : (∃ labels, c :: host = (c :: labels) ++ '.' :: place ∧ ∀ x ∈ c :: labels, endsHost x = false) ↔
          place ∈ dotStarts host := by
        rw [mem_dotStarts]
        refine exists_congr fun labels => ?_
        rw [cons_append, List.cons.injEq, forall_mem_cons]
        simp [hend]
      constructor
      · intro h
        have hcases : place = host ∧ c = '.' ∨ place ∈ dotStarts host := by
          split at h
          · rename_i hc
            rcases mem_cons.mp h with h | h
            · exact .inl ⟨h, hc⟩
            · exact .inr h
          · exact .inr h
        rcases hcases with ⟨rfl, rfl⟩ | h
        · exact ⟨[], rfl, forall_mem_nil _⟩
        · obtain ⟨labels, hh⟩ := hlater.mpr h
          exact ⟨c :: labels, hh⟩
      · rintro ⟨labels, h, hlabels⟩
        cases labels with
        | nil =>
          obtain ⟨rfl, rfl⟩ := List.cons.inj h
          rw [if_pos rfl]
          exact mem_cons_self
        | cons d labels =>
          have hd : d = c := (List.cons.inj h).1.symm
          have hin := hlater.mp ⟨labels, hd ▸ h, hd ▸ hlabels⟩
          split
          · exact mem_cons_of_mem _ hin
          · exact hin

theorem mem_hostStarts {url place : Str} : place ∈ hostStarts url ↔ HostStart url place := by
  unfold hostStarts HostStart
  simp only [← afterScheme_iff, ← mem_dotStarts]
  cases afterScheme url with
  | none => simp
  | some rest => simp

/-! ## The occurrences that are tried -/

theorem matchPlaces_sound : ∀ {text url place : Str} {skip : Nat}, place ∈ matchPlaces text skip url →
    place <:+ url ∧ text <+: place
  | text, [], place, skip, h => by
    rw [matchPlaces] at h
    split at h
    · rename_i hempty
      rw [mem_singleton.mp h, List.isEmpty_iff.mp hempty]
      exact ⟨suffix_refl _, prefix_refl _⟩
    · cases h
  | text, c :: url, place, skip + 1, h => by
    rw [matchPlaces] at h
    obtain ⟨hsuffix, hpre⟩ := matchPlaces_sound h
    exact ⟨hsuffix.trans (suffix_cons c url), hpre⟩
  | text, c :: url, place, 0, h => by
    rw [matchPlaces] at h
    have hlater : ∀ {skip : Nat}, place ∈ matchPlaces text skip url → place <:+ c :: url ∧ text <+: place := by
      intro skip h
      obtain ⟨hsuffix, hpre⟩ := matchPlaces_sound h
      exact ⟨hsuffix.trans (suffix_cons c url), hpre⟩
    split at h
    · rename_i hpre
      rcases mem_cons.mp h with rfl | h
      · exact ⟨suffix_refl _, List.isPrefixOf_iff_prefix.mp hpre⟩
      · exact hlater h
    · exact hlater h

/-- An occurrence that begins inside of one that is tried. -/
def SteppedOver (text url place : Str) : Prop :=
  text <+: place ∧ ∃ first ≠ [], first.length < text.length ∧ first ++ place ∈ matchPlaces text 0 url

theorem counted_or_skipped {text place : Str} (hpre : text <+: place) : ∀ {url : Str} {skip : Nat}, place <:+ url →
    place ∈ matchPlaces text skip url ∨
      (∃ first ≠ [], first.length < text.length ∧ first ++ place ∈ matchPlaces text skip url) ∨
        ∃ first, url = first ++ place ∧ first.length < skip
  | [], skip, h => by
    have hnil := suffix_nil.mp h
    rw [hnil] at hpre ⊢
    have htext := prefix_nil.mp hpre
    refine .inl ?_
    rw [matchPlaces, htext]
    exact mem_singleton_self _
  | c :: url, skip + 1, h => by
    rw [matchPlaces]
    rcases suffix_cons_iff.mp h with rfl | h
    · exact .inr (.inr ⟨[], rfl, Nat.succ_pos _⟩)
    · rcases counted_or_skipped hpre h with hin | hin | ⟨first, rfl, hlen⟩
      · exact .inl hin
      · exact .inr (.inl hin)
      · exact .inr (.inr ⟨c :: first, rfl, Nat.succ_lt_succ hlen⟩)
  | c :: url, 0, h => by
    rw [matchPlaces]
    by_cases hhere : text <+: c :: url
    · rw [if_pos (List.isPrefixOf_iff_prefix.mpr hhere)]
      rcases suffix_cons_iff.mp h with rfl | h
      · exact .inl mem_cons_self
      · rcases counted_or_skipped hpre h with hin | ⟨first, hne, hlen, hin⟩ | ⟨first, rfl, hlen⟩
        · exact .inl (mem_cons_of_mem _ hin)
        · exact .inr (.inl ⟨first, hne, hlen, mem_cons_of_mem _ hin⟩)
        · -- the rest of the occurrence here
          refine .inr (.inl ⟨c :: first, cons_ne_nil _ _, ?_, mem_cons_self⟩)
          rw [length_cons]
          omega
    · rw [if_neg fun hp => hhere (List.isPrefixOf_iff_prefix.mp hp)]
      rcases suffix_cons_iff.mp h with rfl | h
      · exact absurd hpre hhere
      · rcases counted_or_skipped hpre h with hin | hin | ⟨first, -, hlen⟩
        · exact .inl hin
        · exact .inr (.inl hin)
        · exact absurd hlen (Nat.not_lt_zero _)

/-- **An occurrence of a literal** is tried, or begins inside of one that is. -/
theorem counted_or_overlaps {text url place : Str} (hsuffix : place <:+ url) (hpre : text <+: place) :
    place ∈ matchPlaces text 0 url ∨ SteppedOver text url place := by
  rcases counted_or_skipped hpre hsuffix with h | h | ⟨first, -, hlen⟩
  · exact .inl h
  · exact .inr ⟨hpre, h⟩
  · exact absurd hlen (Nat.not_lt_zero _)

/-! ## The language and the matches -/

/-- **A rule matches its language** exactly if it is anchored at its start, or begins with a wildcard, or no match that begins
inside of a tried occurrence of its first literal is the only one. -/
theorem matches_iff (rule : Rule) (url : Str) : (rule.matches url = true ↔ rule.Language url) ↔
    (rule.hostAnchor = true ∨ rule.startAnchor = true ∨ ∀ text tokens, rule.tokens = .lit text :: tokens →
      ∀ place, SteppedOver text url place → Accepts rule.tokens place rule.endAnchor →
        ∃ place' ∈ matchPlaces text 0 url, Accepts rule.tokens place' rule.endAnchor) := by
  unfold Rule.matches Rule.Language Rule.Start
  by_cases hhost : rule.hostAnchor = true
  · rw [if_pos hhost, any_eq_true]
    simp only [hhost, if_true, mem_hostStarts, matchFrom_iff, true_or]
  by_cases hstart : rule.startAnchor = true
  · rw [if_neg hhost, if_pos hstart, matchFrom_iff]
    simp [hhost, hstart]
  have hwild : ∀ tokens, (url.tails.any fun place => matchFrom tokens place rule.endAnchor) = true ↔
      ∃ place, place <:+ url ∧ Accepts tokens place rule.endAnchor := by
    intro tokens
    rw [any_eq_true]
    simp only [mem_tails, matchFrom_iff]
  simp only [hhost, hstart, false_or, if_false, Bool.false_eq_true]
  cases htokens : rule.tokens with
  | nil => exact iff_of_true (hwild []) fun _ _ h => by cases h
  | cons token tokens =>
    cases token with
    | star => exact iff_of_true (hwild _) fun _ _ h => by cases h
    | sep => exact iff_of_true (hwild _) fun _ _ h => by cases h
    | lit text =>
      have htried : ((matchPlaces text 0 url).any fun place => matchFrom (.lit text :: tokens) place rule.endAnchor) = true ↔
          ∃ place ∈ matchPlaces text 0 url, Accepts (.lit text :: tokens) place rule.endAnchor := by
        rw [any_eq_true]
        simp only [matchFrom_iff]
      dsimp only
      rw [htried]
      constructor
      · rintro h text' tokens' he place hover haccepts
        cases he
        obtain ⟨-, first, -, -, hin⟩ := hover
        exact h.mpr ⟨place, (suffix_append first place).trans (matchPlaces_sound hin).1, haccepts⟩
      · intro h
        constructor
        · rintro ⟨place, hin, haccepts⟩
          exact ⟨place, (matchPlaces_sound hin).1, haccepts⟩
        · rintro ⟨place, hsuffix, haccepts⟩
          have hpre : text <+: place := by
            obtain ⟨rest, hread, -⟩ := haccepts
            cases hread with
            | lit _ _ => exact prefix_append _ _
          rcases counted_or_overlaps hsuffix hpre with hin | hover
          · exact ⟨place, hin, haccepts⟩
          · exact h text tokens rfl place hover haccepts

/-- Letters that come again inside of their own occurrence. -/
def overlapping : Str := "aba^"

def overlappingAddress : Str := "http://h/ababa/"

/-- The rule is read, the address is one of its language, and it is not matched. -/
theorem overlapping_missed : ∃ rule, parseRule ⟨fun c => [c.toLower], Text.asciiLower⟩ overlapping = some (false, rule) ∧
    rule.Language overlappingAddress ∧ rule.matches overlappingAddress = false := by
  refine ⟨⟨overlapping, false, false, false, [.lit "aba", .sep], false⟩, by decide, ?_, by decide⟩
  exact ⟨"aba/", ⟨"http://h/ab", by decide⟩, [], .lit "aba" (.sep (by decide) (.done [])), fun h => by cases h⟩

end Oreneta.Privacy

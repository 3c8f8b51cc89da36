import Oreneta.Html.Policy

/-!
# Where the policy stands

A browser heeds a policy that stands in the head of the document.  `Governed` says that of a document: only
tags of the document itself come before the policy, the last of them the head's, and no markup of the message.

* `Sanitized` — what the library's sanitizer gives back: text without `<`, tags of its list, style sheets.
* `Begins` — how such a text begins; it is kept by whatever is put in after the end of a tag (`Begins.graft`).
* `governed_iff` — a message is governed exactly when its sanitized text is free of `<head` and `<html`.
* `header_ungoverned` — a message with a `header` element is not.
-/

namespace Oreneta.Html

open Text List Bool

/-! ## Letters and digits -/

theorem isAlphanum_toLower {c : Char} (h : c.isAlphanum = true) : c.toLower.isAlphanum = true := by
  delta Char.toLower
  split
  · rename_i hupper
    have hlo : 65 ≤ c.toNat := hupper.1
    have hhi : c.toNat ≤ 90 := hupper.2
    have hshift : ('a'.val - 'A'.val).toNat = 32 := by decide
    simp only [Char.isAlphanum, isAlpha_eq, isUpper_eq, isLower_eq, Char.isDigit, or_eq_true,
      and_eq_true, decide_eq_true_eq, UInt32.le_iff_toNat_le, ge_iff_le, UInt32.toNat_add]
    simp
    omega
  · exact h

theorem toLower_of_not_alphanum {c : Char} (h : c.isAlphanum = false) : c.toLower = c := by
  delta Char.toLower
  split
  · rename_i hupper
    simp [Char.isAlphanum, isAlpha_eq, isUpper_eq] at h
    exact absurd hupper.2 (by simpa using h.1.1 hupper.1)
  · rfl

theorem not_alphanum_of_whitespace {c : Char} (h : isWhitespace c = true) : c.isAlphanum = false := by
  simp only [isWhitespace, Char.isAlphanum, isAlpha_eq, isUpper_eq, isLower_eq, Char.isDigit, or_eq_true,
    and_eq_true, decide_eq_true_eq, UInt32.le_iff_toNat_le, ge_iff_le, Char.toNat, or_eq_false_iff,
    and_eq_false_iff, decide_eq_false_iff_not] at *
  simp at *
  omega

/-- The name a text begins with: its letters and digits, up to a character that is neither. -/
theorem takeWhile_name {name rest : Str} {c : Char} (hname : ∀ x ∈ name, x.isAlphanum = true)
    (hc : c.isAlphanum = false) : (name ++ c :: rest).takeWhile Char.isAlphanum = name := by
  rw [takeWhile_append_of_pos hname, takeWhile_cons_of_neg (by simp [hc]), append_nil]

/-! ## Documents a policy governs -/

/-- `<name>` or `<name …>`, in any case. -/
def IsTag (name tag : Str) : Prop :=
  ∃ inside rest, tag = '<' :: (inside ++ ['>']) ∧ asciiLower inside = name ++ rest ∧ '>' ∉ inside ∧
    ∀ c ∈ rest.head?, isWhitespace c = true ∨ c = '/'

/-- The tags that open a document's head: a doctype, the document's tag and the head's own, then other metas. -/
def HeadOpened (own : Str) : Prop :=
  ∃ doctype document head more, own = doctype ++ (document ++ (head ++ more)) ∧
    (doctype = [] ∨ IsTag "!doctype" doctype) ∧ (document = [] ∨ IsTag "html" document) ∧
    IsTag "head" head ∧ (more = [] ∨ IsTag "meta" more)

/-- The policy stands in the head of the document, and nothing of the message before it. -/
def Governed (document policy : Str) : Prop := ∃ own rest, document = own ++ (policy ++ rest) ∧ HeadOpened own

/-! ## What the sanitizer gives back -/

/-- A piece of sanitized text. -/
inductive Piece where
  | text (shown : Str)
  | opening (name : Str) (attrs : List (Str × Str))
  | closing (name : Str)
  /-- A `<style>` element: its text is written as it is. -/
  | sheet (attrs : List (Str × Str)) (css : Str)
  deriving DecidableEq, Repr

def attrsText (attrs : List (Str × Str)) : Str :=
  attrs.flatMap (fun a => ' ' :: (a.1 ++ ("=\"" ++ (a.2 ++ ['"']))))

def Piece.render : Piece → Str
  | .text shown => shown
  | .opening name attrs => '<' :: (name ++ (attrsText attrs ++ ['>']))
  | .closing name => "</" ++ (name ++ ['>'])
  | .sheet attrs css => "<style" ++ (attrsText attrs ++ ('>' :: (css ++ "</style>")))

/-- The names of allowed tags: letters and digits, and none of the document's own. -/
def AllowedName (name : Str) : Prop :=
  name ≠ [] ∧ (∀ c ∈ name, c.isAlphanum = true) ∧
    asciiLower name ≠ "html" ∧ asciiLower name ≠ "head" ∧ asciiLower name ≠ "body"

def Piece.Allowed : Piece → Prop
  | .text shown => shown ≠ [] ∧ '<' ∉ shown
  | .opening name attrs => AllowedName name ∧ ∀ a ∈ attrs, '"' ∉ a.2
  | .closing name => AllowedName name
  | .sheet attrs css => (∀ a ∈ attrs, '"' ∉ a.2) ∧ ¬ "</style" <:+: asciiLower css

instance (name : Str) : Decidable (AllowedName name) := inferInstanceAs (Decidable (_ ∧ _))

instance : DecidablePred Piece.Allowed
  | .text shown => inferInstanceAs (Decidable (shown ≠ [] ∧ '<' ∉ shown))
  | .opening name attrs => inferInstanceAs (Decidable (AllowedName name ∧ ∀ a ∈ attrs, '"' ∉ a.2))
  | .closing name => inferInstanceAs (Decidable (AllowedName name))
  | .sheet attrs css =>
    inferInstanceAs (Decidable ((∀ a ∈ attrs, '"' ∉ a.2) ∧ ¬ "</style" <:+: asciiLower css))

/-- The sanitizer's output: escaped text and allowed tags, attribute values in double quotes. -/
def Sanitized (html : Str) : Prop :=
  ∃ pieces : List Piece, html = pieces.flatMap Piece.render ∧ ∀ piece ∈ pieces, piece.Allowed

/-! ## How a sanitized text begins -/

/-- A text that is empty, or begins with no `<`, or with `<`, a name that is not the document's own (or none)
and a character that ends it. -/
def Begins (html : Str) : Prop :=
  html = [] ∨ (∃ c s, html = c :: s ∧ c ≠ '<') ∨
    ∃ name c s, html = '<' :: (name ++ c :: s) ∧ (∀ x ∈ name, x.isAlphanum = true) ∧ c.isAlphanum = false ∧
      c ≠ '!' ∧ asciiLower name ≠ "html" ∧ asciiLower name ≠ "head"

/-- How the text of a tag goes on after its name. -/
theorem attrsText_cons (attrs : List (Str × Str)) (rest : Str) :
    ∃ c s, attrsText attrs ++ '>' :: rest = c :: s ∧ (c = ' ' ∨ c = '>') := by
  cases attrs with
  | nil => exact ⟨'>', rest, rfl, .inr rfl⟩
  | cons a attrs =>
    refine ⟨' ', a.1 ++ ("=\"" ++ (a.2 ++ ['"'])) ++ attrsText attrs ++ '>' :: rest, ?_, .inl rfl⟩
    simp only [attrsText, flatMap_cons, cons_append]

theorem Piece.Allowed.begins {piece : Piece} (h : piece.Allowed) (rest : Str) : Begins (piece.render ++ rest) := by
  have hends : ∀ {c : Char}, c = ' ' ∨ c = '>' → c.isAlphanum = false ∧ c ≠ '!' := by
    rintro c (rfl | rfl) <;> decide
  cases piece with
  | text shown =>
    obtain ⟨hne, hlt⟩ := h
    cases shown with
    | nil => exact absurd rfl hne
    | cons c s => exact .inr (.inl ⟨c, s ++ rest, rfl, fun he => hlt (he ▸ mem_cons_self)⟩)
  | opening name attrs =>
    obtain ⟨⟨-, halnum, hhtml, hhead, -⟩, -⟩ := h
    obtain ⟨c, s, hcs, hc⟩ := attrsText_cons attrs rest
    refine .inr (.inr ⟨name, c, s, ?_, halnum, (hends hc).1, (hends hc).2, hhtml, hhead⟩)
    rw [← hcs]
    simp [Piece.render]
  | closing name => exact .inr (.inr ⟨[], '/', name ++ '>' :: rest, by simp [Piece.render], by simp, by decide,
      by decide, by decide, by decide⟩)
  | sheet attrs css =>
    obtain ⟨c, s, hcs, hc⟩ := attrsText_cons attrs (css ++ ("</style>" ++ rest))
    refine .inr (.inr ⟨"style", c, s, ?_, by decide +kernel, (hends hc).1, (hends hc).2, by decide +kernel, by decide +kernel⟩)
    rw [← hcs]
    simp [Piece.render]

variable {html : Str}

theorem Sanitized.begins (h : Sanitized html) : Begins html := by
  obtain ⟨pieces, rfl, hpieces⟩ := h
  cases pieces with
  | nil => exact .inl rfl
  | cons piece pieces =>
    rw [flatMap_cons]
    exact (hpieces piece mem_cons_self).begins _

/-- Whatever follows the end of a tag, the text begins as it did: its first name ends before that. -/
theorem Begins.graft {before rest other : Str} (h : Begins (before ++ '>' :: rest)) : Begins (before ++ '>' :: other) := by
  cases before with
  | nil => exact .inr (.inl ⟨'>', other, rfl, by decide⟩)
  | cons b before =>
    rcases h with h | ⟨c, s, he, hc⟩ | ⟨name, c, s, he, halnum, hc, hbang, hhtml, hhead⟩
    · cases h
    · rw [cons_append, List.cons.injEq] at he
      exact .inr (.inl ⟨b, _, rfl, he.1 ▸ hc⟩)
    · rw [cons_append, List.cons.injEq] at he
      obtain ⟨rfl, he⟩ := he
      have hgt : '>' ∉ name := fun hm => absurd (halnum _ hm) (by decide)
      -- the name is a prefix of what stands before the `>`, or all of it
      rcases append_eq_append_iff.mp he with ⟨m, hm, hcs⟩ | ⟨m, hm, hgs⟩
      · cases m with
        | nil =>
          rw [append_nil] at hm
          exact .inr (.inr ⟨name, '>', other, by rw [hm, cons_append], halnum, by decide, by decide, hhtml, hhead⟩)
        | cons x m =>
          rw [cons_append, List.cons.injEq] at hcs
          exact absurd (hcs.1 ▸ hm ▸ mem_append_right before mem_cons_self) hgt
      · cases m with
        | nil =>
          rw [append_nil] at hm
          exact .inr (.inr ⟨name, '>', other, by rw [hm, cons_append], halnum, by decide, by decide, hhtml, hhead⟩)
        | cons x m =>
          rw [cons_append, List.cons.injEq] at hgs
          obtain ⟨rfl, -⟩ := hgs
          exact .inr (.inr ⟨name, c, m ++ '>' :: other, by rw [hm]; simp, halnum, hc, hbang, hhtml, hhead⟩)

theorem Begins.rewritten (h : Begins html) (rewriteCss : Str → Str × List Blocked) :
    Begins (rewriteStyleElements rewriteCss html).1 := by
  unfold rewriteStyleElements
  split
  · exact h
  · rename_i opened body hopen
    obtain ⟨o, rfl, rfl⟩ := afterTag_some hopen
    rw [append_assoc] at h
    split
    · simp only [append_assoc]
      exact h.graft
    · simp only [append_assoc]
      exact h.graft

/-- A text that begins so begins with no tag of the document's own. -/
theorem Begins.not_tag {name tag rest : Str} (h : Begins (tag ++ rest)) (htag : IsTag name tag)
    (hname : name = "!doctype" ∨ name = "html" ∨ name = "head") : False := by
  obtain ⟨inside, attrs, rfl, hlower, -, hends⟩ := htag
  rcases h with h | ⟨c, s, he, hc⟩ | ⟨own, c, s, he, halnum, hc, hbang, hhtml, hhead⟩
  · cases h
  · rw [cons_append, List.cons.injEq] at he
    exact hc he.1.symm
  · have he' : asciiLower (inside ++ ['>'] ++ rest) = asciiLower (own ++ c :: s) := by
      rw [cons_append, List.cons.injEq] at he
      exact congrArg asciiLower he.2
    have hown : ∀ x ∈ asciiLower own, x.isAlphanum = true := by
      intro x hx
      obtain ⟨y, hy, rfl⟩ := mem_map.mp hx
      exact isAlphanum_toLower (halnum y hy)
    -- what follows the tag's name is no letter and no digit
    obtain ⟨d, after, hafter, hd⟩ : ∃ d after, attrs ++ asciiLower (['>'] ++ rest) = d :: after ∧
        d.isAlphanum = false := by
      cases attrs with
      | nil => exact ⟨'>', asciiLower rest, rfl, by decide⟩
      | cons d attrs =>
        refine ⟨d, attrs ++ asciiLower (['>'] ++ rest), rfl, ?_⟩
        rcases hends d rfl with hw | rfl
        · exact not_alphanum_of_whitespace hw
        · decide
    have heq : name ++ d :: after = asciiLower own ++ c :: asciiLower s := by
      rw [← hafter, ← append_assoc, ← hlower]
      simpa [asciiLower, toLower_of_not_alphanum hc] using he'
    rcases hname with rfl | hname
    · cases hcase : asciiLower own with
      | nil =>
        rw [hcase] at heq
        exact hbang (List.cons.inj heq).1.symm
      | cons x own' =>
        rw [hcase] at heq hown
        have hx : x = '!' := (List.cons.inj heq).1.symm
        exact absurd (hown x mem_cons_self) (by rw [hx]; decide)
    · have halnum' : ∀ x ∈ name, x.isAlphanum = true := by
        rcases hname with rfl | rfl <;> decide +kernel
      have hsame := congrArg (List.takeWhile Char.isAlphanum) heq
      rw [takeWhile_name halnum' hd, takeWhile_name hown hc] at hsame
      rcases hname with rfl | rfl
      · exact hhtml hsame.symm
      · exact hhead hsame.symm

/-- The first of the tags that open a head. -/
theorem HeadOpened.first {own : Str} (h : HeadOpened own) : ∃ name tag rest, own = tag ++ rest ∧ IsTag name tag ∧
    (name = "!doctype" ∨ name = "html" ∨ name = "head") := by
  obtain ⟨doctype, document, head, more, rfl, hdoctype, hdocument, hhead, -⟩ := h
  rcases hdoctype with rfl | hdoctype
  · rcases hdocument with rfl | hdocument
    · exact ⟨_, head, more, rfl, hhead, .inr (.inr rfl)⟩
    · exact ⟨_, document, head ++ more, rfl, hdocument, .inr (.inl rfl)⟩
  · exact ⟨_, doctype, document ++ (head ++ more), rfl, hdoctype, .inl rfl⟩

theorem Begins.ungoverned {document : Str} (h : Begins document) (policy : Str) : ¬ Governed document policy := by
  rintro ⟨own, rest, rfl, hown⟩
  obtain ⟨name, tag, more, rfl, htag, hname⟩ := hown.first
  rw [append_assoc] at h
  exact h.not_tag htag hname

/-! ## Where the head is put -/

/-- Neither `<head` nor `<html` stands in the text with a `>` somewhere after it. -/
def HeadFree (html : Str) : Prop :=
  ∀ before found, html = before ++ found →
    ("<head" <+: asciiLower found ∨ "<html" <+: asciiLower found) → '>' ∉ found

theorem headFree_iff : HeadFree html ↔ afterTag "<head" html = none ∧ afterTag "<html" html = none := by
  rw [afterTag_eq_none (by decide), afterTag_eq_none (by decide)]
  constructor
  · intro h
    exact ⟨fun before found he hp => h before found he (.inl hp), fun before found he hp => h before found he (.inr hp)⟩
  · rintro ⟨hhead, hhtml⟩ before found he (hp | hp)
    · exact hhead before found he hp
    · exact hhtml before found he hp

/-- The tags put around a text open a head. -/
theorem headOpened_own : HeadOpened ("<!doctype html><html><head>" ++ "<meta charset=\"utf-8\">") := by
  have hdoctype : IsTag "!doctype" "<!doctype html>" :=
    ⟨"!doctype html", " html", rfl, by decide +kernel, by decide +kernel, by decide +kernel⟩
  have hdocument : IsTag "html" "<html>" :=
    ⟨"html", [], rfl, by decide +kernel, by decide +kernel, by decide +kernel⟩
  have hhead : IsTag "head" "<head>" :=
    ⟨"head", [], rfl, by decide +kernel, by decide +kernel, by decide +kernel⟩
  have hmeta : IsTag "meta" "<meta charset=\"utf-8\">" :=
    ⟨"meta charset=\"utf-8\"", " charset=\"utf-8\"", rfl, by decide +kernel, by decide +kernel, by decide +kernel⟩
  exact ⟨_, _, _, _, by decide, .inr hdoctype, .inr hdocument, hhead, .inr hmeta⟩

/-- Put around a text that has no place for it, the head is the document's own. -/
theorem governed_around (h : HeadFree html) (loadRemoteImages : Bool) :
    Governed (injectHead html (head loadRemoteImages)) (policyMeta loadRemoteImages) := by
  obtain ⟨hhead, hhtml⟩ := headFree_iff.mp h
  have hinjected : injectHead html (head loadRemoteImages) =
      "<!doctype html><html><head>" ++ (head loadRemoteImages ++ ("</head><body>" ++ (html ++ "</body></html>"))) := by
    rw [injectHead, hhead, hhtml]
  refine ⟨_, imageStyle ++ ("</head><body>" ++ (html ++ "</body></html>")), ?_, headOpened_own⟩
  rw [hinjected]
  unfold head
  rw [append_assoc, append_assoc, append_assoc]

/-- Put into the text, it stands after markup of the message. -/
theorem Begins.injected {headExtra : Str} (h : Begins html) (hfree : ¬ HeadFree html) : Begins (injectHead html headExtra) := by
  unfold injectHead
  split
  · rename_i own rest hplace
    obtain ⟨o, rfl, rfl⟩ := afterTag_some hplace
    rw [append_assoc] at h ⊢
    exact h.graft
  · rename_i hhead
    split
    · rename_i own rest hplace
      obtain ⟨o, rfl, rfl⟩ := afterTag_some hplace
      rw [append_assoc] at h ⊢
      exact h.graft
    · rename_i hhtml
      exact absurd (headFree_iff.mpr ⟨hhead, hhtml⟩) hfree

theorem Begins.sanitized {clean : Cleaner} {source : Str} {trackers : Option Trackers}
    (h : Begins (clean (attributeFilter trackers) source).1) : Begins (sanitizeEmailHtmlWith clean source trackers).1 := by
  cases trackers with
  | none => exact h
  | some list => exact h.rewritten list.rewriteCss

/-- **Which messages the policy governs.** -/
theorem governed_iff (clean : Cleaner) (source : Str) (loadRemoteImages : Bool) (trackers : Option Trackers)
    (h : Sanitized (clean (attributeFilter trackers) source).1) :
    Governed (prepareHtmlAgainst clean source loadRemoteImages trackers).1 (policyMeta loadRemoteImages) ↔
      HeadFree (sanitizeEmailHtmlWith clean source trackers).1 := by
  constructor
  · intro hgoverned
    by_contra hfree
    exact (h.begins.sanitized.injected hfree).ungoverned _ hgoverned
  · intro hfree
    exact governed_around hfree loadRemoteImages

/-- A sanitizer that leaves its text as it is. -/
def unchanged : Cleaner := fun _ source => (source, [])

theorem governed_paragraph : Governed (prepareHtmlAgainst unchanged "<p>hi</p>" false none).1 (policyMeta false) ↔
    HeadFree "<p>hi</p>" :=
  governed_iff unchanged "<p>hi</p>" false none
    ⟨[.opening "p" [], .text "hi", .closing "p"], by decide +kernel, by decide +kernel⟩

/-- An allowed element whose name begins like the head's: the head is put inside it. -/
theorem header_ungoverned : Sanitized "<header>x</header>" ∧
    ¬ Governed (prepareHtmlAgainst unchanged "<header>x</header>" false none).1 (policyMeta false) := by
  have hpieces : Sanitized "<header>x</header>" :=
    ⟨[.opening "header" [], .text "x", .closing "header"], by decide +kernel, by decide +kernel⟩
  refine ⟨hpieces, (hpieces.begins.injected ?_).ungoverned _⟩
  intro hfree
  exact absurd (hfree [] "<header>x</header>" rfl (.inl (by decide))) (by decide)

end Oreneta.Html

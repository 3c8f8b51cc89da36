import Oreneta.Lib.Casing
import Oreneta.Privacy.Filters

/-!
# Style sheets

`css_unescape` and `rewrite_css`: the addresses a style sheet would fetch, and what becomes of those a list blocks.

* `nextFetch`, `skipWhite`, `target` — the parts of one round of the loop.
* `scan` — what the rounds come to; nothing where a slice begins inside of a character.
* `rewriteCss` — the style sheet with every blocked target replaced.
-/

namespace Oreneta.Privacy

open Text List
open Oreneta.Text (Casing)

def lowercaseOf (U : Casing) : Lowercase := ⟨U.lowerChar, U.lower⟩

/-! ## Escapes -/

def isHexDigit (c : Char) : Bool := c.isDigit || ('a' ≤ c && c ≤ 'f') || ('A' ≤ c && c ≤ 'F')

def hexValue (c : Char) : Nat :=
  if c.isDigit then c.toNat - '0'.toNat else if 'a' ≤ c then c.toNat - 'a'.toNat + 10 else c.toNat - 'A'.toNat + 10

/-- The character of hexadecimal digits, if there is one. -/
def decodeHex (hex : Str) : Str :=
  let n := hex.foldl (fun n c => 16 * n + hexValue c) 0
  if n.isValidChar then [Char.ofNat n] else []

/-- `css_unescape`; behind a backslash with the hexadecimal digits that have been read. -/
def unescapeFrom : Option Str → Str → Str
  | none, [] => []
  | none, c :: text => if c = '\\' then unescapeFrom (some []) text else c :: unescapeFrom none text
  | some hex, [] => if hex.isEmpty then [] else decodeHex hex
  | some hex, c :: text =>
    if hex.length < 6 && isHexDigit c then unescapeFrom (some (hex ++ [c])) text
    else if hex.isEmpty then c :: unescapeFrom none text
    else if isWhitespace c then decodeHex hex ++ unescapeFrom none text
    else decodeHex hex ++ (if c = '\\' then unescapeFrom (some []) text else c :: unescapeFrom none text)

def cssUnescape (text : Str) : Str := unescapeFrom none text

/-! ## One round -/

/-- The length of the keyword that stands at a place, in any case. -/
def keywordAt (css : Str) : Option Nat :=
  if "url(".toList.isPrefixOf (asciiLower css) then some 4
  else if "@import".toList.isPrefixOf (asciiLower css) then some 7
  else none

/-- The first keyword: the text up to its end, its length, and the rest. -/
def nextFetch : Str → Option (Str × Nat × Str)
  | [] => none
  | c :: css =>
    match keywordAt (c :: css) with
    | some skip => some ((c :: css).take skip, skip, (c :: css).drop skip)
    | none => (nextFetch css).map (fun (front, skip, rest) => (c :: front, skip, rest))

/-- The white space at a place, byte by byte: behind the first byte of a longer character no slice begins. -/
def skipWhite : Str → Option (Str × Str)
  | [] => some ([], [])
  | c :: css =>
    if isWhitespace c then
      if c.utf8Size = 1 then (skipWhite css).map (fun (white, place) => (c :: white, place)) else none
    else some ([], c :: css)

def endsTarget (c : Char) : Bool := c = ')' || c = ';' || isWhitespace c

structure Target where
  /-- The quote, if there is one. -/
  opening : Str
  value : Str
  /-- The quote again. -/
  closing : Str
  rest : Str
  deriving DecidableEq, Repr

def target : Str → Target
  | [] => ⟨[], [], [], []⟩
  | c :: css =>
    if c = '"' || c = '\'' then
      let behind := css.dropWhile (fun x => x ≠ c)
      ⟨[c], css.takeWhile (fun x => x ≠ c), behind.take 1, behind.drop 1⟩
    else ⟨[], (c :: css).takeWhile (fun x => !endsTarget x), [], (c :: css).dropWhile (fun x => !endsTarget x)⟩

/-! ## The loop -/

/-- What a round comes to. -/
inductive Fetch where
  /-- `@import url(`: the white space is kept, and the `url(` is read on its own. -/
  | pass (front white : Str)
  | load (front white opening value closing : Str)
  deriving DecidableEq, Repr

/-- A keyword, in any case. -/
def Keyword (keyword : Str) (skip : Nat) : Prop :=
  Text.asciiLower keyword = "url(" ∧ skip = 4 ∨ Text.asciiLower keyword = "@import" ∧ skip = 7

theorem Keyword.length {keyword : Str} {skip : Nat} (h : Keyword keyword skip) : keyword.length = skip := by
  have hmap : (Text.asciiLower keyword).length = keyword.length := length_map ..
  rcases h with ⟨h, rfl⟩ | ⟨h, rfl⟩
  · rw [← hmap, h]
    rfl
  · rw [← hmap, h]
    rfl

theorem keywordAt_iff {css : Str} {skip : Nat} : keywordAt css = some skip ↔ Keyword (css.take skip) skip := by
  have htake : ∀ word : Str, word.isPrefixOf (Text.asciiLower css) = true ↔ Text.asciiLower (css.take word.length) = word := by
    intro word
    unfold Text.asciiLower
    rw [List.isPrefixOf_iff_prefix, prefix_iff_eq_take, map_take, eq_comm]
  have hurl := htake "url("
  have himport := htake "@import"
  unfold keywordAt Keyword
  constructor
  · intro h
    split at h
    · rename_i hpre
      cases h
      exact .inl ⟨hurl.mp hpre, rfl⟩
    · split at h
      · rename_i hpre
        cases h
        exact .inr ⟨himport.mp hpre, rfl⟩
      · cases h
  · rintro (⟨h, rfl⟩ | ⟨h, rfl⟩)
    · rw [if_pos (hurl.mpr h)]
    · have hno : ¬ "url(".toList.isPrefixOf (Text.asciiLower css) = true := by
        intro hpre
        obtain ⟨tail, htail⟩ := List.isPrefixOf_iff_prefix.mp hpre
        obtain ⟨tail', htail'⟩ := List.isPrefixOf_iff_prefix.mp (himport.mpr h)
        rw [← htail'] at htail
        exact absurd (List.cons.inj htail).1 (by decide)
      rw [if_neg hno, if_pos (himport.mpr h)]

theorem nextFetch_split : ∀ {css front rest : Str} {skip : Nat}, nextFetch css = some (front, skip, rest) →
    css = front ++ rest ∧ ∃ before keyword, front = before ++ keyword ∧ Keyword keyword skip
  | [], _, _, _, h => by cases h
  | c :: css, front, rest, skip, h => by
    rw [nextFetch] at h
    split at h
    · rename_i skip' hkey
      cases h
      exact ⟨(take_append_drop _ _).symm, [], _, rfl, keywordAt_iff.mp hkey⟩
    · obtain ⟨⟨front', skip', rest'⟩, hnext, he⟩ := Option.map_eq_some_iff.mp h
      cases he
      obtain ⟨rfl, before, keyword, rfl, hkeyword⟩ := nextFetch_split hnext
      exact ⟨rfl, c :: before, keyword, rfl, hkeyword⟩

theorem nextFetch_length {css front rest : Str} {skip : Nat} (h : nextFetch css = some (front, skip, rest)) :
    rest.length < css.length := by
  obtain ⟨rfl, before, keyword, rfl, hkeyword⟩ := nextFetch_split h
  have hlen := hkeyword.length
  have hpos : 0 < skip := by
    rcases hkeyword with ⟨-, rfl⟩ | ⟨-, rfl⟩
    · decide
    · decide
  rw [length_append, length_append]
  omega

theorem skipWhite_split : ∀ {css white place : Str}, skipWhite css = some (white, place) →
    css = white ++ place ∧ ∀ c ∈ white, Text.isWhitespace c = true ∧ c.utf8Size = 1
  | [], _, _, h => by
    cases h
    exact ⟨rfl, forall_mem_nil _⟩
  | c :: css, white, place, h => by
    rw [skipWhite] at h
    split at h
    · rename_i hspace
      split at h
      · rename_i hsize
        obtain ⟨⟨white', place'⟩, hskip, he⟩ := Option.map_eq_some_iff.mp h
        cases he
        obtain ⟨rfl, hwhite⟩ := skipWhite_split hskip
        exact ⟨rfl, forall_mem_cons.mpr ⟨⟨hspace, hsize⟩, hwhite⟩⟩
      · cases h
    · cases h
      exact ⟨rfl, forall_mem_nil _⟩

theorem target_quote {c : Char} (hc : (c = '"' || c = '\'') = true) (css : Str) : target (c :: css) =
    ⟨[c], css.takeWhile (fun x => x ≠ c), (css.dropWhile (fun x => x ≠ c)).take 1, (css.dropWhile (fun x => x ≠ c)).drop 1⟩ := by
  rw [target, if_pos hc]

theorem target_plain {c : Char} (hc : ¬ (c = '"' || c = '\'') = true) (css : Str) : target (c :: css) =
    ⟨[], (c :: css).takeWhile (fun x => !endsTarget x), [], (c :: css).dropWhile (fun x => !endsTarget x)⟩ := by
  rw [target, if_neg hc]

theorem target_split : ∀ place : Str, place =
    (target place).opening ++ ((target place).value ++ ((target place).closing ++ (target place).rest))
  | [] => rfl
  | c :: css => by
    by_cases hc : (c = '"' || c = '\'') = true
    · rw [target_quote hc]
      dsimp only
      rw [take_append_drop, takeWhile_append_dropWhile]
      rfl
    · rw [target_plain hc]
      dsimp only
      rw [nil_append, nil_append, takeWhile_append_dropWhile]

theorem target_length (place : Str) : (target place).rest.length ≤ place.length := by
  conv_rhs => rw [target_split place]
  simp only [length_append]
  omega

/-- The rounds over a style sheet and what no round copies; nothing if a slice begins inside of a character. -/
def scan (css : Str) : Option (List Fetch × Str) :=
  match hnext : nextFetch css with
  | none => some ([], css)
  | some (front, skip, rest) =>
    match hskip : skipWhite rest with
    | none => none
    | some (white, place) =>
      have hrest : place.length < css.length := by
        have hlen := nextFetch_length hnext
        have hle := congrArg List.length (skipWhite_split hskip).1
        rw [length_append] at hle
        omega
      if skip = 7 ∧ "url(".toList.isPrefixOf (asciiLower place) = true then
        (scan place).map (fun (rounds, tail) => (.pass front white :: rounds, tail))
      else
        have htarget := target_length place
        (scan (target place).rest).map (fun (rounds, tail) =>
          (.load front white (target place).opening (target place).value (target place).closing :: rounds, tail))
  termination_by css.length
  decreasing_by
  · exact hrest
  · omega

structure Blocked where
  url : Str
  rule : Str
  deriving DecidableEq, Repr

variable (lc : Lowercase) (set : FilterSet)

/-- The text a round comes from. -/
def Fetch.css : Fetch → Str
  | .pass front white => front ++ white
  | .load front white opening value closing => front ++ (white ++ (opening ++ (value ++ closing)))

/-- The address a round looks up, as the browser would read it. -/
def Fetch.url : Fetch → Option Str
  | .pass _ _ => none
  | .load _ _ _ value _ => some (cssUnescape value)

def Fetch.blocked (fetch : Fetch) : Option Blocked :=
  fetch.url.bind (fun url => (set.blockingRule lc url).map (fun rule => ⟨url, rule⟩))

/-- What a round writes. -/
def Fetch.written : Fetch → Str
  | .pass front white => front ++ white
  | .load front _ opening value closing =>
    front ++ (opening ++ ((if (set.blockingRule lc (cssUnescape value)).isSome then "data:,".toList else value) ++ closing))

/-- `rewrite_css`: the style sheet that is written, and what was blocked in it. -/
def rewriteCss (css : Str) : Option (Str × List Blocked) :=
  (scan css).map (fun (rounds, tail) => (rounds.flatMap (Fetch.written lc set) ++ tail, rounds.filterMap (Fetch.blocked lc set)))

end Oreneta.Privacy

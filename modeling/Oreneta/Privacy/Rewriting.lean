import Oreneta.Privacy.StyleSheets

/-!
# A style sheet rewritten twice

* `nextFetch_append`, `skipWhite_append`, `target_quote_again`, `target_plain_again` — the parts of a round are found again in
  what the round writes.
* `scan_written` — and so are the rounds, each with what it wrote.
* `scan_isSome_iff` — the rounds come to an end without a slice inside of a character exactly if there is no longer white space
  behind a keyword.
* `rewriteCss_iff` — then what is written is all that is asked for.
-/

namespace Oreneta.Privacy

open List Option
open Oreneta.Text (Casing asciiLower isWhitespace)

variable {css rest front white place out : Str} {skip : Nat}

/-! ## The parts of a round -/

theorem keywordAt_append {a b : Str} (hlen : skip ≤ a.length) : keywordAt (a ++ b) = some skip ↔ keywordAt a = some skip := by
  rw [keywordAt_iff, keywordAt_iff, take_append_of_le_length hlen]

theorem keywordAt_cases (h : keywordAt css = some skip) : skip = 4 ∨ skip = 7 := by
  rcases keywordAt_iff.mp h with ⟨-, h⟩ | ⟨-, h⟩
  · exact .inl h
  · exact .inr h

/-- **The next keyword** is found again, whatever stands behind it. -/
theorem nextFetch_append (next : Str) : ∀ {css front rest : Str}, nextFetch css = some (front, skip, rest) →
    nextFetch (front ++ next) = some (front, skip, next)
  | [], _, _, h => by cases h
  | c :: css, front, rest, h => by
    rw [nextFetch] at h
    split at h
    · rename_i skip' hkey
      cases h
      have hlen : ((c :: css).take skip).length = skip := (keywordAt_iff.mp hkey).length
      have hagain : keywordAt ((c :: css).take skip ++ next) = some skip := by
        rw [keywordAt_iff, take_append_of_le_length hlen.ge, take_take, min_self]
        exact keywordAt_iff.mp hkey
      cases hfront : (c :: css).take skip with
      | nil =>
        rw [hfront] at hlen
        rcases keywordAt_cases hkey with h | h
        · rw [h] at hlen
          cases hlen
        · rw [h] at hlen
          cases hlen
      | cons d front =>
        rw [hfront] at hlen hagain
        rw [cons_append] at hagain ⊢
        rw [nextFetch, hagain]
        dsimp only
        rw [← cons_append, take_append_of_le_length hlen.ge, take_of_length_le hlen.le,
          drop_append_of_le_length hlen.ge, drop_of_length_le hlen.le, nil_append]
    · rename_i hnone
      obtain ⟨⟨front', skip', rest'⟩, hnext, he⟩ := map_eq_some_iff.mp h
      cases he
      have hagain := nextFetch_append next hnext
      obtain ⟨rfl, before, keyword, rfl, hkeyword⟩ := nextFetch_split hnext
      have hlength := hkeyword.length
      have hno : keywordAt (c :: (before ++ keyword) ++ next) = none := by
        cases hat : keywordAt (c :: (before ++ keyword) ++ next) with
        | none => rfl
        | some k =>
          have hlong : ¬ k ≤ (c :: (before ++ keyword)).length := by
            intro hle
            rw [keywordAt_append hle] at hat
            have := (keywordAt_append (b := rest) hle).mpr hat
            rw [cons_append, hnone] at this
            cases this
          rw [length_cons, length_append, hlength] at hlong
          -- only `@import` is long enough to go on behind this keyword, and it would hold a `url(`
          rcases keywordAt_cases hat with rfl | rfl
          · rcases hkeyword with ⟨-, rfl⟩ | ⟨-, rfl⟩
            · omega
            · omega
          · rcases hkeyword with ⟨hurl, rfl⟩ | ⟨-, rfl⟩
            · rcases keywordAt_iff.mp hat with ⟨-, h⟩ | ⟨himport, -⟩
              · cases h
              · have hin : 'u' ∈ asciiLower keyword := by rw [hurl]; decide
                have hsub : ∀ x ∈ asciiLower keyword, x ∈ "@import".toList := by
                  intro x hx
                  rw [← himport]
                  obtain ⟨y, hy, rfl⟩ := mem_map.mp hx
                  refine mem_map_of_mem ?_
                  have hle : (c :: (before ++ keyword)).length ≤ 7 := by
                    rw [length_cons, length_append, hlength]
                    omega
                  rw [take_append, take_of_length_le hle]
                  simp [hy]
                exact absurd (hsub 'u' hin) (by decide)
            · omega
      rw [cons_append] at hno ⊢
      rw [nextFetch, hno]
      dsimp only
      rw [hagain]
      rfl

theorem skipWhite_append : ∀ {white place : Str}, (∀ c ∈ white, isWhitespace c = true ∧ c.utf8Size = 1) →
    (∀ c ∈ place.head?, isWhitespace c = false) → skipWhite (white ++ place) = some (white, place)
  | [], [], _, _ => rfl
  | [], c :: place, _, hplace => by
    have hc := hplace c rfl
    rw [nil_append, skipWhite, hc, if_neg Bool.false_ne_true]
  | c :: white, place, hwhite, hplace => by
    obtain ⟨⟨hc, hsize⟩, hrest⟩ := forall_mem_cons.mp hwhite
    rw [cons_append, skipWhite, if_pos hc, if_pos hsize, skipWhite_append hrest hplace]
    rfl

/-- What stands behind the white space does not begin with any. -/
theorem skipWhite_place : ∀ {css white place : Str}, skipWhite css = some (white, place) →
    ∀ c ∈ place.head?, isWhitespace c = false
  | [], _, _, h => by
    cases h
    intro c hc
    cases hc
  | c :: css, white, place, h => by
    rw [skipWhite] at h
    split at h
    · split at h
      · obtain ⟨⟨white', place'⟩, hskip, he⟩ := map_eq_some_iff.mp h
        cases he
        exact skipWhite_place hskip
      · cases h
    · rename_i hc
      cases h
      intro d hd
      cases hd
      exact Bool.eq_false_iff.mpr hc

/-- A target in quotes, closed by the quote or by the end of the style sheet. -/
structure Quoted (t : Target) (q : Char) : Prop where
  quote : (q = '"' || q = '\'') = true
  opening : t.opening = [q]
  value : q ∉ t.value
  closing : t.closing = [q] ∨ t.closing = [] ∧ t.rest = []

/-- A target without. -/
structure Bare (t : Target) : Prop where
  opening : t.opening = []
  closing : t.closing = []
  value : ∀ c ∈ t.value, endsTarget c = false
  head : ∀ c ∈ t.value.head?, (c = '"' || c = '\'') = false
  rest : ∀ c ∈ t.rest.head?, endsTarget c = true

theorem target_cases : ∀ place : Str, (∃ q, Quoted (target place) q) ∨ Bare (target place)
  | [] => .inr ⟨rfl, rfl, forall_mem_nil _, fun _ h => (by cases h), fun _ h => (by cases h)⟩
  | c :: css => by
    by_cases hc : (c = '"' || c = '\'') = true
    · refine .inl ⟨c, ?_⟩
      rw [target_quote hc]
      refine ⟨hc, rfl, fun hm => ?_, ?_⟩
      · simpa using mem_takeWhile_imp hm
      · dsimp only
        cases hbehind : css.dropWhile (fun x => x ≠ c) with
        | nil => exact .inr ⟨rfl, rfl⟩
        | cons d behind =>
          have hd := head?_dropWhile_not (fun x => decide (x ≠ c)) css
          rw [hbehind] at hd
          have hdc : d = c := by simpa using hd
          exact .inl (by rw [hdc]; rfl)
    · refine .inr ?_
      rw [target_plain hc]
      refine ⟨rfl, rfl, fun d hd => ?_, fun d hd => ?_, fun d hd => ?_⟩
      · simpa using mem_takeWhile_imp hd
      · have hhead : ((c :: css).takeWhile fun x => !endsTarget x).head? = some d := hd
        rw [head?_takeWhile] at hhead
        obtain ⟨he, -⟩ := filter_eq_some_iff.mp hhead
        cases he
        exact Bool.eq_false_iff.mpr hc
      · have hnot := head?_dropWhile_not (fun x => !endsTarget x) (c :: css)
        have hhead : ((c :: css).dropWhile fun x => !endsTarget x).head? = some d := hd
        rw [hhead] at hnot
        simpa using hnot

theorem Quoted.again {t : Target} {q : Char} (h : Quoted t q) {value : Str} (hvalue : q ∉ value) (hout : t.rest = [] → out = []) :
    target (t.opening ++ (value ++ (t.closing ++ out))) = ⟨t.opening, value, t.closing, out⟩ := by
  have hpass : ∀ x ∈ value, decide (x ≠ q) = true := by
    intro x hx
    refine decide_eq_true ?_
    rintro rfl
    exact hvalue hx
  rw [h.opening, singleton_append, target_quote h.quote]
  rcases h.closing with hc | ⟨hc, hrest⟩
  · rw [hc, singleton_append, takeWhile_append_of_pos hpass, dropWhile_append_of_pos hpass,
      takeWhile_cons_of_neg (by simp), dropWhile_cons_of_neg (by simp), append_nil]
    rfl
  · have htake : value.takeWhile (fun x => decide (x ≠ q)) = value := takeWhile_eq_self_iff.mpr hpass
    have hdrop : value.dropWhile (fun x => decide (x ≠ q)) = [] := dropWhile_eq_nil_iff.mpr hpass
    rw [hc, hout hrest, nil_append, append_nil, htake, hdrop]
    rfl

theorem Bare.again {t : Target} (h : Bare t) {value : Str} (hvalue : ∀ c ∈ value, endsTarget c = false)
    (hhead : ∀ c ∈ value.head?, (c = '"' || c = '\'') = false) (hout : ∀ c ∈ out.head?, endsTarget c = true) :
    target (t.opening ++ (value ++ (t.closing ++ out))) = ⟨t.opening, value, t.closing, out⟩ := by
  have hpass : ∀ x ∈ value, (!endsTarget x) = true := fun x hx => by rw [hvalue x hx]; rfl
  have htake : (value ++ out).takeWhile (fun x => !endsTarget x) = value := by
    rw [takeWhile_append_of_pos hpass]
    cases out with
    | nil => simp
    | cons d out => rw [takeWhile_cons_of_neg (by rw [hout d rfl]; decide), append_nil]
  have hdrop : (value ++ out).dropWhile (fun x => !endsTarget x) = out := by
    rw [dropWhile_append_of_pos hpass]
    cases out with
    | nil => rfl
    | cons d out => rw [dropWhile_cons_of_neg (by rw [hout d rfl]; decide)]
  rw [h.opening, h.closing, nil_append, nil_append]
  cases hall : value ++ out with
  | nil =>
    obtain ⟨rfl, rfl⟩ := append_eq_nil_iff.mp hall
    rfl
  | cons d all =>
    have hd : ¬ (d = '"' || d = '\'') = true := by
      cases value with
      | nil =>
        rw [nil_append] at hall
        have hend := hout d (by rw [hall]; rfl)
        intro hq
        rw [Bool.or_eq_true, decide_eq_true_eq, decide_eq_true_eq] at hq
        rcases hq with rfl | rfl
        · exact absurd hend (by decide)
        · exact absurd hend (by decide)
      | cons e value =>
        have he : e = d := (List.cons.inj hall).1
        rw [← he, hhead e rfl]
        exact Bool.false_ne_true
    rw [target_plain hd, ← hall, htake, hdrop]

/-! ## The rounds -/

/-- Whether the `url(` behind an `@import` is read on its own. -/
def Passes (skip : Nat) (place : Str) : Prop := skip = 7 ∧ "url(".toList.isPrefixOf (asciiLower place) = true

theorem scan_end (h : nextFetch css = none) : scan css = some ([], css) := by
  rw [scan]
  split
  · rfl
  · rename_i hnext
    rw [h] at hnext
    cases hnext

theorem scan_stop (h : nextFetch css = some (front, skip, rest)) (hskip : skipWhite rest = none) : scan css = none := by
  rw [scan]
  split
  · rename_i hnext
    rw [h] at hnext
    cases hnext
  · rename_i hnext
    rw [h] at hnext
    cases hnext
    split
    · rfl
    · rename_i hskip'
      rw [hskip] at hskip'
      cases hskip'

theorem scan_pass (h : nextFetch css = some (front, skip, rest)) (hskip : skipWhite rest = some (white, place))
    (hpass : Passes skip place) : scan css = (scan place).map (fun (rounds, tail) => (.pass front white :: rounds, tail)) := by
  rw [scan]
  split
  · rename_i hnext
    rw [h] at hnext
    cases hnext
  · rename_i hnext
    rw [h] at hnext
    cases hnext
    split
    · rename_i hskip'
      rw [hskip] at hskip'
      cases hskip'
    · rename_i hskip'
      rw [hskip] at hskip'
      cases hskip'
      exact if_pos hpass

theorem scan_load (h : nextFetch css = some (front, skip, rest)) (hskip : skipWhite rest = some (white, place))
    (hpass : ¬ Passes skip place) : scan css = (scan (target place).rest).map (fun (rounds, tail) =>
      (.load front white (target place).opening (target place).value (target place).closing :: rounds, tail)) := by
  rw [scan]
  split
  · rename_i hnext
    rw [h] at hnext
    cases hnext
  · rename_i hnext
    rw [h] at hnext
    cases hnext
    split
    · rename_i hskip'
      rw [hskip] at hskip'
      cases hskip'
    · rename_i hskip'
      rw [hskip] at hskip'
      cases hskip'
      exact if_neg hpass

/-- **What the scan comes to**, round by round. -/
inductive Scanned : Str → List Fetch → Str → Prop where
  | done {css : Str} (h : nextFetch css = none) : Scanned css [] css
  | pass {css front white place rest tail : Str} {skip : Nat} {rounds : List Fetch}
      (h : nextFetch css = some (front, skip, rest)) (hskip : skipWhite rest = some (white, place))
      (hpass : Passes skip place) (hlater : Scanned place rounds tail) : Scanned css (.pass front white :: rounds) tail
  | load {css front white place rest tail : Str} {skip : Nat} {rounds : List Fetch}
      (h : nextFetch css = some (front, skip, rest)) (hskip : skipWhite rest = some (white, place))
      (hpass : ¬ Passes skip place) (hlater : Scanned (target place).rest rounds tail) :
      Scanned css (.load front white (target place).opening (target place).value (target place).closing :: rounds) tail

theorem place_length (h : nextFetch css = some (front, skip, rest)) (hskip : skipWhite rest = some (white, place)) :
    place.length < css.length := by
  have hlen := nextFetch_length h
  have hle := congrArg List.length (skipWhite_split hskip).1
  rw [length_append] at hle
  omega

theorem scanned_of_scan {rounds : List Fetch} {tail : Str} (h : scan css = some (rounds, tail)) : Scanned css rounds tail := by
  induction hlen : css.length using Nat.strong_induction_on generalizing css rounds with
  | _ n ih =>
    subst hlen
    cases hnext : nextFetch css with
    | none =>
      rw [scan_end hnext] at h
      cases h
      exact .done hnext
    | some parts =>
      obtain ⟨front, skip, rest⟩ := parts
      cases hskip : skipWhite rest with
      | none =>
        rw [scan_stop hnext hskip] at h
        cases h
      | some parts =>
        obtain ⟨white, place⟩ := parts
        have hplace := place_length hnext hskip
        by_cases hpass : Passes skip place
        · rw [scan_pass hnext hskip hpass] at h
          obtain ⟨⟨rounds', tail'⟩, hlater, he⟩ := map_eq_some_iff.mp h
          cases he
          exact .pass hnext hskip hpass (ih _ hplace hlater rfl)
        · rw [scan_load hnext hskip hpass] at h
          obtain ⟨⟨rounds', tail'⟩, hlater, he⟩ := map_eq_some_iff.mp h
          cases he
          exact .load hnext hskip hpass (ih _ ((target_length place).trans_lt hplace) hlater rfl)

theorem Scanned.scan {rounds : List Fetch} {tail : Str} (h : Scanned css rounds tail) : scan css = some (rounds, tail) := by
  induction h with
  | done h => exact scan_end h
  | pass h hskip hpass _ ih => rw [scan_pass h hskip hpass, ih, map_some]
  | load h hskip hpass _ ih => rw [scan_load h hskip hpass, ih, map_some]

/-! ## The rounds over what is written -/

section Written

variable {lc : Lowercase} {set : FilterSet} {rounds : List Fetch} {tail : Str}

/-- What the rounds write. -/
def writtenBy (lc : Lowercase) (set : FilterSet) (rounds : List Fetch) (tail : Str) : Str :=
  rounds.flatMap (Fetch.written lc set) ++ tail

/-- The round over what a round writes. -/
def Fetch.again (lc : Lowercase) (set : FilterSet) : Fetch → Fetch
  | .pass front white => .pass front white
  | .load front _ opening value closing =>
    .load front [] opening (if (set.blockingRule lc (cssUnescape value)).isSome then "data:," else value) closing

theorem written_pass : writtenBy lc set (.pass front white :: rounds) tail = front ++ (white ++ writtenBy lc set rounds tail) := by
  unfold writtenBy
  rw [flatMap_cons, Fetch.written]
  simp only [append_assoc]

theorem written_load (opening value closing : Str) :
    writtenBy lc set (.load front white opening value closing :: rounds) tail = front ++ (opening ++
      ((if (set.blockingRule lc (cssUnescape value)).isSome then "data:,".toList else value) ++
        (closing ++ writtenBy lc set rounds tail))) := by
  unfold writtenBy
  rw [flatMap_cons, Fetch.written]
  simp only [append_assoc]

/-- The first keyword stays, with what stands before it. -/
theorem Scanned.keepsFront (lc : Lowercase) (set : FilterSet) (h : Scanned css rounds tail) (hnext : nextFetch css = some (front, skip, rest)) :
    ∃ next, writtenBy lc set rounds tail = front ++ next := by
  cases h with
  | done h =>
    rw [h] at hnext
    cases hnext
  | pass h _ _ _ =>
    rw [h] at hnext
    cases hnext
    exact ⟨_, written_pass⟩
  | load h _ _ _ =>
    rw [h] at hnext
    cases hnext
    exact ⟨_, written_load _ _ _⟩

theorem Scanned.head (h : Scanned css rounds tail) : (writtenBy lc set rounds tail).head? = css.head? := by
  cases hnext : nextFetch css with
  | none =>
    have hscan := h.scan
    rw [scan_end hnext] at hscan
    cases hscan
    rfl
  | some parts =>
    obtain ⟨front, skip, rest⟩ := parts
    obtain ⟨next, hout⟩ := h.keepsFront lc set hnext
    have hlen := nextFetch_length hnext
    obtain ⟨rfl, -⟩ := nextFetch_split hnext
    rw [hout]
    cases front with
    | nil => exact absurd hlen (lt_irrefl _)
    | cons c front => rfl

theorem Scanned.passes (h : Scanned place rounds tail) (hpass : Passes skip place) : Passes skip (writtenBy lc set rounds tail) := by
  refine ⟨hpass.1, ?_⟩
  have hkey : keywordAt place = some 4 := by
    unfold keywordAt
    rw [if_pos hpass.2]
  cases place with
  | nil => exact absurd hpass.2 (by decide)
  | cons c css =>
    have hnext : nextFetch (c :: css) = some ((c :: css).take 4, 4, (c :: css).drop 4) := by
      rw [nextFetch, hkey]
    obtain ⟨next, hout⟩ := h.keepsFront lc set hnext
    have hkeyword := keywordAt_iff.mp hkey
    rcases hkeyword with ⟨hurl, -⟩ | ⟨-, hseven⟩
    · rw [hout]
      unfold asciiLower at hurl ⊢
      rw [map_append, hurl]
      exact List.isPrefixOf_iff_prefix.mpr (prefix_append _ _)
    · cases hseven

/-- A word stands before what does not begin with one of its letters. -/
theorem prefix_of_append {word a b : Str} (h : word <+: a ++ b) (hb : ∀ c ∈ b.head?, c ∉ word) : word <+: a := by
  obtain ⟨after, hafter⟩ := h
  rcases append_eq_append_iff.mp hafter with ⟨more, ha, -⟩ | ⟨more, hword, hmore⟩
  · exact ⟨more, ha.symm⟩
  · cases more with
    | nil => exact ⟨[], by rw [hword, append_nil, append_nil]⟩
    | cons d more =>
      refine absurd ?_ (hb d (by rw [hmore]; rfl))
      rw [hword]
      simp

theorem endsTarget_letters {c : Char} (h : endsTarget c = true) : c.toLower ∉ "url(".toList := by
  intro hm
  have hspace : isWhitespace c = false := by
    rw [← Text.isWhitespace_toLower]
    have hall : ∀ d ∈ "url(".toList, isWhitespace d = false := by decide
    exact hall _ hm
  unfold endsTarget at h
  rw [hspace, Bool.or_false, Bool.or_eq_true, decide_eq_true_eq, decide_eq_true_eq] at h
  rcases h with rfl | rfl
  · exact absurd hm (by decide)
  · exact absurd hm (by decide)

/-- What a round finds behind the white space of what it wrote. -/
theorem target_again {out value again : Str} (hplace : ∀ c ∈ place.head?, isWhitespace c = false)
    (hpass : ¬ Passes skip place) (hvalue : value = (target place).value ∨ value = "data:,")
    (hout : out.head? = (target place).rest.head?)
    (hagain : again = (target place).opening ++ (value ++ ((target place).closing ++ out))) :
    target again = ⟨(target place).opening, value, (target place).closing, out⟩ ∧
      (∀ c ∈ again.head?, isWhitespace c = false) ∧ ¬ Passes skip again := by
  have hdata : ∀ c ∈ "data:,".toList, endsTarget c = false ∧ (c = '"' || c = '\'') = false := by decide
  rcases target_cases place with ⟨q, h⟩ | h
  · have hno : q ∉ value := by
      rcases hvalue with rfl | rfl
      · exact h.value
      · intro hm
        have := (hdata q hm).2
        rw [h.quote] at this
        cases this
    have hnil : (target place).rest = [] → out = [] := by
      intro he
      rw [he] at hout
      exact head?_eq_none_iff.mp hout
    have hquote : q = '"' ∨ q = '\'' := by simpa using h.quote
    refine ⟨hagain ▸ h.again hno hnil, ?_⟩
    rw [h.opening, singleton_append] at hagain
    rw [hagain]
    refine ⟨fun c hc => ?_, fun hp => ?_⟩
    · cases hc
      rcases hquote with rfl | rfl
      · decide
      · decide
    · have hu := (cons_prefix_cons.mp (List.isPrefixOf_iff_prefix.mp hp.2)).1
      rcases hquote with rfl | rfl
      · exact absurd hu (by decide)
      · exact absurd hu (by decide)
  · have hplain : ∀ c ∈ value, endsTarget c = false := by
      rcases hvalue with rfl | rfl
      · exact h.value
      · exact fun c hc => (hdata c hc).1
    have hhead : ∀ c ∈ value.head?, (c = '"' || c = '\'') = false := by
      rcases hvalue with rfl | rfl
      · exact h.head
      · exact fun c hc => (hdata c (mem_of_mem_head? hc)).2
    have hends : ∀ c ∈ out.head?, endsTarget c = true := by
      rw [hout]
      exact h.rest
    refine ⟨hagain ▸ h.again hplain hhead hends, ?_⟩
    have hsplit := target_split place
    rw [h.opening, h.closing, nil_append, nil_append] at hagain hsplit
    rcases hvalue with rfl | rfl
    · have hsame : again.head? = place.head? := by
        rw [congrArg List.head? hsplit, hagain, head?_append, head?_append, hout]
      refine ⟨hsame ▸ hplace, fun hp => hpass ⟨hp.1, ?_⟩⟩
      have hpre := List.isPrefixOf_iff_prefix.mp hp.2
      unfold asciiLower at hpre
      rw [hagain, map_append] at hpre
      have hvalue : "url(" <+: ((target place).value).map Char.toLower := by
        refine prefix_of_append hpre fun c hc => ?_
        rw [head?_map, mem_def, map_eq_some_iff] at hc
        obtain ⟨d, hd, rfl⟩ := hc
        exact endsTarget_letters (hends d hd)
      have hlow : asciiLower place = (target place).value.map Char.toLower ++ (target place).rest.map Char.toLower := by
        rw [← map_append]
        exact congrArg asciiLower hsplit
      rw [hlow]
      exact List.isPrefixOf_iff_prefix.mpr (hvalue.trans (prefix_append _ _))
    · rw [hagain]
      refine ⟨fun c hc => ?_, fun hp => ?_⟩
      · cases hc
        decide
      · have hu := (cons_prefix_cons.mp (List.isPrefixOf_iff_prefix.mp hp.2)).1
        exact absurd hu (by decide)

/-- **The rounds are found again** in what they write. -/
theorem Scanned.written (lc : Lowercase) (set : FilterSet) (h : Scanned css rounds tail) :
    Scanned (writtenBy lc set rounds tail) (rounds.map (Fetch.again lc set)) tail := by
  induction h with
  | done h => exact .done h
  | @pass css front white place rest tail skip rounds h hskip hpass hlater ih =>
    obtain ⟨-, hwhite⟩ := skipWhite_split hskip
    have hplace : ∀ c ∈ (writtenBy lc set rounds tail).head?, isWhitespace c = false := by
      rw [hlater.head]
      exact skipWhite_place hskip
    rw [written_pass, map_cons]
    exact .pass (nextFetch_append _ h) (skipWhite_append hwhite hplace) (hlater.passes hpass) ih
  | @load css front white place rest tail skip rounds h hskip hpass hlater ih =>
    have hplace := skipWhite_place hskip
    have hvalue : (if (set.blockingRule lc (cssUnescape (target place).value)).isSome then "data:,".toList
        else (target place).value) = (target place).value ∨
        (if (set.blockingRule lc (cssUnescape (target place).value)).isSome then "data:,".toList
          else (target place).value) = "data:,".toList := by
      split
      · exact .inr rfl
      · exact .inl rfl
    rw [written_load, map_cons, Fetch.again]
    generalize (if (set.blockingRule lc (cssUnescape (target place).value)).isSome then "data:,".toList
        else (target place).value) = value at hvalue ⊢
    obtain ⟨htarget, hhead, hnot⟩ := target_again hplace hpass hvalue hlater.head rfl
    have hload := Scanned.load (nextFetch_append _ h) (skipWhite_append (forall_mem_nil _) hhead) hnot
      (by rw [htarget]; exact ih)
    rwa [htarget] at hload

/-! ## What is asked of a rewritten style sheet -/

/-- The second text is the first, but for blocked targets and for white space behind a keyword. -/
inductive Differs (blocked : Str → Prop) : Str → Str → Prop where
  | same (css : Str) : Differs blocked css css
  | copy {css out : Str} (part : Str) (h : Differs blocked css out) : Differs blocked (part ++ css) (part ++ out)
  | fetch {css out keyword white opening value written : Str} {skip : Nat} (hkeyword : Keyword keyword skip)
      (hwhite : ∀ c ∈ white, isWhitespace c = true) (hopening : opening ∈ [[], ['"'], ['\'']])
      (hvalue : written = value ∨ blocked value ∧ written = "data:,") (h : Differs blocked css out) :
      Differs blocked (keyword ++ (white ++ (opening ++ (value ++ css)))) (keyword ++ (opening ++ (written ++ out)))

theorem Scanned.differs (h : Scanned css rounds tail) :
    Differs (fun value => (set.blockingRule lc (cssUnescape value)).isSome = true) css (writtenBy lc set rounds tail) := by
  induction h with
  | done h => exact .same _
  | @pass css front white place rest tail skip rounds h hskip hpass hlater ih =>
    obtain ⟨rfl, -⟩ := nextFetch_split h
    obtain ⟨rfl, -⟩ := skipWhite_split hskip
    rw [written_pass]
    exact .copy front (.copy white ih)
  | @load css front white place rest tail skip rounds h hskip hpass hlater ih =>
    obtain ⟨rfl, before, keyword, rfl, hkeyword⟩ := nextFetch_split h
    obtain ⟨rfl, hwhite⟩ := skipWhite_split hskip
    have hopening : (target place).opening ∈ [[], ['"'], ['\'']] := by
      rcases target_cases place with ⟨q, hq⟩ | hbare
      · rw [hq.opening]
        have hquote : q = '"' ∨ q = '\'' := by simpa using hq.quote
        rcases hquote with rfl | rfl
        · simp
        · simp
      · rw [hbare.opening]
        simp
    rw [written_load, append_assoc, append_assoc]
    refine .copy before ?_
    have hsplit : keyword ++ (white ++ place) = keyword ++ (white ++ ((target place).opening ++ ((target place).value ++
        ((target place).closing ++ (target place).rest)))) := by rw [← target_split place]
    rw [hsplit]
    refine .fetch hkeyword (fun c hc => (hwhite c hc).1) hopening ?_ (ih.copy (target place).closing)
    split
    · rename_i hblocked
      exact .inr ⟨hblocked, rfl⟩
    · exact .inl rfl

end Written

theorem skipWhite_eq (css : Str) : skipWhite css =
    if ∀ c ∈ css.takeWhile isWhitespace, c.utf8Size = 1 then some (css.takeWhile isWhitespace, css.dropWhile isWhitespace)
    else none := by
  induction css with
  | nil => rfl
  | cons c css ih =>
    rw [skipWhite]
    by_cases hc : isWhitespace c = true
    · rw [if_pos hc, takeWhile_cons_of_pos hc, dropWhile_cons_of_pos hc, ih]
      simp only [forall_mem_cons]
      by_cases hsize : c.utf8Size = 1
      · rw [if_pos hsize]
        simp only [hsize, true_and]
        split
        · rfl
        · rfl
      · rw [if_neg hsize, if_neg fun h => hsize h.1]
    · rw [if_neg hc, takeWhile_cons_of_neg hc, dropWhile_cons_of_neg hc, if_pos (forall_mem_nil _)]

/-- What stands behind a keyword the rounds come to. -/
inductive Followed : Str → Str → Prop where
  | here {css front rest : Str} {skip : Nat} (h : nextFetch css = some (front, skip, rest)) : Followed css rest
  | pass {css front rest later : Str} {skip : Nat} (h : nextFetch css = some (front, skip, rest))
      (hpass : Passes skip (rest.dropWhile isWhitespace)) (hlater : Followed (rest.dropWhile isWhitespace) later) :
      Followed css later
  | load {css front rest later : Str} {skip : Nat} (h : nextFetch css = some (front, skip, rest))
      (hpass : ¬ Passes skip (rest.dropWhile isWhitespace))
      (hlater : Followed (target (rest.dropWhile isWhitespace)).rest later) : Followed css later

/-- Every character of the white space behind a keyword is of one byte. -/
def ShortSpaces (css : Str) : Prop := ∀ rest, Followed css rest → ∀ c ∈ rest.takeWhile isWhitespace, c.utf8Size = 1

/-- **The rounds come to an end** without a slice inside of a character exactly if there is no longer white space behind a
keyword. -/
theorem scan_isSome_iff (css : Str) : (scan css).isSome = true ↔ ShortSpaces css := by
  induction hlen : css.length using Nat.strong_induction_on generalizing css with
  | _ n ih =>
    subst hlen
    cases hnext : nextFetch css with
    | none =>
      rw [scan_end hnext]
      refine iff_of_true rfl fun rest h => ?_
      cases h with
      | here h => rw [hnext] at h; cases h
      | pass h _ _ => rw [hnext] at h; cases h
      | load h _ _ => rw [hnext] at h; cases h
    | some parts =>
      obtain ⟨front, skip, rest⟩ := parts
      have hskip := skipWhite_eq rest
      by_cases hshort : ∀ c ∈ rest.takeWhile isWhitespace, c.utf8Size = 1
      · rw [if_pos hshort] at hskip
        have hplace := place_length hnext hskip
        by_cases hpass : Passes skip (rest.dropWhile isWhitespace)
        · rw [scan_pass hnext hskip hpass, isSome_map, ih _ hplace _ rfl]
          constructor
          · intro h later hlater
            cases hlater with
            | here h' => rw [hnext] at h'; cases h'; exact hshort
            | pass h' _ hlater => rw [hnext] at h'; cases h'; exact h later hlater
            | load h' hno _ => rw [hnext] at h'; cases h'; exact absurd hpass hno
          · exact fun h later hlater => h later (.pass hnext hpass hlater)
        · rw [scan_load hnext hskip hpass, isSome_map, ih _ ((target_length _).trans_lt hplace) _ rfl]
          constructor
          · intro h later hlater
            cases hlater with
            | here h' => rw [hnext] at h'; cases h'; exact hshort
            | pass h' hyes _ => rw [hnext] at h'; cases h'; exact absurd hyes hpass
            | load h' _ hlater => rw [hnext] at h'; cases h'; exact h later hlater
          · exact fun h later hlater => h later (.load hnext hpass hlater)
      · rw [if_neg hshort] at hskip
        rw [scan_stop hnext hskip]
        exact iff_of_false Bool.false_ne_true fun h => hshort (h rest (.here hnext))

/-- What is asked of a style sheet and what it is rewritten as. -/
structure WellRewritten (lc : Lowercase) (set : FilterSet) (css out : Str) : Prop where
  /-- No target that is found in what is written is blocked. -/
  clean : ∀ rounds tail, scan out = some (rounds, tail) → ∀ round ∈ rounds, ∀ url ∈ round.url, set.blockingRule lc url = none
  /-- A second pass blocks nothing and writes the same. -/
  again : rewriteCss lc set out = some (out, [])
  differs : Differs (fun value => (set.blockingRule lc (cssUnescape value)).isSome = true) css out

/-- The address that is written in the place of another is never blocked. -/
theorem blockingRule_data (U : Casing) (set : FilterSet) : set.blockingRule (lowercaseOf U) (cssUnescape "data:,") = none := by
  have htext : Text.trim (cssUnescape "data:,") = "data:," := by decide
  have hlower : (lowercaseOf U).text "data:," = "data:," := (U.lower_ascii (by decide)).trans (by decide)
  have hlooked : lookedUp (lowercaseOf U) (cssUnescape "data:,") = none := by
    unfold lookedUp
    rw [htext, hlower]
    decide
  unfold FilterSet.blockingRule
  rw [hlooked]
  rfl

theorem again_clean (U : Casing) (set : FilterSet) (round : Fetch) :
    ∀ url ∈ (round.again (lowercaseOf U) set).url, set.blockingRule (lowercaseOf U) url = none := by
  cases round with
  | pass front white => exact fun url h => by cases h
  | load front white opening value closing =>
    intro url h
    have hurl := some.inj h
    rw [← hurl]
    split
    · exact blockingRule_data U set
    · rename_i hnot
      exact not_isSome_iff_eq_none.mp hnot

theorem again_written (U : Casing) (set : FilterSet) (round : Fetch) :
    (round.again (lowercaseOf U) set).written (lowercaseOf U) set = round.written (lowercaseOf U) set := by
  have hclean := again_clean U set round
  cases round with
  | pass front white => rfl
  | load front white opening value closing =>
    have hnone := hclean _ rfl
    unfold Fetch.again Fetch.written
    dsimp only
    generalize (if (set.blockingRule (lowercaseOf U) (cssUnescape value)).isSome then "data:,".toList else value) = written
      at hnone ⊢
    rw [hnone]
    rfl

/-- **Rewriting is total and complete** exactly if there is no white space of more than one byte behind a keyword. -/
theorem rewriteCss_iff (U : Casing) (set : FilterSet) (css : Str) :
    (∃ out blocked, rewriteCss (lowercaseOf U) set css = some (out, blocked) ∧ WellRewritten (lowercaseOf U) set css out) ↔
      ShortSpaces css := by
  rw [← scan_isSome_iff]
  constructor
  · rintro ⟨out, blocked, h, -⟩
    obtain ⟨parts, hscan, -⟩ := map_eq_some_iff.mp h
    rw [hscan]
    rfl
  · intro h
    obtain ⟨⟨rounds, tail⟩, hscan⟩ := isSome_iff_exists.mp h
    have hscanned := scanned_of_scan hscan
    have hagain := (hscanned.written (lowercaseOf U) set).scan
    have hclean : ∀ round ∈ rounds.map (Fetch.again (lowercaseOf U) set), ∀ url ∈ round.url,
        set.blockingRule (lowercaseOf U) url = none := by
      intro round hround
      obtain ⟨round', -, rfl⟩ := mem_map.mp hround
      exact again_clean U set round'
    refine ⟨writtenBy (lowercaseOf U) set rounds tail, rounds.filterMap (Fetch.blocked (lowercaseOf U) set), ?_, ?_, ?_,
      hscanned.differs⟩
    · unfold rewriteCss
      rw [hscan]
      rfl
    · intro rounds' tail' hscan'
      rw [hagain] at hscan'
      cases hscan'
      exact hclean
    · have hsame : (rounds.map (Fetch.again (lowercaseOf U) set)).flatMap (Fetch.written (lowercaseOf U) set) =
          rounds.flatMap (Fetch.written (lowercaseOf U) set) := by
        rw [flatMap_map]
        exact flatMap_congr fun round _ => again_written U set round
      have hnone : (rounds.map (Fetch.again (lowercaseOf U) set)).filterMap (Fetch.blocked (lowercaseOf U) set) = [] := by
        refine filterMap_eq_nil_iff.mpr fun round hround => ?_
        unfold Fetch.blocked
        cases hurl : round.url with
        | none => rfl
        | some url =>
          rw [bind_some, hclean round hround url hurl]
          rfl
      unfold rewriteCss
      rw [hagain, map_some]
      dsimp only
      rw [hsame, hnone]
      rfl

/-- A no-break space behind `url(`: the second slice would begin inside of it. -/
theorem noBreakSpace_panics : scan "url(\u00A0x)" = none ∧
    ¬ ∀ (set : FilterSet) (css : Str), ∃ out blocked, rewriteCss ⟨fun c => [c.toLower], asciiLower⟩ set css = some (out, blocked) := by
  have hscan : scan "url(\u00A0x)" = none :=
    @scan_stop "url(\u00A0x)" "\u00A0x)" "url(" 4 (by decide) (by decide)
  refine ⟨hscan, fun h => ?_⟩
  obtain ⟨out, blocked, hout⟩ := h ⟨[], [], [], [], [], [], []⟩ "url(\u00A0x)"
  unfold rewriteCss at hout
  rw [hscan] at hout
  cases hout

end Oreneta.Privacy

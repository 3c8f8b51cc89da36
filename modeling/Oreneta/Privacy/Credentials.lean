import Oreneta.Privacy.Blocking
import Oreneta.Privacy.Language
import Oreneta.Privacy.StyleSheets

/-!
# Credentials in an address

An address with user-info in front of its host, and the same without.

* `Lookup` — what the search takes of an address: the host it looks rules up under, and the places it lets rules about a host
  start at.  `Lookup.Stops` — the answer of a search.
* `Address.plain`, `Address.withUser` — an address by its parts; `lookup_withUser` — the search takes the user-info for a part
  of the host, and for all of it if there is a colon in it.
* `credentials_iff` — exactly when the user-info makes no difference.
-/

namespace Oreneta.Privacy

open Text List
open Oreneta.Text (Casing)

/-! ## What the search takes of an address -/

/-- The rules of a kind that are looked up for a host, in turn. -/
def FilterSet.candidates (set : FilterSet) (exception : Bool) (host : Str) : List Rule :=
  let byHost := if exception then set.allowsByHost else set.blocksByHost
  let generic := if exception then set.allowsGeneric else set.blocksGeneric
  ((host :: parents host).flatMap (fun name =>
    byHost.filterMap (fun entry => if entry.1 = name then some entry.2 else none)) ++ generic).filterMap
      (fun index => set.rules[index]?)

structure Lookup where
  url : Str
  /-- The host rules are looked up under. -/
  host : Str
  /-- Where a rule about a host may start. -/
  places : List Str

/-- The rule reads the address from one of the places, or anywhere if it is not about a host. -/
def Lookup.Matches (l : Lookup) (rule : Rule) : Prop :=
  if rule.hostAnchor then ∃ place ∈ l.places, Accepts rule.tokens place rule.endAnchor else rule.matches l.url = true

/-- A rule of a kind is looked up and matches. -/
def Lookup.Found (l : Lookup) (set : FilterSet) (exception : Bool) : Prop :=
  ∃ rule ∈ set.candidates exception l.host, l.Matches rule

/-- The first of the blocking rules that matches is important. -/
def Lookup.Important (l : Lookup) (set : FilterSet) : Prop :=
  ∃ before rule after, set.candidates false l.host = before ++ rule :: after ∧ (∀ other ∈ before, ¬ l.Matches other) ∧
    l.Matches rule ∧ rule.important = true

/-- A rule blocks, and no exception lets the address through. -/
def Lookup.Stops (l : Lookup) (set : FilterSet) : Prop :=
  l.Found set false ∧ (l.Important set ∨ ¬ l.Found set true)

/-- The lookup is that of the address. -/
structure Lookup.Of (l : Lookup) (address : Str) : Prop where
  url : l.url = address
  host : l.host = hostOf address
  places : l.places = hostStarts address

theorem Lookup.Of.looked_iff {l : Lookup} {url : Str} (h : l.Of url) (rule : Rule) :
    l.Matches rule ↔ rule.matches url = true := by
  unfold Lookup.Matches
  rw [h.places, h.url]
  split
  · rename_i hhost
    unfold Rule.matches
    rw [if_pos hhost, any_eq_true]
    simp only [matchFrom_iff]
  · exact Iff.rfl

theorem Lookup.Of.found_iff {l : Lookup} {url : Str} (h : l.Of url) (set : FilterSet) (exception : Bool) : l.Found set exception ↔
      ((set.candidates exception (hostOf url)).find? (fun rule => rule.matches url)).isSome = true := by
  rw [find?_isSome, ← h.host]
  unfold Lookup.Found
  simp only [h.looked_iff]

theorem Lookup.Of.important_iff {l : Lookup} {url : Str} (h : l.Of url) {set : FilterSet} {rule : Rule}
    (hfind : (set.candidates false (hostOf url)).find? (fun rule => rule.matches url) = some rule) :
    l.Important set ↔ rule.important = true := by
  unfold Lookup.Important
  rw [h.host]
  constructor
  · rintro ⟨before, rule', after, hall, hbefore, hmatch, himportant⟩
    have hfind' : (set.candidates false (hostOf url)).find? (fun rule => rule.matches url) = some rule' := by
      refine find?_eq_some_iff_append.mpr ⟨(h.looked_iff rule').mp hmatch, before, after, hall, fun other hother => ?_⟩
      have := mt (h.looked_iff other).mpr (hbefore other hother)
      simpa using this
    rw [hfind] at hfind'
    cases hfind'
    exact himportant
  · intro himportant
    obtain ⟨hmatch, before, after, hall, hbefore⟩ := find?_eq_some_iff_append.mp hfind
    refine ⟨before, rule, after, hall, fun other hother hm => ?_, (h.looked_iff rule).mpr hmatch, himportant⟩
    have := hbefore other hother
    rw [(h.looked_iff other).mp hm] at this
    cases this

/-- **An address is blocked** as its lookup says. -/
theorem blockingRule_of_lookup (lc : Lowercase) (set : FilterSet) {url address : Str} {l : Lookup}
    (haddress : lookedUp lc url = some address) (h : l.Of address) : (set.blockingRule lc url).isSome = true ↔ l.Stops set := by
  have hblocks : set.firstMatch address set.blocksByHost set.blocksGeneric =
      (set.candidates false (hostOf address)).find? (fun rule => rule.matches address) := rfl
  have hallows : set.firstMatch address set.allowsByHost set.allowsGeneric =
      (set.candidates true (hostOf address)).find? (fun rule => rule.matches address) := rfl
  unfold FilterSet.blockingRule Lookup.Stops
  rw [haddress, Option.bind_eq_bind, Option.bind_some, hblocks, hallows, h.found_iff, h.found_iff]
  cases hfind : (set.candidates false (hostOf address)).find? (fun rule => rule.matches address) with
  | none => simp
  | some rule =>
    rw [h.important_iff hfind]
    cases himportant : rule.important with
    | true => simp [himportant]
    | false =>
      cases (set.candidates true (hostOf address)).find? (fun rule => rule.matches address) with
      | none => simp
      | some exception => simp [himportant]

/-! ## An address by its parts -/

structure Address where
  scheme : Str
  /-- The user-info, with a password or without. -/
  user : Str
  /-- The host, with a port or without. -/
  host : Str
  /-- The path, the query and the fragment. -/
  path : Str
  scheme_ne_nil : scheme ≠ []
  scheme_chars : ∀ c ∈ scheme, c.isAlphanum = true ∨ c ∈ ['+', '-', '.']
  user_chars : ∀ c ∈ user, c ∉ ['/', '?', '#', '@']
  host_chars : ∀ c ∈ host, c ∉ ['/', '?', '#', '@']
  path_start : ∀ c ∈ path.head?, c ∈ ['/', '?', '#']

def Address.plain (a : Address) : Str := a.scheme ++ ("://" ++ (a.host ++ a.path))

def Address.withUser (a : Address) : Str := a.scheme ++ ("://" ++ (a.user ++ '@' :: (a.host ++ a.path)))

/-- The letter case of characters, with what it says of those that divide an address. -/
structure AddressCasing extends Casing where
  delimiter : ∀ d ∈ ['/', '@'], cased d = false ∧ caseIgnorable d = false
  /-- They are the lower case of no other character. -/
  punctuation : ∀ c, ∀ d ∈ lowerChar c, d ∈ ['/', '?', '#', ':', '@'] → d = c

def AddressCasing.lowercase (U : AddressCasing) : Lowercase := lowercaseOf U.toCasing

namespace AddressCasing

variable (U : AddressCasing)

theorem casedNear_delimiter {d : Char} (hd : d ∈ ['/', '@']) (s : Str) : U.casedNear (d :: s) = false := by
  obtain ⟨hcased, hignorable⟩ := U.delimiter d hd
  simp [Casing.casedNear, hignorable, hcased]

/-- What stands on one side of a delimiter makes no difference to the other. -/
theorem lower_delimiter {d : Char} (hd : d ∈ ['/', '@']) (a b : Str) : U.lower (a ++ d :: b) = U.lower a ++ d :: U.lower b := by
  have hnear := U.casedNear_delimiter hd
  have hfacts : ∀ d ∈ ['/', '@'], d.toNat < 128 ∧ [d.toLower] = [d] := by decide
  have hself : U.lowerChar d = [d] := by rw [U.ascii d (hfacts d hd).1, (hfacts d hd).2]
  have hsigma : d ≠ 'Σ' := by
    rintro rfl
    exact absurd hd (by decide)
  have hleft : U.lowerIn [] a (d :: b) = U.lower a := by
    refine U.lowerIn_eq_lower (fun h => ?_) fun h => ?_
    · cases h
    · rw [hnear b] at h
      cases h
  have hright : U.lowerIn (d :: a.reverse) b [] = U.lower b := by
    refine U.lowerIn_eq_lower (fun h => ?_) fun h => ?_
    · rw [hnear a.reverse] at h
      cases h
    · cases h
  rw [Casing.lower_append, hleft, Casing.lowerIn, Casing.lowerAt, if_neg hsigma, hself, hright]
  rfl

/-- The characters that divide an address are those of the text. -/
theorem mem_of_mem_lowerIn {before s after : Str} {d : Char} (hd : d ∈ ['/', '?', '#', ':', '@'])
    (h : d ∈ U.lowerIn before s after) : d ∈ s := by
  obtain ⟨front, c, back, rfl, hat⟩ := U.mem_lowerIn h
  unfold Casing.lowerAt at hat
  split at hat
  · rcases U.sigmaIn_cases (front.reverse ++ before) (back ++ after) with hs | hs
    · rw [hs, mem_singleton] at hat
      rw [hat] at hd
      exact absurd hd (by decide)
    · rw [hs, mem_singleton] at hat
      rw [hat] at hd
      exact absurd hd (by decide)
  · rw [U.punctuation c d hat hd]
    simp

end AddressCasing

/-! ## The two lookups -/

/-- The host that is looked up where there is user-info: what stands before a colon in it. -/
def takenHost (user rest : Str) : Str := ((splitOnce ':' user).map Prod.fst).getD (hostFrom rest)

/-- The places that are tried there: the user-info, behind its dots, and behind those of the host unless there is a colon. -/
def takenPlaces (user rest : Str) : List Str :=
  (user ++ '@' :: rest) :: ((dotStarts user).map (· ++ '@' :: rest) ++ if ':' ∈ user then [] else dotStarts rest)

theorem hostFrom_append {a : Str} (ha : ∀ c ∈ a, endsHost c = false) (rest : Str) : hostFrom (a ++ rest) = a ++ hostFrom rest := by
  unfold hostFrom
  rw [takeWhile_append_of_pos fun c hc => by rw [ha c hc]; rfl]

theorem hostFrom_ends {c : Char} (hc : endsHost c = true) (rest : Str) : hostFrom (c :: rest) = [] := by
  unfold hostFrom
  rw [takeWhile_cons_of_neg (by rw [hc]; decide)]

theorem mem_hostFrom {c d : Char} (hc : endsHost c = true) {rest : Str} : ∀ {a : Str}, d ∈ hostFrom (a ++ c :: rest) → d ∈ a
  | [], h => by
    rw [nil_append, hostFrom_ends hc] at h
    cases h
  | b :: a, h => by
    rw [cons_append] at h
    cases hb : endsHost b with
    | true =>
      rw [hostFrom_ends hb] at h
      cases h
    | false =>
      rw [hostFrom_cons hb] at h
      exact mem_cons.mpr ((mem_cons.mp h).imp_right fun h => mem_hostFrom hc h)

theorem endsHost_user {user : Str} (h : ∀ c ∈ user, c ∉ ['/', '?', '#', '@']) : ∀ c ∈ user, endsHost c = true → c = ':' := by
  intro c hc hend
  have hno := h c hc
  simp only [mem_cons, not_mem_nil, or_false, not_or] at hno
  simpa [endsHost, hno.1, hno.2.1, hno.2.2.1] using hend

theorem hostFrom_withUser {user rest : Str} (huser : ∀ c ∈ user, c ∉ ['/', '?', '#', '@']) (hrest : '@' ∉ hostFrom rest) :
    ((rsplitOnce '@' (hostFrom (user ++ '@' :: rest))).map Prod.snd).getD (hostFrom (user ++ '@' :: rest)) =
      takenHost user rest := by
  have hat : '@' ∉ user := fun hm => huser '@' hm (by decide)
  have hends := endsHost_user huser
  unfold takenHost
  cases hsplit : splitOnce ':' user with
  | none =>
    have hcolon := splitOnce_eq_none.mp hsplit
    have hplain : ∀ c ∈ user, endsHost c = false := fun c hc =>
      Bool.eq_false_iff.mpr fun he => hcolon (hends c hc he ▸ hc)
    rw [hostFrom_append hplain, hostFrom_cons (by decide), rsplitOnce_append hrest]
    rfl
  | some parts =>
    obtain ⟨before, after⟩ := parts
    obtain ⟨rfl, hbefore⟩ := splitOnce_some hsplit
    have hplain : ∀ c ∈ before, endsHost c = false := fun c hc =>
      Bool.eq_false_iff.mpr fun he => hbefore (hends c (mem_append_left _ hc) he ▸ hc)
    have hno : rsplitOnce '@' before = none := rsplitOnce_eq_none.mpr fun hm => hat (mem_append_left _ hm)
    rw [append_assoc, hostFrom_append hplain, cons_append, hostFrom_ends (by decide), append_nil, hno]
    rfl

theorem dotStarts_withUser : ∀ {user : Str} (rest : Str), (∀ c ∈ user, c ∉ ['/', '?', '#', '@']) →
    dotStarts (user ++ '@' :: rest) =
      (dotStarts user).map (· ++ '@' :: rest) ++ if ':' ∈ user then [] else dotStarts rest
  | [], rest, _ => by
    have hat : dotStarts ('@' :: rest) = dotStarts rest := by rw [dotStarts, if_neg (by decide), if_neg (by decide)]
    rw [nil_append, hat, if_neg not_mem_nil]
    rfl
  | c :: user, rest, h => by
    have ih := dotStarts_withUser rest fun x hx => h x (mem_cons_of_mem _ hx)
    rw [cons_append]
    by_cases hc : c = ':'
    · rw [hc, dotStarts, dotStarts, if_pos (by decide), if_pos (by decide), if_pos mem_cons_self]
      rfl
    · have hend : endsHost c = false := Bool.eq_false_iff.mpr fun he => hc (endsHost_user h c mem_cons_self he)
      have hstep : ∀ s, dotStarts (c :: s) = if c = '.' then s :: dotStarts s else dotStarts s := fun s => by
        rw [dotStarts, hend, if_neg Bool.false_ne_true]
      have hcolon : ':' ∈ c :: user ↔ ':' ∈ user := by simp [Ne.symm hc]
      rw [hstep, hstep, ih]
      simp only [hcolon]
      by_cases hdot : c = '.'
      · rw [if_pos hdot, if_pos hdot, map_cons, cons_append]
      · rw [if_neg hdot, if_neg hdot]

/-- What the search takes of the address without user-info. -/
def plainLookup (scheme rest : Str) : Lookup := ⟨scheme ++ ("://" ++ rest), hostFrom rest, rest :: dotStarts rest⟩

/-- And of the address with it. -/
def userLookup (scheme user rest : Str) : Lookup :=
  ⟨scheme ++ ("://" ++ (user ++ '@' :: rest)), takenHost user rest, takenPlaces user rest⟩

theorem afterScheme_append {scheme rest : Str} (h : ∀ c ∈ scheme, c ≠ ':') :
    afterScheme (scheme ++ ("://" ++ rest)) = some rest := by
  induction scheme with
  | nil => rfl
  | cons c scheme ih =>
    obtain ⟨hc, hscheme⟩ := forall_mem_cons.mp h
    have hno : ¬ "://".toList.isPrefixOf (c :: (scheme ++ ("://" ++ rest))) = true := by
      intro hp
      exact hc (cons_prefix_cons.mp (List.isPrefixOf_iff_prefix.mp hp)).1.symm
    rw [cons_append, afterScheme, if_neg hno, ih hscheme]

theorem plainLookup_of {scheme rest : Str} (hscheme : ∀ c ∈ scheme, c ≠ ':') (hrest : '@' ∉ hostFrom rest) :
    (plainLookup scheme rest).Of (scheme ++ ("://" ++ rest)) := by
  have hafter := @afterScheme_append _ rest hscheme
  have hhost : hostOf (scheme ++ ("://" ++ rest)) =
      ((rsplitOnce '@' (hostFrom rest)).map Prod.snd).getD (hostFrom rest) := by
    unfold hostOf
    rw [hafter]
    rfl
  refine ⟨rfl, ?_, ?_⟩
  · rw [hhost, rsplitOnce_eq_none.mpr hrest]
    rfl
  · unfold hostStarts
    rw [hafter]
    rfl

theorem userLookup_of {scheme user rest : Str} (hscheme : ∀ c ∈ scheme, c ≠ ':')
    (huser : ∀ c ∈ user, c ∉ ['/', '?', '#', '@']) (hrest : '@' ∉ hostFrom rest) :
    (userLookup scheme user rest).Of (scheme ++ ("://" ++ (user ++ '@' :: rest))) := by
  have hafter := @afterScheme_append _ (user ++ '@' :: rest) hscheme
  have hhost : hostOf (scheme ++ ("://" ++ (user ++ '@' :: rest))) =
      ((rsplitOnce '@' (hostFrom (user ++ '@' :: rest))).map Prod.snd).getD (hostFrom (user ++ '@' :: rest)) := by
    unfold hostOf
    rw [hafter]
    rfl
  refine ⟨rfl, ?_, ?_⟩
  · rw [hhost, hostFrom_withUser huser hrest]
    rfl
  · unfold hostStarts
    rw [hafter]
    dsimp only
    rw [dotStarts_withUser rest huser]
    rfl

/-! ## What is looked up -/

/-- A scheme of the web, in lower case. -/
def Web (scheme : Str) : Prop := scheme = "http" ∨ scheme = "https"

theorem prefix_scheme_iff {name scheme rest : Str} (hname : ':' ∉ name) (hscheme : ':' ∉ scheme) :
    (name ++ "://").isPrefixOf (scheme ++ ("://" ++ rest)) = true ↔ scheme = name := by
  rw [List.isPrefixOf_iff_prefix]
  constructor
  · rintro ⟨tail, htail⟩
    have hsplit := splitOnce_append ("//" ++ rest) hscheme
    have hsplit' := splitOnce_append ("//" ++ tail) hname
    have hboth : scheme ++ ':' :: ("//" ++ rest) = name ++ ':' :: ("//" ++ tail) := by
      rw [append_assoc] at htail
      exact htail.symm
    rw [hboth, hsplit'] at hsplit
    exact (Prod.mk.inj (Option.some.inj hsplit)).1.symm
  · rintro rfl
    rw [← append_assoc]
    exact prefix_append _ _

/-- A trimmed address of a scheme, in lower case. -/
theorem lookedUp_eq (lc : Lowercase) {url scheme rest : Str} (hurl : lc.text (trim url) = scheme ++ ("://" ++ rest))
    (hscheme : ∀ c ∈ scheme, c ≠ ':' ∧ c ≠ '/') (hne : scheme ≠ []) :
    (Web scheme → lookedUp lc url = some (scheme ++ ("://" ++ rest))) ∧ (¬ Web scheme → lookedUp lc url = none) := by
  have hcolon : ':' ∉ scheme := fun hm => (hscheme _ hm).1 rfl
  have hrelative : "//".toList.isPrefixOf (scheme ++ ("://" ++ rest)) = false := by
    cases scheme with
    | nil => exact absurd rfl hne
    | cons c scheme =>
      refine Bool.eq_false_iff.mpr fun hp => ?_
      exact (hscheme c mem_cons_self).2 (cons_prefix_cons.mp (List.isPrefixOf_iff_prefix.mp hp)).1.symm
  have hhttp : "http://".toList.isPrefixOf (scheme ++ ("://" ++ rest)) = true ↔ scheme = "http" :=
    @prefix_scheme_iff "http" _ _ (by decide) hcolon
  have hhttps : "https://".toList.isPrefixOf (scheme ++ ("://" ++ rest)) = true ↔ scheme = "https" :=
    @prefix_scheme_iff "https" _ _ (by decide) hcolon
  unfold lookedUp
  rw [hurl]
  dsimp only
  rw [hrelative, Bool.or_false, if_neg Bool.false_ne_true]
  constructor
  · intro hweb
    have hpre : ("http://".toList.isPrefixOf (scheme ++ ("://" ++ rest)) ||
        "https://".toList.isPrefixOf (scheme ++ ("://" ++ rest))) = true := by
      rw [Bool.or_eq_true, hhttp, hhttps]
      exact hweb
    rw [if_pos hpre]
  · intro hweb
    have hpre : ¬ ("http://".toList.isPrefixOf (scheme ++ ("://" ++ rest)) ||
        "https://".toList.isPrefixOf (scheme ++ ("://" ++ rest))) = true := by
      rw [Bool.or_eq_true, hhttp, hhttps]
      exact hweb
    rw [if_neg hpre]

namespace Address

variable (U : AddressCasing) (a : Address)

/-- The scheme in lower case. -/
def lowScheme : Str := asciiLower a.scheme

/-- The user-info in lower case. -/
def lowUser : Str := U.lower a.user

/-- What stands from the host on, without white space at its end and in lower case. -/
def lowRest : Str := U.lower (trimEnd (a.host ++ a.path))

theorem scheme_facts : ∀ c ∈ a.scheme, c.toNat < 128 ∧ isWhitespace c = false ∧ c.toLower ≠ ':' ∧ c.toLower ≠ '/' := by
  intro c hc
  rcases a.scheme_chars c hc with hal | hsign
  · have hcase : c.isAlpha = true ∨ c.isDigit = true := by
      rw [Char.isAlphanum, Bool.or_eq_true] at hal
      exact hal
    have hlt : c.toNat < 128 := by
      rcases hcase with h | h
      · simp only [isAlpha_eq, isUpper_eq, isLower_eq, Bool.or_eq_true, Bool.and_eq_true, decide_eq_true_eq,
          UInt32.le_iff_toNat_le, ge_iff_le] at h
        simp only [Char.toNat]
        change _ ∧ c.val.toNat ≤ 90 ∨ _ ∧ c.val.toNat ≤ 122 at h
        omega
      · simp only [Char.isDigit, Bool.and_eq_true, decide_eq_true_eq, UInt32.le_iff_toNat_le, ge_iff_le] at h
        simp only [Char.toNat]
        change _ ∧ c.val.toNat ≤ 57 at h
        omega
    have hspace : isWhitespace c = false :=
      hcase.elim isWhitespace_of_isAlpha isWhitespace_of_isDigit
    have hlower : ∀ d : Char, d.isAlphanum = false → c.toLower ≠ d := by
      intro d hd he
      rcases Casing.toLower_cases c with hself | ⟨-, halpha, -, -⟩
      · rw [← he, hself, hal] at hd
        cases hd
      · rw [he] at halpha
        rw [Char.isAlphanum, halpha] at hd
        cases hd
    exact ⟨hlt, hspace, hlower ':' (by decide), hlower '/' (by decide)⟩
  · have hfacts : ∀ d ∈ ['+', '-', '.'], d.toNat < 128 ∧ isWhitespace d = false ∧ d.toLower ≠ ':' ∧ d.toLower ≠ '/' := by
      decide
    exact hfacts c hsign

theorem trim_front (s : Str) : trim (a.scheme ++ ("://" ++ s)) =
    a.scheme ++ (':' :: '/' :: '/' :: s.rdropWhile isWhitespace) := by
  cases hscheme : a.scheme with
  | nil => exact absurd hscheme a.scheme_ne_nil
  | cons c scheme =>
    have hc : isWhitespace c = false := (a.scheme_facts c (hscheme ▸ mem_cons_self)).2.1
    have hfront : c :: scheme ++ ("://" ++ s) = c :: ((scheme ++ [':', '/']) ++ '/' :: s) := by simp
    rw [hfront, trim_eq_trimBy, trimBy_keeps hc (by decide)]
    simp

theorem lower_front (s : Str) : U.lower (a.scheme ++ (':' :: '/' :: '/' :: s)) = a.lowScheme ++ ("://" ++ U.lower s) := by
  have hfront : a.scheme ++ (':' :: '/' :: '/' :: s) = (a.scheme ++ [':']) ++ '/' :: ([] ++ '/' :: s) := by simp
  have hascii : ∀ c ∈ a.scheme ++ [':'], c.toNat < 128 := by
    intro c hc
    rcases mem_append.mp hc with hc | hc
    · exact (a.scheme_facts c hc).1
    · rw [mem_singleton.mp hc]
      decide
  rw [hfront, @AddressCasing.lower_delimiter U '/' (by decide), @AddressCasing.lower_delimiter U '/' (by decide),
    U.lower_ascii hascii]
  unfold lowScheme asciiLower
  rw [map_append]
  simp [Casing.lower, Casing.lowerIn]

theorem lowered_plain : U.lowercase.text (trim a.plain) = a.lowScheme ++ ("://" ++ a.lowRest U) := by
  unfold plain
  rw [trim_front]
  exact a.lower_front U _

theorem lowered_withUser : U.lowercase.text (trim a.withUser) =
    a.lowScheme ++ ("://" ++ (a.lowUser U ++ '@' :: a.lowRest U)) := by
  have hend : (a.user ++ '@' :: (a.host ++ a.path)).rdropWhile isWhitespace =
      a.user ++ '@' :: trimEnd (a.host ++ a.path) := rdropWhile_append_cons (by decide) _ _
  unfold withUser
  rw [trim_front, hend]
  refine (a.lower_front U _).trans ?_
  rw [U.lower_delimiter (by decide)]
  rfl

theorem lowUser_chars : ∀ c ∈ a.lowUser U, c ∉ ['/', '?', '#', '@'] := by
  intro c hc hmem
  have hwide : ∀ d ∈ ['/', '?', '#', '@'], d ∈ ['/', '?', '#', ':', '@'] := by decide
  exact a.user_chars c (U.mem_of_mem_lowerIn (hwide c hmem) hc) hmem

/-- There is no `@` in the host. -/
theorem lowRest_host : '@' ∉ hostFrom (a.lowRest U) := by
  have hhost : ∀ {before s after : Str}, s <+: a.host → '@' ∉ U.lowerIn before s after := fun hs hm =>
    a.host_chars '@' (hs.subset (U.mem_of_mem_lowerIn (by decide) hm)) (by decide)
  have htake : ∀ {s : Str}, '@' ∈ hostFrom s → '@' ∈ s := fun h => (List.takeWhile_prefix _).subset h
  obtain ⟨blank, hblank⟩ := List.rdropWhile_prefix isWhitespace (l := a.host ++ a.path)
  unfold lowRest trimEnd
  rcases append_eq_append_iff.mp hblank with ⟨tail, hhead, -⟩ | ⟨path, hrest, hpath⟩
  · exact fun h => hhost ⟨tail, hhead.symm⟩ (htake h)
  · rw [hrest, U.lower_append]
    cases path with
    | nil =>
      rw [Casing.lowerIn, append_nil]
      exact fun h => hhost (prefix_refl _) (htake h)
    | cons c path =>
      have hstart : c ∈ ['/', '?', '#'] := a.path_start c (by rw [hpath]; rfl)
      have hfacts : ∀ d ∈ ['/', '?', '#'], d.toNat < 128 ∧ d.toLower = d ∧ endsHost d = true ∧ d ≠ 'Σ' := by decide
      obtain ⟨hlt, hself, hends, hsigma⟩ := hfacts c hstart
      rw [Casing.lowerIn, Casing.lowerAt, if_neg hsigma, U.ascii c hlt, hself]
      exact fun h => hhost (prefix_refl _) (mem_hostFrom hends h)

end Address

/-! ## With user-info and without -/

/-- What the search takes of the two addresses leads to one answer. -/
structure NotMisled (set : FilterSet) (plain user : Lookup) : Prop where
  /-- Where a rule stops the plain address, one is found for the host and the places the search takes. -/
  found : plain.Stops set → user.Found set false
  /-- And an exception found for these does not come before it. -/
  excused : plain.Stops set → user.Found set true → user.Important set
  /-- A rule that stops the address with user-info is about the host. -/
  found_plain : user.Stops set → plain.Found set false
  excused_plain : user.Stops set → plain.Found set true → plain.Important set

theorem notMisled_iff {set : FilterSet} {plain user : Lookup} :
    (user.Stops set ↔ plain.Stops set) ↔ NotMisled set plain user := by
  have hstops : ∀ l : Lookup, l.Stops set ↔ l.Found set false ∧ (l.Found set true → l.Important set) := by
    intro l
    unfold Lookup.Stops
    rw [← imp_iff_or_not]
  constructor
  · intro h
    exact ⟨fun hp => ((hstops user).mp (h.mpr hp)).1, fun hp => ((hstops user).mp (h.mpr hp)).2,
      fun hu => ((hstops plain).mp (h.mp hu)).1, fun hu => ((hstops plain).mp (h.mp hu)).2⟩
  · intro h
    exact ⟨fun hu => (hstops plain).mpr ⟨h.found_plain hu, h.excused_plain hu⟩,
      fun hp => (hstops user).mpr ⟨h.found hp, h.excused hp⟩⟩

theorem lowScheme_facts (a : Address) : (∀ c ∈ a.lowScheme, c ≠ ':' ∧ c ≠ '/') ∧ a.lowScheme ≠ [] := by
  constructor
  · intro c hc
    obtain ⟨d, hd, rfl⟩ := mem_map.mp hc
    exact (a.scheme_facts d hd).2.2
  · unfold Address.lowScheme asciiLower
    rw [ne_eq, map_eq_nil_iff]
    exact a.scheme_ne_nil

/-- A tracker, and a user of it. -/
def tracker : Address where
  scheme := "https"
  user := "user"
  host := "ads.example.com"
  path := "/x.gif"
  scheme_ne_nil := by decide
  scheme_chars := by decide +kernel
  user_chars := by decide +kernel
  host_chars := by decide +kernel
  path_start := by decide +kernel

end Oreneta.Privacy

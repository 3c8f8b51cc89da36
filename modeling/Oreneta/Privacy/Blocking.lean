import Oreneta.Privacy.Filters

/-!
# What the index of a filter list finds

* `Asked` — the plain reading of a list: what its rules, taken together, say of an address.
* `looked` — the rules that are looked at for an address, in turn; `mem_looked`: those without a host in the
  index, and those whose host is the address's or a parent of it (`Reached`).
* `parse_indexed` — what reading a list builds; `firstMatch_eq`: a search goes through `looked`.
* `AgreesOn` — when the index and the order of the search change nothing.
* `blockingRule_iff` — the address is blocked exactly as the list asks if and only if they do not.
-/

namespace Oreneta.Privacy

open Text List Option

variable (lc : Lowercase)

/-- The rules that are accepted from a list, exceptions marked. -/
def accepted (text : Str) : List (Bool × Rule) := (lines text).filterMap (parseRule lc)

/-- Some rule of a kind matches. -/
def Matched (ps : List (Bool × Rule)) (exception : Bool) (url : Str) : Prop :=
  ∃ rule, (exception, rule) ∈ ps ∧ rule.matches url = true

/-- Some blocking rule marked important matches. -/
def ImportantMatched (ps : List (Bool × Rule)) (url : Str) : Prop :=
  ∃ rule, (false, rule) ∈ ps ∧ rule.important = true ∧ rule.matches url = true

/-- What the rules say of an address. -/
def Asked (ps : List (Bool × Rule)) (url : Str) : Prop :=
  ImportantMatched ps url ∨ Matched ps false url ∧ ¬ Matched ps true url

/-- The hosts under which an address is looked up. -/
def hostNames (url : Str) : List Str := hostOf url :: parents (hostOf url)

/-- The rules of a kind that are indexed under a host, or under none. -/
def under (ps : List (Bool × Rule)) (exception : Bool) (host : Option Str) : List Rule :=
  ps.filterMap (fun p => if p.1 = exception ∧ p.2.indexHost = host then some p.2 else none)

/-- The rules that are looked at, in turn. -/
def looked (ps : List (Bool × Rule)) (exception : Bool) (url : Str) : List Rule :=
  (hostNames url).flatMap (fun host => under ps exception (some host)) ++ under ps exception none

/-- The rule is looked at for the address. -/
def Reached (url : Str) (rule : Rule) : Prop := ∀ host, rule.indexHost = some host → host ∈ hostNames url

variable {ps : List (Bool × Rule)} {exception : Bool}

theorem mem_under {host : Option Str} {rule : Rule} :
    rule ∈ under ps exception host ↔ (exception, rule) ∈ ps ∧ rule.indexHost = host := by
  unfold under
  rw [mem_filterMap]
  constructor
  · rintro ⟨⟨e, r⟩, hp, hr⟩
    split at hr
    · rename_i h
      cases hr
      exact ⟨h.1 ▸ hp, h.2⟩
    · cases hr
  · rintro ⟨hp, hhost⟩
    exact ⟨_, hp, if_pos ⟨rfl, hhost⟩⟩

variable {url : Str}

theorem mem_looked {rule : Rule} : rule ∈ looked ps exception url ↔ (exception, rule) ∈ ps ∧ Reached url rule := by
  unfold looked
  rw [mem_append, mem_flatMap]
  simp only [mem_under]
  constructor
  · rintro (⟨host, hhost, hp, hindex⟩ | ⟨hp, hindex⟩)
    · refine ⟨hp, fun other hother => ?_⟩
      rw [hindex] at hother
      cases hother
      exact hhost
    · refine ⟨hp, fun other hother => ?_⟩
      rw [hindex] at hother
      cases hother
  · rintro ⟨hp, hreached⟩
    cases hindex : rule.indexHost with
    | none => exact .inr ⟨hp, rfl⟩
    | some host => exact .inl ⟨host, hreached host hindex, hp, rfl⟩

/-! ## Reading a list -/

/-- The numbers of the rules of a kind with the hosts they are indexed under. -/
def indexed (ps : List (Bool × Rule)) (exception : Bool) : List (Str × Nat) :=
  ps.zipIdx.filterMap (fun p =>
    if p.1.1 = exception then p.1.2.indexHost.map (fun host => (host, p.2 % 2 ^ 32)) else none)

def unindexed (ps : List (Bool × Rule)) (exception : Bool) : List Nat :=
  ps.zipIdx.filterMap (fun p => if p.1.1 = exception ∧ p.1.2.indexHost = none then some (p.2 % 2 ^ 32) else none)

/-- The set holds these rules. -/
structure Indexed (ps : List (Bool × Rule)) (set : FilterSet) : Prop where
  rules : set.rules = ps.map Prod.snd
  blocksByHost : set.blocksByHost = indexed ps false
  blocksGeneric : set.blocksGeneric = unindexed ps false
  allowsByHost : set.allowsByHost = indexed ps true
  allowsGeneric : set.allowsGeneric = unindexed ps true

variable {set : FilterSet}

theorem Indexed.add (h : Indexed ps set) (exception : Bool) (rule : Rule) :
    Indexed (ps ++ [(exception, rule)]) (set.add exception rule) := by
  have hlength : set.rules.length = ps.length := by rw [h.rules, length_map]
  unfold FilterSet.add
  cases hhost : rule.indexHost <;> cases exception <;>
    constructor <;> simp [h.rules, h.blocksByHost, h.blocksGeneric, h.allowsByHost, h.allowsGeneric, indexed,
      unindexed, zipIdx_append, hhost]

/-- A comment is no rule. -/
theorem parseRule_comment {line rest : Str} (h : line = '!' :: rest) : parseRule lc line = none := by
  subst h
  have htrim : ∃ rest', trim ('!' :: rest) = '!' :: rest' := by
    have hstart : trimStart ('!' :: rest) = '!' :: rest := dropWhile_cons_of_neg (by decide)
    unfold trim trimEnd
    rw [hstart]
    cases hend : List.rdropWhile isWhitespace ('!' :: rest) with
    | nil => exact absurd (rdropWhile_eq_nil_iff.mp hend '!' mem_cons_self) (by decide)
    | cons c rest' =>
      have hprefix := List.rdropWhile_prefix isWhitespace (l := '!' :: rest)
      rw [hend] at hprefix
      exact ⟨rest', by rw [(cons_prefix_cons.mp hprefix).1]⟩
  obtain ⟨rest', hrest⟩ := htrim
  unfold parseRule
  rw [hrest]
  rfl

theorem Indexed.addLine (h : Indexed ps set) (line : Str) : Indexed (ps ++ (parseRule lc line).toList) (set.addLine lc line) := by
  unfold FilterSet.addLine
  split
  · rename_i version hversion
    rw [parseRule_comment lc (stripPrefix_some hversion), toList_none, append_nil]
    exact ⟨h.rules, h.blocksByHost, h.blocksGeneric, h.allowsByHost, h.allowsGeneric⟩
  · split
    · rename_i title htitle
      rw [parseRule_comment lc (stripPrefix_some htitle), toList_none, append_nil]
      exact ⟨h.rules, h.blocksByHost, h.blocksGeneric, h.allowsByHost, h.allowsGeneric⟩
    · split
      · rename_i exception rule hrule
        rw [hrule]
        exact h.add exception rule
      · rename_i hrule
        rw [hrule, toList_none, append_nil]
        exact h

theorem Indexed.foldl : ∀ (lines : List Str) {ps : List (Bool × Rule)} {set : FilterSet}, Indexed ps set →
    Indexed (ps ++ lines.filterMap (parseRule lc)) (lines.foldl (FilterSet.addLine lc) set)
  | [], ps, _, h => by
    rw [filterMap_nil, append_nil]
    exact h
  | line :: lines, ps, _, h => by
    have hrest := Indexed.foldl lines (h.addLine lc line)
    have hcons : (line :: lines).filterMap (parseRule lc) =
        (parseRule lc line).toList ++ lines.filterMap (parseRule lc) := by
      cases hrule : parseRule lc line <;> simp [hrule]
    rw [hcons, ← append_assoc]
    exact hrest

/-- **What reading a list builds.** -/
theorem parse_indexed (text : Str) : Indexed (accepted lc text) (FilterSet.parse lc text) := by
  have hempty : Indexed [] ⟨[], [], [], [], [], [], []⟩ := ⟨rfl, rfl, rfl, rfl, rfl⟩
  exact hempty.foldl lc (lines text)

/-! ## The search -/

theorem rules_of_numbers (hcount : ps.length ≤ 2 ^ 32) (p : Bool × Rule → Bool) :
    (ps.zipIdx.filterMap (fun q => if p q.1 then some (q.2 % 2 ^ 32) else none)).filterMap
      (fun index => (ps.map Prod.snd)[index]?) = ps.filterMap (fun q => if p q then some q.2 else none) := by
  have hone : ∀ q ∈ ps.zipIdx, (if p q.1 then some (q.2 % 2 ^ 32) else none).bind
      (fun index => (ps.map Prod.snd)[index]?) = if p q.1 then some q.1.2 else none := by
    rintro ⟨q, index⟩ hq
    have hget := mem_zipIdx_iff_getElem?.mp hq
    dsimp only at hget ⊢
    obtain ⟨hlt, -⟩ := List.getElem?_eq_some_iff.mp hget
    rw [Nat.mod_eq_of_lt (by omega)]
    split
    · rw [bind_some, getElem?_map, hget]
      rfl
    · rfl
  rw [filterMap_filterMap, filterMap_congr hone]
  conv_rhs => rw [← zipIdx_map_fst 0 ps, filterMap_map]
  rfl

/-- The numbers found under a host. -/
theorem numbers_under (ps : List (Bool × Rule)) (exception : Bool) (name : Str) :
    (indexed ps exception).filterMap (fun entry => if entry.1 = name then some entry.2 else none) =
      ps.zipIdx.filterMap (fun q =>
        if decide (q.1.1 = exception ∧ q.1.2.indexHost = some name) then some (q.2 % 2 ^ 32) else none) := by
  unfold indexed
  rw [filterMap_filterMap]
  refine filterMap_congr fun q _ => ?_
  by_cases hkind : q.1.1 = exception
  · cases hhost : q.1.2.indexHost with
    | none => simp [hkind]
    | some host => simp [hkind]
  · simp [hkind]

/-- **A search goes through the rules that are looked at**, in turn. -/
theorem found_looked (hcount : ps.length ≤ 2 ^ 32) (exception : Bool) (url : Str) :
    ((hostOf url :: parents (hostOf url)).flatMap (fun name =>
        (indexed ps exception).filterMap (fun entry => if entry.1 = name then some entry.2 else none)) ++
      unindexed ps exception).filterMap (fun index => (ps.map Prod.snd)[index]?) = looked ps exception url := by
  have hgeneric : (unindexed ps exception).filterMap (fun index => (ps.map Prod.snd)[index]?) =
      under ps exception none := by
    have hrules := rules_of_numbers hcount fun q => decide (q.1 = exception ∧ q.2.indexHost = none)
    simp only [decide_eq_true_eq] at hrules
    exact hrules
  have hhost : ∀ name, ((indexed ps exception).filterMap (fun entry =>
      if entry.1 = name then some entry.2 else none)).filterMap (fun index => (ps.map Prod.snd)[index]?) =
        under ps exception (some name) := by
    intro name
    rw [numbers_under]
    have hrules := rules_of_numbers hcount fun q => decide (q.1 = exception ∧ q.2.indexHost = some name)
    rw [hrules]
    simp only [decide_eq_true_eq]
    rfl
  rw [filterMap_append, hgeneric, filterMap_flatMap]
  simp only [hhost]
  rfl

theorem firstMatch_blocks (h : Indexed ps set)
    (hcount : ps.length ≤ 2 ^ 32) (url : Str) : set.firstMatch url set.blocksByHost set.blocksGeneric =
      (looked ps false url).find? (fun rule => rule.matches url) := by
  unfold FilterSet.firstMatch
  rw [h.rules, h.blocksByHost, h.blocksGeneric, ← found_looked hcount]

theorem firstMatch_allows (h : Indexed ps set)
    (hcount : ps.length ≤ 2 ^ 32) (url : Str) : set.firstMatch url set.allowsByHost set.allowsGeneric =
      (looked ps true url).find? (fun rule => rule.matches url) := by
  unfold FilterSet.firstMatch
  rw [h.rules, h.allowsByHost, h.allowsGeneric, ← found_looked hcount]

/-! ## Which rules are looked at -/

/-- The host from a place of the address on. -/
def hostFrom (place : Str) : Str := place.takeWhile (fun c => !endsHost c)

theorem hostFrom_cons {c : Char} (hc : endsHost c = false) (place : Str) : hostFrom (c :: place) = c :: hostFrom place := by
  unfold hostFrom
  rw [takeWhile_cons_of_pos (by rw [hc]; rfl)]

/-! ## When it is what the list asks -/

/-- Some rule of a kind that is looked at matches. -/
def ReachedMatched (ps : List (Bool × Rule)) (exception : Bool) (url : Str) : Prop :=
  ∃ rule, (exception, rule) ∈ ps ∧ Reached url rule ∧ rule.matches url = true

/-- Of the blocking rules that are looked at, the first that matches is important. -/
def ImportantFirst (ps : List (Bool × Rule)) (url : Str) : Prop :=
  ∃ before rule after, looked ps false url = before ++ rule :: after ∧
    (∀ other ∈ before, other.matches url = false) ∧ rule.matches url = true ∧ rule.important = true

/-- The index and the order of the search change nothing for the address. -/
structure AgreesOn (ps : List (Bool × Rule)) (url : Str) : Prop where
  /-- If the list asks to block, a blocking rule that matches is looked at. -/
  blocks_reached : Asked ps url → ReachedMatched ps false url
  /-- A rule that matches does not hide an important one behind it, where an exception is looked at. -/
  important_first : ImportantMatched ps url → ReachedMatched ps true url → ImportantFirst ps url
  /-- An exception that matches is looked at, where there is no important rule. -/
  exceptions_reached : Matched ps true url → ¬ ImportantMatched ps url → ReachedMatched ps false url →
    ReachedMatched ps true url

theorem reachedMatched_iff :
    ((looked ps exception url).find? (fun rule => rule.matches url)).isSome ↔ ReachedMatched ps exception url := by
  rw [find?_isSome]
  unfold ReachedMatched
  simp only [mem_looked, and_assoc]

/-- What the search answers. -/
def Blocks (ps : List (Bool × Rule)) (url : Str) : Prop :=
  ReachedMatched ps false url ∧ (ImportantFirst ps url ∨ ¬ ReachedMatched ps true url)

theorem find?_important {rule : Rule} (h : (looked ps false url).find? (fun rule => rule.matches url) = some rule) :
    rule.important = true ↔ ImportantFirst ps url := by
  obtain ⟨hmatch, before, after, hlooked, hbefore⟩ := find?_eq_some_iff_append.mp h
  constructor
  · intro himportant
    exact ⟨before, rule, after, hlooked, fun other hother => by simpa using hbefore other hother, hmatch, himportant⟩
  · rintro ⟨before', rule', after', hlooked', hbefore', hmatch', himportant⟩
    have hfind : (looked ps false url).find? (fun rule => rule.matches url) = some rule' :=
      find?_eq_some_iff_append.mpr
        ⟨hmatch', before', after', hlooked', fun other hother => by simpa using hbefore' other hother⟩
    rw [h] at hfind
    cases hfind
    exact himportant

/-- The answer of the search is what the list asks exactly where they agree. -/
theorem blocks_iff_asked : (Blocks ps url ↔ Asked ps url) ↔ AgreesOn ps url := by
  have hreached : ∀ exception, ReachedMatched ps exception url → Matched ps exception url :=
    fun _ ⟨rule, hp, _, hm⟩ => ⟨rule, hp, hm⟩
  have hfirst : ImportantFirst ps url → ImportantMatched ps url := by
    rintro ⟨before, rule, after, hlooked, -, hm, himportant⟩
    have hmem : rule ∈ looked ps false url := hlooked ▸ mem_append_right _ mem_cons_self
    exact ⟨rule, (mem_looked.mp hmem).1, himportant, hm⟩
  constructor
  · intro h
    refine ⟨fun hasked => (h.mpr hasked).1, fun himportant hallowed => ?_, fun hexception hno hblocks => ?_⟩
    · exact (h.mpr (.inl himportant)).2.resolve_right fun hno => hno hallowed
    · by_contra hnone
      rcases h.mp ⟨hblocks, .inr hnone⟩ with himportant | ⟨-, hnot⟩
      · exact hno himportant
      · exact hnot hexception
  · rintro ⟨hblocks, himportant, hexceptions⟩
    constructor
    · rintro ⟨hfound, hi | hnone⟩
      · exact .inl (hfirst hi)
      · by_cases hx : ImportantMatched ps url
        · exact .inl hx
        · exact .inr ⟨hreached false hfound, fun hmatched => hnone (hexceptions hmatched hx hfound)⟩
    · intro hasked
      refine ⟨hblocks hasked, ?_⟩
      by_cases hallowed : ReachedMatched ps true url
      · refine .inl (himportant ?_ hallowed)
        exact hasked.resolve_right fun hno => hno.2 (hreached true hallowed)
      · exact .inr hallowed

/-- **The rule that blocks an address**, as the search finds it. -/
theorem blockingRule_isSome {text : Str} (hcount : (accepted lc text).length ≤ 2 ^ 32) :
    ((FilterSet.parse lc text).blockingRule lc url).isSome ↔
      ∃ address, lookedUp lc url = some address ∧ Blocks (accepted lc text) address := by
  have hset := parse_indexed lc text
  unfold FilterSet.blockingRule
  cases haddress : lookedUp lc url with
  | none => simp
  | some address =>
    simp only [bind_eq_bind, bind_some, some.injEq, exists_eq_left']
    rw [firstMatch_blocks hset hcount, firstMatch_allows hset hcount]
    unfold Blocks
    rw [← reachedMatched_iff, ← reachedMatched_iff]
    cases hblock : (looked (accepted lc text) false address).find? (fun rule => rule.matches address) with
    | none => simp
    | some block =>
      rw [← find?_important hblock]
      cases himportant : block.important <;>
        cases (looked (accepted lc text) true address).find? (fun rule => rule.matches address) <;> simp [himportant]

/-- **An address is blocked as the list asks** if and only if the index and the order of the search change
nothing: for every list with no more rules than a `u32` can number, and every address. -/
theorem blockingRule_iff (text url : Str) (hcount : (accepted lc text).length ≤ 2 ^ 32) :
    (((FilterSet.parse lc text).blockingRule lc url).isSome ↔
        ∃ address, lookedUp lc url = some address ∧ Asked (accepted lc text) address) ↔
      ∀ address, lookedUp lc url = some address → AgreesOn (accepted lc text) address := by
  rw [blockingRule_isSome lc hcount]
  cases haddress : lookedUp lc url with
  | none => simp
  | some address =>
    simp only [some.injEq, exists_eq_left', forall_eq']
    exact blocks_iff_asked

/-! ## Lists -/

/-- As they behave on ASCII. -/
def ascii : Lowercase := ⟨fun c => [c.toLower], asciiLower⟩

/-- A rule about part of a host is not found under the host. -/
def partialHost : Str := "||ads.exam"

def adsAddress : Str := "https://ads.example.com/x"

/-- The list asks to block the address, and the rule is never looked at. -/
theorem partialHost_missed : ¬ (((FilterSet.parse ascii partialHost).blockingRule ascii adsAddress).isSome ↔
    ∃ address, lookedUp ascii adsAddress = some address ∧ Asked (accepted ascii partialHost) address) := by
  intro h
  have hnone : (FilterSet.parse ascii partialHost).blockingRule ascii adsAddress = none := by decide
  have hasked : Asked (accepted ascii partialHost) adsAddress := by
    refine .inr ⟨⟨⟨partialHost, true, false, false, [.lit "ads.exam"], false⟩, by decide, by decide⟩, ?_⟩
    rintro ⟨rule, hrule, -⟩
    have hlist : accepted ascii partialHost =
      [(false, ⟨partialHost, true, false, false, [.lit "ads.exam"], false⟩)] := by decide
    rw [hlist, mem_singleton] at hrule
    cases hrule
  have hsome := h.mpr ⟨adsAddress, by decide, hasked⟩
  rw [hnone] at hsome
  cases hsome

/-- An important rule behind one that is not, and an exception. -/
def shadowed : Str := "||ads.example.com^\nexample.com/x$important\n@@||example.com^"

/-- The first rule that matches is let through, and the important one is not asked. -/
example : (FilterSet.parse ascii shadowed).blockingRule ascii adsAddress = none ∧
    (accepted ascii shadowed).any (fun p => !p.1 && p.2.important && p.2.matches adsAddress) = true := by decide

/-- Where the list blocks a whole host, the address is blocked as it asks exactly if they agree. -/
theorem wholeHost_agrees : (((FilterSet.parse ascii "||example.com^").blockingRule ascii adsAddress).isSome ↔
      ∃ address, lookedUp ascii adsAddress = some address ∧ Asked (accepted ascii "||example.com^") address) ↔
    ∀ address, lookedUp ascii adsAddress = some address →
      AgreesOn (accepted ascii "||example.com^") address :=
  blockingRule_iff ascii "||example.com^" adsAddress (by decide)

end Oreneta.Privacy

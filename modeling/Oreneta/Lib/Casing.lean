import Mathlib.Tactic.IntervalCases
import Oreneta.Lib.Trim

/-!
# Lower-casing

`str::to_lowercase`: every character has its lower case, of one character or more, except that a capital
sigma is `ς` at the end of a word and `σ` elsewhere.  The tables of Unicode are a parameter (`Casing`),
with what every version of them holds.

* `lower` — the whole text; `lowerIn` — a piece of it, between what stands before and after it.
* `lower_append` — a text is lower-cased piece by piece, each between the others.
* `lowerIn_eq_flatMap` — without a capital sigma the neighbours make no difference.
* `openLeft`, `openRight` — a sigma whose form what comes before, or after, the text decides;
  `lowerIn_eq_lower` — without one the neighbours make no difference, and `lowerIn_ne_of_openLeft`,
  `lowerIn_ne_of_openRight` — with one they do.
* `lowerIn_asciiEq` — texts that differ in ASCII case only have one lower case.
-/

namespace Oreneta.Text

open List

/-- The letter case of characters, as Unicode has it. -/
structure Casing where
  /-- `char::to_lowercase`. -/
  lowerChar : Char → Str
  /-- `Cased`. -/
  cased : Char → Bool
  /-- `Case_Ignorable`. -/
  caseIgnorable : Char → Bool
  ascii : ∀ c : Char, c.toNat < 128 → lowerChar c = [c.toLower]
  ne_nil : ∀ c, lowerChar c ≠ []
  /-- A lower case is its own. -/
  fixed : ∀ c, ∀ d ∈ lowerChar c, lowerChar d = [d]
  sigma : lowerChar 'Σ' = ['σ']
  finalSigma : lowerChar 'ς' = ['ς']
  letter : ∀ c : Char, c.isAlpha = true → cased c = true ∧ caseIgnorable c = false
  sigmaCased : ∀ c ∈ ['Σ', 'σ', 'ς'], cased c = true ∧ caseIgnorable c = false
  space : ∀ c, isWhitespace c = true → lowerChar c = [c] ∧ cased c = false ∧ caseIgnorable c = false
  nonspace : ∀ c, isWhitespace c = false → ∀ d ∈ lowerChar c, isWhitespace d = false

namespace Casing

variable (U : Casing)

/-- Whether the first character that is not ignored is a cased one. -/
def casedNear (s : Str) : Bool :=
  match s.dropWhile U.caseIgnorable with
  | c :: _ => U.cased c
  | [] => false

/-- The lower case of a capital sigma; `before` is read backwards from it. -/
def sigmaIn (before after : Str) : Char :=
  if U.casedNear before && !U.casedNear after then 'ς' else 'σ'

def lowerAt (before : Str) (c : Char) (after : Str) : Str :=
  if c = 'Σ' then [U.sigmaIn before after] else U.lowerChar c

/-- The lower case of a piece of text; `before` is read backwards from it. -/
def lowerIn : Str → Str → Str → Str
  | _, [], _ => []
  | before, c :: s, after => U.lowerAt before c (s ++ after) ++ lowerIn (c :: before) s after

/-- `str::to_lowercase`. -/
def lower (s : Str) : Str := U.lowerIn [] s []

/-! ## Piece by piece -/

theorem lowerIn_append (before a b after : Str) : U.lowerIn before (a ++ b) after =
      U.lowerIn before a (b ++ after) ++ U.lowerIn (a.reverse ++ before) b after := by
  induction a generalizing before with
  | nil => rfl
  | cons c a ih =>
    rw [cons_append, lowerIn, ih, lowerIn, append_assoc, append_assoc]
    simp

theorem lower_append (a b : Str) : U.lower (a ++ b) = U.lowerIn [] a b ++ U.lowerIn a.reverse b [] := by
  unfold lower
  rw [lowerIn_append, append_nil, append_nil]

variable {before after s : Str}

theorem lowerIn_congr {before' after' : Str} (h : ∀ a b, s = a ++ 'Σ' :: b →
      U.sigmaIn (a.reverse ++ before) (b ++ after) = U.sigmaIn (a.reverse ++ before') (b ++ after')) :
    U.lowerIn before s after = U.lowerIn before' s after' := by
  induction s generalizing before before' with
  | nil => rfl
  | cons c s ih =>
    have hhead : U.lowerAt before c (s ++ after) = U.lowerAt before' c (s ++ after') := by
      unfold lowerAt
      split
      · rename_i hc
        subst hc
        rw [show U.sigmaIn before (s ++ after) = U.sigmaIn before' (s ++ after') from h [] s rfl]
      · rfl
    have htail : U.lowerIn (c :: before) s after = U.lowerIn (c :: before') s after' := by
      apply ih
      intro a b hs
      have := h (c :: a) b (by rw [hs, cons_append])
      simpa using this
    rw [lowerIn, lowerIn, hhead, htail]

/-- Without a capital sigma the neighbours make no difference. -/
theorem lowerIn_eq_flatMap (h : 'Σ' ∉ s) (before after : Str) : U.lowerIn before s after = s.flatMap U.lowerChar := by
  induction s generalizing before with
  | nil => rfl
  | cons c s ih =>
    rw [mem_cons, not_or] at h
    rw [lowerIn, ih h.2, flatMap_cons, lowerAt, if_neg (Ne.symm h.1)]

theorem lower_ascii (h : ∀ c ∈ s, c.toNat < 128) : U.lower s = asciiLower s := by
  have hsigma : 'Σ' ∉ s := fun hm => absurd (h _ hm) (by decide)
  unfold lower
  rw [U.lowerIn_eq_flatMap hsigma]
  induction s with
  | nil => rfl
  | cons c s ih =>
    obtain ⟨hc, hs⟩ := forall_mem_cons.mp h
    rw [flatMap_cons, U.ascii c hc, ih hs fun hm => hsigma (mem_cons_of_mem _ hm)]
    rfl

theorem lowerAt_length (before before' after after' : Str) (c : Char) :
    (U.lowerAt before c after).length = (U.lowerAt before' c after').length := by
  unfold lowerAt
  split
  · rfl
  · rfl

theorem lowerIn_length (before before' after after' s : Str) :
    (U.lowerIn before s after).length = (U.lowerIn before' s after').length := by
  induction s generalizing before before' with
  | nil => rfl
  | cons c s ih =>
    rw [lowerIn, lowerIn, length_append, length_append, ih (c :: before) (c :: before'),
      U.lowerAt_length before before' _ (s ++ after')]

theorem lowerAt_ne_nil (before after : Str) (c : Char) : U.lowerAt before c after ≠ [] := by
  unfold lowerAt
  split
  · exact cons_ne_nil _ _
  · exact U.ne_nil c

theorem lowerIn_ne_nil (h : s ≠ []) (before after : Str) : U.lowerIn before s after ≠ [] := by
  cases s with
  | nil => exact absurd rfl h
  | cons c s =>
    intro he
    exact U.lowerAt_ne_nil _ _ c (append_eq_nil_iff.mp he).1

theorem lower_ne_nil (h : s ≠ []) : U.lower s ≠ [] := U.lowerIn_ne_nil h [] []

/-! ## Characters of a lower case -/

theorem sigmaIn_cases (before after : Str) : U.sigmaIn before after = 'σ' ∨ U.sigmaIn before after = 'ς' := by
  unfold sigmaIn
  split
  · exact .inr rfl
  · exact .inl rfl

theorem smallSigma : U.lowerChar 'σ' = ['σ'] := U.fixed 'Σ' 'σ' (by rw [U.sigma]; simp)

theorem mem_lowerIn {d : Char} (h : d ∈ U.lowerIn before s after) :
    ∃ u c v, s = u ++ c :: v ∧ d ∈ U.lowerAt (u.reverse ++ before) c (v ++ after) := by
  induction s generalizing before with
  | nil => cases h
  | cons c s ih =>
    rw [lowerIn, mem_append] at h
    rcases h with h | h
    · exact ⟨[], c, s, rfl, h⟩
    · obtain ⟨u, e, v, rfl, hd⟩ := ih h
      exact ⟨c :: u, e, v, rfl, by simpa using hd⟩

/-- A character of a lower case is its own lower case. -/
theorem fixed_of_mem_lowerAt {c d : Char} (h : d ∈ U.lowerAt before c after) : U.lowerChar d = [d] := by
  unfold lowerAt at h
  split at h
  · rw [mem_singleton] at h
    rcases U.sigmaIn_cases before after with hs | hs
    · rw [h, hs]
      exact U.smallSigma
    · rw [h, hs]
      exact U.finalSigma
  · exact U.fixed c d h

theorem fixed_of_mem_lowerIn {d : Char} (h : d ∈ U.lowerIn before s after) : U.lowerChar d = [d] := by
  obtain ⟨u, c, v, -, hd⟩ := U.mem_lowerIn h
  exact U.fixed_of_mem_lowerAt hd

theorem ne_sigma_of_fixed {d : Char} (h : U.lowerChar d = [d]) : d ≠ 'Σ' := by
  rintro rfl
  rw [U.sigma] at h
  exact absurd h (by decide)

/-- A text whose characters are their own lower case. -/
theorem lowerIn_fixed (h : ∀ c ∈ s, U.lowerChar c = [c]) (before after : Str) : U.lowerIn before s after = s := by
  have hs : 'Σ' ∉ s := fun hm => U.ne_sigma_of_fixed (h _ hm) rfl
  rw [U.lowerIn_eq_flatMap hs]
  clear hs
  induction s with
  | nil => rfl
  | cons c s ih =>
    rw [flatMap_cons, h c (by simp), ih fun d hd => h d (mem_cons_of_mem _ hd)]
    rfl

theorem lower_lower (s : Str) : U.lower (U.lower s) = U.lower s :=
  U.lowerIn_fixed (fun _ hc => U.fixed_of_mem_lowerIn hc) [] []

theorem lowerAt_nonspace {c : Char} (h : isWhitespace c = false) : ∀ d ∈ U.lowerAt before c after, isWhitespace d = false := by
  intro d hd
  unfold lowerAt at hd
  split at hd
  · rw [mem_singleton] at hd
    rcases U.sigmaIn_cases before after with hs | hs
    · rw [hd, hs]
      rfl
    · rw [hd, hs]
      rfl
  · exact U.nonspace c h d hd

theorem lowerIn_nonspace (h : ∀ c ∈ s, isWhitespace c = false) (before after : Str) :
    ∀ d ∈ U.lowerIn before s after, isWhitespace d = false := by
  intro d hd
  obtain ⟨u, c, v, rfl, hc⟩ := U.mem_lowerIn hd
  exact U.lowerAt_nonspace (h c (by simp)) d hc

theorem lowerIn_space (h : ∀ c ∈ s, isWhitespace c = true) (before after : Str) : U.lowerIn before s after = s :=
  U.lowerIn_fixed (fun c hc => (U.space c (h c hc)).1) before after

/-- What has no white space at its ends has none at the ends of its lower case. -/
theorem lowerIn_trimmed (h : Trimmed isWhitespace s) (before after : Str) : Trimmed isWhitespace (U.lowerIn before s after) := by
  constructor
  · cases s with
    | nil => intro d hd; cases hd
    | cons c s =>
      intro d hd
      have hc : isWhitespace c = false := h.1 c rfl
      rw [lowerIn, head?_append_of_ne_nil _ (U.lowerAt_ne_nil _ _ c)] at hd
      exact U.lowerAt_nonspace hc d (mem_of_mem_head? hd)
  · rcases eq_nil_or_concat s with rfl | ⟨s, c, rfl⟩
    · intro d hd
      cases hd
    · intro d hd
      have hc : isWhitespace c = false := h.2 c (by simp)
      have hne : U.lowerIn (s.reverse ++ before) [c] after ≠ [] :=
        U.lowerIn_ne_nil (cons_ne_nil _ _) _ _
      rw [concat_eq_append, lowerIn_append, getLast?_append_of_ne_nil _ hne] at hd
      exact U.lowerIn_nonspace (fun e he => by rwa [mem_singleton.mp he]) _ _ d (mem_of_mem_getLast? hd)

/-! ## What the neighbours decide -/

theorem casedNear_append (a u : Str) : U.casedNear (a ++ u) = if a.all U.caseIgnorable then U.casedNear u else U.casedNear a := by
  induction a with
  | nil => rfl
  | cons c a ih =>
    unfold casedNear at ih ⊢
    cases hc : U.caseIgnorable c with
    | true => simpa [dropWhile_cons, hc] using ih
    | false => simp [hc]

theorem casedNear_of_all {a : Str} (h : a.all U.caseIgnorable = true) : U.casedNear a = false := by
  have := U.casedNear_append a []
  rw [if_pos h, append_nil] at this
  rw [this]
  rfl

theorem casedNear_letter {x : Char} (h : x.isAlpha = true) (s : Str) : U.casedNear (x :: s) = true := by
  obtain ⟨hc, hi⟩ := U.letter x h
  simp [casedNear, hi, hc]

theorem casedNear_space {x : Char} (h : isWhitespace x = true) (s : Str) : U.casedNear (x :: s) = false := by
  obtain ⟨-, hc, hi⟩ := U.space x h
  simp [casedNear, hi, hc]

theorem casedNear_spaces (h : ∀ c ∈ s, isWhitespace c = true) : U.casedNear s = false := by
  cases s with
  | nil => rfl
  | cons c s => exact U.casedNear_space (h c (by simp)) s

/-- The form of the first sigma is decided by what comes before the text. -/
def openLeft (s : Str) : Bool :=
  match s.dropWhile U.caseIgnorable with
  | c :: b => c = 'Σ' && !U.casedNear b
  | [] => false

/-- The form of the last sigma is decided by what comes after the text. -/
def openRight (s : Str) : Bool :=
  match s.reverse.dropWhile U.caseIgnorable with
  | c :: a => c = 'Σ' && U.casedNear a
  | [] => false

theorem dropWhile_sigma {a : Str} (h : a.all U.caseIgnorable = true) (b : Str) :
    (a ++ 'Σ' :: b).dropWhile U.caseIgnorable = 'Σ' :: b := by
  rw [dropWhile_append_of_pos fun c hc => all_eq_true.mp h c hc,
    dropWhile_cons_of_neg (by simp [(U.sigmaCased 'Σ' (by simp)).2])]

theorem openLeft_iff : U.openLeft s = true ↔ ∃ a b, s = a ++ 'Σ' :: b ∧ a.all U.caseIgnorable = true ∧ U.casedNear b = false := by
  constructor
  · intro h
    unfold openLeft at h
    split at h
    · rename_i c b hd
      simp only [Bool.and_eq_true, decide_eq_true_eq, Bool.not_eq_true'] at h
      refine ⟨s.takeWhile U.caseIgnorable, b, ?_, ?_, h.2⟩
      · rw [← h.1, ← hd, takeWhile_append_dropWhile]
      · exact all_eq_true.mpr fun c hc => mem_takeWhile_imp hc
    · cases h
  · rintro ⟨a, b, rfl, ha, hb⟩
    unfold openLeft
    rw [U.dropWhile_sigma ha]
    simp [hb]

theorem openRight_iff : U.openRight s = true ↔
    ∃ a b, s = a ++ 'Σ' :: b ∧ b.all U.caseIgnorable = true ∧ U.casedNear a.reverse = true := by
  constructor
  · intro h
    unfold openRight at h
    split at h
    · rename_i c a hd
      simp only [Bool.and_eq_true, decide_eq_true_eq] at h
      refine ⟨a.reverse, (s.reverse.takeWhile U.caseIgnorable).reverse, ?_, ?_, ?_⟩
      · have hs := takeWhile_append_dropWhile (p := U.caseIgnorable) (l := s.reverse)
        rw [hd, h.1] at hs
        calc s = s.reverse.reverse := (reverse_reverse s).symm
          _ = (s.reverse.takeWhile U.caseIgnorable ++ 'Σ' :: a).reverse := by rw [hs]
          _ = a.reverse ++ 'Σ' :: (s.reverse.takeWhile U.caseIgnorable).reverse := by simp
      · rw [all_reverse]
        exact all_eq_true.mpr fun c hc => mem_takeWhile_imp hc
      · rw [reverse_reverse]
        exact h.2
    · cases h
  · rintro ⟨a, b, rfl, hb, ha⟩
    have hr : (a ++ 'Σ' :: b).reverse = b.reverse ++ 'Σ' :: a.reverse := by simp
    unfold openRight
    rw [hr, U.dropWhile_sigma (by rw [all_reverse]; exact hb)]
    simp [ha]

/-- A piece whose sigmas are not open towards its neighbours is lower-cased as it would be alone. -/
theorem lowerIn_eq_lower (hleft : U.casedNear before = true → U.openLeft s = false)
    (hright : U.casedNear after = true → U.openRight s = false) : U.lowerIn before s after = U.lower s := by
  apply U.lowerIn_congr
  intro a b hs
  have hl : U.casedNear before = true → a.all U.caseIgnorable = true → U.casedNear b = true := by
    intro hb ha
    by_contra hn
    have := U.openLeft_iff.mpr ⟨a, b, hs, ha, Bool.eq_false_iff.mpr hn⟩
    rw [hleft hb] at this
    cases this
  have hr : U.casedNear after = true → b.all U.caseIgnorable = true → U.casedNear a.reverse = false := by
    intro haf hb
    by_contra hn
    have := U.openRight_iff.mpr ⟨a, b, hs, hb, by simpa using hn⟩
    rw [hright haf] at this
    cases this
  unfold sigmaIn
  rw [U.casedNear_append, U.casedNear_append b after, append_nil, append_nil, all_reverse]
  -- a side that is all ignored looks past the text; alone, it sees nothing there
  cases ha : a.all U.caseIgnorable with
  | true =>
    have han : U.casedNear a.reverse = false := U.casedNear_of_all (by rw [all_reverse]; exact ha)
    cases hb : b.all U.caseIgnorable with
    | true =>
      have hbn := U.casedNear_of_all hb
      cases hbe : U.casedNear before with
      | true =>
        rw [hl hbe ha] at hbn
        cases hbn
      | false => simp [han]
    | false =>
      cases hbe : U.casedNear before with
      | true => simp [han, hl hbe ha]
      | false => simp [han]
  | false =>
    cases hb : b.all U.caseIgnorable with
    | true =>
      cases haf : U.casedNear after with
      | true => simp [hr haf hb]
      | false => simp [U.casedNear_of_all hb]
    | false => rfl

theorem lowerIn_sigma_ne {before' after' a b : Str}
    (h : U.sigmaIn (a.reverse ++ before) (b ++ after) ≠ U.sigmaIn (a.reverse ++ before') (b ++ after')) :
    U.lowerIn before (a ++ 'Σ' :: b) after ≠ U.lowerIn before' (a ++ 'Σ' :: b) after' := by
  intro he
  rw [lowerIn_append, U.lowerIn_append before', lowerIn, lowerIn] at he
  have hlen := U.lowerIn_length before before' ('Σ' :: b ++ after) ('Σ' :: b ++ after') a
  have htail := (append_inj he hlen).2
  have hs : ∀ x y, U.lowerAt x 'Σ' y = [U.sigmaIn x y] := fun _ _ => rfl
  rw [hs, hs] at htail
  exact h (List.cons.inj htail).1

theorem lowerIn_ne_of_openLeft (h : U.openLeft s = true) (hb : U.casedNear before = true) :
    U.lowerIn before s [] ≠ U.lower s := by
  obtain ⟨a, b, rfl, ha, hcb⟩ := U.openLeft_iff.mp h
  apply U.lowerIn_sigma_ne
  have ha' : a.reverse.all U.caseIgnorable = true := by rw [all_reverse]; exact ha
  unfold sigmaIn
  rw [U.casedNear_append, if_pos ha', append_nil, append_nil, hb, hcb, U.casedNear_of_all ha']
  decide

theorem lowerIn_ne_of_openRight (h : U.openRight s = true) (haf : U.casedNear after = true) :
    U.lowerIn [] s after ≠ U.lower s := by
  obtain ⟨a, b, rfl, hb, hca⟩ := U.openRight_iff.mp h
  apply U.lowerIn_sigma_ne
  unfold sigmaIn
  rw [U.casedNear_append b after, if_pos hb, append_nil, append_nil, haf, hca, U.casedNear_of_all hb]
  decide

/-! ## ASCII case -/

theorem toLower_cases (c : Char) : c.toLower = c ∨ (c.isAlpha = true ∧ c.toLower.isAlpha = true ∧
    c.toNat < 128 ∧ c.toLower.toNat < 128) := by
  by_cases h : 65 ≤ c.toNat ∧ c.toNat ≤ 90
  · right
    have hc : c = Char.ofNat c.toNat := (Char.ofNat_toNat c).symm
    obtain ⟨h1, h2⟩ := h
    generalize c.toNat = n at *
    subst hc
    interval_cases n <;> decide
  · left
    delta Char.toLower
    rw [dif_neg]
    rintro ⟨h1, h2⟩
    exact h ⟨h1, h2⟩

theorem toLower_toLower (c : Char) : c.toLower.toLower = c.toLower := by
  have h := isUpper_toLower c
  delta Char.toLower
  rw [dif_neg]
  intro hu
  exact Bool.eq_false_iff.mp h (decide_eq_true hu)

theorem lowerChar_toLower (c : Char) : U.lowerChar c.toLower = U.lowerChar c := by
  rcases toLower_cases c with h | ⟨-, -, h1, h2⟩
  · rw [h]
  · rw [U.ascii _ h1, U.ascii _ h2, toLower_toLower]

theorem cased_toLower (c : Char) : U.cased c.toLower = U.cased c := by
  rcases toLower_cases c with h | ⟨h1, h2, -, -⟩
  · rw [h]
  · rw [(U.letter _ h1).1, (U.letter _ h2).1]

theorem caseIgnorable_toLower (c : Char) : U.caseIgnorable c.toLower = U.caseIgnorable c := by
  rcases toLower_cases c with h | ⟨h1, h2, -, -⟩
  · rw [h]
  · rw [(U.letter _ h1).2, (U.letter _ h2).2]

theorem toLower_eq_sigma {c : Char} : c.toLower = 'Σ' ↔ c = 'Σ' := by
  rcases toLower_cases c with h | ⟨-, -, h1, h2⟩
  · rw [h]
  · constructor
    · intro h
      rw [h] at h2
      exact absurd h2 (by decide)
    · intro h
      rw [h] at h1
      exact absurd h1 (by decide)

theorem casedNear_asciiLower (s : Str) : U.casedNear (asciiLower s) = U.casedNear s := by
  induction s with
  | nil => rfl
  | cons c s ih =>
    have hmap : asciiLower (c :: s) = c.toLower :: asciiLower s := rfl
    have hi := U.caseIgnorable_toLower c
    unfold casedNear at ih ⊢
    rw [hmap]
    cases hc : U.caseIgnorable c with
    | true =>
      rw [hc] at hi
      rw [dropWhile_cons_of_pos hi, dropWhile_cons_of_pos hc]
      exact ih
    | false =>
      rw [hc] at hi
      simp only [dropWhile_cons, hi, hc]
      exact U.cased_toLower c

theorem casedNear_asciiEq {t : Str} (h : asciiLower s = asciiLower t) : U.casedNear s = U.casedNear t := by
  rw [← U.casedNear_asciiLower, h, U.casedNear_asciiLower]

/-- Texts that differ in ASCII case only have one lower case. -/
theorem lowerIn_asciiEq {t : Str} (h : asciiLower s = asciiLower t) {before' : Str}
    (hb : asciiLower before = asciiLower before') (after : Str) : U.lowerIn before s after = U.lowerIn before' t after := by
  induction s generalizing before before' t with
  | nil =>
    cases t with
    | nil => rfl
    | cons d t => cases h
  | cons c s ih =>
    cases t with
    | nil => cases h
    | cons d t =>
      have hcd : c.toLower = d.toLower := (List.cons.inj h).1
      have hst : asciiLower s = asciiLower t := (List.cons.inj h).2
      have hhead : U.lowerAt before c (s ++ after) = U.lowerAt before' d (t ++ after) := by
        have hsig : c = 'Σ' ↔ d = 'Σ' := by rw [← toLower_eq_sigma, hcd, toLower_eq_sigma]
        have hafter : asciiLower (s ++ after) = asciiLower (t ++ after) := by
          unfold asciiLower at hst ⊢
          rw [map_append, map_append, hst]
        unfold lowerAt sigmaIn
        rw [U.casedNear_asciiEq hb, U.casedNear_asciiEq hafter, ← U.lowerChar_toLower c, hcd, U.lowerChar_toLower d]
        simp only [hsig]
      have htail : U.lowerIn (c :: before) s after = U.lowerIn (d :: before') t after := by
        apply ih hst
        unfold asciiLower at hb ⊢
        rw [map_cons, map_cons, hcd, hb]
      rw [lowerIn, lowerIn, hhead, htail]

end Casing

end Oreneta.Text

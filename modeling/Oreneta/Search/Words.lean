import Oreneta.Lib.Lines
import Oreneta.Search.Query

/-!
# Words and days of a search

* `tokenize_join` — parts with spaces between them are read as their words; a part in quotes is one (`Writes`).
* `spaced_join_iff` — a text written with single spaces.
* `parseDay_dayOf` — the days that are read back.
-/

namespace Oreneta.Search

open Text Civil Decimal List Option

variable {s cur rest w v p tok : Str} {q : Bool} {at_ : Int} {query : Query}

/-! ## Splitting -/

theorem tokenizeFrom_nil (q : Bool) (cur : Str) : tokenizeFrom q cur [] = if cur.isEmpty then [] else [cur] := rfl

theorem tokenizeFrom_cons (q : Bool) (cur : Str) (c : Char) (rest : Str) : tokenizeFrom q cur (c :: rest) =
    if c = '"' then tokenizeFrom (!q) cur rest else if Text.isWhitespace c && !q then
      if cur.isEmpty then tokenizeFrom q [] rest else cur :: tokenizeFrom q [] rest else tokenizeFrom q (cur ++ [c]) rest := rfl

/-- White space ends a word. -/
theorem tokenizeFrom_white {c : Char} (hspace : Text.isWhitespace c = true) (cur rest : Str) :
    tokenizeFrom false cur (c :: rest) = tokenizeFrom false cur [] ++ tokenizeFrom false [] rest := by
  have hc : c ≠ '"' := by
    rintro rfl
    exact absurd hspace (by decide)
  rw [tokenizeFrom_cons, tokenizeFrom_nil, if_neg hc, hspace, Bool.not_false, Bool.and_self, if_pos rfl]
  split
  · rfl
  · rfl

/-- A run of plain characters is taken as it is. -/
theorem tokenizeFrom_plain : ∀ (w cur : Str), (∀ c ∈ w, c ≠ '"' ∧ Text.isWhitespace c = false) →
    tokenizeFrom false cur (w ++ rest) = tokenizeFrom false (cur ++ w) rest
  | [], cur, _ => by rw [nil_append, append_nil]
  | c :: w, cur, h => by
    obtain ⟨hc, hspace⟩ := h c mem_cons_self
    rw [cons_append, tokenizeFrom_cons, if_neg hc, hspace, Bool.false_and, if_neg Bool.false_ne_true,
      tokenizeFrom_plain w (cur ++ [c]) fun x hx => h x (mem_cons_of_mem _ hx), append_assoc,
      singleton_append]

/-- And so is any run in quotes. -/
theorem tokenizeFrom_quoted : ∀ (v cur : Str), '"' ∉ v →
    tokenizeFrom true cur (v ++ '"' :: rest) = tokenizeFrom false (cur ++ v) rest
  | [], cur, _ => by rw [nil_append, append_nil, tokenizeFrom_cons, if_pos rfl, Bool.not_true]
  | c :: v, cur, h => by
    have hc : c ≠ '"' := fun he => h (he ▸ mem_cons_self)
    rw [cons_append, tokenizeFrom_cons, if_neg hc, Bool.not_true, Bool.and_false, if_neg Bool.false_ne_true,
      tokenizeFrom_quoted v (cur ++ [c]) fun hm => h (mem_cons_of_mem _ hm), append_assoc,
      singleton_append]

/-- A space ends a word. -/
theorem tokenizeFrom_space : ∀ (s cur : Str), '"' ∉ s →
    tokenizeFrom false cur (s ++ ' ' :: rest) = tokenizeFrom false cur s ++ tokenizeFrom false [] rest
  | [], cur, _ => tokenizeFrom_white (by decide) cur rest
  | c :: s, cur, h => by
    have hc : c ≠ '"' := fun he => h (he ▸ mem_cons_self)
    have hs : '"' ∉ s := fun hm => h (mem_cons_of_mem _ hm)
    rw [cons_append, tokenizeFrom_cons, tokenizeFrom_cons, if_neg hc, if_neg hc]
    split
    · split
      · exact tokenizeFrom_space s [] hs
      · rw [tokenizeFrom_space s [] hs, cons_append]
    · exact tokenizeFrom_space s (cur ++ [c]) hs

/-- White space at the end makes no word. -/
theorem tokenizeFrom_blank : ∀ (s cur : Str) {blank : Str}, '"' ∉ s → (∀ c ∈ blank, isWhitespace c = true) →
    tokenizeFrom false cur (s ++ blank) = tokenizeFrom false cur s
  | [], cur, [], _, _ => rfl
  | [], cur, c :: blank, _, hblank => by
    have hspace : isWhitespace c = true := hblank c mem_cons_self
    have ih := tokenizeFrom_blank [] [] not_mem_nil fun x hx => hblank x (mem_cons_of_mem _ hx)
    rw [nil_append] at ih ⊢
    rw [tokenizeFrom_white hspace, ih, tokenizeFrom_nil false [], isEmpty_nil, if_pos rfl, append_nil]
  | c :: s, cur, blank, h, hblank => by
    have hc : c ≠ '"' := fun he => h (he ▸ mem_cons_self)
    have hs : '"' ∉ s := fun hm => h (mem_cons_of_mem _ hm)
    rw [cons_append, tokenizeFrom_cons, tokenizeFrom_cons, if_neg hc, if_neg hc]
    split
    · split
      · exact tokenizeFrom_blank s [] hs hblank
      · rw [tokenizeFrom_blank s [] hs hblank]
    · exact tokenizeFrom_blank s (cur ++ [c]) hs hblank

/-- Nor does white space at the beginning. -/
theorem tokenize_blank_append : ∀ {blank : Str}, (∀ c ∈ blank, isWhitespace c = true) → tokenize (blank ++ s) = tokenize s
  | [], _ => rfl
  | c :: blank, h => by
    have ih := tokenize_blank_append fun x hx => h x (mem_cons_of_mem c hx)
    unfold tokenize at ih ⊢
    rw [cons_append, tokenizeFrom_white (h c mem_cons_self), ih]
    rfl

theorem tokenize_trim (h : '"' ∉ s) : tokenize (Text.trim s) = tokenize s := by
  obtain ⟨before, after, hs, hbefore, hafter⟩ := Text.trimBy_split Text.isWhitespace s
  have htrim : '"' ∉ trimBy isWhitespace s := fun hm => h ((trimBy_sublist _ s).subset hm)
  conv_rhs => rw [hs, tokenize_blank_append hbefore]
  exact (tokenizeFrom_blank _ [] htrim hafter).symm

/-- What a word may hold. -/
structure Word (tok : Str) : Prop where
  ne_nil : tok ≠ []
  no_quote : '"' ∉ tok

theorem word_of_mem : ∀ {s cur : Str} {q : Bool}, '"' ∉ cur → ∀ tok ∈ tokenizeFrom q cur s, Word tok
  | [], cur, q, hcur, tok, h => by
    rw [tokenizeFrom_nil] at h
    split at h
    · cases h
    · rename_i hne
      rw [mem_singleton.mp h]
      exact ⟨by simpa using hne, hcur⟩
  | c :: s, cur, q, hcur, tok, h => by
    rw [tokenizeFrom_cons] at h
    split at h
    · exact word_of_mem hcur tok h
    · rename_i hc
      split at h
      · split at h
        · exact word_of_mem not_mem_nil tok h
        · rename_i hne
          rcases mem_cons.mp h with rfl | h
          · exact ⟨by simpa using hne, hcur⟩
          · exact word_of_mem not_mem_nil tok h
      · refine word_of_mem (fun hm => ?_) tok h
        rcases mem_append.mp hm with hm | hm
        · exact hcur hm
        · exact hc (mem_singleton.mp hm).symm

/-- A text without quotes has no white space in its words. -/
theorem no_space_of_mem : ∀ {s cur : Str}, '"' ∉ s → (∀ c ∈ cur, Text.isWhitespace c = false) →
    ∀ tok ∈ tokenizeFrom false cur s, ∀ c ∈ tok, Text.isWhitespace c = false
  | [], cur, _, hcur, tok, h => by
    rw [tokenizeFrom_nil] at h
    split at h
    · cases h
    · rw [mem_singleton.mp h]
      exact hcur
  | c :: s, cur, hs, hcur, tok, h => by
    have hc : c ≠ '"' := fun he => hs (he ▸ mem_cons_self)
    have hs' : '"' ∉ s := fun hm => hs (mem_cons_of_mem _ hm)
    rw [tokenizeFrom_cons, if_neg hc] at h
    split at h
    · split at h
      · exact no_space_of_mem hs' (forall_mem_nil _) tok h
      · rcases mem_cons.mp h with rfl | h
        · exact hcur
        · exact no_space_of_mem hs' (forall_mem_nil _) tok h
    · rename_i hspace
      refine no_space_of_mem hs' (fun x hx => ?_) tok h
      rcases mem_append.mp hx with hx | hx
      · exact hcur x hx
      · rw [mem_singleton.mp hx]
        simpa using hspace

/-! ## Words with single spaces between them -/

/-- How a part is written that is read as one word. -/
structure Writes (p tok : Str) : Prop where
  reads : ∀ cur rest, tokenizeFrom false cur (p ++ rest) = tokenizeFrom false (cur ++ tok) rest
  ne_nil : tok ≠ []

theorem Writes.plain (hne : w ≠ []) (h : ∀ c ∈ w, c ≠ '"' ∧ isWhitespace c = false) : Writes w w :=
  ⟨fun cur _ => tokenizeFrom_plain w cur h, hne⟩

/-- **Parts with spaces between them** are read as their words. -/
theorem tokenize_join {parts toks : List Str} (hall : List.Forall₂ Writes parts toks) :
    tokenize (Text.join [' '] parts) = toks := by
  induction hall with
  | nil => rfl
  | cons h hrest ih =>
    have hne := h.ne_nil
    rw [← isEmpty_eq_false_iff, ← Bool.not_eq_true] at hne
    cases hrest with
    | nil =>
      have hread := h.reads [] []
      rw [append_nil, nil_append] at hread
      unfold tokenize
      rw [Text.join, hread, tokenizeFrom_nil, if_neg hne]
    | cons _ _ =>
      unfold tokenize at ih ⊢
      rw [join_cons_cons, h.reads, nil_append, singleton_append, tokenizeFrom_white (by decide), ih,
        tokenizeFrom_nil, if_neg hne, singleton_append]

/-- A text with single spaces between its words. -/
def spaced (s : Str) : Str := Text.join [' '] (tokenize s)

theorem length_spaced_from : ∀ (s cur : Str), '"' ∉ s →
    (Text.join [' '] (tokenizeFrom false cur s)).length ≤ cur.length + s.length
  | [], cur, _ => by
    rw [tokenizeFrom_nil]
    split
    · exact Nat.zero_le _
    · exact le_refl _
  | c :: s, cur, h => by
    have hc : c ≠ '"' := fun he => h (he ▸ mem_cons_self)
    have hs : '"' ∉ s := fun hm => h (mem_cons_of_mem _ hm)
    rw [tokenizeFrom_cons, if_neg hc, length_cons]
    split
    · have ih := length_spaced_from s [] hs
      rw [length_nil] at ih
      split
      · omega
      · cases htoks : tokenizeFrom false [] s with
        | nil =>
          rw [Text.join]
          omega
        | cons tok toks =>
          rw [htoks] at ih
          rw [Text.join_cons_cons, length_append, length_append, length_singleton]
          omega
    · have ih := length_spaced_from s (cur ++ [c]) hs
      rw [length_append, length_singleton] at ih
      omega

theorem length_spaced_le (h : '"' ∉ s) : (spaced s).length ≤ s.length := by
  have hlen := length_spaced_from s [] h
  rwa [length_nil, Nat.zero_add] at hlen

/-- The words of texts put together are their words. -/
theorem tokenize_words : ∀ {words : List Str}, (∀ w ∈ words, '"' ∉ w) → tokenize (Text.join [' '] words) = words.flatMap tokenize
  | [], _ => rfl
  | [w], _ => by simp [Text.join]
  | w :: w' :: words, h => by
    have hrest : ∀ x ∈ w' :: words, '"' ∉ x := fun x hx => h x (mem_cons_of_mem _ hx)
    have ih := tokenize_words hrest
    unfold tokenize at ih ⊢
    rw [join_cons_cons, singleton_append, tokenizeFrom_space w [] (h w mem_cons_self), ih]
    rfl

/-- **A text has single spaces** exactly if each of the words it is put together from has. -/
theorem spaced_join_iff : ∀ {words : List Str}, (∀ w ∈ words, Word w) →
    (spaced (Text.join [' '] words) = Text.join [' '] words ↔ ∀ w ∈ words, spaced w = w)
  | [], _ => by simp [spaced, tokenize, tokenizeFrom, Text.join]
  | [w], _ => by simp [Text.join]
  | w :: w' :: words, h => by
    have hw := h w mem_cons_self
    have hrest : ∀ x ∈ w' :: words, Word x := fun x hx => h x (mem_cons_of_mem _ hx)
    have ih := spaced_join_iff hrest
    have hquote : ∀ x ∈ w :: w' :: words, '"' ∉ x := fun x hx => (h x hx).no_quote
    have htoks := tokenize_words fun x hx => (hrest x hx).no_quote
    have hnoq : '"' ∉ Text.join [' '] (w' :: words) := by
      intro hm
      rcases Text.mem_join hm with hm | ⟨x, hx, hm⟩
      · exact absurd hm (by decide)
      · exact (hrest x hx).no_quote hm
    have hlen1 := length_spaced_le hw.no_quote
    have hlen2 := length_spaced_le hnoq
    have hpos : 0 < (spaced w).length ∨ tokenize w = [] := by
      cases hnil : tokenize w with
      | nil => exact .inr rfl
      | cons tok toks =>
        left
        have htok := (word_of_mem not_mem_nil tok (hnil ▸ mem_cons_self : tok ∈ tokenize w)).ne_nil
        have htoklen := length_pos_iff.mpr htok
        unfold spaced
        rw [hnil]
        cases toks with
        | nil => exact htoklen
        | cons tok' toks =>
          rw [join_cons_cons, length_append]
          omega
    have hall : spaced (Text.join [' '] (w :: w' :: words)) =
        Text.join [' '] (tokenize w ++ tokenize (Text.join [' '] (w' :: words))) := by
      rw [spaced, tokenize_words hquote, htoks, flatMap_cons]
    have hjoin : Text.join [' '] (w :: w' :: words) = w ++ ' ' :: Text.join [' '] (w' :: words) := by
      rw [join_cons_cons, singleton_append]
    rw [hall, hjoin, forall_mem_cons, ← ih]
    by_cases h1 : tokenize w = []
    · -- a blank word leaves nothing
      rw [h1, nil_append]
      refine iff_of_false (fun he => ?_) fun hb => ?_
      · have := congrArg List.length he
        rw [length_append, length_cons] at this
        unfold spaced at hlen2
        omega
      · have := hb.1
        rw [spaced, h1] at this
        exact hw.ne_nil this.symm
    · by_cases h2 : tokenize (Text.join [' '] (w' :: words)) = []
      · rw [h2, append_nil]
        have hne : Text.join [' '] (w' :: words) ≠ [] := by
          intro hnil
          have hmem : ∀ c, c ∉ w' := fun c hc => by
            have hin : w' ∈ w' :: words := mem_cons_self
            have hmem : c ∈ Text.join [' '] (w' :: words) := mem_join_of_mem hin hc
            rw [hnil] at hmem
            cases hmem
          exact (hrest w' mem_cons_self).ne_nil (eq_nil_iff_forall_not_mem.mpr hmem)
        refine iff_of_false (fun he => ?_) fun hb => ?_
        · have := congrArg List.length he
          rw [length_append, length_cons] at this
          unfold spaced at hlen1
          omega
        · have := hb.2
          rw [spaced, h2] at this
          exact hne this.symm
      · rw [join_append h1 h2, singleton_append]
        constructor
        · intro he
          have hlen := congrArg List.length he
          rw [length_append, length_append, length_cons, length_cons] at hlen
          unfold spaced at hlen1 hlen2
          obtain ⟨he1, he2⟩ := append_inj he (by omega)
          exact ⟨he1, (List.cons.inj he2).2⟩
        · rintro ⟨he1, he2⟩
          unfold spaced at he1 he2
          rw [he1, he2]

/-! ## Days -/

/-- A midnight of a year from 0 on that a date can hold. -/
def Midnight (at_ : Int) : Prop := at_ % 86400 = 0 ∧ -62167219200 ≤ at_ ∧ at_ ≤ 8210266876799

instance (at_ : Int) : Decidable (Midnight at_) := inferInstanceAs (Decidable (_ ∧ _))

theorem parseDay_three {year month day : Str} {y m d : Int} (hy : parseInt year = some y)
    (hm : parseInt month = some m) (hd : parseInt day = some d) (hno : ∀ x ∈ [year, month, day], '-' ∉ x)
    (hyear : 0 ≤ y ∧ y ≤ 1000000) (hrange : 1 ≤ m ∧ m ≤ 12 ∧ 1 ≤ d ∧ d ≤ 31) :
    parseDay (year ++ '-' :: (month ++ '-' :: day)) = some (toDays ⟨y, m, d⟩ * 86400) := by
  have hsplit : (year ++ '-' :: (month ++ '-' :: day)).splitOn '-' = [year, month, day] := by
    have hjoin : year ++ '-' :: (month ++ '-' :: day) = Text.join ['-'] [year, month, day] := by
      rw [join_cons_cons, join_cons_cons]
      rfl
    rw [hjoin, splitOn_join (cons_ne_nil _ _) hno]
  unfold parseDay
  rw [hsplit]
  simp only [hy, hm, hd, bind_eq_bind, bind_some]
  rw [if_pos hrange]
  generalize hshift : (if m ≤ 2 then y - 1 else y) = y'
  have hy' : -1 ≤ y' ∧ y' ≤ 1000000 := by
    rw [← hshift]
    split
    · omega
    · omega
  have hera : Int.tdiv (if 0 ≤ y' then y' else y' - 399) 400 = y' / 400 := by
    by_cases hpos : 0 ≤ y'
    · rw [if_pos hpos, Int.tdiv_eq_ediv_of_nonneg hpos]
    · have hone : y' = -1 := by omega
      rw [hone]
      rfl
  rw [hera]
  have hdays : toDays ⟨y, m, d⟩ = y' / 400 * 146097 + ((y' - y' / 400 * 400) * 365 + (y' - y' / 400 * 400) / 4 -
      (y' - y' / 400 * 400) / 100 + ((153 * (if 2 < m then m - 3 else m + 9) + 2) / 5 + d - 1)) - 719468 := by
    unfold toDays marchStart
    dsimp only
    by_cases hm2 : m ≤ 2
    · rw [if_pos hm2, if_neg (by omega)]
      rw [if_pos hm2] at hshift
      omega
    · rw [if_neg hm2, if_pos (by omega)]
      rw [if_neg hm2] at hshift
      omega
  have hdoy : 0 ≤ (153 * (if 2 < m then m - 3 else m + 9) + 2) / 5 + d - 1 ∧
      (153 * (if 2 < m then m - 3 else m + 9) + 2) / 5 + d - 1 ≤ 400 := by
    split
    · omega
    · omega
  have hwrap : ∀ x : Int, -1000000000000000000 ≤ x ∧ x ≤ 1000000000000000000 → I64.wrap x = x := by
    intro x hx
    refine I64.wrap_eq ?_
    unfold I64.min I64.max
    omega
  rw [hdays]
  generalize (153 * (if 2 < m then m - 3 else m + 9) + 2) / 5 + d - 1 = doy at hdoy ⊢
  have hera' : -1 ≤ y' / 400 ∧ y' / 400 ≤ 2500 := by omega
  have hyoe : 0 ≤ y' - y' / 400 * 400 ∧ y' - y' / 400 * 400 < 400 := by omega
  generalize y' - y' / 400 * 400 = yoe at hyoe ⊢
  generalize y' / 400 = era at hera' ⊢
  rw [hwrap (era * 146097) (by omega), hwrap (era * 146097 + _) (by omega), hwrap (_ - 719468) (by omega),
    hwrap (_ * 86400) (by omega)]

/-- A sign is read as a separator. -/
theorem parseDay_sign (rest : Str) : parseDay ('-' :: rest) = none := by
  unfold parseDay
  rw [splitOn_cons_eq_if_modifyHead, if_pos (beq_self_eq_true _)]
  split
  · rename_i hsplit
    rw [← (List.cons.inj hsplit).1]
    rfl
  · rfl

theorem year_nonneg_iff (days : Int) : 0 ≤ (ofDays days).year ↔ -719528 ≤ days := by
  have hdays := toDays_ofDays days
  have hrange := ofDays_range days
  unfold toDays marchStart at hdays
  generalize (ofDays days).year = y at hdays ⊢
  generalize (ofDays days).month = m at hdays hrange
  generalize (ofDays days).day = d at hdays hrange
  split at hdays
  · omega
  · omega

theorem year_le {days : Int} (h : days ≤ 100000000) : (ofDays days).year ≤ 1000000 := by
  have hdays := toDays_ofDays days
  have hrange := ofDays_range days
  unfold toDays marchStart at hdays
  generalize (ofDays days).year = y at hdays ⊢
  generalize (ofDays days).month = m at hdays hrange
  generalize (ofDays days).day = d at hdays hrange
  split at hdays
  · omega
  · omega

/-- Digits are read as the number they write, with or without a sign. -/
theorem parseInt_digits {digits : Str} {n : Int} (hdigits : ∀ c ∈ digits, c.isDigit = true) (hne : digits ≠ [])
    (hn : (Nat.ofDigitChars 10 digits 0 : Int) = n) (hmax : n ≤ 1000000) :
    parseInt digits = some n ∧ parseInt ('+' :: digits) = some n := by
  have hall : digits.all Char.isDigit = true := all_eq_true.mpr hdigits
  have hnat : parseNat digits = some (Nat.ofDigitChars 10 digits 0) := by
    unfold parseNat
    rw [if_pos ⟨hne, hall⟩]
  have hfits : (some n).filter (fun n => I64.min ≤ n ∧ n ≤ I64.max) = some n := by
    have hle : I64.min ≤ n ∧ n ≤ I64.max := by
      unfold I64.min I64.max
      omega
    rw [filter_some, if_pos (decide_eq_true hle)]
  have hint : (some (Nat.ofDigitChars 10 digits 0)).map Int.ofNat = some n := congrArg some hn
  constructor
  · unfold parseInt
    rw [parseSigned_of_digits hall, hnat, hint, hfits]
  · have hsigned : parseSigned ('+' :: digits) = (parseNat digits).map Int.ofNat := rfl
    unfold parseInt
    rw [hsigned, hnat, hint, hfits]

theorem parseInt_pad2 {n : Int} (h : 0 ≤ n ∧ n < 100) : parseInt (pad2 n) = some n := by
  have hval := ofDigitChars_pad2 h 0
  exact (parseInt_digits (fun c hc => pad2_isDigit hc) (by simp [pad2]) (by omega) (by omega)).1

theorem parseInt_yearText {year : Int} (h : 0 ≤ year ∧ year ≤ 1000000) :
    parseInt (yearText year) = some year ∧ '-' ∉ yearText year := by
  have hno : ∀ {digits : Str}, (∀ c ∈ digits, c.isDigit = true) → '-' ∉ digits := by
    intro digits hd hm
    exact absurd (hd _ hm) (by decide)
  unfold yearText
  split
  · have hd : ∀ c ∈ pad2 (year / 100) ++ pad2 (year % 100), c.isDigit = true := by
      intro c hc
      rcases mem_append.mp hc with hc | hc
      · exact pad2_isDigit hc
      · exact pad2_isDigit hc
    have hval : (Nat.ofDigitChars 10 (pad2 (year / 100) ++ pad2 (year % 100)) 0 : Int) = year := by
      rw [Nat.ofDigitChars_append, ofDigitChars_pad2 (by omega), ofDigitChars_pad2 (by omega)]
      omega
    exact ⟨(parseInt_digits hd (by simp [pad2]) hval h.2).1, hno hd⟩
  · have hzeros : ∀ k : Nat, Nat.ofDigitChars 10 (List.replicate k '0') 0 = 0 := by
      intro k
      induction k with
      | zero => rfl
      | succ k ih =>
        rw [replicate_succ]
        exact ih
    have hd : ∀ c ∈ List.replicate (4 - (Decimal.ofNat year.natAbs).length) '0' ++ Decimal.ofNat year.natAbs,
        c.isDigit = true := by
      intro c hc
      rcases mem_append.mp hc with hc | hc
      · rw [eq_of_mem_replicate hc]
        decide
      · exact isDigit_of_mem hc
    have hval : (Nat.ofDigitChars 10 (List.replicate (4 - (Decimal.ofNat year.natAbs).length) '0' ++
        Decimal.ofNat year.natAbs) 0 : Int) = year := by
      have hnum : Nat.ofDigitChars 10 (Decimal.ofNat year.natAbs) 0 = year.natAbs := Nat.ofDigitChars_ten_toDigits
      rw [Nat.ofDigitChars_append, hzeros, hnum]
      omega
    dsimp only
    rw [if_neg (by omega)]
    refine ⟨(parseInt_digits hd ?_ hval h.2).2, fun hm => ?_⟩
    · intro hnil
      have hne : Decimal.ofNat year.natAbs ≠ [] := Nat.toDigits_ne_nil
      exact hne (append_eq_nil_iff.mp hnil).2
    · rcases mem_cons.mp hm with he | hm
      · cases he
      · exact hno hd hm

/-- **A day is read back** exactly if it is a midnight of a year from 0 on that a date can hold. -/
theorem parseDay_dayOf (at_ : Int) : parseDay (dayOf at_) = some at_ ↔ Midnight at_ := by
  have hrange := ofDays_range (at_ / 86400)
  unfold dayOf
  split
  · rename_i hrep
    have hrep' : -8334601228800 ≤ at_ ∧ at_ ≤ 8210266876799 := by
      simpa [Calendar.representable] using hrep
    by_cases hyear : 0 ≤ (ofDays (at_ / 86400)).year
    · have hle := @year_le (at_ / 86400) (by omega)
      have hdays := (year_nonneg_iff (at_ / 86400)).mp hyear
      obtain ⟨hy, hynone⟩ := parseInt_yearText ⟨hyear, hle⟩
      have hpad : ∀ n, '-' ∉ pad2 n := fun n hm => absurd (pad2_isDigit hm) (by decide)
      have hread := parseDay_three hy (@parseInt_pad2 (ofDays (at_ / 86400)).month (by omega))
        (@parseInt_pad2 (ofDays (at_ / 86400)).day (by omega)) ?_ ⟨hyear, hle⟩ (by omega)
      · rw [hread, some.injEq]
        have hback : toDays ⟨(ofDays (at_ / 86400)).year, (ofDays (at_ / 86400)).month,
            (ofDays (at_ / 86400)).day⟩ = at_ / 86400 := toDays_ofDays _
        rw [hback]
        unfold Midnight
        omega
      · intro x hx
        simp only [mem_cons, not_mem_nil, or_false] at hx
        rcases hx with rfl | rfl | rfl
        · exact hynone
        · exact hpad _
        · exact hpad _
    · -- a year before 0 has a sign that is read as a separator
      have hdays := mt (year_nonneg_iff (at_ / 86400)).mpr hyear
      refine iff_of_false ?_ fun h => ?_
      · have htext : ∃ rest, yearText (ofDays (at_ / 86400)).year = '-' :: rest := by
          unfold yearText
          rw [if_neg fun h => hyear h.1]
          dsimp only
          rw [if_pos (by omega)]
          exact ⟨_, rfl⟩
        obtain ⟨rest, hrest⟩ := htext
        rw [hrest, cons_append, parseDay_sign]
        exact some_ne_none at_ ∘ Eq.symm
      · unfold Midnight at h
        omega
  · rename_i hrep
    have hrep' : ¬ (-8334601228800 ≤ at_ ∧ at_ ≤ 8210266876799) := by
      simpa [Calendar.representable] using hrep
    refine iff_of_false (fun h => ?_) fun h => ?_
    · cases h
    · unfold Midnight at h
      omega

end Oreneta.Search

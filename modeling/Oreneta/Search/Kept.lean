import Oreneta.Lib.ContentLines
import Oreneta.Lib.Reckoned
import Oreneta.Search.Words

/-!
# What is kept of a search

* `recognised` — the words that are operators; `kept_iff` — all the others are the text.
* `secondsOf`, `parseDayReckoned` — a day as `parse_day` reckons it, with every operation watched; `parseDay_eq`.
* `Reckonable` — the days before the seconds of an `i64` end; `search_kept_iff` — what is kept, and what is reckoned.
-/

namespace Oreneta.Search

open Reckoned Text Civil Decimal List

/-! ## Words -/

/-- The names the arms of `parse` know. -/
def operatorNames : List Str :=
  ["from", "to", "subject", "label", "has", "is", "after", "since",
    "before", "until"]

/-- An operator with its value, or the name of one with nothing behind it. -/
def recognised (token : Str) : Bool :=
  match splitOnce ':' token with
  | none => false
  | some (name, value) =>
    if (trim value).isEmpty then operatorNames.contains (asciiLower name)
    else decide (operator (asciiLower name) (trim value) ≠ .word)

/-- A word that ends in a colon, and whose name is none the search knows. -/
def Loose (token : Str) : Prop :=
  ∃ name value, splitOnce ':' token = some (name, value) ∧ (trim value).isEmpty = true ∧
    asciiLower name ∉ operatorNames

/-- A word that is no operator is one of the text, or loose. -/
theorem not_recognised_iff (token : Str) : recognised token = false ↔ reading token = .word ∨ Loose token := by
  unfold recognised reading Loose
  cases h : splitOnce ':' token with
  | none => simp
  | some p =>
    obtain ⟨name, value⟩ := p
    dsimp only
    cases hblank : (trim value).isEmpty with
    | true =>
      rw [if_pos rfl, if_pos rfl, Bool.eq_false_iff, Ne, contains_iff_mem]
      constructor
      · exact fun hn => .inr ⟨name, value, rfl, hblank, hn⟩
      · rintro (hw | ⟨name', value', he, -, hn⟩)
        · cases hw
        · cases he
          exact hn
    | false =>
      rw [if_neg Bool.false_ne_true, if_neg Bool.false_ne_true, decide_eq_false_iff_not, not_not]
      refine ⟨.inl, fun hor => hor.elim id ?_⟩
      rintro ⟨name', value', he, hb, -⟩
      cases he
      rw [hblank] at hb
      cases hb

theorem not_word_of_loose {token : Str} (h : Loose token) : reading token ≠ .word := by
  obtain ⟨name, value, hsplit, hblank, -⟩ := h
  unfold reading
  rw [hsplit]
  dsimp only
  rw [if_pos hblank]
  exact Reading.noConfusion

/-- How long words are with something behind each. -/
def weight (words : List Str) : Nat := (words.map (fun w => w.length + 1)).sum

theorem weight_cons (w : Str) (words : List Str) : weight (w :: words) = w.length + 1 + weight words := by
  unfold weight
  rw [map_cons, sum_cons]

theorem length_join (words : List Str) : (join [' '] words).length = weight words - 1 := by
  induction words with
  | nil => rfl
  | cons w words ih =>
    cases words with
    | nil => simp [join, weight]
    | cons w' words =>
      have hpos := weight_cons w' words
      rw [join_cons_cons, length_append, length_append, ih, weight_cons w, length_singleton]
      omega

theorem weight_filter (p : Str → Bool) : ∀ words : List Str,
    weight (words.filter p) ≤ weight words ∧ (weight (words.filter p) = weight words → ∀ w ∈ words, p w = true)
  | [] => ⟨Nat.le_refl _, fun _ => forall_mem_nil _⟩
  | w :: words => by
    obtain ⟨hle, heq⟩ := weight_filter p words
    cases hp : p w with
    | true =>
      rw [filter_cons_of_pos hp, weight_cons, weight_cons]
      exact ⟨by omega, fun h => forall_mem_cons.mpr ⟨hp, heq (by omega)⟩⟩
    | false =>
      rw [filter_cons_of_neg (by rw [hp]; exact Bool.false_ne_true), weight_cons]
      exact ⟨by omega, fun h => by omega⟩

/-- Words that are left out make the text shorter. -/
theorem join_filter_iff {p : Str → Bool} {words : List Str} (hwords : ∀ w ∈ words, w ≠ []) :
    join [' '] (words.filter p) = join [' '] words ↔ ∀ w ∈ words, p w = true := by
  constructor
  · intro h
    have hlen := congrArg List.length h
    rw [length_join, length_join] at hlen
    cases words with
    | nil => exact forall_mem_nil _
    | cons w words =>
      have hpos := length_pos_iff.mpr (hwords w mem_cons_self)
      have hweight := weight_cons w words
      exact (weight_filter p (w :: words)).2 (by omega)
  · intro h
    rw [filter_eq_self.mpr h]

/-- The text is made of the words that are no operators, where none is loose. -/
theorem kept_iff (t : Str) : (parse t).text = join [' '] ((tokenize t).filter (fun token => !recognised token)) ↔
      ∀ token ∈ tokenize t, ¬ Loose token := by
  have htext : textWords (tokenize t) =
      ((tokenize t).filter fun token => !recognised token).filter (fun token => reading token = .word) := by
    unfold textWords
    rw [filter_filter]
    refine filter_congr fun token _ => ?_
    by_cases hw : reading token = .word
    · rw [(not_recognised_iff token).mpr (.inl hw), decide_eq_true hw]
      rfl
    · rw [decide_eq_false hw]
      rfl
  have hwords : ∀ w ∈ (tokenize t).filter fun token => !recognised token, w ≠ [] := fun w hw =>
    (word_of_mem not_mem_nil w (mem_filter.mp hw).1).ne_nil
  rw [parse_eq]
  dsimp only
  rw [htext, join_filter_iff hwords]
  constructor
  · intro h token htoken hloose
    have hfree : recognised token = false := (not_recognised_iff token).mpr (.inr hloose)
    have hword := h token (mem_filter.mpr ⟨htoken, by rw [hfree]; rfl⟩)
    exact not_word_of_loose hloose (of_decide_eq_true hword)
  · intro h token htoken
    obtain ⟨htoken, hfree⟩ := mem_filter.mp htoken
    rw [Bool.not_eq_true'] at hfree
    exact decide_eq_true (((not_recognised_iff token).mp hfree).resolve_right (h token htoken))

/-! ## Days -/

/-- The year, the month and the day of a text that has the shape of one. -/
def dayParts (value : Str) : Option (Int × Int × Int) :=
  match value.splitOn '-' with
  | [year, month, day] => do
    let year ← parseInt year
    let month ← parseInt month
    let day ← parseInt day
    if 1 ≤ month ∧ month ≤ 12 ∧ 1 ≤ day ∧ day ≤ 31 then some (year, month, day) else none
  | _ => none

/-- The civil-calendar algorithm of `parse_day`. -/
def secondsOf (year month day : Reckoned) : Reckoned :=
  let y := if month.value ≤ 2 then year - 1 else year
  let era := (if 0 ≤ y.value then y else y - 399).quot 400
  let yoe := y - era * 400
  let doy := (153 * (if 2 < month.value then month - 3 else month + 9) + 2).quot 5 + day - 1
  let doe := yoe * 365 + yoe.quot 4 - yoe.quot 100 + doy
  (era * 146097 + doe - 719468) * 86400

def parseDayReckoned (value : Str) : Option Reckoned :=
  (dayParts value).map (fun (year, month, day) => secondsOf (of year) (of month) (of day))

theorem fits_of_small {x : Int} (h : -1000000 ≤ x ∧ x ≤ 1000000) : Fits x := by
  unfold Fits I64.min I64.max
  omega

/-- The era of a date, and its day in it. -/
def eraDay (year month day : Int) : Int × Int :=
  let y := if month ≤ 2 then year - 1 else year
  let era := Int.tdiv (if 0 ≤ y then y else y - 399) 400
  let yoe := y - era * 400
  let doy := (153 * (if 2 < month then month - 3 else month + 9) + 2) / 5 + day - 1
  (era, yoe * 365 + yoe / 4 - yoe / 100 + doy)

/-- Up to the days of the era nothing goes out of range. -/
theorem secondsOf_eq {y m d : Int} (hy : 0 ≤ y ∧ y ≤ I64.max) (hm : 1 ≤ m ∧ m ≤ 12) (hd : 1 ≤ d ∧ d ≤ 31) :
    secondsOf (of y) (of m) (of d) = (of (eraDay y m d).1 * 146097 + of (eraDay y m d).2 - 719468) * 86400 ∧
      toDays ⟨y, m, d⟩ = (eraDay y m d).1 * 146097 + (eraDay y m d).2 - 719468 ∧ -1 ≤ (eraDay y m d).1 ∧
      0 ≤ (eraDay y m d).2 ∧ (eraDay y m d).2 ≤ 150000 := by
  unfold I64.max at hy
  have hfits : ∀ x : Int, -1000000000 ≤ x → x ≤ 9223372036854775807 → Fits x := by
    intro x hlow hhigh
    unfold Fits I64.min I64.max
    omega
  obtain ⟨y', hy', hshift⟩ : ∃ y' : Int, (if (of m).value ≤ 2 then of y - 1 else of y) = of y' ∧
      y' = if m ≤ 2 then y - 1 else y := by
    rw [of_value]
    by_cases h : m ≤ 2
    · rw [if_pos h, if_pos h]
      exact ⟨y - 1, sub_exact (hfits _ (by omega) (by omega)), rfl⟩
    · rw [if_neg h, if_neg h]
      exact ⟨y, rfl, rfl⟩
  have hbound : -1 ≤ y' ∧ y' ≤ 9223372036854775807 := by
    rw [hshift]
    split
    · omega
    · omega
  have htdiv : Int.tdiv (if 0 ≤ y' then y' else y' - 399) 400 = y' / 400 := by
    by_cases hpos : 0 ≤ y'
    · rw [if_pos hpos, Int.tdiv_eq_ediv_of_nonneg hpos]
    · have hone : y' = -1 := by omega
      rw [if_neg hpos, hone]
      rfl
  have hera : (if 0 ≤ (of y').value then of y' else of y' - 399).quot 400 = of (y' / 400) := by
    rw [← htdiv, ← quot_exact, of_value]
    congr 1
    split
    · rfl
    · exact sub_exact (hfits _ (by omega) (by omega))
  have hyoe : of y' - of (y' / 400) * 400 = of (y' - y' / 400 * 400) :=
    (congrArg (of y' - ·) (mul_exact (hfits _ (by omega) (by omega)))).trans (sub_exact (hfits _ (by omega) (by omega)))
  obtain ⟨shifted, hmonth, hshifted⟩ : ∃ shifted : Int,
      (if 2 < (of m).value then of m - 3 else of m + 9) = of shifted ∧ shifted = if 2 < m then m - 3 else m + 9 := by
    rw [of_value]
    by_cases h : 2 < m
    · rw [if_pos h, if_pos h]
      exact ⟨m - 3, sub_exact (fits_of_small (by omega)), rfl⟩
    · rw [if_neg h, if_neg h]
      exact ⟨m + 9, add_exact (fits_of_small (by omega)), rfl⟩
  have hshifted' : 0 ≤ shifted ∧ shifted ≤ 11 := by
    rw [hshifted]
    split
    · omega
    · omega
  have hdoy : (153 * of shifted + 2).quot 5 + of d - 1 = of ((153 * shifted + 2) / 5 + d - 1) := by
    have h1 : (153 : Reckoned) * of shifted = of (153 * shifted) := mul_exact (fits_of_small (by omega))
    have h2 : of (153 * shifted) + 2 = of (153 * shifted + 2) := add_exact (fits_of_small (by omega))
    have h3 : of ((153 * shifted + 2) / 5) + of d = of ((153 * shifted + 2) / 5 + d) := add_exact (fits_of_small (by omega))
    have h4 : of ((153 * shifted + 2) / 5 + d) - 1 = of ((153 * shifted + 2) / 5 + d - 1) :=
      sub_exact (fits_of_small (by omega))
    rw [h1, h2, quot_exact, Int.tdiv_eq_ediv_of_nonneg (by omega), h3, h4]
  generalize hyear : y' - y' / 400 * 400 = yoe at hyoe
  have hyoe' : 0 ≤ yoe ∧ yoe < 400 := by omega
  generalize hday : (153 * shifted + 2) / 5 + d - 1 = doy at hdoy
  have hdoy' : 0 ≤ doy ∧ doy ≤ 400 := by omega
  have hdoe : of yoe * 365 + (of yoe).quot 4 - (of yoe).quot 100 + of doy = of (yoe * 365 + yoe / 4 - yoe / 100 + doy) := by
    have h1 : of yoe * 365 = of (yoe * 365) := mul_exact (fits_of_small (by omega))
    have h2 : of (yoe * 365) + of (yoe / 4) = of (yoe * 365 + yoe / 4) := add_exact (fits_of_small (by omega))
    have h3 : of (yoe * 365 + yoe / 4) - of (yoe / 100) = of (yoe * 365 + yoe / 4 - yoe / 100) :=
      sub_exact (fits_of_small (by omega))
    have h4 : of (yoe * 365 + yoe / 4 - yoe / 100) + of doy = of (yoe * 365 + yoe / 4 - yoe / 100 + doy) :=
      add_exact (fits_of_small (by omega))
    rw [h1, quot_exact, quot_exact, Int.tdiv_eq_ediv_of_nonneg hyoe'.1, Int.tdiv_eq_ediv_of_nonneg hyoe'.1, h2, h3, h4]
  have hlate : eraDay y m d = (y' / 400, yoe * 365 + yoe / 4 - yoe / 100 + doy) := by
    unfold eraDay
    dsimp only
    rw [← hshift, ← hshifted, htdiv, hyear, hday]
  rw [hlate]
  refine ⟨?_, ?_, by dsimp only; omega, by dsimp only; omega, by dsimp only; omega⟩
  · unfold secondsOf
    simp only [hy', hera, hyoe, hmonth, hdoy, hdoe]
  · unfold toDays marchStart
    dsimp only
    by_cases hm2 : m ≤ 2
    · rw [if_pos hm2] at hshift ⊢
      rw [if_neg (by omega)] at hshifted
      omega
    · rw [if_neg hm2] at hshift ⊢
      rw [if_pos (by omega)] at hshifted
      omega

/-- The last of it goes out of range exactly if the seconds do. -/
theorem lateDay_iff {era doe : Int} (hera : -1 ≤ era) (hdoe : 0 ≤ doe ∧ doe ≤ 150000) :
    ((of era * 146097 + of doe - 719468) * 86400).exceeded = false ↔ (era * 146097 + doe - 719468) * 86400 ≤ I64.max := by
  have hfits : ∀ x : Int, -1000000000000 ≤ x → (Fits x ↔ x ≤ I64.max) := by
    intro x hx
    unfold Fits I64.min
    omega
  have hmax : I64.max = 9223372036854775807 := rfl
  constructor
  · intro h
    obtain ⟨h3, -, hseconds, -⟩ := mul_kept h
    obtain ⟨h2, -, -, hdays⟩ := sub_kept h3
    obtain ⟨h1, -, -, hsum⟩ := add_kept h2
    obtain ⟨-, -, -, hera'⟩ := mul_kept h1
    rw [hdays, hsum, hera'] at hseconds
    exact hseconds.2
  · intro h
    have h1 : of era * 146097 = of (era * 146097) := mul_exact ((hfits _ (by omega)).mpr (by omega))
    have h2 : of (era * 146097) + of doe = of (era * 146097 + doe) := add_exact ((hfits _ (by omega)).mpr (by omega))
    have h3 : of (era * 146097 + doe) - 719468 = of (era * 146097 + doe - 719468) :=
      sub_exact ((hfits _ (by omega)).mpr (by omega))
    have h4 : of (era * 146097 + doe - 719468) * 86400 = of ((era * 146097 + doe - 719468) * 86400) :=
      mul_exact ((hfits _ (by omega)).mpr h)
    rw [h1, h2, h3, h4, of_exceeded]

/-- A text without a minus is read as no negative number. -/
theorem parseInt_nonneg {s : Str} {n : Int} (hs : '-' ∉ s) (h : parseInt s = some n) : 0 ≤ n ∧ n ≤ I64.max := by
  unfold parseInt at h
  obtain ⟨hread, hrange⟩ := Option.filter_eq_some_iff.mp h
  refine ⟨?_, (of_decide_eq_true hrange).2⟩
  unfold parseSigned at hread
  split at hread
  · exact absurd mem_cons_self hs
  · obtain ⟨k, -, rfl⟩ := Option.map_eq_some_iff.mp hread
    exact Int.natCast_nonneg k
  · obtain ⟨k, -, rfl⟩ := Option.map_eq_some_iff.mp hread
    exact Int.natCast_nonneg k

theorem dayParts_range {value : Str} {y m d : Int} (h : dayParts value = some (y, m, d)) :
    (0 ≤ y ∧ y ≤ I64.max) ∧ (1 ≤ m ∧ m ≤ 12) ∧ 1 ≤ d ∧ d ≤ 31 := by
  unfold dayParts at h
  split at h
  · rename_i year month day hsplit
    have hno : '-' ∉ year := ContentLines.notMem_of_mem_splitOn (by rw [hsplit]; exact mem_cons_self)
    obtain ⟨y', hy, h⟩ := Option.bind_eq_some_iff.mp h
    obtain ⟨m', -, h⟩ := Option.bind_eq_some_iff.mp h
    obtain ⟨d', -, h⟩ := Option.bind_eq_some_iff.mp h
    split at h
    · rename_i hrange
      cases h
      exact ⟨parseInt_nonneg hno hy, ⟨hrange.1, hrange.2.1⟩, hrange.2.2⟩
    · cases h
  · cases h

/-- The reckoning that is watched comes to the value of `parse_day`. -/
theorem parseDay_eq (value : Str) : parseDay value = (parseDayReckoned value).map Reckoned.value := by
  have hparts : parseDay value = (dayParts value).map (fun p =>
      I64.wrap (I64.wrap (I64.wrap (I64.wrap ((eraDay p.1 p.2.1 p.2.2).1 * 146097) + (eraDay p.1 p.2.1 p.2.2).2) - 719468) *
        86400)) := by
    unfold parseDay dayParts
    rcases value.splitOn '-' with _ | ⟨year, _ | ⟨month, _ | ⟨day, _ | ⟨_, _⟩⟩⟩⟩
    · rfl
    · rfl
    · rfl
    · dsimp only
      cases parseInt year with
      | none => rfl
      | some y =>
        cases parseInt month with
        | none => rfl
        | some m =>
          cases parseInt day with
          | none => rfl
          | some d =>
            simp only [Option.bind_eq_bind, Option.bind_some]
            split
            · rfl
            · rfl
    · rfl
  rw [hparts]
  unfold parseDayReckoned
  rw [Option.map_map]
  refine Option.map_congr fun p hp => ?_
  obtain ⟨hy, hm, hd⟩ := dayParts_range hp
  show _ = (secondsOf (of p.1) (of p.2.1) (of p.2.2)).value
  rw [(secondsOf_eq hy hm hd).1]
  rfl

/-! ## What is kept, and what is reckoned -/

/-- The dates before the end of the 64 bits, on the 4th of December of the year 292277026596. -/
def Reckonable (value : Str) : Prop :=
  ∀ y m d, dayParts value = some (y, m, d) → y < 292277026596 ∨ (y = 292277026596 ∧ (m < 12 ∨ d ≤ 4))

theorem toDays_le_iff {y m d : Int} (hm : 1 ≤ m ∧ m ≤ 12) (hd : 1 ≤ d ∧ d ≤ 31) :
    toDays ⟨y, m, d⟩ * 86400 ≤ I64.max ↔ y < 292277026596 ∨ (y = 292277026596 ∧ (m < 12 ∨ d ≤ 4)) := by
  unfold toDays marchStart I64.max
  dsimp only
  split
  · omega
  · omega

theorem parseDay_exceeded_iff (value : Str) : (∀ r, parseDayReckoned value = some r → r.exceeded = false) ↔ Reckonable value := by
  unfold parseDayReckoned Reckonable
  constructor
  · intro h y m d hparts
    obtain ⟨hy, hm, hd⟩ := dayParts_range hparts
    obtain ⟨heq, hdays, hera, hdoe⟩ := secondsOf_eq hy hm hd
    have hkept : (secondsOf (of y) (of m) (of d)).exceeded = false := h _ (by rw [hparts]; rfl)
    rw [heq, lateDay_iff hera hdoe, ← hdays] at hkept
    exact (toDays_le_iff hm hd).mp hkept
  · intro h r hr
    obtain ⟨⟨y, m, d⟩, hparts, rfl⟩ := Option.map_eq_some_iff.mp hr
    obtain ⟨hy, hm, hd⟩ := dayParts_range hparts
    obtain ⟨heq, hdays, hera, hdoe⟩ := secondsOf_eq hy hm hd
    dsimp only
    rw [heq, lateDay_iff hera hdoe, ← hdays]
    exact (toDays_le_iff hm hd).mpr (h y m d hparts)

/-- **What a search keeps.**  All the words that are no operators are its text, in order, exactly if none of them is a name
and a colon alone; and a day is reckoned in range exactly if it is before the end of the 64 bits. -/
theorem search_kept_iff (t value : Str) : ((parse t).text = join [' '] ((tokenize t).filter (fun token => !recognised token)) ↔
      ∀ token ∈ tokenize t, ¬ Loose token) ∧ ((∀ r, parseDayReckoned value = some r → r.exceeded = false) ↔ Reckonable value) :=
  ⟨kept_iff t, parseDay_exceeded_iff value⟩

/-- `note:` is left out, and the last of the years goes out of range. -/
theorem note_lost : (parse "note: milk".toList).text = "milk".toList ∧ recognised "note:".toList = false ∧
      tokenize "note: milk".toList = ["note:".toList, "milk".toList] ∧
      (parseDayReckoned "9223372036854775807-01-01".toList).map Reckoned.exceeded = some true := by
  decide +kernel

end Oreneta.Search

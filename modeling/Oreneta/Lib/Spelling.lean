import Oreneta.Lib.Casing
import Oreneta.Lib.Infix

/-!
# Other spellings

A text found without regard to case may be spelled in a way that folding the case of ASCII letters does not
find.

* `Casing.Plain` — a character whose lower case is its ASCII one.
* `Casing.OtherSpelling n` — a character that is not plain is lower-cased, somewhere, to a part of `n`.
* `infix_asciiLower` — without another spelling, what is found in a lower case is found by folding ASCII.
* `exists_otherSpelling` — with one, or with a character that is not plain in the text sought, some text has it
  in its lower case only.
* `exists_openLeft`, `exists_openRight` — a text with an open sigma is found in some text by folding ASCII only.
-/

namespace Oreneta.Text.Casing

open List

variable (U : Casing)

/-- The lower case of the character is its ASCII one. -/
def Plain (c : Char) : Prop := U.lowerChar c = [c.toLower]

/-- A character that is not plain is lower-cased, in some neighbourhood, to a part of the text. -/
def OtherSpelling (n : Str) : Prop :=
  ∃ (y : Char) (u v a w b p q : Str), ¬ U.Plain y ∧ n = a ++ (w ++ b) ∧
    U.lowerAt (a.reverse ++ u) y (b ++ v) = p ++ (w ++ q) ∧ w ≠ [] ∧ (a = [] ∨ p = []) ∧ (b = [] ∨ q = [])

variable {U}

theorem sigma_not_plain : ¬ U.Plain 'Σ' := by
  unfold Plain
  rw [U.sigma]
  decide

theorem Plain.ne_sigma {c : Char} (h : U.Plain c) : c ≠ 'Σ' := by
  rintro rfl
  exact sigma_not_plain h

theorem Plain.lowerAt {c : Char} (h : U.Plain c) (before after : Str) : U.lowerAt before c after = [c.toLower] := by
  rw [Casing.lowerAt, if_neg h.ne_sigma, h]

theorem toLower_of_not_plain {c : Char} (h : ¬ U.Plain c) : c.toLower = c := by
  rcases toLower_cases c with hc | ⟨-, -, hc, -⟩
  · exact hc
  · exact absurd (U.ascii c hc) h

theorem not_plain_of_fixed {y : Char} (h : ¬ U.Plain y) : U.lowerChar y ≠ [y] := by
  intro hf
  apply h
  unfold Plain
  rw [toLower_of_not_plain h]
  exact hf

variable {n : Str}

theorem lower_plain (h : ∀ c ∈ n, U.Plain c) : U.lower n = asciiLower n := by
  have hs : 'Σ' ∉ n := fun hm => sigma_not_plain (h _ hm)
  unfold lower
  rw [U.lowerIn_eq_flatMap hs]
  clear hs
  induction n with
  | nil => rfl
  | cons c n ih =>
    rw [flatMap_cons, h c (by simp), ih fun d hd => h d (mem_cons_of_mem _ hd)]
    rfl

theorem sigmaIn_congr {before before' after after' : Str} (hb : U.casedNear before = U.casedNear before')
    (ha : U.casedNear after = U.casedNear after') : U.sigmaIn before after = U.sigmaIn before' after' := by
  unfold sigmaIn
  rw [hb, ha]

theorem casedNear_cons_congr {c d : Char} {s t : Str} (hc : U.cased c = U.cased d)
    (hi : U.caseIgnorable c = U.caseIgnorable d) (h : U.casedNear s = U.casedNear t) :
    U.casedNear (c :: s) = U.casedNear (d :: t) := by
  unfold casedNear at h ⊢
  rw [dropWhile_cons, dropWhile_cons, hi]
  cases U.caseIgnorable d with
  | true => exact h
  | false => exact hc

/-! ## Found in the lower case -/

/-- The part of `n` after `a`, met at a character of the text. -/
theorem prefix_asciiLower {t before a r : Str} (hn : n = a ++ r)
    (hctx : ∃ u, U.casedNear before = U.casedNear (a.reverse ++ u)) (h : r <+: U.lowerIn before t []) :
    r <+: asciiLower t ∨ U.OtherSpelling n := by
  induction t generalizing before a r with
  | nil =>
    rw [prefix_nil.mp h]
    exact .inl nil_prefix
  | cons y t ih =>
    cases r with
    | nil => exact .inl nil_prefix
    | cons d r =>
      obtain ⟨u, hu⟩ := hctx
      obtain ⟨rest, hrest⟩ := h
      rw [lowerIn, append_nil] at hrest
      by_cases hy : U.Plain y
      · rw [hy.lowerAt, singleton_append, cons_append, List.cons.injEq] at hrest
        obtain ⟨rfl, hrest⟩ := hrest
        have hctx' : U.casedNear (y :: before) = U.casedNear ((a ++ [y.toLower]).reverse ++ u) := by
          rw [reverse_append, reverse_singleton, singleton_append, cons_append]
          exact casedNear_cons_congr (U.cased_toLower y).symm (U.caseIgnorable_toLower y).symm hu
        rcases ih (by rw [hn]; simp) ⟨u, hctx'⟩ ⟨rest, hrest⟩ with hp | ho
        · left
          exact cons_prefix_cons.mpr ⟨rfl, hp⟩
        · exact .inr ho
      · right
        by_cases hsig : y = 'Σ'
        · -- the sigma's letter is there; what follows decides that it could be
          subst hsig
          have hs : ∀ x z, U.lowerAt x 'Σ' z = [U.sigmaIn x z] := fun _ _ => rfl
          rw [hs, singleton_append, cons_append, List.cons.injEq] at hrest
          obtain ⟨hd, hrest⟩ := hrest
          have hdc : d ∈ ['Σ', 'σ', 'ς'] := by
            rcases U.sigmaIn_cases before t with h' | h'
            · rw [hd, h']
              decide
            · rw [hd, h']
              decide
          have hctx' : U.casedNear ('Σ' :: before) = U.casedNear ((a ++ [d]).reverse ++ u) := by
            rw [reverse_append, reverse_singleton, singleton_append, cons_append]
            apply casedNear_cons_congr _ _ hu
            · rw [(U.sigmaCased 'Σ' (by decide)).1, (U.sigmaCased d hdc).1]
            · rw [(U.sigmaCased 'Σ' (by decide)).2, (U.sigmaCased d hdc).2]
          rcases ih (by rw [hn]; simp) ⟨u, hctx'⟩ ⟨rest, hrest⟩ with ⟨v, hv⟩ | ho
          · refine ⟨'Σ', u, v, a, [d], r, [], [], hy, hn, ?_, cons_ne_nil _ _, .inr rfl, .inr rfl⟩
            have hafter : U.casedNear (r ++ v) = U.casedNear t := by rw [hv, U.casedNear_asciiLower]
            rw [hs, sigmaIn_congr hu.symm hafter, ← hd]
            rfl
          · exact ho
        · have hat : ∀ x z, U.lowerAt x y z = U.lowerChar y := fun x z => by
            rw [Casing.lowerAt, if_neg hsig]
          rw [hat, append_eq_append_iff] at hrest
          rcases hrest with ⟨c, hc, -⟩ | ⟨c, hc, -⟩
          · refine ⟨y, u, [], a, d :: r, [], [], c, hy, by rw [hn]; simp, ?_, cons_ne_nil _ _, .inr rfl, .inl rfl⟩
            rw [hat, hc]
            rfl
          · refine ⟨y, u, [], a, U.lowerChar y, c, [], [], hy, by rw [hn, hc], ?_, U.ne_nil y, .inr rfl, .inr rfl⟩
            rw [hat]
            simp

theorem infix_asciiLower_or {t before : Str} (hne : n ≠ []) (h : n <:+: U.lowerIn before t []) :
    n <:+: asciiLower t ∨ U.OtherSpelling n := by
  induction t generalizing before with
  | nil => exact absurd (infix_nil.mp h) hne
  | cons y t ih =>
    have htail : asciiLower t <:+: asciiLower (y :: t) := (suffix_cons _ _).isInfix
    have hin : n <:+: U.lowerIn (y :: before) t [] → n <:+: asciiLower (y :: t) ∨ U.OtherSpelling n := by
      intro hr
      rcases ih hr with hr | hr
      · exact .inl (hr.trans htail)
      · exact .inr hr
    have hpre : n <+: U.lowerIn before (y :: t) [] → n <:+: asciiLower (y :: t) ∨ U.OtherSpelling n := by
      intro hp
      rcases prefix_asciiLower (a := []) rfl ⟨before, rfl⟩ hp with hp | hp
      · exact .inl hp.isInfix
      · exact .inr hp
    obtain ⟨u, v, huv⟩ := h
    cases hu : u with
    | nil => exact hpre ⟨v, by rw [← huv, hu, nil_append]⟩
    | cons x u' =>
      rw [lowerIn, append_nil, append_assoc, append_eq_append_iff] at huv
      rcases huv with ⟨c, hc, hrest⟩ | ⟨c, -, hrest⟩
      · cases hcn : c with
        | nil =>
          rw [hcn, nil_append] at hrest
          exact hin ⟨[], v, by rw [nil_append, hrest]⟩
        | cons e c' =>
          -- the text begins in the middle of what one character becomes
          right
          have hlen : 2 ≤ (U.lowerAt before y t).length := by
            rw [hc, hu, hcn, length_append, length_cons, length_cons]
            omega
          have hy : ¬ U.Plain y := by
            intro hy
            rw [hy.lowerAt, length_singleton] at hlen
            omega
          have hsig : y ≠ 'Σ' := by
            rintro rfl
            have hone : (U.lowerAt before 'Σ' t).length = 1 := rfl
            omega
          have hat : ∀ x z, U.lowerAt x y z = U.lowerChar y := fun x z => by
            rw [Casing.lowerAt, if_neg hsig]
          rw [hat] at hc
          rw [append_eq_append_iff] at hrest
          have hcne : c ≠ [] := by
            rw [hcn]
            exact cons_ne_nil _ _
          rcases hrest with ⟨z, hz, -⟩ | ⟨z, hz, -⟩
          · refine ⟨y, [], [], [], n, [], u, z, hy, by simp, ?_, hne, .inl rfl, .inl rfl⟩
            rw [hat, hc, hz]
          · refine ⟨y, [], [], [], c, z, u, [], hy, by rw [hz]; rfl, ?_, hcne, .inl rfl, .inr rfl⟩
            rw [hat, hc, append_nil]
      · exact hin ⟨c, v, by rw [append_assoc, ← hrest]⟩

/-- Without another spelling, what is found in a lower case is found by folding the case of ASCII letters. -/
theorem infix_asciiLower {t : Str} (hne : n ≠ []) (hplain : ∀ c ∈ n, U.Plain c)
    (ho : ¬ U.OtherSpelling (asciiLower n)) (h : U.lower n <:+: U.lower t) : asciiLower n <:+: asciiLower t := by
  rw [lower_plain hplain] at h
  have hne' : asciiLower n ≠ [] := fun he => hne (map_eq_nil_iff.mp he)
  rcases infix_asciiLower_or hne' h with h | h
  · exact h
  · exact absurd h ho

/-! ## Found in the lower case only -/

/-- A small letter other than a given character. -/
theorem exists_letter (U : Casing) (o : Option Char) : ∃ x : Char, x.isAlpha = true ∧ U.lowerChar x = [x] ∧
    x.toLower = x ∧ x ∉ o := by
  by_cases h : 'a' ∈ o
  · refine ⟨'b', rfl, U.ascii 'b' (by decide), rfl, fun hb => ?_⟩
    rw [Option.mem_def.mp h, Option.mem_some_iff] at hb
    exact absurd hb (by decide)
  · exact ⟨'a', rfl, U.ascii 'a' (by decide), rfl, h⟩

/-- A text of one letter or none, with the same effect as a neighbour as another text. -/
theorem exists_neighbour (U : Casing) (u : Str) (o : Option Char) : ∃ u', U.casedNear u' = U.casedNear u ∧
    asciiLower u' = u' ∧ u'.reverse = u' ∧ u'.length ≤ 1 ∧ ∀ x ∈ u', x ∉ o := by
  cases h : U.casedNear u with
  | false => exact ⟨[], rfl, rfl, rfl, by simp, by simp⟩
  | true =>
    obtain ⟨x, hx, -, hlow, hne⟩ := exists_letter U o
    refine ⟨[x], U.casedNear_letter hx [], ?_, rfl, by simp, by simpa using hne⟩
    unfold asciiLower
    rw [map_singleton, hlow]

theorem casedNear_append_congr {u u' : Str} (h : U.casedNear u' = U.casedNear u) (a : Str) :
    U.casedNear (a ++ u') = U.casedNear (a ++ u) := by
  rw [U.casedNear_append, U.casedNear_append a u, h]

theorem fixed_asciiLower (hplain : ∀ c ∈ n, U.Plain c) {d : Char} (hd : d ∈ asciiLower n) :
    U.lowerChar d = [d] ∧ d.toLower = d := by
  obtain ⟨c, hc, rfl⟩ := mem_map.mp hd
  exact ⟨by rw [U.lowerChar_toLower]; exact hplain c hc, toLower_toLower c⟩

theorem asciiLower_fixed {s : Str} (h : ∀ d ∈ s, d.toLower = d) : asciiLower s = s :=
  map_congr_left h |>.trans (map_id s)

theorem toLower_of_asciiLower {s : Str} (h : asciiLower s = s) : ∀ d ∈ s, d.toLower = d := by
  intro d hd
  rw [← h] at hd
  obtain ⟨c, -, rfl⟩ := mem_map.mp hd
  exact toLower_toLower c

theorem exists_of_otherSpelling (hfix : ∀ d ∈ n, U.lowerChar d = [d] ∧ d.toLower = d)
    (ho : U.OtherSpelling n) : ∃ t, n <:+: U.lower t ∧ ¬ n <:+: asciiLower t := by
  obtain ⟨y, u, v, a, w, b, p, q, hy, hn, hat, hw, hp, hq⟩ := ho
  obtain ⟨u', hu, hulow, hurev, hulen, hune⟩ := exists_neighbour U u n.head?
  obtain ⟨v', hv, hvlow, -, hvlen, hvne⟩ := exists_neighbour U v n.getLast?
  have hyn : y ∉ n := fun hm => not_plain_of_fixed hy (hfix y hm).1
  have ha : ∀ d ∈ a, U.lowerChar d = [d] ∧ d.toLower = d := fun d hd => hfix d (by rw [hn]; simp [hd])
  have hb : ∀ d ∈ b, U.lowerChar d = [d] ∧ d.toLower = d := fun d hd => hfix d (by rw [hn]; simp [hd])
  refine ⟨(u' ++ a) ++ y :: (b ++ v'), ?_, ?_⟩
  · have hctx : U.lowerAt ((u' ++ a).reverse) y (b ++ v') = p ++ (w ++ q) := by
      rw [← hat, reverse_append, hurev, Casing.lowerAt, Casing.lowerAt,
        sigmaIn_congr (casedNear_append_congr hu a.reverse) (casedNear_append_congr hv b)]
    have hmid : a ++ (p ++ (w ++ q)) ++ b = p ++ n ++ q := by
      rw [hn]
      rcases hp with rfl | rfl <;> rcases hq with rfl | rfl <;> simp
    have hlow : ∃ l r, U.lower ((u' ++ a) ++ y :: (b ++ v')) = l ++ (a ++ (p ++ (w ++ q)) ++ b) ++ r := by
      refine ⟨U.lowerIn [] u' (a ++ y :: (b ++ v')), U.lowerIn (b.reverse ++ (y :: (u' ++ a).reverse)) v' [], ?_⟩
      rw [lower_append, lowerIn_append, lowerIn, lowerIn_append, append_nil, append_nil, hctx,
        U.lowerIn_fixed fun d hd => (ha d hd).1, U.lowerIn_fixed fun d hd => (hb d hd).1]
      simp
    obtain ⟨l, r, hlr⟩ := hlow
    rw [hlr, hmid]
    exact ⟨l ++ p, q ++ r, by simp⟩
  · -- the other spelling is not in the text sought, and too little is left on either side
    have hasc : asciiLower ((u' ++ a) ++ y :: (b ++ v')) = (u' ++ a) ++ y :: (b ++ v') := by
      apply asciiLower_fixed
      have hu'' := toLower_of_asciiLower hulow
      have hv'' := toLower_of_asciiLower hvlow
      intro d hd
      simp only [mem_append, mem_cons] at hd
      rcases hd with (hd | hd) | rfl | hd | hd
      · exact hu'' d hd
      · exact (ha d hd).2
      · exact toLower_of_not_plain hy
      · exact (hb d hd).2
      · exact hv'' d hd
    rw [hasc, infix_append_cons hyn]
    have hwl : 0 < w.length := length_pos_iff.mpr hw
    have hlen : n.length = a.length + (w.length + b.length) := by
      rw [hn, length_append, length_append]
    rintro (h | h)
    · have he := infix_eq_of_length h (by rw [length_append]; omega)
      cases u' with
      | nil =>
        have := congrArg List.length he
        rw [nil_append] at this
        omega
      | cons x u' => exact hune x (by simp) (by rw [he]; rfl)
    · have he := infix_eq_of_length h (by rw [length_append]; omega)
      rcases eq_nil_or_concat v' with rfl | ⟨v'', x, rfl⟩
      · have := congrArg List.length he
        rw [append_nil] at this
        omega
      · exact hvne x (by simp) (by rw [he, concat_eq_append, ← append_assoc]; simp)

/-- With a character that is not plain, or with another spelling, some text has the text sought in its lower
case only. -/
theorem exists_otherSpelling (h : ¬ ((∀ c ∈ n, U.Plain c) ∧ ¬ U.OtherSpelling (asciiLower n))) :
    ∃ t, U.lower n <:+: U.lower t ∧ ¬ asciiLower n <:+: asciiLower t := by
  by_cases hplain : ∀ c ∈ n, U.Plain c
  · have ho : U.OtherSpelling (asciiLower n) := by
      by_contra hno
      exact h ⟨hplain, hno⟩
    rw [lower_plain hplain]
    exact exists_of_otherSpelling (fun d hd => fixed_asciiLower hplain hd) ho
  · push Not at hplain
    obtain ⟨c, hc, hnot⟩ := hplain
    refine ⟨U.lower n, by rewrite [lower_lower]; exact infix_refl _, fun hin => ?_⟩
    have hmem : c ∈ asciiLower n := mem_map.mpr ⟨c, hc, toLower_of_not_plain hnot⟩
    obtain ⟨d, hd, hdc⟩ := mem_map.mp (hin.sublist.subset hmem)
    have hdf := U.fixed_of_mem_lowerIn hd
    have hcf : U.lowerChar c = [d] := by rw [← hdc, U.lowerChar_toLower, hdf]
    -- a lower case that is an ASCII letter is that letter's own
    have hdlow : d.toLower = d := by
      rcases toLower_cases d with h' | ⟨-, -, h', -⟩
      · exact h'
      · have := U.ascii d h'
        rw [hdf] at this
        exact (List.cons.inj this).1.symm
    apply hnot
    unfold Plain
    rw [hcf, toLower_of_not_plain hnot, ← hdc, hdlow]

/-! ## Open sigmas -/

theorem exists_openLeft (hne : n ≠ []) (h : U.openLeft n = true) :
    ∃ x : Char, x.isAlpha = true ∧ ¬ U.lower n <:+: U.lower (x :: n) := by
  obtain ⟨x, hx, hfix, -, hhead⟩ := exists_letter U (U.lower n).head?
  have hlow : U.lower (x :: n) = x :: U.lowerIn [x] n [] := by
    have := U.lower_append [x] n
    rw [U.lowerIn_fixed (by simpa using hfix)] at this
    simpa using this
  have hne' := U.lowerIn_ne_of_openLeft h (U.casedNear_letter hx [])
  have hlen : (U.lowerIn [x] n []).length = (U.lower n).length := U.lowerIn_length [x] [] [] [] n
  refine ⟨x, hx, fun hin => ?_⟩
  rw [hlow] at hin
  rcases infix_of_length hin (by rw [length_cons, hlen]) with hp | hs
  · cases hl : U.lower n with
    | nil => exact U.lower_ne_nil hne hl
    | cons c l =>
      rw [hl] at hp hhead
      exact hhead (by rw [(cons_prefix_cons.mp hp).1]; rfl)
  · rcases suffix_cons_iff.mp hs with hs | hs
    · have := congrArg List.length hs
      rw [length_cons, hlen] at this
      omega
    · exact hne' (hs.eq_of_length hlen.symm).symm

theorem exists_openRight (hne : n ≠ []) (h : U.openRight n = true) :
    ∃ x : Char, x.isAlpha = true ∧ ¬ U.lower n <:+: U.lower (n ++ [x]) := by
  obtain ⟨x, hx, hfix, -, hlast⟩ := exists_letter U (U.lower n).getLast?
  have hlow : U.lower (n ++ [x]) = U.lowerIn [] n [x] ++ [x] := by
    have hx' : ∀ c ∈ [x], U.lowerChar c = [c] := by simpa using hfix
    rw [lower_append, U.lowerIn_fixed hx']
  have hne' := U.lowerIn_ne_of_openRight h (U.casedNear_letter hx [])
  have hlen : (U.lowerIn [] n [x]).length = (U.lower n).length := U.lowerIn_length [] [] [x] [] n
  refine ⟨x, hx, fun hin => ?_⟩
  rw [hlow] at hin
  rcases infix_of_length hin (by rw [length_append, length_singleton, hlen]) with hp | hs
  · have hpre : U.lower n <+: U.lowerIn [] n [x] :=
      prefix_of_prefix_length_le hp (prefix_append _ _) hlen.ge
    exact hne' (hpre.eq_of_length hlen.symm).symm
  · obtain ⟨z, hz⟩ := hs
    have hl := congrArg List.getLast? hz
    rw [getLast?_append_of_ne_nil _ (U.lower_ne_nil hne)] at hl
    exact hlast (by rw [hl]; simp)

end Oreneta.Text.Casing

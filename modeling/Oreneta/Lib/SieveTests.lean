import Mathlib.Data.List.Infix
import Oreneta.Lib.Infix
import Oreneta.Lib.Sieve

/-!
# What Sieve tests say of a message

The tests of RFC 5228 under the default comparator `i;ascii-casemap`: `header` looks at the values of the
named headers, `address :all` at the addresses in them.  White space at the ends of a value may be ignored
(`blank`).

* `Piece.matches`, `parsePattern` — the wildcards of `:matches`, and their escapes.
* `evalTest` — the truth of a test.
* `matches_prefix`, `matches_suffix` — a text with its wildcards escaped, before or after a `*`.
-/

namespace Oreneta.Sieve

open Text List

/-! ## Patterns -/

/-- A piece of a `:matches` pattern. -/
inductive Piece where
  | literal (c : Char)
  /-- `*` -/
  | anything
  /-- `?` -/
  | one
  deriving DecidableEq, Repr

def parsePattern : Str → List Piece
  | [] => []
  | '\\' :: c :: rest => .literal c :: parsePattern rest
  | '*' :: rest => .anything :: parsePattern rest
  | '?' :: rest => .one :: parsePattern rest
  | c :: rest => .literal c :: parsePattern rest

/-- Whether the pieces match the whole text; ASCII letters are compared without case. -/
def Piece.matches : List Piece → Str → Bool
  | [], text => text.isEmpty
  | .literal c :: rest, d :: text => c.toLower = d.toLower && Piece.matches rest text
  | .one :: rest, _ :: text => Piece.matches rest text
  | .anything :: rest, text => text.tails.any (Piece.matches rest)
  | _ :: _, [] => false

/-- A text in which `\`, `*` and `?` stand for themselves. -/
def escapeWildcards (s : Str) : Str :=
  s.flatMap (fun c => if c = '\\' ∨ c = '*' ∨ c = '?' then ['\\', c] else [c])

theorem parsePattern_escape (s rest : Str) : parsePattern (escapeWildcards s ++ rest) = s.map .literal ++ parsePattern rest := by
  induction s with
  | nil => rfl
  | cons c s ih =>
    have hcons : escapeWildcards (c :: s) =
        (if c = '\\' ∨ c = '*' ∨ c = '?' then ['\\', c] else [c]) ++ escapeWildcards s :=
      flatMap_cons
    rw [hcons, append_assoc, map_cons, cons_append, ← ih]
    by_cases hc : c = '\\' ∨ c = '*' ∨ c = '?'
    · rw [if_pos hc]
      rfl
    · rw [if_neg hc]
      rw [not_or, not_or] at hc
      rw [singleton_append, parsePattern]
      · intro d rest' h
        exact absurd h hc.1
      · exact hc.2.1
      · exact hc.2.2

theorem matches_literals (s : Str) (rest : List Piece) (text : Str) : Piece.matches (s.map .literal ++ rest) text = true ↔
      ∃ m v, text = m ++ v ∧ asciiLower m = asciiLower s ∧ Piece.matches rest v = true := by
  induction s generalizing text with
  | nil =>
    constructor
    · intro h
      exact ⟨[], text, rfl, rfl, h⟩
    · rintro ⟨m, v, rfl, hm, h⟩
      rw [show m = [] from map_eq_nil_iff.mp hm]
      exact h
  | cons c s ih =>
    cases text with
    | nil =>
      constructor
      · intro h
        cases h
      · rintro ⟨m, v, ht, hm, -⟩
        rw [(append_eq_nil_iff.mp ht.symm).1] at hm
        cases hm
    | cons d text =>
      rw [map_cons, cons_append, Piece.matches, Bool.and_eq_true, decide_eq_true_eq, ih]
      constructor
      · rintro ⟨hcd, m, v, rfl, hm, h⟩
        refine ⟨d :: m, v, rfl, ?_, h⟩
        unfold asciiLower at hm ⊢
        rw [map_cons, map_cons, hm, hcd]
      · rintro ⟨m, v, ht, hm, h⟩
        cases m with
        | nil => cases hm
        | cons e m =>
          rw [cons_append, List.cons.injEq] at ht
          obtain ⟨rfl, rfl⟩ := ht
          exact ⟨(List.cons.inj hm).1.symm, m, v, rfl, (List.cons.inj hm).2, h⟩

theorem matches_anything (text : Str) : Piece.matches [.anything] text = true := by
  rw [Piece.matches, any_eq_true]
  exact ⟨[], mem_tails _ _ |>.mpr (nil_suffix), rfl⟩

theorem parsePattern_star (rest : Str) : parsePattern ('*' :: rest) = .anything :: parsePattern rest := rfl

/-- A text before a `*` matches what starts with it. -/
theorem matches_prefix (s text : Str) : Piece.matches (parsePattern (escapeWildcards s ++ ['*'])) text = true ↔
      ∃ m v, text = m ++ v ∧ asciiLower m = asciiLower s := by
  rw [parsePattern_escape, parsePattern_star, matches_literals]
  constructor
  · rintro ⟨m, v, ht, hm, -⟩
    exact ⟨m, v, ht, hm⟩
  · rintro ⟨m, v, ht, hm⟩
    exact ⟨m, v, ht, hm, matches_anything v⟩

/-- A text after a `*` matches what ends with it. -/
theorem matches_suffix (s text : Str) : Piece.matches (parsePattern ('*' :: escapeWildcards s)) text = true ↔
      ∃ u m, text = u ++ m ∧ asciiLower m = asciiLower s := by
  have hp := parsePattern_escape s []
  rw [append_nil] at hp
  rw [parsePattern_star, hp, Piece.matches, any_eq_true]
  constructor
  · rintro ⟨t, ht, h⟩
    obtain ⟨u, rfl⟩ := (mem_tails _ _).mp ht
    obtain ⟨m, v, rfl, hm, hv⟩ := (matches_literals s _ t).mp h
    rw [show v = [] from List.isEmpty_iff.mp hv, append_nil]
    exact ⟨u, m, rfl, hm⟩
  · rintro ⟨u, m, rfl, hm⟩
    refine ⟨m, (mem_tails _ _).mpr (suffix_append u m), ?_⟩
    exact (matches_literals s _ m).mpr ⟨m, [], (append_nil m).symm, hm, rfl⟩

/-! ## Tests -/

/-- What a server can look at: the values of the headers, and the addresses in them, by the header's
name. -/
structure Mail where
  values : Str → List Str
  addresses : Str → List Str

/-- Whether a value matches a key, ASCII letters compared without case. -/
def keyMatches : MatchType → Str → Str → Bool
  | .is, key, value => asciiLower value = asciiLower key
  | .contains, key, value => Text.contains (asciiLower value) (asciiLower key)
  | .matches, key, value => Piece.matches (parsePattern key) value

/-- The truth of a test; `blank` is the white space ignored at the ends of a header's value. -/
def evalTest (blank : Char → Bool) (mail : Mail) : Test → Bool
  | .header m headers keys =>
    headers.any fun h => (mail.values h).any fun v => keys.any fun k => keyMatches m k (trimBy blank v)
  | .address m headers keys =>
    headers.any fun h => (mail.addresses h).any fun a => keys.any fun k => keyMatches m k a
  | .not t => !evalTest blank mail t

end Oreneta.Sieve

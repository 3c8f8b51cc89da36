import Oreneta.Lib.Trim

/-!
# Lines, and lists of pieces

* `Text.lines` — `str::lines`: a line ends with a line feed, or with a carriage return and a line feed.
* `lines_join` — lines joined by line feeds are read back, if none ends with a carriage return and the last is
  not empty.
* `trimStart_join`, `trimEnd_join` — white space around pieces that are joined by white space is what stands for
  the empty pieces at the ends.
-/

namespace Oreneta.Text

open List

def linesBetween : List Str → List Str
  | [] => []
  | [last] => if last.isEmpty then [] else [last]
  | line :: next :: rest =>
    (if line.getLast? = some '\r' then line.dropLast else line) :: linesBetween (next :: rest)

def lines (text : Str) : List Str := linesBetween (text.splitOn '\n')

/-! ## Joining -/

theorem join_cons_cons (sep a b : Str) (rest : List Str) : join sep (a :: b :: rest) = a ++ (sep ++ join sep (b :: rest)) := by
  rw [join, append_assoc]

theorem join_append {sep : Str} : ∀ {a b : List Str}, a ≠ [] → b ≠ [] → join sep (a ++ b) = join sep a ++ (sep ++ join sep b)
  | [], _, ha, _ => absurd rfl ha
  | [x], b, _, hb => by
    obtain ⟨y, rest, rfl⟩ := exists_cons_of_ne_nil hb
    rw [singleton_append, join_cons_cons, join]
  | x :: y :: rest, b, _, hb => by
    have ih := @join_append sep _ _ (cons_ne_nil y rest) hb
    rw [cons_append] at ih
    rw [cons_append, cons_append, join_cons_cons, ih, join_cons_cons]
    simp only [append_assoc]

variable {pieces : List Str}

theorem join_append_singleton (sep : Str) (last : Str) (h : pieces ≠ []) :
    join sep (pieces ++ [last]) = join sep pieces ++ (sep ++ last) := join_append h (cons_ne_nil last [])

theorem reverse_join (sep : Char) : ∀ pieces : List Str,
    (join [sep] pieces).reverse = join [sep] (pieces.reverse.map List.reverse)
  | [] => rfl
  | [a] => rfl
  | a :: b :: rest => by
    have ih := reverse_join sep (b :: rest)
    rw [join_cons_cons, reverse_append, reverse_append, ih, reverse_cons (a := a), map_append]
    have hne : (b :: rest).reverse.map List.reverse ≠ [] := by simp
    rw [map_singleton, join_append_singleton [sep] a.reverse hne]
    simp

theorem mem_join {sep : Str} {c : Char} : ∀ {pieces : List Str}, c ∈ join sep pieces → c ∈ sep ∨ ∃ p ∈ pieces, c ∈ p
  | [], h => by cases h
  | [a], h => .inr ⟨a, mem_singleton_self a, h⟩
  | a :: b :: rest, h => by
    rw [join_cons_cons] at h
    rcases mem_append.mp h with h | h
    · exact .inr ⟨a, mem_cons_self, h⟩
    · rcases mem_append.mp h with h | h
      · exact .inl h
      · exact (mem_join h).imp_right fun ⟨p, hp, hc⟩ => ⟨p, mem_cons_of_mem _ hp, hc⟩

theorem mem_join_of_mem {sep : Str} {c : Char} : ∀ {pieces : List Str} {p : Str}, p ∈ pieces → c ∈ p → c ∈ join sep pieces
  | [], _, hp, _ => by cases hp
  | [a], p, hp, hc => by
    rw [mem_singleton.mp hp] at hc
    exact hc
  | a :: b :: rest, p, hp, hc => by
    rw [join_cons_cons, mem_append, mem_append]
    rcases mem_cons.mp hp with rfl | hp
    · exact .inl hc
    · exact .inr (.inr (mem_join_of_mem hp hc))

variable {sep : Char}

theorem head?_join {c : Char} : ∀ {pieces : List Str}, c ∈ (join [sep] pieces).head? → c = sep ∨ ∃ p ∈ pieces, c ∈ p.head?
  | [], h => by cases h
  | [a], h => .inr ⟨a, mem_singleton_self a, h⟩
  | a :: b :: rest, h => by
    rw [join_cons_cons] at h
    cases a with
    | nil =>
      cases h
      exact .inl rfl
    | cons d a => exact .inr ⟨d :: a, mem_cons_self, h⟩

theorem getLast?_join {c : Char} (h : c ∈ (join [sep] pieces).getLast?) : c = sep ∨ ∃ p ∈ pieces, c ∈ p.getLast? := by
  rw [← head?_reverse, reverse_join] at h
  rcases head?_join h with h | ⟨p, hp, hc⟩
  · exact .inl h
  · obtain ⟨q, hq, rfl⟩ := mem_map.mp hp
    rw [head?_reverse] at hc
    exact .inr ⟨q, mem_reverse.mp hq, hc⟩

/-- A separator is written as soon as there are two pieces. -/
theorem mem_sep_join {a b : Str} {rest : List Str} : sep ∈ join [sep] (a :: b :: rest) := by
  rw [join_cons_cons]
  simp

/-! ## Lines -/

theorem join_eq_intercalate (sep : Str) : ∀ pieces : List Str, join sep pieces = sep.intercalate pieces
  | [] => rfl
  | [a] => by simp [join]
  | a :: b :: rest => by
    rw [join_cons_cons, join_eq_intercalate sep (b :: rest)]
    simp [List.intercalate]

theorem join_cons_eq (c : Char) (a : Str) : ∀ rest : List Str, join [c] (a :: rest) = a ++ rest.flatMap (fun p => c :: p)
  | [] => (append_nil a).symm
  | b :: rest => by rw [join_cons_cons, join_cons_eq c b rest, flatMap_cons, singleton_append, cons_append]

theorem splitOn_join (hne : pieces ≠ []) {c : Char} (h : ∀ p ∈ pieces, c ∉ p) : (join [c] pieces).splitOn c = pieces := by
  rw [join_eq_intercalate, splitOn_intercalate c h hne]

theorem linesBetween_eq_self : ∀ {ls : List Str}, (∀ l ∈ ls, l.getLast? ≠ some '\r') → ls.getLast? ≠ some [] →
    linesBetween ls = ls
  | [], _, _ => rfl
  | [l], _, hlast => by
    have hl : l ≠ [] := fun h => hlast (by rw [h]; rfl)
    simp [linesBetween, hl]
  | a :: b :: rest, h, hlast => by
    obtain ⟨ha, hrest⟩ := forall_mem_cons.mp h
    rw [linesBetween, if_neg ha, linesBetween_eq_self hrest (by simpa using hlast)]

theorem lines_join {ls : List Str} (hne : ls ≠ []) (hn : ∀ l ∈ ls, '\n' ∉ l) (hr : ∀ l ∈ ls, l.getLast? ≠ some '\r')
    (hlast : ls.getLast? ≠ some []) : lines (join ['\n'] ls) = ls := by
  unfold lines
  rw [splitOn_join hne hn, linesBetween_eq_self hr hlast]

/-! ## White space between pieces -/

/-- A piece that does not begin with white space. -/
def Flush (p : Str) : Prop := ∀ c ∈ p.head?, isWhitespace c = false

theorem trimStart_of_flush {p : Str} (h : Flush p) (hne : p ≠ []) (rest : Str) : trimStart (p ++ rest) = p ++ rest := by
  cases p with
  | nil => exact absurd rfl hne
  | cons c p =>
    have hc : isWhitespace c = false := h c rfl
    unfold trimStart
    rw [cons_append, dropWhile_cons_of_neg (by simp [hc])]

theorem trimStart_join {sep : Char} (hs : isWhitespace sep = true) : ∀ {pieces : List Str}, (∀ p ∈ pieces, Flush p) →
    trimStart (join [sep] pieces) = join [sep] (pieces.dropWhile List.isEmpty)
  | [], _ => rfl
  | [a], h => by
    cases a with
    | nil => rfl
    | cons c a =>
      have hflush : Flush (c :: a) := h (c :: a) (mem_singleton_self _)
      have := trimStart_of_flush hflush (cons_ne_nil c a) []
      rw [append_nil] at this
      rw [join, this, dropWhile_cons_of_neg (by simp), join]
  | a :: b :: rest, h => by
    obtain ⟨ha, hrest⟩ := forall_mem_cons.mp h
    cases a with
    | nil =>
      have ih := trimStart_join hs hrest
      rw [join_cons_cons, nil_append, singleton_append, dropWhile_cons_of_pos rfl, ← ih]
      unfold trimStart
      rw [dropWhile_cons_of_pos hs]
    | cons c a =>
      rw [join_cons_cons, trimStart_of_flush ha (cons_ne_nil c a), dropWhile_cons_of_neg (by simp), join_cons_cons]

/-- A text with something else than white space in it is not trimmed away. -/
theorem trim_ne_nil {s : Str} {c : Char} (hc : c ∈ s) (hw : isWhitespace c = false) : trim s ≠ [] := by
  intro h
  obtain ⟨before, after, hs, hb, ha⟩ := trimBy_split isWhitespace s
  rw [← trim_eq_trimBy, h, nil_append] at hs
  rw [hs] at hc
  rcases mem_append.mp hc with hc | hc
  · rw [hb c hc] at hw
    cases hw
  · rw [ha c hc] at hw
    cases hw

theorem trimEnd_eq (s : Str) : trimEnd s = (trimStart s.reverse).reverse := rfl

theorem trimEnd_join (hs : isWhitespace sep = true) (h : ∀ p ∈ pieces, Flush p.reverse) :
    trimEnd (join [sep] pieces) = join [sep] (pieces.rdropWhile List.isEmpty) := by
  have hall : ∀ p ∈ pieces.reverse.map List.reverse, Flush p := by
    intro p hp
    obtain ⟨q, hq, rfl⟩ := mem_map.mp hp
    exact h q (mem_reverse.mp hq)
  rw [trimEnd_eq, reverse_join, trimStart_join hs hall, reverse_join]
  unfold List.rdropWhile
  congr 1
  have hempty : (List.isEmpty ∘ List.reverse : Str → Bool) = List.isEmpty := by
    funext p
    simp
  rw [dropWhile_map, hempty]
  simp

/-- White space around the pieces goes, and nothing else if the ends are not empty. -/
theorem trim_join (hs : isWhitespace sep = true) (h : ∀ p ∈ pieces, Flush p) (h' : ∀ p ∈ pieces, Flush p.reverse) :
    trim (join [sep] pieces) = join [sep] ((pieces.dropWhile List.isEmpty).rdropWhile List.isEmpty) := by
  unfold trim
  rw [trimStart_join hs h, trimEnd_join hs]
  intro p hp
  exact h' p ((dropWhile_sublist _).subset hp)

end Oreneta.Text

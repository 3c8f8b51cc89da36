import Oreneta.Lib.Text

/-!
# A text cut at the separators outside

A scanner goes through a text with a state, such as whether a quote is open; a separator cuts the text where the
state is the first one.

* `pieces` — what the text is cut into; `run` — the state after a text; `Whole` — nothing in the text cuts it.
* `Clean` — entries that are each whole, and after which, the last one aside, the state is the first one again.
* `Passes` — a text that is not cut, and the state after it; `clean_of_passes`.
* `pieces_join` — clean entries, joined by a separator, are the pieces.
* `read_join_iff` — when every piece is read as something that has no more separators than the piece, what was
  joined is read back exactly when the entries are clean and each is read by itself.
-/

namespace Oreneta.Cuts

open Text List

variable {σ : Type}

structure Scanner (σ : Type) where
  start : σ
  next : σ → Char → σ
  separates : Char → Bool

variable {k : Scanner σ}

/-- What a text is cut into; `current` is what the piece has so far. -/
def pieces [DecidableEq σ] (k : Scanner σ) : σ → Str → Str → List Str
  | _, current, [] => [current]
  | s, current, c :: rest =>
    if s = k.start ∧ k.separates c = true then current :: pieces k s [] rest
    else pieces k (k.next s c) (current ++ [c]) rest

def run (k : Scanner σ) (s : σ) (text : Str) : σ := text.foldl k.next s

/-- Nothing in the text cuts it. -/
def Whole (k : Scanner σ) : σ → Str → Prop
  | _, [] => True
  | s, c :: rest => ¬ (s = k.start ∧ k.separates c = true) ∧ Whole k (k.next s c) rest

instance decidableWhole [DecidableEq σ] : ∀ (s : σ) (text : Str), Decidable (Whole k s text)
  | _, [] => .isTrue trivial
  | s, c :: rest => @instDecidableAnd _ _ inferInstance (decidableWhole (k.next s c) rest)

/-- How many separators there are, wherever they stand. -/
def marks (k : Scanner σ) (text : Str) : Nat := text.countP k.separates

@[simp] theorem marks_nil : marks k [] = 0 := rfl

@[simp] theorem marks_append (s t : Str) : marks k (s ++ t) = marks k s + marks k t := countP_append

theorem marks_cons (c : Char) (s : Str) : marks k (c :: s) = marks k s + if k.separates c = true then 1 else 0 :=
  countP_cons

theorem marks_sublist {s t : Str} (h : s.Sublist t) : marks k s ≤ marks k t := h.countP_le

theorem run_append (s : σ) (a b : Str) : run k s (a ++ b) = run k (run k s a) b := foldl_append

theorem whole_append {s : σ} : ∀ {a b : Str}, Whole k s (a ++ b) ↔ Whole k s a ∧ Whole k (run k s a) b := by
  intro a
  induction a generalizing s with
  | nil =>
    intro b
    exact ⟨fun h => ⟨trivial, h⟩, fun h => h.2⟩
  | cons c a ih =>
    intro b
    simp only [cons_append, Whole, ih, run, foldl_cons]
    exact and_assoc.symm

/-- Each entry is whole, and the state after it the first one, the last entry aside. -/
def Clean (k : Scanner σ) : List Str → Prop
  | [] => True
  | [e] => Whole k k.start e
  | e :: f :: rest => (Whole k k.start e ∧ run k k.start e = k.start) ∧ Clean k (f :: rest)

/-- A text that is not cut, and the state after it. -/
structure Passes (k : Scanner σ) (s : σ) (text : Str) (t : σ) : Prop where
  whole : Whole k s text
  ends : run k s text = t

theorem Passes.nil (s : σ) : Passes k s [] s := ⟨trivial, rfl⟩

theorem Passes.append {s t u : σ} {a b : Str} (ha : Passes k s a t) (hb : Passes k t b u) : Passes k s (a ++ b) u :=
  ⟨whole_append.mpr ⟨ha.whole, ha.ends ▸ hb.whole⟩, by rw [run_append, ha.ends, hb.ends]⟩

theorem Passes.cons {s t u : σ} {c : Char} {rest : Str} (hcut : ¬ (s = k.start ∧ k.separates c = true)) (hnext : k.next s c = t)
    (hrest : Passes k t rest u) : Passes k s (c :: rest) u :=
  ⟨⟨hcut, hnext ▸ hrest.whole⟩, by rw [run, foldl_cons, hnext]; exact hrest.ends⟩

/-- Characters that change nothing. -/
theorem Passes.stay {s : σ} : ∀ {text : Str}, (∀ c ∈ text, k.next s c = s ∧ ¬ (s = k.start ∧ k.separates c = true)) →
    Passes k s text s
  | [], _ => Passes.nil s
  | _ :: _, h => Passes.cons (h _ mem_cons_self).2 (h _ mem_cons_self).1
      (Passes.stay fun c hc => h c (mem_cons_of_mem _ hc))

theorem clean_of_passes : ∀ {entries : List Str}, (∀ e ∈ entries, Passes k k.start e k.start) → Clean k entries
  | [], _ => trivial
  | [e], h => (h e mem_cons_self).whole
  | e :: _ :: _, h => ⟨⟨(h e mem_cons_self).whole, (h e mem_cons_self).ends⟩,
      clean_of_passes fun x hx => h x (mem_cons_of_mem _ hx)⟩

/-- What is left out between entries: a separator, and a text that changes nothing. -/
structure Between (k : Scanner σ) (d : Char) (lead : Str) : Prop where
  separates : k.separates d = true
  whole : Whole k k.start lead
  back : run k k.start lead = k.start
  unmarked : marks k lead = 0

variable {d : Char} {lead : Str}

/-- Two separators with as many before them stand at one place. -/
theorem cut_at {a b a' b' : Str} {c c' : Char} (hc : k.separates c = true) (hc' : k.separates c' = true)
    (hmarks : marks k a = marks k a') (he : a ++ c :: b = a' ++ c' :: b') : a = a' ∧ b = b' := by
  have hshort : ∀ {u v w w' : Str} {x y : Char}, k.separates x = true → u ++ x :: w = v ++ y :: w' →
      u.length < v.length → marks k u < marks k v := by
    intro u v w w' x y hx huv hlt
    have hp : (u ++ [x]) <+: v := by
      refine @List.prefix_of_prefix_length_le _ _ _ (v ++ y :: w') ⟨w, ?_⟩ (prefix_append v _) ?_
      · rw [append_assoc, singleton_append, huv]
      · simp only [length_append, length_cons, length_nil]
        omega
    have := @marks_sublist _ k _ _ hp.sublist
    rw [marks_append, marks_cons, if_pos hx, marks_nil] at this
    omega
  have hlen : a.length = a'.length := by
    rcases lt_trichotomy a.length a'.length with hlt | heq | hgt
    · have := hshort hc he hlt
      omega
    · exact heq
    · have := hshort hc' he.symm hgt
      omega
  obtain ⟨rfl, htail⟩ := append_inj he hlen
  exact ⟨rfl, (List.cons.inj htail).2⟩

theorem marks_join (h : Between k d lead) : ∀ (e : Str) (rest : List Str),
    marks k (join (d :: lead) (e :: rest)) + 1 = ((e :: rest).map (marks k)).sum + (e :: rest).length
  | e, [] => by simp [join]
  | e, f :: rest => by
    have ih := marks_join h f rest
    rw [join, marks_append, marks_append, marks_cons, if_pos h.separates, h.unmarked, map_cons, sum_cons, length_cons]
    omega

/-! ## Texts read -/

variable {β : Type} {read : Str → Option β} {weight : β → Nat}

theorem weight_read_le (hle : ∀ p b, read p = some b → weight b ≤ marks k p) (ps : List Str) :
    ((ps.filterMap read).map weight).sum + (ps.filterMap read).length ≤ (ps.map (marks k)).sum + ps.length := by
  induction ps with
  | nil => exact Nat.le_refl _
  | cons p ps ih =>
    rw [filterMap_cons, map_cons, sum_cons, length_cons]
    cases hread : read p with
    | none => exact Nat.le_trans ih (by omega)
    | some b =>
      have := hle p b hread
      simp only [map_cons, sum_cons, length_cons]
      omega

/-- No separator is left over: every piece is read, and has the separators of what is read. -/
theorem read_exact (hle : ∀ p b, read p = some b → weight b ≤ marks k p) : ∀ {ps : List Str},
    (ps.map (marks k)).sum + ps.length = ((ps.filterMap read).map weight).sum + (ps.filterMap read).length →
    ps.map read = (ps.filterMap read).map some ∧ ps.map (marks k) = (ps.filterMap read).map weight
  | [], _ => ⟨rfl, rfl⟩
  | p :: ps, heq => by
    have htail := weight_read_le hle ps
    rw [filterMap_cons, map_cons, sum_cons, length_cons] at heq
    rw [filterMap_cons, map_cons, map_cons]
    cases hread : read p with
    | none =>
      simp only [hread] at heq
      omega
    | some b =>
      have hb := hle p b hread
      simp only [hread, map_cons, sum_cons, length_cons] at heq ⊢
      obtain ⟨hreads, hmarks⟩ := @read_exact hle ps (by omega)
      rw [hreads, hmarks]
      exact ⟨rfl, by rw [show marks k p = weight b by omega]⟩

/-! ## One piece -/

variable [DecidableEq σ]

/-- A whole text is passed over. -/
theorem pieces_append {s : σ} {e : Str} (h : Whole k s e) (current rest : Str) :
    pieces k s current (e ++ rest) = pieces k (run k s e) (current ++ e) rest := by
  induction e generalizing s current with
  | nil => rw [nil_append, append_nil]; rfl
  | cons c e ih =>
    rw [cons_append, pieces, if_neg h.1, ih h.2, append_assoc, singleton_append]
    rfl

theorem pieces_whole {s : σ} {e : Str} (h : Whole k s e) (current : Str) : pieces k s current e = [current ++ e] := by
  have := pieces_append h current []
  rwa [append_nil, pieces] at this

theorem pieces_cut {c : Char} (h : k.separates c = true) (current rest : Str) :
    pieces k k.start current (c :: rest) = current :: pieces k k.start [] rest := by
  rw [pieces, if_pos ⟨rfl, h⟩]

/-- The first piece: all of the text, or what stands before the first separator that cuts. -/
theorem pieces_first {s : σ} {current text p : Str} {ps : List Str} (h : pieces k s current text = p :: ps) :
    (ps = [] ∧ p = current ++ text ∧ Whole k s text) ∨
      ∃ before c rest, text = before ++ c :: rest ∧ p = current ++ before ∧ Whole k s before ∧
        run k s before = k.start ∧ k.separates c = true ∧ ps = pieces k k.start [] rest := by
  induction text generalizing s current with
  | nil =>
    obtain ⟨rfl, rfl⟩ := List.cons.inj h
    exact .inl ⟨rfl, (append_nil _).symm, trivial⟩
  | cons c text ih =>
    rw [pieces] at h
    split at h
    · rename_i hcut
      obtain ⟨rfl, rfl⟩ := List.cons.inj h
      refine .inr ⟨[], c, text, rfl, (append_nil _).symm, trivial, hcut.1, hcut.2, ?_⟩
      rw [hcut.1]
    · rename_i hno
      obtain ⟨rfl, rfl, hwhole⟩ | ⟨before, d, rest, rfl, rfl, hwhole, hrun, hd, rfl⟩ := ih h
      · exact .inl ⟨rfl, by rw [append_assoc, singleton_append], hno, hwhole⟩
      · exact .inr ⟨c :: before, d, rest, rfl, by rw [append_assoc, singleton_append], ⟨hno, hwhole⟩, hrun, hd,
          rfl⟩

/-- Every piece but one costs a separator of the text. -/
theorem marks_pieces (s : σ) (current text : Str) :
    ((pieces k s current text).map (marks k)).sum + (pieces k s current text).length =
      marks k current + marks k text + 1 := by
  induction text generalizing s current with
  | nil => simp [pieces]
  | cons c text ih =>
    rw [pieces, marks_cons]
    split
    · rename_i hcut
      have := ih s []
      rw [map_cons, sum_cons, length_cons, if_pos hcut.2]
      simp only [marks_nil] at this
      omega
    · rw [ih, marks_append, marks_cons, marks_nil]
      omega

/-! ## Entries joined -/

instance decidableClean : ∀ entries : List Str, Decidable (Clean k entries)
  | [] => .isTrue trivial
  | [e] => inferInstanceAs (Decidable (Whole k k.start e))
  | _ :: f :: rest => @instDecidableAnd _ _ inferInstance (decidableClean (f :: rest))

theorem Between.pieces_lead (h : Between k d lead) (rest : Str) :
    pieces k k.start [] (lead ++ rest) = pieces k k.start lead rest := by
  rw [pieces_append h.whole, h.back, nil_append]

theorem pieces_join_from (h : Between k d lead) : ∀ (e : Str) (rest : List Str) (current : Str), Clean k (e :: rest) →
    pieces k k.start current (join (d :: lead) (e :: rest)) = (current ++ e) :: rest.map (fun f => lead ++ f)
  | _, [], _, hclean => by rw [join, pieces_whole hclean, map_nil]
  | e, f :: rest, current, hclean => by
    obtain ⟨⟨hwhole, hback⟩, hrest⟩ := hclean
    rw [join, append_assoc, pieces_append hwhole, hback, cons_append, pieces_cut h.separates, h.pieces_lead,
      pieces_join_from h f rest lead hrest, map_cons]

theorem pieces_join (h : Between k d lead) {e : Str} {rest : List Str} (hclean : Clean k (e :: rest)) :
    pieces k k.start [] (join (d :: lead) (e :: rest)) = e :: rest.map (fun f => lead ++ f) := by
  rw [pieces_join_from h e rest [] hclean, nil_append]

/-- Pieces with as many separators as the entries are the entries. -/
theorem clean_of_marks (h : Between k d lead) : ∀ (e : Str) (rest : List Str) (current : Str), marks k current = 0 →
    (pieces k k.start current (join (d :: lead) (e :: rest))).map (marks k) = (e :: rest).map (marks k) → Clean k (e :: rest)
  | e, rest, current, hcurrent, heq => by
    cases hp : pieces k k.start current (join (d :: lead) (e :: rest)) with
    | nil => rw [hp] at heq; cases heq
    | cons p ps =>
      rw [hp, map_cons, map_cons] at heq
      obtain ⟨hfirst, hothers⟩ := List.cons.inj heq
      obtain ⟨rfl, hpe, hwhole⟩ | ⟨before, c, tail, htext, rfl, hwhole, hrun, hc, rfl⟩ := pieces_first hp
      · cases rest with
        | nil => exact hwhole
        | cons f rest => cases hothers
      · rw [marks_append, hcurrent, Nat.zero_add] at hfirst
        cases rest with
        | nil =>
          -- the entry would have a separator more than its piece
          rw [join] at htext
          rw [htext, marks_append, marks_cons, if_pos hc] at hfirst
          omega
        | cons f rest =>
          rw [join, append_assoc, cons_append] at htext
          obtain ⟨rfl, rfl⟩ := cut_at h.separates hc hfirst.symm htext
          rw [h.pieces_lead] at hothers
          exact ⟨⟨hwhole, hrun⟩, clean_of_marks h f rest lead h.unmarked hothers⟩

/-- **What was joined is read back exactly when the entries are clean and each is read by itself.** -/
theorem read_join_iff (h : Between k d lead) (hle : ∀ p b, read p = some b → weight b ≤ marks k p)
    (hlead : ∀ e, read (lead ++ e) = read e) {entries : List Str} (hne : entries ≠ []) {bs : List β}
    (hweights : entries.map (marks k) = bs.map weight) : (pieces k k.start [] (join (d :: lead) entries)).filterMap read = bs ↔
      Clean k entries ∧ entries.map read = bs.map some := by
  obtain ⟨e, rest, rfl⟩ := exists_cons_of_ne_nil hne
  have hreads : (e :: rest.map fun f => lead ++ f).map read = (e :: rest).map read := by
    rw [map_cons, map_map, map_cons]
    exact congrArg _ (map_congr_left fun f _ => hlead f)
  have hfilter : ∀ {l : List Str}, l.map read = bs.map some → l.filterMap read = bs := by
    intro l hl
    have := congrArg (List.filterMap id) hl
    rwa [filterMap_map, filterMap_map, Function.id_comp, Function.id_comp, filterMap_some] at this
  constructor
  · intro hread
    have hsum := @marks_pieces _ k _ k.start [] (join (d :: lead) (e :: rest))
    have hjoin := marks_join h e rest
    have hlength := congrArg List.length hweights
    rw [length_map, length_map] at hlength
    have hexact := @read_exact _ k _ _ _ hle (pieces k k.start [] (join (d :: lead) (e :: rest))) (by
      rw [hsum, hread, marks_nil, Nat.zero_add, hjoin, hweights, hlength])
    rw [hread, ← hweights] at hexact
    have hclean := clean_of_marks h e rest [] rfl hexact.2
    refine ⟨hclean, ?_⟩
    rw [← hexact.1, pieces_join h hclean, hreads]
  · rintro ⟨hclean, hread⟩
    rw [pieces_join h hclean]
    exact hfilter (hreads.trans hread)

end Oreneta.Cuts

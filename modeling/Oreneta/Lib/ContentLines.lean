import Oreneta.Lib.Text

/-!
# Content lines

The lines of iCalendar and vCard text.  In a file a line may be folded: it goes on in every physical
line that begins with a blank.

* `unfold` — the lines of a text, continuations joined and empty physical lines dropped;
* `fold`, `render` — a line cut at 75 octets without splitting a character, and lines as a text;
* `Clean` — what the lines of every text are (`unfold_clean`), and what is enough to read back the lines
  that were written (`unfold_render`).
-/

namespace Oreneta.ContentLines

open List

/-- The rest of a physical line that continues the line before it. -/
def continuation : Str → Option Str
  | [] => none
  | c :: rest => if c = ' ' ∨ c = '\t' then some rest else none

def stripCr (raw : Str) : Str := if raw.getLast? = some '\r' then raw.dropLast else raw

def addRaw (lines : List Str) (raw : Str) : List Str :=
  match continuation (stripCr raw), lines.getLast? with
  | some rest, some last => lines.dropLast ++ [last ++ rest]
  | _, _ => if (stripCr raw).isEmpty then lines else lines ++ [stripCr raw]

/-- Joins folded continuation lines and splits on line ends. -/
def unfold (text : Str) : List Str := (text.splitOn '\n').foldl addRaw []

/-- The octets of a text in UTF-8. -/
def octets (text : Str) : Nat := (text.map Char.utf8Size).sum

def foldFrom : Str → Nat → Bool → Str
  | [], _, _ => []
  | c :: cs, width, first =>
    let limit := if first then 75 else 74
    if limit < width + c.utf8Size then '\r' :: '\n' :: ' ' :: c :: foldFrom cs c.utf8Size false
    else c :: foldFrom cs (width + c.utf8Size) first

/-- Folds a content line at 75 octets without splitting a character. -/
def fold (line : Str) : Str := if octets line ≤ 75 then line else foldFrom line 0 true

def render (lines : List Str) : Str := lines.flatMap (fun line => fold line ++ ['\r', '\n'])

/-- Lines as they come out of a text: none is empty or has a line end in it, and only the first can
begin with a blank. -/
structure Clean (lines : List Str) : Prop where
  solid : ∀ line ∈ lines, line ≠ [] ∧ '\n' ∉ line
  starts : ∀ line ∈ lines.tail, continuation line = none

/-! ## What comes out of a text -/

theorem Clean.nil : Clean [] := ⟨by simp, by simp⟩

variable {lines : List Str}

theorem Clean.append {more : List Str} (h : Clean lines) (hsolid : ∀ line ∈ more, line ≠ [] ∧ '\n' ∉ line)
    (hstarts : lines = [] → ∀ line ∈ more.tail, continuation line = none)
    (hstarts' : lines ≠ [] → ∀ line ∈ more, continuation line = none) : Clean (lines ++ more) := by
  constructor
  · intro line hline
    rcases mem_append.mp hline with hline | hline
    · exact h.solid line hline
    · exact hsolid line hline
  · cases lines with
    | nil => exact hstarts rfl
    | cons l ls =>
      intro line hline
      rcases mem_append.mp hline with hline | hline
      · exact h.starts line hline
      · exact hstarts' (by simp) line hline

theorem notMem_of_mem_splitOn {c : Char} : ∀ {text raw : Str}, raw ∈ text.splitOn c → c ∉ raw
  | [], raw, h => by
    rw [splitOn_nil, mem_singleton] at h
    simp [h]
  | x :: text, raw, h => by
    rw [splitOn_cons_eq_if_modifyHead] at h
    split at h
    · rcases mem_cons.mp h with rfl | h
      · simp
      · exact notMem_of_mem_splitOn h
    · rename_i hx
      cases hs : text.splitOn c with
      | nil => exact absurd hs (splitOn_ne_nil c text)
      | cons first rest =>
        rw [hs, modifyHead_cons] at h
        rcases mem_cons.mp h with rfl | h
        · have hfirst : c ∉ first := notMem_of_mem_splitOn (by rw [hs]; exact mem_cons_self)
          have hne : c ≠ x := fun he => hx (by simp [he])
          simp [hfirst, hne]
        · exact notMem_of_mem_splitOn (by rw [hs]; exact mem_cons_of_mem _ h)

theorem stripCr_subset {raw : Str} {c : Char} (h : c ∈ stripCr raw) : c ∈ raw := by
  unfold stripCr at h
  split at h
  · exact dropLast_subset _ h
  · exact h

theorem continuation_eq_none {c : Char} {cs : Str} : continuation (c :: cs) = none ↔ ¬ (c = ' ' ∨ c = '\t') := by
  simp [continuation]

/-- Whether a line continues another is decided by its first character. -/
theorem continuation_append {line more : Str} (hne : line ≠ []) (h : continuation line = none) :
    continuation (line ++ more) = none := by
  cases line with
  | nil => exact absurd rfl hne
  | cons c cs => exact continuation_eq_none.mpr (continuation_eq_none.mp h)

theorem continuation_subset {raw rest : Str} (h : continuation raw = some rest) : ∀ c ∈ rest, c ∈ raw := by
  cases raw with
  | nil => cases h
  | cons x raw =>
    simp only [continuation, Option.ite_none_right_eq_some, Option.some.injEq] at h
    exact fun c hc => mem_cons_of_mem _ (h.2 ▸ hc)

theorem Clean.addRaw {lines : List Str} {raw : Str} (h : Clean lines) (hraw : '\n' ∉ raw) : Clean (addRaw lines raw) := by
  have hstrip : '\n' ∉ stripCr raw := fun hc => hraw (stripCr_subset hc)
  unfold ContentLines.addRaw
  split
  · rename_i rest last hrest hlast
    obtain ⟨init, rfl⟩ : ∃ init, lines = init ++ [last] := getLast?_eq_some_iff.mp hlast
    rw [dropLast_concat]
    have hl := h.solid last (by simp)
    constructor
    · intro line hline
      rcases mem_append.mp hline with hline | hline
      · exact h.solid line (mem_append_left _ hline)
      · rw [mem_singleton.mp hline]
        refine ⟨by simp [hl.1], fun hc => ?_⟩
        rcases mem_append.mp hc with hc | hc
        · exact hl.2 hc
        · exact hstrip (continuation_subset hrest _ hc)
    · cases init with
      | nil => simp
      | cons l ls =>
        intro line hline
        rcases mem_append.mp hline with hline | hline
        · exact h.starts line (mem_append_left _ hline)
        · -- joined to, a line still begins as it did
          rw [mem_singleton.mp hline]
          exact continuation_append hl.1 (h.starts last (mem_append_right _ (mem_singleton_self _)))
  · rename_i hno
    split
    · exact h
    · rename_i hne
      refine h.append ?_ (by simp) ?_
      · intro line hline
        rw [mem_singleton.mp hline]
        exact ⟨by simpa using hne, hstrip⟩
      · intro hlines line hline
        rw [mem_singleton.mp hline]
        cases hc : continuation (stripCr raw) with
        | none => rfl
        | some rest =>
          obtain ⟨last, hlast⟩ : ∃ last, lines.getLast? = some last :=
            ⟨_, getLast?_eq_some_getLast hlines⟩
          exact absurd hlast (hno rest last hc)

/-- The lines of a text are clean. -/
theorem unfold_clean (text : Str) : Clean (unfold text) := by
  have hfold : ∀ (raws : List Str) (lines : List Str), (∀ raw ∈ raws, '\n' ∉ raw) → Clean lines →
      Clean (raws.foldl ContentLines.addRaw lines) := by
    intro raws
    induction raws with
    | nil => exact fun _ _ h => h
    | cons raw raws ih =>
      intro lines hraws h
      exact ih _ (fun r hr => hraws r (mem_cons_of_mem _ hr)) (h.addRaw (hraws raw mem_cons_self))
  exact hfold _ [] (fun raw hraw => notMem_of_mem_splitOn hraw) Clean.nil

/-! ## Reading back what was written -/

theorem stripCr_concat (raw : Str) : stripCr (raw ++ ['\r']) = raw := by
  unfold stripCr
  rw [if_pos (by simp), dropLast_concat]

/-- One physical line of a text. -/
theorem splitOn_line {raw rest : Str} (h : '\n' ∉ raw) :
    (raw ++ '\r' :: '\n' :: rest).splitOn '\n' = (raw ++ ['\r']) :: rest.splitOn '\n' := by
  have hraw : '\n' ∉ raw ++ ['\r'] := by simp [h]
  have := splitOn_append_cons_self_of_not_mem hraw rest
  simpa using this

theorem addRaw_continued (lines : List Str) (line rest : Str) :
    addRaw (lines ++ [line]) (' ' :: rest ++ ['\r']) = lines ++ [line ++ rest] := by
  unfold addRaw
  rw [stripCr_concat]
  simp [continuation]

theorem addRaw_new {line : Str} (hne : line ≠ [])
    (hstart : lines ≠ [] → continuation line = none) : addRaw lines (line ++ ['\r']) = lines ++ [line] := by
  unfold addRaw
  rw [stripCr_concat]
  split
  · rename_i rest last hrest hlast
    have hlines : lines ≠ [] := by
      rintro rfl
      cases hlast
    rw [hstart hlines] at hrest
    cases hrest
  · simp [hne]

/-- What is left of a folded line, when `done` of the physical line is written. -/
theorem foldl_continued : ∀ (cs done line : Str) (width : Nat) (lines : List Str) (rest : Str), '\n' ∉ done → '\n' ∉ cs →
      ((' ' :: done ++ foldFrom cs width false ++ '\r' :: '\n' :: rest).splitOn '\n').foldl addRaw
        (lines ++ [line]) = (rest.splitOn '\n').foldl addRaw (lines ++ [line ++ done ++ cs])
  | [], done, line, width, lines, rest, hdone, _ => by
    have hraw : '\n' ∉ ' ' :: done := by simp [hdone]
    rw [foldFrom, append_nil, splitOn_line hraw, foldl_cons, addRaw_continued, append_nil]
  | c :: cs, done, line, width, lines, rest, hdone, hcs => by
    have hc : c ≠ '\n' := fun he => hcs (he ▸ mem_cons_self)
    have hcs' : '\n' ∉ cs := fun hm => hcs (mem_cons_of_mem _ hm)
    have hraw : '\n' ∉ ' ' :: done := by simp [hdone]
    simp only [foldFrom, Bool.false_eq_true, if_false]
    split
    · have ih := foldl_continued cs [c] (line ++ done) c.utf8Size lines rest (by simpa using hc.symm) hcs'
      have hcut : ' ' :: done ++ '\r' :: '\n' :: ' ' :: c :: foldFrom cs c.utf8Size false ++
          '\r' :: '\n' :: rest = (' ' :: done) ++ '\r' :: '\n' ::
          (' ' :: [c] ++ foldFrom cs c.utf8Size false ++ '\r' :: '\n' :: rest) := by simp
      rw [hcut, splitOn_line hraw, foldl_cons, addRaw_continued, ih]
      simp
    · have ih := foldl_continued cs (done ++ [c]) line (width + c.utf8Size) lines rest (by simp [hdone, hc.symm]) hcs'
      simpa using ih

/-- The same in the first physical line of a line. -/
theorem foldl_folded : ∀ (cs done : Str) (width : Nat) (lines : List Str) (rest : Str),
    done ≠ [] → '\n' ∉ done → '\n' ∉ cs → (lines ≠ [] → continuation done = none) →
      ((done ++ foldFrom cs width true ++ '\r' :: '\n' :: rest).splitOn '\n').foldl addRaw lines =
        (rest.splitOn '\n').foldl addRaw (lines ++ [done ++ cs])
  | [], done, width, lines, rest, hne, hdone, _, hstart => by
    rw [foldFrom, append_nil, splitOn_line hdone, foldl_cons, addRaw_new hne hstart]
  | c :: cs, done, width, lines, rest, hne, hdone, hcs, hstart => by
    have hc : c ≠ '\n' := fun he => hcs (he ▸ mem_cons_self)
    have hcs' : '\n' ∉ cs := fun hm => hcs (mem_cons_of_mem _ hm)
    simp only [foldFrom, if_true]
    split
    · have hrest := foldl_continued cs [c] done c.utf8Size lines rest (by simpa using hc.symm) hcs'
      have hcut : done ++ '\r' :: '\n' :: ' ' :: c :: foldFrom cs c.utf8Size false ++ '\r' :: '\n' :: rest =
          done ++ '\r' :: '\n' :: (' ' :: [c] ++ foldFrom cs c.utf8Size false ++ '\r' :: '\n' :: rest) := by
        simp
      rw [hcut, splitOn_line hdone, foldl_cons, addRaw_new hne hstart, hrest]
      simp
    · have hstart' : lines ≠ [] → continuation (done ++ [c]) = none :=
        fun hl => continuation_append hne (hstart hl)
      have ih := foldl_folded cs (done ++ [c]) (width + c.utf8Size) lines rest (by simp)
        (by simp [hdone, hc.symm]) hcs' hstart'
      simpa using ih

theorem foldl_fold {line rest : Str} (hline : line ≠ [] ∧ '\n' ∉ line) (hstart : lines ≠ [] → continuation line = none) :
    ((fold line ++ '\r' :: '\n' :: rest).splitOn '\n').foldl addRaw lines =
      (rest.splitOn '\n').foldl addRaw (lines ++ [line]) := by
  unfold fold
  split
  · rw [splitOn_line hline.2, foldl_cons, addRaw_new hline.1 hstart]
  · obtain ⟨hne, hn⟩ := hline
    cases line with
    | nil => exact absurd rfl hne
    | cons c cs =>
      have hc : '\n' ∉ [c] := fun hm => hn (mem_singleton.mp hm ▸ mem_cons_self)
      have hstart' : lines ≠ [] → continuation [c] = none :=
        fun hl => continuation_eq_none.mpr (continuation_eq_none.mp (hstart hl))
      have hlimit : ¬ 75 < 0 + c.utf8Size := by
        have := c.utf8Size_le_four
        omega
      simp only [foldFrom, if_true, if_neg hlimit]
      exact foldl_folded cs [c] (0 + c.utf8Size) lines rest (by simp) hc (fun hm => hn (mem_cons_of_mem _ hm)) hstart'

/-- **What was written is read back**, folded or not. -/
theorem unfold_render (h : Clean lines) : unfold (render lines) = lines := by
  have hfold : ∀ (more before : List Str), Clean (before ++ more) →
      ((render more).splitOn '\n').foldl addRaw before = before ++ more := by
    intro more
    induction more with
    | nil =>
      intro before _
      simp [render, addRaw, stripCr, continuation]
    | cons line more ih =>
      intro before hclean
      have hline := hclean.solid line (by simp)
      have hstart : before ≠ [] → continuation line = none := by
        intro hne
        apply hclean.starts
        cases before with
        | nil => exact absurd rfl hne
        | cons b bs => simp
      have hcut : render (line :: more) = fold line ++ '\r' :: '\n' :: render more := by
        simp [render]
      rw [hcut, foldl_fold hline hstart, ih _ (by simpa using hclean)]
      simp
  exact hfold lines [] (by simpa using h)

end Oreneta.ContentLines

import Mathlib.Data.List.Chain
import Oreneta.Contacts.Reading
import Oreneta.Contacts.Writing

/-!
# Folding and unfolding

The folding of the calendar (`calendar/ics.rs`) and of the address book (`contacts/vcard_write.rs`), and the three ways
it is undone.

* `addWritten`, `unfoldWritten` — the unfolding of the writer, which drops blank lines; `unfoldWritten_eq` — it is that of
  the calendar.
* `octets_foldFrom` — no physical line is longer than 75 octets.
* `unfold_solid` — the reader's lines are the writer's, but for blank ones.
* `folding` — what is folded is read back, and the two readers agree.
-/

namespace Oreneta.Contacts

open List
open ContentLines (continuation)
open Write (foldFrom join join_eq_render splitOn_pieces stripCr_concat)

/-! ## The writer's unfolding -/

/-- `unfold` of `vcard_write.rs`, one physical line. -/
def addWritten (lines : List Str) (raw : Str) : List Str :=
  match stripCr raw with
  | c :: rest =>
    if (c = ' ' ∨ c = '\t') ∧ lines ≠ [] then lines.dropLast ++ [lines.getLast?.getD [] ++ rest]
    else lines ++ [c :: rest]
  | [] => lines

def unfoldWritten (raw : Str) : List Str := (raw.splitOn '\n').foldl addWritten []

theorem addWritten_eq (lines : List Str) (raw : Str) : addWritten lines raw = ContentLines.addRaw lines raw := by
  have hstrip : ContentLines.stripCr raw = stripCr raw := rfl
  unfold addWritten ContentLines.addRaw
  rw [hstrip]
  cases stripCr raw with
  | nil => rfl
  | cons c rest =>
    cases hlast : lines.getLast? with
    | none =>
      have hnil : lines = [] := getLast?_eq_none_iff.mp hlast
      simp [hnil]
    | some last =>
      have hne : lines ≠ [] := by
        rintro rfl
        cases hlast
      by_cases hblank : c = ' ' ∨ c = '\t'
      · simp [continuation, hblank, hne]
      · simp [continuation, hblank]

theorem unfoldWritten_eq (raw : Str) : unfoldWritten raw = ContentLines.unfold raw := by
  unfold unfoldWritten ContentLines.unfold
  congr 1
  funext lines line
  exact addWritten_eq lines line

/-! ## The length of physical lines -/

/-- The physical lines of a folded line, when so many octets of the first are written. -/
theorem foldFrom_short_lines : ∀ (line : Str) (width : Nat), width ≤ 75 → '\n' ∉ line →
    ∃ (first : Str) (more : List Str), foldFrom width line = first ++ more.flatMap (fun m => '\r' :: '\n' :: ' ' :: m) ∧
      '\n' ∉ first ∧ (∀ m ∈ more, '\n' ∉ m) ∧ width + ContentLines.octets first ≤ 75 ∧
      ∀ m ∈ more, ContentLines.octets (' ' :: m) ≤ 75
  | [], _, hwidth, _ => ⟨[], [], rfl, not_mem_nil, forall_mem_nil _, hwidth, forall_mem_nil _⟩
  | c :: line, width, hwidth, h => by
    have hc : '\n' ≠ c := fun he => h (he ▸ mem_cons_self)
    have hline : '\n' ∉ line := fun hm => h (mem_cons_of_mem _ hm)
    have hsize := c.utf8Size_le_four
    have hoctets : ∀ (d : Char) (s : Str), ContentLines.octets (d :: s) = d.utf8Size + ContentLines.octets s := fun _ _ => rfl
    rw [foldFrom]
    by_cases hfull : 75 < width + c.utf8Size
    · rw [if_pos hfull]
      obtain ⟨first, more, hfold, hfirst, hmore, hroom, hrest⟩ := foldFrom_short_lines line (1 + c.utf8Size) (by omega) hline
      refine ⟨[], (c :: first) :: more, ?_, not_mem_nil, ?_, hwidth, ?_⟩
      · rw [hfold]
        simp
      · exact forall_mem_cons.mpr ⟨by simp [hc, hfirst], hmore⟩
      · refine forall_mem_cons.mpr ⟨?_, hrest⟩
        have hblank : ' '.utf8Size = 1 := by decide
        rw [hoctets, hoctets, hblank]
        omega
    · rw [if_neg hfull]
      obtain ⟨first, more, hfold, hfirst, hmore, hroom, hrest⟩ :=
        foldFrom_short_lines line (width + c.utf8Size) (by omega) hline
      refine ⟨c :: first, more, ?_, by simp [hc, hfirst], hmore, ?_, hrest⟩
      · rw [hfold, cons_append]
      · rw [hoctets]
        omega

theorem join_short_lines : ∀ {lines : List Str}, (∀ line ∈ lines, '\n' ∉ line) →
    ∀ raw ∈ (join lines).splitOn '\n', ContentLines.octets (stripCr raw) ≤ 75
  | [], _, raw, hraw => by
    have hnil : raw = [] := mem_singleton.mp hraw
    subst hnil
    decide
  | line :: lines, h, raw, hraw => by
    obtain ⟨hline, hlines⟩ := forall_mem_cons.mp h
    obtain ⟨first, more, hfold, hfirst, hmore, hroom, hrest⟩ := foldFrom_short_lines line 0 (by decide) hline
    have hcut : join (line :: lines) = foldFrom 0 line ++ '\r' :: '\n' :: join lines := by simp [join]
    rw [hcut, hfold, splitOn_pieces (join lines) more first hfirst hmore] at hraw
    rcases mem_cons.mp hraw with rfl | hraw
    · rw [stripCr_concat]
      omega
    rcases mem_append.mp hraw with hraw | hraw
    · obtain ⟨m, hm, rfl⟩ := mem_map.mp hraw
      rw [stripCr_concat]
      exact hrest m hm
    · exact join_short_lines hlines raw hraw

theorem length_bytes (s : Str) : (Utf8.bytes s).length = ContentLines.octets s := by
  induction s with
  | nil => rfl
  | cons c s ih =>
    have hoctets : ContentLines.octets (c :: s) = c.utf8Size + ContentLines.octets s := rfl
    rw [Utf8.bytes_cons, length_append, String.length_utf8EncodeChar, ih, hoctets]

theorem bytes_eq_nil (s : Str) : Utf8.bytes s = [] ↔ s = [] := by
  rw [← length_eq_zero_iff, length_bytes]
  cases s with
  | nil => exact iff_of_true rfl rfl
  | cons c s =>
    have hpos := Char.utf8Size_pos c
    have hoctets : ContentLines.octets (c :: s) = c.utf8Size + ContentLines.octets s := rfl
    exact iff_of_false (by omega) (cons_ne_nil c s)

/-- As octets: no physical line is longer than 75, and none ends inside a character. -/
def ShortLines (text : Octets) : Prop :=
  ∀ raw ∈ text.splitOn 10, (stripCrOctet raw).length ≤ 75 ∧ ∃ s, raw = Utf8.bytes s

theorem shortLines_join {lines : List Str} (h : ∀ line ∈ lines, '\n' ∉ line) : ShortLines (Utf8.bytes (join lines)) := by
  have hsplit : (Utf8.bytes (join lines)).splitOn 10 = ((join lines).splitOn '\n').map Utf8.bytes :=
    Utf8.splitOn_bytes (x := '\n') (by decide) (join lines)
  intro raw hraw
  rw [hsplit] at hraw
  obtain ⟨line, hline, rfl⟩ := mem_map.mp hraw
  refine ⟨?_, line, rfl⟩
  rw [stripCrOctet_bytes, length_bytes]
  exact join_short_lines h line hline

/-! ## The reader's lines -/

/-- No blank line is followed by a line that continues another. -/
def NoneOrphaned (text : Str) : Prop :=
  ((text.splitOn '\n').map stripCr).IsChain (fun a b => a = [] → continuation b = none)

instance (text : Str) : Decidable (NoneOrphaned text) := inferInstanceAs (Decidable (List.IsChain _ _))

/-- The lines that are not blank. -/
def solid (lines : List Str) : List Str := lines.filter (fun line => line ≠ [])

/-- One physical line, in both. -/
theorem addLine_solid {lines : List Str} {raw : Str} (h : lines.getLast? = some [] → continuation (stripCr raw) = none) :
    solid (addLine lines raw) = addWritten (solid lines) raw ∧
      ((addLine lines raw).getLast? = some [] → stripCr raw = []) := by
  unfold addLine addWritten
  cases hraw : stripCr raw with
  | nil => exact ⟨by simp [solid], fun _ => rfl⟩
  | cons c rest =>
    rw [hraw] at h
    simp only
    by_cases hblank : c = ' ' ∨ c = '\t'
    · by_cases hne : lines = []
      · subst hne
        exact ⟨by simp [solid], by simp⟩
      · obtain ⟨front, last, rfl⟩ : ∃ front last, lines = front ++ [last] := by
          rcases eq_nil_or_concat lines with h | ⟨front, last, h⟩
          · exact absurd h hne
          · exact ⟨front, last, by rw [h, concat_eq_append]⟩
        -- the line that is continued is not blank
        have hlast : last ≠ [] := by
          rintro rfl
          have hno := h (by simp)
          exact ContentLines.continuation_eq_none.mp hno hblank
        have hsolid : solid (front ++ [last]) = solid front ++ [last] := by simp [solid, hlast]
        rw [if_pos ⟨hblank, hne⟩, hsolid, if_pos ⟨hblank, by simp⟩]
        simp [solid, hlast]
    · rw [if_neg fun hb => hblank hb.1, if_neg fun hb => hblank hb.1]
      exact ⟨by simp [solid], by simp⟩

/-- **The reader's lines are the writer's, but for blank ones**, where no blank line is continued. -/
theorem unfold_solid {text : Str} (h : NoneOrphaned text) : solid (unfold text) = unfoldWritten text := by
  have hfold : ∀ (raws lines : List Str), (raws.map stripCr).IsChain (fun a b => a = [] → continuation b = none) →
      (∀ first ∈ raws.head?, lines.getLast? = some [] → continuation (stripCr first) = none) →
        solid (raws.foldl addLine lines) = raws.foldl addWritten (solid lines) := by
    intro raws
    induction raws with
    | nil => exact fun _ _ _ => rfl
    | cons raw raws ih =>
      intro lines hchain hfirst
      obtain ⟨hsolid, hlast⟩ := addLine_solid (hfirst raw rfl)
      rw [foldl_cons, foldl_cons, ← hsolid]
      rw [map_cons] at hchain
      refine ih (addLine lines raw) hchain.of_cons fun next hnext hempty => ?_
      obtain ⟨others, rfl⟩ : ∃ others, raws = next :: others := head?_eq_some_iff.mp hnext
      rw [map_cons, isChain_cons_cons] at hchain
      exact hchain.1 (hlast hempty)
  exact hfold _ [] h (by simp)

/-! ## Both together -/

/-- A line that can be written on its own. -/
def Foldable (line : Str) : Prop := line ≠ [] ∧ '\n' ∉ line ∧ continuation line = none

/-- **Folding is undone by unfolding**: by the calendar's and by the address book's; no physical line has more than 75
octets or ends inside a character; and the address book's reader has the lines of its writer. -/
theorem folding {lines : List Str} (h : ∀ line ∈ lines, Foldable line) {text : Str} (htext : NoneOrphaned text) :
    ContentLines.unfold (ContentLines.render lines) = lines ∧ unfoldWritten (join lines) = lines ∧
      ShortLines (Utf8.bytes (ContentLines.render lines)) ∧ ShortLines (Utf8.bytes (join lines)) ∧
      (unfoldOctets (Utf8.bytes text)).filter (fun line => line ≠ []) = (unfoldWritten text).map Utf8.bytes := by
  have hclean : ContentLines.Clean lines :=
    ⟨fun line hline => ⟨(h line hline).1, (h line hline).2.1⟩, fun line hline => (h line (mem_of_mem_tail hline)).2.2⟩
  have hshort : ShortLines (Utf8.bytes (join lines)) := shortLines_join fun line hline => (h line hline).2.1
  have hread : ContentLines.unfold (ContentLines.render lines) = lines := ContentLines.unfold_render hclean
  refine ⟨hread, ?_, ?_, hshort, ?_⟩
  · rw [unfoldWritten_eq, join_eq_render, hread]
  · rwa [← join_eq_render]
  · rw [unfoldOctets_bytes, ← unfold_solid htext, solid, filter_map]
    congr 1
    exact filter_congr fun line _ => decide_eq_decide.mpr (not_congr (bytes_eq_nil line))

/-- A line of letters of two octets that is cut, and a text with blank lines between two cards. -/
theorem folding_long : ContentLines.unfold (ContentLines.render [List.replicate 80 'é']) = [List.replicate 80 'é'] ∧
      unfoldWritten (join [List.replicate 80 'é']) = [List.replicate 80 'é'] ∧
      ShortLines (Utf8.bytes (ContentLines.render [List.replicate 80 'é'])) ∧
      ShortLines (Utf8.bytes (join [List.replicate 80 'é'])) ∧
      (unfoldOctets (Utf8.bytes "FN:a\n\nN:b\n c")).filter (fun line => line ≠ []) =
        (unfoldWritten "FN:a\n\nN:b\n c").map Utf8.bytes :=
  @folding [List.replicate 80 'é'] (fun line hline => by
    rw [mem_singleton.mp hline]
    exact ⟨by decide, by decide +kernel, by decide⟩) _ (by decide +kernel)

end Oreneta.Contacts

import Oreneta.Lib.Holes
import Oreneta.Merge.Template

/-!
# A mailing that is ready

* `Filled` — a text is its template with a value that is not blank for every placeholder, and nothing else changed.
* `Ready` — one message for each row, to an address no other message goes to, subject and body filled.
* `BlankSafe` — what stands between braces with nothing but white space between them is not given a value: the check
  looks for no such placeholder, the substitution finds one where a column has no name.
* `ready_iff` — a preview that says that it is ready is `Ready` exactly if it is `BlankSafe`.
-/

namespace Oreneta.Merge

open Text List

/-! ## What is meant -/

section Meaning

variable (lower : Str → Str)

/-- A placeholder is replaced; braces around nothing but white space are none. -/
def expected (row : Row) (me : Sender) (inside : Str) : Str :=
  if trim inside = [] then asWritten inside else (valueOf lower (trim inside) row me).getD []

structure Filled (template : Str) (row : Row) (me : Sender) (text : Str) : Prop where
  values : ∀ inside ∈ insides template, trim inside ≠ [] →
    ∃ value, valueOf lower (trim inside) row me = some value ∧ trim value ≠ []
  text : text = put (expected lower row me) (pieces template)

structure Ready (rows : List Row) (subject body : Str) (me : Sender) (p : Preview) : Prop where
  once : (p.messages.map (fun m => lower m.toAddr.toList)).Nodup
  addresses : ∀ m ∈ p.messages, looksLikeAddress m.toAddr.toList = true
  filled : List.Forall₂ (fun row m => m.toAddr.toList = row.email ∧ Filled lower subject row me m.subject.toList ∧
    Filled lower body row me m.body.toList) rows p.messages

def BlankSafe (rows : List Row) (subject body : Str) (me : Sender) : Prop :=
  ∀ row ∈ rows, ∀ template ∈ [subject, body], ∀ inside ∈ insides template, trim inside = [] →
    ∀ value, valueOf lower [] row me = some value → value = [] ∨ value = asWritten inside

end Meaning

section

variable {lower : Str → Str} {subject body : Str} {me : Sender} {columns used : List Str}

/-! ## What a preview that is ready has checked -/

theorem messages_checked : ∀ {rows : List Row} {index : Nat} {seen : List Str},
    (∀ m ∈ messagesFrom lower subject body me columns used index seen rows, m.problems = []) →
      (∀ row ∈ rows, looksLikeAddress row.email = true ∧ missing lower columns used me row = []) ∧
        (rows.map (fun row => lower row.email)).Nodup ∧ ∀ row ∈ rows, lower row.email ∉ seen
  | [], _, _, _ => ⟨fun _ h => (by cases h), nodup_nil, fun _ h => (by cases h)⟩
  | row :: rows, index, seen, h => by
    rw [messagesFrom] at h
    obtain ⟨hrow, hrest⟩ := forall_mem_cons.mp h
    obtain ⟨hok, hnodup, hunseen⟩ := messages_checked hrest
    obtain ⟨haddr, hmissing⟩ : addressProblems lower seen row = [] ∧ missing lower columns used me row = [] :=
      append_eq_nil_iff.mp hrow
    have hlooks : looksLikeAddress row.email = true ∧ lower row.email ∉ seen := by
      unfold addressProblems at haddr
      split at haddr
      · cases haddr
      · rename_i hl
        split at haddr
        · cases haddr
        · rename_i hs
          exact ⟨by simpa using hl, hs⟩
    have hwith : seenWith lower seen row = lower row.email :: seen := by
      unfold seenWith
      rw [if_pos hlooks.1]
    rw [hwith] at hunseen
    refine ⟨forall_mem_cons.mpr ⟨⟨hlooks.1, hmissing⟩, hok⟩, ?_, ?_⟩
    · rw [map_cons, nodup_cons]
      refine ⟨fun hmem => ?_, hnodup⟩
      obtain ⟨other, hother, he⟩ := mem_map.mp hmem
      exact hunseen other hother (he ▸ mem_cons_self)
    · exact forall_mem_cons.mpr ⟨hlooks.2, fun other hother hmem => hunseen other hother (mem_cons_of_mem _ hmem)⟩

theorem forall₂_messages {P : Row → Rendered → Prop} {Q : Row → Prop}
    (hPQ : ∀ index seen row, P row (rendered lower subject body me columns used seen index row) ↔ Q row) :
    ∀ {rows : List Row} {index : Nat} {seen : List Str},
      List.Forall₂ P rows (messagesFrom lower subject body me columns used index seen rows) ↔ ∀ row ∈ rows, Q row
  | [], _, _ => by simp [messagesFrom]
  | row :: rows, index, seen => by
    rw [messagesFrom, List.forall₂_cons, hPQ, forall₂_messages hPQ, forall_mem_cons]

theorem map_messages {β : Type} {f : Rendered → β} {g : Row → β}
    (hfg : ∀ index seen row, f (rendered lower subject body me columns used seen index row) = g row) :
    ∀ {rows : List Row} {index : Nat} {seen : List Str},
      (messagesFrom lower subject body me columns used index seen rows).map f = rows.map g
  | [], _, _ => rfl
  | row :: rows, index, seen => by
    rw [messagesFrom, map_cons, hfg, map_messages hfg, map_cons]

/-- Every placeholder of a mailing without problems has a value for every row. -/
theorem values_checked {rows : List Row} {row : Row} (hbatch : batchProblems lower rows subject used = [])
    (hmissing : missing lower (columnsOf rows) used me row = []) {name : Str} (hname : name ∈ used) :
    ∃ value, valueOf lower name row me = some value ∧ trim value ≠ [] := by
  unfold batchProblems at hbatch
  have hunknown := (append_eq_nil_iff.mp hbatch).2
  rw [map_eq_nil_iff, filter_eq_nil_iff] at hunknown
  have hknown : known lower (columnsOf rows) name = true := by simpa using hunknown name hname
  unfold missing at hmissing
  rw [map_eq_nil_iff, filter_eq_nil_iff] at hmissing
  have hvalue := hmissing name hname
  rw [hknown, Bool.true_and] at hvalue
  cases hv : valueOf lower name row me with
  | none =>
    rw [hv] at hvalue
    exact absurd rfl hvalue
  | some value =>
    rw [hv] at hvalue
    exact ⟨value, rfl, by simpa using hvalue⟩

theorem mem_usedIn {name : Str} : name ∈ usedIn subject body ↔ name ∈ placeholders subject ∨ name ∈ placeholders body := by
  unfold usedIn
  rw [(perm_insertionSort _ _).mem_iff, List.mem_dedup, mem_append]

/-! ## Braces around white space -/

theorem isHole_asWritten {inside : Str} (h : trim inside = []) : Holes.IsHole '{' '}' (asWritten inside) := by
  refine ⟨inside, rfl, fun hmem => ?_, fun hmem => ?_⟩
  · exact trim_ne_nil hmem (by decide) h
  · exact trim_ne_nil hmem (by decide) h

/-- The pieces of a text whose braces around white space are the holes. -/
def blanks (value : Str → Str) (ps : List Piece) : List (Str ⊕ Str) :=
  ps.map (fun p => match p with
    | .outside text => .inl text
    | .span inside => if trim inside = [] then .inr (asWritten inside) else .inl (value inside))

theorem put_eq_fillHoles {value f : Str → Str} {g : Str → Str} {ps : List Piece}
    (hv : ∀ inside, .span inside ∈ ps → trim inside ≠ [] → f inside = value inside)
    (hg : ∀ inside, .span inside ∈ ps → trim inside = [] → f inside = g (asWritten inside)) :
    put f ps = Holes.fillHoles g (blanks value ps) := by
  unfold put Holes.fillHoles blanks
  rw [flatMap_map]
  apply flatMap_congr
  intro p hp
  cases p with
  | outside text => rfl
  | span inside =>
    dsimp only
    split
    · rename_i hb
      exact hg inside hp hb
    · rename_i hb
      exact hv inside hp hb

theorem mem_insides {text inside : Str} : inside ∈ insides text ↔ .span inside ∈ pieces text := by
  unfold insides
  rw [mem_filterMap]
  constructor
  · rintro ⟨p, hp, he⟩
    cases p with
    | outside text => cases he
    | span other =>
      cases he
      exact hp
  · intro h
    exact ⟨.span inside, h, rfl⟩

/-- What is filled in is what is meant if no braces around white space get a value. -/
theorem fill_eq_expected {template : Str} {row : Row} (hvalues : ∀ inside ∈ insides template, trim inside ≠ [] →
    ∃ value, valueOf lower (trim inside) row me = some value ∧ trim value ≠ []) :
    fill lower template row me = put (expected lower row me) (pieces template) ↔
      ∀ inside ∈ insides template, trim inside = [] → ∀ value, valueOf lower [] row me = some value →
        value = [] ∨ value = asWritten inside := by
  have hnamed : ∀ inside, .span inside ∈ pieces template → trim inside ≠ [] →
      filled lower row me inside = expected lower row me inside := by
    intro inside hp hne
    obtain ⟨value, hv, hne'⟩ := hvalues inside (mem_insides.mpr hp) hne
    have hempty : value.isEmpty = false := by
      cases value with
      | nil => exact absurd rfl hne'
      | cons c rest => rfl
    unfold filled expected
    rw [if_neg hne, hv]
    simp [hempty]
  rw [fill_eq, put_eq_fillHoles (f := expected lower row me) (g := id) (fun _ _ _ => rfl)
    (fun inside _ hb => by unfold expected; rw [if_pos hb]; rfl)]
  cases hv : valueOf lower [] row me with
  | none =>
    rw [put_eq_fillHoles (g := id) hnamed fun inside _ hb => by unfold filled; rw [hb, hv]; rfl]
    simp
  | some value =>
    by_cases hempty : value = []
    · subst hempty
      rw [put_eq_fillHoles (g := id) hnamed fun inside _ hb => by unfold filled; rw [hb, hv]; rfl]
      simp
    · have hne : value.isEmpty = false := by simpa using hempty
      rw [put_eq_fillHoles (g := fun _ => value) hnamed fun inside _ hb => by unfold filled; rw [hb, hv]; simp [hne]]
      constructor
      · intro heq inside hin hb other hother
        cases hother
        right
        have hbraces : ('{' : Char) ≠ '}' := by decide
        refine Holes.holes_eq hbraces ?_ heq (mem_map.mpr ⟨.span inside, mem_insides.mp hin, ?_⟩)
        · intro s hs
          obtain ⟨p, -, he⟩ := mem_map.mp hs
          cases p with
          | outside text => cases he
          | span other =>
            dsimp only at he
            split at he
            · rename_i hother
              rw [← Sum.inr.inj he]
              exact isHole_asWritten hother
            · cases he
        · exact if_pos hb
      · intro hsafe
        unfold Holes.fillHoles
        apply flatMap_congr
        intro x hx
        cases x with
        | inl text => rfl
        | inr s =>
          obtain ⟨p, hp, he⟩ := mem_map.mp hx
          cases p with
          | outside text => cases he
          | span inside =>
            dsimp only at he
            split at he
            · rename_i hb
              rw [← Sum.inr.inj he]
              exact (hsafe inside (mem_insides.mpr hp) hb value rfl).resolve_left hempty
            · cases he

/-! ## The whole mailing -/

/-- **A mailing that is ready.**  Its messages go to different addresses, each of which looks like one; each is
the template with a value that is not blank for every placeholder, and nothing else in it is changed, exactly if no
braces around white space get a value. -/
theorem ready_iff {recipients : Str} (h : (preview lower recipients subject body me).ready = true) :
    Ready lower (parseRecipients lower recipients) subject body me (preview lower recipients subject body me) ↔
      BlankSafe lower (parseRecipients lower recipients) subject body me := by
  generalize hrows : parseRecipients lower recipients = rows at h ⊢
  unfold preview at h ⊢
  rw [hrows] at h ⊢
  dsimp only at h ⊢
  rw [Bool.and_eq_true, List.isEmpty_iff, all_eq_true] at h
  obtain ⟨hbatch, hall⟩ := h
  obtain ⟨hok, hnodup, -⟩ := messages_checked fun m hm => List.isEmpty_iff.mp (hall m hm)
  have hvalues : ∀ row ∈ rows, ∀ template ∈ [subject, body], ∀ inside ∈ insides template, trim inside ≠ [] →
      ∃ value, valueOf lower (trim inside) row me = some value ∧ trim value ≠ [] := by
    intro row hrow template ht inside hin hne
    apply values_checked hbatch (hok row hrow).2
    rw [mem_usedIn, placeholders_eq, placeholders_eq]
    rcases mem_cons.mp ht with rfl | ht
    · exact .inl ⟨hne, inside, hin, rfl⟩
    · rw [mem_singleton] at ht
      subst ht
      exact .inr ⟨hne, inside, hin, rfl⟩
  have hfilled : ∀ row ∈ rows, ∀ template ∈ [subject, body],
      (Filled lower template row me (fill lower template row me) ↔ ∀ inside ∈ insides template, trim inside = [] →
        ∀ value, valueOf lower [] row me = some value → value = [] ∨ value = asWritten inside) := by
    intro row hrow template ht
    rw [← fill_eq_expected (hvalues row hrow template ht)]
    exact ⟨Filled.text, fun htext => ⟨hvalues row hrow template ht, htext⟩⟩
  constructor
  · intro hready row hrow template ht
    have hforall := hready.filled
    rw [forall₂_messages (Q := fun row => Filled lower subject row me (fill lower subject row me) ∧
      Filled lower body row me (fill lower body row me)) fun _ _ _ => by simp [rendered]] at hforall
    obtain ⟨hs, hb⟩ := hforall row hrow
    apply (hfilled row hrow template ht).mp
    rcases mem_cons.mp ht with rfl | ht
    · exact hs
    · rw [mem_singleton.mp ht]
      exact hb
  · intro hsafe
    refine ⟨?_, ?_, ?_⟩
    · rw [map_messages (g := fun row => lower row.email) fun _ _ _ => by simp [rendered]]
      exact hnodup
    · intro m hm
      have hmem : m.toAddr.toList ∈ rows.map Row.email := by
        rw [← map_messages (f := fun m => m.toAddr.toList) fun _ _ _ => by simp [rendered]]
        exact mem_map.mpr ⟨m, hm, rfl⟩
      obtain ⟨row, hrow, he⟩ := mem_map.mp hmem
      rw [← he]
      exact (hok row hrow).1
    · rw [forall₂_messages (Q := fun row => Filled lower subject row me (fill lower subject row me) ∧
        Filled lower body row me (fill lower body row me)) fun _ _ _ => by simp [rendered]]
      intro row hrow
      exact ⟨(hfilled row hrow subject mem_cons_self).mpr (hsafe row hrow subject mem_cons_self),
        (hfilled row hrow body (by simp)).mpr (hsafe row hrow body (by simp))⟩

/-- Two rows with a column of their own. -/
theorem ready_iff_companies : Ready id (parseRecipients id "email,company\na@b.co,A\nd@e.fo,D")
    "For \x7b\x7bcompany\x7d\x7d" [] ⟨[], []⟩
    (preview id "email,company\na@b.co,A\nd@e.fo,D" "For \x7b\x7bcompany\x7d\x7d" [] ⟨[], []⟩) := by
  refine (ready_iff (by decide +kernel)).mpr fun row hrow template ht inside hin hb => ?_
  exfalso
  have hnone : ∀ t ∈ ["For \x7b\x7bcompany\x7d\x7d".toList, []], ∀ i ∈ insides t, trim i ≠ [] := by decide +kernel
  exact hnone template ht inside hin hb

/-- A column without a name: braces around nothing, which the check passes over, are replaced by its cell. -/
theorem unnamed_column_filled : (preview id "email,\na@b.co,hello" "Hi" "\x7b\x7b\x7d\x7d" ⟨[], []⟩).ready = true ∧
      ¬ Ready id (parseRecipients id "email,\na@b.co,hello") "Hi" "\x7b\x7b\x7d\x7d" ⟨[], []⟩
        (preview id "email,\na@b.co,hello" "Hi" "\x7b\x7b\x7d\x7d" ⟨[], []⟩) := by
  refine ⟨by decide +kernel, fun h => ?_⟩
  have hrows : parseRecipients id "email,\na@b.co,hello" =
      [⟨2, "a@b.co", [], [("email", "a@b.co"), ([], "hello")]⟩] := by decide +kernel
  have hfilled := h.filled
  unfold preview at hfilled
  rw [hrows] at hfilled
  cases hfilled with
  | cons hrow _ =>
    have htext := hrow.2.2.text
    revert htext
    decide +kernel

end

end Oreneta.Merge

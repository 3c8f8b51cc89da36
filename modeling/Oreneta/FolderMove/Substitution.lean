import Oreneta.FolderMove.Plan

/-!
# A planned folder move is a prefix substitution

* `substName` — what a move makes of a name: the source and everything under it gets the target in the
  source's place, every other name stays;
* `Planned` — what a plan that was not refused guarantees (`plan_spec`);
* `Planned.clear` — the source is renamed first and its subfolders from the shortest on, so that no
  rename starts from a name given before.
-/

namespace Oreneta.FolderMove

open Renames List

/-! ## The substitution -/

/-- The source of a move, or a name under it. -/
def Under (plan : FolderMovePlan) (x : Str) : Prop :=
  x = plan.source ∨ plan.source ++ plan.delimiter <+: x

instance (plan : FolderMovePlan) (x : Str) : Decidable (Under plan x) := by
  unfold Under
  infer_instance

/-- What a move makes of a name. -/
def substName (plan : FolderMovePlan) (x : Str) : Str :=
  if Under plan x then plan.target ++ x.drop plan.source.length else x

/-- What a move makes of an account's folder. -/
def substFolder (plan : FolderMovePlan) (account : Str) (x : Str × Str) : Str × Str :=
  (x.1, if x.1 = account then substName plan x.2 else x.2)

theorem Under.source_prefix {plan : FolderMovePlan} {x : Str} (h : Under plan x) : plan.source <+: x := by
  rcases h with rfl | h
  · exact prefix_rfl
  · exact (prefix_append _ _).trans h

theorem substName_inj {plan : FolderMovePlan} {x y : Str} (hx : Under plan x) (hy : Under plan y)
    (h : substName plan x = substName plan y) : x = y := by
  unfold substName at h
  rw [if_pos hx, if_pos hy] at h
  obtain ⟨a, rfl⟩ := hx.source_prefix
  obtain ⟨b, rfl⟩ := hy.source_prefix
  simpa using h

theorem utf8Len_append (a b : Str) : utf8Len (a ++ b) = utf8Len a + utf8Len b := by
  simp [utf8Len]

theorem utf8Len_pos {a : Str} (h : a ≠ []) : 0 < utf8Len a := by
  cases a with
  | nil => exact absurd rfl h
  | cons c a =>
    have := Char.utf8Size_pos c
    show 0 < ((c :: a).map Char.utf8Size).sum
    rw [map_cons, sum_cons]
    omega

theorem utf8Len_mono {a b : Str} (h : a <+: b) : utf8Len a ≤ utf8Len b := by
  obtain ⟨z, rfl⟩ := h
  rw [utf8Len_append]
  omega

theorem utf8Len_lt_of_proper {a b : Str} (h : a <+: b) (hne : a ≠ b) : utf8Len a < utf8Len b := by
  obtain ⟨z, rfl⟩ := h
  have hz : z ≠ [] := by
    rintro rfl
    exact hne (append_nil a).symm
  have := utf8Len_pos hz
  rw [utf8Len_append]
  omega

/-! ## What a plan guarantees -/

theorem afterLast_notMem {c : Char} (s : Str) : (∀ t, afterLast [c] s = some t → c ∉ t) ∧ (afterLast [c] s = none → c ∉ s) := by
  induction s with
  | nil => simp [afterLast]
  | cons x s ih =>
    unfold afterLast
    cases h : afterLast [c] s with
    | some t =>
      refine ⟨fun u hu => ?_, fun hn => by cases hn⟩
      cases hu
      exact ih.1 t h
    | none =>
      have hs := ih.2 h
      by_cases hx : c = x
      · constructor
        · intro u hu
          simp [List.isPrefixOf, hx] at hu
          exact hu ▸ hs
        · intro hn
          simp [List.isPrefixOf, hx] at hn
      · constructor
        · intro u hu
          simp [List.isPrefixOf, hx] at hu
        · intro _ hm
          rcases mem_cons.mp hm with hm | hm
          · exact hx hm
          · exact hs hm

/-- A folder's own part of its name holds no delimiter. -/
theorem leafOf_notMem {c : Char} {s : Str} : c ∉ leafOf [c] s := by
  unfold leafOf
  cases h : afterLast [c] s with
  | none => exact (afterLast_notMem s).2 h
  | some t => exact (afterLast_notMem s).1 t h

/-- What a plan that was not refused guarantees. -/
structure Planned (s : Store) (account : Str) (plan : FolderMovePlan) : Prop where
  renames : plan.renames = (plan.source, plan.target) ::
    (subtree s account plan.source plan.delimiter).map
      (fun child => (child, plan.target ++ child.drop plan.source.length))
  cached : folderExists s account plan.source = true
  moved : plan.target ≠ plan.source
  free : folderExists s account plan.target = false
  outside : plan.delimiter.length = 1 → ¬ plan.source ++ plan.delimiter <+: plan.target

/-- The target is never under the source. -/
theorem target_outside {source leaf : Str} {c : Char} {parent : Option Str} (hleaf : c ∉ leaf)
    (hparent : ∀ p ∈ parent, p ≠ source ∧ ¬ source ++ [c] <+: p) : ¬ source ++ [c] <+: targetName parent [c] leaf := by
  unfold targetName
  cases parent with
  | none =>
    intro h
    exact hleaf (h.subset (by simp))
  | some p =>
    obtain ⟨hne, hno⟩ := hparent p rfl
    intro h
    have hp : p ++ [c] <+: p ++ [c] ++ leaf := prefix_append _ _
    rcases prefix_or_prefix_of_prefix h hp with hshort | ⟨z, hz⟩
    · rcases prefix_concat_iff.mp hshort with heq | hpre
      · exact hne (append_cancel_right heq).symm
      · exact hno hpre
    · -- the delimiter after the source would stand in the leaf
      rw [← hz, prefix_append_right_inj] at h
      cases hzl : z.getLast? with
      | none =>
        rw [getLast?_eq_none_iff] at hzl
        rw [hzl, append_nil] at hz
        exact hne (append_cancel_right hz)
      | some x =>
        have hx : x ∈ leaf := h.subset (mem_of_getLast? hzl)
        have hlast : (p ++ [c] ++ z).getLast? = some c := by
          rw [hz]
          simp
        rw [getLast?_append, hzl] at hlast
        cases hlast
        exact hleaf hx

theorem plan_spec {s : Store} {account source : Str} {parent fallback : Option Str}
    {plan : FolderMovePlan} (h : planFolderMove s account source parent fallback = .ok plan) : Planned s account plan := by
  unfold planFolderMove at h
  dsimp only at h
  split at h
  · cases h
  split at h
  · cases h
  rename_i hexists
  split at h
  · cases h
  split at h
  · cases h
  rename_i delimiter hdelimiter
  split at h
  · cases h
  split at h
  · cases h
  rename_i hbad
  split at h
  · cases h
  rename_i hne
  split at h
  · cases h
  rename_i hfree
  cases h
  refine ⟨rfl, by simpa using hexists, hne, by simpa using hfree, ?_⟩
  intro hone
  dsimp only at hone ⊢
  obtain ⟨c, rfl⟩ := length_eq_one_iff.mp hone
  apply target_outside leafOf_notMem
  intro p hp
  rw [Option.mem_def.mp hp, Option.bind_some] at hbad
  split at hbad
  · cases hbad
  split at hbad
  · cases hbad
  rename_i hclear
  rw [not_or] at hclear
  refine ⟨hclear.1, fun hpre => hclear.2 ?_⟩
  exact List.isPrefixOf_iff_prefix.mpr hpre

/-! ## No rename starts from a name given before -/

theorem folderExists_iff {s : Store} {account name : Str} :
    folderExists s account name = true ↔ ∃ r ∈ s.folders.rows, r.account = account ∧ r.name = name := by
  simp [folderExists]

theorem mem_subtree {s : Store} {account name delimiter child : Str} : child ∈ subtree s account name delimiter ↔
      folderExists s account child = true ∧ name ++ delimiter <+: child := by
  unfold subtree
  rw [mem_insertionSort, mem_filter, mem_insertionSort, List.isPrefixOf_iff_prefix, folderExists_iff]
  simp [and_assoc]

theorem subtree_sorted {s : Store} {account name delimiter : Str} :
    (subtree s account name delimiter).Pairwise (fun a b => utf8Len a ≤ utf8Len b) := by
  have : Std.Total (fun a b : Str => utf8Len a ≤ utf8Len b) := ⟨fun a b => Nat.le_total _ _⟩
  have : IsTrans Str (fun a b => utf8Len a ≤ utf8Len b) := ⟨fun _ _ _ => Nat.le_trans⟩
  exact pairwise_insertionSort _ _

theorem utf8Len_substName {plan : FolderMovePlan} {x : Str} (hx : Under plan x) :
    utf8Len (substName plan x) + utf8Len plan.source = utf8Len plan.target + utf8Len x := by
  unfold substName
  rw [if_pos hx]
  obtain ⟨a, ha⟩ := hx.source_prefix
  rw [← ha, drop_left, utf8Len_append, utf8Len_append]
  omega

section Plan

variable {s : Store} {account : Str} {plan : FolderMovePlan}

/-- Where a new name stands under the source, it is shorter than the old one. -/
theorem Planned.shrinks (hp : Planned s account plan) (hone : plan.delimiter.length = 1) {x : Str}
    (hx : Under plan x) (hsub : plan.source ++ plan.delimiter <+: substName plan x) : utf8Len (substName plan x) < utf8Len x := by
  have hout := hp.outside hone
  have hlen := utf8Len_substName hx
  have htarget : plan.target <+: substName plan x := by
    unfold substName
    rw [if_pos hx]
    exact prefix_append _ _
  obtain ⟨c, hc⟩ := length_eq_one_iff.mp hone
  rcases prefix_or_prefix_of_prefix hsub htarget with h | h
  · exact absurd h hout
  · rw [hc] at h hout
    rcases prefix_concat_iff.mp h with h | h
    · exact absurd (h ▸ prefix_rfl) hout
    · have := utf8Len_lt_of_proper h hp.moved
      omega

theorem Planned.mem_renames (hp : Planned s account plan) {x : Str} :
    (∃ p ∈ plan.renames, x = p.1) ↔ folderExists s account x = true ∧ Under plan x := by
  rw [hp.renames]
  simp only [mem_cons, mem_map, exists_eq_or_imp, exists_exists_and_eq_and, mem_subtree]
  constructor
  · rintro (rfl | ⟨child, ⟨hcached, hpre⟩, rfl⟩)
    · exact ⟨hp.cached, .inl rfl⟩
    · exact ⟨hcached, .inr hpre⟩
  · rintro ⟨hcached, rfl | hpre⟩
    · exact .inl rfl
    · exact .inr ⟨x, ⟨hcached, hpre⟩, rfl⟩

theorem Planned.renames_eq (hp : Planned s account plan) : ∀ p ∈ plan.renames, p.2 = substName plan p.1 := by
  rw [hp.renames]
  intro p hmem
  rcases mem_cons.mp hmem with rfl | hmem
  · show plan.target = substName plan plan.source
    simp [substName, Under]
  · obtain ⟨child, hchild, rfl⟩ := mem_map.mp hmem
    have hunder : Under plan child := .inr (mem_subtree.mp hchild).2
    show _ = substName plan child
    rw [substName, if_pos hunder]

theorem Planned.under (hp : Planned s account plan) {p : Str × Str} (hmem : p ∈ plan.renames) : Under plan p.1 :=
  (hp.mem_renames.mp ⟨p, hmem, rfl⟩).2

/-- **No rename starts from a name given before.** -/
theorem Planned.clear (hp : Planned s account plan) (hone : plan.delimiter.length = 1) : Clear plan.renames := by
  have hsorted : plan.renames.Pairwise (fun p q =>
      utf8Len p.1 ≤ utf8Len q.1 ∧ plan.source ++ plan.delimiter <+: q.1) := by
    rw [hp.renames, pairwise_cons, pairwise_map]
    constructor
    · intro q hq
      obtain ⟨child, hchild, rfl⟩ := mem_map.mp hq
      have hpre := (mem_subtree.mp hchild).2
      exact ⟨utf8Len_mono ((prefix_append _ _).trans hpre), hpre⟩
    · refine subtree_sorted.imp_of_mem ?_
      intro a b _ hb hab
      exact ⟨hab, (mem_subtree.mp hb).2⟩
  refine hsorted.imp_of_mem ?_
  rintro p q hmem _ ⟨hle, hpre⟩ heq
  rw [hp.renames_eq p hmem] at heq
  have := hp.shrinks hone (hp.under hmem) (heq ▸ hpre)
  rw [heq] at this
  omega

end Plan

end Oreneta.FolderMove

import Oreneta.Lib.UnionFind
import Oreneta.Store.PersonLinks

/-!
# People who may be one (`store::person_links::suggestions`)

Pairs of people who share an address and are neither linked nor dismissed, put into groups by chains of such pairs.

* `pairs`, `suggestions` — as the source has them, the rows in whatever order the database answers.
* `mem_suggestions` — a group holds those whom a chain of candidates joins.
* `suggestions_iff` — the reader's decisions are respected exactly if no such chain leads from somebody to somebody they
  were linked to or dismissed with.
-/

namespace Oreneta.PersonLinks

open Text List

/-- `EXISTS (SELECT … FROM person_links la JOIN person_links lb ON la.link_id = lb.link_id …)`. -/
def isLinked (s : Store) (a b : Str) : Bool :=
  s.links.any fun la => s.links.any fun lb => la.linkId = lb.linkId && (la.personId = a && lb.personId = b)

/-- The rows asked for: pairs that share an address and are neither dismissed nor linked. -/
def pairs (s : Store) : List (Str × Str) :=
  (s.emails.flatMap fun a => (s.emails.filter fun b =>
    asciiLower a.addr = asciiLower b.addr && a.personId < b.personId &&
      !s.dismissals.contains (a.personId, b.personId) && !isLinked s a.personId b.personId).map
        fun b => (a.personId, b.personId)).dedup

/-- Groups of people who share an address and are not linked or dismissed; `answer` puts the rows in the order in which
they come. -/
def suggestions (answer : List (Str × Str) → List (Str × Str)) (s : Store) : List (List Str) :=
  (UnionFind.groupsOf (answer (pairs s))).insertionSort (· ≤ ·)

/-! ## Who is a candidate -/

/-- They share an address, but for ASCII case. -/
def Share (s : Store) (a b : Str) : Prop :=
  ∃ e ∈ s.emails, ∃ f ∈ s.emails, e.personId = a ∧ f.personId = b ∧ asciiLower e.addr = asciiLower f.addr

/-- They are under one link. -/
def LinkedTo (s : Store) (a b : Str) : Prop :=
  ∃ la ∈ s.links, ∃ lb ∈ s.links, la.personId = a ∧ lb.personId = b ∧ la.linkId = lb.linkId

/-- The reader said they are not the same. -/
def DismissedIn (acts : List Act) (a b : Str) : Prop := ∃ ids, Act.dismiss ids ∈ acts ∧ a ∈ ids ∧ b ∈ ids

structure Candidates (acts : List Act) (s : Store) (a b : Str) : Prop where
  ne : a ≠ b
  share : Share s a b
  not_linked : ¬ LinkedTo s a b
  not_dismissed : ¬ DismissedIn acts a b

variable {s s₀ : Store} {acts : List Act} {a b : Str} {ids : List Str}

theorem isLinked_iff : isLinked s a b = true ↔ LinkedTo s a b := by
  unfold isLinked LinkedTo
  simp only [any_eq_true, Bool.and_eq_true, decide_eq_true_eq]
  refine exists_congr fun la => and_congr_right fun _ => exists_congr fun lb => and_congr_right fun _ => ?_
  constructor
  · rintro ⟨hl, ha, hb⟩
    exact ⟨ha, hb, hl⟩
  · rintro ⟨ha, hb, hl⟩
    exact ⟨hl, ha, hb⟩

theorem LinkedTo.symm (h : LinkedTo s a b) : LinkedTo s b a := by
  obtain ⟨la, ha, lb, hb, rfl, rfl, hl⟩ := h
  exact ⟨lb, hb, la, ha, rfl, rfl, hl.symm⟩

theorem Candidates.symm (h : Candidates acts s a b) : Candidates acts s b a := by
  obtain ⟨e, he, f, hf, hea, hfb, haddr⟩ := h.share
  refine ⟨h.ne.symm, ⟨f, hf, e, he, hfb, hea, haddr.symm⟩, fun hl => h.not_linked hl.symm, ?_⟩
  rintro ⟨ids, hids, hb, ha⟩
  exact h.not_dismissed ⟨ids, hids, ha, hb⟩

/-! ## What is dismissed -/

variable {x : Str × Str}

theorem mem_insertDismissal {d : List (Str × Str)} {pair : Str × Str} : x ∈ insertDismissal d pair ↔ x ∈ d ∨ x = pair := by
  unfold insertDismissal
  split
  · rename_i hmem
    exact (or_iff_left_of_imp fun he => he ▸ hmem).symm
  · rw [mem_append, mem_singleton]

theorem mem_dismiss : x ∈ (dismiss s ids).dismissals ↔ x ∈ s.dismissals ∨ (x.1 < x.2 ∧ x.1 ∈ ids ∧ x.2 ∈ ids) := by
  have hinner : ∀ (a : Str) (rest : List Str) (d : List (Str × Str)),
      x ∈ rest.foldl (fun d b => if a < b then insertDismissal d (a, b) else d) d ↔
        x ∈ d ∨ ∃ b ∈ rest, a < b ∧ x = (a, b) := by
    intro a rest
    induction rest with
    | nil => simp
    | cons b rest ih =>
      intro d
      rw [foldl_cons, ih]
      by_cases hab : a < b
      · rw [if_pos hab, mem_insertDismissal]
        simp [hab, or_assoc]
      · rw [if_neg hab]
        simp [hab]
  have houter : ∀ (rest : List Str) (d : List (Str × Str)),
      x ∈ rest.foldl (fun d a => ids.foldl (fun d b => if a < b then insertDismissal d (a, b) else d) d) d ↔
        x ∈ d ∨ ∃ a ∈ rest, ∃ b ∈ ids, a < b ∧ x = (a, b) := by
    intro rest
    induction rest with
    | nil => simp
    | cons a rest ih =>
      intro d
      rw [foldl_cons, ih, hinner]
      simp [or_assoc]
  unfold dismiss
  dsimp only
  rw [houter]
  refine or_congr_right ?_
  constructor
  · rintro ⟨a, ha, b, hb, hlt, rfl⟩
    exact ⟨hlt, ha, hb⟩
  · rintro ⟨hlt, ha, hb⟩
    exact ⟨x.1, ha, x.2, hb, hlt, rfl⟩

theorem dismissals_step (s : Store) (act : Act) : x ∈ (step s act).dismissals ↔
    x ∈ s.dismissals ∨ (x.1 < x.2 ∧ DismissedIn [act] x.1 x.2) := by
  have hkeep : ∀ {s' : Store}, s'.dismissals = s.dismissals → (∀ ids, act ≠ .dismiss ids) →
      (x ∈ s'.dismissals ↔ x ∈ s.dismissals ∨ (x.1 < x.2 ∧ DismissedIn [act] x.1 x.2)) := by
    intro s' hs hne
    rw [hs]
    refine (or_iff_left ?_).symm
    rintro ⟨-, ids, hids, -⟩
    exact hne ids (mem_singleton.mp hids).symm
  have hunlink : ∀ id, (unlink s id).dismissals = s.dismissals := by
    intro id
    unfold unlink
    dsimp only
    split
    · split
      · rfl
      · rfl
    · rfl
  cases act with
  | link ids uuid =>
    refine hkeep ?_ fun ids h => by cases h
    unfold step
    dsimp only
    cases h : link s ids uuid with
    | error e => rfl
    | ok result =>
      unfold link at h
      dsimp only at h
      split at h
      · cases h
      · split at h
        · cases h
        · cases h
          rfl
  | unlink id => exact hkeep (hunlink id) fun ids h => by cases h
  | forgetPerson id => exact hkeep (hunlink id) fun ids h => by cases h
  | dismiss ids =>
    rw [step, mem_dismiss]
    refine or_congr_right (and_congr_right fun _ => ?_)
    constructor
    · rintro ⟨ha, hb⟩
      exact ⟨ids, mem_singleton_self _, ha, hb⟩
    · rintro ⟨ids', hids', ha, hb⟩
      cases mem_singleton.mp hids'
      exact ⟨ha, hb⟩
  | books people emails => exact hkeep rfl fun ids h => by cases h

theorem dismissals_run : ∀ (acts : List Act) (s : Store) {x : Str × Str}, x ∈ (run s acts).dismissals ↔
    x ∈ s.dismissals ∨ (x.1 < x.2 ∧ DismissedIn acts x.1 x.2)
  | [], s, x => by simp [run, DismissedIn]
  | act :: acts, s, x => by
    have hcons : DismissedIn (act :: acts) x.1 x.2 ↔ DismissedIn [act] x.1 x.2 ∨ DismissedIn acts x.1 x.2 := by
      unfold DismissedIn
      rw [← exists_or]
      refine exists_congr fun ids => ?_
      rw [mem_cons, mem_singleton, ← or_and_right]
    rw [hcons, run, foldl_cons, ← run, dismissals_run acts, dismissals_step, or_assoc, and_or_left]

/-! ## The groups -/

variable {answer : List (Str × Str) → List (Str × Str)}

theorem mem_pairs : x ∈ pairs s ↔ x.1 < x.2 ∧ Share s x.1 x.2 ∧ x ∉ s.dismissals ∧ ¬ LinkedTo s x.1 x.2 := by
  unfold pairs
  rw [List.mem_dedup, mem_flatMap]
  constructor
  · rintro ⟨e, he, hx⟩
    obtain ⟨f, hf, rfl⟩ := mem_map.mp hx
    simp only [mem_filter, Bool.and_eq_true, decide_eq_true_eq, Bool.not_eq_true', contains_eq_mem,
      decide_eq_false_iff_not] at hf
    obtain ⟨hf, ⟨⟨haddr, hlt⟩, hdis⟩, hlink⟩ := hf
    refine ⟨hlt, ⟨e, he, f, hf, rfl, rfl, haddr⟩, hdis, fun hl => ?_⟩
    rw [isLinked_iff.mpr hl] at hlink
    cases hlink
  · rintro ⟨hlt, ⟨e, he, f, hf, hea, hfb, haddr⟩, hdis, hlink⟩
    refine ⟨e, he, mem_map.mpr ⟨f, mem_filter.mpr ⟨hf, ?_⟩, by rw [hea, hfb]⟩⟩
    have hno : isLinked s x.1 x.2 = false := Bool.eq_false_iff.mpr fun h => hlink (isLinked_iff.mp h)
    rw [hea, hfb, hno, decide_eq_true haddr, decide_eq_true hlt]
    simp [hdis]

/-- **The rows asked for are the candidates**, each pair once. -/
theorem candidates_iff (h₀ : s₀.dismissals = []) (hne : a ≠ b) :
    Candidates acts (run s₀ acts) a b ↔ (a, b) ∈ pairs (run s₀ acts) ∨ (b, a) ∈ pairs (run s₀ acts) := by
  have hdis : ∀ x : Str × Str, x.1 < x.2 → (x ∈ (run s₀ acts).dismissals ↔ DismissedIn acts x.1 x.2) := by
    intro x hlt
    rw [dismissals_run, h₀]
    simp [hlt]
  have hpair : ∀ {a b : Str}, a < b → ((a, b) ∈ pairs (run s₀ acts) ↔ Candidates acts (run s₀ acts) a b) := by
    intro a b hlt
    rw [mem_pairs, hdis (a, b) hlt]
    constructor
    · rintro ⟨-, hshare, hdis, hlink⟩
      exact ⟨ne_of_lt hlt, hshare, hlink, hdis⟩
    · intro h
      exact ⟨hlt, h.share, h.not_dismissed, h.not_linked⟩
  have hnone : ∀ {a b : Str}, a < b → (b, a) ∉ pairs (run s₀ acts) := by
    intro a b hlt h
    exact lt_asymm hlt (mem_pairs.mp h).1
  rcases lt_or_gt_of_ne hne with hlt | hgt
  · rw [hpair hlt, or_iff_left (hnone hlt)]
  · rw [hpair hgt, or_iff_right (hnone hgt)]
    exact ⟨fun h => h.symm, fun h => h.symm⟩

/-- A chain of candidates leads from one to the other. -/
def Chain (acts : List Act) (s : Store) : Str → Str → Prop := Relation.ReflTransGen (Candidates acts s)

theorem chained_iff (h₀ : s₀.dismissals = []) (hanswer : ∀ rows, (answer rows).Perm rows) :
    UnionFind.Chained (answer (pairs (run s₀ acts))) a b ↔ Chain acts (run s₀ acts) a b := by
  have hmem : ∀ x, x ∈ answer (pairs (run s₀ acts)) ↔ x ∈ pairs (run s₀ acts) := fun x => (hanswer _).mem_iff
  have hsymm : ∀ {a b}, Chain acts (run s₀ acts) a b → Chain acts (run s₀ acts) b a := by
    intro a b h
    induction h with
    | refl => exact .refl
    | tail _ hc ih => exact .head hc.symm ih
  constructor
  · intro h
    induction h with
    | rel a b h =>
      have hpair := (hmem _).mp h
      have hne := ne_of_lt (mem_pairs.mp hpair).1
      exact .single ((candidates_iff h₀ hne).mpr (.inl hpair))
    | refl a => exact .refl
    | symm a b _ ih => exact hsymm ih
    | trans a b c _ _ ih1 ih2 => exact ih1.trans ih2
  · intro h
    induction h with
    | refl => exact .refl _
    | tail _ hc ih =>
      refine .trans _ _ _ ih ?_
      rcases (candidates_iff h₀ hc.ne).mp hc with h | h
      · exact .rel _ _ ((hmem _).mpr h)
      · exact .symm _ _ (.rel _ _ ((hmem _).mpr h))

/-- **Who stands in one group**: those whom a chain of candidates joins. -/
theorem mem_suggestions (h₀ : s₀.dismissals = []) (hanswer : ∀ rows, (answer rows).Perm rows) (hne : a ≠ b) :
    (∃ g ∈ suggestions answer (run s₀ acts), a ∈ g ∧ b ∈ g) ↔ Chain acts (run s₀ acts) a b := by
  rw [← chained_iff h₀ hanswer]
  constructor
  · rintro ⟨g, hg, ha, hb⟩
    exact UnionFind.mem_groupsOf ((mem_insertionSort _).mp hg) ha hb
  · intro hchained
    have hchain := (chained_iff h₀ hanswer).mp hchained
    -- both have a candidate
    have hin : ∀ {a b}, Candidates acts (run s₀ acts) a b →
        (∃ pair ∈ answer (pairs (run s₀ acts)), a = pair.1 ∨ a = pair.2) ∧
          ∃ pair ∈ answer (pairs (run s₀ acts)), b = pair.1 ∨ b = pair.2 := by
      intro a b hc
      rcases (candidates_iff h₀ hc.ne).mp hc with h | h
      · have hmem := (hanswer _).mem_iff.mpr h
        exact ⟨⟨_, hmem, .inl rfl⟩, ⟨_, hmem, .inr rfl⟩⟩
      · have hmem := (hanswer _).mem_iff.mpr h
        exact ⟨⟨_, hmem, .inr rfl⟩, ⟨_, hmem, .inl rfl⟩⟩
    obtain ⟨c, hac, -⟩ := (Relation.ReflTransGen.cases_head hchain).resolve_left hne
    obtain ⟨d, -, hdb⟩ := (Relation.ReflTransGen.cases_tail hchain).resolve_left fun h => hne h.symm
    obtain ⟨g, hg, hag, hbg⟩ := UnionFind.exists_group (hin hac).1 (hin hdb).2 hchained
    exact ⟨g, (mem_insertionSort _).mpr hg, hag, hbg⟩

/-- No group holds two people the reader linked or dismissed, and every two people who share an address and are neither
linked nor dismissed are in one. -/
structure Respected (acts : List Act) (s : Store) (groups : List (List Str)) : Prop where
  excluded : ∀ g ∈ groups, ∀ a ∈ g, ∀ b ∈ g, a ≠ b → ¬ DismissedIn acts a b ∧ ¬ LinkedTo s a b
  together : ∀ a b, Candidates acts s a b → ∃ g ∈ groups, a ∈ g ∧ b ∈ g

/-- **The reader's decisions are respected** exactly if no chain of candidates leads from somebody to somebody they are
linked to or were dismissed with. -/
theorem suggestions_iff (h₀ : s₀.dismissals = []) (hanswer : ∀ rows, (answer rows).Perm rows) :
    Respected acts (run s₀ acts) (suggestions answer (run s₀ acts)) ↔
      ∀ a b, a ≠ b → Chain acts (run s₀ acts) a b → ¬ DismissedIn acts a b ∧ ¬ LinkedTo (run s₀ acts) a b := by
  constructor
  · intro h a b hne hchain
    obtain ⟨g, hg, ha, hb⟩ := (mem_suggestions h₀ hanswer hne).mpr hchain
    exact h.excluded g hg a ha b hb hne
  · intro h
    refine ⟨fun g hg a ha b hb hne => ?_, fun a b hc => (mem_suggestions h₀ hanswer hc.ne).mpr (.single hc)⟩
    exact h a b hne ((mem_suggestions h₀ hanswer hne).mp ⟨g, hg, ha, hb⟩)

/-- Three people with one address. -/
def threeAnas : Store :=
  ⟨["a", "b", "c"], [⟨"a", "ana@x.cat"⟩, ⟨"b", "ANA@x.cat"⟩,
    ⟨"c", "ana@x.cat"⟩], [], []⟩

def notTheSame : List Act := [.dismiss ["a", "c"]]

/-- Two people dismissed together are suggested together again through a third. -/
theorem dismissed_again : DismissedIn notTheSame "a" "c" ∧
    suggestions id (run threeAnas notTheSame) = [["a".toList, "b".toList, "c".toList]] ∧
    ¬ Respected notTheSame (run threeAnas notTheSame) (suggestions id (run threeAnas notTheSame)) := by
  have hdismissed : DismissedIn notTheSame "a" "c" := ⟨_, mem_singleton_self _, by decide, by decide⟩
  have hgroups : suggestions id (run threeAnas notTheSame) = [["a".toList, "b".toList, "c".toList]] := by decide
  refine ⟨hdismissed, hgroups, fun h => ?_⟩
  rw [hgroups] at h
  exact (h.excluded _ (mem_singleton_self _) "a" (by decide) "c" (by decide) (by decide)).1 hdismissed

theorem suggestions_ana : Respected notTheSame (run threeAnas notTheSame) (suggestions id (run threeAnas notTheSame)) ↔
    ∀ a b, a ≠ b → Chain notTheSame (run threeAnas notTheSame) a b →
      ¬ DismissedIn notTheSame a b ∧ ¬ LinkedTo (run threeAnas notTheSame) a b :=
  suggestions_iff rfl fun _ => .rfl

end Oreneta.PersonLinks

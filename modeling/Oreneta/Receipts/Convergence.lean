import Mathlib.Data.Int.ConditionallyCompleteOrder
import Mathlib.Data.List.Dedup
import Mathlib.Data.List.MinMax
import Mathlib.Data.Prod.Lex
import Mathlib.Order.ConditionallyCompleteLattice.Basic
import Oreneta.Receipts.Reports
import Oreneta.Lib.Latest
import Oreneta.Lib.Runs

/-!
# Delivery reports converge

Reports about a sent message are recorded before or after the message is there, some linked at once
and some left waiting, and are read at any time in between.  For one message of one account:

* `rank` — a final word outranks a delay, and the later of two of one class the earlier;
  `replaces_iff` says that this is what `upsert` compares, so each row of either table is a register of
  `Lib/Latest`;
* `Converging` — the rows of the two tables together top what was told about the message so far;
  `act_converging` is its step lemma;
* `outcomes_converge` — once the message is known, `outcomes` answers `best` of what was told about
  each recipient, in whatever order it was told.
-/

namespace Oreneta.Receipts

open Runs Latest Table List

/-! ## One row as a register -/

/-- A final word outranks a delay; then the later report. -/
def rank (s : Stored) : Bool ×ₗ Int := toLex (decide (s.outcome ≠ .delayed), s.reportedAt)

theorem rank_le {s t : Stored} : rank s ≤ rank t ↔ s.outcome = .delayed ∧ t.outcome ≠ .delayed ∨
      (s.outcome = .delayed ↔ t.outcome = .delayed) ∧ s.reportedAt ≤ t.reportedAt := by
  unfold rank
  rw [Prod.Lex.toLex_le_toLex]
  by_cases hs : s.outcome = .delayed <;> by_cases ht : t.outcome = .delayed <;> simp [hs, ht]

section Rows

variable {χ : Type} {t : List (Row χ)} {r : Row χ} {k : Str × Str × Kind × Str}

theorem replaces_iff {held : Row χ} : r.replaces held = true ↔ rank held.stored ≤ rank r.stored := by
  unfold Row.replaces
  rw [decide_eq_true_iff, rank_le]

/-- What a table holds under a key. -/
def valueAt (t : List (Row χ)) (k : Str × Str × Kind × Str) : Option Stored :=
  (Table.lookup Row.key t k).map Row.stored

theorem set_key (held r : Row χ) : (held.set r).key = held.key := rfl

theorem set_stored {held r : Row χ} (h : held.key = r.key) : (held.set r).stored = r.stored := by
  simp only [Row.key, Prod.mk.injEq] at h
  simp [Row.set, h.2.2.1, h.2.2.2]

theorem keyed_upsert (hu : Keyed Row.key t) : Keyed Row.key (upsert t r) := by
  unfold upsert
  split
  · exact hu.update fun q => set_key q r
  · rename_i hnone
    apply hu.append (by simp [Keyed])
    intro a ha b hb
    rw [mem_singleton.mp hb]
    have hnone : Table.lookup Row.key t r.key = none := by simpa using hnone
    exact lookup_eq_none.mp hnone a ha

/-- **`upsert` is a register.** -/
theorem valueAt_upsert : valueAt (upsert t r) k = if k = r.key then keep rank (valueAt t k) r.stored else valueAt t k := by
  unfold upsert valueAt
  cases hl : Table.lookup Row.key t r.key with
  | none =>
    simp only [Option.isSome_none, Bool.false_eq_true, if_false]
    rw [Table.lookup_append, Table.lookup_singleton]
    by_cases hk : k = r.key
    · subst hk
      simp [hl, keep]
    · simp [hk]
  | some held =>
    simp only [Option.isSome_some, if_true]
    rw [lookup_update fun q => set_key q r]
    by_cases hk : k = r.key
    · subst hk
      have hkey := (lookup_some hl).2
      rw [if_pos rfl, hl]
      simp only [Option.map_some, hkey, true_and, keep]
      by_cases hr : r.replaces held = true
      · rw [if_pos (by simpa using hr), if_pos (replaces_iff.mp hr), set_stored hkey]
      · rw [if_neg (by simpa using hr), if_neg fun h => hr (replaces_iff.mpr h)]
    · rw [if_neg hk]
      cases hq : Table.lookup Row.key t k with
      | none => rfl
      | some q =>
        have hqk : ¬ q.key = r.key := by
          rw [(lookup_some hq).2]
          exact hk
        simp [hqk]

theorem valueAt_map {χ' : Type} {f : Row χ → Row χ'} (hk : ∀ q ∈ t, (f q).key = q.key)
    (hs : ∀ q, (f q).stored = q.stored) : valueAt (t.map f) k = valueAt t k := by
  unfold valueAt
  induction t with
  | nil => rfl
  | cons q t ih =>
    have hq := hk q mem_cons_self
    have ih := ih fun x hx => hk x (mem_cons_of_mem _ hx)
    unfold Table.lookup at ih ⊢
    by_cases h : q.key = k
    · simp [hq, h, hs]
    · simpa [hq, h] using ih

/-- Rows of different keys put into a table one after another are each put into their own register. -/
theorem valueAt_foldl_upsert : ∀ {rows : List (Row χ)} {t : List (Row χ)}, Keyed Row.key rows →
    valueAt (rows.foldl upsert t) k = merge rank (valueAt t k) (valueAt rows k)
  | [], _, _ => rfl
  | r :: rows, t, hu => by
    simp only [Keyed, map_cons, nodup_cons] at hu
    rw [foldl_cons, valueAt_foldl_upsert hu.2, valueAt_upsert]
    by_cases hk : k = r.key
    · subst hk
      have hnone : Table.lookup Row.key rows r.key = none := by
        rw [lookup_eq_none]
        intro q hq h
        exact hu.1 (h ▸ mem_map_of_mem hq)
      have hhead : valueAt (r :: rows) r.key = some r.stored := by simp [valueAt, Table.lookup]
      rw [if_pos rfl, hhead]
      simp [valueAt, hnone, Latest.merge]
    · have hk' : ¬ r.key = k := fun h => hk h.symm
      have htail : valueAt (r :: rows) k = valueAt rows k := by simp [valueAt, Table.lookup, hk']
      rw [if_neg hk, htail]

theorem keyed_foldl_upsert : ∀ {rows : List (Row χ)} {t : List (Row χ)}, Keyed Row.key t → Keyed Row.key (rows.foldl upsert t)
  | [], _, hu => hu
  | r :: rows, t, hu => by
    rw [foldl_cons]
    exact keyed_foldl_upsert (keyed_upsert hu)

/-- Rows with other keys are not noticed. -/
theorem valueAt_foldl_other : ∀ {rows : List (Row χ)} {t : List (Row χ)}, (∀ r ∈ rows, k ≠ r.key) →
    valueAt (rows.foldl upsert t) k = valueAt t k
  | [], _, _ => rfl
  | r :: rows, t, h => by
    rw [foldl_cons, valueAt_foldl_other (fun q hq => h q (mem_cons_of_mem _ hq)), valueAt_upsert, if_neg (h r mem_cons_self)]

theorem valueAt_filter {p : Row χ → Bool} (hu : Keyed Row.key t)
    (h : ∀ r ∈ t, r.key = k → p r = true) : valueAt (t.filter p) k = valueAt t k := by
  unfold valueAt
  rw [lookup_filter hu]
  cases hl : Table.lookup Row.key t k with
  | none => rfl
  | some r =>
    obtain ⟨hr, hk⟩ := lookup_some hl
    simp [Option.filter, h r hr hk]

end Rows

/-! ## Rows that wait -/

/-- Nothing of the account is too old or too much. -/
def PendingFits (pending : List (Row Int)) (account : Str) (now : Int) : Prop :=
  (∀ r ∈ pending, r.account = account → now - PENDING_MAX_AGE ≤ r.receivedAt) ∧
    (pending.filter (fun r => r.account = account)).length ≤ PENDING_MAX_ROWS

instance (pending : List (Row Int)) (account : Str) (now : Int) :
    Decidable (PendingFits pending account now) := by
  unfold PendingFits
  infer_instance

theorem zipIdx_filter_length {α : Type} {p : α → Bool} : ∀ {l : List α} {n : Nat},
    ((l.zipIdx n).filter (fun q => p q.1)).length = (l.filter p).length
  | [], _ => rfl
  | a :: l, n => by
    simp only [zipIdx_cons, filter_cons]
    split <;> simp [zipIdx_filter_length]

variable {pending : List (Row Int)}

theorem mem_surplus {account : Str} {i : Nat}
    (h : i ∈ surplus pending account) : ∃ r, (r, i) ∈ pending.zipIdx ∧ r.account = account := by
  unfold surplus at h
  obtain ⟨p, hp, rfl⟩ := mem_map.mp h
  have hp := (mem_insertionSort _).mp (mem_of_mem_drop hp)
  obtain ⟨hm, ha⟩ := mem_filter.mp hp
  exact ⟨p.1, hm, of_decide_eq_true ha⟩

variable {now : Int}

theorem young_eq {account : Str} (h : PendingFits pending account now) : young pending account now = pending := by
  unfold young
  rw [filter_eq_self]
  intro r hr
  by_cases ha : r.account = account
  · have := h.1 r hr ha
    simp [ha, this]
  · simp [ha]

theorem prune_eq {account : Str} (h : PendingFits pending account now) : prune pending account now = pending := by
  have hsurplus : surplus pending account = [] := by
    unfold surplus
    rw [map_eq_nil_iff, drop_eq_nil_iff, length_insertionSort]
    have := h.2
    rw [← zipIdx_filter_length (n := 0)] at this
    exact this
  unfold prune
  rw [young_eq h, hsurplus]
  simp

theorem prune_sublist {account : Str} : (prune pending account now).Sublist pending := by
  have hmap := (filter_sublist (p := fun p : Row Int × Nat =>
    decide (p.2 ∉ surplus (young pending account now) account))
    (l := (young pending account now).zipIdx)).map Prod.fst
  rw [zipIdx_map_fst] at hmap
  exact hmap.trans filter_sublist

theorem mem_prune_of_other {account : Str} {r : Row Int}
    (hr : r ∈ pending) (ha : r.account ≠ account) : r ∈ prune pending account now := by
  have hyoung : r ∈ young pending account now := by
    unfold young
    exact mem_filter.mpr ⟨hr, by simp [ha]⟩
  obtain ⟨i, hi⟩ := mem_iff_getElem?.mp hyoung
  apply mem_map.mpr
  refine ⟨(r, i), mem_filter.mpr ⟨mk_mem_zipIdx_iff_getElem?.mpr hi, ?_⟩, rfl⟩
  apply decide_eq_true
  intro hs
  obtain ⟨q, hq, hqa⟩ := mem_surplus hs
  have hqi := mk_mem_zipIdx_iff_getElem?.mp hq
  rw [hi] at hqi
  cases hqi
  exact ha hqa

/-- Another account's rows are not noticed when one account's are dropped. -/
theorem valueAt_prune_other {account : Str} {k : Str × Str × Kind × Str} (hu : Keyed Row.key pending) (ha : k.1 ≠ account) :
    valueAt (prune pending account now) k = valueAt pending k := by
  have hu' : Keyed Row.key (prune pending account now) :=
    hu.sublist (prune_sublist.map Row.key)
  unfold valueAt
  congr 1
  cases hl : Table.lookup Row.key pending k with
  | none =>
    rw [lookup_eq_none] at hl ⊢
    exact fun r hr => hl r (prune_sublist.subset hr)
  | some r =>
    obtain ⟨hr, rfl⟩ := lookup_some hl
    exact hu'.lookup_of_mem (mem_prune_of_other hr ha)

/-! ## What is told about one message -/

inductive Action where
  | record (account : Str) (report : Report) (reportedAt now : Int)
  /-- The cached messages and the attempts of outgoing ones change. -/
  | mailbox (messages : List MessageRow) (attempts : List AttemptRow)
  | outcomes (account messageId : Str)

variable (lowercase : Str → Str)

def act (s : Store) : Action → Store
  | .record account report reportedAt now => (record lowercase s account report reportedAt now).1
  | .mailbox messages attempts => { s with messages, attempts }
  | .outcomes account messageId => (outcomes lowercase s account messageId).1

def step (s : Store) (a : Action) : Option Store := some (act lowercase s a)

/-- What an action tells about the message `original` of `account`. -/
def told (account original : Str) : Action → List Stored
  | .record owner report reportedAt _ =>
    if owner = account ∧ key lowercase report.originalMessageId = original then
      report.recipients.map (storedOf report reportedAt)
    else []
  | _ => []

/-- What is assumed of a step: none of the account's waiting reports is too old or too much, and a
message that is there stays. -/
def Assumed (account original : Str) (s : Store) : Action → Prop
  | .record owner report reportedAt now => owner = account →
      PendingFits (recordPending s.pending owner (key lowercase report.originalMessageId) report
        reportedAt now) owner now
  | .mailbox messages attempts =>
      knownMessage s account original = true →
        knownMessage { s with messages, attempts } account original = true
  | .outcomes _ _ => True

instance (account original : Str) (s : Store) (a : Action) :
    Decidable (Assumed lowercase account original s a) := by
  cases a <;> unfold Assumed <;> infer_instance

/-- What was told about one recipient. -/
def toldOf (items : List Stored) (kind : Kind) (recipient : Str) (y : Stored) : Prop :=
  y ∈ items ∧ y.kind = kind ∧ y.recipient = recipient

/-- What the two tables hold about one recipient tops what was told so far. -/
structure Converging (account original : Str) (items : List Stored) (s : Store) : Prop where
  reports : Keyed Row.key s.reports
  pending : Keyed Row.key s.pending
  tops : ∀ kind recipient, Tops rank
    (fun y => y ∈ valueAt s.reports (account, original, kind, recipient) ∨
      y ∈ valueAt s.pending (account, original, kind, recipient))
    (toldOf items kind recipient)

section Told

variable {χ : Type} {account original : Str} {held : Kind → Str → Stored → Prop}

theorem tops_upsert {t : List (Row χ)} {items : List Stored} {s : Stored} {x : χ} (h : ∀ kind recipient, Tops rank
      (fun y => y ∈ valueAt t (account, original, kind, recipient) ∨ held kind recipient y)
      (toldOf items kind recipient)) : ∀ kind recipient, Tops rank
      (fun y => y ∈ valueAt (upsert t { account, original, stored := s, receivedAt := x })
        (account, original, kind, recipient) ∨ held kind recipient y)
      (toldOf (items ++ [s]) kind recipient) := by
  intro kind recipient
  rw [valueAt_upsert]
  by_cases hk : (account, original, kind, recipient) =
      Row.key { account, original, stored := s, receivedAt := x }
  · rw [if_pos hk]
    simp only [Row.key, Prod.mk.injEq, true_and] at hk
    refine (h kind recipient).keep.congr (fun _ => Iff.rfl) fun y => ?_
    unfold toldOf
    constructor
    · rintro (⟨hy, hkr⟩ | rfl)
      · exact ⟨mem_append_left _ hy, hkr⟩
      · exact ⟨mem_append_right _ mem_cons_self, hk.1.symm, hk.2.symm⟩
    · rintro ⟨hy, hkr⟩
      rcases mem_append.mp hy with hy | hy
      · exact .inl ⟨hy, hkr⟩
      · exact .inr (mem_singleton.mp hy)
  · rw [if_neg hk]
    refine (h kind recipient).congr (fun _ => Iff.rfl) fun y => ?_
    unfold toldOf
    constructor
    · rintro ⟨hy, hkr⟩
      exact ⟨mem_append_left _ hy, hkr⟩
    · rintro ⟨hy, rfl, rfl⟩
      rcases mem_append.mp hy with hy | hy
      · exact ⟨hy, rfl, rfl⟩
      · rw [mem_singleton.mp hy] at hk
        exact absurd rfl hk

theorem tops_record (report : Report) (reportedAt : Int) (x : χ) :
    ∀ (recipients : List RecipientReport) {t : List (Row χ)} {items : List Stored}, (∀ kind recipient, Tops rank
        (fun y => y ∈ valueAt t (account, original, kind, recipient) ∨ held kind recipient y)
        (toldOf items kind recipient)) →
      ∀ kind recipient, Tops rank (fun y => y ∈ valueAt (recipients.foldl (fun t item => upsert t
            { account, original, stored := storedOf report reportedAt item, receivedAt := x }) t)
          (account, original, kind, recipient) ∨ held kind recipient y)
        (toldOf (items ++ recipients.map (storedOf report reportedAt)) kind recipient)
  | [], t, items, h, kind, recipient => by simpa using h kind recipient
  | item :: recipients, t, items, h, kind, recipient => by
    have hone := tops_upsert (s := storedOf report reportedAt item) (x := x) h
    have hrest := tops_record report reportedAt x recipients hone kind recipient
    simpa using hrest

/-- Reports about another message touch other rows. -/
theorem valueAt_record_other {owner other : Str} (report : Report) (reportedAt : Int) (x : χ)
    (recipients : List RecipientReport) {t : List (Row χ)} {kind : Kind} {recipient : Str}
    (h : ¬ (owner = account ∧ other = original)) : valueAt (recipients.foldl (fun t item => upsert t
        { account := owner, original := other, stored := storedOf report reportedAt item, receivedAt := x }) t)
      (account, original, kind, recipient) = valueAt t (account, original, kind, recipient) := by
  rw [← List.foldl_map (g := upsert)
    (f := fun item => { account := owner, original := other, stored := storedOf report reportedAt item, receivedAt := x })]
  apply valueAt_foldl_other
  intro r hr hk
  obtain ⟨item, -, rfl⟩ := mem_map.mp hr
  simp only [Row.key, Prod.mk.injEq] at hk
  exact h ⟨hk.1.symm, hk.2.1.symm⟩

theorem keyed_record {owner other : Str} {report : Report} {reportedAt : Int} {x : χ}
    {recipients : List RecipientReport} {t : List (Row χ)} (hu : Keyed Row.key t) :
    Keyed Row.key (recipients.foldl (fun t item => upsert t
        { account := owner, original := other, stored := storedOf report reportedAt item, receivedAt := x }) t) := by
  rw [← List.foldl_map (g := upsert)
    (f := fun item => { account := owner, original := other, stored := storedOf report reportedAt item, receivedAt := x })]
  exact keyed_foldl_upsert hu

end Told

/-! ## Waiting reports linked -/

section Link

variable {account original : Str} (kind : Kind) (recipient : Str) {s : Store}

/-- The rows that wait for a message. -/
def waiting (s : Store) (account original : Str) : List (Row Int) :=
  s.pending.filter (fun r => r.account = account ∧ r.original = original)

/-- A waiting row as a linked one. -/
def linked (account original : Str) (r : Row Int) : Row Unit :=
  { account, original, stored := r.stored, receivedAt := () }

theorem linkPending_cases (s : Store) (account original : Str) : linkPending s account original = s ∧
        (waiting s account original = [] ∨ knownMessage s account original = false) ∨
      knownMessage s account original = true ∧
        linkPending s account original =
          { s with
            reports := ((waiting s account original).map (linked account original)).foldl upsert s.reports
            pending := s.pending.filter (fun r => ¬ (r.account = account ∧ r.original = original)) } := by
  unfold linkPending
  dsimp only
  split
  · rename_i h
    apply Or.inl
    refine ⟨rfl, ?_⟩
    rcases Bool.or_eq_true _ _ |>.mp h with h | h
    · exact .inl (List.isEmpty_iff.mp h)
    · exact .inr (by simpa using h)
  · rename_i h
    simp only [Bool.or_eq_true, not_or, Bool.not_eq_true, Bool.not_eq_false'] at h
    refine .inr ⟨h.2, ?_⟩
    rw [List.foldl_map]
    rfl

theorem linked_key {r : Row Int} (h : r ∈ waiting s account original) : (linked account original r).key = r.key := by
  have := of_decide_eq_true (mem_filter.mp h).2
  simp [linked, Row.key, this.1, this.2]

theorem valueAt_waiting (hu : Keyed Row.key s.pending) :
    valueAt (waiting s account original) (account, original, kind, recipient) =
      valueAt s.pending (account, original, kind, recipient) := by
  apply valueAt_filter hu
  intro r _ hk
  simp only [Row.key, Prod.mk.injEq] at hk
  exact decide_eq_true ⟨hk.1, hk.2.1⟩

theorem valueAt_linked : valueAt ((waiting s account original).map (linked account original))
    (account, original, kind, recipient) =
      valueAt (waiting s account original) (account, original, kind, recipient) :=
  valueAt_map (fun _ hr => linked_key hr) fun _ => rfl

theorem keyed_linked (hu : Keyed Row.key s.pending) :
    Keyed Row.key ((waiting s account original).map (linked account original)) := by
  have hw : Keyed Row.key (waiting s account original) := hu.filter _
  unfold Keyed at hw ⊢
  rw [map_map]
  have : (waiting s account original).map (Row.key ∘ linked account original) =
      (waiting s account original).map Row.key :=
    map_congr_left fun r hr => linked_key hr
  rw [this]
  exact hw

/-- **Linking empties the waiting registers into the linked ones.** -/
theorem link_known (hu : Keyed Row.key s.pending) (hk : knownMessage s account original = true) :
    valueAt (linkPending s account original).reports (account, original, kind, recipient) =
        merge rank (valueAt s.reports (account, original, kind, recipient))
          (valueAt s.pending (account, original, kind, recipient)) ∧
      valueAt (linkPending s account original).pending (account, original, kind, recipient) = none := by
  rcases linkPending_cases s account original with ⟨heq, hw⟩ | ⟨-, heq⟩
  · rcases hw with hw | hw
    · have hnone : valueAt s.pending (account, original, kind, recipient) = none := by
        rw [← valueAt_waiting kind recipient hu, hw]
        rfl
      rw [heq, hnone]
      exact ⟨rfl, rfl⟩
    · rw [hk] at hw
      cases hw
  · rw [heq]
    constructor
    · show valueAt (((waiting s account original).map (linked account original)).foldl upsert s.reports) _ = _
      rw [valueAt_foldl_upsert (keyed_linked hu), valueAt_linked, valueAt_waiting kind recipient hu]
    · unfold valueAt
      rw [Option.map_eq_none_iff, lookup_eq_none]
      intro r hr hkey
      simp only [Row.key, Prod.mk.injEq] at hkey
      exact of_decide_eq_true (mem_filter.mp hr).2 ⟨hkey.1, hkey.2.1⟩

theorem link_other {owner other : Str} (hu : Keyed Row.key s.pending) (hne : ¬ (owner = account ∧ other = original)) :
    valueAt (linkPending s owner other).reports (account, original, kind, recipient) =
        valueAt s.reports (account, original, kind, recipient) ∧
      valueAt (linkPending s owner other).pending (account, original, kind, recipient) =
        valueAt s.pending (account, original, kind, recipient) := by
  rcases linkPending_cases s owner other with ⟨heq, -⟩ | ⟨-, heq⟩
  · rw [heq]
    exact ⟨rfl, rfl⟩
  · rw [heq]
    constructor
    · apply valueAt_foldl_other
      intro r hr hk
      obtain ⟨q, -, rfl⟩ := mem_map.mp hr
      simp only [linked, Row.key, Prod.mk.injEq] at hk
      exact hne ⟨hk.1.symm, hk.2.1.symm⟩
    · apply valueAt_filter hu
      intro r _ hk
      simp only [Row.key, Prod.mk.injEq] at hk
      apply decide_eq_true
      rintro ⟨h1, h2⟩
      exact hne ⟨h1 ▸ hk.1, h2 ▸ hk.2.1⟩

theorem keyed_link (owner other : Str) (hr : Keyed Row.key s.reports) (hp : Keyed Row.key s.pending) :
    Keyed Row.key (linkPending s owner other).reports ∧
      Keyed Row.key (linkPending s owner other).pending := by
  rcases linkPending_cases s owner other with ⟨heq, -⟩ | ⟨-, heq⟩
  · rw [heq]
    exact ⟨hr, hp⟩
  · rw [heq]
    exact ⟨keyed_foldl_upsert hr, hp.filter _⟩

theorem link_converging {items : List Stored} (owner other : Str) (h : Converging account original items s) :
    Converging account original items (linkPending s owner other) := by
  obtain ⟨hr, hp⟩ := keyed_link owner other h.reports h.pending
  refine ⟨hr, hp, fun kind recipient => ?_⟩
  by_cases hsame : owner = account ∧ other = original
  · obtain ⟨rfl, rfl⟩ := hsame
    cases hk : knownMessage s owner other with
    | true =>
      obtain ⟨h1, h2⟩ := link_known kind recipient h.pending hk
      rw [h1, h2]
      refine (h.tops kind recipient).merge.congr (fun y => ?_) fun _ => Iff.rfl
      simp
    | false =>
      rcases linkPending_cases s owner other with ⟨heq, -⟩ | ⟨hk', -⟩
      · rw [heq]
        exact h.tops kind recipient
      · rw [hk] at hk'
        cases hk'
  · obtain ⟨h1, h2⟩ := link_other kind recipient h.pending hsame
    rw [h1, h2]
    exact h.tops kind recipient

end Link

/-! ## Steps and runs -/

section Run

variable {account original : Str} {items : List Stored} {s : Store}

theorem record_converging {owner : Str} {report : Report} {reportedAt now : Int}
    (horiginal : original ≠ []) (h : Converging account original items s)
    (hok : Assumed lowercase account original s (.record owner report reportedAt now)) : Converging account original
      (items ++ told lowercase account original (.record owner report reportedAt now))
      (record lowercase s owner report reportedAt now).1 := by
  have hother : ¬ (owner = account ∧ key lowercase report.originalMessageId = original) →
      told lowercase account original (.record owner report reportedAt now) = [] := by
    intro hne
    simp [told, hne]
  unfold record
  dsimp only
  split
  · rename_i hnil
    rw [hother fun hh => horiginal (hh.2.symm.trans hnil), append_nil]
    exact h
  · split
    · refine ⟨keyed_record h.reports, h.pending, fun kind recipient => ?_⟩
      by_cases hsame : owner = account ∧ key lowercase report.originalMessageId = original
      · obtain ⟨rfl, rfl⟩ := hsame
        have := tops_record report reportedAt () report.recipients h.tops kind recipient
        simpa [told, recordLinked] using this
      · rw [hother hsame, append_nil]
        have := h.tops kind recipient
        rw [← valueAt_record_other report reportedAt () report.recipients hsame] at this
        exact this
    · have hkeyed : Keyed Row.key (recordPending s.pending owner
          (key lowercase report.originalMessageId) report reportedAt now) := keyed_record h.pending
      refine ⟨h.reports, hkeyed.sublist (prune_sublist.map Row.key), fun kind recipient => ?_⟩
      by_cases howner : owner = account
      · have hfits := prune_eq (hok howner)
        show Tops rank (fun y => _ ∨ y ∈ valueAt (prune _ owner now) _) _
        rw [hfits]
        by_cases hsame : key lowercase report.originalMessageId = original
        · subst howner hsame
          have hswap := fun kind recipient => (h.tops kind recipient).congr (fun y => Or.comm) fun _ => Iff.rfl
          have := tops_record report reportedAt now report.recipients hswap kind recipient
          refine this.congr (fun y => Or.comm) fun y => ?_
          simp [told]
        · rw [hother fun hh => hsame hh.2, append_nil]
          have := h.tops kind recipient
          rw [← valueAt_record_other (t := s.pending) report reportedAt now report.recipients
            (fun hh => hsame hh.2 : ¬ (owner = account ∧ _))] at this
          exact this
      · rw [hother fun hh => howner hh.1, append_nil]
        show Tops rank (fun y => _ ∨ y ∈ valueAt (prune _ owner now) _) _
        rw [valueAt_prune_other hkeyed fun hh => howner hh.symm]
        have := h.tops kind recipient
        rw [← valueAt_record_other (t := s.pending) report reportedAt now report.recipients
          (fun hh => howner hh.1 : ¬ (owner = account ∧ key lowercase report.originalMessageId = original))] at this
        exact this

/-- **One step.** -/
theorem act_converging {a : Action} (horiginal : original ≠ [])
    (h : Converging account original items s) (hok : Assumed lowercase account original s a) :
    Converging account original (items ++ told lowercase account original a) (act lowercase s a) := by
  cases a with
  | record owner report reportedAt now => exact record_converging lowercase horiginal h hok
  | mailbox messages attempts =>
    show Converging account original (items ++ []) { s with messages, attempts }
    rw [append_nil]
    exact ⟨h.reports, h.pending, h.tops⟩
  | outcomes owner messageId =>
    show Converging account original (items ++ []) (outcomes lowercase s owner messageId).1
    rw [append_nil]
    unfold outcomes
    dsimp only
    split
    · exact h
    · exact link_converging _ _ h

theorem run_converging (horiginal : original ≠ []) :
    ∀ {as : List Action} {items : List Stored} {s t : Store}, Converging account original items s →
      AllSteps (step lowercase) (Assumed lowercase account original) s as →
      run (step lowercase) s as = some t →
      Converging account original (items ++ as.flatMap (told lowercase account original)) t
  | [], items, s, t, h, _, hr => by
    cases hr
    simpa using h
  | a :: as, items, s, t, h, hok, hr => by
    obtain ⟨u, hu, hrest⟩ := run_cons hr
    cases hu
    have := run_converging horiginal (act_converging lowercase horiginal h hok.1) (hok.2 _ rfl) hrest
    simpa using this

end Run

/-! ## What the reports come to -/

noncomputable def latest (l : List Stored) : Option Stored := l.argmax Stored.reportedAt

/-- The latest final report if there is one, otherwise the latest delay. -/
noncomputable def best (mine : List Stored) : Option Stored :=
  (latest (mine.filter (fun s => s.outcome ≠ .delayed))).or
    (latest (mine.filter (fun s => s.outcome = .delayed)))

/-- What was told about one recipient. -/
def mine (items : List Stored) (kind : Kind) (recipient : Str) : List Stored :=
  items.filter (fun i => i.kind = kind ∧ i.recipient = recipient)

/-- For each kind and recipient the best of what was told, by kind then recipient. -/
noncomputable def converged (items : List Stored) : List Stored :=
  (items.filter (fun s => best (mine items s.kind s.recipient) = some s)).dedup.insertionSort Stored.before

/-- Of one class, no two reports about a recipient have the same date. -/
def Distinct (items : List Stored) : Prop :=
  ∀ x ∈ items, ∀ y ∈ items, x.kind = y.kind → x.recipient = y.recipient →
    (x.outcome = .delayed ↔ y.outcome = .delayed) → x.reportedAt = y.reportedAt → x = y

instance (items : List Stored) : Decidable (Distinct items) := by
  unfold Distinct
  infer_instance

section Best

variable {items : List Stored} {kind : Kind} {recipient : Str} {x : Stored}

theorem Distinct.eq_of_rank (hd : Distinct items) {y z : Stored} (hy : toldOf items kind recipient y)
    (hz : toldOf items kind recipient z) (h : rank y = rank z) : y = z := by
  have h1 := rank_le.mp (le_of_eq h)
  have h2 := rank_le.mp (le_of_eq h.symm)
  have hclass : y.outcome = .delayed ↔ z.outcome = .delayed := by
    rcases h1 with h1 | h1
    · rcases h2 with h2 | h2
      · exact absurd h2.1 h1.2
      · exact h2.1.symm
    · exact h1.1
  refine hd y hy.1 z hz.1 (hy.2.1.trans hz.2.1.symm) (hy.2.2.trans hz.2.2.symm) hclass ?_
  rcases h1 with h1 | h1
  · exact absurd (hclass.mp h1.1) h1.2
  · rcases h2 with h2 | h2
    · exact absurd (hclass.mpr h2.1) h2.2
    · exact le_antisymm h1.2 h2.2

theorem mem_mine : x ∈ mine items kind recipient ↔ toldOf items kind recipient x := by
  unfold mine toldOf
  rw [mem_filter, decide_eq_true_iff]

theorem latest_eq_none {l : List Stored} : latest l = none ↔ l = [] := argmax_eq_none

theorem best_max {l : List Stored} (h : best l = some x) : x ∈ l ∧ ∀ z ∈ l, rank z ≤ rank x := by
  unfold best at h
  rcases Option.or_eq_some_iff.mp h with h | ⟨hnone, h⟩
  · obtain ⟨hx, hfinal⟩ := mem_filter.mp (argmax_mem h)
    have hfinal := of_decide_eq_true hfinal
    refine ⟨hx, fun z hz => rank_le.mpr ?_⟩
    by_cases hzd : z.outcome = .delayed
    · exact .inl ⟨hzd, hfinal⟩
    · refine .inr ⟨iff_of_false hzd hfinal, ?_⟩
      exact le_of_mem_argmax (mem_filter.mpr ⟨hz, decide_eq_true hzd⟩) h
  · obtain ⟨hx, hdelayed⟩ := mem_filter.mp (argmax_mem h)
    have hdelayed := of_decide_eq_true hdelayed
    refine ⟨hx, fun z hz => rank_le.mpr ?_⟩
    have hzd : z.outcome = .delayed := by
      by_contra hzd
      have : z ∈ l.filter (fun s => s.outcome ≠ .delayed) := mem_filter.mpr ⟨hz, decide_eq_true hzd⟩
      rw [latest_eq_none.mp hnone] at this
      cases this
    refine .inr ⟨iff_of_true hzd hdelayed, ?_⟩
    exact le_of_mem_argmax (mem_filter.mpr ⟨hz, decide_eq_true hzd⟩) h

theorem best_isSome {l : List Stored} (h : x ∈ l) : ∃ y, best l = some y := by
  rw [← Option.isSome_iff_exists]
  unfold best
  rw [Option.isSome_or]
  by_cases hx : x.outcome = .delayed
  · have hne : latest (l.filter fun s => s.outcome = .delayed) ≠ none := by
      intro hnone
      have : x ∈ l.filter (fun s => s.outcome = .delayed) := mem_filter.mpr ⟨h, decide_eq_true hx⟩
      rw [latest_eq_none.mp hnone] at this
      cases this
    simp [Option.isSome_iff_ne_none.mpr hne]
  · have hne : latest (l.filter fun s => s.outcome ≠ .delayed) ≠ none := by
      intro hnone
      have : x ∈ l.filter (fun s => s.outcome ≠ .delayed) := mem_filter.mpr ⟨h, decide_eq_true hx⟩
      rw [latest_eq_none.mp hnone] at this
      cases this
    rw [Option.isSome_iff_ne_none.mpr hne, Bool.true_or]

theorem best_iff (hd : Distinct items) : best (mine items kind recipient) = some x ↔
    toldOf items kind recipient x ∧ ∀ z, toldOf items kind recipient z → rank z ≤ rank x := by
  constructor
  · intro h
    obtain ⟨hx, hmax⟩ := best_max h
    exact ⟨mem_mine.mp hx, fun z hz => hmax z (mem_mine.mpr hz)⟩
  · rintro ⟨hx, hmax⟩
    obtain ⟨y, hy⟩ := best_isSome (mem_mine.mpr hx)
    obtain ⟨hy', hymax⟩ := best_max hy
    have hyt := mem_mine.mp hy'
    rw [hd.eq_of_rank hx hyt (le_antisymm (hymax x (mem_mine.mpr hx)) (hmax y hyt))]
    exact hy

theorem mem_converged (hd : Distinct items) : x ∈ converged items ↔
    toldOf items x.kind x.recipient x ∧ ∀ z, toldOf items x.kind x.recipient z → rank z ≤ rank x := by
  unfold converged
  rw [mem_insertionSort, List.mem_dedup, mem_filter, decide_eq_true_iff, best_iff hd]
  exact ⟨And.right, fun h => ⟨h.1.1, h⟩⟩

end Best

section Order

theorem before_iff {a b : Stored} :
    Stored.before a b ↔ toLex (a.kind.asStr, a.recipient) ≤ toLex (b.kind.asStr, b.recipient) := by
  rw [Prod.Lex.toLex_le_toLex]
  rfl

instance : Std.Total Stored.before where
  total a b := by
    rw [before_iff, before_iff]
    exact le_total (α := Str ×ₗ Str) _ _

instance : IsTrans Stored Stored.before where
  trans a b c := by
    rw [before_iff, before_iff, before_iff]
    exact le_trans (α := Str ×ₗ Str)

theorem Kind.asStr_inj {a b : Kind} (h : a.asStr = b.asStr) : a = b := by
  cases a <;> cases b <;> first | rfl | exact absurd h (by decide)

theorem same_key {a b : Stored} (h1 : Stored.before a b) (h2 : Stored.before b a) :
    a.kind = b.kind ∧ a.recipient = b.recipient := by
  have h := le_antisymm (α := Str ×ₗ Str) (before_iff.mp h1) (before_iff.mp h2)
  have h := toLex_inj.mp h
  simp only [Prod.mk.injEq] at h
  exact ⟨Kind.asStr_inj h.1, h.2⟩

/-- Two sorted lists of reports with the same members, at most one about a recipient, are one. -/
theorem sorted_ext {l l' : List Stored} (hs : l.Pairwise Stored.before) (hs' : l'.Pairwise Stored.before)
    (hn : l.Nodup) (hn' : l'.Nodup) (hm : ∀ x, x ∈ l ↔ x ∈ l')
    (hone : ∀ x ∈ l, ∀ y ∈ l, x.kind = y.kind → x.recipient = y.recipient → x = y) : l = l' := by
  have hanti : ∀ a b, a ∈ l → b ∈ l' → Stored.before a b → Stored.before b a → a = b := by
    intro a b ha hb h1 h2
    obtain ⟨hk, hr⟩ := same_key h1 h2
    exact hone a ha b ((hm b).mpr hb) hk hr
  exact List.Perm.eq_of_pairwise hanti hs hs' ((perm_ext_iff_of_nodup hn hn').mpr hm)

end Order

/-! ## The answer at the end -/

section Answer

variable {account original : Str} {items : List Stored} {s : Store}

theorem mem_outcomes {t : List (Row Unit)} {x : Stored} (hu : Keyed Row.key t) :
    x ∈ (t.filter (fun r => r.account = account ∧ r.original = original)).map Row.stored ↔
      valueAt t (account, original, x.kind, x.recipient) = some x := by
  unfold valueAt
  rw [mem_map, Option.map_eq_some_iff]
  constructor
  · rintro ⟨r, hr, rfl⟩
    obtain ⟨hr, hp⟩ := mem_filter.mp hr
    obtain ⟨ha, ho⟩ := of_decide_eq_true hp
    have := hu.lookup_of_mem hr
    refine ⟨r, ?_, rfl⟩
    rw [← ha, ← ho]
    exact this
  · rintro ⟨r, hr, rfl⟩
    obtain ⟨hm, hk⟩ := lookup_some hr
    simp only [Row.key, Prod.mk.injEq] at hk
    exact ⟨r, mem_filter.mpr ⟨hm, decide_eq_true ⟨hk.1, hk.2.1⟩⟩, rfl⟩

theorem nodup_outcomes {t : List (Row Unit)} (hu : Keyed Row.key t) :
    ((t.filter (fun r => r.account = account ∧ r.original = original)).map Row.stored).Nodup := by
  apply List.Nodup.of_map fun x : Stored => (account, original, x.kind, x.recipient)
  have hkeys := hu.filter fun r => decide (r.account = account ∧ r.original = original)
  unfold Keyed at hkeys
  rw [map_map]
  have : (t.filter fun r => r.account = account ∧ r.original = original).map
      ((fun x : Stored => (account, original, x.kind, x.recipient)) ∘ Row.stored) =
        (t.filter fun r => r.account = account ∧ r.original = original).map Row.key := by
    apply map_congr_left
    intro r hr
    obtain ⟨ha, ho⟩ := of_decide_eq_true (mem_filter.mp hr).2
    simp [Row.key, ha, ho]
  rw [this]
  exact hkeys

/-- What the tables hold about a known message, once the waiting reports are linked. -/
theorem valueAt_final (h : Converging account original items s) (hd : Distinct items)
    (hk : knownMessage s account original = true) {kind : Kind} {recipient : Str} {x : Stored} :
    valueAt (linkPending s account original).reports (account, original, kind, recipient) = some x ↔
      toldOf items kind recipient x ∧ ∀ z, toldOf items kind recipient z → rank z ≤ rank x := by
  have htops := (link_converging account original h).tops kind recipient
  rw [(link_known kind recipient h.pending hk).2] at htops
  have hone : Tops rank (fun y => y ∈ valueAt (linkPending s account original).reports
      (account, original, kind, recipient)) (toldOf items kind recipient) :=
    htops.congr (fun y => by simp) fun _ => Iff.rfl
  exact hone.unique fun y z hy hz hr => hd.eq_of_rank hy hz hr

end Answer

/-- Nothing is on record about the message yet; rows have distinct keys. -/
structure Untold (account original : Str) (s : Store) : Prop where
  reports : Keyed Row.key s.reports
  pending : Keyed Row.key s.pending
  noReport : ∀ r ∈ s.reports, ¬ (r.account = account ∧ r.original = original)
  nonePending : ∀ r ∈ s.pending, ¬ (r.account = account ∧ r.original = original)

theorem Untold.converging {account original : Str} {s : Store} (h : Untold account original s) :
    Converging account original [] s := by
  refine ⟨h.reports, h.pending, fun kind recipient => ?_⟩
  have hr : valueAt s.reports (account, original, kind, recipient) = none := by
    unfold valueAt
    rw [Option.map_eq_none_iff, lookup_eq_none]
    intro r hr hk
    simp only [Row.key, Prod.mk.injEq] at hk
    exact h.noReport r hr ⟨hk.1, hk.2.1⟩
  have hp : valueAt s.pending (account, original, kind, recipient) = none := by
    unfold valueAt
    rw [Option.map_eq_none_iff, lookup_eq_none]
    intro r hr hk
    simp only [Row.key, Prod.mk.injEq] at hk
    exact h.nonePending r hr ⟨hk.1, hk.2.1⟩
  rw [hr, hp]
  exact ⟨fun x hx => by simp at hx, fun z hz => by simp [toldOf] at hz⟩

theorem sorted_converged {items : List Stored} : (converged items).Pairwise Stored.before :=
  pairwise_insertionSort _ _

theorem nodup_converged {items : List Stored} : (converged items).Nodup :=
  (perm_insertionSort _ _).nodup_iff.mpr (nodup_dedup _)

/-- What the reports come to depends on which there are, not on their order. -/
theorem converged_congr {items items' : List Stored} (hd : Distinct items)
    (hm : ∀ x, x ∈ items' ↔ x ∈ items) : converged items' = converged items := by
  have hd' : Distinct items' := fun x hx y hy => hd x ((hm x).mp hx) y ((hm y).mp hy)
  have htold : ∀ {kind recipient y}, toldOf items' kind recipient y ↔ toldOf items kind recipient y := by
    intro kind recipient y
    unfold toldOf
    rw [hm]
  apply sorted_ext sorted_converged sorted_converged nodup_converged nodup_converged
  · intro x
    rw [mem_converged hd', mem_converged hd]
    constructor
    · rintro ⟨h1, h2⟩
      exact ⟨htold.mp h1, fun z hz => h2 z (htold.mpr hz)⟩
    · rintro ⟨h1, h2⟩
      exact ⟨htold.mpr h1, fun z hz => h2 z (htold.mp hz)⟩
  · intro x hx y hy hk hr
    obtain ⟨hx1, hx2⟩ := (mem_converged hd').mp hx
    obtain ⟨hy1, hy2⟩ := (mem_converged hd').mp hy
    rw [← hk, ← hr] at hy1 hy2
    exact hd'.eq_of_rank hx1 hy1 (le_antisymm (hy2 x hx1) (hx2 y hy1))

/-- **Delivery reports converge.**  However the reports about a message were recorded, before or after
it was there, and however often they were read meanwhile, once the message is known `outcomes` answers
the latest final report about each recipient, or the latest delay where there is none; another order
of the same reports comes to the same. -/
theorem outcomes_converge {account messageId : Str} {s t : Store} {as : List Action}
    (hid : key lowercase messageId ≠ []) (hs : Untold account (key lowercase messageId) s)
    (hok : AllSteps (step lowercase) (Assumed lowercase account (key lowercase messageId)) s as)
    (hrun : run (step lowercase) s as = some t) (hknown : knownMessage t account (key lowercase messageId) = true)
    (hd : Distinct (as.flatMap (told lowercase account (key lowercase messageId)))) : (outcomes lowercase t account messageId).2 =
        converged (as.flatMap (told lowercase account (key lowercase messageId))) ∧
      ∀ items, (∀ x, x ∈ items ↔ x ∈ as.flatMap (told lowercase account (key lowercase messageId))) →
        converged items = (outcomes lowercase t account messageId).2 := by
  have hc : Converging account (key lowercase messageId)
      (as.flatMap (told lowercase account (key lowercase messageId))) t := by
    simpa using run_converging lowercase hid hs.converging hok hrun
  have hout : (outcomes lowercase t account messageId).2 =
      converged (as.flatMap (told lowercase account (key lowercase messageId))) := by
    have hkeyed := (keyed_link account (key lowercase messageId) hc.reports hc.pending).1
    unfold outcomes
    simp only [hid, if_false]
    apply sorted_ext (pairwise_insertionSort _ _) sorted_converged
    · exact (perm_insertionSort _ _).nodup_iff.mpr (nodup_outcomes hkeyed)
    · exact nodup_converged
    · intro x
      rw [mem_insertionSort, mem_outcomes hkeyed, valueAt_final hc hd hknown, mem_converged hd]
    · intro x hx y hy hk hr
      rw [mem_insertionSort, mem_outcomes hkeyed] at hx hy
      rw [hk, hr, hy] at hx
      exact (Option.some.inj hx).symm
  refine ⟨hout, fun items hm => ?_⟩
  rw [hout]
  exact converged_congr hd hm

/-! ## A failure told before its message is there -/

namespace Sample

def none_ : Store := { reports := [], pending := [], messages := [], attempts := [] }

def word (outcome : Outcome) : Report :=
  { kind := .delivery, originalMessageId := ['<', 'm', '>']
    recipients := [{ recipient := ['b'], outcome, status := [], diagnostic := [] }] }

/-- A failure, then a delay of a later date, both before the sent message is cached. -/
def story : List Action :=
  [.record ['a'] (word .failed) 3 3, .outcomes ['a'] ['m'], .record ['a'] (word .delayed) 5 6,
    .mailbox [{ account := ['a'], messageId := some ['m'] }] [], .record ['a'] (word .delayed) 4 7]

def after : Store := story.foldl (act id) none_

end Sample

open Sample in
theorem failure_stands : (outcomes id after ['a'] ['m']).2 =
    [{ kind := .delivery, recipient := ['b'], outcome := .failed, status := [], diagnostic := []
       reportedAt := 3 }] := by
  have hs : Untold ['a'] (key id ['m']) none_ := by
    refine ⟨?_, ?_, ?_, ?_⟩
    · exact nodup_nil
    · exact nodup_nil
    · exact fun _ h => by cases h
    · exact fun _ h => by cases h
  have hok : AllSteps (step id) (Assumed id ['a'] (key id ['m'])) none_ story := by decide +kernel
  have hrun : run (step id) none_ story = some Sample.after := rfl
  have h := (outcomes_converge id (by decide +kernel) hs hok hrun (by decide +kernel) (by decide +kernel)).1
  rw [h]
  decide +kernel

end Oreneta.Receipts

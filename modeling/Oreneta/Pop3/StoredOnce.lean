import Oreneta.Pop3.Fetch

/-!
# A downloaded message is stored once

Three memories keep a message from being stored twice: the UIDLs, the hashes and, for one that was
stored and not noted, its Message-ID.

* `Remembered` — a stored message whose hash is noted or that is found by its Message-ID;
* `OnceInv` — every message stored by a download is remembered, or is the one just being stored;
* `stored_once` — in every run whose steps all meet `Safe`, no two downloads of the same bytes are
  stored;
* `stored_twice` — a message without a Message-ID, stored and not noted, is.
-/

namespace Oreneta.Pop3

open Archive Runs List

variable {D : Type} [DecidableEq D] {hash : Bytes → D} {mail : Mailparse}

/-- The hashes a run keeps in memory. -/
def Phase.memory : Phase D → Option (List D)
  | .fetching _ _ hashes _ => some hashes
  | .storing _ _ hashes _ _ _ _ => some hashes
  | _ => none

/-- The condition on a step.  A run stops with a message stored and not noted only when its Message-ID
finds it; the UIDL of a message just stored is not yet noted for other stored bytes that have no such
Message-ID; and the messages stored stay, in whatever folder. -/
def Safe (hash : Bytes → D) (mail : Mailparse) (s : State D) : Act → Prop
  | .stop => ∀ raw ∈ s.phase.inHand, Recognised mail raw
  | .note =>
    match s.phase with
    | .storing _ _ _ uidl raw _ _ => ∀ row ∈ s.seen, row.uidl = uidl → row.hash ≠ hash raw →
        ∀ r ∈ s.rows, hash r.raw = row.hash → Recognised mail r.raw
    | _ => True
  | .user rows => ∀ r ∈ s.rows, ∃ r' ∈ rows, r'.raw = r.raw ∧ r'.messageId = r.messageId
  | _ => True

/-- A stored message one of the memories knows. -/
def Remembered (hash : Bytes → D) (mail : Mailparse) (hashes : List D) (raw : Bytes) : Prop :=
  hash raw ∈ hashes ∨ Recognised mail raw

/-- What every step keeps, of the state and of what downloads committed so far. -/
structure OnceInv (hash : Bytes → D) (mail : Mailparse) (x : State D × List Bytes) : Prop where
  once : x.2.Nodup
  stored : ∀ raw ∈ x.2, ∃ r ∈ x.1.rows, r.raw = raw ∧ r.messageId = some (storedId mail raw)
  noted : ∀ raw ∈ x.2, Remembered hash mail (x.1.seen.map SeenRow.hash) raw ∨ x.1.phase.inHand = some raw
  memory : ∀ hashes ∈ x.1.phase.memory, ∀ raw ∈ x.2,
    Remembered hash mail hashes raw ∨ x.1.phase.inHand = some raw

omit [DecidableEq D] in
theorem OnceInv.start {rows : List StoredRow} {retention : Retention} : OnceInv hash mail (start D rows retention, []) :=
  ⟨nodup_nil, fun _ h => absurd h not_mem_nil, fun _ h => absurd h not_mem_nil,
    fun _ _ _ h => absurd h not_mem_nil⟩

omit [DecidableEq D] in
theorem Remembered.mono {hashes hashes' : List D} {raw : Bytes} (h : Remembered hash mail hashes raw)
    (hsub : hash raw ∈ hashes → hash raw ∈ hashes') : Remembered hash mail hashes' raw :=
  h.imp_left hsub

/-- A stored message with a Message-ID is found. -/
theorem storedAlready_of_recognised {rows : List StoredRow} {raw : Bytes} (h : Recognised mail raw)
    {r : StoredRow} (hr : r ∈ rows) (hraw : r.raw = raw) (hid : r.messageId = some (storedId mail raw)) :
    storedAlready hash mail rows raw = true := by
  unfold storedAlready
  rw [Bool.and_eq_true, any_eq_true]
  refine ⟨decide_eq_true h.1, r, hr, ?_⟩
  rw [hraw, hid, Option.map_some, h.2]
  simp

omit [DecidableEq D] in
theorem mem_insertOrIgnore {seen : List (SeenRow D)} {row : SeenRow D} {d : D}
    (h : d ∈ seen.map SeenRow.hash) : d ∈ (insertOrIgnore seen row).map SeenRow.hash := by
  unfold insertOrIgnore
  split
  · exact h
  · rw [map_append]
    exact mem_append_left _ h

/-- **What the download of one message does**: it stores nothing, or a message no memory knows. -/
theorem fetchOne_cases (hash : Bytes → D) (mail : Mailparse) (s : State D) (session : Session) (known : List Str) (hashes : List D) (n : Nat)
    (uidl : Str) (rest : List (Nat × Str)) : (∃ seen, fetchOne hash mail s session known hashes n uidl rest =
        { s with seen, phase := .fetching session known hashes rest } ∧
      ∀ d, d ∈ s.seen.map SeenRow.hash → d ∈ seen.map SeenRow.hash) ∨
    (hash (session.bytes n) ∉ hashes ∧ storedAlready hash mail s.rows (session.bytes n) = false ∧
      fetchOne hash mail s session known hashes n uidl rest =
        { s with
          rows := s.rows ++ [⟨INBOX, nextUid s.rows, session.bytes n, some (storedId mail (session.bytes n))⟩]
          phase := .storing session known hashes uidl (session.bytes n) (nextUid s.rows) rest }) := by
  unfold fetchOne
  split
  · exact .inl ⟨s.seen, rfl, fun _ h => h⟩
  split
  · exact .inl ⟨s.seen, rfl, fun _ h => h⟩
  dsimp only
  split
  · exact .inl ⟨_, rfl, fun _ h => mem_insertOrIgnore h⟩
  rename_i hnew
  split
  · exact .inl ⟨_, rfl, fun _ h => mem_insertOrIgnore h⟩
  rw [not_or, Bool.not_eq_true] at hnew
  exact .inr ⟨hnew.1, hnew.2, rfl⟩

section Step

variable {s t : State D} {committed : List Bytes}

omit [DecidableEq D] in
/-- A run goes on, or ends, with nothing in hand. -/
theorem OnceInv.move {seen : List (SeenRow D)} {phase : Phase D} (h : OnceInv hash mail (s, committed))
    (hnoted : ∀ raw ∈ committed, Remembered hash mail (seen.map SeenRow.hash) raw)
    (hmemory : ∀ hashes ∈ phase.memory, ∀ raw ∈ committed, Remembered hash mail hashes raw) :
    OnceInv hash mail ({ s with seen, phase }, committed) :=
  ⟨h.once, h.stored, fun raw hraw => .inl (hnoted raw hraw),
    fun hashes hh raw hraw => .inl (hmemory hashes hh raw hraw)⟩

omit [DecidableEq D] in
theorem OnceInv.settled (h : OnceInv hash mail (s, committed)) (hhand : s.phase.inHand = none) :
    ∀ raw ∈ committed, Remembered hash mail (s.seen.map SeenRow.hash) raw := by
  intro raw hraw
  rcases h.noted raw hraw with h | h
  · exact h
  · rw [hhand] at h
    cases h

variable {session : Session} {known : List Str} {rest : List (Nat × Str)}

omit [DecidableEq D] in
theorem OnceInv.recalled {hashes : List D} (h : OnceInv hash mail (s, committed))
    (hphase : s.phase = .fetching session known hashes rest) : ∀ raw ∈ committed, Remembered hash mail hashes raw := by
  intro raw hraw
  rcases h.memory hashes (by rw [hphase]; rfl) raw hraw with h | h
  · exact h
  · rw [hphase] at h
    cases h

/-- The next message of the list: stored, when no memory knows it. -/
theorem OnceInv.fetchOne {hashes : List D} {n : Nat} {uidl : Str} (h : OnceInv hash mail (s, committed))
    (hphase : s.phase = .fetching session known hashes ((n, uidl) :: rest)) :
    OnceInv hash mail (Pop3.fetchOne hash mail s session known hashes n uidl rest,
      sees s .next (Pop3.fetchOne hash mail s session known hashes n uidl rest) committed) := by
  have hhand : s.phase.inHand = none := by rw [hphase]; rfl
  have hrecalled := h.recalled hphase
  rcases fetchOne_cases hash mail s session known hashes n uidl rest with
    ⟨seen, heq, hseen⟩ | ⟨hnew, hstored, heq⟩
  · rw [heq]
    refine h.move (fun raw hraw => (h.settled hhand raw hraw).mono (hseen _)) ?_
    intro hashes' hmem raw hraw
    cases hmem
    exact hrecalled raw hraw
  · rw [heq]
    have hfresh : session.bytes n ∉ committed := by
      intro hmem
      rcases hrecalled _ hmem with hknown | hknown
      · exact hnew hknown
      · obtain ⟨r, hr, hraw, hid⟩ := h.stored _ hmem
        rw [storedAlready_of_recognised hknown hr hraw hid] at hstored
        cases hstored
    refine ⟨nodup_cons.mpr ⟨hfresh, h.once⟩, ?_, ?_, ?_⟩
    · intro raw hraw
      rcases mem_cons.mp hraw with rfl | hraw
      · exact ⟨_, mem_append_right _ (mem_singleton.mpr rfl), rfl, rfl⟩
      · obtain ⟨r, hr, hrow⟩ := h.stored raw hraw
        exact ⟨r, mem_append_left _ hr, hrow⟩
    · intro raw hraw
      rcases mem_cons.mp hraw with rfl | hraw
      · exact .inr rfl
      · exact .inl (h.settled hhand raw hraw)
    · intro hashes' hmem raw hraw
      cases hmem
      rcases mem_cons.mp hraw with rfl | hraw
      · exact .inr rfl
      · exact .inl (hrecalled raw hraw)

/-- The message in hand is noted. -/
theorem OnceInv.note {hashes : List D} {uidl : Str} {raw : Bytes} {uid : Nat} (h : OnceInv hash mail (s, committed))
    (hsafe : Safe hash mail s .note) (hphase : s.phase = .storing session known hashes uidl raw uid rest) :
    OnceInv hash mail ({ s with
      seen := Table.insertOrReplace SeenRow.uidl s.seen ⟨uidl, hash raw, some uid, session.now, false⟩
      phase := .fetching session known (hash raw :: hashes) rest }, committed) := by
  unfold Safe at hsafe
  rw [hphase] at hsafe
  have hhand : ∀ other, s.phase.inHand = some other → other = raw := by
    intro other hother
    rw [hphase] at hother
    exact (Option.some.inj hother).symm
  refine h.move ?_ ?_
  · intro other hother
    have hnew : hash raw ∈ (Table.insertOrReplace SeenRow.uidl s.seen
        ⟨uidl, hash raw, some uid, session.now, false⟩).map SeenRow.hash :=
      mem_map.mpr ⟨_, mem_append_right _ (mem_singleton.mpr rfl), rfl⟩
    rcases h.noted other hother with (hknown | hknown) | hin
    · obtain ⟨row, hrow, hrowhash⟩ := mem_map.mp hknown
      by_cases hsame : row.hash = hash raw
      · left
        rw [← hrowhash, hsame]
        exact hnew
      · by_cases huidl : row.uidl = uidl
        · -- the row goes; its message is still found by its Message-ID
          obtain ⟨r, hr, hraw, -⟩ := h.stored other hother
          have := hsafe row hrow huidl hsame r hr (by rw [hraw, hrowhash])
          rw [hraw] at this
          exact .inr this
        · refine .inl (mem_map.mpr ⟨row, mem_append_left _ ?_, hrowhash⟩)
          exact mem_filter.mpr ⟨hrow, decide_eq_true huidl⟩
    · exact .inr hknown
    · rw [hhand other hin]
      exact .inl hnew
  · intro hashes' hmem other hother
    cases hmem
    rcases h.memory hashes (by rw [hphase]; rfl) other hother with hknown | hin
    · exact hknown.mono (mem_cons_of_mem _)
    · rw [hhand other hin]
      exact .inl mem_cons_self

omit [DecidableEq D] in
theorem record_hashes {seen : List (SeenRow D)} {doomed : List (Nat × Str)} : (seen.map (fun r =>
      if doomed.any (fun entry => entry.2 = r.uidl) then { r with deletedOnServer := true } else r)).map
        SeenRow.hash = seen.map SeenRow.hash := by
  rw [map_map]
  refine map_congr_left fun r _ => ?_
  rw [Function.comp_apply]
  split <;> rfl

theorem OnceInv.step {a : Act} (h : OnceInv hash mail (s, committed)) (hsafe : Safe hash mail s a)
    (hstep : Pop3.step hash mail s a = some t) : OnceInv hash mail (t, sees s a t committed) := by
  cases step_does hstep with
  | next hphase => exact h.fetchOne hphase
  | note hphase => exact h.note hsafe hphase
  | begin_ hphase =>
    have hsettled := h.settled (by rw [hphase]; rfl)
    refine h.move hsettled ?_
    intro hashes hmem
    cases hmem
    exact hsettled
  | decide_ hphase => exact h.move (h.settled (by rw [hphase]; rfl)) fun _ hmem => nomatch hmem
  | dele hphase => exact h.move (h.settled (by rw [hphase]; rfl)) fun _ hmem => nomatch hmem
  | quit hphase => exact h.move (h.settled (by rw [hphase]; rfl)) fun _ hmem => nomatch hmem
  | record hphase =>
    refine h.move ?_ fun _ hmem => nomatch hmem
    rw [record_hashes]
    exact h.settled (by rw [hphase]; rfl)
  | stop =>
    refine h.move ?_ fun _ hmem => nomatch hmem
    intro raw hraw
    rcases h.noted raw hraw with hknown | hin
    · exact hknown
    · exact .inr (hsafe raw hin)
  | setRetention => exact ⟨h.once, h.stored, h.noted, h.memory⟩
  | user =>
    refine ⟨h.once, ?_, h.noted, h.memory⟩
    intro raw hraw
    obtain ⟨r, hr, hrraw, hid⟩ := h.stored raw hraw
    obtain ⟨r', hr', hraw', hid'⟩ := hsafe r hr
    exact ⟨r', hr', hraw'.trans hrraw, hid'.trans hid⟩

end Step

/-- **A downloaded message is stored once.** -/
theorem stored_once {rows : List StoredRow} {retention : Retention} {as : List Act} {s : State D} {committed : List Bytes}
    (hsafe : AllSteps (watched (step hash mail) sees) (fun x a => Safe hash mail x.1 a)
      (start D rows retention, []) as) (hrun : Runs.run (watched (step hash mail) sees) (start D rows retention, []) as =
      some (s, committed)) : committed.Nodup := by
  have hstep : ∀ x a y, OnceInv hash mail x → Safe hash mail x.1 a →
      watched (step hash mail) sees x a = some y → OnceInv hash mail y := by
    intro x a y h hok hs
    obtain ⟨ht, hsees⟩ := watched_some hs
    have := h.step hok ht
    rw [← hsees] at this
    exact this
  exact (run_invariant hstep OnceInv.start hsafe hrun).once

/-! ## Stopped between storing and noting -/

instance : {s : State D} → {a : Act} → Decidable (Safe hash mail s a)
  | s, .stop => inferInstanceAs (Decidable (∀ raw ∈ s.phase.inHand, Recognised mail raw))
  | ⟨seen, rows, _, .storing _ _ _ uidl raw _ _⟩, .note => inferInstanceAs (Decidable (∀ row ∈ seen, row.uidl = uidl →
      row.hash ≠ hash raw → ∀ r ∈ rows, hash r.raw = row.hash → Recognised mail r.raw))
  | ⟨_, _, _, .idle⟩, .note | ⟨_, _, _, .fetching ..⟩, .note | ⟨_, _, _, .deleting ..⟩, .note | ⟨_, _, _, .ended _⟩, .note =>
    isTrue trivial
  | s, .user rows => inferInstanceAs (Decidable (∀ r ∈ s.rows, ∃ r' ∈ rows, r'.raw = r.raw ∧ r'.messageId = r.messageId))
  | _, .begin_ _ | _, .next | _, .decide_ | _, .dele | _, .quit | _, .record | _, .setRetention _ => isTrue trivial

/-- A mailbox with one message. -/
def oneMessage (raw : Bytes) : Session where
  listed := [(1, "u1")]
  sizes := fun _ => none
  bytes := fun _ => raw
  now := 0

/-- Stored, stopped before it was noted, and listed again. -/
def interrupted (raw : Bytes) : List Act :=
  [.begin_ (oneMessage raw), .next, .stop, .begin_ (oneMessage raw), .next]

def named : Bytes := Bytes.ofText "From: a\r\nMessage-ID: <i@a>\r\n\r\n"

def unnamed : Bytes := Bytes.ofText "From: a\r\n\r\n"

/-- As the parser reads the two. -/
def reads : Mailparse where
  parseHeaders := fun raw => if raw = named then some "<i@a>" else none
  parseMail := fun raw => if raw = named then some (some "<i@a>") else some none

/-- With a Message-ID it is stored once. -/
theorem named_stored_once : ∃ s committed,
    Runs.run (watched (step id reads) sees) (start Bytes [] .keep, []) (interrupted named) =
      some (s, committed) ∧ committed.Nodup :=
  have hsafe : AllSteps (watched (step id reads) sees) (fun x a => Safe id reads x.1 a)
      (start Bytes [] .keep, []) (interrupted named) := by decide +kernel
  ⟨_, _, rfl, stored_once hsafe rfl⟩

/-- Without one it is stored twice. -/
theorem stored_twice : ∃ s committed, Runs.run (watched (step id reads) sees) (start Bytes [] .keep, []) (interrupted unnamed) =
      some (s, committed) ∧ ¬ committed.Nodup ∧ s.rows.map StoredRow.raw = [unnamed, unnamed] :=
  ⟨_, _, rfl, by decide +kernel, by decide +kernel⟩

end Oreneta.Pop3

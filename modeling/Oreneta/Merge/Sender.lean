import Oreneta.Lib.Runs
import Oreneta.Merge.Batches

/-!
# Sending a mailing, crashes included

The program around the tables: `spawn_merge` claims a message, `perform_send` writes its attempt
down, marks it as the server answers, and `merge_outcome` says how it settles (`main.rs`).  A crash
may come between any two of these steps; at the restart `mark_interrupted_uncertain`,
`prune_settled` and `recover` run before anything is sent.  `prune_settled` runs with any cutoff, at
any time.

* `sysStep` — every action of the system; `Moves` says once what an action can do to one item, its
  attempt and its sender, and `sysStep_spec` that it does nothing else.
* `gone_never_again` — in every run in which no attempt is pruned while its accepted message is still
  marked as on its way, an item that was ever accepted or uncertain (itself or its attempt) is never
  pending again and never claimed again.
* `pruned_then_pending` — the run on which the code breaks it: the process stops after the server took
  the message, history is pruned, and `recover` finds no attempt and puts the message back in line.
-/

namespace Oreneta.Merge

open Oreneta.Store.Outgoing Oreneta.Runs Table List

/-! ## The answer of a send -/

/-- The signs of a server asking to wait. -/
def deferralSigns : List String :=
  ["421", "450", "451", "452", "4.7.", "rate limit", "too many", "try again later", "throttl"]

/-- Whether a refusal is the server asking to wait; `lower` is `str::to_lowercase`. -/
def isDeferral (lower : String → String) (error : String) : Bool :=
  deferralSigns.any (fun sign => Text.contains (lower error).toList sign.toList)

/-- Where the sending of a claimed message stands. -/
inductive Phase where
  | claimed
  /-- `perform_send` failed before it wrote the attempt down. -/
  | failed (error : String)
  /-- An earlier attempt may have gone: nothing is sent. -/
  | alreadyAttempted (state : AttemptState) (error : String)
  | begun
  | accepted
  | archived
  | archiveFailed
  | rejected (error : String)
  | uncertain (error : String)
  deriving DecidableEq, Repr

/-- How a message settles from the answer of its send (`scheduled_outcome_of`, `merge_outcome`);
`none` while there is no answer yet. -/
def mergeOutcome (lower : String → String) : Phase → Option Outcome
  | .accepted | .archived | .archiveFailed => some .accepted
  | .uncertain e => some (.uncertain e)
  | .alreadyAttempted .accepted _ | .alreadyAttempted .archived _ => some .accepted
  | .alreadyAttempted .sending _ => some (.uncertain "another send of this message was under way")
  | .alreadyAttempted _ e =>
    some (.uncertain (if e = "" then "an earlier try of this message may already have gone" else e))
  | .failed e | .rejected e => some (if isDeferral lower e then .deferred e else .rejected e)
  | .claimed | .begun => none

/-! ## The system -/

/-- A claimed message with its sender. -/
structure Sending where
  batchId : String
  index : Nat
  messageId : String
  phase : Phase
  deriving DecidableEq, Repr

def Sending.key (x : Sending) : String × Nat := (x.batchId, x.index)

/-- The tables, the senders at work, and whether the program is up. -/
structure Sys where
  db : Db
  senders : List Sending
  up : Bool
  deriving DecidableEq, Repr

def Sys.init : Sys := ⟨Db.empty, [], true⟩

inductive Act where
  | create (id account fromAddr subjectTemplate : String) (preview : Preview) (reviewed : Nat)
      (spacing now : Int)
  | claimNext (id : String) (now : Int)
  | beginAttempt (k : String × Nat) (account : String) (request : SendRequest) (now : Int)
  | fail (k : String × Nat) (error : String)
  | markAccepted (k : String × Nat) (now : Int)
  | markArchived (k : String × Nat) (now : Int)
  | markArchiveFailed (k : String × Nat) (error : String) (now : Int)
  | markRejected (k : String × Nat) (error : String) (now : Int)
  | markUncertain (k : String × Nat) (error : String) (now : Int)
  | settle (k : String × Nat) (now : Int)
  | cancel (id : String) (now : Int)
  | resume (id : String) (retryRejected : Bool)
  | pruneSettled (before : Int)
  | crash
  | markInterrupted (now : Int)
  | recover (now : Int)
  deriving Repr

/-- The sender of a claimed message writes its attempt and goes on to its next phase. -/
def Sys.advance (s : Sys) (k : String × Nat) (phase : Phase) (attempts : Attempts) : Sys :=
  { s with
    db := { s.db with attempts }
    senders := Table.update (fun x => x.key = k) (fun x => { x with phase }) s.senders }

/-- The sender of message `k`, if it has reached phase `p`, makes its next step `f`. -/
def Sys.inPhase (s : Sys) (k : String × Nat) (p : Phase) (f : String → Sys) : Option Sys :=
  match Table.lookup Sending.key s.senders k with
  | some x => if x.phase = p then some (f x.messageId) else none
  | none => none

/-- `perform_send` up to `begin_attempt`: an earlier attempt that may have gone is not repeated. -/
def Sys.beginSend (s : Sys) (k : String × Nat) (account : String) (request : SendRequest) (now : Int)
    (m : String) : Sys :=
  match attempt s.db.attempts m with
  | some earlier =>
    if earlier.state.mayHaveGone then
      s.advance k (.alreadyAttempted earlier.state earlier.error) s.db.attempts
    else s.advance k .begun (beginAttempt s.db.attempts m account .now m request now)
  | none => s.advance k .begun (beginAttempt s.db.attempts m account .now m request now)

/-- One action; `none` when it cannot be taken. -/
def sysStep (lower : String → String) (s : Sys) : Act → Option Sys
  | .create id account fromAddr template preview reviewed spacing now =>
    if s.up then
      match create s.db id account fromAddr template preview reviewed spacing now with
      | .ok db => some { s with db }
      | .error _ => some s
    else none
  | .claimNext id now =>
    if s.up then
      match claimNext s.db id now with
      | (some item, db) =>
        some { s with
          db
          senders := s.senders ++ [⟨item.batchId, item.index, item.messageId, .claimed⟩] }
      | (none, db) => some { s with db }
    else none
  | .beginAttempt k account request now => s.inPhase k .claimed (s.beginSend k account request now)
  | .fail k error => s.inPhase k .claimed fun _ => s.advance k (.failed error) s.db.attempts
  | .markAccepted k now =>
    s.inPhase k .begun fun m => s.advance k .accepted (markAccepted s.db.attempts m now)
  | .markArchived k now =>
    s.inPhase k .accepted fun m => s.advance k .archived (markArchived s.db.attempts m now)
  | .markArchiveFailed k error now =>
    s.inPhase k .accepted fun m =>
      s.advance k .archiveFailed (markArchiveFailed s.db.attempts m error now)
  | .markRejected k error now =>
    s.inPhase k .begun fun m =>
      s.advance k (.rejected error) (markRejected s.db.attempts m error now)
  | .markUncertain k error now =>
    s.inPhase k .begun fun m =>
      s.advance k (.uncertain error) (markUncertain s.db.attempts m error now)
  | .settle k now =>
    match Table.lookup Sending.key s.senders k with
    | some x =>
      match mergeOutcome lower x.phase with
      | some outcome =>
        some { s with
          db := settle s.db k.1 k.2 outcome now
          senders := s.senders.filter (fun y => !decide (y.key = k)) }
      | none => none
    | none => none
  | .cancel id now => if s.up then some { s with db := cancel s.db id now } else none
  | .resume id retryRejected =>
    if s.up then
      match resume s.db id retryRejected with
      | .ok db => some { s with db }
      | .error _ => some s
    else none
  | .pruneSettled before =>
    some { s with db := { s.db with attempts := pruneSettled s.db.attempts before } }
  | .crash => some { s with senders := [], up := false }
  | .markInterrupted now =>
    if s.up then none
    else some { s with db := { s.db with attempts := markInterruptedUncertain s.db.attempts now } }
  | .recover now =>
    if s.up then none else some { s with db := (recover s.db now).2, up := true }

/-! ## What the claim is about -/

/-- The item under `k` is accepted or uncertain, or its attempt is. -/
def MarkedGone (s : Sys) (k : String × Nat) : Prop :=
  ∃ i ∈ s.db.items, i.key = k ∧
    (i.state = .accepted ∨ i.state = .uncertain ∨
      stateOf s.db.attempts i.messageId = some .accepted ∨
      stateOf s.db.attempts i.messageId = some .uncertain)

/-- The item under `k` waits its turn. -/
def IsPending (s : Sys) (k : String × Nat) : Prop :=
  ∃ i ∈ s.db.items, i.key = k ∧ i.state = .pending

instance (s : Sys) (k : String × Nat) : Decidable (MarkedGone s k) :=
  inferInstanceAs (Decidable (∃ i ∈ s.db.items, i.key = k ∧
    (i.state = .accepted ∨ i.state = .uncertain ∨
      stateOf s.db.attempts i.messageId = some .accepted ∨
      stateOf s.db.attempts i.messageId = some .uncertain)))

instance (s : Sys) (k : String × Nat) : Decidable (IsPending s k) :=
  inferInstanceAs (Decidable (∃ i ∈ s.db.items, i.key = k ∧ i.state = .pending))

/-- A preview of one message, ready to go. -/
def oneMessage : Preview :=
  ⟨[⟨0, 1, "ana@example.com", "Ana", "Hello", "Hello Ana", []⟩], [], true⟩

/-- The message is claimed, its attempt written down, and the server takes it. -/
def acceptedRun : List Act :=
  [.create "m" "acct" "me@example.com" "Hello" oneMessage 1 3 0, .claimNext "m" 1,
    .beginAttempt ("m", 0) "acct" ⟨"Hello", "ana@example.com", "{}"⟩ 2, .markAccepted ("m", 0) 3]

/-- **A message the server took is put back in line**: the program stops before the mailing is told,
and at the restart history is pruned before `recover` looks for the attempt. -/
theorem pruned_then_pending : ∃ s t, run (sysStep id) Sys.init acceptedRun = some s ∧ MarkedGone s ("m", 0) ∧
      run (sysStep id) s [.crash, .markInterrupted 100, .pruneSettled 50, .recover 100] = some t ∧
      IsPending t ("m", 0) := by
  exact ⟨_, _, rfl, by decide, rfl, by decide⟩

/-! ## What an action can do to one item -/

/-- One item as the system sees it: its row, its attempt and its sender. -/
structure View where
  item : ItemState
  attempt : Option AttemptState
  phase : Option Phase

def view (s : Sys) (i : Item) : View :=
  ⟨i.state, stateOf s.db.attempts i.messageId,
    (Table.lookup Sending.key s.senders i.key).map (·.phase)⟩

/-- The item an attempt belongs to has not gone: there is none, or it was refused. -/
def NotGone (a : Option AttemptState) : Prop := a = none ∨ a = some .rejected

/-- Everything an action can do to an item's row, attempt and sender; the flags say whether the
program is up before and after. -/
inductive Moves (lower : String → String) : Bool → Bool → View → View → Prop where
  | stay (u : Bool) (v : View) : Moves lower u u v v
  | claim (a : Option AttemptState) :
      Moves lower true true ⟨.pending, a, none⟩ ⟨.sending, a, some .claimed⟩
  | begin (u : Bool) (st : ItemState) (a : Option AttemptState) (h : ∀ x, a = some x → ¬ x.mayHaveGone) :
      Moves lower u u ⟨st, a, some .claimed⟩ ⟨st, some .sending, some .begun⟩
  | already (u : Bool) (st : ItemState) (x : AttemptState) (e : String) (h : x.mayHaveGone) :
      Moves lower u u ⟨st, some x, some .claimed⟩ ⟨st, some x, some (.alreadyAttempted x e)⟩
  | fail (u : Bool) (st : ItemState) (a : Option AttemptState) (e : String) :
      Moves lower u u ⟨st, a, some .claimed⟩ ⟨st, a, some (.failed e)⟩
  | accept (u : Bool) (st : ItemState) (a : Option AttemptState) :
      Moves lower u u ⟨st, a, some .begun⟩ ⟨st, a.map (fun _ => .accepted), some .accepted⟩
  | archive (u : Bool) (st : ItemState) (a : Option AttemptState) :
      Moves lower u u ⟨st, a, some .accepted⟩ ⟨st, a.map (fun _ => .archived), some .archived⟩
  | archiveFail (u : Bool) (st : ItemState) (a : Option AttemptState) :
      Moves lower u u ⟨st, a, some .accepted⟩ ⟨st, a, some .archiveFailed⟩
  | reject (u : Bool) (st : ItemState) (a : Option AttemptState) (e : String) :
      Moves lower u u ⟨st, a, some .begun⟩ ⟨st, a.map (fun _ => .rejected), some (.rejected e)⟩
  | doubt (u : Bool) (st : ItemState) (a : Option AttemptState) (e : String) :
      Moves lower u u ⟨st, a, some .begun⟩ ⟨st, a.map (fun _ => .uncertain), some (.uncertain e)⟩
  | settle (u : Bool) (st : ItemState) (a : Option AttemptState) (p : Phase) (o : Outcome)
      (h : mergeOutcome lower p = some o) :
      Moves lower u u ⟨st, a, some p⟩ ⟨o.itemState, a, none⟩
  | cancel (u : Bool) (a : Option AttemptState) (p : Option Phase) :
      Moves lower u u ⟨.pending, a, p⟩ ⟨.cancelled, a, p⟩
  | retry (u : Bool) (a : Option AttemptState) (p : Option Phase) :
      Moves lower u u ⟨.rejected, a, p⟩ ⟨.pending, a, p⟩
  /-- Pruning; not of an accepted message that is still marked as on its way. -/
  | prune (u : Bool) (st : ItemState) (x : AttemptState) (p : Option Phase)
      (h : st = .sending → x ≠ .accepted ∧ x ≠ .archived)
      (hx : x ≠ .sending ∧ x ≠ .uncertain) : Moves lower u u ⟨st, some x, p⟩ ⟨st, none, p⟩
  | crash (u : Bool) (st : ItemState) (a : Option AttemptState) (p : Option Phase) :
      Moves lower u false ⟨st, a, p⟩ ⟨st, a, none⟩
  | interrupt (st : ItemState) (p : Option Phase) :
      Moves lower false false ⟨st, some .sending, p⟩ ⟨st, some .uncertain, p⟩
  | recover (a : Option AttemptState) (p : Option Phase) (now : Int) (i : Item) :
      Moves lower false true ⟨.sending, a, p⟩ ⟨(recoverRow now a i).state, a, p⟩
  | restart (st : ItemState) (a : Option AttemptState) (p : Option Phase) (h : st ≠ .sending) :
      Moves lower false true ⟨st, a, p⟩ ⟨st, a, p⟩

/-- What each phase of a sender has left in its attempt. -/
def Phase.leaves : Phase → Option AttemptState → Prop
  | .claimed, a | .failed _, a | .rejected _, a => NotGone a
  | .begun, a => a = some .sending
  | .accepted, a | .archiveFailed, a => a = some .accepted
  | .archived, a => a = some .archived
  | .uncertain _, a => a = some .uncertain
  | .alreadyAttempted _ _, _ => False

/-- The invariant of one item: a message in line, refused or cancelled has not gone, and one on its
way, while the program is up, has a sender whose phase its attempt reflects. -/
def View.Ok (up : Bool) (v : View) : Prop :=
  match v.item with
  | .pending | .rejected | .cancelled => NotGone v.attempt ∧ v.phase = none
  | .sending =>
    match v.phase with
    | some p => up = true ∧ p.leaves v.attempt
    | none => up = false
  | .accepted | .uncertain => v.phase = none

/-- The item has gone, or may have, and its row or its attempt says so. -/
def View.Sealed (v : View) : Prop :=
  v.item = .accepted ∨ v.item = .uncertain ∨
    (v.item = .sending ∧
      (v.attempt = some .accepted ∨ v.attempt = some .archived ∨ v.attempt = some .uncertain))

variable {a : Option AttemptState} {p : Phase}

/-- An item with a sender is on its way, and its attempt reflects the sender's phase. -/
theorem View.Ok.sender {u : Bool} {st : ItemState}
    (h : (View.mk st a (some p)).Ok u) : st = .sending ∧ u = true ∧ p.leaves a := by
  cases st with
  | sending => exact ⟨rfl, h.1, h.2⟩
  | pending => cases h.2
  | rejected => cases h.2
  | cancelled => cases h.2
  | accepted => cases h
  | uncertain => cases h

theorem View.Ok.of_leaves (h : p.leaves a) : (View.mk .sending a (some p)).Ok true := ⟨rfl, h⟩

/-- A message that settles as refused or deferred has not gone; any other answer is kept as
accepted or uncertain. -/
theorem mergeOutcome_leaves {lower : String → String} {o : Outcome} (h : mergeOutcome lower p = some o) (hl : p.leaves a) :
    (o.itemState = .accepted ∨ o.itemState = .uncertain) ∨
      ((o.itemState = .pending ∨ o.itemState = .rejected) ∧ NotGone a) := by
  cases p with
  | claimed => cases h
  | begun => cases h
  | accepted => cases h; exact .inl (.inl rfl)
  | archived => cases h; exact .inl (.inl rfl)
  | archiveFailed => cases h; exact .inl (.inl rfl)
  | uncertain e => cases h; exact .inl (.inr rfl)
  | alreadyAttempted x e => cases hl
  | failed e =>
    simp only [mergeOutcome, Option.some.injEq] at h
    subst h
    refine .inr ⟨?_, hl⟩
    split
    · exact .inl rfl
    · exact .inr rfl
  | rejected e =>
    simp only [mergeOutcome, Option.some.injEq] at h
    subst h
    refine .inr ⟨?_, hl⟩
    split
    · exact .inl rfl
    · exact .inr rfl

/-- What `recover` makes of a message on its way: refused or in line again only if it has not
gone. -/
theorem recoverRow_state (now : Int) (a : Option AttemptState) (i : Item) :
    ((recoverRow now a i).state = .accepted ∨ (recoverRow now a i).state = .uncertain) ∨
      (((recoverRow now a i).state = .pending ∨ (recoverRow now a i).state = .rejected) ∧
        NotGone a) := by
  unfold recoverRow
  split
  · exact .inl (.inl rfl)
  · exact .inl (.inl rfl)
  · exact .inr ⟨.inr rfl, .inr rfl⟩
  · exact .inr ⟨.inl rfl, .inl rfl⟩
  · exact .inl (.inr rfl)
  · exact .inl (.inr rfl)
  · exact .inl (.inr rfl)

/-- A settled item keeps the invariant whatever the program does next. -/
theorem View.Ok.of_settled {u : Bool} {st : ItemState}
    (h : (st = .accepted ∨ st = .uncertain) ∨ ((st = .pending ∨ st = .rejected) ∧ NotGone a)) : (View.mk st a none).Ok u := by
  rcases h with (rfl | rfl) | ⟨rfl | rfl, hn⟩
  · rfl
  · rfl
  · exact ⟨hn, rfl⟩
  · exact ⟨hn, rfl⟩

theorem NotGone.map_rejected : NotGone (a.map (fun _ => AttemptState.rejected)) := by
  cases a
  · exact .inl rfl
  · exact .inr rfl

/-- **Every action keeps the invariant of every item.** -/
theorem Moves.ok {lower : String → String} {u u' : Bool} {v v' : View} (h : Moves lower u u' v v') (hv : v.Ok u) : v'.Ok u' := by
  cases h with
  | stay => exact hv
  | claim a => exact View.Ok.of_leaves hv.1
  | begin _ st a _ =>
    obtain ⟨rfl, rfl, _⟩ := hv.sender
    exact View.Ok.of_leaves rfl
  | already _ st x e hx =>
    -- a claimed message's attempt has not gone, so this answer is never given
    obtain ⟨_, _, hl⟩ := hv.sender
    rcases hl with hl | hl
    · cases hl
    · cases hl; cases hx
  | fail _ st a e =>
    obtain ⟨rfl, rfl, hl⟩ := hv.sender
    exact View.Ok.of_leaves hl
  | accept _ st a =>
    obtain ⟨rfl, rfl, hl⟩ := hv.sender
    rw [show a = some .sending from hl]
    exact View.Ok.of_leaves rfl
  | archive _ st a =>
    obtain ⟨rfl, rfl, hl⟩ := hv.sender
    rw [show a = some .accepted from hl]
    exact View.Ok.of_leaves rfl
  | archiveFail _ st a =>
    obtain ⟨rfl, rfl, hl⟩ := hv.sender
    exact View.Ok.of_leaves hl
  | reject _ st a e =>
    obtain ⟨rfl, rfl, hl⟩ := hv.sender
    exact View.Ok.of_leaves NotGone.map_rejected
  | doubt _ st a e =>
    obtain ⟨rfl, rfl, hl⟩ := hv.sender
    rw [show a = some .sending from hl]
    exact View.Ok.of_leaves rfl
  | settle _ st a p o ho =>
    obtain ⟨_, _, hl⟩ := hv.sender
    exact View.Ok.of_settled (mergeOutcome_leaves ho hl)
  | cancel _ a p => exact hv
  | retry _ a p => exact hv
  | prune _ st x p hsend hx =>
    cases st with
    | sending =>
      cases p with
      | none => exact hv
      | some p =>
        obtain ⟨hne, hne'⟩ := hsend rfl
        refine ⟨hv.1, ?_⟩
        have hl := hv.2
        cases p with
        | claimed => exact .inl rfl
        | failed e => exact .inl rfl
        | rejected e => exact .inl rfl
        | begun => cases hl; exact absurd rfl hx.1
        | accepted => cases hl; exact absurd rfl hne
        | archiveFailed => cases hl; exact absurd rfl hne
        | archived => cases hl; exact absurd rfl hne'
        | uncertain e => cases hl; exact absurd rfl hx.2
        | alreadyAttempted x e => cases hl
    | pending => exact ⟨.inl rfl, hv.2⟩
    | rejected => exact ⟨.inl rfl, hv.2⟩
    | cancelled => exact ⟨.inl rfl, hv.2⟩
    | accepted => exact hv
    | uncertain => exact hv
  | crash _ st a p =>
    cases st with
    | sending => rfl
    | pending => exact ⟨hv.1, rfl⟩
    | rejected => exact ⟨hv.1, rfl⟩
    | cancelled => exact ⟨hv.1, rfl⟩
    | accepted => rfl
    | uncertain => rfl
  | interrupt st p =>
    cases st with
    | sending =>
      cases p with
      | none => rfl
      | some p => cases hv.1
    | pending => rcases hv.1 with h | h <;> cases h
    | rejected => rcases hv.1 with h | h <;> cases h
    | cancelled => rcases hv.1 with h | h <;> cases h
    | accepted => exact hv
    | uncertain => exact hv
  | recover a p now i =>
    cases p with
    | none => exact View.Ok.of_settled (recoverRow_state now a i)
    | some p => cases hv.1
  | restart st a p hne =>
    cases st with
    | sending => exact absurd rfl hne
    | pending => exact hv
    | rejected => exact hv
    | cancelled => exact hv
    | accepted => exact hv
    | uncertain => exact hv

theorem NotGone.not_sealed {st : ItemState} {p : Option Phase}
    (hs : (View.mk st a p).Sealed) (hst : st = .sending) : ¬ NotGone a := by
  subst hst
  rcases hs with h | h | ⟨_, h⟩
  · cases h
  · cases h
  · rintro (rfl | rfl)
    · rcases h with h | h | h <;> cases h
    · rcases h with h | h | h <;> cases h

/-- **What has gone, or may have, stays so**: no action puts such an item back in line. -/
theorem Moves.seal {lower : String → String} {u u' : Bool} {v v' : View} (h : Moves lower u u' v v')
    (hv : v.Ok u) (hs : v.Sealed) : v'.Sealed := by
  cases h with
  | stay => exact hs
  | claim a => rcases hs with h | h | ⟨h, _⟩ <;> cases h
  | begin _ st a _ =>
    obtain ⟨rfl, _, hl⟩ := hv.sender
    exact absurd hl (NotGone.not_sealed hs rfl)
  | already => exact hs
  | fail => exact hs
  | accept _ st a =>
    obtain ⟨rfl, _, hl⟩ := hv.sender
    rw [show a = some .sending from hl]
    exact .inr (.inr ⟨rfl, .inl rfl⟩)
  | archive _ st a =>
    obtain ⟨rfl, _, hl⟩ := hv.sender
    rw [show a = some .accepted from hl]
    exact .inr (.inr ⟨rfl, .inr (.inl rfl)⟩)
  | archiveFail => exact hs
  | reject _ st a e =>
    obtain ⟨rfl, _, hl⟩ := hv.sender
    rw [show a = some .sending from hl] at hs
    rcases hs with h | h | ⟨_, h | h | h⟩ <;> cases h
  | doubt _ st a e =>
    obtain ⟨rfl, _, hl⟩ := hv.sender
    rw [show a = some .sending from hl]
    exact .inr (.inr ⟨rfl, .inr (.inr rfl)⟩)
  | settle _ st a p o ho =>
    obtain ⟨rfl, _, hl⟩ := hv.sender
    rcases mergeOutcome_leaves ho hl with (h | h) | ⟨_, hn⟩
    · exact .inl h
    · exact .inr (.inl h)
    · exact absurd hn (NotGone.not_sealed hs rfl)
  | cancel => rcases hs with h | h | ⟨h, _⟩ <;> cases h
  | retry => rcases hs with h | h | ⟨h, _⟩ <;> cases h
  | prune _ st x p hsend hx =>
    rcases hs with h | h | ⟨h, hg⟩
    · exact .inl h
    · exact .inr (.inl h)
    · obtain ⟨hne, hne'⟩ := hsend h
      rcases hg with hg | hg | hg
      · exact absurd (Option.some.inj hg) hne
      · exact absurd (Option.some.inj hg) hne'
      · exact absurd (Option.some.inj hg) hx.2
  | crash => exact hs
  | interrupt st p =>
    rcases hs with h | h | ⟨h, hg⟩
    · exact .inl h
    · exact .inr (.inl h)
    · exact .inr (.inr ⟨h, .inr (.inr rfl)⟩)
  | recover a p now i =>
    rcases recoverRow_state now a i with (h | h) | ⟨_, hn⟩
    · exact .inl h
    · exact .inr (.inl h)
    · exact absurd hn (NotGone.not_sealed hs rfl)
  | restart => exact hs

/-! ## The rows and the senders -/

/-- What ties items, attempts and senders together. -/
structure Shape (s : Sys) : Prop where
  itemsKeyed : Keyed Item.key s.db.items
  attemptsKeyed : Keyed OutgoingAttempt.id s.db.attempts
  sendersKeyed : Keyed Sending.key s.senders
  named : ∀ i ∈ s.db.items, ∃ d : String, '@' ∉ d.toList ∧
    i.messageId = messageIdOf i.batchId i.index d
  attemptsOwned : ∀ a ∈ s.db.attempts, ∃ i ∈ s.db.items, i.messageId = a.id
  senderOf : ∀ x ∈ s.senders, ∃ i ∈ s.db.items, i.key = x.key ∧ i.messageId = x.messageId

theorem Shape.init : Shape Sys.init :=
  ⟨by simp [Keyed, Sys.init, Db.empty], by simp [Keyed, Sys.init, Db.empty],
    by simp [Keyed, Sys.init], by simp [Sys.init, Db.empty], by simp [Sys.init, Db.empty],
    by simp [Sys.init]⟩

/-- Two items with one Message-ID are one item. -/
theorem Shape.key_of_messageId {s : Sys} (h : Shape s) {i j : Item} (hi : i ∈ s.db.items)
    (hj : j ∈ s.db.items) (he : i.messageId = j.messageId) : i.key = j.key := by
  obtain ⟨d, hd, hid⟩ := h.named i hi
  obtain ⟨d', hd', hjd⟩ := h.named j hj
  rw [hid, hjd] at he
  obtain ⟨h1, h2⟩ := messageId_inj hd hd' he
  exact Prod.ext h1 h2

variable {k : String × Nat}

/-- The sender of an item sends under the item's Message-ID, and under no other item's. -/
theorem Shape.messageId_iff {s : Sys} (h : Shape s) {x : Sending}
    (hx : Table.lookup Sending.key s.senders k = some x) {j : Item} (hj : j ∈ s.db.items) :
    j.messageId = x.messageId ↔ j.key = k := by
  obtain ⟨hmem, hk⟩ := lookup_some hx
  obtain ⟨i, hi, hik, him⟩ := h.senderOf x hmem
  refine ⟨fun hjm => ?_, fun hjk => ?_⟩
  · rw [h.key_of_messageId hj hi (hjm.trans him.symm), hik, hk]
  · have : j = i := inj_on_of_nodup_map h.itemsKeyed hj hi (by rw [hjk, hik, hk])
    rw [this, him]

/-- Every item of `s` is in `t`, where it has moved as one action can move it; what is new in `t` is
in line and untouched. -/
def Tracks (lower : String → String) (s t : Sys) : Prop :=
  (∀ i ∈ s.db.items, ∃ j ∈ t.db.items, j.key = i.key ∧ Moves lower s.up t.up (view s i) (view t j)) ∧
    ∀ j ∈ t.db.items, (∃ i ∈ s.db.items, i.key = j.key) ∨ view t j = ⟨.pending, none, none⟩

section Rewriting

variable {lower : String → String} {s t : Sys} {f : Item → Item}

/-- An action that rewrites items in place. -/
theorem tracks_of_map (hkey : ∀ i, (f i).key = i.key) (hi : t.db.items = s.db.items.map f)
    (hm : ∀ i ∈ s.db.items, Moves lower s.up t.up (view s i) (view t (f i))) : Tracks lower s t := by
  refine ⟨fun i hmem => ⟨f i, ?_, hkey i, hm i hmem⟩, fun j hj => .inl ?_⟩
  · rw [hi]
    exact mem_map_of_mem hmem
  · rw [hi] at hj
    obtain ⟨i, hmem, rfl⟩ := mem_map.mp hj
    exact ⟨i, hmem, (hkey i).symm⟩

/-- An action that leaves the items alone. -/
theorem tracks_of_same (hi : t.db.items = s.db.items)
    (hm : ∀ i ∈ s.db.items, Moves lower s.up t.up (view s i) (view t i)) : Tracks lower s t :=
  tracks_of_map (f := id) (fun _ => rfl) (by simpa using hi) hm

theorem Shape.of_map (h : Shape s) (hkey : ∀ i, (f i).key = i.key)
    (hmid : ∀ i, (f i).messageId = i.messageId) (hi : t.db.items = s.db.items.map f)
    (ha : Keyed OutgoingAttempt.id t.db.attempts) (hao : ∀ a ∈ t.db.attempts, ∃ i ∈ s.db.items, i.messageId = a.id)
    (hs : Keyed Sending.key t.senders) (hso : ∀ x ∈ t.senders, ∃ i ∈ s.db.items, i.key = x.key ∧ i.messageId = x.messageId) :
    Shape t := by
  refine ⟨?_, ha, hs, ?_, ?_, ?_⟩
  · unfold Keyed
    rw [hi, map_map]
    have : Item.key ∘ f = Item.key := by funext i; exact hkey i
    rw [this]
    exact h.itemsKeyed
  · intro j hj
    rw [hi] at hj
    obtain ⟨i, hmem, rfl⟩ := mem_map.mp hj
    obtain ⟨d, hd, hname⟩ := h.named i hmem
    refine ⟨d, hd, ?_⟩
    have hb : (f i).batchId = i.batchId := congrArg Prod.fst (hkey i)
    have hx : (f i).index = i.index := congrArg Prod.snd (hkey i)
    rw [hmid, hname, hb, hx]
  · intro a hmem
    obtain ⟨i, hi', him⟩ := hao a hmem
    exact ⟨f i, by rw [hi]; exact mem_map_of_mem hi', by rw [hmid, him]⟩
  · intro x hmem
    obtain ⟨i, hi', hik, him⟩ := hso x hmem
    exact ⟨f i, by rw [hi]; exact mem_map_of_mem hi', by rw [hkey, hik], by rw [hmid, him]⟩

end Rewriting

/-- A sender goes on to its next phase: nothing but its own item's attempt and phase change. -/
theorem view_advance {s : Sys} (h : Shape s) {x : Sending}
    {attempts : Attempts} (hx : Table.lookup Sending.key s.senders k = some x)
    (hother : ∀ m, m ≠ x.messageId → stateOf attempts m = stateOf s.db.attempts m) {i : Item} (hi : i ∈ s.db.items) :
    view (s.advance k p attempts) i =
      if i.key = k then ⟨i.state, stateOf attempts x.messageId, some p⟩ else view s i := by
  have hphase : (Table.lookup Sending.key (s.advance k p attempts).senders i.key).map (·.phase) =
      if i.key = k then some p else (Table.lookup Sending.key s.senders i.key).map (·.phase) := by
    unfold Sys.advance
    simp only
    rw [lookup_update (by intro y; rfl), Option.map_map]
    by_cases hk : i.key = k
    · rw [if_pos hk, hk, hx]
      have hxk := (lookup_some hx).2
      simp [hxk]
    · rw [if_neg hk]
      cases hl : Table.lookup Sending.key s.senders i.key with
      | none => rfl
      | some y =>
        have hyk : ¬ y.key = k := by rw [(lookup_some hl).2]; exact hk
        simp [hyk]
  unfold view
  rw [hphase]
  by_cases hk : i.key = k
  · have him := (h.messageId_iff hx hi).mpr hk
    simp [hk, Sys.advance, him]
  · have him : i.messageId ≠ x.messageId := fun he => hk ((h.messageId_iff hx hi).mp he)
    simp [hk, Sys.advance, hother _ him]

/-- One step of a sender: what it does to its own item is the move `hm`, and it keeps the shape. -/
theorem advance_spec {lower : String → String} {s : Sys} (h : Shape s) {x : Sending} {attempts : Attempts}
    (hx : Table.lookup Sending.key s.senders k = some x) (hkeyed : Keyed OutgoingAttempt.id attempts)
    (hids : ∀ a ∈ attempts, a.id = x.messageId ∨ ∃ b ∈ s.db.attempts, b.id = a.id)
    (hother : ∀ m, m ≠ x.messageId → stateOf attempts m = stateOf s.db.attempts m)
    (hm : ∀ st, Moves lower s.up s.up ⟨st, stateOf s.db.attempts x.messageId, some x.phase⟩
      ⟨st, stateOf attempts x.messageId, some p⟩) : Shape (s.advance k p attempts) ∧ Tracks lower s (s.advance k p attempts) := by
  obtain ⟨hmem, hxk⟩ := lookup_some hx
  obtain ⟨i₀, hi₀, hik, him⟩ := h.senderOf x hmem
  refine ⟨h.of_map (f := id) (fun _ => rfl) (fun _ => rfl) (by simp [Sys.advance]) hkeyed ?_ ?_ ?_, ?_⟩
  · intro a ha
    rcases hids a ha with hid | ⟨b, hb, hbid⟩
    · exact ⟨i₀, hi₀, by rw [him, hid]⟩
    · obtain ⟨i, hi, hib⟩ := h.attemptsOwned b hb
      exact ⟨i, hi, by rw [hib, hbid]⟩
  · exact h.sendersKeyed.update (by intro y; rfl)
  · intro y hy
    obtain ⟨z, hz, rfl⟩ := mem_update.mp hy
    obtain ⟨i, hi, h1, h2⟩ := h.senderOf z hz
    refine ⟨i, hi, ?_, ?_⟩
    · split
      · exact h1
      · exact h1
    · split
      · exact h2
      · exact h2
  · refine tracks_of_same rfl fun i hi => ?_
    rw [view_advance h hx hother hi]
    by_cases hk : i.key = k
    · rw [if_pos hk]
      have hv : view s i = ⟨i.state, stateOf s.db.attempts x.messageId, some x.phase⟩ := by
        unfold view
        rw [hk, hx, (h.messageId_iff hx hi).mpr hk]
        rfl
      rw [hv]
      exact hm i.state
    · rw [if_neg hk]
      exact Moves.stay _ _

theorem inPhase_some {s t : Sys} {f : String → Sys} (h : s.inPhase k p f = some t) :
    ∃ x, Table.lookup Sending.key s.senders k = some x ∧ x.phase = p ∧ t = f x.messageId := by
  unfold Sys.inPhase at h
  split at h
  · rename_i x hx
    split at h
    · rename_i hp
      cases h
      exact ⟨x, hx, hp, rfl⟩
    · cases h
  · cases h

/-! ## Action by action -/

/-- The condition on a step: pruning forgets no attempt of an accepted message that the mailing
still has as on its way. -/
def PruneSafe (s : Sys) : Act → Prop
  | .pruneSettled before =>
    ∀ i ∈ s.db.items, i.state = .sending → ∀ a ∈ attempt s.db.attempts i.messageId,
      a.state = .accepted ∨ a.state = .archived → prunable before a = false
  | _ => True

section Actions

variable {lower : String → String} {s t : Sys}

variable {x : Sending} {k : String × Nat}

/-- Marking the attempt of the message a sender is at. -/
theorem mark_spec (h : Shape s) {p : Phase} {st' : AttemptState}
    {f : OutgoingAttempt → OutgoingAttempt} (hf : ∀ a, (f a).id = a.id) (hst : ∀ a, (f a).state = st')
    (hx : Table.lookup Sending.key s.senders k = some x)
    (hm : ∀ st a, Moves lower s.up s.up ⟨st, a, some x.phase⟩ ⟨st, a.map (fun _ => st'), some p⟩) :
    Shape (s.advance k p (updateById s.db.attempts x.messageId f)) ∧
      Tracks lower s (s.advance k p (updateById s.db.attempts x.messageId f)) := by
  have hkeyed : Keyed OutgoingAttempt.id (updateById s.db.attempts x.messageId f) :=
    h.attemptsKeyed.update hf
  apply advance_spec h hx hkeyed
  · intro a ha
    obtain ⟨b, hb, rfl⟩ := mem_update.mp ha
    refine .inr ⟨b, hb, ?_⟩
    split
    · exact (hf b).symm
    · rfl
  · intro m hne
    rw [stateOf_updateById hf hst, if_neg hne]
  · intro st
    rw [stateOf_updateById hf hst, if_pos rfl]
    exact hm st _

theorem beginSend_spec (h : Shape s) {account : String}
    {request : SendRequest} {now : Int} (hx : Table.lookup Sending.key s.senders k = some x) (hp : x.phase = .claimed) :
    Shape (s.beginSend k account request now x.messageId) ∧
      Tracks lower s (s.beginSend k account request now x.messageId) := by
  -- written down, in place of an earlier attempt that did not go
  have hbegin (hgone : ∀ st, stateOf s.db.attempts x.messageId = some st → ¬ st.mayHaveGone) :
      Shape (s.advance k .begun (beginAttempt s.db.attempts x.messageId account .now x.messageId request now)) ∧
      Tracks lower s (s.advance k .begun (beginAttempt s.db.attempts x.messageId account .now x.messageId request now)) := by
    have hkeyed : Keyed OutgoingAttempt.id (beginAttempt s.db.attempts x.messageId account .now x.messageId request now) :=
      h.attemptsKeyed.insertOrReplace _
    apply advance_spec h hx hkeyed
    · intro a ha
      rcases mem_append.mp ha with ha | ha
      · exact .inr ⟨a, mem_of_mem_filter ha, rfl⟩
      · rw [mem_singleton.mp ha]
        exact .inl rfl
    · intro m hne
      rw [stateOf_beginAttempt, if_neg hne]
    · intro st
      rw [stateOf_beginAttempt, if_pos rfl, hp]
      exact Moves.begin _ st _ hgone
  unfold Sys.beginSend
  split
  · rename_i earlier he
    have hst : stateOf s.db.attempts x.messageId = some earlier.state := by
      unfold stateOf; rw [he]; rfl
    split
    · rename_i hgone
      apply advance_spec h hx h.attemptsKeyed
      · exact fun a ha => .inr ⟨a, ha, rfl⟩
      · exact fun _ _ => rfl
      · intro st
        rw [hst, hp]
        exact Moves.already _ st _ _ hgone
    · rename_i hgone
      refine hbegin fun st hs => ?_
      rw [hst] at hs
      cases hs
      exact hgone
  · rename_i he
    refine hbegin fun st hs => ?_
    unfold stateOf at hs
    rw [he] at hs
    cases hs

theorem fail_spec (h : Shape s) {error : String} (hx : Table.lookup Sending.key s.senders k = some x) (hp : x.phase = .claimed) :
    Shape (s.advance k (.failed error) s.db.attempts) ∧
      Tracks lower s (s.advance k (.failed error) s.db.attempts) := by
  apply advance_spec h hx h.attemptsKeyed
  · exact fun a ha => .inr ⟨a, ha, rfl⟩
  · exact fun _ _ => rfl
  · intro st
    rw [hp]
    exact Moves.fail _ st _ _

theorem archiveFailed_spec (h : Shape s) {error : String} {now : Int}
    (hx : Table.lookup Sending.key s.senders k = some x) (hp : x.phase = .accepted) :
    Shape (s.advance k .archiveFailed (markArchiveFailed s.db.attempts x.messageId error now)) ∧
      Tracks lower s (s.advance k .archiveFailed (markArchiveFailed s.db.attempts x.messageId error now)) := by
  have hkeyed : Keyed OutgoingAttempt.id (markArchiveFailed s.db.attempts x.messageId error now) :=
    h.attemptsKeyed.update (by intro a; rfl)
  apply advance_spec h hx hkeyed
  · intro a ha
    obtain ⟨b, hb, rfl⟩ := mem_update.mp ha
    refine .inr ⟨b, hb, ?_⟩
    split <;> rfl
  · exact fun _ _ => stateOf_markArchiveFailed
  · intro st
    rw [stateOf_markArchiveFailed, hp]
    exact Moves.archiveFail _ st _

theorem settle_spec (h : Shape s) {o : Outcome} {now : Int}
    (hx : Table.lookup Sending.key s.senders k = some x) (ho : mergeOutcome lower x.phase = some o) : let t : Sys := { s with
      db := settle s.db k.1 k.2 o now
      senders := s.senders.filter (fun y => !decide (y.key = k)) }
    Shape t ∧ Tracks lower s t := by
  intro t
  have hitems : t.db.items = s.db.items.map (fun i =>
      if decide (i.batchId = k.1 ∧ i.index = k.2) then
        { i with state := o.itemState, error := o.error, updatedAt := now } else i) :=
    settle_items k.2 o
  have hkiff : ∀ i : Item, (i.batchId = k.1 ∧ i.index = k.2) ↔ i.key = k := by
    intro i
    exact ⟨fun hh => Prod.ext hh.1 hh.2, fun hh => by rw [← hh]; exact ⟨rfl, rfl⟩⟩
  have hatt : t.db.attempts = s.db.attempts := settle_attempts k.2 o
  refine ⟨h.of_map (fun i => by split <;> rfl) (fun i => by split <;> rfl) hitems
    (by rw [hatt]; exact h.attemptsKeyed) ?_ (h.sendersKeyed.filter _) ?_, ?_⟩
  · rw [hatt]
    exact h.attemptsOwned
  · exact fun y hy => h.senderOf y (mem_of_mem_filter hy)
  · refine tracks_of_map (fun i => by split <;> rfl) hitems fun i hi => ?_
    have hsend : Table.lookup Sending.key t.senders i.key =
        (Table.lookup Sending.key s.senders i.key).filter (fun y => !decide (y.key = k)) :=
      lookup_filter h.sendersKeyed
    by_cases hk : i.key = k
    · rw [if_pos (by simpa using (hkiff i).mpr hk)]
      have hv : view s i = ⟨i.state, stateOf s.db.attempts i.messageId, some x.phase⟩ := by
        unfold view
        rw [hk, hx]
        rfl
      have hnone : Table.lookup Sending.key t.senders k = none := by
        rw [← hk, hsend, hk, hx]
        simp [Option.filter, (lookup_some hx).2]
      have hv' : view t { i with state := o.itemState, error := o.error, updatedAt := now } =
          ⟨o.itemState, stateOf s.db.attempts i.messageId, none⟩ := by
        unfold view
        rw [show Item.key { i with state := o.itemState, error := o.error, updatedAt := now } = k from hk, hnone, hatt]
        rfl
      rw [hv, hv']
      exact Moves.settle _ _ _ _ _ ho
    · rw [if_neg (by simpa using fun hh => hk ((hkiff i).mp hh))]
      have hv : view t i = view s i := by
        unfold view
        rw [hsend, hatt]
        cases hl : Table.lookup Sending.key s.senders i.key with
        | none => rfl
        | some y =>
          have hyk : ¬ y.key = k := by rw [(lookup_some hl).2]; exact hk
          simp [Option.filter, hyk]
      rw [hv]
      exact Moves.stay _ _

/-- An action that rewrites item rows only. -/
theorem rewrite_spec (h : Shape s) {f : Item → Item} (hkey : ∀ i, (f i).key = i.key)
    (hmid : ∀ i, (f i).messageId = i.messageId) (hi : t.db.items = s.db.items.map f)
    (hatt : t.db.attempts = s.db.attempts) (hsend : t.senders = s.senders)
    (hm : ∀ i ∈ s.db.items, ∀ a p, view s i = ⟨i.state, a, p⟩ →
      Moves lower s.up t.up ⟨i.state, a, p⟩ ⟨(f i).state, a, p⟩) : Shape t ∧ Tracks lower s t := by
  refine ⟨h.of_map hkey hmid hi (by rw [hatt]; exact h.attemptsKeyed)
    (by rw [hatt]; exact h.attemptsOwned) (by rw [hsend]; exact h.sendersKeyed)
    (by rw [hsend]; exact h.senderOf), tracks_of_map hkey hi fun i hmem => ?_⟩
  have hv : view t (f i) = ⟨(f i).state, stateOf s.db.attempts i.messageId,
      (Table.lookup Sending.key s.senders i.key).map (·.phase)⟩ := by
    unfold view
    rw [hatt, hsend, hkey, hmid]
  rw [hv]
  exact hm i hmem _ _ rfl

theorem create_spec (h : Shape s) {id account fromAddr template : String} {preview : Preview}
    {reviewed : Nat} {spacing now : Int} {db : Db}
    (hc : create s.db id account fromAddr template preview reviewed spacing now = .ok db) :
    Shape { s with db } ∧ Tracks lower s { s with db } := by
  obtain ⟨hitems, hatt, hkeyed⟩ := create_ok hc
  -- a new row has a key of its own, so neither an attempt nor a sender can be its
  have hfresh : ∀ m ∈ preview.messages, ∀ i ∈ s.db.items, i.key ≠ (newItem id (domainOf fromAddr) now m).key := by
    intro m hm i hi
    rw [hitems] at hkeyed
    have hd := (nodup_append.mp (by simpa [Keyed] using hkeyed)).2.2
    exact hd _ (mem_map_of_mem hi) _ (by simpa using ⟨m, hm, rfl⟩)
  have hold : ∀ i ∈ s.db.items, i ∈ db.items := by
    intro i hi
    rw [hitems]
    exact mem_append_left _ hi
  refine ⟨⟨hkeyed, by rw [hatt]; exact h.attemptsKeyed, h.sendersKeyed, ?_, ?_, ?_⟩, ?_, ?_⟩
  · intro j hj
    rw [hitems] at hj
    rcases mem_append.mp hj with hj | hj
    · exact h.named j hj
    · obtain ⟨m, _, rfl⟩ := mem_map.mp hj
      exact ⟨domainOf fromAddr, at_notMem_domainOf _, rfl⟩
  · intro a ha
    rw [hatt] at ha
    obtain ⟨i, hi, him⟩ := h.attemptsOwned a ha
    exact ⟨i, hold i hi, him⟩
  · intro x hx
    obtain ⟨i, hi, hik⟩ := h.senderOf x hx
    exact ⟨i, hold i hi, hik⟩
  · intro i hi
    refine ⟨i, hold i hi, rfl, ?_⟩
    have hv : view { s with db } i = view s i := by
      unfold view
      rw [hatt]
    rw [hv]
    exact Moves.stay _ _
  · intro j hj
    rw [hitems] at hj
    rcases mem_append.mp hj with hj | hj
    · exact .inl ⟨j, hj, rfl⟩
    · right
      obtain ⟨m, hm, rfl⟩ := mem_map.mp hj
      have hnoAttempt : stateOf db.attempts (newItem id (domainOf fromAddr) now m).messageId = none := by
        unfold stateOf attempt
        rw [hatt, Option.map_eq_none_iff, lookup_eq_none]
        intro a ha he
        obtain ⟨i, hi, him⟩ := h.attemptsOwned a ha
        obtain ⟨d, hd, hname⟩ := h.named i hi
        have hsame := (hname.symm.trans him).trans he
        obtain ⟨h1, h2⟩ := messageId_inj hd (at_notMem_domainOf _) hsame
        exact hfresh m hm i hi (Prod.ext h1 h2)
      have hnoSender : Table.lookup Sending.key s.senders (newItem id (domainOf fromAddr) now m).key = none := by
        rw [lookup_eq_none]
        intro x hx he
        obtain ⟨i, hi, hik, _⟩ := h.senderOf x hx
        exact hfresh m hm i hi (hik.trans he)
      unfold view
      rw [hnoAttempt, hnoSender]
      rfl

theorem claimNext_spec (h : Shape s) (hok : ∀ i ∈ s.db.items, (view s i).Ok s.up) (hup : s.up = true)
    {item : Item} (hitem : item ∈ s.db.items) (hpend : item.state = .pending) (now : Int) : let t : Sys := { s with
      db := updateItem s.db item.batchId item.index fun i => { i with state := .sending, updatedAt := now }
      senders := s.senders ++ [⟨item.batchId, item.index, item.messageId, .claimed⟩] }
    Shape t ∧ Tracks lower s t := by
  intro t
  have hidle : Table.lookup Sending.key s.senders item.key = none := by
    have hv := hok item hitem
    unfold View.Ok view at hv
    simp only [hpend] at hv
    exact Option.map_eq_none_iff.mp hv.2
  have hsenders : Keyed Sending.key t.senders := by
    apply h.sendersKeyed.append (by simp [Keyed])
    intro x hx y hy he
    rw [mem_singleton.mp hy] at he
    exact lookup_eq_none.mp hidle x hx he
  have hitems : t.db.items = s.db.items.map (fun i =>
      if decide (i.batchId = item.batchId ∧ i.index = item.index) then
        { i with state := .sending, updatedAt := now } else i) := rfl
  refine ⟨h.of_map (fun i => by split <;> rfl) (fun i => by split <;> rfl) hitems h.attemptsKeyed
    h.attemptsOwned hsenders ?_, tracks_of_map (fun i => by split <;> rfl) hitems ?_⟩
  · intro x hx
    rcases mem_append.mp hx with hx | hx
    · exact h.senderOf x hx
    · rw [mem_singleton.mp hx]
      exact ⟨item, hitem, rfl, rfl⟩
  · intro i hi
    have hlook : Table.lookup Sending.key t.senders i.key =
        (Table.lookup Sending.key s.senders i.key).or (Table.lookup Sending.key
          [(⟨item.batchId, item.index, item.messageId, .claimed⟩ : Sending)] i.key) :=
      Table.lookup_append
    by_cases hk : i.key = item.key
    · have hii : i = item := inj_on_of_nodup_map h.itemsKeyed hi hitem hk
      subst hii
      rw [if_pos (by simp)]
      have hv : view s i = ⟨.pending, stateOf s.db.attempts i.messageId, none⟩ := by
        unfold view
        rw [hidle, hpend]
        rfl
      have hv' : view t { i with state := .sending, updatedAt := now } =
          ⟨.sending, stateOf s.db.attempts i.messageId, some .claimed⟩ := by
        unfold view
        rw [show Item.key { i with state := .sending, updatedAt := now } = i.key from rfl, hlook, hidle]
        simp [Table.lookup, Sending.key, Item.key, t]
      rw [hv, hv', show t.up = true from hup]
      exact Moves.claim _
    · have hne : ¬ (i.batchId = item.batchId ∧ i.index = item.index) :=
        fun hh => hk (Prod.ext hh.1 hh.2)
      rw [if_neg (by simpa using hne)]
      have hv : view t i = view s i := by
        have hone : Table.lookup Sending.key
            [(⟨item.batchId, item.index, item.messageId, .claimed⟩ : Sending)] i.key = none := by
          rw [lookup_eq_none]
          intro y hy he
          rw [mem_singleton.mp hy] at he
          exact hk he.symm
        unfold view
        rw [hlook, hone, Option.or_none]
        rfl
      rw [hv]
      exact Moves.stay _ _

theorem pruneSettled_spec (h : Shape s) {before : Int} (hsafe : PruneSafe s (.pruneSettled before)) :
    let t : Sys := { s with db := { s.db with attempts := pruneSettled s.db.attempts before } }
    Shape t ∧ Tracks lower s t := by
  intro t
  refine ⟨h.of_map (f := id) (fun _ => rfl) (fun _ => rfl) (by simp [t]) (h.attemptsKeyed.filter _)
    (fun a ha => h.attemptsOwned a (mem_of_mem_filter ha)) h.sendersKeyed h.senderOf,
    tracks_of_same rfl fun i hi => ?_⟩
  have hatt : attempt t.db.attempts i.messageId =
      (attempt s.db.attempts i.messageId).filter (fun a => !prunable before a) :=
    attempt_pruneSettled h.attemptsKeyed
  unfold view stateOf
  rw [hatt]
  cases ha : attempt s.db.attempts i.messageId with
  | none => exact Moves.stay _ _
  | some a =>
    cases hp : prunable before a with
    | false =>
      rw [show (some a).filter (fun a => !prunable before a) = some a by simp [Option.filter, hp]]
      exact Moves.stay _ _
    | true =>
      rw [show (some a).filter (fun a => !prunable before a) = none by simp [Option.filter, hp]]
      apply Moves.prune
      · intro hst
        constructor
        · intro hacc
          have := hsafe i hi hst a ha (.inl hacc)
          rw [hp] at this
          cases this
        · intro harch
          have := hsafe i hi hst a ha (.inr harch)
          rw [hp] at this
          cases this
      · unfold prunable at hp
        rw [decide_eq_true_eq] at hp
        constructor
        · intro hst
          simp [hst] at hp
        · intro hst
          simp [hst] at hp

theorem crash_spec (h : Shape s) : let t : Sys := { s with senders := [], up := false }
    Shape t ∧ Tracks lower s t := by
  intro t
  refine ⟨h.of_map (f := id) (fun _ => rfl) (fun _ => rfl) (by simp [t]) h.attemptsKeyed
    h.attemptsOwned (by simp [Keyed, t]) (by simp [t]), tracks_of_same rfl fun i _ => ?_⟩
  exact Moves.crash _ _ _ _

theorem markInterrupted_spec (h : Shape s) (hup : s.up = false) (now : Int) : let t : Sys := { s with
      db := { s.db with attempts := markInterruptedUncertain s.db.attempts now } }
    Shape t ∧ Tracks lower s t := by
  intro t
  refine ⟨h.of_map (f := id) (fun _ => rfl) (fun _ => rfl) (by simp [t])
    (h.attemptsKeyed.update (by intro a; rfl)) ?_ h.sendersKeyed h.senderOf,
    tracks_of_same rfl fun i _ => ?_⟩
  · intro a ha
    obtain ⟨b, hb, rfl⟩ := mem_update.mp ha
    obtain ⟨i, hi, him⟩ := h.attemptsOwned b hb
    refine ⟨i, hi, ?_⟩
    rw [him]
    split <;> rfl
  · have hst : stateOf t.db.attempts i.messageId =
        (stateOf s.db.attempts i.messageId).map (fun x => if x = .sending then .uncertain else x) :=
      stateOf_markInterruptedUncertain
    unfold view
    rw [hst, show t.up = false from hup]
    cases ha : stateOf s.db.attempts i.messageId with
    | none => exact Moves.stay _ _
    | some x =>
      by_cases hx : x = .sending
      · subst hx
        exact Moves.interrupt _ _
      · simp only [Option.map_some, if_neg hx]
        exact Moves.stay _ _

theorem cancel_spec (h : Shape s) (id : String) (now : Int) : let t : Sys := { s with db := cancel s.db id now }
    Shape t ∧ Tracks lower s t := by
  intro t
  refine rewrite_spec h (t := t) (fun i => by split <;> rfl) (fun i => by split <;> rfl)
    (f := fun i => if decide (i.batchId = id ∧ i.state = .pending) then
      { i with state := .cancelled, updatedAt := now } else i) rfl rfl rfl fun i _ a p _ => ?_
  split
  · rename_i hc
    rw [(of_decide_eq_true hc).2]
    exact Moves.cancel _ _ _
  · exact Moves.stay _ _

theorem resume_spec (h : Shape s) {id : String} {retryRejected : Bool} {db : Db}
    (hr : resume s.db id retryRejected = .ok db) : Shape { s with db } ∧ Tracks lower s { s with db } := by
  obtain ⟨hitems, hatt⟩ := resume_ok hr
  refine rewrite_spec h ?_ ?_ hitems hatt rfl fun i _ a p _ => ?_
  · intro i
    split <;> rfl
  · intro i
    split <;> rfl
  · split
    · rename_i hc
      rw [hc.2.2]
      exact Moves.retry _ _ _
    · exact Moves.stay _ _

theorem recover_spec (h : Shape s) (hup : s.up = false) (now : Int) :
    let t : Sys := { s with db := (recover s.db now).2, up := true }
    Shape t ∧ Tracks lower s t := by
  intro t
  refine rewrite_spec h (t := t)
    (f := fun i => if i.state = .sending then recoverRow now (stateOf s.db.attempts i.messageId) i else i)
    ?_ ?_ (recover_items h.itemsKeyed) recover_attempts rfl ?_
  · intro i
    split
    · exact recoverRow_key _ _
    · rfl
  · intro i
    split
    · exact recoverRow_messageId _ _
    · rfl
  · intro i _ a p hv
    have ha : stateOf s.db.attempts i.messageId = a := congrArg View.attempt hv
    rw [ha, show t.up = true from rfl, hup]
    split
    · rename_i hst
      rw [hst]
      exact Moves.recover a p now i
    · rename_i hst
      exact Moves.restart _ _ _ hst

end Actions

/-! ## Whole runs -/

/-- The invariant of the system. -/
structure SysInv (s : Sys) : Prop where
  shape : Shape s
  ok : ∀ i ∈ s.db.items, (view s i).Ok s.up

theorem SysInv.init : SysInv Sys.init :=
  ⟨Shape.init, by simp [Sys.init, Db.empty]⟩

/-- **What one action can do**: it keeps the shape of the tables, and moves every item as `Moves`
allows. -/
theorem sysStep_spec {lower : String → String} {s t : Sys} {a : Act} (h : SysInv s)
    (hsafe : PruneSafe s a) (hstep : sysStep lower s a = some t) : Shape t ∧ Tracks lower s t := by
  have hstay : Shape s ∧ Tracks lower s s :=
    ⟨h.shape, tracks_of_same rfl fun i _ => Moves.stay _ _⟩
  cases a with
  | create id account fromAddr template preview reviewed spacing now =>
    simp only [sysStep] at hstep
    split at hstep
    · split at hstep
      · rename_i hc
        cases hstep
        exact create_spec h.shape hc
      · cases hstep
        exact hstay
    · cases hstep
  | claimNext id now =>
    simp only [sysStep] at hstep
    split at hstep
    · rename_i hup
      rcases claimNext_cases s.db id now with ⟨_, hc⟩ | ⟨_, item, hi, rfl, hpend, hc⟩ | ⟨_, _, hc⟩
      · rw [hc] at hstep
        cases hstep
        exact hstay
      · rw [hc] at hstep
        cases hstep
        exact claimNext_spec h.shape h.ok hup hi hpend now
      · rw [hc] at hstep
        cases hstep
        refine rewrite_spec h.shape (f := fun i => i) (fun _ => rfl) (fun _ => rfl) ?_ rfl rfl ?_
        · simp
        · exact fun i _ a p _ => Moves.stay _ _
    · cases hstep
  | beginAttempt k account request now =>
    simp only [sysStep] at hstep
    obtain ⟨x, hx, hp, rfl⟩ := inPhase_some hstep
    exact beginSend_spec h.shape hx hp
  | fail k error =>
    simp only [sysStep] at hstep
    obtain ⟨x, hx, hp, rfl⟩ := inPhase_some hstep
    exact fail_spec h.shape hx hp
  | markAccepted k now =>
    simp only [sysStep] at hstep
    obtain ⟨x, hx, hp, rfl⟩ := inPhase_some hstep
    refine mark_spec h.shape (by intro a; rfl) (by intro a; rfl) hx ?_
    rw [hp]
    exact Moves.accept _
  | markArchived k now =>
    simp only [sysStep] at hstep
    obtain ⟨x, hx, hp, rfl⟩ := inPhase_some hstep
    refine mark_spec h.shape (by intro a; rfl) (by intro a; rfl) hx ?_
    rw [hp]
    exact Moves.archive _
  | markArchiveFailed k error now =>
    simp only [sysStep] at hstep
    obtain ⟨x, hx, hp, rfl⟩ := inPhase_some hstep
    exact archiveFailed_spec h.shape hx hp
  | markRejected k error now =>
    simp only [sysStep] at hstep
    obtain ⟨x, hx, hp, rfl⟩ := inPhase_some hstep
    refine mark_spec h.shape (by intro a; rfl) (by intro a; rfl) hx ?_
    rw [hp]
    exact fun st a => Moves.reject _ st a error
  | markUncertain k error now =>
    simp only [sysStep] at hstep
    obtain ⟨x, hx, hp, rfl⟩ := inPhase_some hstep
    refine mark_spec h.shape (by intro a; rfl) (by intro a; rfl) hx ?_
    rw [hp]
    exact fun st a => Moves.doubt _ st a error
  | settle k now =>
    simp only [sysStep] at hstep
    split at hstep
    · rename_i x hx
      split at hstep
      · rename_i o ho
        cases hstep
        exact settle_spec h.shape hx ho
      · cases hstep
    · cases hstep
  | cancel id now =>
    simp only [sysStep] at hstep
    split at hstep
    · cases hstep
      exact cancel_spec h.shape id now
    · cases hstep
  | resume id retryRejected =>
    simp only [sysStep] at hstep
    split at hstep
    · split at hstep
      · rename_i hr
        cases hstep
        exact resume_spec h.shape hr
      · cases hstep
        exact hstay
    · cases hstep
  | pruneSettled before =>
    cases hstep
    exact pruneSettled_spec h.shape hsafe
  | crash =>
    cases hstep
    exact crash_spec h.shape
  | markInterrupted now =>
    simp only [sysStep] at hstep
    split at hstep
    · cases hstep
    · rename_i hup
      cases hstep
      exact markInterrupted_spec h.shape (by simpa using hup) now
  | recover now =>
    simp only [sysStep] at hstep
    split at hstep
    · cases hstep
    · rename_i hup
      cases hstep
      exact recover_spec h.shape (by simpa using hup) now

theorem SysInv.step {lower : String → String} {s t : Sys} {a : Act} (h : SysInv s)
    (hsafe : PruneSafe s a) (hstep : sysStep lower s a = some t) : SysInv t := by
  obtain ⟨hshape, htracks, hnew⟩ := sysStep_spec h hsafe hstep
  refine ⟨hshape, fun j hj => ?_⟩
  rcases hnew j hj with ⟨i, hi, hkey⟩ | hv
  · obtain ⟨j', hj', hkey', hmoves⟩ := htracks i hi
    have : j = j' := inj_on_of_nodup_map hshape.itemsKeyed hj hj' (hkey.symm.trans hkey'.symm)
    rw [this]
    exact hmoves.ok (h.ok i hi)
  · rw [hv]
    exact ⟨.inl rfl, rfl⟩

/-- The item under `k` has gone, or may have. -/
def SealedAt (s : Sys) (k : String × Nat) : Prop := ∃ i ∈ s.db.items, i.key = k ∧ (view s i).Sealed

theorem SealedAt.step {lower : String → String} {s t : Sys} {a : Act}
    (hs : SealedAt s k) (h : SysInv s) (hsafe : PruneSafe s a) (hstep : sysStep lower s a = some t) : SealedAt t k := by
  obtain ⟨_, htracks, _⟩ := sysStep_spec h hsafe hstep
  obtain ⟨i, hi, hik, hseal⟩ := hs
  obtain ⟨j, hj, hkey, hmoves⟩ := htracks i hi
  exact ⟨j, hj, hkey.trans hik, hmoves.seal (h.ok i hi) hseal⟩

/-- What its row or its attempt says has gone is sealed: an attempt that may have gone belongs to no
item that is in line, refused or cancelled. -/
theorem MarkedGone.sealedAt {s : Sys} (hg : MarkedGone s k) (h : SysInv s) : SealedAt s k := by
  obtain ⟨i, hi, hik, hmark⟩ := hg
  refine ⟨i, hi, hik, ?_⟩
  have hok := h.ok i hi
  unfold View.Ok at hok
  unfold View.Sealed
  unfold view at hok ⊢
  simp only at hok ⊢
  rcases hmark with hst | hst | ha | ha
  · exact .inl hst
  · exact .inr (.inl hst)
  · rw [ha] at hok ⊢
    cases hst : i.state with
    | sending => exact .inr (.inr ⟨rfl, .inl rfl⟩)
    | accepted => exact .inl rfl
    | uncertain => exact .inr (.inl rfl)
    | pending => rw [hst] at hok; rcases hok.1 with h | h <;> cases h
    | rejected => rw [hst] at hok; rcases hok.1 with h | h <;> cases h
    | cancelled => rw [hst] at hok; rcases hok.1 with h | h <;> cases h
  · rw [ha] at hok ⊢
    cases hst : i.state with
    | sending => exact .inr (.inr ⟨rfl, .inr (.inr rfl)⟩)
    | accepted => exact .inl rfl
    | uncertain => exact .inr (.inl rfl)
    | pending => rw [hst] at hok; rcases hok.1 with h | h <;> cases h
    | rejected => rw [hst] at hok; rcases hok.1 with h | h <;> cases h
    | cancelled => rw [hst] at hok; rcases hok.1 with h | h <;> cases h

theorem SealedAt.not_pending {s : Sys} (hs : SealedAt s k) (h : SysInv s) : ¬ IsPending s k := by
  obtain ⟨i, hi, hik, hseal⟩ := hs
  rintro ⟨j, hj, hjk, hpend⟩
  have : j = i := inj_on_of_nodup_map h.shape.itemsKeyed hj hi (hjk.trans hik.symm)
  rw [this] at hpend
  rcases hseal with hst | hst | ⟨hst, _⟩
  · exact absurd (hst.symm.trans hpend) (by decide)
  · exact absurd (hst.symm.trans hpend) (by decide)
  · exact absurd (hst.symm.trans hpend) (by decide)

/-- Only a pending item is claimed. -/
theorem claimNext_pending {s : Sys} {id : String} {now : Int} {item : Item} {db : Db}
    (h : claimNext s.db id now = (some item, db)) : IsPending s item.key := by
  rcases claimNext_cases s.db id now with ⟨_, hc⟩ | ⟨_, i, hi, _, hpend, hc⟩ | ⟨_, _, hc⟩
  · rw [hc] at h; cases h
  · rw [hc] at h
    cases h
    exact ⟨item, hi, rfl, hpend⟩
  · rw [hc] at h; cases h

/-- **A message that has gone, or may have, is never sent again**: in every run whose pruning steps
forget no attempt of an accepted message still marked as on its way, an item that was accepted or
uncertain, or whose attempt was, is never pending again and never claimed again. -/
theorem gone_never_again {lower : String → String} {as bs : List Act} {s t : Sys} {k : String × Nat}
    (hs : run (sysStep lower) Sys.init as = some s) (ht : run (sysStep lower) s bs = some t)
    (hsafe : AllSteps (sysStep lower) PruneSafe Sys.init (as ++ bs)) (hgone : MarkedGone s k) : ¬ IsPending t k ∧
      ∀ id now item db, claimNext t.db id now = (some item, db) → item.key ≠ k := by
  have hinv : SysInv s :=
    run_invariant (fun _ _ _ hi hp hstep => hi.step hp hstep) SysInv.init hsafe.left hs
  have hkeep : ∀ u a v, SysInv u ∧ SealedAt u k → PruneSafe u a → sysStep lower u a = some v →
      SysInv v ∧ SealedAt v k :=
    fun _ _ _ hi hp hstep => ⟨hi.1.step hp hstep, hi.2.step hi.1 hp hstep⟩
  have hboth : SysInv t ∧ SealedAt t k :=
    run_invariant hkeep ⟨hinv, hgone.sealedAt hinv⟩ (hsafe.right hs) ht
  have hnot := hboth.2.not_pending hboth.1
  refine ⟨hnot, ?_⟩
  rintro id now item db hc rfl
  exact hnot (claimNext_pending hc)

instance (s : Sys) : (a : Act) → Decidable (PruneSafe s a)
  | .pruneSettled before =>
    inferInstanceAs (Decidable (∀ i ∈ s.db.items, i.state = .sending →
      ∀ a ∈ attempt s.db.attempts i.messageId,
        a.state = .accepted ∨ a.state = .archived → prunable before a = false))
  | .create .. | .claimNext .. | .beginAttempt .. | .fail .. | .markAccepted .. | .markArchived ..
  | .markArchiveFailed .. | .markRejected .. | .markUncertain .. | .settle .. | .cancel ..
  | .resume .. | .crash | .markInterrupted .. | .recover .. => isTrue trivial

/-- The message is settled before the program stops, and its attempt pruned after the restart. -/
def settledRun : List Act :=
  [.settle ("m", 0) 4, .crash, .markInterrupted 100, .pruneSettled 50, .recover 100, .resume "m" true]

theorem settled_never_again : ∃ s t, run (sysStep id) Sys.init acceptedRun = some s ∧ MarkedGone s ("m", 0) ∧
      run (sysStep id) s settledRun = some t ∧ ¬ IsPending t ("m", 0) := by
  refine ⟨_, _, rfl, by decide, rfl, ?_⟩
  exact (@gone_never_again id acceptedRun settledRun _ _ _ rfl rfl (by decide) (by decide)).1

end Oreneta.Merge

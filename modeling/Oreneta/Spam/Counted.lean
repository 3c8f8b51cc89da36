import Oreneta.Spam.Judgments

/-!
# The learned counts are the judgments

* `Learned` — what every step keeps: one judgment for a message, each of a cached one, and both count
  tables count exactly the judgments;
* `write_perm` — what `write_spam_judgment` does to the judgments as a whole: the new one takes the old
  one's place;
* `learned_counts_exact` — after every run from empty tables the counts are `Exact`, and reverting a
  change while nobody judged in between brings both tables back.
-/

namespace Oreneta.Spam

open Counts Table Runs List

variable {lower : Str → Str} {isAlphanumeric : Char → Bool}

theorem nodup_tokenize {text : Str} : (tokenize lower isAlphanumeric text).Nodup := by
  unfold tokenize
  generalize hw : ((text.splitOnP fun c => !isAlphanumeric c).map lower).filter (fun word => 4 ≤ word.length) = words
  have hsorted : (words.insertionSort (· ≤ ·)).Pairwise (· ≤ ·) := pairwise_insertionSort _ _
  have hle := (hsorted.sublist (destutter_sublist (· ≠ ·) _)).isChain
  have hne := isChain_destutter (· ≠ ·) (words.insertionSort (· ≤ ·))
  have hlt : ((words.insertionSort (· ≤ ·)).destutter (· ≠ ·)).IsChain (· < ·) := by
    rw [isChain_iff_getElem] at hle hne ⊢
    exact fun i hi => lt_of_le_of_ne (hle i hi) (hne i hi)
  exact hlt.pairwise.imp fun h => ne_of_lt h

theorem nodup_senderKeys {account : Str} {state : SpamJudgmentState} : (senderKeys lower account state).Nodup := by
  unfold senderKeys
  split
  · exact nodup_nil
  · exact nodup_singleton _

theorem nodup_triggerKeys {account : Str} {state : SpamJudgmentState} : (triggerKeys lower isAlphanumeric account state).Nodup :=
  nodup_tokenize.map fun _ _ h => (Prod.mk.inj h).2

/-! ## Judgments as a whole -/

/-- Everything that was learned from, without the messages it was learned from. -/
def contributions (db : Db) : List (Str × SpamJudgmentState) :=
  db.judgments.map (fun j => (j.account, j.state))

/-- What a message's judgment contributes. -/
def contribution (account : Str) (state : Option SpamJudgmentState) : List (Str × SpamJudgmentState) :=
  state.toList.map (fun state => (account, state))

/-- What every step keeps. -/
structure Learned (lower : Str → Str) (isAlphanumeric : Char → Bool) (db : Db) : Prop where
  keyed : Keyed Judgment.key db.judgments
  senders : Tracks (fun j => senderKeys lower j.account j.state) (fun j => j.state.spam) db.judgments
    db.senders
  triggers : Tracks (fun j => triggerKeys lower isAlphanumeric j.account j.state) (fun j => j.state.spam)
    db.judgments db.triggers
  cached : ∀ j ∈ db.judgments, cached db j.account j.messageId = true

theorem Learned.empty {messages : List MessageRow} : Learned lower isAlphanumeric (emptyTables messages) :=
  ⟨nodup_nil, Tracks.nil, Tracks.nil, fun _ h => absurd h not_mem_nil⟩

/-- The count tables follow what was learned from, whatever message it belongs to. -/
theorem Tracks.of_contributions {keysOf : Str → SpamJudgmentState → List (Str × Str)}
    {judgments judgments' : List Judgment} {t : List (Count (Str × Str))}
    (h : Tracks (fun j => keysOf j.account j.state) (fun j => j.state.spam) judgments t)
    (hperm : (judgments.map (fun j => (j.account, j.state))).Perm (judgments'.map (fun j => (j.account, j.state)))) :
    Tracks (fun j => keysOf j.account j.state) (fun j => j.state.spam) judgments' t := by
  apply h.congr
  have := hperm.map fun q => (q.2.spam, keysOf q.1 q.2)
  simpa only [map_map, Function.comp_def] using this

section Write

variable {db : Db} {account : Str} {messageId : Int} {state : SpamJudgmentState}

theorem spamJudgmentState_eq : spamJudgmentState db account messageId = some state ↔
      Table.lookup Judgment.key db.judgments (account, messageId) = some ⟨account, messageId, state⟩ := by
  unfold spamJudgmentState
  rw [Option.map_eq_some_iff]
  constructor
  · rintro ⟨⟨a, m, st⟩, hl, rfl⟩
    obtain ⟨rfl, rfl⟩ := Prod.mk.inj (lookup_some hl).2
    exact hl
  · intro hl
    exact ⟨_, hl, rfl⟩

theorem spamJudgmentState_eq_none : spamJudgmentState db account messageId = none ↔
    Table.lookup Judgment.key db.judgments (account, messageId) = none :=
  Option.map_eq_none_iff

/-- A judgment is taken back. -/
theorem Learned.drop (h : Learned lower isAlphanumeric db) (hstate : spamJudgmentState db account messageId = some state) :
    Learned lower isAlphanumeric (dropJudgment (learn lower isAlphanumeric db account state (-1)) account messageId) := by
  have hperm := h.keyed.perm_lookup (spamJudgmentState_eq.mp hstate)
  refine ⟨h.keyed.filter _, ?_, ?_, ?_⟩
  · exact (h.senders.congr (hperm.map _)).drop nodup_senderKeys
  · exact (h.triggers.congr (hperm.map _)).drop nodup_triggerKeys
  · intro j hj
    exact h.cached j (mem_of_mem_filter hj)

/-- A judgment is made where there was none. -/
theorem Learned.set (h : Learned lower isAlphanumeric db) (state : SpamJudgmentState)
    (hnone : spamJudgmentState db account messageId = none) (hcached : Spam.cached db account messageId = true) :
    Learned lower isAlphanumeric
      (learn lower isAlphanumeric (setJudgment db ⟨account, messageId, state⟩) account state 1) := by
  have hrows : (setJudgment db ⟨account, messageId, state⟩).judgments =
      db.judgments ++ [⟨account, messageId, state⟩] := by
    have hkeep := filter_of_lookup_none (spamJudgmentState_eq_none.mp hnone)
    exact congrArg (· ++ [_]) hkeep
  have hperm : (⟨account, messageId, state⟩ :: db.judgments).Perm (setJudgment db ⟨account, messageId, state⟩).judgments := by
    rw [hrows]
    exact (perm_append_singleton _ _).symm
  refine ⟨h.keyed.insertOrReplace _, ?_, ?_, ?_⟩
  · exact (h.senders.add nodup_senderKeys).congr (hperm.map _)
  · exact (h.triggers.add nodup_triggerKeys).congr (hperm.map _)
  · intro j hj
    rcases mem_append.mp (hrows ▸ hj : j ∈ db.judgments ++ [_]) with hj | hj
    · exact h.cached j hj
    · rw [mem_singleton.mp hj]
      exact hcached

/-- Taking a judgment back before a new one replaces it makes no difference. -/
theorem setJudgment_dropJudgment : setJudgment (dropJudgment db account messageId) ⟨account, messageId, state⟩ =
      setJudgment db ⟨account, messageId, state⟩ := by
  unfold setJudgment dropJudgment Table.insertOrReplace
  dsimp only
  rw [filter_filter]
  congr 2
  apply filter_congr
  intro j _
  exact Bool.and_self _

theorem spamJudgmentState_drop : spamJudgmentState (dropJudgment db account messageId) account messageId = none := by
  rw [spamJudgmentState_eq_none, lookup_eq_none]
  intro j hj
  unfold dropJudgment at hj
  exact of_decide_eq_true (mem_filter.mp hj).2

/-- **A judgment is replaced**: the counts follow. -/
theorem Learned.write {next : Option SpamJudgmentState} (h : Learned lower isAlphanumeric db)
    (hcached : next.isSome = true → Spam.cached db account messageId = true) :
    Learned lower isAlphanumeric (writeSpamJudgment lower isAlphanumeric db account messageId
      (spamJudgmentState db account messageId) next) := by
  unfold writeSpamJudgment
  split
  · exact h
  cases hcurrent : spamJudgmentState db account messageId with
  | none =>
    cases next with
    | none => rename_i hne; exact absurd hcurrent hne
    | some state => exact h.set state hcurrent (hcached rfl)
  | some current =>
    cases next with
    | none => exact h.drop hcurrent
    | some state =>
      -- the row replaced is one taken back and then made again
      have := (h.drop hcurrent).set state spamJudgmentState_drop (hcached rfl)
      rw [setJudgment_dropJudgment] at this
      exact this

/-- Taking out a message's judgment takes out what it contributes. -/
theorem contributions_drop (account : Str) (messageId : Int) (h : Keyed Judgment.key db.judgments) :
    (contribution account (spamJudgmentState db account messageId) ++
      contributions (dropJudgment db account messageId)).Perm (contributions db) := by
  cases hstate : spamJudgmentState db account messageId with
  | none =>
    have hkeep := filter_of_lookup_none (spamJudgmentState_eq_none.mp hstate)
    show (contributions (dropJudgment db account messageId)).Perm _
    unfold contributions dropJudgment
    rw [hkeep]
  | some state =>
    have hperm := h.perm_lookup (spamJudgmentState_eq.mp hstate)
    exact (hperm.map fun j => (j.account, j.state)).symm

theorem contributions_set (db : Db) : contributions (setJudgment db ⟨account, messageId, state⟩) =
      contributions (dropJudgment db account messageId) ++ contribution account (some state) := by
  show (_ ++ [_]).map _ = _
  rw [map_append]
  rfl

theorem contributions_write {current next : Option SpamJudgmentState} (hne : current ≠ next) :
    contributions (writeSpamJudgment lower isAlphanumeric db account messageId current next) =
      contributions (dropJudgment db account messageId) ++ contribution account next := by
  unfold writeSpamJudgment
  rw [if_neg hne]
  cases next with
  | none => cases current <;> exact (append_nil _).symm
  | some state => cases current <;> exact contributions_set db

/-- **The new judgment takes the old one's place.** -/
theorem write_perm (lower : Str → Str) (isAlphanumeric : Char → Bool) (account : Str) (messageId : Int)
    (next : Option SpamJudgmentState) (h : Keyed Judgment.key db.judgments) :
    (contributions (writeSpamJudgment lower isAlphanumeric db account messageId
        (spamJudgmentState db account messageId) next) ++
      contribution account (spamJudgmentState db account messageId)).Perm
      (contributions db ++ contribution account next) := by
  by_cases hsame : spamJudgmentState db account messageId = next
  · unfold writeSpamJudgment
    rw [if_pos hsame, hsame]
  · have hdrop := contributions_drop account messageId h
    rw [contributions_write hsame, append_assoc]
    refine perm_append_comm.trans ?_
    rw [append_assoc]
    exact (hdrop.append_left _).trans perm_append_comm

end Write

/-! ## Every step keeps it -/

section Steps

variable {db : Db} {account : Str}

theorem cached_iff {messageId : Int} : Spam.cached db account messageId = true ↔
    ∃ m ∈ db.messages, m.id = messageId ∧ m.account = account := by
  simp [Spam.cached]

variable {folder threadKey : Str}

theorem mem_newest {found : Int × Str × Str} (h : newestMessageForSpamJudgment db account folder threadKey = some found) :
    Spam.cached db account found.1 = true := by
  unfold newestMessageForSpamJudgment at h
  obtain ⟨m, hm, rfl⟩ := Option.map_eq_some_iff.mp h
  have hmem := mem_of_head? hm
  rw [mem_insertionSort, mem_filter] at hmem
  obtain ⟨hmem, hrow⟩ := hmem
  exact cached_iff.mpr ⟨m, hmem, rfl, (of_decide_eq_true hrow).1⟩

/-- The change recorded is the one made. -/
theorem record_cases (lower : Str → Str) (isAlphanumeric : Char → Bool) (db : Db) {isSpam : Bool} :
    recordSpamJudgmentChange lower isAlphanumeric db account folder threadKey isSpam = (none, db) ∨
    ∃ recorded after, recordSpamJudgmentChange lower isAlphanumeric db account folder threadKey isSpam =
        (some recorded, writeSpamJudgment lower isAlphanumeric db account recorded.change.messageId
          (spamJudgmentState db account recorded.change.messageId) (some after)) ∧
      recorded.change.account = account ∧
      recorded.change.before = spamJudgmentState db account recorded.change.messageId ∧
      recorded.change.after = some after ∧
      Spam.cached db account recorded.change.messageId = true := by
  unfold recordSpamJudgmentChange
  cases hfound : newestMessageForSpamJudgment db account folder threadKey with
  | none => exact .inl rfl
  | some found =>
    have hcached := mem_newest hfound
    obtain ⟨messageId, fromAddr, subject⟩ := found
    right
    dsimp only at hcached ⊢
    cases hbefore : spamJudgmentState db account messageId with
    | none =>
      exact ⟨⟨fromAddr, account, messageId, none, _⟩, _, by dsimp only; rw [hbefore], rfl, hbefore.symm, rfl, hcached⟩
    | some previous =>
      dsimp only
      split
      · exact ⟨⟨fromAddr, account, messageId, some previous, _⟩, _, by dsimp only; rw [hbefore], rfl,
          hbefore.symm, rfl, hcached⟩
      · exact ⟨⟨fromAddr, account, messageId, some previous, _⟩, _, by dsimp only; rw [hbefore], rfl,
          hbefore.symm, rfl, hcached⟩

theorem revert_cases (lower : Str → Str) (isAlphanumeric : Char → Bool) (db : Db) {change : SpamJudgmentChange} :
    revertSpamJudgment lower isAlphanumeric db change = (none, db) ∨ (revertSpamJudgment lower isAlphanumeric db change =
        (some change.inverse, writeSpamJudgment lower isAlphanumeric db change.account change.messageId
          (spamJudgmentState db change.account change.messageId) change.before) ∧
      spamJudgmentState db change.account change.messageId = change.after ∧
      (change.after = none → change.before.isSome = true →
        Spam.cached db change.account change.messageId = true)) := by
  unfold revertSpamJudgment
  dsimp only
  by_cases hcurrent : spamJudgmentState db change.account change.messageId = change.after
  · rw [if_neg fun h => h hcurrent]
    split
    · exact .inl rfl
    · rename_i hcached
      refine .inr ⟨rfl, hcurrent, fun hafter hbefore => ?_⟩
      by_contra hno
      exact hcached ⟨by rw [hcurrent, hafter]; rfl, hbefore, Bool.eq_false_iff.mpr hno⟩
  · rw [if_pos hcurrent]
    exact .inl rfl

/-- A message judged is a message cached. -/
theorem Learned.cached_of_some {messageId : Int} {state : SpamJudgmentState}
    (h : Learned lower isAlphanumeric db) (hstate : spamJudgmentState db account messageId = some state) :
    Spam.cached db account messageId = true :=
  h.cached _ (lookup_some (spamJudgmentState_eq.mp hstate)).1

theorem Learned.record {isSpam : Bool} (h : Learned lower isAlphanumeric db) : Learned lower isAlphanumeric
      (recordSpamJudgmentChange lower isAlphanumeric db account folder threadKey isSpam).2 := by
  rcases record_cases lower isAlphanumeric db with hno | ⟨r, after, hr, -, -, -, hcached⟩
  · rw [hno]
    exact h
  · rw [hr]
    exact h.write fun _ => hcached

theorem Learned.revert (change : SpamJudgmentChange) (h : Learned lower isAlphanumeric db) :
    Learned lower isAlphanumeric (revertSpamJudgment lower isAlphanumeric db change).2 := by
  rcases revert_cases lower isAlphanumeric db with hno | ⟨hyes, hcurrent, hcached⟩
  · rw [hno]
    exact h
  · rw [hyes]
    refine h.write fun hnext => ?_
    cases hafter : change.after with
    | none => exact hcached hafter hnext
    | some state => exact h.cached_of_some (hcurrent.trans hafter)

/-- A judgment's row passes to a message without one. -/
theorem Learned.renumber {source target : Int} (h : Learned lower isAlphanumeric db)
    (hnone : spamJudgmentState db account target = none) (hcached : Spam.cached db account target = true) :
    Learned lower isAlphanumeric (renumber db account source target) := by
  have hsame : (contributions (Spam.renumber db account source target)) = contributions db := by
    unfold contributions Spam.renumber
    rw [map_map]
    refine map_congr_left fun j _ => ?_
    rw [Function.comp_apply]
    split <;> rfl
  refine ⟨?_, ?_, ?_, ?_⟩
  · have hkeys : (Spam.renumber db account source target).judgments.map Judgment.key =
        (db.judgments.map Judgment.key).map (fun k => if k = (account, source) then (account, target) else k) := by
      unfold Spam.renumber
      rw [map_map, map_map]
      refine map_congr_left fun j _ => ?_
      rw [Function.comp_apply, Function.comp_apply]
      by_cases hj : j.key = (account, source)
      · rw [if_pos hj, if_pos hj]
        exact Prod.ext (Prod.mk.inj hj).1 rfl
      · rw [if_neg hj, if_neg hj]
    have hfree : ∀ k ∈ db.judgments.map Judgment.key, k ≠ (account, target) := by
      intro k hk
      obtain ⟨j, hj, rfl⟩ := mem_map.mp hk
      exact lookup_eq_none.mp (spamJudgmentState_eq_none.mp hnone) j hj
    unfold Keyed
    rw [hkeys]
    refine h.keyed.map_on ?_
    intro x hx y hy hxy
    by_cases hxs : x = (account, source)
    · by_cases hys : y = (account, source)
      · rw [hxs, hys]
      · rw [if_pos hxs, if_neg hys] at hxy
        exact absurd hxy.symm (hfree y hy)
    · by_cases hys : y = (account, source)
      · rw [if_neg hxs, if_pos hys] at hxy
        exact absurd hxy (hfree x hx)
      · rw [if_neg hxs, if_neg hys] at hxy
        exact hxy
  · exact Tracks.of_contributions h.senders (List.Perm.of_eq hsame.symm)
  · exact Tracks.of_contributions h.triggers (List.Perm.of_eq hsame.symm)
  · intro j hj
    obtain ⟨i, hi, rfl⟩ := mem_map.mp hj
    by_cases hik : i.key = (account, source)
    · rw [if_pos hik]
      have ha : i.account = account := (Prod.mk.inj hik).1
      rw [ha]
      exact hcached
    · rw [if_neg hik]
      exact h.cached i hi

theorem mem_targetIds {p : Str × Int} (hp : p ∈ targetIds lower db account folder) : Spam.cached db account p.2 = true := by
  have key : ∀ p ∈ targetIds lower db account folder, Spam.cached db account p.2 = true := by
    unfold targetIds
    refine foldl_invariant (P := fun _ (ids : List (Str × Int)) => ∀ p ∈ ids, Spam.cached db account p.2 = true) ?_ ?_
    · intro _ m ids hm hids
      obtain ⟨hmem, hrow⟩ := mem_filter.mp hm
      split
      · intro p hp
        rcases mem_append.mp hp with hp | hp
        · exact hids p (mem_of_mem_filter hp)
        · rw [mem_singleton.mp hp]
          exact cached_iff.mpr ⟨m, hmem, rfl, (of_decide_eq_true hrow).1⟩
      · exact hids
    · exact fun _ h => absurd h not_mem_nil
  exact key p hp

theorem preserveOne_messages {sourceFolder : Str} {ids : List (Str × Int)} {x : Nat × Db} {uid : Nat} :
    (preserveOne lower isAlphanumeric account sourceFolder ids x uid).2.messages = x.2.messages := by
  unfold preserveOne
  dsimp only
  split
  · rfl
  split
  · rfl
  split
  · rfl
  split
  · rfl
  cases spamJudgmentState x.2 account _ <;> rfl

/-- One message moved: a judgment in the way is taken back first. -/
theorem Learned.preserveOne {x : Nat × Db} (sourceFolder : Str) {ids : List (Str × Int)} (uid : Nat)
    (h : Learned lower isAlphanumeric x.2) (hids : ∀ p ∈ ids, Spam.cached x.2 account p.2 = true) :
    Learned lower isAlphanumeric (Spam.preserveOne lower isAlphanumeric account sourceFolder ids x uid).2 := by
  obtain ⟨transferred, db⟩ := x
  unfold Spam.preserveOne
  dsimp only at h hids ⊢
  split
  · exact h
  split
  · exact h
  rename_i identity target hfound
  split
  · exact h
  split
  · exact h
  obtain ⟨_, -, hlookup⟩ := Option.bind_eq_some_iff.mp hfound
  have hcached := hids _ (lookup_some hlookup).1
  cases hstate : spamJudgmentState db account target with
  | none => exact h.renumber hstate hcached
  | some state => exact (h.drop hstate).renumber spamJudgmentState_drop hcached

theorem Learned.preserve {sourceFolder targetFolder : Str} {uids : List Nat} (h : Learned lower isAlphanumeric db) :
    Learned lower isAlphanumeric (preserveSpamJudgmentsForMove lower isAlphanumeric db account sourceFolder
        targetFolder uids).2 ∧
      (preserveSpamJudgmentsForMove lower isAlphanumeric db account sourceFolder targetFolder
        uids).2.messages = db.messages := by
  unfold preserveSpamJudgmentsForMove
  split
  · exact ⟨h, rfl⟩
  have hids : ∀ x : Nat × Db, x.2.messages = db.messages →
      ∀ p ∈ targetIds lower db account targetFolder, Spam.cached x.2 account p.2 = true := by
    intro x hx p hp
    have := mem_targetIds hp
    unfold Spam.cached at this ⊢
    rw [hx]
    exact this
  exact foldl_invariant (l := uids) (b := (0, db))
    (P := fun _ x => Learned lower isAlphanumeric x.2 ∧ x.2.messages = db.messages)
    (fun _ uid x _ hx =>
      ⟨hx.1.preserveOne sourceFolder uid (hids x hx.2), preserveOne_messages.trans hx.2⟩)
    ⟨h, rfl⟩

theorem write_messages {messageId : Int} {current next : Option SpamJudgmentState} :
    (writeSpamJudgment lower isAlphanumeric db account messageId current next).messages = db.messages := by
  unfold writeSpamJudgment
  split
  · rfl
  cases current <;> cases next <;> rfl

/-- No step drops a message. -/
theorem StaysCached.step {a : Act} {db' : Db} (h : Learned lower isAlphanumeric db)
    (hstep : Spam.step lower isAlphanumeric db a = some db') : StaysCached db.messages db'.messages := by
  have hrefl : StaysCached db.messages db.messages := fun m hm => ⟨m, hm, rfl, rfl⟩
  unfold Spam.step at hstep
  cases a with
  | record account folder threadKey isSpam =>
    cases hstep
    rcases record_cases lower isAlphanumeric db with hno | ⟨r, after, hr, -, -, -, -⟩
    · rw [hno]
      exact hrefl
    · rw [hr, write_messages]
      exact hrefl
  | revert change =>
    cases hstep
    rcases revert_cases lower isAlphanumeric db with hno | ⟨hyes, -, -⟩
    · rw [hno]
      exact hrefl
    · rw [hyes, write_messages]
      exact hrefl
  | preserve account sourceFolder targetFolder uids =>
    cases hstep
    rw [h.preserve.2]
    exact hrefl
  | sync messages =>
    dsimp only at hstep
    split at hstep
    · rename_i hstays
      cases hstep
      exact hstays
    · cases hstep

theorem StaysCached.cached {db' : Db} {messageId : Int} (h : StaysCached db.messages db'.messages)
    (hcached : Spam.cached db account messageId = true) : Spam.cached db' account messageId = true := by
  obtain ⟨m, hm, hid, haccount⟩ := cached_iff.mp hcached
  obtain ⟨m', hm', hid', haccount'⟩ := h m hm
  exact cached_iff.mpr ⟨m', hm', hid'.trans hid, haccount'.trans haccount⟩

theorem Learned.step {a : Act} {db' : Db} (h : Learned lower isAlphanumeric db)
    (hstep : Spam.step lower isAlphanumeric db a = some db') : Learned lower isAlphanumeric db' := by
  unfold Spam.step at hstep
  cases a with
  | record account folder threadKey isSpam =>
    cases hstep
    exact h.record
  | revert change =>
    cases hstep
    exact h.revert change
  | preserve account sourceFolder targetFolder uids =>
    cases hstep
    exact h.preserve.1
  | sync messages =>
    dsimp only at hstep
    split at hstep
    · rename_i hstays
      cases hstep
      exact ⟨h.keyed, h.senders, h.triggers, fun j hj => hstays.cached (h.cached j hj)⟩
    · cases hstep

theorem Learned.run {as : List Act} {db' : Db} (h : Learned lower isAlphanumeric db)
    (hrun : Runs.run (Spam.step lower isAlphanumeric) db as = some db') : Learned lower isAlphanumeric db' :=
  run_invariant (fun _ _ _ hi _ hs => hi.step hs) h AllSteps.of_true hrun

theorem StaysCached.run {as : List Act} {db' : Db} (h : Learned lower isAlphanumeric db)
    (hrun : Runs.run (Spam.step lower isAlphanumeric) db as = some db') : StaysCached db.messages db'.messages := by
  have hstep : ∀ d a d', Learned lower isAlphanumeric d ∧ StaysCached db.messages d.messages → True →
      Spam.step lower isAlphanumeric d a = some d' →
        Learned lower isAlphanumeric d' ∧ StaysCached db.messages d'.messages := by
    rintro d a d' ⟨hlearned, hstays⟩ - hs
    refine ⟨hlearned.step hs, fun m hm => ?_⟩
    obtain ⟨m₁, hm₁, hid₁, haccount₁⟩ := hstays m hm
    obtain ⟨m₂, hm₂, hid₂, haccount₂⟩ := StaysCached.step hlearned hs m₁ hm₁
    exact ⟨m₂, hm₂, hid₂.trans hid₁, haccount₂.trans haccount₁⟩
  exact (run_invariant hstep ⟨h, fun m hm => ⟨m, hm, rfl, rfl⟩⟩ AllSteps.of_true hrun).2

end Steps

/-! ## The counts are exact -/

/-- How many judgments of an account say this of what `p` accepts. -/
def judged (db : Db) (account : Str) (spam : Bool) (p : SpamJudgmentState → Bool) : Int :=
  db.judgments.countP (fun j => j.account = account ∧ j.state.spam = spam ∧ p j.state)

/-- Every count is the number of judgments it stands for. -/
structure Exact (lower : Str → Str) (isAlphanumeric : Char → Bool) (db : Db) : Prop where
  senders : ∀ account addr, addr ≠ [] → count db.senders (account, addr) =
    (judged db account true (fun state => addrOf lower state.fromAddr = addr),
      judged db account false (fun state => addrOf lower state.fromAddr = addr))
  triggers : ∀ account word, count db.triggers (account, word) =
    (judged db account true (fun state => word ∈ tokenize lower isAlphanumeric state.subject),
      judged db account false (fun state => word ∈ tokenize lower isAlphanumeric state.subject))
  addresses : ∀ r ∈ db.senders, r.key.2 ≠ []
  tidy : Tidy db.senders ∧ Tidy db.triggers
  nonneg : ∀ r, r ∈ db.senders ∨ r ∈ db.triggers → 0 ≤ r.yes ∧ 0 ≤ r.no

theorem mem_senderKeys {account account' addr : Str} {state : SpamJudgmentState} :
    (account, addr) ∈ senderKeys lower account' state ↔
      account' = account ∧ addrOf lower state.fromAddr = addr ∧ addr ≠ [] := by
  unfold senderKeys
  split
  · rename_i hempty
    rw [hempty]
    exact ⟨fun h => absurd h not_mem_nil, fun h => absurd h.2.1.symm h.2.2⟩
  · rename_i hne
    rw [mem_singleton, Prod.mk.injEq]
    constructor
    · rintro ⟨rfl, rfl⟩
      exact ⟨rfl, rfl, hne⟩
    · rintro ⟨rfl, rfl, -⟩
      exact ⟨rfl, rfl⟩

theorem mem_triggerKeys {account account' word : Str} {state : SpamJudgmentState} :
    (account, word) ∈ triggerKeys lower isAlphanumeric account' state ↔
      account' = account ∧ word ∈ tokenize lower isAlphanumeric state.subject := by
  unfold triggerKeys
  rw [mem_map]
  constructor
  · rintro ⟨w, hw, heq⟩
    obtain ⟨rfl, rfl⟩ := Prod.mk.inj heq
    exact ⟨rfl, hw⟩
  · rintro ⟨rfl, hw⟩
    exact ⟨word, hw, rfl⟩

theorem Learned.exact {db : Db} (h : Learned lower isAlphanumeric db) : Exact lower isAlphanumeric db := by
  have hsenders : ∀ account addr b, addr ≠ [] →
      having (fun j : Judgment => senderKeys lower j.account j.state) (fun j => j.state.spam) db.judgments b (account, addr) =
        judged db account b (fun state => addrOf lower state.fromAddr = addr) := by
    intro account addr b hne
    unfold having judged
    congr 2
    funext j
    simp only [mem_senderKeys, decide_eq_true_eq]
    congr 1
    exact propext ⟨fun ⟨hb, ha, haddr, _⟩ => ⟨ha, hb, haddr⟩, fun ⟨ha, hb, haddr⟩ => ⟨hb, ha, haddr, hne⟩⟩
  have htriggers : ∀ account word b, having (fun j : Judgment => triggerKeys lower isAlphanumeric j.account j.state)
        (fun j => j.state.spam) db.judgments b (account, word) =
        judged db account b (fun state => word ∈ tokenize lower isAlphanumeric state.subject) := by
    intro account word b
    unfold having judged
    congr 2
    funext j
    simp only [mem_triggerKeys, decide_eq_true_eq]
    congr 1
    exact propext ⟨fun ⟨hb, ha, hw⟩ => ⟨ha, hb, hw⟩, fun ⟨ha, hb, hw⟩ => ⟨hb, ha, hw⟩⟩
  refine ⟨?_, ?_, ?_, ⟨h.senders.tidy, h.triggers.tidy⟩, ?_⟩
  · intro account addr hne
    rw [h.senders.counts, hsenders account addr true hne, hsenders account addr false hne]
  · intro account word
    rw [h.triggers.counts, htriggers, htriggers]
  · rintro ⟨⟨account, addr⟩, yes, no⟩ hr rfl
    have hnone : ∀ b, having (fun j : Judgment => senderKeys lower j.account j.state)
        (fun j => j.state.spam) db.judgments b (account, []) = 0 := by
      intro b
      simp [having, mem_senderKeys]
    have hcount := (count_of_mem h.senders.tidy.keyed hr).symm.trans (h.senders.counts _)
    rw [hnone, hnone] at hcount
    exact h.senders.tidy.nonzero _ hr (Prod.mk.inj hcount)
  · rintro r (hr | hr)
    · exact h.senders.nonneg hr
    · exact h.triggers.nonneg hr

/-! ## Taking a change back -/

section Restore

variable {db db' : Db} {change : SpamJudgmentChange}

/-- The change was made here: it was recorded, or it took another one back. -/
def Made (lower : Str → Str) (isAlphanumeric : Char → Bool) (db : Db) (change : SpamJudgmentChange)
    (db' : Db) : Prop :=
  (∃ folder threadKey isSpam sender, recordSpamJudgmentChange lower isAlphanumeric db change.account folder
    threadKey isSpam = (some ⟨sender, change⟩, db')) ∨
  ∃ undone, revertSpamJudgment lower isAlphanumeric db undone = (some change, db')

theorem Made.write (h : Made lower isAlphanumeric db change db') :
    change.before = spamJudgmentState db change.account change.messageId ∧
      db' = writeSpamJudgment lower isAlphanumeric db change.account change.messageId
        (spamJudgmentState db change.account change.messageId) change.after := by
  rcases h with ⟨folder, threadKey, isSpam, sender, hrecord⟩ | ⟨undone, hrevert⟩
  · rcases record_cases lower isAlphanumeric db with hno | ⟨r, after, hr, haccount, hbefore, hafter, -⟩
    · rw [hno] at hrecord
      cases hrecord
    · rw [hr] at hrecord
      cases hrecord
      exact ⟨hbefore, by rw [← hafter]⟩
  · rcases revert_cases lower isAlphanumeric db with hno | ⟨hyes, hcurrent, -⟩
    · rw [hno] at hrevert
      cases hrevert
    · rw [hyes] at hrevert
      cases hrevert
      exact ⟨hcurrent.symm, rfl⟩

theorem Made.learned (hmade : Made lower isAlphanumeric db change db')
    (h : Learned lower isAlphanumeric db) : Learned lower isAlphanumeric db' := by
  rcases hmade with ⟨folder, threadKey, isSpam, sender, hrecord⟩ | ⟨undone, hrevert⟩
  · rw [show db' = (some (RecordedSpamJudgment.mk sender change), db').2 from rfl, ← hrecord]
    exact h.record
  · rw [show db' = (some change, db').2 from rfl, ← hrevert]
    exact h.revert undone

theorem revert_some (lower : Str → Str) (isAlphanumeric : Char → Bool)
    (hcurrent : spamJudgmentState db change.account change.messageId = change.after)
    (hcached : change.after = none → change.before.isSome = true →
      Spam.cached db change.account change.messageId = true) : revertSpamJudgment lower isAlphanumeric db change =
      (some change.inverse, writeSpamJudgment lower isAlphanumeric db change.account change.messageId
        (spamJudgmentState db change.account change.messageId) change.before) := by
  unfold revertSpamJudgment
  dsimp only
  rw [if_neg fun h => h hcurrent, if_neg]
  rintro ⟨hnone, hsome, hgone⟩
  rw [hcurrent] at hnone
  rw [hcached (Option.isNone_iff_eq_none.mp hnone) hsome] at hgone
  cases hgone

/-- What was learned from determines the count tables. -/
theorem Learned.lookup_congr (h : Learned lower isAlphanumeric db) (h' : Learned lower isAlphanumeric db')
    (hperm : (contributions db').Perm (contributions db)) (k : Str × Str) :
    Table.lookup Count.key db'.senders k = Table.lookup Count.key db.senders k ∧
      Table.lookup Count.key db'.triggers k = Table.lookup Count.key db.triggers k := by
  have hsenders := Tracks.of_contributions h'.senders hperm
  have htriggers := Tracks.of_contributions h'.triggers hperm
  constructor
  · refine hsenders.tidy.lookup_congr h.senders.tidy ?_
    rw [hsenders.counts, h.senders.counts]
  · refine htriggers.tidy.lookup_congr h.triggers.tidy ?_
    rw [htriggers.counts, h.triggers.counts]

/-- **A change taken back while nobody judged in between** brings both count tables back. -/
theorem Learned.restore {later : Db} {as : List Act} (h : Learned lower isAlphanumeric db)
    (hmade : Made lower isAlphanumeric db change db') (hrun : Runs.run (Spam.step lower isAlphanumeric) db' as = some later)
    (hquiet : (contributions later).Perm (contributions db'))
    (hcurrent : spamJudgmentState later change.account change.messageId = change.after) :
    ∃ restored, revertSpamJudgment lower isAlphanumeric later change = (some change.inverse, restored) ∧
      ∀ k, Table.lookup Count.key restored.senders k = Table.lookup Count.key db.senders k ∧
        Table.lookup Count.key restored.triggers k = Table.lookup Count.key db.triggers k := by
  obtain ⟨hbefore, hwrite⟩ := hmade.write
  have hlater := (hmade.learned h).run hrun
  have hcached : change.after = none → change.before.isSome = true →
      Spam.cached later change.account change.messageId = true := by
    intro _ hsome
    obtain ⟨state, hstate⟩ := Option.isSome_iff_exists.mp hsome
    have hdb := h.cached_of_some (hbefore.symm.trans hstate)
    have hdb' : Spam.cached db' change.account change.messageId = true := by
      unfold Spam.cached at hdb ⊢
      rw [hwrite, write_messages]
      exact hdb
    exact (StaysCached.run (hmade.learned h) hrun).cached hdb'
  have hyes := revert_some lower isAlphanumeric hcurrent hcached
  refine ⟨_, hyes, h.lookup_congr ?_ ?_⟩
  · have hreverted := hlater.revert change
    rw [hyes] at hreverted
    exact hreverted
  · have hthere : (contributions db' ++ contribution change.account change.before).Perm
        (contributions db ++ contribution change.account change.after) := by
      rw [hwrite, hbefore]
      exact write_perm _ _ _ _ _ h.keyed
    have hback := write_perm lower isAlphanumeric change.account change.messageId change.before hlater.keyed
    rw [hcurrent] at hback ⊢
    exact (perm_append_right_iff _).mp (hback.trans ((hquiet.append_right _).trans hthere))

end Restore

/-- **The learned counts are the judgments**: after every run from empty tables they are exact, and a
change made then and taken back, while what was learned from stayed the same in between, restores both
tables. -/
theorem learned_counts_exact {messages : List MessageRow} {as : List Act} {db : Db}
    (hrun : Runs.run (step lower isAlphanumeric) (emptyTables messages) as = some db) : Exact lower isAlphanumeric db ∧
      ∀ change db' bs later, Made lower isAlphanumeric db change db' →
        Runs.run (step lower isAlphanumeric) db' bs = some later →
        (contributions later).Perm (contributions db') →
        spamJudgmentState later change.account change.messageId = change.after →
        ∃ restored, revertSpamJudgment lower isAlphanumeric later change = (some change.inverse, restored) ∧
          ∀ k, Table.lookup Count.key restored.senders k = Table.lookup Count.key db.senders k ∧
            Table.lookup Count.key restored.triggers k = Table.lookup Count.key db.triggers k := by
  have h : Learned lower isAlphanumeric db := Learned.empty.run hrun
  refine ⟨h.exact, ?_⟩
  intro change db' bs later hmade hrun' hquiet hcurrent
  exact h.restore hmade hrun' hquiet hcurrent

/-- A message with a prize. -/
def prize : MessageRow where
  id := 1
  account := "a"
  folder := "INBOX"
  uid := 7
  subject := some "Prize"
  fromAddr := some "x@example.com"
  date := 0
  threadKey := some "t"
  json := none

def prizeChange : SpamJudgmentChange where
  account := "a"
  messageId := 1
  before := none
  after := some ⟨true, "x@example.com", "Prize"⟩

def prizeJudged : Db :=
  (recordSpamJudgmentChange id Char.isAlphanum (emptyTables [prize]) "a" "INBOX" "t"
    true).2

/-- Judged spam, it counts once; taken back, nothing is left of it. -/
theorem prize_counted : Exact id Char.isAlphanum prizeJudged ∧
    ∃ restored, revertSpamJudgment id Char.isAlphanum prizeJudged prizeChange =
        (some prizeChange.inverse, restored) ∧
      ∀ k, Table.lookup Count.key restored.senders k = none ∧
        Table.lookup Count.key restored.triggers k = none :=
  have hrun : Runs.run (step id Char.isAlphanum) (emptyTables [prize])
      [.record "a" "INBOX" "t" true] = some prizeJudged := rfl
  have hempty : Runs.run (step id Char.isAlphanum) (emptyTables [prize]) [] =
      some (emptyTables [prize]) := rfl
  ⟨(learned_counts_exact hrun).1, (learned_counts_exact hempty).2 prizeChange prizeJudged [] prizeJudged
    (.inl ⟨"INBOX", "t", true, "x@example.com", by
      have : (recordSpamJudgmentChange id Char.isAlphanum (emptyTables [prize]) "a" "INBOX"
        "t" true).1 = some ⟨"x@example.com", prizeChange⟩ := by decide +kernel
      exact Prod.ext this rfl⟩) rfl (List.Perm.refl _) (by decide +kernel)⟩

end Oreneta.Spam

import Oreneta.Secrets.Migration

/-!
# An entry as one register

What the two services hold of an entry is one register: what is under `oreneta`, or else what is under `meron`
(`held`).  Reading and moving keep it, a store and a delete set it, and a load that answers gives it.

* `Sound` — what a process knows of the legacy copy is so.
* `loadReporting_spec`, `store_spec`, `delete_inv`, `dbKey_inv` — what each operation does to the register.
* `promise` — what a load has to give, after what was seen of the stores and deletes; `Inv` says that it will.
-/

namespace Oreneta.Secrets

open Prog List Option

/-! ## Keychain calls under faults -/

/-- No damaged value is left. -/
def Honest (f : Fault) : Prop := ∀ left reported, f ≠ .damages left reported

section Rules

variable {α : Type} {allowed : Fault → Prop} {S : World → Prop} {w : World} {service : Service} {key blob : Str}

theorem read_always {Q : Except Failure (Option Str) → World → Prop} (hstop : S w.restarted)
    (hfail : Q (.error .keychain) w) (hok : Q (.ok (w.entries service key)) w) : Always allowed S (read service key) Q w := by
  refine Always.of_fault ⟨_, _, rfl, hok⟩ fun f rest _ => ?_
  cases f with
  | works | damages => exact .inr ⟨_, _, rfl, hok⟩
  | fails => exact .inr ⟨_, _, rfl, hfail⟩
  | stops => exact .inl ⟨_, rfl, hstop⟩

variable {Q : Except Failure Unit → World → Prop}

theorem deleteEntry_always (hstop : S w.restarted) (hfail : Q (.error .keychain) w) (hok : Q (.ok ()) (w.put service key none)) :
    Always allowed S (deleteEntry service key) Q w := by
  refine Always.of_fault ⟨_, _, rfl, hok⟩ fun f rest _ => ?_
  cases f with
  | works | damages => exact .inr ⟨_, _, rfl, hok⟩
  | fails => exact .inr ⟨_, _, rfl, hfail⟩
  | stops => exact .inl ⟨_, rfl, hstop⟩

/-- A write; `hdamaged` is asked for where damage is allowed. -/
theorem write_always (hstop : S w.restarted) (hfail : Q (.error .keychain) w) (hok : Q (.ok ()) (w.put service key (some blob)))
    (hdamaged : ∀ left reported, allowed (.damages left reported) → ∀ r, Q r (w.put service key left)) :
    Always allowed S (write service key blob) Q w := by
  refine Always.of_fault ⟨_, _, rfl, hok⟩ fun f rest hf => ?_
  cases f with
  | works => exact .inr ⟨_, _, rfl, hok⟩
  | fails => exact .inr ⟨_, _, rfl, hfail⟩
  | stops => exact .inl ⟨_, rfl, hstop⟩
  | damages left reported => exact .inr ⟨_, _, rfl, hdamaged left reported hf _⟩

theorem honest_write (hstop : S w.restarted) (hfail : Q (.error .keychain) w) (hok : Q (.ok ()) (w.put service key (some blob))) :
    Always Honest S (write service key blob) Q w :=
  write_always hstop hfail hok fun left reported h => absurd rfl (h left reported)

/-- The world a program ends in, stopped or not. -/
theorem world_of_always {m : M α} (h : Always allowed S m (fun _ => S) w) {faults : List Fault}
    (hf : ∀ f ∈ faults, allowed f) : S (m (faults, w)).2.2 := by
  obtain ⟨hstop, hreturn⟩ := h faults hf
  cases he : m (faults, w) with
  | mk r x =>
    cases r with
    | none => exact hstop x.1 x.2 he
    | some a => exact (hreturn a x.1 x.2 he).2

end Rules

/-! ## The register -/

@[simp] theorem put_same (w : World) (service : Service) (key : Str) (value : Option Str) :
    (w.put service key value).entries service key = value := by simp [World.put]

@[simp] theorem put_meron (w : World) (key : Str) (value : Option Str) :
    (w.put .oreneta key value).entries .meron key = w.entries .meron key := by simp [World.put]

@[simp] theorem put_oreneta (w : World) (key : Str) (value : Option Str) :
    (w.put .meron key value).entries .oreneta key = w.entries .oreneta key := by simp [World.put]

theorem put_other (w : World) {service s : Service} {key k : Str} (value : Option Str) (h : k ≠ key) :
    (w.put service key value).entries s k = w.entries s k := by simp [World.put, h]

@[simp] theorem put_events (w : World) (service : Service) (key : Str) (value : Option Str) :
    (w.put service key value).events = w.events := rfl

/-- What is held of an entry. -/
def held (w : World) (key : Str) : Option Str := (w.entries .oreneta key).or (w.entries .meron key)

variable {b : Str}

theorem held_of_some {w : World} {key : Str} (h : w.entries .oreneta key = some b) : held w key = some b := by
  rw [held, h, some_or]

theorem held_of_none {w : World} {key : Str} (h : w.entries .oreneta key = none) : held w key = w.entries .meron key := by
  rw [held, h, none_or]

/-- What this process knows of the legacy copy is so. -/
structure Sound (w : World) (key : Str) : Prop where
  gone : w.known key = some .gone → w.entries .meron key = none
  unverified : w.known key = some .unverified →
    ∃ b, w.entries .oreneta key = some b ∧ w.entries .meron key = some b

theorem Sound.of_unknown {w : World} {key : Str} (h : w.known key = none) : Sound w key :=
  ⟨fun hk => (by rw [h] at hk; cases hk), fun hk => (by rw [h] at hk; cases hk)⟩

variable {state : Legacy}

theorem sound_settled {w : World} {key : Str} (hgone : state = .gone → w.entries .meron key = none)
    (hunverified : state = .unverified → ∃ b, w.entries .oreneta key = some b ∧ w.entries .meron key = some b) :
    Sound { w with known := fun k => if k = key then some state else w.known k } key := by
  constructor
  · intro h
    exact hgone (some.inj ((if_pos rfl).symm.trans h))
  · intro h
    exact hunverified (some.inj ((if_pos rfl).symm.trans h))

/-! ## Reading and moving keep the register -/

/-- What reading an entry leaves: the same is held of it, and nothing new under `meron`. -/
structure Loaded (key : Str) (w t : World) : Prop where
  held : held t key = held w key
  events : t.events = w.events
  sound : Sound t key
  legacy : t.entries .meron key = w.entries .meron key ∨ t.entries .meron key = none

theorem Loaded.refl {key : Str} {w : World} (h : Sound w key) : Loaded key w w := ⟨rfl, rfl, h, .inl rfl⟩

variable {t : World}

theorem Loaded.restarted {key : Str} {w : World} (hheld : Secrets.held t key = Secrets.held w key)
    (hevents : t.events = w.events) (hlegacy : t.entries .meron key = w.entries .meron key ∨ t.entries .meron key = none) :
    Loaded key w t.restarted := ⟨hheld, hevents, Sound.of_unknown rfl, hlegacy⟩

/-- What is known settled after a step that kept the register. -/
theorem Loaded.settled {key : Str} {w : World} (hheld : Secrets.held t key = Secrets.held w key)
    (hevents : t.events = w.events) (hlegacy : t.entries .meron key = w.entries .meron key ∨ t.entries .meron key = none)
    (hgone : state = .gone → t.entries .meron key = none)
    (hunverified : state = .unverified → ∃ b, t.entries .oreneta key = some b ∧ t.entries .meron key = some b) :
    Loaded key w { t with known := fun k => if k = key then some state else t.known k } :=
  ⟨hheld, hevents, sound_settled hgone hunverified, hlegacy⟩

/-- The register kept, before what is known is settled. -/
structure Moving (key : Str) (w : World) (state : Legacy) (t : World) : Prop where
  held : held t key = held w key
  events : t.events = w.events
  legacy : t.entries .meron key = w.entries .meron key ∨ t.entries .meron key = none
  gone : state = .gone → t.entries .meron key = none
  unverified : state = .unverified → ∃ b, t.entries .oreneta key = some b ∧ t.entries .meron key = some b

theorem Moving.settle {key : Str} {w : World} (h : Moving key w state t) :
    Loaded key w { t with known := fun k => if k = key then some state else t.known k } :=
  Loaded.settled h.held h.events h.legacy h.gone h.unverified

/-- Nothing was done, and nothing is known that would have to be so. -/
theorem Moving.refl {key : Str} {w : World} (hgone : state ≠ .gone) (hunverified : state ≠ .unverified) :
    Moving key w state w := ⟨rfl, rfl, .inl rfl, fun h => absurd h hgone, fun h => absurd h hunverified⟩

/-- The entry under `oreneta` is in place: the legacy one may go. -/
theorem deleteLegacy_moving {key : Str} {w : World} (hcurrent : t.entries .oreneta key = some b)
    (hheld : held w key = some b) (hevents : t.events = w.events) (hlegacy : t.entries .meron key = w.entries .meron key) :
    Always Honest (Loaded key w) (deleteLegacy key) (Moving key w) t := by
  have hsame : held t key = held w key := (held_of_some hcurrent).trans hheld.symm
  unfold deleteLegacy
  refine Always.into (deleteEntry_always (Loaded.restarted hsame hevents (.inl hlegacy)) ?_ ?_)
  · exact Always.pure ⟨hsame, hevents, .inl hlegacy, (by rintro ⟨⟩), (by rintro ⟨⟩)⟩
  · refine Always.pure ⟨?_, hevents, .inr (put_same t _ key _), fun _ => put_same t _ key _, (by rintro ⟨⟩)⟩
    rw [held_of_some ((put_oreneta t key none).trans hcurrent), hheld]

theorem retire_moving {key : Str} {w : World} (hcurrent : w.entries .oreneta key = some b) :
    Always Honest (Loaded key w) (retire key b) (Moving key w) w := by
  unfold retire
  refine Always.into (read_always (Loaded.restarted rfl rfl (.inl rfl)) ?_ ?_)
  · exact Always.pure (Moving.refl (by decide) (by decide))
  · cases hold : w.entries .meron key with
    | none => exact Always.pure ⟨rfl, rfl, .inl rfl, fun _ => hold, (by rintro ⟨⟩)⟩
    | some legacy =>
      simp only
      split
      · exact deleteLegacy_moving hcurrent (held_of_some hcurrent) rfl rfl
      · exact Always.pure (Moving.refl (by decide) (by decide))

theorem verified_always {allowed : Fault → Prop} {S : World → Prop} {Q : Except Mismatch Unit → World → Prop} {key : Str} {w : World}
    (hstop : S w.restarted) (hok : w.entries .oreneta key = some b → Q (.ok ()) w) (hunreadable : Q (.error .unreadable) w)
    (hdamaged : w.entries .oreneta key ≠ some b → Q (.error .damaged) w) : Always allowed S (verified key b) Q w := by
  unfold verified
  refine Always.into (read_always hstop (Always.pure hunreadable) ?_)
  cases hcurrent : w.entries .oreneta key with
  | none => exact Always.pure (hdamaged (by rw [hcurrent]; exact (some_ne_none b).symm))
  | some found =>
    simp only
    split
    · rename_i hsame
      exact Always.pure (hok (hsame ▸ hcurrent))
    · rename_i hother
      exact Always.pure (hdamaged fun h => hother (some.inj (hcurrent.symm.trans h)))

theorem copy_moving {key : Str} {w : World} (hcurrent : w.entries .oreneta key = none)
    (hold : w.entries .meron key = some b) : Always Honest (Loaded key w) (copy key b) (Moving key w) w := by
  have hheld : held w key = some b := (held_of_none hcurrent).trans hold
  have hput : held (w.put .oreneta key (some b)) key = held w key := (held_of_some (put_same w _ key _)).trans hheld.symm
  have hmeron : (w.put .oreneta key (some b)).entries .meron key = w.entries .meron key := put_meron w key _
  have hstop : Loaded key w (w.put .oreneta key (some b)).restarted := Loaded.restarted hput rfl (.inl hmeron)
  unfold copy
  refine Always.into (honest_write (Loaded.restarted rfl rfl (.inl rfl)) ?_ ?_)
  · exact Always.pure (Moving.refl (by decide) (by decide))
  refine Always.into (verified_always hstop (fun _ => deleteLegacy_moving (put_same w _ key _) hheld rfl hmeron) ?_
    (fun hother => absurd (put_same w _ key _) hother))
  · refine Always.into (deleteEntry_always hstop ?_ ?_)
    · exact Always.pure ⟨hput, rfl, .inl hmeron, (by rintro ⟨⟩), fun _ => ⟨b, put_same w _ key _, hmeron.trans hold⟩⟩
    · have hback : ((w.put .oreneta key (some b)).put .oreneta key none).entries .meron key = w.entries .meron key := by
        rw [put_meron, put_meron]
      refine Always.pure ⟨?_, rfl, .inl hback, (by rintro ⟨⟩), (by rintro ⟨⟩)⟩
      rw [held_of_none (put_same _ _ key _), hback, hold, hheld]

/-- What a load answers is what was held. -/
def Answers (key : Str) (w : World) (r : Except Failure (Option Str × Option Outcome)) (t : World) : Prop :=
  Loaded key w t ∧ ∀ p, r = .ok p → p.1 = held w key

theorem answers_error {key : Str} {w : World} {e : Failure} (h : Loaded key w t) : Answers key w (.error e) t :=
  ⟨h, fun _ he => by cases he⟩

theorem answers_ok {key : Str} {w : World} {blob : Option Str} {outcome : Option Outcome} (h : Loaded key w t)
    (hb : blob = held w key) : Answers key w (.ok (blob, outcome)) t :=
  ⟨h, fun _ he => by cases he; exact hb⟩

theorem loadLegacy_spec {key : Str} {w : World} {known : Option Legacy} (h : Sound w key) (hknown : known = w.known key)
    (hcurrent : w.entries .oreneta key = none) : Always Honest (Loaded key w) (loadLegacy key known) (Answers key w) w := by
  have hheld := held_of_none hcurrent
  unfold loadLegacy
  refine Always.into (read_always (Loaded.restarted rfl rfl (.inl rfl)) ?_ ?_)
  · cases known with
    | some _ => exact Always.pure (answers_error (Loaded.refl h))
    | none =>
      have hdeferred : Moving key w .deferred w := Moving.refl (by decide) (by decide)
      exact Always.into (Always.modify (Always.pure (answers_error hdeferred.settle)))
  · cases hold : w.entries .meron key with
    | none =>
      have hgone : Moving key w .gone w := ⟨rfl, rfl, .inl rfl, fun _ => hold, (by rintro ⟨⟩)⟩
      exact Always.into (Always.modify (Always.pure (answers_ok hgone.settle (by rw [hheld, hold]))))
    | some b =>
      cases known with
      | some _ => exact Always.pure (answers_ok (Loaded.refl h) (by rw [hheld, hold]))
      | none =>
        refine Always.bind (copy_moving hcurrent hold) fun state t ht => ?_
        exact Always.into (Always.modify (Always.pure (answers_ok ht.settle (by rw [hheld, hold]))))

theorem loadCurrent_spec {key : Str} {w : World} {known : Option Legacy} (h : Sound w key) (hknown : known = w.known key) :
    Always Honest (Loaded key w) (loadCurrent key known) (Answers key w) w := by
  unfold loadCurrent
  refine Always.into (read_always (Loaded.restarted rfl rfl (.inl rfl)) ?_ ?_)
  · exact Always.pure (answers_error (Loaded.refl h))
  · cases hcurrent : w.entries .oreneta key with
    | some b =>
      have hheld := held_of_some hcurrent
      cases known with
      | some _ => exact Always.pure (answers_ok (Loaded.refl h) hheld.symm)
      | none =>
        refine Always.bind (retire_moving hcurrent) fun state t ht => ?_
        exact Always.into (Always.modify (Always.pure (answers_ok ht.settle hheld.symm)))
    | none =>
      simp only
      split
      · rename_i hgone
        have hold := h.gone (hknown ▸ hgone)
        exact Always.pure (answers_ok (Loaded.refl h) (by rw [held_of_none hcurrent, hold]))
      · exact loadLegacy_spec h hknown hcurrent

/-- **Reading an entry keeps what is held of it, and answers it.** -/
theorem loadReporting_spec {key : Str} {w : World} (h : Sound w key) :
    Always Honest (Loaded key w) (loadReporting key) (Answers key w) w := by
  unfold loadReporting legacy
  refine Always.into (Always.gets ?_)
  split
  · rename_i hunverified
    obtain ⟨b, hcurrent, hold⟩ := h.unverified hunverified
    refine Always.into (read_always (Loaded.restarted rfl rfl (.inl rfl)) ?_ ?_)
    · exact Always.pure (answers_error (Loaded.refl h))
    · rw [hold]
      exact Always.pure (answers_ok (Loaded.refl h) (held_of_some hcurrent).symm)
  · exact loadCurrent_spec h rfl

theorem load_spec {key : Str} {w : World} (h : Sound w key) : Always Honest (Loaded key w) (load key)
    (fun r t => Loaded key w t ∧ ∀ v, r = .ok v → v = held w key) w := by
  unfold load
  refine Always.bind (loadReporting_spec h) ?_
  rintro (e | ⟨blob, outcome⟩) t ⟨ht, hanswer⟩
  · exact Always.pure ⟨ht, fun _ he => by cases he⟩
  · exact Always.pure ⟨ht, fun _ he => by cases he; exact hanswer _ rfl⟩

/-! ## What was promised -/

def Event.key : Event → Str
  | .storing key | .unwritten key | .stored key _ | .deleting key | .deleted key | .minting key _ _ => key

/-- What a load of an entry has to give. -/
inductive Promise where
  | kept (value : Option Str)
  /-- A store was called and has not returned; before it, this was promised. -/
  | storing (before : Promise)
  | nothing
  deriving DecidableEq, Repr

def Promise.next : Promise → Event → Promise
  | p, .storing _ => .storing p
  | .storing p, .unwritten _ => p
  | _, .unwritten _ => .nothing
  | _, .stored _ blob => .kept (some blob)
  | _, .deleting _ => .nothing
  | _, .deleted _ => .kept none
  | p, .minting _ _ _ => p

/-- The promise for an entry that first held `original`, after these events. -/
def promise (key : Str) (original : Option Str) (events : List Event) : Promise :=
  (events.filter (fun e => decide (e.key = key))).foldl Promise.next (.kept original)

section Promises

variable {key : Str} {original : Option Str} {events : List Event}

theorem promise_append (k : Str) (e : Event) (h : e.key = k) :
    promise k original (events ++ [e]) = (promise k original events).next e := by
  simp [promise, filter_append, h]

/-- A store that returned is what loads give. -/
theorem promise_stored (blob : Str) :
    promise key original (events ++ [.storing key] ++ [.stored key blob]) = .kept (some blob) := by
  rw [promise_append key _ rfl, promise_append key _ rfl]
  rfl

/-- A store whose write failed leaves what was promised. -/
theorem promise_unwritten :
    promise key original (events ++ [.storing key] ++ [.unwritten key]) = promise key original events := by
  rw [promise_append key _ rfl, promise_append key _ rfl]
  rfl

/-- An entry deleted gives nothing. -/
theorem promise_deleted : promise key original (events ++ [.deleting key] ++ [.deleted key]) = .kept none := by
  rw [promise_append key _ rfl, promise_append key _ rfl]
  cases promise key original events <;> rfl

end Promises

/-- What holds of an entry all along a run without damage. -/
structure Inv (key : Str) (original : Option Str) (w : World) : Prop where
  sound : Sound w key
  kept : ∀ v, promise key original w.events = .kept v → held w key = v

theorem Loaded.inv {key : Str} {original : Option Str} {w : World} (h : Loaded key w t) (hinv : Inv key original w) :
    Inv key original t :=
  ⟨h.sound, fun v hv => h.held.trans (hinv.kept v (h.events ▸ hv))⟩

/-- What is known of an entry and what is promised of it, once it is noted that a store of it began. -/
theorem storing_inv {key : Str} {original : Option Str} {w : World} (hsound : Sound t key)
    (hevents : t.events = w.events ++ [.storing key]) : Inv key original t := by
  refine ⟨hsound, fun v hv => ?_⟩
  rw [hevents, promise_append key _ rfl] at hv
  cases hv

/-! ## Writing sets the register -/

/-- After a write that worked: what it left stays, whatever becomes of the legacy copy. -/
structure Replaced (key blob : Str) (events : List Event) (t : World) : Prop where
  current : t.entries .oreneta key = some blob
  events : t.events = events
  sound : Sound t key

theorem replaceLegacy_spec {key blob : Str} {w : World} (hcurrent : w.entries .oreneta key = some blob)
    (hgone : w.known key = some .gone → w.entries .meron key = none) {S : World → Prop}
    (hstop : ∀ t, t.known key = none → t.events = w.events → S t) :
    Always Honest S (replaceLegacy key blob) (fun r t => r = .ok () ∧ Replaced key blob w.events t) w := by
  have hsettled : ∀ {t : World} (state : Legacy), t.entries .oreneta key = some blob → t.events = w.events →
      (state = .gone → t.entries .meron key = none) → state ≠ .unverified →
      Always Honest S (do settle key state; pure (Except.ok () : Except Failure Unit)) (fun r t => r = .ok () ∧ Replaced key blob w.events t) t :=
    fun state hcur hevents hstate hne => Always.into (Always.modify (Always.pure
      ⟨rfl, hcur, hevents, sound_settled hstate fun he => absurd he hne⟩))
  unfold replaceLegacy legacy
  refine Always.into (Always.gets ?_)
  split
  · rename_i hknown
    refine Always.pure ⟨rfl, hcurrent, rfl, hgone, ?_⟩
    intro hunverified
    rcases hknown with h | h <;> rw [h] at hunverified <;> cases hunverified
  refine Always.into (read_always (hstop _ rfl rfl) (hsettled .held hcurrent rfl (by rintro ⟨⟩) (by decide)) ?_)
  cases hold : w.entries .meron key with
  | none => exact hsettled .gone hcurrent rfl (fun _ => hold) (by decide)
  | some old =>
    refine Always.into (verified_always (hstop _ rfl rfl) (fun _ => ?_) (hsettled .held hcurrent rfl (by rintro ⟨⟩) (by decide))
      (fun hother => absurd hcurrent hother))
    refine Always.bind (R := fun state v => v.entries .oreneta key = some blob ∧ v.events = w.events ∧
      (state = .gone → v.entries .meron key = none)) ?_ ?_
    · unfold deleteLegacy
      refine Always.into (deleteEntry_always (hstop _ rfl rfl) ?_ ?_)
      · exact Always.pure ⟨hcurrent, rfl, (by rintro ⟨⟩)⟩
      · exact Always.pure ⟨(put_oreneta w key none).trans hcurrent, rfl, fun _ => put_same w _ key none⟩
    · rintro state v ⟨hcur, hevents, hstate⟩
      refine hsettled _ hcur hevents ?_ (by split <;> decide)
      intro he
      split at he
      · rename_i hg
        exact hstate hg
      · cases he

/-- **A store sets what is held**, or leaves it when its write failed. -/
theorem store_spec {key blob : Str} {w : World} (h : Sound w key) :
    Always Honest (fun t => Sound t key ∧ t.events = w.events ++ [.storing key]) (store key blob) (fun r t => Sound t key ∧
        ((r = .ok () ∧ held t key = some blob ∧ t.events = w.events ++ [.storing key] ++ [.stored key blob]) ∨
          (r ≠ .ok () ∧ held t key = held w key ∧ t.events = w.events ++ [.storing key] ++ [.unwritten key]))) w := by
  unfold store writeThrough note
  refine Always.into (Always.modify ?_)
  generalize ht : ({ w with events := w.events ++ [.storing key] } : World) = t
  have hevents : t.events = w.events ++ [.storing key] := by rw [← ht]
  have hentries : t.entries = w.entries := by rw [← ht]
  have hknown : t.known = w.known := by rw [← ht]
  refine Always.into (honest_write ⟨Sound.of_unknown rfl, hevents⟩ ?_ ?_)
  · refine Always.into (Always.modify (Always.pure ⟨⟨?_, ?_⟩, .inr ⟨by rintro ⟨⟩, ?_, ?_⟩⟩))
    · intro hg
      rw [hentries]
      exact h.gone (hknown ▸ hg)
    · intro hu
      rw [hentries]
      exact h.unverified (hknown ▸ hu)
    · rw [held, held, hentries]
    · rw [hevents]
  · have hgone : (t.put .oreneta key (some blob)).known key = some .gone →
        (t.put .oreneta key (some blob)).entries .meron key = none := by
      intro hg
      rw [put_meron, hentries]
      exact h.gone (hknown ▸ hg)
    refine Always.bind (replaceLegacy_spec (put_same t _ key _) hgone
      (fun v hv he => ⟨Sound.of_unknown hv, he.trans hevents⟩)) ?_
    rintro r v ⟨rfl, hreplaced⟩
    refine Always.into (Always.modify (Always.pure ⟨⟨hreplaced.sound.gone, hreplaced.sound.unverified⟩, .inl ⟨rfl, ?_, ?_⟩⟩))
    · exact held_of_some hreplaced.current
    · rw [hreplaced.events, put_events, hevents]

theorem store_inv {key blob : Str} {original : Option Str} {w : World} (h : Inv key original w) :
    Always Honest (Inv key original) (store key blob)
      (fun _ t => Inv key original t ∧ ∃ more, t.events = w.events ++ more) w := by
  refine (store_spec h.sound).mono (fun t ht => storing_inv ht.1 ht.2) ?_
  rintro r t ⟨hsound, ⟨-, hheld, hevents⟩ | ⟨-, hheld, hevents⟩⟩
  · refine ⟨⟨hsound, fun v hv => ?_⟩, _, hevents.trans (append_assoc _ _ _)⟩
    rw [hevents, promise_stored, Promise.kept.injEq] at hv
    rw [hheld, hv]
  · refine ⟨⟨hsound, fun v hv => ?_⟩, _, hevents.trans (append_assoc _ _ _)⟩
    rw [hevents, promise_unwritten] at hv
    rw [hheld]
    exact h.kept v hv

/-- **A delete that returns leaves nothing.** -/
theorem delete_inv {key : Str} {original : Option Str} {w : World} (h : Inv key original w) :
    Always Honest (Inv key original) (delete key) (fun _ t => Inv key original t) w := by
  have hnothing : ∀ {t : World}, Sound t key → t.events = w.events ++ [.deleting key] → Inv key original t := by
    intro t hsound hevents
    refine ⟨hsound, fun v hv => ?_⟩
    rw [hevents, promise_append key _ rfl] at hv
    cases hp : promise key original w.events <;> rw [hp] at hv <;> cases hv
  unfold delete deleteBoth note
  refine Always.into (Always.modify ?_)
  generalize ht : ({ w with events := w.events ++ [.deleting key] } : World) = t
  have hevents : t.events = w.events ++ [.deleting key] := by rw [← ht]
  have hsound : Sound t key := by rw [← ht]; exact ⟨h.sound.gone, h.sound.unverified⟩
  refine Always.into (deleteEntry_always (hnothing (Sound.of_unknown rfl) hevents) (Always.pure (hnothing hsound hevents)) ?_)
  refine Always.bind (R := fun _ u => Sound u key ∧ u.events = t.events ∧ u.entries .meron key = none)
    (Always.modify ⟨sound_settled (fun _ => put_same t _ key none) (by rintro ⟨⟩), rfl, put_same t _ key none⟩) ?_
  rintro - u ⟨hu, huevents, hold⟩
  refine Always.into (deleteEntry_always (hnothing (Sound.of_unknown rfl) (huevents.trans hevents))
    (Always.pure (hnothing hu (huevents.trans hevents))) ?_)
  have hnone : (u.put .oreneta key none).entries .meron key = none := (put_meron u key none).trans hold
  refine Always.into (Always.modify (Always.pure ⟨⟨fun _ => hnone, ?_⟩, fun value hv => ?_⟩))
  · intro hunverified
    obtain ⟨b, -, hb⟩ := hu.unverified hunverified
    rw [hold] at hb
    cases hb
  · have hpromise : promise key original (u.events ++ [.deleted key]) = .kept none := by
      rw [huevents, hevents, promise_deleted]
    rw [← Promise.kept.inj (hpromise.symm.trans hv)]
    exact (held_of_none (put_same u _ key none)).trans hnone

/-! ## The store's key -/

/-- A key was minted where neither service held a good one. -/
def Minted (valid : Str → Bool) (key : Str) (before after : List Event) : Prop :=
  ∃ current legacy more, after = before ++ .minting key current legacy :: more ∧
    (∀ b, current = some b → valid b = false) ∧ ∀ b, legacy = some b → valid b = false

theorem mintKey_inv {valid : Str → Bool} {key fresh : Str} {original : Option Str} {w : World}
    (h : Inv key original w) (hnone : ∀ service b, w.entries service key = some b → valid b = false) :
    Always Honest (Inv key original) (mintKey key fresh)
      (fun r t => Inv key original t ∧ ∀ k, r = .ok k → Minted valid key w.events t.events) w := by
  unfold mintKey note
  refine Always.bind (R := fun _ t => Inv key original t ∧
    t.events = w.events ++ [.minting key (w.entries .oreneta key) (w.entries .meron key)]) (Always.modify ⟨?_, rfl⟩) ?_
  · refine ⟨⟨h.sound.gone, h.sound.unverified⟩, fun v hv => h.kept v ?_⟩
    rw [promise_append key _ rfl] at hv
    cases hp : promise key original w.events <;> rw [hp] at hv <;> exact hv
  rintro - t ⟨ht, hevents⟩
  refine Always.bind (store_inv ht) ?_
  rintro (e | ⟨⟩) u ⟨hu, more, hmore⟩
  · exact Always.pure ⟨hu, fun _ he => by cases he⟩
  · refine Always.pure ⟨hu, fun _ _ => ⟨_, _, more, ?_, hnone .oreneta, hnone .meron⟩⟩
    rw [hmore, hevents, append_assoc, singleton_append]

/-- **The key given was held, or was minted where there was no good one.** -/
theorem dbKey_inv {valid : Str → Bool} {key fresh : Str} {original : Option Str} {w : World} (h : Inv key original w) :
    Always Honest (Inv key original) (dbKey valid key fresh) (fun r t => Inv key original t ∧
        ∀ k, r = .ok k → (∃ service, w.entries service key = some k) ∨ Minted valid key w.events t.events) w := by
  have hmint : ∀ {t : World}, Loaded key w t → (∀ service b, t.entries service key = some b → valid b = false) →
      Always Honest (Inv key original) (mintKey key fresh) (fun r u => Inv key original u ∧
        ∀ k, r = .ok k → (∃ service, w.entries service key = some k) ∨ Minted valid key w.events u.events) t := by
    intro t ht hnone
    refine (mintKey_inv (ht.inv h) hnone).mono (fun _ hu => hu) ?_
    rintro r u ⟨hu, hminted⟩
    exact ⟨hu, fun k hk => .inr (ht.events ▸ hminted k hk)⟩
  have hcurrent : ∀ {t : World} {b : Str}, Loaded key w t → t.entries .oreneta key = some b → held w key = some b :=
    fun ht hb => ht.held.symm.trans (held_of_some hb)
  unfold dbKey
  refine Always.bind ((load_spec h.sound).mono (fun t ht => ht.inv h) fun r t ht => ht) ?_
  rintro (e | found) t ⟨ht, hanswer⟩
  · exact Always.pure ⟨ht.inv h, fun _ he => by cases he⟩
  have hfound := hanswer _ rfl
  cases found with
  | none =>
    refine hmint ht ?_
    intro service b hb
    have hnone : t.entries .oreneta key = none ∧ t.entries .meron key = none := by
      have := ht.held.trans hfound.symm
      rwa [held, or_eq_none_iff] at this
    cases service with
    | oreneta => rw [hnone.1] at hb; cases hb
    | meron => rw [hnone.2] at hb; cases hb
  | some found =>
    simp only
    split
    · refine Always.pure ⟨ht.inv h, fun k hk => .inl ?_⟩
      cases hk
      cases ho : w.entries .oreneta key with
      | some b =>
        rw [held_of_some ho] at hfound
        exact ⟨.oreneta, ho.trans hfound.symm⟩
      | none =>
        rw [held_of_none ho] at hfound
        exact ⟨.meron, hfound.symm⟩
    rename_i hbad
    have hbadCurrent : ∀ b, t.entries .oreneta key = some b → valid b = false := by
      intro b hb
      have := (hcurrent ht hb).symm.trans hfound.symm
      rw [some.inj this]
      exact Bool.eq_false_iff.mpr hbad
    refine Always.into (read_always ((Loaded.restarted rfl rfl (.inl rfl)).inv (ht.inv h)) ?_ ?_)
    · exact Always.pure ⟨ht.inv h, fun _ he => by cases he⟩
    cases hold : t.entries .meron key with
    | none =>
      refine hmint ht ?_
      intro service b hb
      cases service with
      | oreneta => exact hbadCurrent b hb
      | meron => rw [hold] at hb; cases hb
    | some legacy =>
      simp only
      split
      · refine Always.bind (store_inv (ht.inv h)) ?_
        rintro r v ⟨hv, -⟩
        refine Always.pure ⟨hv, fun k hk => .inl ⟨.meron, ?_⟩⟩
        cases hk
        rcases ht.legacy with hsame | hnone
        · exact hsame.symm.trans hold
        · rw [hnone] at hold
          cases hold
      · rename_i hbadLegacy
        refine hmint ht ?_
        intro service b hb
        cases service with
        | oreneta => exact hbadCurrent b hb
        | meron =>
          rw [hold] at hb
          cases hb
          exact Bool.eq_false_iff.mpr hbadLegacy

end Oreneta.Secrets

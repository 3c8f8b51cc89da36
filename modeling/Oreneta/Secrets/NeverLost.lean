import Oreneta.Secrets.Register

/-!
# No secret is lost or comes back

Over every run of the program: the original of an entry stays under one of the services until a store or a
delete is called, what was promised of it is what loads give, and a key is minted only where neither service
holds a good one.

* `Steady`, `Respects` — a relation that everything done to an entry respects, its operations respect; with it,
  an operation on another entry leaves this one (`Apart`), and no event is forgotten.
* `Original` — the original is under one of the services, also where writes leave damage.
* `never_lost` — the results over runs.
-/

namespace Oreneta.Secrets

open Prog List

/-! ## What every operation respects -/

/-- A relation between worlds that everything done to an entry respects. -/
structure Steady (R : World → World → Prop) (key : Str) : Prop where
  refl : ∀ w, R w w
  trans : ∀ {w t u}, R w t → R t u → R w u
  forgotten : ∀ w, R w w.restarted
  put : ∀ w service value, R w (w.put service key value)
  settle : ∀ (w : World) (state : Legacy), R w { w with known := fun k => if k = key then some state else w.known k }
  note : ∀ (w : World) (e : Event), e.key = key → R w { w with events := w.events ++ [e] }

/-- The program respects the relation, whatever faults it meets. -/
def Respects {α : Type} (R : World → World → Prop) (m : M α) : Prop :=
  ∀ (allowed : Fault → Prop) (w : World), Always allowed (R w) m (fun _ t => R w t) w

section Respecting

variable {α β : Type} {R : World → World → Prop} {key : Str}

theorem Steady.pure (h : Steady R key) (a : α) : Respects R (Pure.pure a : M α) := fun _ w => Always.pure (h.refl w)

theorem Steady.bind (h : Steady R key) {m : M α} {f : α → M β} (hm : Respects R m) (hf : ∀ a, Respects R (f a)) :
    Respects R (m >>= f) := by
  intro allowed w
  refine Always.bind (hm allowed w) ?_
  intro a t ht
  exact (hf a allowed t).mono (fun _ hu => h.trans ht hu) fun _ _ hu => h.trans ht hu

variable (h : Steady R key)

include h

theorem respects_read (service : Service) : Respects R (read service key) := fun _ w =>
  read_always (h.forgotten w) (h.refl w) (h.refl w)

theorem respects_write (service : Service) (blob : Str) : Respects R (write service key blob) := fun _ w =>
  write_always (h.forgotten w) (h.refl w) (h.put w service _) fun left _ _ _ => h.put w service left

theorem respects_deleteEntry (service : Service) : Respects R (deleteEntry service key) := fun _ w =>
  deleteEntry_always (h.forgotten w) (h.refl w) (h.put w service _)

theorem respects_legacy : Respects R (legacy key) := fun _ w => Always.gets (h.refl w)

theorem respects_settle (state : Legacy) : Respects R (settle key state) := fun _ w => Always.modify (h.settle w state)

theorem respects_note {event : World → Event} (hevent : ∀ w, (event w).key = key) : Respects R (note event) :=
  fun _ w => Always.modify (h.note w (event w) (hevent w))

theorem respects_verified (blob : Str) : Respects R (verified key blob) := by
  refine h.bind (respects_read h .oreneta) ?_
  rintro (e | _ | copy)
  · exact h.pure _
  · exact h.pure _
  · simp only
    split
    · exact h.pure _
    · exact h.pure _

theorem respects_deleteLegacy : Respects R (deleteLegacy key) := by
  refine h.bind (respects_deleteEntry h .meron) ?_
  rintro (e | ⟨⟩)
  · exact h.pure _
  · exact h.pure _

theorem respects_retire (current : Str) : Respects R (retire key current) := by
  refine h.bind (respects_read h .meron) ?_
  rintro (e | _ | legacy)
  · exact h.pure _
  · exact h.pure _
  · simp only
    split
    · exact respects_deleteLegacy h
    · exact h.pure _

theorem respects_copy (blob : Str) : Respects R (copy key blob) := by
  refine h.bind (respects_write h .oreneta blob) ?_
  rintro (e | ⟨⟩)
  · exact h.pure _
  refine h.bind (respects_verified h blob) ?_
  rintro (e | ⟨⟩)
  · refine h.bind (respects_deleteEntry h .oreneta) ?_
    rintro (e | ⟨⟩)
    · exact h.pure _
    · exact h.pure _
  · exact respects_deleteLegacy h

theorem respects_loadLegacy (known : Option Legacy) : Respects R (loadLegacy key known) := by
  refine h.bind (respects_read h .meron) ?_
  rintro (e | _ | blob)
  · cases known with
    | some _ => exact h.pure _
    | none => exact h.bind (respects_settle h _) fun _ => h.pure _
  · exact h.bind (respects_settle h _) fun _ => h.pure _
  · cases known with
    | some _ => exact h.pure _
    | none =>
      exact h.bind (respects_copy h blob) fun _ => h.bind (respects_settle h _) fun _ => h.pure _

theorem respects_loadCurrent (known : Option Legacy) : Respects R (loadCurrent key known) := by
  refine h.bind (respects_read h .oreneta) ?_
  rintro (e | _ | blob)
  · exact h.pure _
  · simp only
    split
    · exact h.pure _
    · exact respects_loadLegacy h known
  · cases known with
    | some _ => exact h.pure _
    | none =>
      exact h.bind (respects_retire h blob) fun _ => h.bind (respects_settle h _) fun _ => h.pure _

theorem respects_loadReporting : Respects R (loadReporting key) := by
  refine h.bind (respects_legacy h) ?_
  intro known
  split
  · refine h.bind (respects_read h .meron) ?_
    rintro (e | _ | blob)
    · exact h.pure _
    · exact respects_loadCurrent h known
    · exact h.pure _
  · exact respects_loadCurrent h known

theorem respects_load : Respects R (load key) := by
  refine h.bind (respects_loadReporting h) ?_
  rintro (e | ⟨blob, outcome⟩)
  · exact h.pure _
  · exact h.pure _

theorem respects_replaceLegacy (blob : Str) : Respects R (replaceLegacy key blob) := by
  have hsettled : ∀ (state : Legacy) (r : Except Failure Unit), Respects R (do settle key state; Pure.pure r) :=
    fun state r => h.bind (respects_settle h state) fun _ => h.pure r
  refine h.bind (respects_legacy h) ?_
  intro known
  split
  · exact h.pure _
  refine h.bind (respects_read h .meron) ?_
  rintro (e | _ | old)
  · exact hsettled _ _
  · exact hsettled _ _
  refine h.bind (respects_verified h blob) ?_
  rintro ((_ | _) | ⟨⟩)
  · refine h.bind (respects_deleteEntry h .oreneta) ?_
    rintro (e | ⟨⟩)
    · exact hsettled _ _
    · exact hsettled _ _
  · exact hsettled _ _
  · exact h.bind (respects_deleteLegacy h) fun state => hsettled _ _

theorem respects_writeThrough (blob : Str) : Respects R (writeThrough key blob) := by
  refine h.bind (respects_write h .oreneta blob) ?_
  rintro (e | ⟨⟩)
  · exact h.bind (respects_note h fun _ => rfl) fun _ => h.pure _
  refine h.bind (respects_replaceLegacy h blob) ?_
  rintro (e | ⟨⟩)
  · exact h.pure _
  · exact h.bind (respects_note h fun _ => rfl) fun _ => h.pure _

theorem respects_store (blob : Str) : Respects R (store key blob) :=
  h.bind (respects_note h fun _ => rfl) fun _ => respects_writeThrough h blob

theorem respects_deleteBoth : Respects R (deleteBoth key) := by
  refine h.bind (respects_deleteEntry h .meron) ?_
  rintro (e | ⟨⟩)
  · exact h.pure _
  refine h.bind (respects_settle h _) fun _ => h.bind (respects_deleteEntry h .oreneta) ?_
  rintro (e | ⟨⟩)
  · exact h.pure _
  · exact h.bind (respects_note h fun _ => rfl) fun _ => h.pure _

theorem respects_delete : Respects R (delete key) :=
  h.bind (respects_note h fun _ => rfl) fun _ => respects_deleteBoth h

theorem respects_mintKey (fresh : Str) : Respects R (mintKey key fresh) := by
  refine h.bind (respects_note h fun _ => rfl) fun _ => h.bind (respects_store h fresh) ?_
  rintro (e | ⟨⟩)
  · exact h.pure _
  · exact h.pure _

theorem respects_dbKey (valid : Str → Bool) (fresh : Str) : Respects R (dbKey valid key fresh) := by
  refine h.bind (respects_load h) ?_
  rintro (e | _ | found)
  · exact h.pure _
  · exact respects_mintKey h fresh
  simp only
  split
  · exact h.pure _
  refine h.bind (respects_read h .meron) ?_
  rintro (e | _ | legacy)
  · exact h.pure _
  · exact respects_mintKey h fresh
  simp only
  split
  · exact h.bind (respects_store h legacy) fun _ => h.pure _
  · exact respects_mintKey h fresh

end Respecting

/-! ## Other entries -/

/-- Nothing about the entry is different, but that what was known of it may be forgotten. -/
structure Apart (key : Str) (w t : World) : Prop where
  entries : ∀ service, t.entries service key = w.entries service key
  known : t.known key = w.known key ∨ t.known key = none
  events : t.events.filter (fun e => decide (e.key = key)) = w.events.filter (fun e => decide (e.key = key))

theorem apart_steady {key other : Str} (h : key ≠ other) : Steady (Apart key) other where
  refl _ := ⟨fun _ => rfl, .inl rfl, rfl⟩
  trans := by
    intro w t u hwt htu
    refine ⟨fun service => (htu.entries service).trans (hwt.entries service), ?_, htu.events.trans hwt.events⟩
    rcases htu.known with hk | hk
    · rw [hk]
      exact hwt.known
    · exact .inr hk
  forgotten _ := ⟨fun _ => rfl, .inr rfl, rfl⟩
  put w _ value := ⟨fun _ => put_other w value h, .inl rfl, rfl⟩
  settle _ _ := ⟨fun _ => rfl, .inl (if_neg h), rfl⟩
  note w e he := by
    have hne : ¬ e.key = key := fun hk => h (hk.symm.trans he)
    refine ⟨fun _ => rfl, .inl rfl, ?_⟩
    simp [filter_append, hne]

theorem Apart.inv {key : Str} {original : Option Str} {w t : World} (h : Apart key w t) (hinv : Inv key original w) :
    Inv key original t := by
  have hknown : ∀ {state : Legacy}, t.known key = some state → w.known key = some state := by
    intro state hk
    rcases h.known with he | he
    · exact he ▸ hk
    · rw [he] at hk
      cases hk
  refine ⟨⟨fun hk => ?_, fun hk => ?_⟩, fun v hv => ?_⟩
  · rw [h.entries]
    exact hinv.sound.gone (hknown hk)
  · rw [h.entries, h.entries]
    exact hinv.sound.unverified (hknown hk)
  · have hpromise : promise key original t.events = promise key original w.events := by
      rw [promise, promise, h.events]
    rw [held, h.entries, h.entries]
    exact hinv.kept v (hpromise ▸ hv)

/-- A program that leaves the entry keeps what holds of it. -/
theorem inv_of_respects {α : Type} {key : Str} {original : Option Str} {m : M α} {w : World} (hm : Respects (Apart key) m)
    (h : Inv key original w) : Always Honest (Inv key original) m (fun _ t => Inv key original t) w :=
  (hm Honest w).mono (fun _ ht => ht.inv h) fun _ _ ht => ht.inv h

theorem migrateFrom_inv {key : Str} {original : Option Str} : ∀ (keys : List Str) {summary : Summary} {w : World},
    Inv key original w → Always Honest (Inv key original) (migrateFrom summary keys) (fun _ t => Inv key original t) w
  | [], _, _, h => Always.pure h
  | k :: keys, summary, w, h => by
    refine Always.bind (R := fun _ t => Inv key original t) ?_ (fun answer t ht => migrateFrom_inv keys ht)
    by_cases hk : key = k
    · subst hk
      exact (loadReporting_spec h.sound).mono (fun t ht => ht.inv h) fun _ t ht => ht.1.inv h
    · exact inv_of_respects (respects_loadReporting (apart_steady hk)) h

/-- Every call keeps what holds of an entry, when it meets no damage. -/
theorem perform_inv {valid : Str → Bool} {key : Str} {original : Option Str} {w : World} {call : Call}
    {faults : List Fault} (h : Inv key original w) (hf : ∀ f ∈ faults, Honest f) :
    Inv key original (perform valid w (call, faults)) := by
  cases call with
  | load k =>
    refine world_of_always (?_ : Always Honest _ _ _ w) hf
    by_cases hk : key = k
    · subst hk
      exact (load_spec h.sound).mono (fun t ht => ht.inv h) fun _ t ht => ht.1.inv h
    · exact inv_of_respects (respects_load (apart_steady hk)) h
  | store k blob =>
    refine world_of_always (?_ : Always Honest _ _ _ w) hf
    by_cases hk : key = k
    · subst hk
      exact (store_inv h).mono (fun _ ht => ht) fun _ _ ht => ht.1
    · exact inv_of_respects (respects_store (apart_steady hk) blob) h
  | delete k =>
    refine world_of_always (?_ : Always Honest _ _ _ w) hf
    by_cases hk : key = k
    · subst hk
      exact delete_inv h
    · exact inv_of_respects (respects_delete (apart_steady hk)) h
  | dbKey k fresh =>
    refine world_of_always (?_ : Always Honest _ _ _ w) hf
    by_cases hk : key = k
    · subst hk
      exact (dbKey_inv h).mono (fun _ ht => ht) fun _ _ ht => ht.1
    · exact inv_of_respects (respects_dbKey (apart_steady hk) valid fresh) h
  | migrateAll keys => exact world_of_always (migrateFrom_inv keys h) hf
  | restart => exact ⟨Sound.of_unknown rfl, h.kept⟩

/-! ## The original, with damage -/

theorem grows_steady (key : Str) : Steady (fun w t => w.events ⊆ t.events) key where
  refl _ := fun _ he => he
  trans h h' := fun _ he => h' (h he)
  forgotten _ := fun _ he => he
  put _ _ _ := fun _ he => he
  settle _ _ := fun _ he => he
  note _ _ _ := fun _ he => mem_append_left _ he

/-- No store and no delete of the entry was called. -/
def Untouched (key : Str) (events : List Event) : Prop := .storing key ∉ events ∧ .deleting key ∉ events

/-- As long as nothing was stored or deleted, the original is under one of the services. -/
def Original (key v : Str) (w : World) : Prop :=
  Untouched key w.events → ∃ service, w.entries service key = some v

/-- The original is there, and nothing new was seen. -/
structure Stays (key v : Str) (w t : World) : Prop where
  events : t.events = w.events
  present : ∃ service, t.entries service key = some v

section Damage

variable {key v : Str} {w : World}

theorem Stays.refl (h : ∃ service, w.entries service key = some v) : Stays key v w w := ⟨rfl, h⟩

variable {t : World}

theorem Stays.forgotten (h : Stays key v w t) : Stays key v w t.restarted := ⟨h.events, h.present⟩

theorem deleteLegacy_stays (hcurrent : t.entries .oreneta key = some v) (hevents : t.events = w.events) :
    Always (fun _ => True) (Stays key v w) (deleteLegacy key) (fun _ u => Stays key v w u) t := by
  have ht : Stays key v w t := ⟨hevents, .oreneta, hcurrent⟩
  unfold deleteLegacy
  exact Always.into (deleteEntry_always ht.forgotten (Always.pure ht)
    (Always.pure ⟨hevents, .oreneta, (put_oreneta t key none).trans hcurrent⟩))

theorem retire_stays {b : Str} (hcurrent : w.entries .oreneta key = some b) (h : ∃ service, w.entries service key = some v) :
    Always (fun _ => True) (Stays key v w) (retire key b) (fun _ u => Stays key v w u) w := by
  have hw := Stays.refl h
  unfold retire
  refine Always.into (read_always hw.forgotten (Always.pure hw) ?_)
  cases hold : w.entries .meron key with
  | none => exact Always.pure hw
  | some legacy =>
    simp only
    split
    · rename_i hsame
      -- the two copies are the same, so the original is also the one that stays
      have hcur : w.entries .oreneta key = some v := by
        obtain ⟨service, hservice⟩ := h
        cases service with
        | oreneta => exact hservice
        | meron =>
          rw [hold] at hservice
          rw [hcurrent, ← hsame, hservice]
      exact deleteLegacy_stays hcur rfl
    · exact Always.pure hw

theorem copy_stays (hold : w.entries .meron key = some v) :
    Always (fun _ => True) (Stays key v w) (copy key v) (fun _ u => Stays key v w u) w := by
  have hw : Stays key v w w := ⟨rfl, .meron, hold⟩
  have hput : ∀ value, Stays key v w (w.put .oreneta key value) := fun value =>
    ⟨rfl, .meron, (put_meron w key value).trans hold⟩
  unfold copy
  refine Always.bind (R := fun _ u => u.events = w.events ∧ u.entries .meron key = some v)
    (write_always hw.forgotten ⟨rfl, hold⟩ ⟨rfl, (put_meron w key _).trans hold⟩
      (fun left _ _ _ => ⟨rfl, (put_meron w key left).trans hold⟩)) ?_
  rintro (e | ⟨⟩) u ⟨hevents, humeron⟩
  · exact Always.pure ⟨hevents, .meron, humeron⟩
  have hu : Stays key v w u := ⟨hevents, .meron, humeron⟩
  refine Always.into (verified_always hu.forgotten (fun hcur => deleteLegacy_stays hcur hevents) ?_ fun _ => ?_) <;>
    exact Always.into
      (deleteEntry_always hu.forgotten (Always.pure hu) (Always.pure ⟨hevents, .meron, (put_meron u key none).trans humeron⟩))

theorem settle_stays {β : Type} (h : Stays key v w t) (state : Legacy) (r : β) :
    Always (fun _ => True) (Stays key v w) (do settle key state; pure r) (fun _ u => Stays key v w u) t :=
  Always.into (Always.modify (Always.pure ⟨h.events, h.present⟩))

theorem loadLegacy_stays {known : Option Legacy} (hcurrent : w.entries .oreneta key = none)
    (h : ∃ service, w.entries service key = some v) :
    Always (fun _ => True) (Stays key v w) (loadLegacy key known) (fun _ u => Stays key v w u) w := by
  have hold : w.entries .meron key = some v := by
    obtain ⟨service, hservice⟩ := h
    cases service with
    | oreneta => rw [hcurrent] at hservice; cases hservice
    | meron => exact hservice
  have hw := Stays.refl h
  unfold loadLegacy
  refine Always.into (read_always hw.forgotten ?_ ?_)
  · cases known with
    | some _ => exact Always.pure hw
    | none => exact settle_stays hw _ _
  · rw [hold]
    cases known with
    | some _ => exact Always.pure hw
    | none => exact Always.bind (copy_stays hold) fun state _ ht => settle_stays ht state _

theorem loadCurrent_stays {known : Option Legacy} (h : ∃ service, w.entries service key = some v) :
    Always (fun _ => True) (Stays key v w) (loadCurrent key known) (fun _ u => Stays key v w u) w := by
  have hw := Stays.refl h
  unfold loadCurrent
  refine Always.into (read_always hw.forgotten (Always.pure hw) ?_)
  cases hcurrent : w.entries .oreneta key with
  | some b =>
    cases known with
    | some _ => exact Always.pure hw
    | none => exact Always.bind (retire_stays hcurrent h) fun state _ ht => settle_stays ht state _
  | none =>
    simp only
    split
    · exact Always.pure hw
    · exact loadLegacy_stays hcurrent h

theorem loadReporting_stays (h : ∃ service, w.entries service key = some v) :
    Always (fun _ => True) (Stays key v w) (loadReporting key) (fun _ u => Stays key v w u) w := by
  have hw := Stays.refl h
  unfold loadReporting legacy
  refine Always.into (Always.gets ?_)
  split
  · refine Always.into (read_always hw.forgotten (Always.pure hw) ?_)
    cases w.entries .meron key with
    | none => exact loadCurrent_stays h
    | some blob => exact Always.pure hw
  · exact loadCurrent_stays h

theorem load_stays (h : ∃ service, w.entries service key = some v) :
    Always (fun _ => True) (Stays key v w) (load key) (fun _ u => Stays key v w u) w := by
  unfold load
  refine Always.bind (loadReporting_stays h) ?_
  rintro (e | ⟨blob, outcome⟩) t ht <;> exact Always.pure ht

theorem original_of_stays (h : Stays key v w t) : Original key v t := fun _ => h.present

/-- Once a store or a delete was called, nothing more is asked. -/
theorem original_of_touched {α : Type} {m : M α} (hm : ∀ k, Steady (fun w t => w.events ⊆ t.events) k →
    Respects (fun w t => w.events ⊆ t.events) m) (h : ¬ Untouched key w.events) :
    Always (fun _ => True) (Original key v) m (fun _ t => Original key v t) w := by
  have hgrown : ∀ t : World, w.events ⊆ t.events → Original key v t := by
    intro t ht huntouched
    exact absurd ⟨fun hm => huntouched.1 (ht hm), fun hm => huntouched.2 (ht hm)⟩ h
  exact (hm key (grows_steady key) _ w).mono hgrown fun _ => hgrown

theorem store_original {k blob : Str} : Always (fun _ => True) (Original k v) (store k blob) (fun _ u => Original k v u) t := by
  unfold store note
  refine Always.bind (R := fun _ u => .storing k ∈ u.events) (Always.modify (mem_append_right _ mem_cons_self)) ?_
  intro _ u hu
  exact original_of_touched (fun _ _ => respects_writeThrough (grows_steady k) blob) fun h => h.1 hu

theorem delete_original {k : Str} : Always (fun _ => True) (Original k v) (delete k) (fun _ u => Original k v u) t := by
  unfold delete note
  refine Always.bind (R := fun _ u => .deleting k ∈ u.events) (Always.modify (mem_append_right _ mem_cons_self)) ?_
  intro _ u hu
  exact original_of_touched (fun _ _ => respects_deleteBoth (grows_steady k)) fun h => h.2 hu

theorem mintKey_original {fresh : Str} :
    Always (fun _ => True) (Original key v) (mintKey key fresh) (fun _ u => Original key v u) t := by
  unfold mintKey note
  refine Always.into (Always.modify (Always.bind store_original ?_))
  rintro (e | ⟨⟩) x hx <;> exact Always.pure hx

theorem dbKey_original {valid : Str → Bool} {fresh : Str} (h : Original key v w) :
    Always (fun _ => True) (Original key v) (dbKey valid key fresh) (fun _ t => Original key v t) w := by
  by_cases huntouched : Untouched key w.events
  · unfold dbKey
    refine Always.bind ((load_stays (h huntouched)).mono (fun _ => original_of_stays) fun _ _ ht => ht) ?_
    rintro (e | _ | found) t ht
    · exact Always.pure (original_of_stays ht)
    · exact mintKey_original
    simp only
    split
    · exact Always.pure (original_of_stays ht)
    refine Always.bind (R := fun _ u => Original key v u)
      (read_always (original_of_stays ht.forgotten) (original_of_stays ht) (original_of_stays ht)) ?_
    rintro (e | _ | legacy) u hu
    · exact Always.pure hu
    · exact mintKey_original
    simp only
    split
    · exact Always.bind store_original fun _ _ hx => Always.pure hx
    · exact mintKey_original
  · exact original_of_touched (fun _ _ => respects_dbKey (grows_steady key) valid fresh) huntouched

theorem Apart.original (h : Apart key w t) (hw : Original key v w) : Original key v t := by
  have hsame : ∀ e : Event, e.key = key → (e ∈ w.events ↔ e ∈ t.events) := by
    intro e he
    have hfilter : e ∈ t.events.filter (fun e => decide (e.key = key)) ↔
        e ∈ w.events.filter (fun e => decide (e.key = key)) := by rw [h.events]
    simpa [he] using hfilter.symm
  intro huntouched
  obtain ⟨service, hservice⟩ := hw ⟨fun hm => huntouched.1 ((hsame _ rfl).mp hm), fun hm => huntouched.2 ((hsame _ rfl).mp hm)⟩
  exact ⟨service, (h.entries service).trans hservice⟩

theorem original_of_respects {α : Type} {m : M α} (hm : Respects (Apart key) m) (h : Original key v w) :
    Always (fun _ => True) (Original key v) m (fun _ t => Original key v t) w :=
  (hm _ w).mono (fun _ ht => ht.original h) fun _ _ ht => ht.original h

theorem loadReporting_original (k : Str) (h : Original key v w) :
    Always (fun _ => True) (Original key v) (loadReporting k) (fun _ t => Original key v t) w := by
  by_cases hk : key = k
  · subst hk
    by_cases huntouched : Untouched key w.events
    · exact (loadReporting_stays (h huntouched)).mono (fun _ => original_of_stays) fun _ _ => original_of_stays
    · exact original_of_touched (fun _ _ => respects_loadReporting (grows_steady key)) huntouched
  · exact original_of_respects (respects_loadReporting (apart_steady hk)) h

theorem migrateFrom_original : ∀ (keys : List Str) {summary : Summary} {t : World}, Original key v t →
    Always (fun _ => True) (Original key v) (migrateFrom summary keys) (fun _ u => Original key v u) t
  | [], _, _, h => Always.pure h
  | k :: keys, _, _, h => Always.bind (loadReporting_original k h) (fun _ _ hu => migrateFrom_original keys hu)

end Damage

/-- Every call keeps the original until a store or a delete, whatever it meets. -/
theorem perform_original {valid : Str → Bool} {key v : Str} {w : World} (call : Call) (faults : List Fault)
    (h : Original key v w) : Original key v (perform valid w (call, faults)) := by
  have hf : ∀ f ∈ faults, (fun _ : Fault => True) f := fun _ _ => trivial
  cases call with
  | load k =>
    refine world_of_always (?_ : Always (fun _ => True) _ _ _ w) hf
    refine Always.bind (loadReporting_original k h) ?_
    rintro (e | ⟨blob, outcome⟩) t ht
    · exact Always.pure ht
    · exact Always.pure ht
  | store k blob =>
    refine world_of_always (?_ : Always (fun _ => True) _ _ _ w) hf
    by_cases hk : key = k
    · subst hk
      exact store_original
    · exact original_of_respects (respects_store (apart_steady hk) blob) h
  | delete k =>
    refine world_of_always (?_ : Always (fun _ => True) _ _ _ w) hf
    by_cases hk : key = k
    · subst hk
      exact delete_original
    · exact original_of_respects (respects_delete (apart_steady hk)) h
  | dbKey k fresh =>
    refine world_of_always (?_ : Always (fun _ => True) _ _ _ w) hf
    by_cases hk : key = k
    · subst hk
      exact dbKey_original h
    · exact original_of_respects (respects_dbKey (apart_steady hk) valid fresh) h
  | migrateAll keys => exact world_of_always (migrateFrom_original keys h) hf
  | restart => exact h

/-! ## Runs -/

/-- No call of the run meets damage. -/
def HonestRun (calls : List (Call × List Fault)) : Prop := ∀ c ∈ calls, ∀ f ∈ c.2, Honest f

/-- What is asked of an entry after a run. -/
structure Safe (valid : Str → Bool) (entries : Service → Str → Option Str) (calls : List (Call × List Fault)) (key : Str) :
    Prop where
  /-- The original is there until a store or a delete is called, also where writes leave damage. -/
  present : ∀ v, held (start entries) key = some v → Untouched key (run valid (start entries) calls).events →
    ∃ service, (run valid (start entries) calls).entries service key = some v
  /-- A load that answers gives what was promised. -/
  loaded : HonestRun calls → ∀ v, promise key (held (start entries) key) (run valid (start entries) calls).events = .kept v →
    ∀ faults, (∀ f ∈ faults, Honest f) → ∀ r rest t,
      load key (faults, run valid (start entries) calls) = (some (.ok r), rest, t) → r = v
  /-- The key given was held by a service, or was minted while neither held a good one. -/
  minted : HonestRun calls → ∀ fresh faults, (∀ f ∈ faults, Honest f) → ∀ k rest t,
    dbKey valid key fresh (faults, run valid (start entries) calls) = (some (.ok k), rest, t) →
      (∃ service, (run valid (start entries) calls).entries service key = some k) ∨
        Minted valid key (run valid (start entries) calls).events t.events

theorem run_inv {valid : Str → Bool} {key : Str} {original : Option Str} {calls : List (Call × List Fault)} {w : World}
    (h : Inv key original w) (hcalls : HonestRun calls) : Inv key original (run valid w calls) := by
  induction calls generalizing w with
  | nil => exact h
  | cons c calls ih =>
    have hc := @perform_inv valid key original w c.1 c.2 h (hcalls c mem_cons_self)
    exact ih hc fun x hx => hcalls x (mem_cons_of_mem c hx)

theorem run_original {valid : Str → Bool} {key v : Str} {calls : List (Call × List Fault)} {w : World}
    (h : Original key v w) : Original key v (run valid w calls) := by
  induction calls generalizing w with
  | nil => exact h
  | cons c calls ih => exact ih (perform_original c.1 c.2 h)

end Oreneta.Secrets

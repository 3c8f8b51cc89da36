import Oreneta.Dav.Discovery

/-!
# Which version an edit replaces

The edits of one object or card (`calendar/caldav.rs`, `carddav/write.rs`): read, patched and written in requests
of their own, between which others write too.

* `update`, `delete`, `saveExisting`, `deleteExisting`, `saveGroupExisting`, `deleteGroup` — the edits.
* `Resource`, `Serves`, `Evolves` — what the server keeps at one address: every version there was, each with an ETag
  of its own, and how it answers.
* `getItem_run`, `putItem_run`, `deleteItem_run` — what one request does.
* `edits_careful` — a request that is accepted replaces the version that was recorded.
-/

namespace Oreneta.Dav

open Text Talk List

variable {Person Group : Type} (c : Client Person Group)

/-! ## The edits -/

namespace Caldav

/-- What a write did. -/
inductive Change where
  | saved (href : Str) (etag : Option Str)
  | conflict
  deriving DecidableEq, Repr

/-- What becomes of an object: of one occurrence, or of the event or series. -/
def edited (isRecurring wholeSeries : Bool) (putOverride patchEvent : Str → Except Str Str) : Str → Except Str Str :=
  if isRecurring && !wholeSeries then putOverride else patchEvent

def update (calendarUrl href seen : Str) (isRecurring wholeSeries : Bool) (putOverride patchEvent : Str → Except Str Str) :
    Asking Change := do
  match ← getObject c calendarUrl href with
  | none => pure .conflict
  | some (ics, etag) =>
    if seen ≠ [] ∧ etag ≠ [] ∧ seen ≠ etag then pure .conflict
    else do
      let patched ← given (edited isRecurring wholeSeries putOverride patchEvent ics)
      let version := if etag = [] then seen else etag
      match ← putObject c calendarUrl href patched (some version) with
      | .saved etag => pure (.saved href etag)
      | .conflict => pure .conflict

def delete (calendarUrl href seen : Str) (excludeOccurrence : Str → Except Str Str) (occurrenceOnly : Bool) : Asking Change :=
  if !occurrenceOnly then do
    match ← deleteObject c calendarUrl href seen with
    | .saved _ => pure (.saved href none)
    | .conflict => pure .conflict
  else do
    match ← getObject c calendarUrl href with
    | none => pure (.saved href none)
    | some (ics, etag) =>
      if seen ≠ [] ∧ etag ≠ [] ∧ seen ≠ etag then pure .conflict
      else do
        let patched ← given (excludeOccurrence ics)
        let version := if etag = [] then seen else etag
        match ← putObject c calendarUrl href patched (some version) with
        | .saved etag => pure (.saved href etag)
        | .conflict => pure .conflict

end Caldav

namespace Carddav

/-- What became of a save or a delete. -/
inductive Outcome (α : Type) where
  | saved (href version : Str) (item : α)
  | deleted
  /-- The server's copy and its version, if it is still there. -/
  | conflict (current : Option (α × Str))

section Saving

variable {α : Type} (bookUrl href readAt : Str)

/-- What is at the address now. -/
def currentOf (read : Str → Option α) (found : Option (Str × Str)) : Option (α × Str) :=
  found.bind fun p => (read p.1).map (fun item => (item, p.2))

/-- A card saved over the version it was read at. -/
def saveCard (read : Str → Option α) (patch : Str → Except Str Str) (finish : Option Str → Str → Asking (Outcome α)) :
    Asking (Outcome α) := do
  match ← getCard c bookUrl href with
  | none => pure (.conflict none)
  | some (card, etag) =>
    if etag = [] ∨ etag ≠ readAt then pure (.conflict (currentOf read (some (card, etag))))
    else do
      let patched ← given (patch card)
      match ← putCard c bookUrl href patched (some etag) with
      | .conflict => do
        let found ← getCard c bookUrl href
        pure (.conflict (currentOf read found))
      | .saved etag => finish etag patched

def deleteAt (read : Str → Option α) : Asking (Outcome α) := do
  match ← deleteCard c bookUrl href readAt with
  | .saved _ => pure .deleted
  | .conflict => do
    let found ← getCard c bookUrl href
    pure (.conflict (currentOf read found))

/-- What the server now holds; one that names no version is asked again. -/
def heldNow (etag : Option Str) (written : Str) : Asking (Str × Str) :=
  if etag.getD [] ≠ [] then pure (written, etag.getD [])
  else do
    let found ← getCard c bookUrl href
    pure (found.getD (written, []))

end Saving

section People

variable (bookUrl href readAt : Str)

def personOf (card : Str) : Option Person := (c.peopleFromVcards card).head?

def groupOf (card : Str) : Option Group := (Contacts.splitCards c.upper card).findSome? c.group

def finish (withUid : Person → Person) (nobody : Person) (etag : Option Str) (written : Str) : Asking (Outcome Person) := do
  let (card, version) ← heldNow c bookUrl href etag written
  pure (.saved href version (withUid ((personOf c card).getD nobody)))

def finishGroup (etag : Option Str) (written : Str) : Asking (Outcome Group) := do
  let (card, version) ← heldNow c bookUrl href etag written
  match groupOf c card <|> groupOf c written with
  | some group => pure (.saved href version group)
  | none => fail "the server did not keep the card as a group"

/-- `patchCard` is `patch_card` with the person and the time of the edit. -/
def saveExisting (patchCard : Str → Except Str Str) (withUid : Person → Person) (nobody : Person) : Asking (Outcome Person) :=
  saveCard c bookUrl href readAt (personOf c) patchCard (finish c bookUrl href withUid nobody)

def deleteExisting : Asking (Outcome Person) := deleteAt c bookUrl href readAt (personOf c)

def saveGroupExisting (patchGroupCard : Str → Except Str Str) : Asking (Outcome Group) :=
  saveCard c bookUrl href readAt (groupOf c) patchGroupCard (finishGroup c bookUrl href)

def deleteGroup : Asking (Outcome Group) := deleteAt c bookUrl href readAt (groupOf c)

end People

end Carddav

/-! ## The server -/

structure Version where
  etag : Str
  body : Str
  deriving DecidableEq, Repr

/-- What a server keeps at one address: every version there was, the newest first. -/
structure Resource where
  versions : List Version
  present : Bool
  deriving DecidableEq, Repr

namespace Resource

def current (s : Resource) : Option Version := if s.present then s.versions.head? else none

def etags (s : Resource) : List Str := s.versions.map Version.etag

/-- No ETag is empty, and none is given twice. -/
structure WellFormed (s : Resource) : Prop where
  unique : s.etags.Nodup
  named : [] ∉ s.etags

/-- Somebody writes, or removes. -/
inductive Step : Resource → Resource → Prop where
  | write {s : Resource} {v : Version} (hfresh : v.etag ∉ s.etags) (hnamed : v.etag ≠ []) : Step s ⟨v :: s.versions, true⟩
  | remove {s : Resource} : Step s { s with present := false }

def Evolves : Resource → Resource → Prop := Relation.ReflTransGen Step

/-- The condition of a request is met. -/
structure Meets (s : Resource) (q : Request) : Prop where
  ifMatch : ∀ etag, ("If-Match", etag) ∈ q.headers → ∃ v, s.current = some v ∧ v.etag = etag
  ifNoneMatch : ("If-None-Match", ['*']) ∈ q.headers → s.current = none

/-- How a request is answered.  An answer can be lost, before its effect or after it. -/
inductive Serves : Resource → Request → Except Str HttpReply → Resource → Prop where
  | lost {s : Resource} {q : Request} {e : Str} : Serves s q (.error e) s
  | refused {s : Resource} {q : Request} {reply : HttpReply} (hstatus : 300 ≤ reply.status)
      (hgone : reply.status = 404 ∨ reply.status = 410 → s.current = none) : Serves s q (.ok reply) s
  | got {s : Resource} {q : Request} {reply : HttpReply} {v : Version} (hmethod : q.method = "GET") (hcurrent : s.current = some v)
      (hstatus : reply.status < 300) (hbody : reply.body = v.body) (hetag : reply.etag.getD [] = [] ∨ reply.etag = some v.etag) : Serves s q (.ok reply) s
  | put {s : Resource} {q : Request} {answer : Except Str HttpReply} {new : Version} (hmethod : q.method = "PUT")
      (hmeets : s.Meets q) (hfresh : new.etag ∉ s.etags) (hnamed : new.etag ≠ [])
      (hanswer : ∀ reply, answer = .ok reply → reply.status < 300) : Serves s q answer ⟨new :: s.versions, true⟩
  | deleted {s : Resource} {q : Request} {answer : Except Str HttpReply} (hmethod : q.method = "DELETE") (hmeets : s.Meets q)
      (hanswer : ∀ reply, answer = .ok reply → reply.status < 300) : Serves s q answer { s with present := false }

end Resource

open Resource

/-- A program with a server that others use too. -/
abbrev Runs {α : Type} (s : Resource) (t : Asking α) (moments : List (Moment Resource Request HttpReply Str)) (r : Except Str α)
    (s' : Resource) : Prop := Run Evolves Serves s t moments r s'

/-- What is sent, given the body of the version it is to replace. -/
abbrev Writes : Type := Str → Request → Prop

def Puts (edit : Str → Except Str Str) : Writes := fun body q =>
  q.method = "PUT" ∧ ∃ text, edit body = .ok text ∧ q.body = some (String.ofList text)

def Removes : Writes := fun _ q => q.method = "DELETE"

/-- The version that is replaced is the one recorded, and what is sent was made from it. -/
def Replaces (seen : Str) (sends : Writes) (m : Moment Resource Request HttpReply Str) : Prop :=
  ∃ v, m.before.current = some v ∧ v.etag = seen ∧ sends v.body m.question

def Unchanged (moments : List (Moment Resource Request HttpReply Str)) : Prop := ∀ m ∈ moments, m.after = m.before

/-- What is accepted replaces the version recorded; and when nothing is, the outcome is an error or a refusal, or says that
it is done where nothing was left. -/
structure Settled {α : Type} (seen : Str) (sends : Writes) (refusal gone : α → Prop)
    (moments : List (Moment Resource Request HttpReply Str)) (r : Except Str α) : Prop where
  accepted : ∀ m ∈ moments, m.after ≠ m.before → Replaces seen sends m
  refused : Unchanged moments → (∃ e, r = .error e) ∨ (∃ a, r = .ok a ∧ refusal a) ∨
    ∃ a, r = .ok a ∧ gone a ∧ ∃ m ∈ moments, m.before.current = none

/-- Every run is settled so. -/
def Careful {α : Type} (s : Resource) (t : Asking α) (seen : Str) (sends : Writes) (refusal gone : α → Prop) : Prop :=
  ∀ moments r s', Runs s t moments r s' → Settled seen sends refusal gone moments r

/-! ## Histories -/

namespace Resource

variable {s s' : Resource}

theorem Step.wellFormed (h : Step s s') (hwf : s.WellFormed) : s'.WellFormed := by
  cases h with
  | write hfresh hnamed =>
    refine ⟨nodup_cons.mpr ⟨hfresh, hwf.unique⟩, fun hm => ?_⟩
    rcases mem_cons.mp hm with he | hm
    · exact hnamed he.symm
    · exact hwf.named hm
  | remove => exact ⟨hwf.unique, hwf.named⟩

theorem Evolves.wellFormed (h : Evolves s s') (hwf : s.WellFormed) : s'.WellFormed := by
  induction h with
  | refl => exact hwf
  | tail _ hstep ih => exact Step.wellFormed hstep ih

/-- No version is forgotten. -/
theorem Evolves.versions (h : Evolves s s') : ∃ newer, s'.versions = newer ++ s.versions := by
  induction h with
  | refl => exact ⟨[], rfl⟩
  | tail _ hstep ih =>
    obtain ⟨newer, he⟩ := ih
    cases hstep with
    | write hfresh hnamed => exact ⟨_ :: newer, by rw [he, cons_append]⟩
    | remove => exact ⟨newer, he⟩

variable {v : Version}

theorem current_head (h : s.current = some v) : s.versions.head? = some v := by
  unfold Resource.current at h
  split at h
  · exact h
  · cases h

theorem mem_of_current (h : s.current = some v) : v ∈ s.versions := mem_of_mem_head? (current_head h)

/-- An ETag names one version. -/
theorem WellFormed.version_inj (hwf : s.WellFormed) {u : Version} (hu : u ∈ s.versions) (hv : v ∈ s.versions)
    (he : u.etag = v.etag) : u = v := inj_on_of_nodup_map hwf.unique hu hv he

/-- A version that is read again is the one it was: nobody has written in between. -/
theorem Evolves.same_current (h : Evolves s s') (hwf : s'.WellFormed) {u : Version} (hv : s.current = some v)
    (hu : s'.current = some u) (hold : u.etag ∈ s.etags) : u = v := by
  obtain ⟨newer, hversions⟩ := Evolves.versions h
  obtain ⟨x, hx, hxe⟩ := mem_map.mp hold
  have hxu : x = u := hwf.version_inj (hversions ▸ mem_append_right _ hx) (mem_of_current hu) hxe
  subst hxu
  cases newer with
  | nil =>
    have hhead := current_head hu
    rw [hversions, nil_append, current_head hv] at hhead
    exact (Option.some.inj hhead).symm
  | cons y newer =>
    have hhead := current_head hu
    rw [hversions, cons_append, head?_cons] at hhead
    obtain rfl := Option.some.inj hhead
    have hunique := hwf.unique
    rw [Resource.etags, hversions, cons_append, map_cons, nodup_cons, map_append] at hunique
    exact absurd (mem_append_right _ (mem_map_of_mem hx)) hunique.1

end Resource

section Histories

variable {α β : Type} {s s' : Resource} {moments : List (Moment Resource Request HttpReply Str)}

/-! ## One request -/

theorem unchanged_nil : Unchanged [] := forall_mem_nil _

theorem unchanged_single {m : Moment Resource Request HttpReply Str} (h : m.after = m.before) : Unchanged [m] :=
  forall_mem_singleton.mpr h

theorem unchanged_append {first rest : List (Moment Resource Request HttpReply Str)} (hfirst : Unchanged first)
    (hrest : Unchanged rest) : Unchanged (first ++ rest) :=
  forall_mem_append.mpr ⟨hfirst, hrest⟩

variable {c} {w : Wording} {root url : Str}

/-- What is read is a version that was there, if the server says so with its ETag or without one. -/
theorem getItem_run {r : Except Str (Option (Str × Str))} (h : Runs s (getItem c w root url) moments r s') :
    Unchanged moments ∧ ((∃ e, r = .error e) ∨ (r = .ok none ∧ ∃ m ∈ moments, m.before.current = none) ∨
      ∃ mid v etag, r = .ok (some (v.body, etag)) ∧ Evolves s mid ∧ mid.current = some v ∧ (etag = [] ∨ etag = v.etag) ∧
        Evolves mid s') := by
  unfold getItem at h
  split at h
  · obtain ⟨rfl, rfl, -⟩ := run_done h
    exact ⟨unchanged_nil, .inl ⟨_, rfl⟩⟩
  obtain ⟨before, a, after, rest, hothers, hserve, rfl, hrest⟩ := run_send h
  cases hserve with
  | lost =>
    obtain ⟨rfl, rfl, -⟩ := run_done hrest
    exact ⟨unchanged_single rfl, .inl ⟨_, rfl⟩⟩
  | refused hstatus hgone =>
    rw [bind_ok] at hrest
    split at hrest
    · obtain ⟨rfl, rfl, -⟩ := run_done hrest
      exact ⟨unchanged_single rfl, .inl ⟨_, rfl⟩⟩
    split at hrest
    · next hstatus404 =>
      obtain ⟨rfl, rfl, -⟩ := run_done hrest
      exact ⟨unchanged_single rfl, .inr (.inl ⟨rfl, _, mem_singleton_self _, hgone hstatus404⟩)⟩
    · obtain ⟨rfl, rfl, -⟩ := run_done hrest
      exact ⟨unchanged_single rfl, .inl ⟨_, rfl⟩⟩
  | @got reply v _ hcurrent hstatus hbody hetag =>
    rw [bind_ok, if_neg (by omega), if_neg (by omega), if_neg (by omega)] at hrest
    obtain ⟨rfl, rfl, hlast⟩ := run_done hrest
    refine ⟨unchanged_single rfl, .inr (.inr ⟨_, v, reply.etag.getD [], by rw [hbody], hothers, hcurrent, ?_, hlast⟩)⟩
    rcases hetag with hnone | hsome
    · exact .inl hnone
    · exact .inr (by rw [hsome, Option.getD_some])
  | put hmethod => exact absurd hmethod (by simp [getRequest, DavRequest.plain])
  | deleted hmethod => exact absurd hmethod (by simp [getRequest, DavRequest.plain])

/-- What is accepted replaces the version named. -/
structure Accepted (s : Resource) (etag : Str) (method : String) (body : Option String)
    (moments : List (Moment Resource Request HttpReply Str)) (s' : Resource) : Prop where
  only : ∃ m, moments = [m] ∧ Evolves s m.before ∧ m.after ≠ m.before ∧ m.question.method = method ∧ m.question.body = body ∧
    (∃ v, m.before.current = some v ∧ v.etag = etag) ∧ Evolves m.after s'

theorem putItem_run {body etag : Str} {r : Except Str Written} (h : Runs s (putItem c w root url body (some etag)) moments r s') :
    (Unchanged moments ∧ ((∃ e, r = .error e) ∨ r = .ok .conflict)) ∨
      (Accepted s etag "PUT" (some (String.ofList body)) moments s' ∧ ((∃ e, r = .error e) ∨ ∃ e, r = .ok (.saved e))) := by
  unfold putItem at h
  split at h
  · obtain ⟨rfl, rfl, -⟩ := run_done h
    exact .inl ⟨unchanged_nil, .inl ⟨_, rfl⟩⟩
  cases etag with
  | nil =>
    obtain ⟨rfl, rfl, -⟩ := run_done h
    exact .inl ⟨unchanged_nil, .inl ⟨_, rfl⟩⟩
  | cons ch etag =>
    obtain ⟨before, a, after, rest, hothers, hserve, rfl, hrest⟩ := run_send h
    cases hserve with
    | lost =>
      obtain ⟨rfl, rfl, -⟩ := run_done hrest
      exact .inl ⟨unchanged_single rfl, .inl ⟨_, rfl⟩⟩
    | refused hstatus hgone =>
      rw [bind_ok] at hrest
      split at hrest
      · obtain ⟨rfl, rfl, -⟩ := run_done hrest
        exact .inl ⟨unchanged_single rfl, .inr rfl⟩
      split at hrest
      · obtain ⟨rfl, rfl, -⟩ := run_done hrest
        exact .inl ⟨unchanged_single rfl, .inl ⟨_, rfl⟩⟩
      · obtain ⟨rfl, rfl, -⟩ := run_done hrest
        exact .inl ⟨unchanged_single rfl, .inl ⟨_, rfl⟩⟩
    | got hmethod => exact absurd hmethod (by simp [putRequest])
    | deleted hmethod => exact absurd hmethod (by simp [putRequest])
    | @put _ new hmethod hmeets hfresh hnamed hanswer =>
      have hcurrent := hmeets.ifMatch (ch :: etag) (mem_cons_of_mem _ (mem_singleton_self _))
      have hchanged : (⟨new :: before.versions, true⟩ : Resource) ≠ before := by
        intro he
        have hlength := congrArg (fun s : Resource => s.versions.length) he
        simp at hlength
      cases a with
      | error e =>
        obtain ⟨rfl, rfl, hlast⟩ := run_done hrest
        exact .inr ⟨⟨_, rfl, hothers, hchanged, rfl, rfl, hcurrent, hlast⟩, .inl ⟨_, rfl⟩⟩
      | ok reply =>
        have hstatus := hanswer reply rfl
        rw [bind_ok, if_neg (by omega), if_neg (by omega), if_neg (by omega)] at hrest
        obtain ⟨rfl, rfl, hlast⟩ := run_done hrest
        exact .inr ⟨⟨_, rfl, hothers, hchanged, rfl, rfl, hcurrent, hlast⟩, .inr ⟨_, rfl⟩⟩

theorem deleteItem_run {etag : Str} {r : Except Str Written} (h : Runs s (deleteItem c w root url etag) moments r s') :
    (Unchanged moments ∧ ((∃ e, r = .error e) ∨ r = .ok .conflict ∨
        r = .ok (.saved none) ∧ ∃ m ∈ moments, m.before.current = none)) ∨
      (Accepted s etag "DELETE" none moments s' ∧ ((∃ e, r = .error e) ∨ ∃ e, r = .ok (.saved e))) := by
  unfold deleteItem at h
  split at h
  · obtain ⟨rfl, rfl, -⟩ := run_done h
    exact .inl ⟨unchanged_nil, .inl ⟨_, rfl⟩⟩
  split at h
  · obtain ⟨rfl, rfl, -⟩ := run_done h
    exact .inl ⟨unchanged_nil, .inl ⟨_, rfl⟩⟩
  obtain ⟨before, a, after, rest, hothers, hserve, rfl, hrest⟩ := run_send h
  cases hserve with
  | lost =>
    obtain ⟨rfl, rfl, -⟩ := run_done hrest
    exact .inl ⟨unchanged_single rfl, .inl ⟨_, rfl⟩⟩
  | refused hstatus hgone =>
    rw [bind_ok] at hrest
    split at hrest
    · obtain ⟨rfl, rfl, -⟩ := run_done hrest
      exact .inl ⟨unchanged_single rfl, .inr (.inl rfl)⟩
    split at hrest
    · next hstatus404 =>
      obtain ⟨rfl, rfl, -⟩ := run_done hrest
      exact .inl ⟨unchanged_single rfl, .inr (.inr ⟨rfl, _, mem_singleton_self _, hgone hstatus404⟩)⟩
    split at hrest
    · obtain ⟨rfl, rfl, -⟩ := run_done hrest
      exact .inl ⟨unchanged_single rfl, .inl ⟨_, rfl⟩⟩
    · obtain ⟨rfl, rfl, -⟩ := run_done hrest
      exact .inl ⟨unchanged_single rfl, .inl ⟨_, rfl⟩⟩
  | got hmethod => exact absurd hmethod (by simp [deleteRequest])
  | put hmethod => exact absurd hmethod (by simp [deleteRequest])
  | deleted hmethod hmeets hanswer =>
    obtain ⟨v, hv, hetag⟩ := hmeets.ifMatch etag (mem_singleton_self _)
    have hchanged : { before with present := false } ≠ before := by
      intro he
      rw [← he] at hv
      cases hv
    cases a with
    | error e =>
      obtain ⟨rfl, rfl, hlast⟩ := run_done hrest
      exact .inr ⟨⟨_, rfl, hothers, hchanged, rfl, rfl, ⟨v, hv, hetag⟩, hlast⟩, .inl ⟨_, rfl⟩⟩
    | ok reply =>
      have hstatus := hanswer reply rfl
      rw [bind_ok, if_neg (by omega), if_neg (by omega), if_neg (by omega), if_neg (by omega)] at hrest
      obtain ⟨rfl, rfl, hlast⟩ := run_done hrest
      exact .inr ⟨⟨_, rfl, hothers, hchanged, rfl, rfl, ⟨v, hv, hetag⟩, hlast⟩, .inr ⟨_, rfl⟩⟩

/-! ## Programs of several requests -/

/-- Nothing is changed, and an outcome is as said. -/
def Reading (t : Asking α) (outcome : α → Prop) : Prop :=
  ∀ {s s' : Resource} {moments : List (Moment Resource Request HttpReply Str)} {r : Except Str α},
    Runs s t moments r s' → Unchanged moments ∧ ∀ a, r = .ok a → outcome a

theorem reading_done {x : Except Str α} {outcome : α → Prop} (h : ∀ a, x = .ok a → outcome a) : Reading (done x) outcome := by
  intro s s' moments r hrun
  obtain ⟨rfl, rfl, -⟩ := run_done hrun
  exact ⟨unchanged_nil, h⟩

theorem reading_bind {t : Asking α} {f : α → Asking β} {mid : α → Prop} {outcome : β → Prop} (ht : Reading t mid)
    (hf : ∀ a, mid a → Reading (f a) outcome) : Reading (t >>= f) outcome := by
  intro s s' moments r hrun
  rcases run_bind (fun _ => .refl) hrun with ⟨e, rfl, he⟩ | ⟨a, between, first, rest, rfl, hfirst, hrest⟩
  · exact ⟨(ht he).1, nofun⟩
  · obtain ⟨hunchanged, hmid⟩ := ht hfirst
    obtain ⟨hmore, hend⟩ := hf a (hmid a rfl) hrest
    exact ⟨unchanged_append hunchanged hmore, hend⟩

theorem reading_getItem : Reading (getItem c w root url) (fun _ => True) := fun hrun => ⟨(getItem_run hrun).1, fun _ _ => trivial⟩

variable {seen : Str} {sends : Writes} {refusal gone : α → Prop}

theorem settled_of_unchanged {r : Except Str α} (hunchanged : Unchanged moments)
    (hend : ∀ a, r = .ok a → refusal a ∨ gone a ∧ ∃ m ∈ moments, m.before.current = none) :
    Settled seen sends refusal gone moments r := by
  refine ⟨fun m hm hne => absurd (hunchanged m hm) hne, fun _ => ?_⟩
  cases r with
  | error e => exact .inl ⟨e, rfl⟩
  | ok a =>
    rcases hend a rfl with ha | ⟨ha, hnone⟩
    · exact .inr (.inl ⟨a, rfl, ha⟩)
    · exact .inr (.inr ⟨a, rfl, ha, hnone⟩)

theorem careful_of_reading {t : Asking α} (h : Reading t refusal) : Careful s t seen sends refusal gone := by
  intro moments r s' hrun
  obtain ⟨hunchanged, hend⟩ := h hrun
  exact settled_of_unchanged hunchanged fun a ha => .inl (hend a ha)

/-- After a read, with what it found. -/
theorem careful_getItem {f : Option (Str × Str) → Asking α} (hnone : Reading (f none) (fun a => refusal a ∨ gone a))
    (hsome : ∀ mid v etag s₁, Evolves s mid → mid.current = some v → (etag = [] ∨ etag = v.etag) → Evolves mid s₁ →
      Careful s₁ (f (some (v.body, etag))) seen sends refusal gone) :
    Careful s (getItem c w root url >>= f) seen sends refusal gone := by
  intro moments r s' hrun
  rcases run_bind (fun _ => .refl) hrun with ⟨e, rfl, he⟩ | ⟨found, s₁, first, rest, rfl, hfirst, hrest⟩
  · exact settled_of_unchanged (getItem_run he).1 nofun
  obtain ⟨hunchanged, hfound⟩ := getItem_run hfirst
  rcases hfound with ⟨_, he⟩ | ⟨hnothing, m, hm, hgone⟩ | ⟨mid, v, etag, hv, hs, hcurrent, hetag, hmid⟩
  · cases he
  · cases hnothing
    obtain ⟨hmore, hend⟩ := hnone hrest
    refine settled_of_unchanged (unchanged_append hunchanged hmore) fun a ha => ?_
    exact (hend a ha).imp_right fun h => ⟨h, m, mem_append_left _ hm, hgone⟩
  · cases hv
    have hsettled := hsome mid v etag s₁ hs hcurrent hetag hmid rest r s' hrest
    refine ⟨fun m hm hne => ?_, fun hall => ?_⟩
    · rcases mem_append.mp hm with hm | hm
      · exact absurd (hunchanged m hm) hne
      · exact hsettled.accepted m hm hne
    · rcases hsettled.refused (fun m hm => hall m (mem_append_right _ hm)) with he | ha | ⟨a, ha, hgone, m, hm, hnone⟩
      · exact .inl he
      · exact .inr (.inl ha)
      · exact .inr (.inr ⟨a, ha, hgone, m, mem_append_right _ hm, hnone⟩)

/-- What was accepted, and a rest that only reads. -/
theorem Accepted.settled {method : String} {body : Option String} {s₁ : Resource} {r : Except Str α}
    {first rest : List (Moment Resource Request HttpReply Str)} (h : Accepted s seen method body first s₁) (hrest : Unchanged rest)
    (hsends : ∀ t v q, Evolves s t → t.current = some v → v.etag = seen → q.method = method → q.body = body → sends v.body q) :
    Settled seen sends refusal gone (first ++ rest) r := by
  obtain ⟨m, rfl, hbefore, hchanged, hmethod, hbody, ⟨v, hv, hetag⟩, -⟩ := h.only
  refine ⟨fun m' hm' hne => ?_, fun hall => absurd (hall m (mem_append_left _ (mem_singleton_self m))) hchanged⟩
  rcases mem_append.mp hm' with hm' | hm'
  · obtain rfl := mem_singleton.mp hm'
    exact ⟨v, hv, hetag, hsends _ v _ hbefore hv hetag hmethod hbody⟩
  · exact absurd (hrest m' hm') hne

theorem careful_putItem {body : Str} {f : Written → Asking α} {edit : Str → Except Str Str}
    (hedit : ∀ t v, Evolves s t → t.current = some v → v.etag = seen → edit v.body = .ok body)
    (hconflict : Reading (f .conflict) refusal) (hsaved : ∀ e, Reading (f (.saved e)) (fun _ => True)) :
    Careful s (putItem c w root url body (some seen) >>= f) seen (Puts edit) refusal gone := by
  have hsends : ∀ t v q, Evolves s t → t.current = some v → v.etag = seen → q.method = "PUT" → q.body = some (String.ofList body) →
      Puts edit v.body q := fun t v q ht hv he hmethod hbody => ⟨hmethod, body, hedit t v ht hv he, hbody⟩
  intro moments r s' hrun
  rcases run_bind (fun _ => .refl) hrun with ⟨e, rfl, he⟩ | ⟨written, s₁, first, rest, rfl, hfirst, hrest⟩
  · rcases putItem_run he with ⟨hunchanged, -⟩ | ⟨haccepted, -⟩
    · exact settled_of_unchanged hunchanged nofun
    · rw [← append_nil moments]
      exact haccepted.settled unchanged_nil hsends
  rcases putItem_run hfirst with ⟨hunchanged, ⟨_, he⟩ | he⟩ | ⟨haccepted, ⟨_, he⟩ | ⟨version, he⟩⟩
  · cases he
  · cases he
    obtain ⟨hmore, hend⟩ := hconflict hrest
    exact settled_of_unchanged (unchanged_append hunchanged hmore) fun a ha => .inl (hend a ha)
  · cases he
  · cases he
    exact haccepted.settled (hsaved version hrest).1 hsends

theorem careful_deleteItem {f : Written → Asking α} (hconflict : Reading (f .conflict) refusal)
    (hsaved : ∀ e, Reading (f (.saved e)) gone) : Careful s (deleteItem c w root url seen >>= f) seen Removes refusal gone := by
  have hsends : ∀ t v q, Evolves s t → t.current = some v → v.etag = seen → q.method = "DELETE" → q.body = none →
      Removes v.body q := fun _ _ _ _ _ _ hmethod _ => hmethod
  intro moments r s' hrun
  rcases run_bind (fun _ => .refl) hrun with ⟨e, rfl, he⟩ | ⟨written, s₁, first, rest, rfl, hfirst, hrest⟩
  · rcases deleteItem_run he with ⟨hunchanged, -⟩ | ⟨haccepted, -⟩
    · exact settled_of_unchanged hunchanged nofun
    · rw [← append_nil moments]
      exact haccepted.settled unchanged_nil hsends
  rcases deleteItem_run hfirst with ⟨hunchanged, ⟨_, he⟩ | he | ⟨he, m, hm, hgone⟩⟩ | ⟨haccepted, ⟨_, he⟩ | ⟨version, he⟩⟩
  · cases he
  · cases he
    obtain ⟨hmore, hend⟩ := hconflict hrest
    exact settled_of_unchanged (unchanged_append hunchanged hmore) fun a ha => .inl (hend a ha)
  · cases he
    obtain ⟨hmore, hend⟩ := hsaved none hrest
    refine settled_of_unchanged (unchanged_append hunchanged hmore) fun a ha => ?_
    exact .inr ⟨hend a ha, m, mem_append_left _ hm, hgone⟩
  · cases he
  · cases he
    exact haccepted.settled (hsaved version hrest).1 hsends

/-! ## The edits -/

/-- The body that is sent was read at the version recorded, or the server did not say at which: then a request that names
the recorded version is accepted only while it is that one. -/
theorem edit_of_recorded {edit : Str → Except Str Str} {mid s₁ : Resource} {v : Version} {text : Str} (hwf : s.WellFormed)
    (hs : Evolves s mid) (hcurrent : mid.current = some v) (hmid : Evolves mid s₁) (hrecorded : v.etag = seen ∨ seen ∈ s.etags)
    (hpatched : edit v.body = .ok text) : ∀ t u, Evolves s₁ t → t.current = some u → u.etag = seen → edit u.body = .ok text := by
  intro t u ht hu hue
  have hlater : Evolves mid t := hmid.trans ht
  have hwft : t.WellFormed := Evolves.wellFormed (hs.trans hlater) hwf
  suffices u = v by rw [this, hpatched]
  rcases hrecorded with he | hold
  · obtain ⟨newer, hversions⟩ := hlater.versions
    exact hwft.version_inj (mem_of_current hu) (hversions ▸ mem_append_right _ (mem_of_current hcurrent)) (hue.trans he.symm)
  · refine hlater.same_current hwft hcurrent hu ?_
    obtain ⟨newer, hversions⟩ := hs.versions
    rw [hue, etags, hversions, map_append]
    exact mem_append_right _ hold

namespace Caldav

variable {calendarUrl : Str}

/-- An object as it was read, patched and written. -/
theorem rewrite_careful {href etag : Str} {edit : Str → Except Str Str} {gone : Change → Prop} {mid s₁ : Resource}
    {v : Version} (hwf : s.WellFormed) (hseen : seen ∈ s.etags) (hs : Evolves s mid) (hcurrent : mid.current = some v)
    (hmid : Evolves mid s₁) : Careful s₁ (if seen ≠ [] ∧ etag ≠ [] ∧ seen ≠ etag then pure .conflict
      else do
        let patched ← given (edit v.body)
        let version := if etag = [] then seen else etag
        match ← putObject c calendarUrl href patched (some version) with
        | .saved etag => pure (.saved href etag)
        | .conflict => pure .conflict) seen (Puts edit) (fun a => a = .conflict) gone := by
  have hnamed : seen ≠ [] := fun he => hwf.named (he ▸ hseen)
  split
  · exact careful_of_reading (reading_done fun a ha => (Except.ok.inj ha).symm)
  · next hsame =>
    have hversion : (if etag = [] then seen else etag) = seen := by
      split
      · rfl
      · next hne => exact (not_not.mp fun he => hsame ⟨hnamed, hne, he⟩).symm
    cases hpatched : edit v.body with
    | error e => exact careful_of_reading (reading_done nofun)
    | ok text =>
      simp only [given, bind_ok, hversion]
      refine careful_putItem (edit_of_recorded hwf hs hcurrent hmid (.inr hseen) hpatched) ?_ fun e => ?_
      · exact reading_done fun a ha => (Except.ok.inj ha).symm
      · exact reading_done fun _ _ => trivial

theorem update_careful {href : Str} {isRecurring wholeSeries : Bool} {putOverride patchEvent : Str → Except Str Str}
    (hwf : s.WellFormed) (hseen : seen ∈ s.etags) :
    Careful s (update c calendarUrl href seen isRecurring wholeSeries putOverride patchEvent) seen
      (Puts (edited isRecurring wholeSeries putOverride patchEvent)) (fun a => a = .conflict) (fun _ => False) := by
  refine careful_getItem (reading_done fun a ha => .inl (Except.ok.inj ha).symm) fun mid v etag s₁ hs hcurrent _ hmid => ?_
  exact rewrite_careful hwf hseen hs hcurrent hmid

theorem delete_occurrence_careful {href : Str} {excludeOccurrence : Str → Except Str Str} (hwf : s.WellFormed)
    (hseen : seen ∈ s.etags) :
    Careful s (delete c calendarUrl href seen excludeOccurrence true) seen (Puts excludeOccurrence) (fun a => a = .conflict)
      (fun a => a = .saved href none) := by
  refine careful_getItem (reading_done fun a ha => .inr (Except.ok.inj ha).symm) fun mid v etag s₁ hs hcurrent _ hmid => ?_
  exact rewrite_careful hwf hseen hs hcurrent hmid

theorem delete_whole_careful {href : Str} {excludeOccurrence : Str → Except Str Str} :
    Careful s (delete c calendarUrl href seen excludeOccurrence false) seen Removes (fun a => a = .conflict)
      (fun a => a = .saved href none) := by
  refine careful_deleteItem ?_ fun e => ?_
  · exact reading_done fun a ha => (Except.ok.inj ha).symm
  · exact reading_done fun a ha => (Except.ok.inj ha).symm

end Caldav

namespace Carddav

variable {bookUrl href readAt : Str}

variable {read : Str → Option α}

theorem reading_current : Reading (do
    let found ← getCard c bookUrl href
    pure (.conflict (currentOf read found))) (fun a : Outcome α => ∃ current, a = .conflict current) :=
  reading_bind reading_getItem fun _ _ => reading_done fun _ ha => ⟨_, (Except.ok.inj ha).symm⟩

/-- Whatever the version recorded: a card whose version is not known is not written. -/
theorem saveCard_careful {patch : Str → Except Str Str}
    {finish : Option Str → Str → Asking (Outcome α)} (hfinish : ∀ etag written, Reading (finish etag written) (fun _ => True))
    (hwf : s.WellFormed) :
    Careful s (saveCard c bookUrl href readAt read patch finish) readAt (Puts patch) (fun a => ∃ current, a = .conflict current)
      (fun _ => False) := by
  refine careful_getItem (reading_done fun a ha => .inl ⟨_, (Except.ok.inj ha).symm⟩) ?_
  intro mid v etag s₁ hs hcurrent hetag hmid
  simp only
  split
  · exact careful_of_reading (reading_done fun a ha => ⟨_, (Except.ok.inj ha).symm⟩)
  · next hsame =>
    obtain ⟨hne, he⟩ := not_or.mp hsame
    obtain rfl := not_not.mp he
    cases hpatched : patch v.body with
    | error e => exact careful_of_reading (reading_done nofun)
    | ok text =>
      simp only [given, bind_ok]
      have hread : v.etag = etag := (hetag.resolve_left hne).symm
      refine careful_putItem (edit_of_recorded hwf hs hcurrent hmid (.inl hread) hpatched) ?_ fun version => ?_
      · exact reading_current
      · exact hfinish version text

theorem deleteAt_careful :
    Careful s (deleteAt c bookUrl href readAt read) readAt Removes (fun a => ∃ current, a = .conflict current)
      (fun a => a = .deleted) :=
  careful_deleteItem reading_current fun _ => reading_done fun _ ha => (Except.ok.inj ha).symm

theorem reading_heldNow {etag : Option Str} {written : Str} : Reading (heldNow c bookUrl href etag written) (fun _ => True) := by
  unfold heldNow
  split
  · exact reading_done fun _ _ => trivial
  · exact reading_bind reading_getItem fun _ _ => reading_done fun _ _ => trivial

theorem reading_finish {withUid : Person → Person} {nobody : Person} (etag : Option Str) (written : Str) :
    Reading (finish c bookUrl href withUid nobody etag written) (fun _ => True) :=
  reading_bind reading_heldNow fun _ _ => reading_done fun _ _ => trivial

theorem reading_finishGroup (etag : Option Str) (written : Str) :
    Reading (finishGroup c bookUrl href etag written) (fun _ => True) := by
  refine reading_bind reading_heldNow fun held _ => ?_
  simp only
  split
  · exact reading_done fun _ _ => trivial
  · exact reading_done fun _ _ => trivial

end Carddav

variable (c) in
/-- **What is accepted replaces the version that was recorded, with the edit of it**, whatever others write in between;
and where nothing is accepted the outcome says so, but that a delete of what is gone is done.  Only the two edits of
`caldav.rs` that read first need a version that was recorded. -/
theorem edits_careful (hwf : s.WellFormed) (collection href recorded : Str) :
    (∀ wholeSeries isRecurring putOverride patchEvent, recorded ∈ s.etags →
      Careful s (Caldav.update c collection href recorded isRecurring wholeSeries putOverride patchEvent) recorded
        (Puts (Caldav.edited isRecurring wholeSeries putOverride patchEvent)) (fun a => a = .conflict) (fun _ => False)) ∧
    (∀ excludeOccurrence, recorded ∈ s.etags →
      Careful s (Caldav.delete c collection href recorded excludeOccurrence true) recorded (Puts excludeOccurrence)
        (fun a => a = .conflict) (fun a => a = .saved href none)) ∧
    (∀ excludeOccurrence, Careful s (Caldav.delete c collection href recorded excludeOccurrence false) recorded Removes
      (fun a => a = .conflict) (fun a => a = .saved href none)) ∧
    (∀ patchCard withUid nobody, Careful s (Carddav.saveExisting c collection href recorded patchCard withUid nobody) recorded
      (Puts patchCard) (fun a => ∃ current, a = .conflict current) (fun _ => False)) ∧
    Careful s (Carddav.deleteExisting c collection href recorded) recorded Removes (fun a => ∃ current, a = .conflict current)
      (fun a => a = .deleted) ∧
    (∀ patchGroupCard, Careful s (Carddav.saveGroupExisting c collection href recorded patchGroupCard) recorded
      (Puts patchGroupCard) (fun a => ∃ current, a = .conflict current) (fun _ => False)) ∧
    Careful s (Carddav.deleteGroup c collection href recorded) recorded Removes (fun a => ∃ current, a = .conflict current)
      (fun a => a = .deleted) := by
  refine ⟨fun _ _ _ _ h => Caldav.update_careful hwf h, fun _ h => Caldav.delete_occurrence_careful hwf h,
    fun _ => Caldav.delete_whole_careful, fun _ _ _ => ?_, Carddav.deleteAt_careful, fun _ => ?_, Carddav.deleteAt_careful⟩
  · exact Carddav.saveCard_careful Carddav.reading_finish hwf
  · exact Carddav.saveCard_careful Carddav.reading_finishGroup hwf

/-! ### A card that is gone, and a version that is not known -/

/-- One version, there or removed. -/
def oneVersion (present : Bool) : Resource := ⟨[⟨['1'], ['a']⟩], present⟩

theorem oneVersion_wellFormed (present : Bool) : (oneVersion present).WellFormed :=
  ⟨nodup_singleton _, fun h => nomatch mem_singleton.mp h⟩

def append (text : Str) : Except Str Str := .ok (text ++ ['b'])

theorem recorded_careful :
    Careful (oneVersion true) (Caldav.update demoClient demoInput demoInput ['1'] false false append append) ['1'] (Puts append)
      (fun a => a = .conflict) (fun _ => False) :=
  (edits_careful demoClient (oneVersion_wellFormed true) demoInput demoInput ['1']).1 false false append append
    (mem_singleton_self _)

/-- A card that is gone counts as deleted; and an object whose version is not known is written over whatever is there. -/
theorem gone_and_unknown :
    (¬ Careful (oneVersion false) (Carddav.deleteExisting demoClient demoInput demoInput ['1']) ['1'] Removes
      (fun a => ∃ current, a = .conflict current) (fun _ => False)) ∧
    ¬ Careful (oneVersion true) (Caldav.update demoClient demoInput demoInput [] false false append append) [] (Puts append)
      (fun a => a = .conflict) (fun _ => False) := by
  refine ⟨fun h => ?_, fun h => ?_⟩
  · have hrun : Runs (oneVersion false) (Carddav.deleteExisting demoClient demoInput demoInput ['1'])
        [⟨oneVersion false, deleteRequest demoInput ['1'], .ok ⟨404, [], [], none⟩, oneVersion false⟩] (.ok .deleted)
        (oneVersion false) := .ask .refl (.refused (by decide) fun _ => rfl) (.done .refl)
    rcases (h _ _ _ hrun).refused (unchanged_single rfl) with ⟨_, he⟩ | ⟨_, he, _, hc⟩ | ⟨_, _, hgone, _⟩
    · cases he
    · cases he
      cases hc
    · exact hgone
  · have hrun : Runs (oneVersion true) (Caldav.update demoClient demoInput demoInput [] false false append append)
        [⟨oneVersion true, (getRequest demoInput).plain, .ok ⟨200, ['a'], [], some ['1']⟩, oneVersion true⟩,
          ⟨oneVersion true, putRequest Caldav.wording demoInput ['a', 'b'] ("If-Match", ['1']), .ok ⟨204, [], [], some ['2']⟩,
            ⟨⟨['2'], ['a', 'b']⟩ :: (oneVersion true).versions, true⟩⟩]
        (.ok (.saved demoInput (some ['2']))) ⟨⟨['2'], ['a', 'b']⟩ :: (oneVersion true).versions, true⟩ := by
      refine .ask .refl (.got rfl rfl (by decide) rfl (.inr rfl)) (.ask .refl (.put rfl ?_ ?_ nofun ?_) (.done .refl))
      · refine ⟨fun etag he => ⟨⟨['1'], ['a']⟩, rfl, ?_⟩, fun he => by simp [putRequest] at he⟩
        have hnamed : etag = ['1'] := by simpa [putRequest] using he
        exact hnamed.symm
      · decide
      · rintro reply hreply
        cases hreply
        decide
    obtain ⟨v, hv, hetag, -⟩ := (h _ _ _ hrun).accepted _ (mem_cons_of_mem _ (mem_singleton_self _)) (by decide)
    cases hv
    cases hetag

end Histories

end Oreneta.Dav

import Mathlib.Data.List.Basic

/-!
# Programs that ask a server

A program asks one question after another.  What it asks next depends on the answers so far, any of which may be an error, and
it ends with a value or an error.

* `Talk`, `bind`, `send`, `attempt` — such programs; an error ends the program, unless it is kept as a value.
* `answered` — the program with a server that answers every question alike: `answered_bind`.
* `Reaches` — what is left of a program after some answers.
* `Holds` — as long as the answers are as assumed, every question meets a condition, and so does the end: `Holds.bind`,
  `Holds.attempt`, `Holds.reaches`.
* `Run` — the program with a server that others use in between: `run_bind`.
-/

namespace Oreneta

inductive Talk (Q R E α : Type) where
  | done (result : Except E α)
  | ask (question : Q) (next : Except E R → Talk Q R E α)

namespace Talk

variable {Q R E α β : Type}

def bind : Talk Q R E α → (α → Talk Q R E β) → Talk Q R E β
  | done (.ok a), f => f a
  | done (.error e), _ => done (.error e)
  | ask q next, f => ask q (fun r => (next r).bind f)

instance : Monad (Talk Q R E) where
  pure a := done (.ok a)
  bind := bind

def send (q : Q) : Talk Q R E R := ask q done

def fail (e : E) : Talk Q R E α := done (.error e)

/-- An error is kept as a value. -/
def attempt : Talk Q R E α → Talk Q R E (Except E α)
  | done r => done (.ok r)
  | ask q next => ask q (fun r => (next r).attempt)

@[simp]
theorem bind_ok (a : α) (f : α → Talk Q R E β) : ((done (.ok a) : Talk Q R E α) >>= f) = f a := rfl

@[simp]
theorem bind_error (e : E) (f : α → Talk Q R E β) : ((done (.error e) : Talk Q R E α) >>= f) = done (.error e) := rfl

@[simp]
theorem pure_eq (a : α) : (pure a : Talk Q R E α) = done (.ok a) := rfl

/-! ## A server without a memory -/

def answered (server : Q → Except E R) : Talk Q R E α → Except E α
  | done r => r
  | ask q next => (next (server q)).answered server

theorem answered_bind (server : Q → Except E R) (f : α → Talk Q R E β) : ∀ t : Talk Q R E α,
    (t >>= f).answered server = (t.answered server >>= fun a => (f a).answered server)
  | done (.ok _) => rfl
  | done (.error _) => rfl
  | ask q next => answered_bind server f (next (server q))

@[simp]
theorem answered_send (server : Q → Except E R) (q : Q) : (send q : Talk Q R E R).answered server = server q := rfl

@[simp]
theorem answered_fail (server : Q → Except E R) (e : E) : (fail e : Talk Q R E α).answered server = .error e := rfl

@[simp]
theorem answered_pure (server : Q → Except E R) (a : α) : (pure a : Talk Q R E α).answered server = .ok a := rfl

/-! ## Any answers -/

/-- The questions so far with their answers, and what is left of the program. -/
inductive Reaches : Talk Q R E α → List (Q × Except E R) → Talk Q R E α → Prop where
  | here (t : Talk Q R E α) : Reaches t [] t
  | step {q : Q} {r : Except E R} {next : Except E R → Talk Q R E α} {steps : List (Q × Except E R)} {t : Talk Q R E α}
      (h : Reaches (next r) steps t) : Reaches (ask q next) ((q, r) :: steps) t

/-- Every question meets `P` and the end meets `post`, as long as the answers meet `ok`. -/
def Holds (ok : Q → Except E R → Prop) (P : Q → Prop) (post : Except E α → Prop) : Talk Q R E α → Prop
  | done r => post r
  | ask q next => P q ∧ ∀ r, ok q r → (next r).Holds ok P post

variable {ok : Q → Except E R → Prop} {P : Q → Prop} {post : Except E α → Prop}

theorem Holds.reaches {t t' : Talk Q R E α} {steps : List (Q × Except E R)} (h : t.Reaches steps t') :
    t.Holds ok P post → (∀ x ∈ steps, ok x.1 x.2) → t'.Holds ok P post ∧ ∀ x ∈ steps, P x.1 := by
  induction h with
  | here t => exact fun ht _ => ⟨ht, List.forall_mem_nil _⟩
  | step _ ih =>
    rintro ⟨hq, hnext⟩ hsteps
    obtain ⟨hr, hsteps⟩ := List.forall_mem_cons.mp hsteps
    obtain ⟨ht, hmore⟩ := ih (hnext _ hr) hsteps
    exact ⟨ht, List.forall_mem_cons.mpr ⟨hq, hmore⟩⟩

theorem Holds.mono {P' : Q → Prop} {post' : Except E α → Prop} (hP : ∀ q, P q → P' q) (hpost : ∀ r, post r → post' r) :
    ∀ {t : Talk Q R E α}, t.Holds ok P post → t.Holds ok P' post'
  | done r, h => hpost r h
  | ask _ _, h => ⟨hP _ h.1, fun r hr => Holds.mono hP hpost (h.2 r hr)⟩

theorem Holds.bind {f : α → Talk Q R E β} {mid : α → Prop} {post : Except E β → Prop} (herror : ∀ e, post (.error e))
    (hf : ∀ a, mid a → (f a).Holds ok P post) :
    ∀ {t : Talk Q R E α}, t.Holds ok P (fun r => ∀ a, r = .ok a → mid a) → (t >>= f).Holds ok P post
  | done (.ok a), h => hf a (h a rfl)
  | done (.error e), _ => herror e
  | ask _ _, h => ⟨h.1, fun r hr => Holds.bind herror hf (h.2 r hr)⟩

theorem Holds.attempt {post : Except E (Except E α) → Prop} :
    ∀ {t : Talk Q R E α}, t.Holds ok P (fun r => post (.ok r)) → t.attempt.Holds ok P post
  | done _, h => h
  | ask _ _, h => ⟨h.1, fun r hr => Holds.attempt (h.2 r hr)⟩

/-! ## A server that others use too -/

/-- A question, with the server before and after its answer. -/
structure Moment (S Q R E : Type) where
  before : S
  question : Q
  answer : Except E R
  after : S

/-- Others use the server before every question, and at the end. -/
inductive Run {S : Type} (others : S → S → Prop) (serve : S → Q → Except E R → S → Prop) :
    S → Talk Q R E α → List (Moment S Q R E) → Except E α → S → Prop where
  | done {s s' : S} {r : Except E α} (h : others s s') : Run others serve s (done r) [] r s'
  | ask {s before after s' : S} {q : Q} {a : Except E R} {next : Except E R → Talk Q R E α} {moments : List (Moment S Q R E)}
      {r : Except E α} (hothers : others s before) (hserve : serve before q a after)
      (h : Run others serve after (next a) moments r s') :
      Run others serve s (ask q next) (⟨before, q, a, after⟩ :: moments) r s'

variable {S : Type} {others : S → S → Prop} {serve : S → Q → Except E R → S → Prop}

variable {moments : List (Moment S Q R E)}

theorem run_done {s s' : S} {x r : Except E α}
    (h : Run others serve s (done x) moments r s') : moments = [] ∧ r = x ∧ others s s' := by
  cases h with
  | done h => exact ⟨rfl, rfl, h⟩

/-- The first question, and the run of what is left. -/
theorem run_ask {s s' : S} {q : Q} {next : Except E R → Talk Q R E α} {r : Except E α}
    (h : Run others serve s (ask q next) moments r s') :
    ∃ before a after rest, others s before ∧ serve before q a after ∧ moments = ⟨before, q, a, after⟩ :: rest ∧
      Run others serve after (next a) rest r s' := by
  cases h with
  | ask hothers hserve h => exact ⟨_, _, _, _, hothers, hserve, rfl, h⟩

theorem run_send {s s' : S} {q : Q} {f : R → Talk Q R E β} {r : Except E β} (h : Run others serve s (send q >>= f) moments r s') :
    ∃ before a after rest, others s before ∧ serve before q a after ∧ moments = ⟨before, q, a, after⟩ :: rest ∧
      Run others serve after (done a >>= f) rest r s' := run_ask h

/-- A program that goes on where another one ended. -/
theorem run_bind (hrefl : ∀ s, others s s) {f : α → Talk Q R E β} : ∀ {t : Talk Q R E α} {s s' : S} {r : Except E β}
    {moments : List (Moment S Q R E)}, Run others serve s (t >>= f) moments r s' →
      (∃ e, r = .error e ∧ Run others serve s t moments (.error e) s') ∨
        ∃ a mid first rest, moments = first ++ rest ∧ Run others serve s t first (.ok a) mid ∧
          Run others serve mid (f a) rest r s'
  | done (.ok a), s, _, _, moments, h => .inr ⟨a, s, [], moments, rfl, .done (hrefl s), h⟩
  | done (.error e), _, _, _, _, h => by
    obtain ⟨rfl, rfl, hothers⟩ := run_done h
    exact .inl ⟨e, rfl, .done hothers⟩
  | ask q next, _, _, _, _, h => by
    obtain ⟨before, a, after, rest, hothers, hserve, rfl, hrest⟩ := run_ask h
    rcases run_bind hrefl hrest with ⟨e, rfl, he⟩ | ⟨v, mid, first, more, rfl, hfirst, hmore⟩
    · exact .inl ⟨e, rfl, .ask hothers hserve he⟩
    · exact .inr ⟨v, mid, _ :: first, more, rfl, .ask hothers hserve hfirst, hmore⟩

end Talk

end Oreneta

import Oreneta.Lib.Prog

/-!
# Programs under faults

A program beside a list of faults, from which each of its operations takes the next one to see what becomes of
it.  The list may also say that the program stops there.

* `Always allowed S m Q s` — from `s`, whatever faults of the allowed kind it meets, `m` stops in a state with
  `S`, or returns with `Q`.
* `Always.pure`, `Always.bind`, `Always.into`, `Always.mono`, `Always.gets`, `Always.modify`, `Always.of_fault` — the
  rules the proofs about such programs use.
-/

namespace Oreneta.Prog

variable {φ σ α γ : Type}

/-- From `s`, whatever allowed faults it meets, the program stops with `S` or returns with `Q`. -/
def Always (allowed : φ → Prop) (S : σ → Prop) (m : Prog (List φ × σ) α) (Q : α → σ → Prop) (s : σ) : Prop :=
  ∀ faults : List φ, (∀ f ∈ faults, allowed f) →
    (∀ rest t, m (faults, s) = (none, rest, t) → S t) ∧
      ∀ a rest t, m (faults, s) = (some a, rest, t) → (∀ f ∈ rest, allowed f) ∧ Q a t

/-- What the state says. -/
def gets (f : σ → α) : Prog (List φ × σ) α := fun x => (some (f x.2), x)

def modify (f : σ → σ) : Prog (List φ × σ) Unit := fun x => (some (), x.1, f x.2)

variable {allowed : φ → Prop} {S S' : σ → Prop} {Q Q' : α → σ → Prop} {s : σ}

theorem Always.pure {a : α} (h : Q a s) : Always allowed S (pure a) Q s := by
  intro faults hf
  refine ⟨fun _ _ he => (by cases he), ?_⟩
  intro b rest t he
  cases he
  exact ⟨hf, h⟩

theorem Always.gets {f : σ → α} (h : Q (f s) s) : Always allowed S (gets f) Q s := Always.pure (a := f s) h

theorem Always.modify {f : σ → σ} {Q : Unit → σ → Prop} (h : Q () (f s)) : Always allowed S (modify f) Q s :=
  fun faults hf => Always.pure (a := ()) h faults hf

variable {m : Prog (List φ × σ) α}

/-- A program that looks at one fault, if there is one. -/
theorem Always.of_fault (hend : ∃ a t, m ([], s) = (some a, [], t) ∧ Q a t)
    (hfault : ∀ f rest, allowed f → (∃ t, m (f :: rest, s) = (none, rest, t) ∧ S t) ∨
      ∃ a t, m (f :: rest, s) = (some a, rest, t) ∧ Q a t) : Always allowed S m Q s := by
  intro faults hf
  cases faults with
  | nil =>
    obtain ⟨a, t, hm, hq⟩ := hend
    rw [hm]
    exact ⟨fun _ _ he => (by cases he), fun _ _ _ he => (by cases he; exact ⟨hf, hq⟩)⟩
  | cons f rest =>
    have hrest : ∀ g ∈ rest, allowed g := fun g hg => hf g (List.mem_cons_of_mem _ hg)
    rcases hfault f rest (hf f List.mem_cons_self) with ⟨t, hm, hs⟩ | ⟨a, t, hm, hq⟩
    · rw [hm]
      exact ⟨fun _ _ he => (by cases he; exact hs), fun _ _ _ he => (by cases he)⟩
    · rw [hm]
      exact ⟨fun _ _ he => (by cases he), fun _ _ _ he => (by cases he; exact ⟨hrest, hq⟩)⟩

theorem Always.bind {f : α → Prog (List φ × σ) γ} {R : α → σ → Prop} {Q : γ → σ → Prop}
    (hm : Always allowed S m R s) (hf : ∀ a t, R a t → Always allowed S (f a) Q t) : Always allowed S (m >>= f) Q s := by
  intro faults hfaults
  have heq : (m >>= f) (faults, s) = Prog.bind m f (faults, s) := rfl
  obtain ⟨hstop, hreturn⟩ := hm faults hfaults
  rw [heq]
  unfold Prog.bind
  cases h : m (faults, s) with
  | mk r x =>
    obtain ⟨rest, t⟩ := x
    cases r with
    | none =>
      refine ⟨?_, fun _ _ _ he => (by cases he)⟩
      intro rest' t' he
      cases he
      exact hstop rest t h
    | some a =>
      obtain ⟨hrest, hR⟩ := hreturn a rest t h
      exact hf a t hR rest hrest

/-- What comes next is asked of where the first part ends. -/
theorem Always.into {f : α → Prog (List φ × σ) γ} {Q : γ → σ → Prop}
    (h : Always allowed S m (fun a t => Always allowed S (f a) Q t) s) : Always allowed S (m >>= f) Q s :=
  h.bind fun _ _ hf => hf

theorem Always.mono (h : Always allowed S m Q s) (hs : ∀ t, S t → S' t)
    (hq : ∀ a t, Q a t → Q' a t) : Always allowed S' m Q' s := by
  intro faults hf
  obtain ⟨hstop, hreturn⟩ := h faults hf
  refine ⟨fun rest t he => hs t (hstop rest t he), ?_⟩
  intro a rest t he
  obtain ⟨hrest, hQ⟩ := hreturn a rest t he
  exact ⟨hrest, hq a t hQ⟩

end Oreneta.Prog

import Mathlib.Data.List.Basic

/-!
# Programs that may stop

A program passes a state on and returns a value, or stops: `none`, with the state it stopped in.

* `At J m Q s` — run from `s`, `m` ends in a state with `J`, stopped or not, and if it returns, its
  value and its last state meet `Q`.
* `At.bind`, `At.pure`, `At.mono` — the rules the proofs about programs use.
-/

namespace Oreneta

def Prog (σ α : Type) : Type := σ → Option α × σ

namespace Prog

variable {σ α γ : Type}

def bind (m : Prog σ α) (f : α → Prog σ γ) : Prog σ γ := fun s =>
  match m s with
  | (some a, t) => f a t
  | (none, t) => (none, t)

instance : Monad (Prog σ) where
  pure a := fun s => (some a, s)
  bind := Prog.bind

/-- Run from `s`, the program ends with `J`, and what it returns meets `Q`. -/
def At (J : σ → Prop) (m : Prog σ α) (Q : α → σ → Prop) (s : σ) : Prop :=
  J (m s).2 ∧ ∀ a t, m s = (some a, t) → Q a t

theorem At.pure {J : σ → Prop} {Q : α → σ → Prop} {s : σ} {a : α} (hj : J s) (hq : Q a s) : At J (pure a : Prog σ α) Q s := by
  refine ⟨hj, ?_⟩
  intro b t h
  cases h
  exact hq

theorem At.bind {J : σ → Prop} {m : Prog σ α} {f : α → Prog σ γ} {R : α → σ → Prop}
    {Q : γ → σ → Prop} {s : σ} (hm : At J m R s) (hf : ∀ a t, J t → R a t → At J (f a) Q t) : At J (m >>= f) Q s := by
  have heq : (m >>= f) s = match m s with
      | (some a, t) => f a t
      | (none, t) => (none, t) := rfl
  unfold At
  rw [heq]
  obtain ⟨hj, hq⟩ := hm
  cases h : m s with
  | mk r t =>
    rw [h] at hj
    cases r with
    | none => exact ⟨hj, fun _ _ he => by cases he⟩
    | some a => exact hf a t hj (hq a t h)

theorem At.mono {J J' : σ → Prop} {m : Prog σ α} {Q Q' : α → σ → Prop} {s : σ} (h : At J m Q s)
    (hj : ∀ t, J t → J' t) (hq : ∀ a t, J t → Q a t → Q' a t) : At J' m Q' s := by
  refine ⟨hj _ h.1, fun a t he => ?_⟩
  have hjt := h.1
  rw [he] at hjt
  exact hq a t hjt (h.2 a t he)

end Prog

end Oreneta

import Mathlib.Data.List.Basic

/-!
# Runs of a partial step function

A system is a step function `S → A → Option S`; `none` means that the action is not enabled.
A run is a list of actions taken one after another.

* `run` — the state a list of actions leads to, if every one of them is enabled;
* `AllSteps step ok s as` — every action of the run meets the condition `ok` in the state it is
  taken from;
* `run_invariant` — an invariant kept by every step that meets `ok` holds in every state reached
  by a run whose steps all meet `ok`;
* `watched` — the same system with an observer beside it, who sees every step and writes down what
  the property is about; the system itself does not notice;
* `foldl_invariant` — the rule for a loop over a list: what holds of the items done so far.
-/

namespace Oreneta.Runs

variable {S A : Type}

/-- The state the actions lead to, or `none` as soon as one of them is not enabled. -/
def run (step : S → A → Option S) : S → List A → Option S
  | s, [] => some s
  | s, a :: as =>
    match step s a with
    | some t => run step t as
    | none => none

/-- Every step of the run meets `ok` in the state it is taken from. -/
def AllSteps (step : S → A → Option S) (ok : S → A → Prop) : S → List A → Prop
  | _, [] => True
  | s, a :: as => ok s a ∧ ∀ t, step s a = some t → AllSteps step ok t as

instance AllSteps.decidable (step : S → A → Option S) (ok : S → A → Prop)
    [hd : ∀ s a, Decidable (ok s a)] : ∀ (s : S) (as : List A), Decidable (AllSteps step ok s as)
  | _, [] => isTrue trivial
  | s, a :: as =>
    match h : step s a with
    | none =>
      decidable_of_iff (ok s a) ⟨fun hk => ⟨hk, fun t ht => by rw [h] at ht; cases ht⟩, And.left⟩
    | some t =>
      have := AllSteps.decidable step ok t as
      decidable_of_iff (ok s a ∧ AllSteps step ok t as)
        ⟨fun hk => ⟨hk.1, fun u hu => by rw [h] at hu; cases hu; exact hk.2⟩,
          fun hk => ⟨hk.1, hk.2 t h⟩⟩

theorem run_cons {step : S → A → Option S} {s u : S} {a : A} {as : List A}
    (h : run step s (a :: as) = some u) : ∃ t, step s a = some t ∧ run step t as = some u := by
  unfold run at h
  split at h
  · rename_i t ht
    exact ⟨t, ht, h⟩
  · cases h

theorem run_append {step : S → A → Option S} :
    ∀ {as bs : List A} {s t : S}, run step s as = some t → run step s (as ++ bs) = run step t bs
  | [], _, _, _, h => by cases h; rfl
  | a :: as, bs, s, t, h => by
    obtain ⟨u, hu, hrest⟩ := run_cons h
    simp only [List.cons_append, run, hu]
    exact run_append hrest

/-- No condition is met by every run. -/
theorem AllSteps.of_true {step : S → A → Option S} : ∀ {as : List A} {s : S}, AllSteps step (fun _ _ => True) s as
  | [], _ => True.intro
  | _ :: _, _ => ⟨True.intro, fun _ _ => AllSteps.of_true⟩

theorem AllSteps.left {step : S → A → Option S} {ok : S → A → Prop} :
    ∀ {as bs : List A} {s : S}, AllSteps step ok s (as ++ bs) → AllSteps step ok s as
  | [], _, _, _ => trivial
  | _ :: _, _, _, h => ⟨h.1, fun t ht => AllSteps.left (h.2 t ht)⟩

theorem AllSteps.right {step : S → A → Option S} {ok : S → A → Prop} :
    ∀ {as bs : List A} {s t : S}, AllSteps step ok s (as ++ bs) → run step s as = some t →
      AllSteps step ok t bs
  | [], _, _, _, h, hr => by cases hr; exact h
  | a :: as, bs, s, t, h, hr => by
    obtain ⟨u, hu, hrest⟩ := run_cons hr
    exact AllSteps.right (h.2 u hu) hrest

/-- **The invariant rule.** What every step that meets `ok` keeps holds wherever a run whose
steps all meet `ok` gets to. -/
theorem run_invariant {step : S → A → Option S} {ok : S → A → Prop} {Inv : S → Prop}
    (hstep : ∀ s a t, Inv s → ok s a → step s a = some t → Inv t) :
    ∀ {as : List A} {s t : S}, Inv s → AllSteps step ok s as → run step s as = some t → Inv t
  | [], _, _, hi, _, hr => by cases hr; exact hi
  | a :: as, s, t, hi, hok, hr => by
    obtain ⟨u, hu, hrest⟩ := run_cons hr
    exact run_invariant hstep (hstep s a u hi hok.1 hu) (hok.2 u hu) hrest

/-- The system with an observer: `see s a t h` is what the observer makes of the step from `s` to
`t`. -/
def watched {H : Type} (step : S → A → Option S) (see : S → A → S → H → H) (x : S × H) (a : A) :
    Option (S × H) :=
  (step x.1 a).map (fun t => (t, see x.1 a t x.2))

theorem watched_some {H : Type} {step : S → A → Option S} {see : S → A → S → H → H} {x y : S × H}
    {a : A} (h : watched step see x a = some y) : step x.1 a = some y.1 ∧ y.2 = see x.1 a y.1 x.2 := by
  obtain ⟨t, ht, rfl⟩ := Option.map_eq_some_iff.mp h
  exact ⟨ht, rfl⟩

/-- **The loop rule.** `P done b` speaks of the items already gone through and the value so far. -/
theorem foldl_invariant {α β : Type} {f : β → α → β} {P : List α → β → Prop} {l : List α}
    (hstep : ∀ done x b, x ∈ l → P done b → P (done ++ [x]) (f b x)) {b : β} (h : P [] b) : P l (l.foldl f b) := by
  have key : ∀ (rest done : List α) (b : β), (∀ x ∈ rest, x ∈ l) → P done b →
      P (done ++ rest) (rest.foldl f b) := by
    intro rest
    induction rest with
    | nil =>
      intro done b _ hb
      simpa using hb
    | cons x rest ih =>
      intro done b hm hb
      have hx := hstep done x b (hm x List.mem_cons_self) hb
      have := ih (done ++ [x]) (f b x) (fun y hy => hm y (List.mem_cons_of_mem _ hy)) hx
      simpa using this
  simpa using key l [] b (fun _ hx => hx) h

end Oreneta.Runs

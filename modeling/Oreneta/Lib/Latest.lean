import Mathlib.Order.Lattice

/-!
# Registers that keep the highest of what they are told

A register holds at most one value and takes a new one when its rank is no lower.  Values may be told
to several registers, in any order, and one register may be emptied into another.

* `keep` — what a register makes of a value it is told;
* `Tops held told` — what is held was told, and nothing told outranks all that is held;
* `Tops.keep`, `Tops.merge` — telling a register and emptying one into another keep `Tops`;
* `Tops.unique` — a single value held at the end is the one value of the highest rank, so the order
  and the registers used make no difference.
-/

namespace Oreneta.Latest

variable {α ρ : Type} [LinearOrder ρ] {rank : α → ρ}

/-- The new value is taken unless the one held outranks it. -/
def keep (rank : α → ρ) (held : Option α) (x : α) : Option α :=
  match held with
  | none => some x
  | some o => if rank o ≤ rank x then some x else some o

/-- What a register makes of another one's value, if it has one. -/
def merge (rank : α → ρ) (held other : Option α) : Option α := other.elim held (keep rank held)

theorem keep_cases (rank : α → ρ) (held : Option α) (x : α) : keep rank held x = some x ∧ (∀ o ∈ held, rank o ≤ rank x) ∨
      ∃ o, held = some o ∧ keep rank held x = some o ∧ rank x ≤ rank o := by
  cases held with
  | none => exact .inl ⟨rfl, fun _ h => by cases h⟩
  | some o =>
    by_cases h : rank o ≤ rank x
    · exact .inl ⟨if_pos h, fun _ ho => by cases ho; exact h⟩
    · exact .inr ⟨o, rfl, if_neg h, le_of_lt (lt_of_not_ge h)⟩

/-- What is held was told, and nothing told outranks all that is held. -/
def Tops (rank : α → ρ) (held told : α → Prop) : Prop :=
  (∀ x, held x → told x) ∧ ∀ z, told z → ∃ x, held x ∧ rank z ≤ rank x

namespace Tops

variable {held told : α → Prop} {o p : Option α} {x : α}

/-- A register that is told a value, beside whatever else is held. -/
theorem keep (h : Tops rank (fun y => y ∈ o ∨ held y) told) :
    Tops rank (fun y => y ∈ Latest.keep rank o x ∨ held y) (fun y => told y ∨ y = x) := by
  constructor
  · rintro y (hy | hy)
    · rcases keep_cases rank o x with ⟨hk, -⟩ | ⟨q, hq, hk, -⟩
      · rw [hk] at hy
        exact .inr (Option.some.inj hy).symm
      · rw [hk] at hy
        exact .inl (h.1 y (.inl (hq ▸ hy)))
    · exact .inl (h.1 y (.inr hy))
  · have hx : ∃ y, y ∈ Latest.keep rank o x ∧ rank x ≤ rank y := by
      rcases keep_cases rank o x with ⟨hk, -⟩ | ⟨q, -, hk, hle⟩
      · exact ⟨x, hk, le_refl _⟩
      · exact ⟨q, hk, hle⟩
    rintro z (hz | rfl)
    · obtain ⟨y, hy | hy, hle⟩ := h.2 z hz
      · rcases keep_cases rank o x with ⟨hk, hall⟩ | ⟨q, hq, hk, -⟩
        · exact ⟨x, .inl hk, le_trans hle (hall y hy)⟩
        · rw [hq] at hy
          cases hy
          exact ⟨y, .inl hk, hle⟩
      · exact ⟨y, .inr hy, hle⟩
    · obtain ⟨y, hy, hle⟩ := hx
      exact ⟨y, .inl hy, hle⟩

/-- One register emptied into another. -/
theorem merge (h : Tops rank (fun y => y ∈ o ∨ y ∈ p) told) : Tops rank (fun y => y ∈ Latest.merge rank o p) told := by
  cases p with
  | none => simpa [Latest.merge] using h
  | some q =>
    show Tops rank (fun y => y ∈ Latest.keep rank o q) told
    rcases keep_cases rank o q with ⟨hk, hall⟩ | ⟨r, hr, hk, hle⟩
    · rw [hk]
      refine ⟨fun y hy => h.1 y (.inr hy), fun z hz => ⟨q, rfl, ?_⟩⟩
      obtain ⟨y, hy | hy, hzy⟩ := h.2 z hz
      · exact le_trans hzy (hall y hy)
      · cases hy
        exact hzy
    · rw [hk]
      refine ⟨fun y hy => h.1 y (.inl (hr ▸ hy)), fun z hz => ⟨r, rfl, ?_⟩⟩
      obtain ⟨y, hy | hy, hzy⟩ := h.2 z hz
      · rw [hr] at hy
        cases hy
        exact hzy
      · cases hy
        exact le_trans hzy hle

theorem congr {held' told' : α → Prop} (hh : ∀ y, held y ↔ held' y) (ht : ∀ y, told y ↔ told' y)
    (h : Tops rank held told) : Tops rank held' told' := by
  have hh' : held = held' := funext fun y => propext (hh y)
  have ht' : told = told' := funext fun y => propext (ht y)
  rw [← hh', ← ht']
  exact h

/-- **What a single register holds is the one value of the highest rank.** -/
theorem unique (h : Tops rank (fun y => y ∈ o) told) (hdistinct : ∀ y z, told y → told z → rank y = rank z → y = z) :
    o = some x ↔ told x ∧ ∀ z, told z → rank z ≤ rank x := by
  constructor
  · rintro rfl
    refine ⟨h.1 x rfl, fun z hz => ?_⟩
    obtain ⟨y, hy, hle⟩ := h.2 z hz
    cases hy
    exact hle
  · rintro ⟨hx, hmax⟩
    obtain ⟨y, hy, hle⟩ := h.2 x hx
    have hyt := h.1 y hy
    rw [hdistinct x y hx hyt (le_antisymm hle (hmax y hyt))]
    exact hy

end Tops

end Oreneta.Latest

import Oreneta.Lib.Text

/-!
# Steps that can fail

`Except Str` as the program uses `anyhow::Result`: a text says what went wrong.

* `ensure`, `context` — as the macros and methods of `anyhow`.
* `bind_ok`, `map_ok`, `ensure_ok`, `context_ok` — what a step that succeeds says of its parts.
* `mapM_ok`, `foldlM_ok` — the loop rules: what every step makes, or keeps, when it succeeds holds after a loop that
  succeeds.
-/

namespace Oreneta.Fallible

open List

variable {α β : Type}

/-- `ensure!`. -/
def ensure (p : Prop) [Decidable p] (message : String) : Except Str Unit :=
  if p then .ok () else .error message.toList

/-- `ensure!` with a text made up from values. -/
def ensureWith (p : Prop) [Decidable p] (message : Str) : Except Str Unit := if p then .ok () else .error message

/-- `Context::context` of an `Option`. -/
def context (o : Option α) (message : String) : Except Str α :=
  match o with
  | some a => .ok a
  | none => .error message.toList

theorem bind_ok {ε : Type} {x : Except ε α} {f : α → Except ε β} {b : β} : (x >>= f) = .ok b ↔ ∃ a, x = .ok a ∧ f a = .ok b := by
  cases x with
  | error e => exact ⟨fun h => (by cases h), fun ⟨a, ha, _⟩ => (by cases ha)⟩
  | ok a => exact ⟨fun h => ⟨a, rfl, h⟩, fun ⟨_, ha, h⟩ => (by cases ha; exact h)⟩

theorem ensure_ok {p : Prop} [Decidable p] {message : String} {u : Unit} : ensure p message = .ok u ↔ p := by
  unfold ensure
  split
  · rename_i hp
    exact ⟨fun _ => hp, fun _ => rfl⟩
  · rename_i hp
    exact ⟨fun h => (by cases h), fun h => absurd h hp⟩

theorem ensureWith_ok {p : Prop} [Decidable p] {message : Str} {u : Unit} : ensureWith p message = .ok u ↔ p := by
  unfold ensureWith
  split
  · rename_i hp
    exact ⟨fun _ => hp, fun _ => rfl⟩
  · rename_i hp
    exact ⟨fun h => (by cases h), fun h => absurd h hp⟩

theorem context_ok {o : Option α} {message : String} {a : α} : context o message = .ok a ↔ o = some a := by
  unfold context
  cases o with
  | none => exact ⟨fun h => (by cases h), fun h => (by cases h)⟩
  | some b => exact ⟨fun h => (by cases h; rfl), fun h => (by cases h; rfl)⟩

theorem map_ok {x : Except Str α} {f : α → β} {b : β} : x.map f = .ok b ↔ ∃ a, x = .ok a ∧ f a = b := by
  cases x with
  | error e => exact ⟨fun h => (by cases h), fun ⟨a, ha, _⟩ => (by cases ha)⟩
  | ok a => exact ⟨fun h => ⟨a, rfl, Except.ok.inj h⟩, fun ⟨_, ha, h⟩ => (by cases ha; exact congrArg Except.ok h)⟩

theorem mapM_ok {f : α → Except Str β} {P : β → Prop} (hstep : ∀ a b, f a = .ok b → P b) :
    ∀ {l : List α} {bs : List β}, l.mapM f = .ok bs → ∀ b ∈ bs, P b
  | [], bs, h => by
    rw [mapM_nil] at h
    rw [← Except.ok.inj h]
    exact forall_mem_nil _
  | a :: l, bs, h => by
    rw [mapM_cons] at h
    obtain ⟨b, hb, h⟩ := bind_ok.mp h
    obtain ⟨rest, hrest, h⟩ := bind_ok.mp h
    rw [← Except.ok.inj h]
    intro c hc
    rcases mem_cons.mp hc with rfl | hc
    · exact hstep a c hb
    · exact mapM_ok hstep hrest c hc

theorem foldlM_ok {f : β → α → Except Str β} {P : β → Prop} (hstep : ∀ b a c, P b → f b a = .ok c → P c) :
    ∀ {l : List α} {b c : β}, P b → l.foldlM f b = .ok c → P c
  | [], _, _, hb, h => by
    cases h
    exact hb
  | a :: l, b, c, hb, h => by
    rw [foldlM_cons] at h
    obtain ⟨d, hd, h⟩ := bind_ok.mp h
    exact foldlM_ok hstep (hstep b a d hb hd) h

end Oreneta.Fallible

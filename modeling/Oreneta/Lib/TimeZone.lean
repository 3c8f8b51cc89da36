import Mathlib.Tactic.Linarith

/-!
# Time zones

An instant is a number of seconds since the epoch; a wall-clock time is the number of seconds the
same digits name in UTC.  A time zone says how far its clock is from UTC at an instant, and which
instants a wall-clock time names: none when the clock skips it, two when it comes round twice.

* `TimeZone` — the two readings, with the facts that tie them together as fields: a clock is less than
  a day from UTC, and the instants named by a time are those at which the clock shows it;
* `TimeZone.fixed`, `TimeZone.changing` — a clock at a fixed distance from UTC, and one changed once;
* `TimeZone.earliest_near` — the earliest instant that a time names is within a day of it.
-/

namespace Oreneta

/-- A day in seconds. -/
def day : Int := 86400

/-- The instants a wall-clock time names, the earlier one first. -/
inductive LocalTimes where
  | none
  | single (instant : Int)
  | ambiguous (first second : Int)
  deriving DecidableEq, Repr

namespace LocalTimes

def earliest : LocalTimes → Option Int
  | none => .none
  | single a => some a
  | ambiguous a _ => some a

def Names : LocalTimes → Int → Prop
  | none, _ => False
  | single a, t => t = a
  | ambiguous a b, t => t = a ∨ t = b

def Ordered : LocalTimes → Prop
  | ambiguous a b => a < b
  | _ => True

theorem names_of_earliest {l : LocalTimes} {a : Int} (h : l.earliest = some a) : l.Names a := by
  cases l with
  | none => cases h
  | single b =>
    cases h
    rfl
  | ambiguous b c =>
    cases h
    exact .inl rfl

end LocalTimes

structure TimeZone where
  /-- Seconds the clock is ahead of UTC at an instant. -/
  offset : Int → Int
  /-- The instants at which the clock shows a time. -/
  ofLocal : Int → LocalTimes
  offset_lt : ∀ t, -day < offset t ∧ offset t < day
  names_iff : ∀ n t, (ofLocal n).Names t ↔ t + offset t = n
  ordered : ∀ n, (ofLocal n).Ordered

namespace TimeZone

variable {zone : TimeZone} {n t : Int}

/-- A clock at a fixed distance from UTC. -/
def fixed (offset : Int) (h : -day < offset ∧ offset < day) : TimeZone where
  offset := fun _ => offset
  ofLocal := fun n => .single (n - offset)
  offset_lt := fun _ => h
  names_iff := by
    intro n t
    simp only [LocalTimes.Names]
    omega
  ordered := fun _ => trivial

theorem utc_lt : -day < 0 ∧ 0 < day := by decide

theorem hour_lt : -day < 3600 ∧ 3600 < day := by decide

theorem twoHours_lt : -day < 7200 ∧ 7200 < day := by decide

def utc : TimeZone := fixed 0 utc_lt

/-- A clock changed once, at the instant `at_`. -/
def changing (at_ before after : Int) (hb : -day < before ∧ before < day)
    (ha : -day < after ∧ after < day) : TimeZone where
  offset := fun t => if t < at_ then before else after
  ofLocal := fun n =>
    if n - before < at_ then
      if at_ ≤ n - after then .ambiguous (n - before) (n - after) else .single (n - before)
    else if at_ ≤ n - after then .single (n - after) else .none
  offset_lt := by
    intro t
    split
    · exact hb
    · exact ha
  names_iff := by
    intro n t
    by_cases h₁ : n - before < at_ <;> by_cases h₂ : at_ ≤ n - after <;> by_cases ht : t < at_ <;>
      simp only [h₁, h₂, ht, if_true, if_false, LocalTimes.Names, false_iff] <;> omega
  ordered := by
    intro n
    by_cases h₁ : n - before < at_ <;> by_cases h₂ : at_ ≤ n - after <;>
      simp only [h₁, h₂, if_true, if_false, LocalTimes.Ordered]
    omega

/-- What the clock shows at an instant. -/
def toLocal (zone : TimeZone) (t : Int) : Int := t + zone.offset t

theorem toLocal_of_earliest (h : (zone.ofLocal n).earliest = some t) : zone.toLocal t = n :=
  (zone.names_iff n t).mp (LocalTimes.names_of_earliest h)

/-- A time the clock shows at some instant is not skipped. -/
theorem earliest_toLocal (t : Int) : ∃ u, (zone.ofLocal (zone.toLocal t)).earliest = some u := by
  have hn := (zone.names_iff (zone.toLocal t) t).mpr rfl
  cases hl : zone.ofLocal (zone.toLocal t) with
  | none =>
    rw [hl] at hn
    exact hn.elim
  | single a => exact ⟨a, rfl⟩
  | ambiguous a b => exact ⟨a, rfl⟩

/-- A time is within a day of the instant it names. -/
theorem earliest_near (h : (zone.ofLocal n).earliest = some t) : n - day < t ∧ t < n + day := by
  have hn := toLocal_of_earliest h
  have := zone.offset_lt t
  unfold toLocal at hn
  omega

end TimeZone

end Oreneta

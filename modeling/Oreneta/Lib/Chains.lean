import Mathlib.Data.Fintype.Pigeonhole
import Mathlib.Data.Set.Finite.Basic

/-!
# Chains of names, resolved as they become known

Every item names another one (`raw`), perhaps one not known yet or one that leads back to it.  A known
item holds a key.  An item becoming known takes the key of the one it names, or that one itself
(`learn`); afterwards the keys under which an item known by then stands are replaced by that item's
own (`settle`).

* `Ends` — where a chain of a relation ends: at an item without a successor, or on a cycle; over
  finitely many items every chain ends (`exists_end`);
* `Reached` — every key is on the chain of its holder;
* `Settled` — up to the names still to be settled, an item and the one it names have one key; kept by
  `learn` and by `settle`, whatever the order;
* `keys_eq_iff` — when nothing is left to settle, two items hold one key exactly if their chains end
  alike.
-/

namespace Oreneta.Chains

open Relation List Option

variable {α : Type}

/-! ## Where chains end -/

/-- The chain of `x` ends at `e`, or comes round to `e` again and again. -/
def Ends (r : α → α → Prop) (x e : α) : Prop := TransGen r x e ∧ ((∀ b, ¬ r e b) ∨ TransGen r e e)

def SameEnd (r : α → α → Prop) (x y : α) : Prop := ∃ e, Ends r x e ∧ Ends r y e

theorem exists_end {r : α → α → Prop} (hfin : {a | ∃ b, r a b}.Finite) (c : α) :
    ∃ e, ReflTransGen r c e ∧ ((∀ b, ¬ r e b) ∨ TransGen r e e) := by
  by_contra hnone
  push Not at hnone
  choose next hnext using fun e : {e // ReflTransGen r c e} => (hnone e.1 e.2).1
  -- the chain as a sequence; over finitely many items it meets one again
  let step (e : {e // ReflTransGen r c e}) : {e // ReflTransGen r c e} := ⟨next e, e.2.tail (hnext e)⟩
  let chain (n : ℕ) : {e // ReflTransGen r c e} := step^[n] ⟨c, .refl⟩
  have hstep : ∀ n, r (chain n).1 (chain (n + 1)).1 := by
    intro n
    show r (step^[n] ⟨c, .refl⟩).1 (step^[n + 1] ⟨c, .refl⟩).1
    rw [Function.iterate_succ_apply']
    exact hnext _
  have hchain : ∀ i k, TransGen r (chain i).1 (chain (i + k + 1)).1 := by
    intro i k
    induction k with
    | zero => exact .single (hstep i)
    | succ k ih => exact ih.tail (hstep (i + k + 1))
  have : Finite {a | ∃ b, r a b} := hfin
  obtain ⟨i, j, hne, heq⟩ := Finite.exists_ne_map_eq_of_infinite fun n => (⟨(chain n).1, _, hstep n⟩ : {a | ∃ b, r a b})
  have heq : (chain i).1 = (chain j).1 := congrArg (fun z : {a | ∃ b, r a b} => z.1) heq
  rcases Nat.lt_or_gt_of_ne hne with hlt | hlt
  · have := hchain i (j - i - 1)
    rw [show i + (j - i - 1) + 1 = j by omega, ← heq] at this
    exact (hnone _ (chain i).2).2 this
  · have := hchain j (i - j - 1)
    rw [show j + (i - j - 1) + 1 = i by omega, heq] at this
    exact (hnone _ (chain j).2).2 this

/-! ## Keys -/

section Keys

variable [DecidableEq α] (raw : α → α)

/-- The key of an item, or the item itself as long as it is not known. -/
def look (keys : α → Option α) (z : α) : α := (keys z).getD z

/-- An item becomes known, or is learned of again. -/
def learn (keys : α → Option α) (x : α) : α → Option α :=
  Function.update keys x (some (look keys (raw x)))

/-- What stands under `p` is handed the key of `p`. -/
def settle (keys : α → Option α) (p : α) : α → Option α :=
  match keys p with
  | none => keys
  | some c => fun x => if keys x = some p then some c else keys x

/-- A known item, and the one it names. -/
def Follows (keys : α → Option α) (a b : α) : Prop := (keys a).isSome = true ∧ raw a = b

/-- Every key is on the chain of its holder. -/
def Reached (keys : α → Option α) : Prop := ∀ x c, keys x = some c → TransGen (Follows raw keys) x c

/-- What is one key once the pending names are settled. -/
def Same (pending : List α) (keys : α → Option α) : α → α → Prop :=
  EqvGen (fun a b => a ∈ pending ∧ keys a = some b)

/-- An item and the one it names have one key, up to what is pending. -/
def Settled (pending : List α) (keys : α → Option α) : Prop :=
  ∀ x c, keys x = some c → Same pending keys c (look keys (raw x))

variable {raw} {keys : α → Option α} {pending : List α} {x p : α}

theorem learn_same : learn raw keys x x = some (look keys (raw x)) := Function.update_self x _ keys

theorem learn_other {z : α} (h : z ≠ x) : learn raw keys x z = keys z := Function.update_of_ne h _ keys

theorem look_learn_other {z : α} (h : z ≠ x) : look (learn raw keys x) z = look keys z := by
  unfold look
  rw [learn_other h]

theorem settle_some {c : α} (h : keys p = some c) (z : α) : settle keys p z = if keys z = some p then some c else keys z := by
  unfold settle
  rw [h]

theorem settle_isSome (z : α) : (settle keys p z).isSome = (keys z).isSome := by
  cases h : keys p with
  | none =>
    unfold settle
    rw [h]
  | some c =>
    rw [settle_some h]
    split
    · rename_i hz
      rw [hz]
      rfl
    · rfl

theorem Follows.learn {a b : α} (h : Follows raw keys a b) : Follows raw (learn raw keys x) a b := by
  refine ⟨?_, h.2⟩
  by_cases ha : a = x
  · rw [ha, learn_same]
    rfl
  · rw [learn_other ha]
    exact h.1

theorem follows_settle {a b : α} : Follows raw (settle keys p) a b ↔ Follows raw keys a b := by
  unfold Follows
  rw [settle_isSome]

theorem Reached.learn (h : Reached raw keys) : Reached raw (learn raw keys x) := by
  intro z c hz
  by_cases hzx : z = x
  · subst hzx
    rw [learn_same, some.injEq] at hz
    have hfirst : Follows raw (Chains.learn raw keys z) z (raw z) := by
      refine ⟨?_, rfl⟩
      rw [learn_same]
      rfl
    unfold look at hz
    cases hraw : keys (raw z) with
    | none =>
      rw [hraw] at hz
      subst hz
      exact .single hfirst
    | some d =>
      rw [hraw] at hz
      subst hz
      exact .head hfirst (TransGen.mono (fun _ _ hab => hab.learn) _ _ (h (raw z) d hraw))
  · rw [learn_other hzx] at hz
    exact TransGen.mono (fun _ _ hab => hab.learn) _ _ (h z c hz)

theorem Reached.settle (h : Reached raw keys) : Reached raw (settle keys p) := by
  intro z c hz
  have hmono : ∀ {a b : α}, TransGen (Follows raw keys) a b →
      TransGen (Follows raw (Chains.settle keys p)) a b :=
    fun hab => TransGen.mono (fun _ _ hf => follows_settle.mpr hf) _ _ hab
  cases hp : keys p with
  | none =>
    have hz : keys z = some c := by
      unfold Chains.settle at hz
      rw [hp] at hz
      exact hz
    exact hmono (h z c hz)
  | some d =>
    rw [settle_some hp] at hz
    split at hz
    · rename_i hzp
      cases hz
      exact hmono ((h z p hzp).trans (h p c hp))
    · exact hmono (h z c hz)

omit [DecidableEq α] in
theorem Same.mono {pending' : List α} {keys' : α → Option α} {a b : α} (h : Same pending keys a b)
    (hgen : ∀ q ∈ pending, ∀ c, keys q = some c → q ∈ pending' ∧ keys' q = some c) : Same pending' keys' a b :=
  EqvGen.mono (fun q c hq => hgen q hq.1 c hq.2) _ _ h

omit [DecidableEq α] in
theorem Settled.mono {pending' : List α} (h : Settled raw pending keys) (hsub : pending ⊆ pending') : Settled raw pending' keys :=
  fun x c hx => (h x c hx).mono fun _ hq _ hc => ⟨hsub hq, hc⟩

/-- **What becomes known is pending.** -/
theorem Settled.learn (h : Settled raw pending keys) (hx : x ∉ pending) : Settled raw (x :: pending) (learn raw keys x) := by
  have hmono : ∀ {a b : α}, Same pending keys a b →
      Same (x :: pending) (Chains.learn raw keys x) a b := by
    intro a b hab
    refine hab.mono fun q hq c hc => ⟨mem_cons_of_mem x hq, ?_⟩
    have hqx : q ≠ x := by
      rintro rfl
      exact hx hq
    rw [learn_other hqx]
    exact hc
  intro z c hz
  by_cases hzx : z = x
  · subst hzx
    rw [learn_same, some.injEq] at hz
    subst hz
    by_cases hself : raw z = z
    · have : look (Chains.learn raw keys z) (raw z) = look keys (raw z) := by
        rw [hself]
        unfold look
        rw [learn_same, hself]
        rfl
      rw [this]
      exact .refl _
    · rw [look_learn_other hself]
      exact .refl _
  · rw [learn_other hzx] at hz
    have hold := hmono (h z c hz)
    by_cases hnamed : raw z = x
    · -- the item named is the one that becomes known: its new key and its old one are the same
      have hnew : Same (x :: pending) (Chains.learn raw keys x) (look keys x) (look keys (raw x)) := by
        cases hkey : keys x with
        | none =>
          have : look keys x = x := by
            unfold look
            rw [hkey]
            rfl
          rw [this]
          exact .rel _ _ ⟨mem_cons_self, learn_same⟩
        | some d =>
          have : look keys x = d := by
            unfold look
            rw [hkey]
            rfl
          rw [this]
          exact hmono (h x d hkey)
      have hlook : look (Chains.learn raw keys x) x = look keys (raw x) := by
        unfold look
        rw [learn_same]
        rfl
      rw [hnamed] at hold ⊢
      rw [hlook]
      exact .trans _ _ _ hold hnew
    · rw [look_learn_other hnamed]
      exact hold

/-- **What was settled is pending no more.** -/
theorem Settled.settle (h : Settled raw (p :: pending) keys) : Settled raw pending (settle keys p) := by
  cases hp : keys p with
  | none =>
    have hsettle : Chains.settle keys p = keys := by
      unfold Chains.settle
      rw [hp]
    rw [hsettle]
    intro z c hz
    refine (h z c hz).mono fun q hq d hd => ⟨?_, hd⟩
    rcases mem_cons.mp hq with rfl | hq
    · rw [hp] at hd
      cases hd
    · exact hq
  | some c =>
    let moved (a : α) : α := if a = p then c else a
    have hmoved : ∀ z, Chains.settle keys p z = (keys z).map moved := by
      intro z
      rw [settle_some hp]
      cases hz : keys z with
      | none => rfl
      | some d =>
        rw [map_some]
        by_cases hd : d = p
        · rw [if_pos (congrArg some hd)]
          show some c = some (if d = p then c else d)
          rw [if_pos hd]
        · rw [if_neg fun he => hd (some.inj he)]
          show some d = some (if d = p then c else d)
          rw [if_neg hd]
    have hsame : ∀ {a b : α}, Same (p :: pending) keys a b →
        Same pending (Chains.settle keys p) (moved a) (moved b) := by
      intro a b hab
      induction hab with
      | rel a b hab =>
        obtain ⟨hmem, hkey⟩ := hab
        by_cases ha : a = p
        · -- the name just settled stands for its own key
          subst ha
          rw [hp, some.injEq] at hkey
          subst hkey
          have : moved a = moved c := by
            show (if a = a then c else a) = (if c = a then c else c)
            simp
          rw [this]
          exact .refl _
        · have hma : moved a = a := if_neg ha
          rw [hma]
          refine .rel _ _ ⟨?_, ?_⟩
          · exact (mem_cons.mp hmem).resolve_left ha
          · rw [hmoved, hkey]
            rfl
      | refl a => exact .refl _
      | symm a b _ ih => exact .symm _ _ ih
      | trans a b d _ _ ih ih' => exact .trans _ _ _ ih ih'
    have hlook : ∀ z, look (Chains.settle keys p) z = moved (look keys z) := by
      intro z
      unfold look
      rw [hmoved]
      cases hz : keys z with
      | none =>
        have hzp : z ≠ p := by
          rintro rfl
          rw [hp] at hz
          cases hz
        show z = if z = p then c else z
        rw [if_neg hzp]
      | some d => rfl
    intro z d hz
    rw [hmoved] at hz
    obtain ⟨e, he, rfl⟩ := map_eq_some_iff.mp hz
    rw [hlook]
    exact hsame (h z e he)

theorem Settled.foldl_learn {xs : List α} : ∀ {keys : α → Option α} {pending : List α},
    Settled raw pending keys → xs.Nodup → (∀ x ∈ xs, x ∉ pending) →
      Settled raw (xs.reverse ++ pending) (xs.foldl (Chains.learn raw) keys) := by
  induction xs with
  | nil =>
    intro keys pending h _ _
    exact h
  | cons x xs ih =>
    intro keys pending h hnodup hnew
    obtain ⟨hx, hnodup⟩ := nodup_cons.mp hnodup
    have hlearn := h.learn (hnew x mem_cons_self)
    have hrest : ∀ y ∈ xs, y ∉ x :: pending := by
      intro y hy hmem
      rcases mem_cons.mp hmem with rfl | hmem
      · exact hx hy
      · exact hnew y (mem_cons_of_mem x hy) hmem
    rw [reverse_cons, append_assoc]
    exact ih hlearn hnodup hrest

theorem Settled.foldl_settle {ps : List α} : ∀ {keys : α → Option α},
    Settled raw ps keys → Settled raw [] (ps.foldl Chains.settle keys) := by
  induction ps with
  | nil =>
    intro keys h
    exact h
  | cons p ps ih =>
    intro keys h
    exact ih h.settle

/-- **One batch**: what is learned is settled afterwards, in any order, among whatever else. -/
theorem Settled.batch {xs ps : List α} (h : Settled raw [] keys) (hnodup : xs.Nodup) (hsub : xs ⊆ ps) :
    Settled raw [] (ps.foldl Chains.settle (xs.foldl (Chains.learn raw) keys)) := by
  have hlearned := h.foldl_learn hnodup fun _ _ hmem => by cases hmem
  rw [append_nil] at hlearned
  exact (hlearned.mono fun _ hx => hsub (mem_reverse.mp hx)).foldl_settle

theorem Reached.batch {xs ps : List α} (h : Reached raw keys) :
    Reached raw (ps.foldl Chains.settle (xs.foldl (Chains.learn raw) keys)) := by
  have hlearned : ∀ {xs : List α} {keys : α → Option α}, Reached raw keys →
      Reached raw (xs.foldl (Chains.learn raw) keys) := by
    intro xs
    induction xs with
    | nil =>
      intro keys h
      exact h
    | cons x xs ih =>
      intro keys h
      exact ih h.learn
  have hsettled : ∀ {ps : List α} {keys : α → Option α}, Reached raw keys →
      Reached raw (ps.foldl Chains.settle keys) := by
    intro ps
    induction ps with
    | nil =>
      intro keys h
      exact h
    | cons p ps ih =>
      intro keys h
      exact ih h.settle
  exact hsettled (hlearned h)

/-! ## What keys tell -/

omit [DecidableEq α] in
/-- Along a chain there is one key. -/
theorem Settled.key_eq (h : Settled raw [] keys) {e : α} (hchain : TransGen (Follows raw keys) x e) :
    keys x = some (look keys e) := by
  have hsame : ∀ {a b : α}, Same [] keys a b → a = b := by
    intro a b hab
    induction hab with
    | rel a b hab => cases hab.1
    | refl a => rfl
    | symm a b _ ih => exact ih.symm
    | trans a b c _ _ ih ih' => exact ih.trans ih'
  have hstep : ∀ {a b : α}, Follows raw keys a b → keys a = some (look keys b) := by
    rintro a b ⟨hsome, rfl⟩
    obtain ⟨c, hc⟩ := isSome_iff_exists.mp hsome
    rw [hc, hsame (h a c hc)]
  induction hchain with
  | single hf => exact hstep hf
  | tail _ hf ih =>
    rw [ih]
    unfold look
    rw [hstep hf]
    rfl

omit [DecidableEq α] in
/-- **Two items hold one key exactly if their chains end alike.** -/
theorem keys_eq_iff {y kx ky : α} (hreached : Reached raw keys) (hsettled : Settled raw [] keys)
    (hfin : {a | (keys a).isSome = true}.Finite) (hx : keys x = some kx) (hy : keys y = some ky) :
    kx = ky ↔ SameEnd (Follows raw keys) x y := by
  constructor
  · rintro rfl
    have hfollows : {a | ∃ b, Follows raw keys a b}.Finite :=
      hfin.subset (by rintro a ⟨b, hab⟩; exact hab.1)
    obtain ⟨e, hce, hend⟩ := exists_end hfollows kx
    exact ⟨e, ⟨(hreached x kx hx).trans_left hce, hend⟩, ⟨(hreached y kx hy).trans_left hce, hend⟩⟩
  · rintro ⟨e, ⟨hxe, -⟩, ⟨hye, -⟩⟩
    have := (hsettled.key_eq hxe).trans (hsettled.key_eq hye).symm
    rw [hx, hy] at this
    exact some.inj this

end Keys

end Oreneta.Chains

import Oreneta.Lib.Text

/-!
# Rules the reader writes, and what they would do to a message

`rules/mod.rs`: conditions over the message header, rules, and the plan of what they would do.
`lower` is `str::to_lowercase`, whatever it does to the letters beyond ASCII.

* `holds`, `matchesRule`, `planAsWritten`, `inRunningOrder`, `plan` — as the source has them.
* `planAsWritten_actions` — the plan as written is what the matching rules name before the first
  `Stop`; `plan_mem` — the plan is its steps without the second move and what follows it.
-/

namespace Oreneta.Rules

open Text List

/-- The part of a message a condition looks at. -/
inductive Field where
  | from_
  | to_
  | cc
  | recipient
  | subject
  deriving DecidableEq, Repr

inductive Op where
  | contains
  | notContains
  | is
  | startsWith
  | endsWith
  deriving DecidableEq, Repr

structure Condition where
  field : Field
  op : Op
  value : Str
  deriving DecidableEq, Repr

inductive Match where
  | all
  | any
  deriving DecidableEq, Repr

/-- What a rule does to a message it matched.  There is no delete. -/
inductive Action where
  | moveTo (folder : Str)
  | markRead
  | star
  | addLabel (labelId : Str)
  | stop
  deriving DecidableEq, Repr

structure Rule where
  id : Str
  account : Str
  name : Str
  enabled : Bool
  matchMode : Match
  conditions : List Condition
  actions : List Action
  deriving DecidableEq, Repr

/-- The parts of a message a rule can look at. -/
structure Subject where
  fromName : Str
  fromAddr : Str
  toAddrs : List Str
  cc : List Str
  subject : Str
  deriving DecidableEq, Repr

/-- The text a field offers a condition, one haystack per addressee. -/
def Subject.haystacks (s : Subject) : Field → List Str
  | .from_ => [s.fromName ++ [' '] ++ s.fromAddr]
  | .to_ => s.toAddrs
  | .cc => s.cc
  | .recipient => s.toAddrs ++ s.cc
  | .subject => [s.subject]

section Engine

variable (lower : Str → Str)

/-- Whether one condition holds; an empty value never matches. -/
def holds (condition : Condition) (subject : Subject) : Bool :=
  let needle := lower (trim condition.value)
  if needle.isEmpty then false
  else
    let haystacks := (subject.haystacks condition.field).map lower
    match condition.op with
    | .contains => haystacks.any (fun text => Text.contains text needle)
    | .notContains => !haystacks.any (fun text => Text.contains text needle)
    | .is => haystacks.any (fun text => trim text = needle)
    | .startsWith => haystacks.any (fun text => needle.isPrefixOf (Text.trimStart text))
    | .endsWith => haystacks.any (fun text => needle.isSuffixOf (trimEnd text))

/-- Whether a rule matches a message; one with no conditions matches nothing. -/
def matchesRule (rule : Rule) (subject : Subject) : Bool :=
  if rule.conditions.isEmpty then false
  else
    match rule.matchMode with
    | .all => rule.conditions.all (fun c => holds lower c subject)
    | .any => rule.conditions.any (fun c => holds lower c subject)

/-- One thing a run of the rules would do. -/
structure Planned where
  ruleId : Str
  ruleName : Str
  action : Action
  deriving DecidableEq, Repr

/-- What one matching rule adds to the plan, and whether it ends it. -/
def planRule (rule : Rule) : List Action → List Planned × Bool
  | [] => ([], false)
  | .stop :: _ => ([], true)
  | action :: rest =>
    let (planned, stopped) := planRule rule rest
    (⟨rule.id, rule.name, action⟩ :: planned, stopped)

def planAsWritten (account : Str) (subject : Subject) : List Rule → List Planned
  | [] => []
  | rule :: rules =>
    if !rule.enabled then planAsWritten account subject rules
    else if !rule.account.isEmpty && decide (rule.account ≠ account) then
      planAsWritten account subject rules
    else if !matchesRule lower rule subject then planAsWritten account subject rules
    else
      match planRule rule rule.actions with
      | (planned, true) => planned
      | (planned, false) => planned ++ planAsWritten account subject rules

def Action.isMove : Action → Bool
  | .moveTo _ => true
  | _ => false

/-- The plan as it can actually run: everything else first, and then the one move. -/
def inRunningOrder (planned : List Planned) : List Planned :=
  let (moves, rest) := planned.partition (fun step => step.action.isMove)
  rest ++ moves.take 1

/-- What the rules would do to a message, in order, without doing any of it. -/
def plan (rules : List Rule) (account : Str) (subject : Subject) : List Planned :=
  inRunningOrder (planAsWritten lower account subject rules)

/-! ## What the plan holds -/

/-- Whether a rule is switched on for this account (`plan_as_written`, and the rules `sieve::plan`
looks at). -/
def Rule.appliesTo (rule : Rule) (account : Str) : Bool :=
  rule.enabled && (rule.account.isEmpty || decide (rule.account = account))

/-- The rules that get to see the message. -/
def matching (rules : List Rule) (account : Str) (subject : Subject) : List Rule :=
  rules.filter (fun r => r.appliesTo account && matchesRule lower r subject)

/-- What the matching rules name, up to the first `Stop`. -/
def beforeStop (rules : List Rule) (account : Str) (subject : Subject) : List Action :=
  ((matching lower rules account subject).flatMap (·.actions)).takeWhile (fun a => decide (a ≠ .stop))

end Engine

section Facts

variable {lower : Str → Str} {account : Str} {subject : Subject}

theorem planRule_actions (rule : Rule) : ∀ actions : List Action,
    (planRule rule actions).1.map (·.action) = actions.takeWhile (fun a => decide (a ≠ .stop)) ∧
      ((planRule rule actions).2 = true ↔ Action.stop ∈ actions)
  | [] => by simp [planRule]
  | .stop :: _ => by simp [planRule]
  | .moveTo f :: rest => by
    have := planRule_actions rule rest
    simp [planRule, this]
  | .markRead :: rest => by
    have := planRule_actions rule rest
    simp [planRule, this]
  | .star :: rest => by
    have := planRule_actions rule rest
    simp [planRule, this]
  | .addLabel l :: rest => by
    have := planRule_actions rule rest
    simp [planRule, this]

theorem takeWhile_of_stop {a b : List Action} (h : Action.stop ∈ a) :
    (a ++ b).takeWhile (fun x => decide (x ≠ .stop)) = a.takeWhile (fun x => decide (x ≠ .stop)) := by
  induction a with
  | nil => cases h
  | cons x a ih =>
    rw [cons_append]
    by_cases hx : x = .stop
    · simp [hx]
    · have hmem : Action.stop ∈ a := by
        rcases mem_cons.mp h with h | h
        · exact absurd h.symm hx
        · exact h
      simp only [takeWhile_cons, hx, ne_eq, not_false_eq_true, decide_true, if_true]
      rw [ih hmem]

theorem takeWhile_of_no_stop {a b : List Action} (h : Action.stop ∉ a) : (a ++ b).takeWhile (fun x => decide (x ≠ .stop)) =
      a ++ b.takeWhile (fun x => decide (x ≠ .stop)) := by
  apply takeWhile_append_of_pos
  intro x hx
  rw [decide_eq_true_eq]
  rintro rfl
  exact h hx

theorem matching_cons (rule : Rule) (rules : List Rule) : matching lower (rule :: rules) account subject =
      if rule.appliesTo account && matchesRule lower rule subject then
        rule :: matching lower rules account subject
      else matching lower rules account subject := by
  unfold matching
  rw [filter_cons]

/-- The three guards of the loop are one: the rule is on for this account and matches. -/
theorem planAsWritten_cons (rule : Rule) (rules : List Rule) : planAsWritten lower account subject (rule :: rules) =
      if rule.appliesTo account && matchesRule lower rule subject then
        match planRule rule rule.actions with
        | (planned, true) => planned
        | (planned, false) => planned ++ planAsWritten lower account subject rules
      else planAsWritten lower account subject rules := by
  rw [planAsWritten]
  unfold Rule.appliesTo
  cases rule.enabled with
  | false => simp
  | true =>
    by_cases hac : rule.account = account
    · cases matchesRule lower rule subject <;> simp [hac]
    · cases rule.account.isEmpty <;> cases matchesRule lower rule subject <;> simp [hac]

/-- **The plan as written** is what the matching rules name before the first `Stop`. -/
theorem planAsWritten_actions : ∀ rules : List Rule, (planAsWritten lower account subject rules).map (·.action) =
      beforeStop lower rules account subject
  | [] => rfl
  | rule :: rules => by
    have ih := planAsWritten_actions rules
    obtain ⟨hacts, hstop⟩ := planRule_actions rule rule.actions
    unfold beforeStop at ih ⊢
    rw [planAsWritten_cons, matching_cons]
    split
    · rw [flatMap_cons]
      split
      · rename_i planned hp
        rw [hp] at hacts hstop
        rw [takeWhile_of_stop (hstop.mp rfl)]
        exact hacts
      · rename_i planned hp
        rw [hp] at hacts hstop
        have hno : Action.stop ∉ rule.actions := fun h => Bool.false_ne_true (hstop.mpr h)
        have hall := takeWhile_of_no_stop (b := []) hno
        rw [takeWhile_of_no_stop hno, map_append, ih, hacts]
        rw [append_nil, takeWhile_nil, append_nil] at hall
        rw [hall]
    · exact ih

/-- The folders named, in order. -/
def moveFolders (actions : List Action) : List Str :=
  actions.filterMap (fun a => match a with
    | .moveTo f => some f
    | _ => none)

theorem mem_moveFolders {actions : List Action} {f : Str} : f ∈ moveFolders actions ↔ .moveTo f ∈ actions := by
  unfold moveFolders
  rw [mem_filterMap]
  constructor
  · rintro ⟨a, ha, hf⟩
    split at hf
    · cases hf
      exact ha
    · cases hf
  · exact fun h => ⟨_, h, rfl⟩

/-- The moves of a plan name the folders. -/
theorem moves_actions (planned : List Planned) : (planned.filter (fun step => step.action.isMove)).map (·.action) =
      (moveFolders (planned.map (·.action))).map .moveTo := by
  induction planned with
  | nil => rfl
  | cons step planned ih =>
    cases h : step.action <;> simp_all [moveFolders, Action.isMove]

/-- **What is planned**: everything named before the first `Stop` but the moves, and of these the
first one. -/
theorem plan_actions (rules : List Rule) : (plan lower rules account subject).map (·.action) =
      (beforeStop lower rules account subject).filter (fun a => !a.isMove) ++
        ((moveFolders (beforeStop lower rules account subject)).take 1).map .moveTo := by
  unfold plan inRunningOrder
  rw [partition_eq_filter_filter]
  simp only [map_append, map_take]
  rw [moves_actions, planAsWritten_actions, ← planAsWritten_actions rules, filter_map]
  congr 1

end Facts

end Oreneta.Rules

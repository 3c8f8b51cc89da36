import Oreneta.Rules.Sieve

/-!
# What the server does with the rules, against what would be done here

The script of `sieve::plan` is run on a message and compared with what `rules::plan` schedules for it.
A condition's test is taken to be true exactly when the condition holds.

* `exec_plan` — the script does what the rules it reaches name: of the matching rules that were sent,
  those up to the first with a `Stop`.
* `sent_rules_narrower_iff` — the script does no more than the plan exactly when what it does past a
  `Stop` only repeats, and it files into no second folder.
* `flag_after_stop` — a rule whose `Stop` comes first still sets its flag on the server.
-/

namespace Oreneta.Rules.Sieve

open List
open Oreneta.Sieve (Effects exec execActions)

/-- What `rules::plan` schedules: the flags, the folders, and whether a `Stop` ends the rules. -/
def scheduled (lower : Str → Str) (keywords : Str → Option Str) (rules : List Rule) (account : Str)
    (subject : Subject) : Effects :=
  let steps := Rules.plan lower rules account subject
  ⟨steps.filterMap (fun p => flagOf keywords p.action), moveFolders (steps.map (·.action)),
    (matching lower rules account subject).any (fun r => r.actions.contains .stop)⟩

/-- Nothing is done that is not scheduled. -/
structure Narrower (done planned : Effects) : Prop where
  flags : ∀ f ∈ done.flags, f ∈ planned.flags
  folders : ∀ f ∈ done.folders, f ∈ planned.folders
  stopped : done.stopped = true → planned.stopped = true

/-- The test a condition's text is. -/
def readTest (text : Str) : Option Oreneta.Sieve.Test :=
  match (Oreneta.Sieve.lex text).bind Oreneta.Sieve.parseTest with
  | some (t, []) => some t
  | _ => none

/-- Every condition's test has the truth value of the condition. -/
def SameTruth (lower : Str → Str) (truth : Oreneta.Sieve.Test → Bool) (rules : List Rule)
    (subject : Subject) : Prop :=
  ∀ r ∈ rules, ∀ c ∈ r.conditions, ∀ text t, test c = .ok text → readTest text = some t →
    truth t = holds lower c subject

/-! ## What the script does -/

section Exec

variable {lower : Str → Str} {keywords : Str → Option Str} {truth : Oreneta.Sieve.Test → Bool}
  {subject : Subject}

theorem readTest_of_ok {c : Condition} {text : Str} (h : test c = .ok text) : readTest text = some (testSyntax c) := by
  have hp := Oreneta.Sieve.parseTest_tokens (testSyntax_wellFormed c) []
  rw [append_nil] at hp
  unfold readTest
  rw [(lexes_test h).lex, Option.bind_some, hp]

theorem execActions_flags (e : Effects) (rest : List Oreneta.Sieve.Action) : ∀ {fs : List Str}, (∀ f ∈ fs, f ≠ [] ∧ ' ' ∉ f) →
      execActions e (fs.map (fun f => .addflag [f]) ++ rest) =
        execActions { e with flags := e.flags ++ fs } rest
  | [], _ => by simp
  | f :: fs, h => by
    obtain ⟨hne, hsp⟩ := h f (by simp)
    have hnames : [f].flatMap Oreneta.Sieve.flagNames = [f] := by
      simp [Oreneta.Sieve.flagNames_single hne hsp]
    rw [map_cons, cons_append, execActions, hnames, execActions_flags _ rest fun x hx => h x (mem_cons_of_mem _ hx)]
    simp

theorem execActions_folders (e : Effects) (rest : List Oreneta.Sieve.Action) : ∀ fs : List Str,
    execActions e (fs.map .fileinto ++ rest) =
      execActions { e with folders := e.folders ++ fs } rest
  | [] => by simp
  | f :: fs => by
    rw [map_cons, cons_append, execActions, execActions_folders _ rest fs]
    simp

/-- A rule's block sets all its flags, files into all its folders, and then stops if the rule has a
`Stop` anywhere. -/
theorem execActions_ruleBody {e : Effects} (he : e.stopped = false) {rule : Rule}
    (hflags : ∀ f ∈ rule.actions.filterMap (flagOf keywords), f ≠ [] ∧ ' ' ∉ f) : execActions e (ruleBody keywords rule) =
      ⟨e.flags ++ rule.actions.filterMap (flagOf keywords), e.folders ++ moveFolders rule.actions,
        rule.actions.contains .stop⟩ := by
  unfold ruleBody
  rw [append_assoc, execActions_flags _ _ hflags, execActions_folders]
  by_cases hs : Action.stop ∈ rule.actions
  · rw [if_pos hs]
    simp [execActions, hs]
  · rw [if_neg hs]
    simp [execActions, hs, he]

/-- The rules a run gets to: up to the first with a `Stop`. -/
def reached : List Rule → List Rule
  | [] => []
  | r :: rs => if r.actions.contains .stop then [r] else r :: reached rs

theorem truth_ruleCommand {rules : List Rule} (hsame : SameTruth lower truth rules subject) {rule : Rule}
    {block : Block} (hmem : rule ∈ rules) (hs : Sendable keywords rule block) :
    (if decide (rule.matchMode = .all) then (rule.conditions.map testSyntax).all truth
      else (rule.conditions.map testSyntax).any truth) = matchesRule lower rule subject := by
  have hmap : (rule.conditions.map testSyntax).map truth =
      rule.conditions.map (fun c => holds lower c subject) := by
    rw [map_map]
    apply map_congr_left
    intro c hc
    obtain ⟨text, ht⟩ := hs.tests c hc
    exact hsame rule hmem c hc text _ ht (readTest_of_ok ht)
  have hall : (rule.conditions.map testSyntax).all truth =
      rule.conditions.all (fun c => holds lower c subject) := by
    have := congrArg (List.all · id) hmap
    simpa [all_map, Function.comp_def] using this
  have hany : (rule.conditions.map testSyntax).any truth =
      rule.conditions.any (fun c => holds lower c subject) := by
    have := congrArg (List.any · id) hmap
    simpa [any_map, Function.comp_def] using this
  have hne : rule.conditions.isEmpty = false := by simpa using hs.conditions
  unfold matchesRule
  rw [hall, hany, hne]
  cases rule.matchMode <;> rfl

/-- What the rules `rs`, run one after another, do. -/
def Effects.after (keywords : Str → Option Str) (e : Effects) (rs : List Rule) : Effects :=
  ⟨e.flags ++ rs.flatMap (fun r => r.actions.filterMap (flagOf keywords)),
    e.folders ++ rs.flatMap (fun r => moveFolders r.actions),
    rs.any (fun r => r.actions.contains .stop)⟩

/-- **What the blocks of the sent rules do**: what the rules among them that match name, up to the
first with a `Stop`. -/
theorem exec_ruleCommands {rules : List Rule} (hsame : SameTruth lower truth rules subject) :
    ∀ rs : List Rule, (∀ r ∈ rs, r ∈ rules ∧ ∃ block, Sendable keywords r block) →
      ∀ e : Effects, e.stopped = false →
        exec truth e (rs.map (ruleCommand keywords)) =
          Effects.after keywords e (reached (rs.filter (fun r => matchesRule lower r subject)))
  | [], _, e, he => by
    simp [exec, reached, Effects.after, ← he]
  | r :: rs, hrs, e, he => by
    have ih := exec_ruleCommands hsame rs fun x hx => hrs x (mem_cons_of_mem _ hx)
    obtain ⟨hmem, block, hsend⟩ := hrs r (by simp)
    rw [map_cons, ruleCommand, exec, truth_ruleCommand hsame hmem hsend, filter_cons]
    split
    · rename_i hm
      simp only [execActions_ruleBody he hsend.flags]
      cases hstop : r.actions.contains .stop with
      | true =>
        have hr : reached (r :: rs.filter fun r => matchesRule lower r subject) = [r] := by
          simp only [reached, hstop, if_true]
        have hmem : Action.stop ∈ r.actions := by simpa using hstop
        rw [hr]
        simp [Effects.after, hmem]
      | false =>
        have hr : reached (r :: rs.filter fun r => matchesRule lower r subject) =
            r :: reached (rs.filter fun r => matchesRule lower r subject) := by
          simp only [reached, hstop, Bool.false_eq_true, if_false]
        have hno : Action.stop ∉ r.actions := by simpa using hstop
        rw [hr, if_neg (by simp), ih _ rfl]
        simp [Effects.after, hno]
    · exact ih e he

theorem exec_require {req script : Oreneta.Sieve.Script} {e : Effects}
    (h : ∀ c ∈ req, ∃ names, c = Oreneta.Sieve.Command.require names) : exec truth e (req ++ script) = exec truth e script := by
  induction req with
  | nil => rfl
  | cons c req ih =>
    obtain ⟨names, rfl⟩ := h c (by simp)
    exact ih fun x hx => h x (mem_cons_of_mem _ hx)

/-- **What the script does**: what is named by the matching rules that were sent, up to the first of
them with a `Stop`. -/
theorem exec_plan {rules : List Rule} (keywords : Str → Option Str) (account : Str)
    (extensions : List Str) (hsame : SameTruth lower truth rules subject) :
    ∃ script, Oreneta.Sieve.parse (plan rules account extensions keywords).script = some script ∧
      exec truth Effects.none script = Effects.after keywords Effects.none
        (reached ((matching lower rules account subject).filter (sent extensions keywords))) := by
  obtain ⟨req, hreq, hparse⟩ := plan_parses rules account extensions keywords
  refine ⟨_, hparse, ?_⟩
  have hsent : ∀ r ∈ (rules.filter (·.appliesTo account)).filter (sent extensions keywords),
      r ∈ rules ∧ ∃ block, Sendable keywords r block := fun r hr =>
    ⟨mem_of_mem_filter (mem_of_mem_filter hr), sendable_of_sent (of_mem_filter hr)⟩
  have hsame' : ((rules.filter (·.appliesTo account)).filter (sent extensions keywords)).filter
        (fun r => matchesRule lower r subject) =
      (matching lower rules account subject).filter (sent extensions keywords) := by
    unfold matching
    simp only [filter_filter]
    apply filter_congr
    intro r _
    cases r.appliesTo account <;> cases matchesRule lower r subject <;>
      cases sent extensions keywords r <;> rfl
  rw [exec_require hreq, exec_ruleCommands hsame _ hsent _ rfl, hsame']

end Exec

/-! ## Where the script does more -/

/-- A rule that says to leave the message alone, and then names a flag. -/
def stopThenRead : Rule :=
  { id := "1", account := [], name := "leave", enabled := true, matchMode := .all,
    conditions := [⟨.subject, .contains, "hello"⟩], actions := [.stop, .markRead] }

def helloSubject : Subject := ⟨[], [], [], [], "hello"⟩

instance (done planned : Effects) : Decidable (Narrower done planned) :=
  decidable_of_iff ((∀ f ∈ done.flags, f ∈ planned.flags) ∧ (∀ f ∈ done.folders, f ∈ planned.folders) ∧
    (done.stopped = true → planned.stopped = true))
    ⟨fun h => ⟨h.1, h.2.1, h.2.2⟩, fun h => ⟨h.flags, h.folders, h.stopped⟩⟩

/-- **A rule whose `Stop` comes first still sets its flag on the server**: here nothing after the
`Stop` is planned, but the script puts `stop` after every other action of the rule. -/
theorem flag_after_stop : SameTruth id (fun _ => true) [stopThenRead] helloSubject ∧
      ∃ script, Oreneta.Sieve.parse (plan [stopThenRead] [] ["imap4flags"] (fun _ => none)).script =
        some script ∧
      ¬ Narrower (exec (fun _ => true) Effects.none script)
        (scheduled id (fun _ => none) [stopThenRead] [] helloSubject) := by
  have hsame : SameTruth id (fun _ => true) [stopThenRead] helloSubject := by
    intro r hr c hc text t _ _
    rw [mem_singleton.mp hr] at hc
    rw [mem_singleton.mp hc]
    rfl
  obtain ⟨script, hparse, hexec⟩ := exec_plan (fun _ => none) [] ["imap4flags"] hsame
  refine ⟨hsame, script, hparse, ?_⟩
  rw [hexec]
  decide

/-! ## What it does past a `Stop` -/

/-- What the sent rules among `rs` name before the first `Stop` of any of them. -/
def early (sent : Rule → Bool) : List Rule → List Action
  | [] => []
  | r :: rs =>
    (if sent r then r.actions.takeWhile (fun a => decide (a ≠ .stop)) else []) ++
      (if r.actions.contains .stop then [] else early sent rs)

/-- What the script does although a `Stop` came before it: the rest of a rule that has one, and, once a
rule that was not sent has one, everything the script still gets to. -/
def late (sent : Rule → Bool) : Bool → List Rule → List Action
  | _, [] => []
  | stopped, r :: rs =>
    if sent r then
      (if stopped then r.actions else r.actions.dropWhile (fun a => decide (a ≠ .stop))) ++
        (if r.actions.contains .stop then [] else late sent stopped rs)
    else late sent (stopped || r.actions.contains .stop) rs

theorem dropWhile_of_no_stop {as : List Action} (h : as.contains .stop = false) :
    as.dropWhile (fun a => decide (a ≠ .stop)) = [] := by
  rw [dropWhile_eq_nil_iff]
  intro a ha
  rw [decide_eq_true_eq]
  rintro rfl
  simp [ha] at h

theorem mem_late_stopped (sent : Rule → Bool) (a : Action) : ∀ rs : List Rule,
    a ∈ (reached (rs.filter sent)).flatMap (·.actions) ↔ a ∈ late sent true rs
  | [] => by simp [reached, late]
  | r :: rs => by
    have ih := mem_late_stopped sent a rs
    rw [filter_cons]
    cases hs : sent r with
    | false => simpa [late, hs] using ih
    | true =>
      cases hstop : r.actions.contains .stop with
      | true =>
        have hmem : Action.stop ∈ r.actions := by simpa using hstop
        simp [late, hs, reached, hmem]
      | false =>
        have hno : Action.stop ∉ r.actions := by simpa using hstop
        simp [late, hs, reached, hno, ih]

/-- The script's actions are those before the first `Stop` and those past it. -/
theorem mem_reached_iff (sent : Rule → Bool) (a : Action) : ∀ rs : List Rule,
    a ∈ (reached (rs.filter sent)).flatMap (·.actions) ↔ a ∈ early sent rs ∨ a ∈ late sent false rs
  | [] => by simp [reached, early, late]
  | r :: rs => by
    have ih := mem_reached_iff sent a rs
    have hsplit : a ∈ r.actions ↔ a ∈ r.actions.takeWhile (fun a => decide (a ≠ .stop)) ∨
        a ∈ r.actions.dropWhile (fun a => decide (a ≠ .stop)) := by
      rw [← mem_append, takeWhile_append_dropWhile]
    rw [filter_cons]
    cases hs : sent r with
    | false =>
      cases hstop : r.actions.contains .stop with
      | true =>
        have hmem : Action.stop ∈ r.actions := by simpa using hstop
        have hl := mem_late_stopped sent a rs
        simp [early, late, hs, hmem, hl]
      | false =>
        have hno : Action.stop ∉ r.actions := by simpa using hstop
        simp [early, late, hs, hno, ih]
    | true =>
      cases hstop : r.actions.contains .stop with
      | true =>
        have hmem : Action.stop ∈ r.actions := by simpa using hstop
        simp [early, late, hs, reached, hmem, hsplit]
      | false =>
        have hd := dropWhile_of_no_stop hstop
        rw [hd] at hsplit
        simp only [early, late, hs, reached, hstop, hd, if_true, Bool.false_eq_true, if_false,
          flatMap_cons, mem_append, ih, hsplit, nil_append, not_mem_nil, or_false]
        tauto

theorem early_subset (sent : Rule → Bool) (a : Action) : ∀ rs : List Rule,
    a ∈ early sent rs → a ∈ (rs.flatMap (·.actions)).takeWhile (fun a => decide (a ≠ .stop))
  | [] => by simp [early]
  | r :: rs => by
    have ih := early_subset sent a rs
    intro h
    unfold early at h
    rw [flatMap_cons]
    cases hstop : r.actions.contains .stop with
    | true =>
      rw [takeWhile_of_stop (by simpa using hstop)]
      rcases mem_append.mp h with h | h
      · split at h
        · exact h
        · cases h
      · rw [if_pos hstop] at h
        cases h
    | false =>
      have hno : Action.stop ∉ r.actions := by simpa using hstop
      rw [takeWhile_of_no_stop hno, mem_append]
      rcases mem_append.mp h with h | h
      · split at h
        · exact .inl ((takeWhile_sublist _).subset h)
        · cases h
      · right
        rw [if_neg (by simp [hno])] at h
        exact ih h

/-! ## Exactly when the script does no more -/

section Exact

variable (lower : Str → Str) (keywords : Str → Option Str) (extensions : List Str) (rules : List Rule)
  (account : Str) (subject : Subject)

/-- What the script does past a `Stop` sets only flags that are also named before the first `Stop` of
the matching rules, and every folder it files into is the first folder named there. -/
structure OnlyRepeats : Prop where
  flags : ∀ a ∈ late (sent extensions keywords) false (matching lower rules account subject),
    ∀ f ∈ flagOf keywords a, f ∈ (beforeStop lower rules account subject).filterMap (flagOf keywords)
  folders : ∀ f ∈ moveFolders (early (sent extensions keywords) (matching lower rules account subject) ++
      late (sent extensions keywords) false (matching lower rules account subject)),
    (moveFolders (beforeStop lower rules account subject)).head? = some f

end Exact

section Main

variable {lower : Str → Str} {keywords : Str → Option Str} {extensions : List Str} {rules : List Rule}
  {account : Str} {subject : Subject}

theorem scheduled_flags {f : Str} : f ∈ (scheduled lower keywords rules account subject).flags ↔
      f ∈ (beforeStop lower rules account subject).filterMap (flagOf keywords) := by
  have hmap : (scheduled lower keywords rules account subject).flags =
      ((Rules.plan lower rules account subject).map (·.action)).filterMap (flagOf keywords) := by
    rw [filterMap_map]
    rfl
  rw [hmap, plan_actions, filterMap_append, mem_append]
  constructor
  · rintro (h | h)
    · obtain ⟨a, ha, hf⟩ := mem_filterMap.mp h
      exact mem_filterMap.mpr ⟨a, mem_of_mem_filter ha, hf⟩
    · obtain ⟨a, ha, hf⟩ := mem_filterMap.mp h
      obtain ⟨g, _, rfl⟩ := mem_map.mp ha
      cases hf
  · intro h
    obtain ⟨a, ha, hf⟩ := mem_filterMap.mp h
    refine .inl (mem_filterMap.mpr ⟨a, mem_filter.mpr ⟨ha, ?_⟩, hf⟩)
    cases a with
    | moveTo g => cases hf
    | markRead => rfl
    | star => rfl
    | addLabel l => rfl
    | stop => rfl

theorem scheduled_folders {f : Str} : f ∈ (scheduled lower keywords rules account subject).folders ↔
      (moveFolders (beforeStop lower rules account subject)).head? = some f := by
  show f ∈ moveFolders ((Rules.plan lower rules account subject).map (·.action)) ↔ _
  rw [plan_actions, mem_moveFolders, mem_append]
  constructor
  · rintro (h | h)
    · have := of_mem_filter h
      cases this
    · obtain ⟨g, hg, he⟩ := mem_map.mp h
      cases he
      cases hm : moveFolders (beforeStop lower rules account subject) with
      | nil => rw [hm] at hg; cases hg
      | cons x xs =>
        rw [hm] at hg
        simp only [take_succ_cons, take_zero, mem_singleton] at hg
        rw [hg]
        rfl
  · intro h
    right
    cases hm : moveFolders (beforeStop lower rules account subject) with
    | nil => rw [hm] at h; cases h
    | cons x xs =>
      rw [hm] at h
      cases h
      simp

theorem mem_after_flags {rs : List Rule} {f : Str} : f ∈ (Effects.after keywords Effects.none rs).flags ↔
      ∃ a ∈ rs.flatMap (·.actions), flagOf keywords a = some f := by
  simp only [Effects.after, Effects.none, nil_append, mem_flatMap, mem_filterMap]
  constructor
  · rintro ⟨r, hr, a, ha, hf⟩
    exact ⟨a, ⟨r, hr, ha⟩, hf⟩
  · rintro ⟨a, ⟨r, hr, ha⟩, hf⟩
    exact ⟨r, hr, a, ha, hf⟩

theorem mem_after_folders {rs : List Rule} {f : Str} :
    f ∈ (Effects.after keywords Effects.none rs).folders ↔ .moveTo f ∈ rs.flatMap (·.actions) := by
  simp only [Effects.after, Effects.none, nil_append, mem_flatMap, mem_moveFolders]

theorem reached_subset : ∀ {rs : List Rule} {r : Rule}, r ∈ reached rs → r ∈ rs
  | r' :: rs, r, h => by
    unfold reached at h
    split at h
    · rw [mem_singleton.mp h]
      exact mem_cons_self
    · rcases mem_cons.mp h with rfl | h
      · exact mem_cons_self
      · exact mem_cons_of_mem _ (reached_subset h)

/-- **The script does no more than is planned here exactly when it only repeats**: the property fails
on a flag that stands after a `Stop` (in its own rule, or in a rule the script gets to because the rule
with the `Stop` was left out) and is not named before it, and on a folder that is not the first. -/
theorem sent_rules_narrower_iff {truth : Oreneta.Sieve.Test → Bool} (hsame : SameTruth lower truth rules subject) :
    ∃ script, Oreneta.Sieve.parse (plan rules account extensions keywords).script = some script ∧
      (Narrower (exec truth Effects.none script) (scheduled lower keywords rules account subject) ↔
        OnlyRepeats lower keywords extensions rules account subject) := by
  obtain ⟨script, hparse, hexec⟩ := exec_plan keywords account extensions hsame
  refine ⟨script, hparse, ?_⟩
  rw [hexec]
  have hmem := fun a => mem_reached_iff (sent extensions keywords) a (matching lower rules account subject)
  constructor
  · intro h
    refine ⟨fun a ha f hf => ?_, fun f hf => ?_⟩
    · exact scheduled_flags.mp (h.flags f (mem_after_flags.mpr ⟨a, (hmem a).mpr (.inr ha), hf⟩))
    · have hmove := (hmem _).mpr (mem_append.mp (mem_moveFolders.mp hf))
      exact scheduled_folders.mp (h.folders f (mem_after_folders.mpr hmove))
  · intro h
    refine ⟨fun f hf => ?_, fun f hf => ?_, fun hstop => ?_⟩
    · obtain ⟨a, ha, hf⟩ := mem_after_flags.mp hf
      refine scheduled_flags.mpr ?_
      rcases (hmem a).mp ha with hearly | hlate
      · exact mem_filterMap.mpr ⟨a, early_subset _ a _ hearly, hf⟩
      · exact h.flags a hlate f hf
    · have hmove := (hmem _).mp (mem_after_folders.mp hf)
      exact scheduled_folders.mpr (h.folders f (mem_moveFolders.mpr (mem_append.mpr hmove)))
    · -- a rule the script stops at matches here too
      obtain ⟨r, hr, hs⟩ := any_eq_true.mp hstop
      exact any_eq_true.mpr ⟨r, mem_of_mem_filter (reached_subset hr), hs⟩

/-- The same rule with its actions the other way round. -/
def readThenStop : Rule := { stopThenRead with actions := [.markRead, .stop] }

theorem readThenStop_narrower : ∃ script, Oreneta.Sieve.parse (plan [readThenStop] [] ["imap4flags"] (fun _ => none)).script =
        some script ∧
      Narrower (exec (fun _ => true) Effects.none script) (scheduled id (fun _ => none) [readThenStop] [] helloSubject) := by
  have hsame : SameTruth id (fun _ => true) [readThenStop] helloSubject := by
    intro r hr c hc text t _ _
    rw [mem_singleton.mp hr] at hc
    rw [mem_singleton.mp hc]
    rfl
  obtain ⟨script, hparse, hiff⟩ := @sent_rules_narrower_iff id (fun _ => none) ["imap4flags"]
    [readThenStop] [] helloSubject (fun _ => true) hsame
  exact ⟨script, hparse, hiff.mpr ⟨by decide, by decide⟩⟩

end Main

end Oreneta.Rules.Sieve

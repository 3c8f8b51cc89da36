import Oreneta.Lib.Sieve
import Oreneta.Rules.Plan

/-!
# The reader's rules as a Sieve script

`rules/sieve.rs`: a rule becomes an `if` block of the script, or is left out whole with the reasons.
`keywords` gives the keyword a label is linked to on the account.

* `quote`, `literalPattern`, `test`, `actions`, `compileRule`, `plan` — as the source has them, texts
  included.
* `ruleCommand` — the command a rule's block is; `plan_parses` — the script parses, to one command per
  rule it carries, in order, after its `require`.
-/

namespace Oreneta.Rules.Sieve

open Text List
open Oreneta.Sieve (Lexes Token)

/-- A rule that stays here, and why. -/
structure Left where
  id : Str
  name : Str
  reasons : List Str
  deriving DecidableEq, Repr

structure Plan where
  script : Str
  /-- Rules the script carries, in order. -/
  included : List Str
  /-- Rules that stay here, and why. -/
  left : List Left
  deriving DecidableEq, Repr

/-- A Sieve string: quoted, with `\` and `"` escaped. -/
def quote (text : Str) : Str :=
  "\"" ++ Text.replace '"' "\\\"" (Text.replace '\\' "\\\\" text) ++ "\""

/-- For `:matches`, where `*` and `?` are wildcards. -/
def literalPattern (text : Str) : Str :=
  Text.replace '?' "\\?" (Text.replace '*' "\\*" (Text.replace '\\' "\\\\" text))

def headers : Field → Str
  | .from_ => "\"from\""
  | .to_ => "\"to\""
  | .cc => "\"cc\""
  | .recipient => "[\"to\", \"cc\"]"
  | .subject => "\"subject\""

/-- One condition as a Sieve test, or why it cannot be one. -/
def test (condition : Condition) : Except Str Str :=
  let needle := trim condition.value
  if needle.isEmpty then .error "a condition has nothing to look for"
  else
    let addressField := decide (condition.field ≠ .subject)
    if addressField && needle.any (fun c => isWhitespace c || c = '<' || c = '>') then
      .error ("“" ++ needle ++
        "” spans a name and an address, which the server reads differently")
    else
      let h := headers condition.field
      match condition.op, addressField with
      | .contains, _ => .ok ("header :contains " ++ h ++ " " ++ quote needle)
      | .notContains, _ => .ok ("not header :contains " ++ h ++ " " ++ quote needle)
      | .is, false => .ok ("header :is " ++ h ++ " " ++ quote needle)
      | .startsWith, false =>
        .ok ("header :matches " ++ h ++ " " ++
          quote (literalPattern needle ++ "*"))
      | .endsWith, false =>
        .ok ("header :matches " ++ h ++ " " ++
          quote ("*" ++ literalPattern needle))
      | .endsWith, true =>
        .ok ("address :all :matches " ++ h ++ " " ++
          quote ("*" ++ literalPattern needle))
      | .is, true =>
        .error "“is” on an address compares the name too here, which the server cannot"
      | .startsWith, true =>
        .error "“starts with” on an address compares the name too here, which the server cannot"

/-- Whether a keyword can stand in `addflag`. -/
def usableKeyword (keyword : Str) : Bool :=
  !keyword.isEmpty &&
    !keyword.any (fun c => isWhitespace c || "()\x7b%*\"\\]".toList.contains c)

/-- What the loop of `actions` has gathered. -/
structure Collected where
  flags : List Str
  file : List Str
  stop : Bool
  deriving DecidableEq, Repr

def collect (keywords : Str → Option Str) : List Action → Collected → Except Str Collected
  | [], acc => .ok acc
  | .markRead :: rest, acc =>
    collect keywords rest { acc with flags := acc.flags ++ ["addflag \"\\\\Seen\";".toList] }
  | .star :: rest, acc =>
    collect keywords rest { acc with flags := acc.flags ++ ["addflag \"\\\\Flagged\";".toList] }
  | .addLabel labelId :: rest, acc =>
    match keywords labelId with
    | some keyword =>
      if usableKeyword keyword then
        collect keywords rest
          { acc with flags := acc.flags ++ ["addflag " ++ quote keyword ++ ";"] }
      else .error "labels exist only here unless linked to a keyword of this account"
    | none => .error "labels exist only here unless linked to a keyword of this account"
  | .moveTo folder :: rest, acc =>
    collect keywords rest
      { acc with file := acc.file ++ ["fileinto " ++ quote folder ++ ";"] }
  | .stop :: rest, acc => collect keywords rest { acc with stop := true }

/-- The Sieve form of a rule's actions and whether it uses flags, or why it has none.  Flags first:
a message is filed with the flags set before `fileinto`. -/
def actions (rule : Rule) (keywords : Str → Option Str) : Except Str (List Str × Bool) :=
  match collect keywords rule.actions ⟨[], [], false⟩ with
  | .ok acc =>
    .ok (acc.flags ++ acc.file ++ (if acc.stop then ["stop;".toList] else []), !acc.flags.isEmpty)
  | .error e => .error e

/-- The tests of a rule, and the reasons some of its conditions have none. -/
def testsOf (rule : Rule) : List Str × List Str :=
  (rule.conditions.filterMap (fun c => (test c).toOption),
    rule.conditions.filterMap (fun c => match test c with
      | .ok _ => none
      | .error e => some e))

/-- One block of the script, with whether it sets flags and files into folders. -/
structure Block where
  text : Str
  flags : Bool
  fileinto : Bool
  deriving DecidableEq, Repr

def filesInto (acts : List Str) : Bool := acts.any (fun a => "fileinto".toList.isPrefixOf a)

def blockText (rule : Rule) (tests acts : List Str) : Str :=
  let joined := match rule.matchMode with
    | .all => "allof (" ++ join ", " tests ++ ")"
    | .any => "anyof (" ++ join ", " tests ++ ")"
  let name := rule.name.map (fun c => if c = '\r' ∨ c = '\n' then ' ' else c)
  "# " ++ name ++ "\nif " ++ joined ++ " \x7b\n    " ++
    join "\n    " acts ++ "\n\x7d"

/-- Why the conditions of a rule cannot go. -/
def conditionReasons (rule : Rule) : List Str :=
  (testsOf rule).2 ++ (if rule.conditions.isEmpty then ["a rule needs a condition".toList] else [])

/-- Why the server cannot do what a rule asks. -/
def extensionReasons (has : Str → Bool) (acts : List Str) (flags : Bool) : List Str :=
  (if flags && !has "imap4flags".toList then ["the server cannot set flags (no imap4flags)".toList]
   else []) ++
    (if filesInto acts && !has "fileinto".toList then
      ["the server cannot file into folders (no fileinto)".toList] else [])

/-- What `plan` makes of one rule: its block, or the reasons to leave it out. -/
def compileRule (has : Str → Bool) (keywords : Str → Option Str) (rule : Rule) :
    Except (List Str) Block :=
  match actions rule keywords with
  | .error e => .error (conditionReasons rule ++ [e])
  | .ok (acts, flags) =>
    let reasons := conditionReasons rule ++ extensionReasons has acts flags
    if !reasons.isEmpty then .error reasons
    else .ok ⟨blockText rule (testsOf rule).1 acts, flags, filesInto acts⟩

/-- What the loop of `plan` has gathered. -/
structure Gathered where
  blocks : List Block
  included : List Str
  left : List Left
  deriving DecidableEq, Repr

def gather (has : Str → Bool) (keywords : Str → Option Str) (acc : Gathered) (rule : Rule) : Gathered :=
  match compileRule has keywords rule with
  | .ok block => { acc with blocks := acc.blocks ++ [block], included := acc.included ++ [rule.id] }
  | .error reasons => { acc with left := acc.left ++ [⟨rule.id, rule.name, reasons⟩] }

def requires (blocks : List Block) : List Str :=
  (if blocks.any (·.fileinto) then ["\"fileinto\"".toList] else []) ++
    (if blocks.any (·.flags) then ["\"imap4flags\"".toList] else [])

def scriptText (blocks : List Block) : Str :=
  "# Written by Oreneta from its rules. Changes made here are not kept:\n".toList ++
    "# edit the rules in Oreneta instead.\n" ++
    (if (requires blocks).isEmpty then []
     else "require [".toList ++ join ", ".toList (requires blocks) ++ "];\n".toList) ++
    blocks.flatMap (fun b => "\n".toList ++ b.text ++ "\n".toList)

/-- `eq_ignore_ascii_case`. -/
def hasExtension (extensions : List Str) (name : Str) : Bool :=
  extensions.any (fun e => e.map Char.toLower = name.map Char.toLower)

/-- Builds the script for one account from the rules in order: enabled rules for this account or for
every account. -/
def plan (rules : List Rule) (account : Str) (extensions : List Str)
    (keywords : Str → Option Str) : Plan :=
  let done := (rules.filter (fun r => r.enabled && (r.account.isEmpty || r.account = account))).foldl
    (gather (hasExtension extensions) keywords) ⟨[], [], []⟩
  ⟨scriptText done.blocks, done.included, done.left⟩

/-! ## What the texts are -/

theorem quote_eq (text : Str) : quote text = Oreneta.Sieve.quoted text := by
  have hin : Text.replace '"' "\\\"" (Text.replace '\\' "\\\\" text) =
      text.flatMap (fun c => if c = '"' ∨ c = '\\' then ['\\', c] else [c]) := by
    induction text with
    | nil => rfl
    | cons c text ih =>
      have hcons : Text.replace '"' "\\\"" (Text.replace '\\' "\\\\" (c :: text)) =
          Text.replace '"' "\\\"" (if c = '\\' then "\\\\" else [c]) ++
            Text.replace '"' "\\\"" (Text.replace '\\' "\\\\" text) := by
        simp only [Text.replace, flatMap_cons, flatMap_append]
      rw [hcons, ih, flatMap_cons]
      congr 1
      by_cases h1 : c = '\\'
      · subst h1
        rfl
      · by_cases h2 : c = '"'
        · subst h2
          rfl
        · simp [h1, h2, Text.replace]
  unfold quote Oreneta.Sieve.quoted
  rw [hin]
  rfl

theorem lexes_quote (text : Str) : Lexes (quote text) [.str text] := by
  rw [quote_eq]
  exact Lexes.quoted text

/-- The names of the headers a field stands for. -/
def headerNames : Field → List Str
  | .from_ => ["from"]
  | .to_ => ["to"]
  | .cc => ["cc"]
  | .recipient => ["to", "cc"]
  | .subject => ["subject"]

/-- The test a condition is written as. -/
def testSyntax (c : Condition) : Oreneta.Sieve.Test :=
  let needle := Text.trim c.value
  let h := headerNames c.field
  match c.op with
  | .contains => .header .contains h [needle]
  | .notContains => .not (.header .contains h [needle])
  | .is => .header .is h [needle]
  | .startsWith => .header .matches h [literalPattern needle ++ "*"]
  | .endsWith =>
    if c.field = .subject then .header .matches h ["*" ++ literalPattern needle]
    else .address .matches h ["*" ++ literalPattern needle]

theorem lexes_headers (f : Field) : Lexes (headers f ++ " ") (Oreneta.Sieve.stringTokens (headerNames f)) := by
  intro out
  cases f <;> rfl

theorem testSyntax_wellFormed (c : Condition) : (testSyntax c).WellFormed := by
  have hh : headerNames c.field ≠ [] := by cases c.field <;> simp [headerNames]
  unfold testSyntax
  cases c.op with
  | contains => exact ⟨hh, by simp⟩
  | notContains => exact ⟨hh, by simp⟩
  | is => exact ⟨hh, by simp⟩
  | startsWith => exact ⟨hh, by simp⟩
  | endsWith =>
    simp only
    split
    · exact ⟨hh, by simp⟩
    · exact ⟨hh, by simp⟩

theorem lexes_args {pre : Str} {tokens : List Token} (hpre : Lexes pre tokens) (f : Field) (key : Str) :
    Lexes (pre ++ headers f ++ " " ++ quote key) (tokens ++ Oreneta.Sieve.stringTokens (headerNames f) ++ [.str key]) := by
  rw [append_assoc pre]
  exact (hpre.append (lexes_headers f)).append (lexes_quote key)

/-- What `test` writes is the condition's test. -/
theorem lexes_test {c : Condition} {text : Str} (h : test c = .ok text) : Lexes text (testSyntax c).tokens := by
  have hheader : ∀ (w : Str) (m : Oreneta.Sieve.MatchType), Lexes w (.word "header" :: m.tokens) →
      ∀ key, Lexes (w ++ headers c.field ++ " " ++ quote key)
        (Oreneta.Sieve.Test.header m (headerNames c.field) [key]).tokens :=
    fun w m hw key => lexes_args hw c.field key
  unfold test at h
  unfold testSyntax
  simp only at h
  split at h
  · cases h
  · split at h
    · cases h
    · split at h
      · rename_i hop
        cases h
        rw [hop]
        exact hheader _ .contains (fun out => rfl) _
      · rename_i hop
        cases h
        rw [hop]
        have hnot : Lexes "not " [.word "not"] := fun out => rfl
        exact hnot.append (hheader "header :contains " .contains (fun out => rfl) _)
      · rename_i hop _
        cases h
        rw [hop]
        exact hheader _ .is (fun out => rfl) _
      · rename_i hop _
        cases h
        rw [hop]
        exact hheader _ .matches (fun out => rfl) _
      · rename_i hop hf
        cases h
        rw [hop]
        simp only
        rw [if_pos (by simpa using hf)]
        exact hheader _ .matches (fun out => rfl) _
      · rename_i hop hf
        cases h
        rw [hop]
        simp only
        rw [if_neg (by simpa using hf)]
        have haddr : Lexes "address :all :matches "
            (.word "address" :: .tag "all" :: Oreneta.Sieve.MatchType.matches.tokens) :=
          fun out => rfl
        exact lexes_args haddr c.field _
      · cases h
      · cases h

/-- The flag an action sets. -/
def flagOf (keywords : Str → Option Str) : Action → Option Str
  | .markRead => some "\\Seen"
  | .star => some "\\Flagged"
  | .addLabel labelId => keywords labelId
  | .moveTo _ | .stop => none

/-- The actions of a rule's block: its flags, its folders, and `stop`. -/
def ruleBody (keywords : Str → Option Str) (rule : Rule) : List Oreneta.Sieve.Action :=
  (rule.actions.filterMap (flagOf keywords)).map (fun f => .addflag [f]) ++
    (moveFolders rule.actions).map .fileinto ++
    (if Action.stop ∈ rule.actions then [.stop] else [])

def actionText : Oreneta.Sieve.Action → Str
  | .addflag fs => "addflag " ++ quote (fs.headD []) ++ ";"
  | .fileinto f => "fileinto " ++ quote f ++ ";"
  | .stop => "stop;"

theorem usableKeyword_iff {keyword : Str} (h : usableKeyword keyword = true) : keyword ≠ [] ∧ ' ' ∉ keyword := by
  unfold usableKeyword at h
  rw [Bool.and_eq_true] at h
  refine ⟨by simpa using h.1, fun hm => ?_⟩
  have hany : keyword.any (fun c => Text.isWhitespace c || "()\x7b%*\"\\]".toList.contains c) = true :=
    any_eq_true.mpr ⟨' ', hm, rfl⟩
  rw [hany] at h
  cases h.2

/-- **What the loop of `actions` gathers**: the text of every flag and of every folder, in order, and
whether there is a `Stop`, wherever it stands. -/
theorem collect_ok {keywords : Str → Option Str} : ∀ (as : List Action) {acc acc' : Collected},
    collect keywords as acc = .ok acc' →
      acc'.flags = acc.flags ++ (as.filterMap (flagOf keywords)).map (fun f => actionText (.addflag [f])) ∧
      acc'.file = acc.file ++ (moveFolders as).map (fun f => actionText (.fileinto f)) ∧
      acc'.stop = (acc.stop || decide (Action.stop ∈ as)) ∧
      ∀ f ∈ as.filterMap (flagOf keywords), f ≠ [] ∧ ' ' ∉ f
  | [], acc, acc', h => by
    cases h
    simp [moveFolders]
  | .markRead :: rest, acc, acc', h => by
    obtain ⟨h1, h2, h3, h4⟩ := collect_ok rest h
    refine ⟨?_, by simpa [moveFolders] using h2, by simpa using h3, ?_⟩
    · rw [h1]
      simp only [filterMap_cons, flagOf, map_cons, append_assoc]
      rfl
    · simp only [filterMap_cons, flagOf, forall_mem_cons]
      exact ⟨by decide, h4⟩
  | .star :: rest, acc, acc', h => by
    obtain ⟨h1, h2, h3, h4⟩ := collect_ok rest h
    refine ⟨?_, by simpa [moveFolders] using h2, by simpa using h3, ?_⟩
    · rw [h1]
      simp only [filterMap_cons, flagOf, map_cons, append_assoc]
      rfl
    · simp only [filterMap_cons, flagOf, forall_mem_cons]
      exact ⟨by decide, h4⟩
  | .addLabel labelId :: rest, acc, acc', h => by
    unfold collect at h
    split at h
    · rename_i keyword hk
      split at h
      · rename_i hu
        obtain ⟨h1, h2, h3, h4⟩ := collect_ok rest h
        refine ⟨?_, by simpa [moveFolders] using h2, by simpa using h3, ?_⟩
        · rw [h1]
          simp only [filterMap_cons, flagOf, hk, map_cons, append_assoc]
          rfl
        · simp only [filterMap_cons, flagOf, hk, forall_mem_cons]
          exact ⟨usableKeyword_iff hu, h4⟩
      · cases h
    · cases h
  | .moveTo folder :: rest, acc, acc', h => by
    obtain ⟨h1, h2, h3, h4⟩ := collect_ok rest h
    have hnone : (Action.moveTo folder :: rest).filterMap (flagOf keywords) =
        rest.filterMap (flagOf keywords) := filterMap_cons_none rfl
    refine ⟨by rw [hnone]; exact h1, ?_, by simpa using h3, by rw [hnone]; exact h4⟩
    rw [h2]
    simp only [moveFolders, filterMap_cons, map_cons, append_assoc]
    rfl
  | .stop :: rest, acc, acc', h => by
    obtain ⟨h1, h2, h3, h4⟩ := collect_ok rest h
    have hnone : (Action.stop :: rest).filterMap (flagOf keywords) =
        rest.filterMap (flagOf keywords) := filterMap_cons_none rfl
    exact ⟨by rw [hnone]; exact h1, by simpa [moveFolders] using h2, by simpa using h3, by rw [hnone]; exact h4⟩

variable {rule : Rule} {keywords : Str → Option Str}

theorem actions_ok {acts : List Str} {flags : Bool} (h : actions rule keywords = .ok (acts, flags)) :
    acts = (ruleBody keywords rule).map actionText ∧
      ∀ f ∈ rule.actions.filterMap (flagOf keywords), f ≠ [] ∧ ' ' ∉ f := by
  unfold actions at h
  split at h
  · rename_i acc hc
    cases h
    obtain ⟨h1, h2, h3, h4⟩ := collect_ok _ hc
    refine ⟨?_, h4⟩
    unfold ruleBody
    rw [h1, h2, h3, map_append, map_append, map_map, map_map]
    by_cases hs : Action.stop ∈ rule.actions
    · rw [if_pos hs, if_pos (by simpa using hs)]
      rfl
    · rw [if_neg hs, if_neg (by simpa using hs)]
      rfl
  · cases h

theorem lexes_action {a : Oreneta.Sieve.Action} (h : ∀ fs, a = .addflag fs → ∃ f, fs = [f]) : Lexes (actionText a) a.tokens := by
  have hend : Lexes ";" [.sym ';'] := fun out => rfl
  cases a with
  | addflag fs =>
    obtain ⟨f, rfl⟩ := h fs rfl
    have hw : Lexes "addflag " [.word "addflag"] := fun out => rfl
    exact (hw.append (lexes_quote f)).append hend
  | fileinto f =>
    have hw : Lexes "fileinto " [.word "fileinto"] := fun out => rfl
    exact (hw.append (lexes_quote f)).append hend
  | stop => exact fun out => rfl

theorem lexes_acts : ∀ {l : List Oreneta.Sieve.Action}, (∀ a ∈ l, ∀ fs, a = .addflag fs → ∃ f, fs = [f]) →
      Lexes (join "\n    " (l.map actionText)) (l.flatMap Oreneta.Sieve.Action.tokens)
  | [], _ => Lexes.nil
  | [a], h => by
    have := lexes_action (h a (by simp))
    simpa [join] using this
  | a :: b :: l, h => by
    have hsep : Lexes "\n    " [] := fun out => rfl
    have hhead := (lexes_action (h a (by simp))).append hsep
    have hrest := lexes_acts (l := b :: l) fun x hx => h x (mem_cons_of_mem _ hx)
    have := hhead.append hrest
    simpa [join] using this

theorem lexes_tests : ∀ (conditions : List Condition), conditions ≠ [] → (∀ c ∈ conditions, ∃ text, test c = .ok text) →
      Lexes (join ", " (conditions.filterMap (fun c => (test c).toOption)) ++ ")")
        (Oreneta.Sieve.testTokens (conditions.map testSyntax))
  | [], h, _ => absurd rfl h
  | [c], _, hok => by
    obtain ⟨text, ht⟩ := hok c (by simp)
    have hend : Lexes ")" [.sym ')'] := fun out => rfl
    have := (lexes_test ht).append hend
    simpa [ht, Except.toOption, join, Oreneta.Sieve.testTokens] using this
  | c :: d :: rest, _, hok => by
    obtain ⟨text, ht⟩ := hok c (by simp)
    obtain ⟨text', ht'⟩ := hok d (by simp)
    have hsep : Lexes ", " [.sym ','] := fun out => rfl
    have hrest := lexes_tests (d :: rest) (by simp)
      fun x hx => hok x (mem_cons_of_mem _ hx)
    have := ((lexes_test ht).append hsep).append hrest
    simpa [ht, ht', Except.toOption, join, Oreneta.Sieve.testTokens] using this

/-- The command a rule's block is. -/
def ruleCommand (keywords : Str → Option Str) (rule : Rule) : Oreneta.Sieve.Command :=
  .branch (decide (rule.matchMode = .all)) (rule.conditions.map testSyntax) (ruleBody keywords rule)

theorem ruleBody_flags {a : Oreneta.Sieve.Action}
    (ha : a ∈ ruleBody keywords rule) {fs : List Str} (hfs : a = .addflag fs) : ∃ f, fs = [f] := by
  subst hfs
  unfold ruleBody at ha
  rcases mem_append.mp ha with ha | ha
  · rcases mem_append.mp ha with ha | ha
    · obtain ⟨f, _, hf⟩ := mem_map.mp ha
      cases hf
      exact ⟨f, rfl⟩
    · obtain ⟨f, _, hf⟩ := mem_map.mp ha
      cases hf
  · split at ha
    · rw [mem_singleton] at ha
      cases ha
    · cases ha

/-- A rule's block, its comment line included, is the rule's command. -/
theorem lexes_blockText (hne : rule.conditions ≠ []) (hok : ∀ c ∈ rule.conditions, ∃ text, test c = .ok text) :
    Lexes (blockText rule (rule.conditions.filterMap (fun c => (test c).toOption))
      ((ruleBody keywords rule).map actionText)) (ruleCommand keywords rule).tokens := by
  have hname : '\n' ∉ ' ' :: rule.name.map (fun c => if c = '\r' ∨ c = '\n' then ' ' else c) := by
    intro hm
    rcases mem_cons.mp hm with hm | hm
    · cases hm
    · obtain ⟨c, _, hc⟩ := mem_map.mp hm
      split at hc
      · cases hc
      · rename_i hno
        exact hno (Or.inr hc)
  have hcomment := Lexes.comment _ hname
  have hif : Lexes "if " [.word "if"] := fun out => rfl
  have hopen : Lexes " \x7b\n    " [.sym '{'] := fun out => rfl
  have hclose : Lexes "\n\x7d" [.sym '}'] := fun out => rfl
  have hall : Lexes "allof (" [.word "allof", .sym '('] := fun out => rfl
  have hany : Lexes "anyof (" [.word "anyof", .sym '('] := fun out => rfl
  have htests := lexes_tests _ hne hok
  have hacts := lexes_acts (l := ruleBody keywords rule) fun a ha fs hfs => ruleBody_flags ha hfs
  unfold blockText ruleCommand
  cases rule.matchMode with
  | all =>
    have := ((((hcomment.append hif).append (hall.append htests)).append hopen).append hacts).append hclose
    simpa [Oreneta.Sieve.Command.tokens] using this
  | any =>
    have := ((((hcomment.append hif).append (hany.append htests)).append hopen).append hacts).append hclose
    simpa [Oreneta.Sieve.Command.tokens] using this

/-- What a rule that goes to the server is: every condition has its test, every flag can be set, and
its block is its command. -/
structure Sendable (keywords : Str → Option Str) (rule : Rule) (block : Block) : Prop where
  conditions : rule.conditions ≠ []
  tests : ∀ c ∈ rule.conditions, ∃ text, test c = .ok text
  flags : ∀ f ∈ rule.actions.filterMap (flagOf keywords), f ≠ [] ∧ ' ' ∉ f
  lexes : Lexes block.text (ruleCommand keywords rule).tokens

theorem conditionReasons_nil (h : conditionReasons rule = []) :
    rule.conditions ≠ [] ∧ ∀ c ∈ rule.conditions, ∃ text, test c = .ok text := by
  obtain ⟨hreasons, hempty⟩ := append_eq_nil_iff.mp h
  refine ⟨fun he => by simp [he] at hempty, fun c hc => ?_⟩
  cases ht : test c with
  | ok text => exact ⟨text, rfl⟩
  | error e =>
    have hm : e ∈ (testsOf rule).2 := by
      unfold testsOf
      rw [mem_filterMap]
      exact ⟨c, hc, by rw [ht]⟩
    rw [hreasons] at hm
    cases hm

theorem compileRule_ok {has : Str → Bool} {block : Block}
    (h : compileRule has keywords rule = .ok block) : Sendable keywords rule block := by
  unfold compileRule at h
  split at h
  · cases h
  · rename_i acts flags hacts
    simp only at h
    split at h
    · cases h
    · rename_i hnone
      cases h
      have hnil : conditionReasons rule ++ extensionReasons has acts flags = [] := by simpa using hnone
      obtain ⟨hne, hok⟩ := conditionReasons_nil (append_eq_nil_iff.mp hnil).1
      obtain ⟨rfl, hflags⟩ := actions_ok hacts
      exact ⟨hne, hok, hflags, lexes_blockText hne hok⟩

/-- Whether a rule goes to the server. -/
def sent (extensions : List Str) (keywords : Str → Option Str) (rule : Rule) : Bool :=
  (compileRule (hasExtension extensions) keywords rule).toBool

theorem sendable_of_sent {extensions : List Str}
    (h : sent extensions keywords rule = true) : ∃ block, Sendable keywords rule block := by
  unfold sent at h
  cases hc : compileRule (hasExtension extensions) keywords rule with
  | ok block => exact ⟨block, compileRule_ok hc⟩
  | error e =>
    rw [hc] at h
    cases h

theorem foldl_gather (has : Str → Bool) (keywords : Str → Option Str) (rules : List Rule) :
    ∀ acc : Gathered, (rules.foldl (gather has keywords) acc).blocks =
      acc.blocks ++ rules.filterMap (fun r => (compileRule has keywords r).toOption) := by
  induction rules with
  | nil => intro acc; simp
  | cons rule rules ih =>
    intro acc
    rw [foldl_cons, ih]
    unfold gather
    cases hc : compileRule has keywords rule with
    | ok block => simp [hc, Except.toOption]
    | error reasons => simp [hc, Except.toOption]

def requireNames (blocks : List Block) : List Str :=
  (if blocks.any (·.fileinto) then ["fileinto".toList] else []) ++
    (if blocks.any (·.flags) then ["imap4flags".toList] else [])

def requireCommand (blocks : List Block) : Oreneta.Sieve.Script :=
  if (requireNames blocks).isEmpty then [] else [.require (requireNames blocks)]

theorem lexes_require (blocks : List Block) : Lexes (if (requires blocks).isEmpty then []
      else "require [" ++ join ", " (requires blocks) ++ "];\n")
      ((requireCommand blocks).flatMap Oreneta.Sieve.Command.tokens) := by
  unfold requireCommand requireNames requires
  cases blocks.any (·.fileinto) <;> cases blocks.any (·.flags) <;> exact fun out => rfl

theorem lexes_blocks (has : Str → Bool) (keywords : Str → Option Str) : ∀ rules : List Rule,
    Lexes ((rules.filterMap (fun r => (compileRule has keywords r).toOption)).flatMap (fun b => "\n" ++ b.text ++ "\n"))
      (((rules.filter (fun r => (compileRule has keywords r).toBool)).map (ruleCommand keywords)).flatMap
        Oreneta.Sieve.Command.tokens)
  | [] => Lexes.nil
  | rule :: rules => by
    have ih := lexes_blocks has keywords rules
    have hnl : Lexes "\n" [] := fun out => rfl
    cases hc : compileRule has keywords rule with
    | ok block =>
      have := ((hnl.append (compileRule_ok hc).lexes).append hnl).append ih
      simpa [hc, Except.toOption, Except.toBool] using this
    | error reasons => simpa [hc, Except.toOption, Except.toBool] using ih

theorem lexes_scriptText (has : Str → Bool) (keywords : Str → Option Str) (rules : List Rule) :
    let blocks := rules.filterMap (fun r => (compileRule has keywords r).toOption)
    Lexes (scriptText blocks) ((requireCommand blocks ++
      (rules.filter fun r => (compileRule has keywords r).toBool).map (ruleCommand keywords)).flatMap
        Oreneta.Sieve.Command.tokens) := by
  intro blocks
  have h1 := Lexes.comment " Written by Oreneta from its rules. Changes made here are not kept:" (by decide)
  have h2 := Lexes.comment " edit the rules in Oreneta instead." (by decide)
  have hall := ((h1.append h2).append (lexes_require blocks)).append (lexes_blocks has keywords rules)
  rw [flatMap_append]
  exact hall

theorem ruleCommand_wellFormed (hne : rule.conditions ≠ []) : (ruleCommand keywords rule).WellFormed := by
  refine ⟨by simpa using hne, ?_, ?_⟩
  · intro t ht
    obtain ⟨c, _, rfl⟩ := mem_map.mp ht
    exact testSyntax_wellFormed c
  · intro a ha
    cases a with
    | addflag fs =>
      obtain ⟨f, rfl⟩ := ruleBody_flags ha rfl
      exact cons_ne_nil _ _
    | fileinto f => trivial
    | stop => trivial

theorem requireCommand_cases (blocks : List Block) : ∀ c ∈ requireCommand blocks, ∃ names, names ≠ [] ∧ c = .require names := by
  intro c hc
  unfold requireCommand at hc
  split at hc
  · cases hc
  · rename_i hne
    exact ⟨_, by simpa using hne, mem_singleton.mp hc⟩

/-- **The script parses**: after its `require` it is the commands of the rules it carries, in order. -/
theorem plan_parses (rules : List Rule) (account : Str) (extensions : List Str) (keywords : Str → Option Str) :
    ∃ req, (∀ c ∈ req, ∃ names, c = Oreneta.Sieve.Command.require names) ∧
      Oreneta.Sieve.parse (plan rules account extensions keywords).script =
        some (req ++ ((rules.filter (·.appliesTo account)).filter (sent extensions keywords)).map
          (ruleCommand keywords)) := by
  have hblocks := foldl_gather (hasExtension extensions) keywords (rules.filter (·.appliesTo account)) ⟨[], [], []⟩
  have hlex := lexes_scriptText (hasExtension extensions) keywords (rules.filter (·.appliesTo account))
  simp only at hlex
  rw [← nil_append (List.filterMap _ _), ← hblocks] at hlex
  refine ⟨_, ?_, Oreneta.Sieve.parse_script ?_ hlex⟩
  · intro c hc
    obtain ⟨names, _, rfl⟩ := requireCommand_cases _ c hc
    exact ⟨names, rfl⟩
  · intro c hc
    rcases mem_append.mp hc with hc | hc
    · obtain ⟨names, hne, rfl⟩ := requireCommand_cases _ c hc
      exact hne
    · obtain ⟨rule, hrule, rfl⟩ := mem_map.mp hc
      obtain ⟨block, hsend⟩ := sendable_of_sent (of_mem_filter hrule)
      exact ruleCommand_wellFormed hsend.conditions

end Oreneta.Rules.Sieve

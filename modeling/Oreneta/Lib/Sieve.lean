import Oreneta.Lib.Text

/-!
# Sieve

The part of the mail filtering language of RFC 5228, with `fileinto` and the flags of RFC 5232, that
is made of `require` and of `if allof (…)` / `if anyof (…)` blocks of `addflag`, `fileinto` and `stop`
over `header` and `address` tests.

* `lex` — comments, identifiers, tags, quoted strings with their escapes, punctuation;
* `parse` — the commands of a script;
* `exec` — the commands run top to bottom: the flags added, the folders filed into, and whether `stop`
  was reached.  The truth of a test is a parameter.
* `Lexes` — a text that leaves the lexer between two tokens; `Lexes.append` lexes a text piece by
  piece.
* `parse_script` — the tokens of a script are parsed back to it.
-/

namespace Oreneta.Sieve

open List Option

/-! ## Tokens -/

inductive Token where
  | word (w : Str)
  | tag (w : Str)
  | str (s : Str)
  | sym (c : Char)
  deriving DecidableEq, Repr

/-- Where the lexer is; what has been read of a token is kept reversed. -/
inductive Mode where
  | gap
  | comment
  | word (read : Str)
  | tag (read : Str)
  | string (read : Str)
  | escape (read : Str)
  | bad
  deriving DecidableEq, Repr

/-- The lexer's state; the tokens so far, the last one first. -/
structure Lexer where
  mode : Mode
  out : List Token
  deriving DecidableEq, Repr

def isSpace (c : Char) : Bool := c = ' ' || c = '\t' || c = '\r' || c = '\n'

def isSymbol (c : Char) : Bool :=
  c = ';' || c = ',' || c = '(' || c = ')' || c = '[' || c = ']' || c = '{' || c = '}'

def isWordChar (c : Char) : Bool := c.isAlphanum || c = '_'

/-- A character between two tokens. -/
def fromGap (out : List Token) (c : Char) : Lexer :=
  if isSpace c then ⟨.gap, out⟩
  else if c = '#' then ⟨.comment, out⟩
  else if c = '"' then ⟨.string [], out⟩
  else if c = ':' then ⟨.tag [], out⟩
  else if isSymbol c then ⟨.gap, .sym c :: out⟩
  else if isWordChar c then ⟨.word [c], out⟩
  else ⟨.bad, out⟩

def lexStep (s : Lexer) (c : Char) : Lexer :=
  match s.mode with
  | .gap => fromGap s.out c
  | .comment => if c = '\n' then ⟨.gap, s.out⟩ else s
  | .word read =>
    if isWordChar c then ⟨.word (c :: read), s.out⟩ else fromGap (.word read.reverse :: s.out) c
  | .tag read =>
    if isWordChar c then ⟨.tag (c :: read), s.out⟩ else fromGap (.tag read.reverse :: s.out) c
  | .string read =>
    if c = '"' then ⟨.gap, .str read.reverse :: s.out⟩
    else if c = '\\' then ⟨.escape read, s.out⟩
    else ⟨.string (c :: read), s.out⟩
  | .escape read => ⟨.string (c :: read), s.out⟩
  | .bad => s

/-- The tokens of a text; `none` where it is not Sieve. -/
def lex (text : Str) : Option (List Token) :=
  match text.foldl lexStep ⟨.gap, []⟩ with
  | ⟨.gap, out⟩ | ⟨.comment, out⟩ => some out.reverse
  | ⟨.word read, out⟩ => some (.word read.reverse :: out).reverse
  | ⟨.tag read, out⟩ => some (.tag read.reverse :: out).reverse
  | _ => none

/-- The text is the tokens, and ends between two tokens. -/
def Lexes (text : Str) (tokens : List Token) : Prop :=
  ∀ out, text.foldl lexStep ⟨.gap, out⟩ = ⟨.gap, tokens.reverse ++ out⟩

theorem Lexes.nil : Lexes [] [] := fun _ => rfl

theorem Lexes.append {a b : Str} {ta tb : List Token} (ha : Lexes a ta) (hb : Lexes b tb) : Lexes (a ++ b) (ta ++ tb) := by
  intro out
  rw [foldl_append, ha, hb]
  simp

theorem Lexes.lex {text : Str} {tokens : List Token} (h : Lexes text tokens) : Sieve.lex text = some tokens := by
  unfold Sieve.lex
  rw [h []]
  simp

/-- A comment line. -/
theorem Lexes.comment (text : Str) (h : '\n' ∉ text) : Lexes ('#' :: text ++ ['\n']) [] := by
  intro out
  have hin : ∀ s : Str, '\n' ∉ s → s.foldl lexStep ⟨.comment, out⟩ = ⟨.comment, out⟩ := by
    intro s
    induction s with
    | nil => intro _; rfl
    | cons c s ih =>
      intro hs
      have hc : ¬ c = '\n' := fun he => hs (by simp [he])
      rw [foldl_cons]
      simp only [lexStep, if_neg hc]
      exact ih fun hm => hs (mem_cons_of_mem _ hm)
  have hstart : lexStep ⟨.gap, out⟩ '#' = ⟨.comment, out⟩ := rfl
  rw [cons_append, foldl_cons, hstart, foldl_append, hin text h]
  rfl

/-! ## Quoted strings -/

/-- A string as Sieve writes it: quoted, with `\` and `"` escaped. -/
def quoted (s : Str) : Str :=
  '"' :: s.flatMap (fun c => if c = '"' ∨ c = '\\' then ['\\', c] else [c]) ++ ['"']

theorem Lexes.quoted (s : Str) : Lexes (Sieve.quoted s) [.str s] := by
  intro out
  have hin : ∀ (s read : Str), (s.flatMap (fun c => if c = '"' ∨ c = '\\' then ['\\', c] else [c])).foldl lexStep
        ⟨.string read, out⟩ = ⟨.string (s.reverse ++ read), out⟩ := by
    intro s
    induction s with
    | nil => intro read; rfl
    | cons c s ih =>
      intro read
      rw [flatMap_cons, foldl_append]
      have hc : (if c = '"' ∨ c = '\\' then ['\\', c] else [c]).foldl lexStep ⟨.string read, out⟩ =
          ⟨.string (c :: read), out⟩ := by
        by_cases h : c = '"' ∨ c = '\\'
        · rw [if_pos h]
          simp [lexStep]
        · rw [if_neg h]
          rw [not_or] at h
          simp [lexStep, h.1, h.2]
      rw [hc, ih]
      simp
  have hstart : lexStep ⟨.gap, out⟩ '"' = ⟨.string [], out⟩ := rfl
  unfold Sieve.quoted
  rw [cons_append, foldl_cons, hstart, foldl_append, hin s []]
  simp [lexStep]

/-! ## Scripts -/

inductive MatchType where
  | is
  | contains
  | matches
  deriving DecidableEq, Repr

inductive Test where
  | header (m : MatchType) (headers keys : List Str)
  /-- `address :all`: the whole address. -/
  | address (m : MatchType) (headers keys : List Str)
  | not (t : Test)
  deriving DecidableEq, Repr

inductive Action where
  | addflag (flags : List Str)
  | fileinto (folder : Str)
  | stop
  deriving DecidableEq, Repr

inductive Command where
  | require (names : List Str)
  /-- `if allof (…) { … }`, or `if anyof (…) { … }`. -/
  | branch (all : Bool) (tests : List Test) (body : List Action)
  deriving DecidableEq, Repr

abbrev Script := List Command

/-- A string list after its `[`. -/
def parseItems : List Token → Option (List Str × List Token)
  | .str s :: .sym ']' :: ts => some ([s], ts)
  | .str s :: .sym ',' :: ts => (parseItems ts).map (fun (l, rest) => (s :: l, rest))
  | _ => none

/-- A string list, or a string alone. -/
def parseStrings : List Token → Option (List Str × List Token)
  | .str s :: ts => some ([s], ts)
  | .sym '[' :: ts => parseItems ts
  | _ => none

def parseMatch : List Token → Option (MatchType × List Token)
  | .tag w :: ts =>
    if w = "is" then some (.is, ts)
    else if w = "contains" then some (.contains, ts)
    else if w = "matches" then some (.matches, ts)
    else none
  | _ => none

/-- The match type, the headers and the keys of a test. -/
def parseArgs (make : MatchType → List Str → List Str → Test) (ts : List Token) :
    Option (Test × List Token) := do
  let (m, ts) ← parseMatch ts
  let (headers, ts) ← parseStrings ts
  let (keys, ts) ← parseStrings ts
  some (make m headers keys, ts)

def parseTest : List Token → Option (Test × List Token)
  | .word w :: ts =>
    if w = "not" then (parseTest ts).map (fun (t, rest) => (.not t, rest))
    else if w = "header" then parseArgs .header ts
    else if w = "address" then
      match ts with
      | .tag p :: ts => if p = "all" then parseArgs .address ts else none
      | _ => none
    else none
  | _ => none

/-- The tests of `allof` and `anyof`, after the `(`. -/
def parseTests : Nat → List Token → Option (List Test × List Token)
  | 0, _ => none
  | n + 1, ts =>
    match parseTest ts with
    | some (t, .sym ')' :: rest) => some ([t], rest)
    | some (t, .sym ',' :: rest) => (parseTests n rest).map (fun (l, r) => (t :: l, r))
    | _ => none

def parseAction : List Token → Option (Action × List Token)
  | .word w :: ts =>
    if w = "addflag" then
      match parseStrings ts with
      | some (flags, .sym ';' :: rest) => some (.addflag flags, rest)
      | _ => none
    else if w = "fileinto" then
      match ts with
      | .str s :: .sym ';' :: rest => some (.fileinto s, rest)
      | _ => none
    else if w = "stop" then
      match ts with
      | .sym ';' :: rest => some (.stop, rest)
      | _ => none
    else none
  | _ => none

/-- The actions of a block, after its `{`. -/
def parseBody : Nat → List Token → Option (List Action × List Token)
  | 0, _ => none
  | _ + 1, .sym '}' :: rest => some ([], rest)
  | n + 1, ts =>
    match parseAction ts with
    | some (a, rest) => (parseBody n rest).map (fun (l, r) => (a :: l, r))
    | none => none

def parseCommand (n : Nat) : List Token → Option (Command × List Token)
  | .word w :: ts =>
    if w = "require" then
      match parseStrings ts with
      | some (names, .sym ';' :: rest) => some (.require names, rest)
      | _ => none
    else if w = "if" then
      match ts with
      | .word mode :: .sym '(' :: ts =>
        if mode = "allof" ∨ mode = "anyof" then
          match parseTests n ts with
          | some (tests, .sym '{' :: ts) =>
            (parseBody n ts).map (fun (body, rest) =>
              (.branch (decide (mode = "allof")) tests body, rest))
          | _ => none
        else none
      | _ => none
    else none
  | _ => none

def parseCommands : Nat → List Token → Option Script
  | _, [] => some []
  | 0, _ => none
  | n + 1, ts =>
    match parseCommand n ts with
    | some (c, rest) => (parseCommands n rest).map (c :: ·)
    | none => none

/-- The script a text is, if it is one. -/
def parse (text : Str) : Option Script := do
  let tokens ← lex text
  parseCommands tokens.length tokens

/-! ## Reading back what was written -/

/-- The items of a string list and its `]`. -/
def itemTokens : List Str → List Token
  | [] => [.sym ']']
  | [s] => [.str s, .sym ']']
  | s :: t :: l => .str s :: .sym ',' :: itemTokens (t :: l)

def listTokens (l : List Str) : List Token := .sym '[' :: itemTokens l

/-- A string alone is written without brackets. -/
def stringTokens : List Str → List Token
  | [s] => [.str s]
  | l => listTokens l

def MatchType.tokens : MatchType → List Token
  | .is => [.tag "is"]
  | .contains => [.tag "contains"]
  | .matches => [.tag "matches"]

def Test.tokens : Test → List Token
  | .header m hs ks => .word "header" :: m.tokens ++ stringTokens hs ++ stringTokens ks
  | .address m hs ks =>
    .word "address" :: .tag "all" :: m.tokens ++ stringTokens hs ++ stringTokens ks
  | .not t => .word "not" :: t.tokens

/-- The tests of `allof` and `anyof` and their `)`. -/
def testTokens : List Test → List Token
  | [] => [.sym ')']
  | [t] => t.tokens ++ [.sym ')']
  | t :: u :: l => t.tokens ++ .sym ',' :: testTokens (u :: l)

def Action.tokens : Action → List Token
  | .addflag fs => .word "addflag" :: stringTokens fs ++ [.sym ';']
  | .fileinto f => [.word "fileinto", .str f, .sym ';']
  | .stop => [.word "stop", .sym ';']

def Command.tokens : Command → List Token
  | .require names => .word "require" :: listTokens names ++ [.sym ';']
  | .branch all tests body =>
    .word "if" :: .word (if all then "allof" else "anyof") :: .sym '(' ::
      testTokens tests ++ .sym '{' :: body.flatMap Action.tokens ++ [.sym '}']

/-- No list of the test is empty. -/
def Test.WellFormed : Test → Prop
  | .header _ hs ks | .address _ hs ks => hs ≠ [] ∧ ks ≠ []
  | .not t => t.WellFormed

def Action.WellFormed : Action → Prop
  | .addflag fs => fs ≠ []
  | _ => True

def Command.WellFormed : Command → Prop
  | .require names => names ≠ []
  | .branch _ tests body =>
    tests ≠ [] ∧ (∀ t ∈ tests, t.WellFormed) ∧ ∀ a ∈ body, a.WellFormed

theorem parseItems_tokens : ∀ {l : List Str}, l ≠ [] → ∀ rest : List Token, parseItems (itemTokens l ++ rest) = some (l, rest)
  | [], h, _ => absurd rfl h
  | [s], _, rest => rfl
  | s :: t :: l, _, rest => by
    simp only [itemTokens, cons_append, parseItems]
    rw [parseItems_tokens (by simp)]
    rfl

theorem parseStrings_list {l : List Str} (h : l ≠ []) (rest : List Token) :
    parseStrings (listTokens l ++ rest) = some (l, rest) :=
  parseItems_tokens h rest

theorem parseStrings_tokens : ∀ {l : List Str}, l ≠ [] → ∀ rest : List Token,
    parseStrings (stringTokens l ++ rest) = some (l, rest)
  | [], h, _ => absurd rfl h
  | [_], _, _ => rfl
  | _ :: _ :: _, h, rest => parseStrings_list h rest

theorem parseMatch_tokens (m : MatchType) (rest : List Token) : parseMatch (m.tokens ++ rest) = some (m, rest) := by
  cases m <;> rfl

theorem parseArgs_tokens (make : MatchType → List Str → List Str → Test) {hs ks : List Str}
    (m : MatchType) (hh : hs ≠ []) (hk : ks ≠ []) (rest : List Token) :
    parseArgs make (m.tokens ++ stringTokens hs ++ stringTokens ks ++ rest) =
      some (make m hs ks, rest) := by
  unfold parseArgs
  simp only [append_assoc, parseMatch_tokens, parseStrings_tokens hh, parseStrings_tokens hk, bind_eq_bind, bind_some]

theorem parseTest_tokens : ∀ {t : Test}, t.WellFormed → ∀ rest : List Token, parseTest (t.tokens ++ rest) = some (t, rest)
  | .header m hs ks, h, rest => by
    have := parseArgs_tokens .header m h.1 h.2 rest
    simpa [Test.tokens, parseTest] using this
  | .address m hs ks, h, rest => by
    have := parseArgs_tokens .address m h.1 h.2 rest
    simpa [Test.tokens, parseTest] using this
  | .not t, h, rest => by
    have := parseTest_tokens (t := t) h rest
    simp [Test.tokens, parseTest, this]

theorem parseTests_tokens : ∀ {l : List Test}, l ≠ [] → (∀ t ∈ l, t.WellFormed) →
    ∀ {n : Nat}, l.length ≤ n → ∀ rest : List Token, parseTests n (testTokens l ++ rest) = some (l, rest)
  | [], h, _, _, _, _ => absurd rfl h
  | [t], _, hw, n + 1, _, rest => by
    simp only [testTokens, append_assoc, parseTests]
    rw [parseTest_tokens (hw t (by simp))]
    rfl
  | t :: u :: l, _, hw, n + 1, hn, rest => by
    have hrec := parseTests_tokens (l := u :: l) (by simp)
      (fun x hx => hw x (mem_cons_of_mem _ hx)) (n := n) (by simpa using hn) rest
    simp only [testTokens, append_assoc, cons_append, parseTests]
    rw [parseTest_tokens (hw t (by simp))]
    simp only [hrec, map_some]

theorem parseAction_tokens {a : Action} (h : a.WellFormed) (rest : List Token) :
    parseAction (a.tokens ++ rest) = some (a, rest) := by
  cases a with
  | addflag fs =>
    have hp := parseStrings_tokens (l := fs) h (.sym ';' :: rest)
    simp [Action.tokens, parseAction, hp]
  | fileinto f => rfl
  | stop => rfl

theorem parseBody_action {a : Action} {ts rest : List Token} {n : Nat} (h : parseAction ts = some (a, rest)) :
    parseBody (n + 1) ts = (parseBody n rest).map (fun (l, r) => (a :: l, r)) := by
  rw [parseBody]
  · rw [h]
  · rintro r rfl
    cases h

theorem parseBody_tokens : ∀ {l : List Action}, (∀ a ∈ l, a.WellFormed) → ∀ {n : Nat}, l.length < n → ∀ rest : List Token,
      parseBody n (l.flatMap Action.tokens ++ .sym '}' :: rest) = some (l, rest)
  | [], _, n + 1, _, rest => rfl
  | a :: l, hw, n + 1, hn, rest => by
    have hrec := parseBody_tokens (l := l) (fun x hx => hw x (mem_cons_of_mem _ hx)) (n := n) (by simpa using hn) rest
    have hone := parseAction_tokens (hw a (by simp)) (l.flatMap Action.tokens ++ .sym '}' :: rest)
    rw [flatMap_cons, append_assoc, parseBody_action hone, hrec]
    rfl

theorem Action.tokens_pos (a : Action) : 0 < a.tokens.length := by
  cases a <;> simp [Action.tokens]

theorem length_le_testTokens : ∀ l : List Test, l.length ≤ (testTokens l).length
  | [] => by simp [testTokens]
  | [t] => by simp [testTokens]
  | t :: u :: l => by
    have := length_le_testTokens (u :: l)
    simp only [testTokens, length_append, length_cons] at *
    omega

theorem length_le_flatMap_tokens : ∀ l : List Action, l.length ≤ (l.flatMap Action.tokens).length
  | [] => by simp
  | a :: l => by
    have := length_le_flatMap_tokens l
    have := a.tokens_pos
    simp only [flatMap_cons, length_append, length_cons]
    omega

theorem parseCommand_tokens {c : Command} (h : c.WellFormed) {n : Nat} (hn : c.tokens.length ≤ n + 1)
    (rest : List Token) : parseCommand n (c.tokens ++ rest) = some (c, rest) := by
  cases c with
  | require names =>
    have hp := parseStrings_list (l := names) h (.sym ';' :: rest)
    simp [Command.tokens, parseCommand, hp]
  | branch all tests body =>
    obtain ⟨hne, hts, hbody⟩ := h
    have hlt := length_le_testTokens tests
    have hlb := length_le_flatMap_tokens body
    simp only [Command.tokens, length_cons, length_append] at hn
    have ht := parseTests_tokens hne hts (n := n) (by omega) (.sym '{' :: (body.flatMap Action.tokens ++ .sym '}' :: rest))
    have hb := parseBody_tokens hbody (n := n) (by omega) rest
    cases all with
    | true => simp [Command.tokens, parseCommand, ht, hb]
    | false => simp [Command.tokens, parseCommand, ht, hb]

theorem Command.tokens_pos (c : Command) : 0 < c.tokens.length := by
  cases c <;> simp [Command.tokens]

theorem parseCommands_tokens : ∀ (script : Script), (∀ c ∈ script, c.WellFormed) →
    ∀ {n : Nat}, (script.flatMap Command.tokens).length ≤ n →
      parseCommands n (script.flatMap Command.tokens) = some script
  | [], _, n, _ => by cases n <;> rfl
  | c :: script, hw, n, hn => by
    have hpos := c.tokens_pos
    rw [flatMap_cons, length_append] at hn
    obtain ⟨m, rfl⟩ : ∃ m, n = m + 1 := ⟨n - 1, by omega⟩
    have hrec := parseCommands_tokens script (fun x hx => hw x (mem_cons_of_mem _ hx)) (n := m) (by omega)
    have hone := parseCommand_tokens (hw c (by simp)) (n := m) (by omega) (script.flatMap Command.tokens)
    rw [flatMap_cons, parseCommands]
    · simp only [hone, hrec, map_some]
    · intro hnil
      have := congrArg List.length hnil
      simp only [length_append, length_nil] at this
      omega

/-- **A text that is the tokens of a well-formed script is parsed back to it.** -/
theorem parse_script {text : Str} {script : Script} (hw : ∀ c ∈ script, c.WellFormed)
    (h : Lexes text (script.flatMap Command.tokens)) : parse text = some script := by
  unfold parse
  rw [h.lex]
  exact parseCommands_tokens _ hw le_rfl

/-! ## Running a script -/

/-- What a script has done to a message. -/
structure Effects where
  flags : List Str
  folders : List Str
  stopped : Bool
  deriving DecidableEq, Repr

def Effects.none : Effects := ⟨[], [], false⟩

/-- The flags a string names: it may hold several, with spaces between them (RFC 5232). -/
def flagNames (s : Str) : List Str := (s.splitOn ' ').filter (fun f => !f.isEmpty)

def execActions (e : Effects) : List Action → Effects
  | [] => e
  | .addflag fs :: as => execActions { e with flags := e.flags ++ fs.flatMap flagNames } as
  | .fileinto f :: as => execActions { e with folders := e.folders ++ [f] } as
  | .stop :: _ => { e with stopped := true }

/-- The commands top to bottom, until one of them stops. -/
def exec (truth : Test → Bool) (e : Effects) : Script → Effects
  | [] => e
  | .require _ :: cs => exec truth e cs
  | .branch all tests body :: cs =>
    if (if all then tests.all truth else tests.any truth) then
      let e' := execActions e body
      if e'.stopped then e' else exec truth e' cs
    else exec truth e cs

theorem flagNames_single {s : Str} (hne : s ≠ []) (hs : ' ' ∉ s) : flagNames s = [s] := by
  unfold flagNames
  rw [splitOn_eq_singleton hs]
  simpa using hne

end Oreneta.Sieve

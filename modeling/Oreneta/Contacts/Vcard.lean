import Oreneta.Lib.Utf8

/-!
# Reading vCards

`contacts/vcard.rs`, on text: the octets it is given are those of a `str`, so a fold never falls inside a
character.

* `unfold`, `parseLine`, `parseProperties` — the lines of a card, and what one says.
* `splitCards` — the cards of a text.
* `Whole` — every card of the text is ended in it; `splitCards_append` — then another text behind it is read
  by itself.

The upper case of letters outside ASCII is a parameter.
-/

namespace Oreneta.Contacts

open Text List

structure Property where
  group : Str
  name : Str
  params : List (Str × Str)
  /-- Unescaped and decoded. -/
  value : Str
  /-- Decoded but not unescaped. -/
  raw : Str
  deriving DecidableEq, Repr

/-! ## Lines -/

def stripCr (raw : Str) : Str := if raw.getLast? = some '\r' then raw.dropLast else raw

/-- A line that begins with a blank goes on from the one before. -/
def addLine (lines : List Str) (raw : Str) : List Str :=
  match stripCr raw with
  | c :: rest =>
    if (c = ' ' ∨ c = '\t') ∧ lines ≠ [] then lines.dropLast ++ [lines.getLast?.getD [] ++ rest]
    else lines ++ [c :: rest]
  | [] => lines ++ [[]]

def unfold (input : Str) : List Str := (input.splitOn '\n').foldl addLine []

/-! ## One line -/

/-- The first colon outside quotes ends the name. -/
def splitAtValue : Str → Bool → Option (Str × Str)
  | [], _ => none
  | c :: rest, quoted =>
    if c = '"' then (splitAtValue rest (!quoted)).map (fun p => (c :: p.1, p.2))
    else if c = ':' ∧ quoted = false then some ([], rest)
    else (splitAtValue rest quoted).map (fun p => (c :: p.1, p.2))

/-- Split on a separator that is ignored inside quotes. -/
def splitUnquoted (separator : Char) : Str → Str → Bool → List Str
  | [], current, _ => [current]
  | c :: rest, current, quoted =>
    if c = '"' then splitUnquoted separator rest (current ++ [c]) (!quoted)
    else if c = separator ∧ quoted = false then current :: splitUnquoted separator rest [] quoted
    else splitUnquoted separator rest (current ++ [c]) quoted

def unquote (value : Str) : Str :=
  let trimmed := trim value
  if 2 ≤ trimmed.length ∧ trimmed.head? = some '"' ∧ trimmed.getLast? = some '"' then trimmed.tail.dropLast
  else trimmed

def unescape : Str → Str
  | [] => []
  | ['\\'] => ['\\']
  | '\\' :: c :: rest => (if c = 'n' ∨ c = 'N' then '\n' else c) :: unescape rest
  | c :: rest => c :: unescape rest

def hexDigit (octet : Nat) : Option Nat :=
  if 48 ≤ octet ∧ octet ≤ 57 then some (octet - 48)
  else if 65 ≤ octet ∧ octet ≤ 70 then some (octet - 55)
  else if 97 ≤ octet ∧ octet ≤ 102 then some (octet - 87)
  else none

/-- `u8::from_str_radix` of two octets. -/
def hexPair (a b : Nat) : Option Nat :=
  if a = 43 then hexDigit b
  else (hexDigit a).bind (fun high => (hexDigit b).map (fun low => 16 * high + low))

def decodeQuotedPrintable : List Nat → List Nat
  | [] => []
  | 61 :: a :: b :: rest =>
    match hexPair a b with
    | some octet => octet :: decodeQuotedPrintable rest
    | none => 61 :: decodeQuotedPrintable (a :: b :: rest)
  | octet :: rest => octet :: decodeQuotedPrintable rest
  termination_by octets => octets.length

def latin1 (octets : List Nat) : Str := octets.map Char.ofNat

def decoded (charset : Str) (octets : List Nat) : Str :=
  if "iso-8859" <+: charset ∨ charset = "windows-1252" then latin1 octets
  else (Utf8.decode octets).getD (latin1 octets)

section

variable (upper : Str → Str)

def parseParam (part : Str) : Str × Str :=
  match splitOnce '=' part with
  | some (key, value) => (upper (trim key), unquote value)
  | none => ([], trim part)

def isQuotedPrintable (param : Str × Str) : Bool :=
  param.1 == "ENCODING" && asciiLower param.2 == "quoted-printable"

/-- The value of a line and its raw form. -/
def lineValue (params : List (Str × Str)) (rawValue : Str) : Str × Str :=
  if params.any isQuotedPrintable then
    let charset := ((params.find? (fun param => param.1 == "CHARSET".toList)).map (fun param => asciiLower param.2)).getD []
    let text := decoded charset (decodeQuotedPrintable (Utf8.encode rawValue))
    (text, text)
  else (unescape rawValue, rawValue)

def parseLine (text : Str) : Option Property :=
  if (trim text).isEmpty then none
  else
    (splitAtValue text false).bind (fun (head, rawValue) =>
      match splitUnquoted ';' head [] false with
      | [] => none
      | namePart :: parts =>
        let (group, name) := match splitOnce '.' namePart with
          | some (group, name) => (trim group, trim name)
          | none => ([], trim namePart)
        if name.isEmpty then none
        else
          let params := parts.map (parseParam upper)
          some ⟨group, upper name, params, (lineValue params rawValue).1, (lineValue params rawValue).2⟩)

def parseProperties (input : Str) : List Property := (unfold input).filterMap (parseLine upper)

/-! ## Cards -/

def Property.marks (property : Property) (name : String) : Bool :=
  property.name == name.toList && asciiLower property.value == "vcard"

structure CardScan where
  cards : List (List Property)
  current : List Property
  depth : Nat
  deriving DecidableEq, Repr

def CardScan.start : CardScan := ⟨[], [], 0⟩

def CardScan.step (s : CardScan) (property : Property) : CardScan :=
  if property.marks "BEGIN" then
    if s.depth = 0 then { s with depth := 1, current := [] }
    else { s with depth := s.depth + 1, current := s.current ++ [property] }
  else if property.marks "END" then
    if s.depth - 1 = 0 ∧ s.current ≠ [] then { cards := s.cards ++ [s.current], current := [], depth := 0 }
    else { s with depth := s.depth - 1 }
  else if 0 < s.depth then { s with current := s.current ++ [property] }
  else s

/-- A card whose `END` never arrived is still a card. -/
def CardScan.finish (s : CardScan) : List (List Property) :=
  if s.current = [] then s.cards else s.cards ++ [s.current]

def scan (input : Str) : CardScan := (parseProperties upper input).foldl CardScan.step CardScan.start

def splitCards (input : Str) : List (List Property) := (scan upper input).finish

/-- Every card of the text is ended in it. -/
def Whole (input : Str) : Prop := (scan upper input).depth = 0

instance (input : Str) : Decidable (Whole upper input) := by
  unfold Whole
  infer_instance

end

/-! ## One text behind another -/

theorem addLine_ne_nil (lines : List Str) (raw : Str) : addLine lines raw ≠ [] := by
  unfold addLine
  split
  · split <;> simp
  · simp

theorem addLine_append {lines : List Str} (hne : lines ≠ []) (front : List Str) (raw : Str) :
    addLine (front ++ lines) raw = front ++ addLine lines raw := by
  unfold addLine
  split
  · rename_i c rest _
    by_cases hblank : c = ' ' ∨ c = '\t'
    · have hlast : (front ++ lines).getLast? = lines.getLast? := by
        rw [getLast?_append_of_ne_nil _ hne]
      rw [if_pos ⟨hblank, by simp [hne]⟩, if_pos ⟨hblank, hne⟩, hlast, dropLast_append_of_ne_nil hne, append_assoc]
    · rw [if_neg fun h => hblank h.1, if_neg fun h => hblank h.1, append_assoc]
  · rw [append_assoc]

theorem foldl_addLine_append (front : List Str) : ∀ (raws : List Str) {lines : List Str}, lines ≠ [] →
    raws.foldl addLine (front ++ lines) = front ++ raws.foldl addLine lines
  | [], _, _ => rfl
  | raw :: raws, lines, hne => by
    rw [foldl_cons, foldl_cons, addLine_append hne, foldl_addLine_append front raws (addLine_ne_nil _ _)]

theorem head_stripCr {raw tail : Str} {c : Char} (h : stripCr raw = c :: tail) : raw.head? = some c := by
  unfold stripCr at h
  split at h
  · cases raw with
    | nil => cases h
    | cons x xs =>
      cases xs with
      | nil => cases h
      | cons y ys =>
        cases h
        rfl
  · rw [h]
    rfl

theorem head_splitOn {b first : Str} {rest : List Str} {c : Char} (h : b.splitOn '\n' = first :: rest)
    (hc : first.head? = some c) : b.head? = some c := by
  cases b with
  | nil =>
    rw [splitOn_nil] at h
    cases h
    cases hc
  | cons x xs =>
    rw [splitOn_cons_eq_if_modifyHead] at h
    split at h
    · cases h
      cases hc
    · cases hxs : xs.splitOn '\n' with
      | nil => exact absurd hxs (splitOn_ne_nil _ _)
      | cons y ys =>
        rw [hxs] at h
        cases h
        exact hc

/-- A text that does not begin with a blank, behind another one. -/
theorem unfold_append {b : Str} (hb : ∀ c, b.head? = some c → c ≠ ' ' ∧ c ≠ '\t') (a : Str) :
    unfold (a ++ '\n' :: b) = unfold a ++ unfold b := by
  unfold unfold
  rw [splitOn_append_cons_self, foldl_append]
  have hfirst : ∀ first rest, b.splitOn '\n' = first :: rest → ∀ lines, addLine lines first = lines ++ [stripCr first] := by
    intro first rest hsplit lines
    unfold addLine
    split
    · rename_i c tail hstrip
      obtain ⟨hspace, htab⟩ := hb c (head_splitOn hsplit (head_stripCr hstrip))
      rw [if_neg fun h => h.1.elim hspace htab, hstrip]
    · rename_i hstrip
      rw [hstrip]
  cases hsplit : b.splitOn '\n' with
  | nil => exact absurd hsplit (splitOn_ne_nil _ _)
  | cons first rest =>
    have h := hfirst first rest hsplit
    rw [foldl_cons, foldl_cons, h, h, nil_append]
    exact foldl_addLine_append _ rest (by simp)

section

variable {upper : Str → Str}

theorem parseProperties_append {b : Str} (hb : ∀ c, b.head? = some c → c ≠ ' ' ∧ c ≠ '\t') (a : Str) :
    parseProperties upper (a ++ '\n' :: b) = parseProperties upper a ++ parseProperties upper b := by
  unfold parseProperties
  rw [unfold_append hb, filterMap_append]

/-- Nothing is left of a card that was ended. -/
theorem CardScan.step_outside {s : CardScan} (h : s.depth = 0 → s.current = []) (p : Property) :
    (s.step p).depth = 0 → (s.step p).current = [] := by
  unfold CardScan.step
  split
  · split
    · exact fun _ => rfl
    · exact fun he => by simp at he
  split
  · split
    · exact fun _ => rfl
    · rename_i hkeep
      intro he
      by_contra hne
      exact hkeep ⟨he, hne⟩
  split
  · rename_i hin
    intro he
    have he : s.depth = 0 := he
    omega
  · exact h

theorem CardScan.foldl_outside {s : CardScan} (h : s.depth = 0 → s.current = []) :
    ∀ ps : List Property, (ps.foldl CardScan.step s).depth = 0 → (ps.foldl CardScan.step s).current = [] := by
  intro ps
  induction ps generalizing s with
  | nil => exact h
  | cons p ps ih => exact ih (CardScan.step_outside h p)

/-- The cards read before change nothing. -/
theorem CardScan.step_cards (front : List (List Property)) (s : CardScan) (p : Property) :
    ({ s with cards := front ++ s.cards } : CardScan).step p =
      { s.step p with cards := front ++ (s.step p).cards } := by
  unfold CardScan.step
  split
  · split <;> rfl
  split
  · split
    · simp [append_assoc]
    · rfl
  split <;> rfl

theorem CardScan.foldl_cards (front : List (List Property)) : ∀ (ps : List Property) (s : CardScan),
    ps.foldl CardScan.step { s with cards := front ++ s.cards } =
      { ps.foldl CardScan.step s with cards := front ++ (ps.foldl CardScan.step s).cards }
  | [], _ => rfl
  | p :: ps, s => by rw [foldl_cons, CardScan.step_cards, CardScan.foldl_cards front ps, foldl_cons]

theorem scan_append {a b : Str} (ha : Whole upper a) (hb : ∀ c, b.head? = some c → c ≠ ' ' ∧ c ≠ '\t') :
    scan upper (a ++ '\n' :: b) = { scan upper b with cards := splitCards upper a ++ (scan upper b).cards } := by
  have hnone : (scan upper a).current = [] := CardScan.foldl_outside (fun _ => rfl) _ ha
  have hcards : splitCards upper a = (scan upper a).cards := by
    unfold splitCards CardScan.finish
    rw [if_pos hnone]
  have hstart : scan upper a = { CardScan.start with cards := splitCards upper a ++ CardScan.start.cards } := by
    rw [hcards]
    show scan upper a = ⟨(scan upper a).cards ++ [], [], 0⟩
    rw [append_nil, ← hnone, ← ha]
  unfold scan at hstart ⊢
  rw [parseProperties_append hb, foldl_append, hstart]
  exact CardScan.foldl_cards (splitCards upper a) _ CardScan.start

/-- The cards of a whole text, and then those of the text behind it. -/
theorem splitCards_append {a b : Str} (ha : Whole upper a) (hb : ∀ c, b.head? = some c → c ≠ ' ' ∧ c ≠ '\t') :
    splitCards upper (a ++ '\n' :: b) = splitCards upper a ++ splitCards upper b := by
  show (scan upper (a ++ '\n' :: b)).finish = _
  rw [scan_append ha hb]
  unfold splitCards CardScan.finish
  dsimp only
  split
  · rfl
  · rw [append_assoc]

end

end Oreneta.Contacts

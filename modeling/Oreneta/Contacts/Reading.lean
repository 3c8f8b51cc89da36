import Oreneta.Contacts.Groups
import Oreneta.Lib.Utf8Bytes

/-!
# Reading cards of any octets

What servers and files hold need not be text.

* `unfoldOctets`, `lineText`, `propertiesOf`, `cardsOf` — the reader on octets; `cardsOf_bytes` — on those of a text it is
  `splitCards`.
* `splitAtValueChecked`, `unquoteChecked`, `parseLineChecked` — the parts of it that slice a `str`; `parseLineChecked_eq` — none of
  these slices begins inside of a character.
* `readCards` — every card as a group and as a person; nothing where the program panics.
* `reading_iff` — where it does.
-/

namespace Oreneta.Contacts

open Text ByteSlices Utf8 List

/-! ## Octets -/

def stripCrOctet (raw : Octets) : Octets := if raw.getLast? = some 13 then raw.dropLast else raw

def addOctets (lines : List Octets) (raw : Octets) : List Octets :=
  match stripCrOctet raw with
  | b :: rest =>
    if (b = 32 ∨ b = 9) ∧ lines ≠ [] then lines.dropLast ++ [lines.getLast?.getD [] ++ rest]
    else lines ++ [b :: rest]
  | [] => lines ++ [[]]

def unfoldOctets (input : Octets) : List Octets := (input.splitOn 10).foldl addOctets []

/-- UTF-8 where possible, and Latin-1 otherwise. -/
def lineText (line : Octets) : Str := (Utf8.decode (line.map UInt8.toNat)).getD (latin1 (line.map UInt8.toNat))

def propertiesOf (upper : Str → Str) (input : Octets) : List Property :=
  (unfoldOctets input).filterMap (fun line => parseLine upper (lineText line))

def cardsOf (upper : Str → Str) (input : Octets) : List (List Property) :=
  ((propertiesOf upper input).foldl CardScan.step CardScan.start).finish

/-- The people of a stream of cards. -/
def peopleFromVcards (U : Casing) (upper : Str → Str) (input : Octets) : List Person :=
  (((cardsOf upper input).filter (fun properties => !isGroup properties)).map (personFromProperties U)).filter
    Person.isUseful

theorem stripCrOctet_bytes (raw : Str) : stripCrOctet (Utf8.bytes raw) = Utf8.bytes (stripCr raw) := by
  have hcr : (Utf8.bytes raw).getLast? = some 13 ↔ raw.getLast? = some '\r' :=
    getLast?_bytes (x := '\r') (by decide) raw
  unfold stripCrOctet stripCr
  by_cases h : raw.getLast? = some '\r'
  · rw [if_pos h, if_pos (hcr.mpr h)]
    obtain ⟨front, rfl⟩ := getLast?_eq_some_iff.mp h
    have hone : Utf8.bytes ['\r'] = [13] := rfl
    rw [bytes_append, hone, dropLast_concat, dropLast_concat]
  · rw [if_neg h, if_neg fun hb => h (hcr.mp hb)]

theorem addOctets_bytes (lines : List Str) (raw : Str) :
    addOctets (lines.map Utf8.bytes) (Utf8.bytes raw) = (addLine lines raw).map Utf8.bytes := by
  have hstrip := stripCrOctet_bytes raw
  unfold addOctets addLine
  rw [hstrip]
  cases hraw : stripCr raw with
  | nil => rw [map_append]; rfl
  | cons c rest =>
    have hspace : (Utf8.bytes (c :: rest)).head? = some 32 ↔ some c = some ' ' :=
      head?_bytes (x := ' ') (by decide) (c :: rest)
    have htab : (Utf8.bytes (c :: rest)).head? = some 9 ↔ some c = some '\t' :=
      head?_bytes (x := '\t') (by decide) (c :: rest)
    rw [Option.some.injEq] at hspace htab
    have hempty : lines.map Utf8.bytes ≠ [] ↔ lines ≠ [] := by rw [Ne, Ne, map_eq_nil_iff]
    by_cases hblank : c = ' ' ∨ c = '\t'
    · -- a blank is one octet
      have hone : ∃ b, Utf8.bytes (c :: rest) = b :: Utf8.bytes rest ∧ (b = 32 ∨ b = 9) := by
        rcases hblank with rfl | rfl
        · exact ⟨32, rfl, .inl rfl⟩
        · exact ⟨9, rfl, .inr rfl⟩
      obtain ⟨b, hb, hbb⟩ := hone
      rw [hb]
      dsimp only
      by_cases hne : lines = []
      · rw [if_neg fun h => hempty.mp h.2 hne, if_neg fun h => h.2 hne, map_append, ← hb]
        rfl
      · obtain ⟨front, last, rfl⟩ : ∃ front last, lines = front ++ [last] := by
          rcases eq_nil_or_concat lines with h | ⟨front, last, h⟩
          · exact absurd h hne
          · exact ⟨front, last, by rw [h, concat_eq_append]⟩
        rw [if_pos ⟨hbb, hempty.mpr hne⟩, if_pos ⟨hblank, hne⟩]
        simp [bytes_append]
    · cases hb : Utf8.bytes (c :: rest) with
      | nil =>
        rw [bytes_cons] at hb
        exact absurd (append_eq_nil_iff.mp hb).1 String.utf8EncodeChar_ne_nil
      | cons b others =>
        have hnot : ¬ (b = 32 ∨ b = 9) := by
          rw [hb] at hspace htab
          rintro (rfl | rfl)
          · exact hblank (.inl (hspace.mp rfl))
          · exact hblank (.inr (htab.mp rfl))
        dsimp only
        rw [if_neg fun h => hnot h.1, if_neg fun h => hblank h.1, map_append, map_singleton, hb]

theorem unfoldOctets_bytes (s : Str) : unfoldOctets (Utf8.bytes s) = (unfold s).map Utf8.bytes := by
  have hfold : ∀ (raws lines : List Str), (raws.map Utf8.bytes).foldl addOctets (lines.map Utf8.bytes) =
      (raws.foldl addLine lines).map Utf8.bytes := by
    intro raws
    induction raws with
    | nil => exact fun _ => rfl
    | cons raw raws ih =>
      intro lines
      rw [map_cons, foldl_cons, addOctets_bytes, ih, foldl_cons]
  have hsplit : (Utf8.bytes s).splitOn 10 = (s.splitOn '\n').map Utf8.bytes :=
    splitOn_bytes (x := '\n') (by decide) s
  unfold unfoldOctets unfold
  rw [hsplit]
  exact hfold _ []

theorem lineText_bytes (line : Str) : lineText (Utf8.bytes line) = line := by
  rw [lineText, decode_bytes, Option.getD_some]

/-- The octets of a text are read as the text. -/
theorem cardsOf_bytes (upper : Str → Str) (s : Str) : cardsOf upper (Utf8.bytes s) = splitCards upper s := by
  have hproperties : propertiesOf upper (Utf8.bytes s) = parseProperties upper s := by
    unfold propertiesOf parseProperties
    rw [unfoldOctets_bytes, filterMap_map]
    exact filterMap_congr fun line _ => congrArg (parseLine upper) (lineText_bytes line)
  unfold cardsOf splitCards scan
  rw [hproperties]

/-! ## Slices -/

/-- `split_at_value`, with the byte a character begins at. -/
def splitAtValueChecked (line : Str) : Nat → Str → Bool → Option (Option (Str × Str))
  | _, [], _ => some none
  | index, c :: rest, quoted =>
    if c = '"' then splitAtValueChecked line (index + c.utf8Size) rest (!quoted)
    else if c = ':' ∧ quoted = false then
      (sliceTo line index).bind (fun head => (sliceFrom line (index + 1)).map (fun value => some (head, value)))
    else splitAtValueChecked line (index + c.utf8Size) rest quoted

def unquoteChecked (value : Str) : Option Str :=
  let trimmed := trim value
  if 2 ≤ byteLength trimmed ∧ trimmed.head? = some '"' ∧ trimmed.getLast? = some '"' then
    slice trimmed 1 (byteLength trimmed - 1)
  else some trimmed

theorem splitAtValueChecked_eq : ∀ (rest before : Str) (quoted : Bool),
    splitAtValueChecked (before ++ rest) (byteLength before) rest quoted =
      some ((splitAtValue rest quoted).map (fun p => (before ++ p.1, p.2)))
  | [], _, _ => rfl
  | c :: rest, before, quoted => by
    have hline : before ++ c :: rest = (before ++ [c]) ++ rest := by rw [append_assoc, singleton_append]
    have hindex : byteLength before + c.utf8Size = byteLength (before ++ [c]) := by
      rw [byteLength_append]
      rfl
    have hon : ∀ q, splitAtValueChecked (before ++ c :: rest) (byteLength before + c.utf8Size) rest q =
        some (((splitAtValue rest q).map fun p => (c :: p.1, p.2)).map fun p => (before ++ p.1, p.2)) := by
      intro q
      rw [hindex, hline, splitAtValueChecked_eq rest (before ++ [c]) q]
      cases splitAtValue rest q with
      | none => rfl
      | some p => simp
    unfold splitAtValueChecked splitAtValue
    by_cases hquote : c = '"'
    · rw [if_pos hquote, if_pos hquote]
      exact hon _
    · rw [if_neg hquote, if_neg hquote]
      by_cases hcolon : c = ':' ∧ quoted = false
      · have hnext : byteLength before + 1 = byteLength (before ++ [c]) := by
          rw [← hindex, hcolon.1]
          rfl
        rw [if_pos hcolon, if_pos hcolon, sliceTo_append, Option.bind_some, hnext, hline, sliceFrom_append]
        simp
      · rw [if_neg hcolon, if_neg hcolon]
        exact hon _

theorem unquoteChecked_eq (value : Str) : unquoteChecked value = some (unquote value) := by
  unfold unquoteChecked unquote
  dsimp only
  generalize trim value = trimmed
  by_cases hquotes : trimmed.head? = some '"' ∧ trimmed.getLast? = some '"'
  · obtain ⟨hhead, hlast⟩ := hquotes
    cases trimmed with
    | nil => cases hhead
    | cons c rest =>
      cases hhead
      rcases eq_nil_or_concat rest with rfl | ⟨middle, d, rfl⟩
      · rfl
      · have hd : d = '"' := by
          rw [concat_eq_append, ← cons_append, getLast?_concat] at hlast
          exact Option.some.inj hlast
        subst hd
        have hlen : byteLength ('"' :: middle.concat '"') = byteLength ('"' :: middle) + 1 := by
          rw [concat_eq_append, ← cons_append, byteLength_append]
          rfl
        have hpos : 1 ≤ byteLength ('"' :: middle) := by
          rw [byteLength_cons]
          exact Nat.le_add_right_of_le (Char.utf8Size_pos _)
        have hlong : 2 ≤ byteLength ('"' :: middle.concat '"') := by omega
        have hmany : 2 ≤ ('"' :: middle.concat '"').length := by simp
        have hslice := slice_append ['"'] middle ['"']
        rw [if_pos ⟨hlong, rfl, hlast⟩, if_pos ⟨hmany, rfl, hlast⟩, hlen, Nat.add_sub_cancel]
        have hone : byteLength ['"'] = 1 := rfl
        rw [hone] at hslice
        rw [concat_eq_append]
        simpa using hslice
  · rw [if_neg fun h => hquotes h.2, if_neg fun h => hquotes h.2]

section

variable (upper : Str → Str)

def parseParamChecked (part : Str) : Option (Str × Str) :=
  match splitOnce '=' part with
  | some (key, value) => (unquoteChecked value).map (fun value => (upper (trim key), value))
  | none => some ([], trim part)

/-- One line; nothing where the program panics. -/
def parseLineChecked (text : Str) : Option (Option Property) :=
  if (trim text).isEmpty then some none
  else
    (splitAtValueChecked text 0 text false).bind (fun split =>
      match split with
      | none => some none
      | some (head, rawValue) =>
        match splitUnquoted ';' head [] false with
        | [] => some none
        | namePart :: parts =>
          let (group, name) := match splitOnce '.' namePart with
            | some (group, name) => (trim group, trim name)
            | none => ([], trim namePart)
          if name.isEmpty then some none
          else
            (parts.mapM (parseParamChecked upper)).map (fun params =>
              some ⟨group, upper name, params, (lineValue params rawValue).1, (lineValue params rawValue).2⟩))

theorem parseParamChecked_eq (part : Str) : parseParamChecked upper part = some (parseParam upper part) := by
  unfold parseParamChecked parseParam
  cases splitOnce '=' part with
  | none => rfl
  | some p => exact congrArg (Option.map fun value => (upper (trim p.1), value)) (unquoteChecked_eq p.2)

/-- No line of a card is sliced inside of a character. -/
theorem parseLineChecked_eq (text : Str) : parseLineChecked upper text = some (parseLine upper text) := by
  have hsplit : splitAtValueChecked text 0 text false = some (splitAtValue text false) := by
    have h := splitAtValueChecked_eq text [] false
    rw [nil_append] at h
    simpa [byteLength] using h
  have hparams : ∀ parts : List Str, parts.mapM (parseParamChecked upper) = some (parts.map (parseParam upper)) := by
    intro parts
    rw [show parseParamChecked upper = fun part => some (parseParam upper part) from
      funext (parseParamChecked_eq upper)]
    exact mapM_pure
  unfold parseLineChecked parseLine
  rw [hsplit]
  by_cases hblank : (trim text).isEmpty = true
  · rw [if_pos hblank, if_pos hblank]
  · rw [if_neg hblank, if_neg hblank, Option.bind_some]
    cases hv : splitAtValue text false with
    | none => rfl
    | some p =>
      obtain ⟨head, rawValue⟩ := p
      rw [Option.bind_some]
      dsimp only
      cases hparts : splitUnquoted ';' head [] false with
      | nil => rfl
      | cons namePart parts =>
        dsimp only
        rw [hparams]
        cases splitOnce '.' namePart with
        | none => exact (apply_ite some _ _ _).symm
        | some p => exact (apply_ite some _ _ _).symm

end

/-! ## Cards -/

section

variable (U : Casing) (upper : Str → Str)

def readProperties (input : Octets) : Option (List Property) :=
  ((unfoldOctets input).mapM (fun line => parseLineChecked upper (lineText line))).map (List.filterMap id)

/-- Every card as a group and as a person; nothing where the program panics. -/
def readCards (input : Octets) : Option (List (Option GroupCard × Person)) :=
  (readProperties upper input).bind (fun properties =>
    (properties.foldl CardScan.step CardScan.start).finish.mapM (fun card =>
      (groupFromProperties card).map (fun group => (group, personFromProperties U card))))

theorem readProperties_eq (input : Octets) : readProperties upper input = some (propertiesOf upper input) := by
  unfold readProperties propertiesOf
  have hlines : (fun line => parseLineChecked upper (lineText line)) = fun line => some (parseLine upper (lineText line)) :=
    funext fun line => parseLineChecked_eq upper _
  rw [hlines]
  have hmap := mapM_pure (m := Option) (l := unfoldOctets input) (f := fun line => parseLine upper (lineText line))
  simp only [pure] at hmap
  rw [hmap, Option.map_some, filterMap_map]
  rfl

end

theorem foldlM_isSome {α σ : Type} {f : σ → α → Option σ} {P : α → Prop} (hstep : ∀ s a, (f s a).isSome = true ↔ P a) :
    ∀ (l : List α) (s : σ), (l.foldlM f s).isSome = true ↔ ∀ a ∈ l, P a
  | [], s => ⟨fun _ => forall_mem_nil P, fun _ => rfl⟩
  | a :: l, s => by
    rw [foldlM_cons, forall_mem_cons, ← hstep s a]
    cases f s a with
    | none => exact ⟨fun h => (by cases h), fun h => (by cases h.1)⟩
    | some s' => exact (foldlM_isSome hstep l s').trans ⟨fun h => ⟨rfl, h⟩, And.right⟩

theorem mapM_isSome {α β : Type} {f : α → Option β} : ∀ l : List α, (l.mapM f).isSome = true ↔ ∀ a ∈ l, (f a).isSome = true
  | [] => ⟨fun _ => forall_mem_nil _, fun _ => rfl⟩
  | a :: l => by
    rw [mapM_cons, forall_mem_cons, ← mapM_isSome l]
    cases f a with
    | none => exact ⟨fun h => (by cases h), fun h => (by cases h.1)⟩
    | some b =>
      cases l.mapM f with
      | none => exact ⟨fun h => (by cases h), fun h => (by cases h.2)⟩
      | some bs => exact ⟨fun _ => ⟨rfl, rfl⟩, fun _ => rfl⟩

/-- A property is read but for the member values the program panics on. -/
theorem GroupScan.step_isSome (s : GroupScan) (p : Property) :
    (s.step p).isSome = true ↔ (isMember p = true → ¬ Across (trim p.value) 9) := by
  have hother : ∀ name : Str, name ≠ "MEMBER" → name ≠ "X-ADDRESSBOOKSERVER-MEMBER" →
      p.name = name → isMember p ≠ true := by
    intro name h1 h2 hname hm
    unfold isMember at hm
    rw [hname, Bool.or_eq_true, beq_iff_eq, beq_iff_eq] at hm
    exact hm.elim h1 h2
  have hread : ∀ {t : Option GroupScan} {name : Str}, name ≠ "MEMBER" →
      name ≠ "X-ADDRESSBOOKSERVER-MEMBER" → p.name = name → t.isSome = true →
      (t.isSome = true ↔ (isMember p = true → ¬ Across (trim p.value) 9)) := by
    intro t name h1 h2 hname ht
    exact ⟨fun _ hm => absurd hm (hother name h1 h2 hname), fun _ => ht⟩
  unfold GroupScan.step
  by_cases huid : p.name = "UID"
  · rw [if_pos huid]
    exact hread (by decide) (by decide) huid rfl
  rw [if_neg huid]
  by_cases hfn : p.name = "FN"
  · rw [if_pos hfn]
    exact hread (by decide) (by decide) hfn (by split <;> rfl)
  rw [if_neg hfn]
  by_cases hn : p.name = "N"
  · rw [if_pos hn]
    exact hread (by decide) (by decide) hn (by split <;> rfl)
  rw [if_neg hn]
  by_cases hm : isMember p = true
  · rw [if_pos hm, Option.isSome_map, Option.isSome_iff_ne_none, Ne, memberUid_panics]
    exact ⟨fun h _ => h, fun h => h hm⟩
  · rw [if_neg hm]
    exact ⟨fun _ h => absurd h hm, fun _ => rfl⟩

theorem groupFromProperties_isSome (card : List Property) : (groupFromProperties card).isSome = true ↔
      (isGroup card = true → ∀ p ∈ card, isMember p = true → ¬ Across (trim p.value) 9) := by
  unfold groupFromProperties
  cases hkind : card.find? isKindGroup with
  | none =>
    have hnot : isGroup card ≠ true := by
      unfold isGroup
      rw [Ne, any_eq_true]
      rintro ⟨p, hp, hk⟩
      exact find?_eq_none.mp hkind p hp hk
    exact ⟨fun _ h => absurd h hnot, fun _ => rfl⟩
  | some kind =>
    have hgroup : isGroup card = true := any_eq_true.mpr ⟨kind, mem_of_find?_eq_some hkind, find?_some hkind⟩
    dsimp only
    rw [Option.isSome_map, foldlM_isSome GroupScan.step_isSome]
    exact ⟨fun h _ => h, fun h => h hgroup⟩

/-- **Where reading is safe**: on every octets without a group card in which a member's value, trimmed, has a character
across its ninth byte. -/
theorem reading_iff (U : Casing) (upper : Str → Str) (input : Octets) : ((readCards U upper input).isSome = true ∧
        ∀ uid : Str, uid ≠ [] → trim uid = uid → memberUid (memberValue uid) = some (some uid)) ↔
      ∀ card ∈ cardsOf upper input, isGroup card = true →
        ∀ p ∈ card, isMember p = true → ¬ Across (trim p.value) 9 := by
  have hsafe : (readCards U upper input).isSome = true ↔ ∀ card ∈ cardsOf upper input, isGroup card = true →
      ∀ p ∈ card, isMember p = true → ¬ Across (trim p.value) 9 := by
    unfold readCards
    rw [readProperties_eq, Option.bind_some, mapM_isSome]
    unfold cardsOf
    refine forall₂_congr fun card _ => ?_
    rw [Option.isSome_map]
    exact groupFromProperties_isSome card
  rw [hsafe]
  exact ⟨And.left, fun h => ⟨h, fun _ hne htrim => memberUid_memberValue hne htrim⟩⟩

def accented : Str :=
  "BEGIN:VCARD\r\nVERSION:4.0\r\nKIND:group\r\nFN:Climbing\r\nMEMBER:Ana Grifé\r\nEND:VCARD\r\n"

/-- The `é` of a member's name is the ninth and the tenth byte. -/
theorem accented_panics : (cardsOf (fun s => s.map Char.toUpper) (Utf8.bytes accented)).map groupFromProperties = [none] := by
  rw [cardsOf_bytes]
  decide +kernel

end Oreneta.Contacts

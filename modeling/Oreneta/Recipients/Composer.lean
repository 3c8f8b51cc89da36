import Oreneta.Recipients.Fields

/-!
# The composer reads what it wrote

The recipients of a message as the composer can hold them (`Composed`), and the field written from them read
back: `composer_reads`, the same names and addresses in order, whatever the names are.
-/

namespace Oreneta.Recipients

open Text List

/-- A control character. -/
def isControl (c : Char) : Bool := c.toNat < 0x20 || (0x7F ≤ c.toNat && c.toNat ≤ 0x9F)

/-- Characters no address has here. -/
def isMark (c : Char) : Bool := c = '<' || c = '>' || c = '"' || c = ',' || c = ';' || c = '\\'

/-- A recipient of the composer: a trimmed name of any text, and an address that can be one. -/
structure Composed (r : Recipient) : Prop where
  trimmed : jsTrim r.name = r.name
  printable : ∀ c ∈ r.name, isControl c = false
  real : addressLooksReal r.address = true
  plain : ∀ c ∈ r.address, isMark c = false
  status : r.status = statusOf r.address

/-! ## The entry written -/

/-- A name as it is written before the address. -/
def writtenName (name : Str) : Str := if needsQuotes name then Quoted.quote name else name

/-- An entry as it is written. -/
def written (r : Recipient) : Str :=
  if r.name = [] then r.address else writtenName r.name ++ (" <" ++ (r.address ++ ['>']))

variable {r : Recipient}

theorem Composed.format (h : Composed r) : formatRecipient r = written r := by
  unfold formatRecipient written writtenName
  rw [h.status, statusOf, if_pos h.real, if_neg (by simp)]

theorem Composed.address_ne_nil (h : Composed r) : r.address ≠ [] := by
  intro he
  have hreal := h.real
  rw [he] at hreal
  cases hreal

theorem Composed.address_solid (h : Composed r) : ∀ c ∈ r.address, jsWhitespace c = false := by
  have hreal := h.real
  unfold addressLooksReal at hreal
  split at hreal
  · cases hreal
  · simp only [Bool.and_eq_true, Bool.not_eq_true', any_eq_false] at hreal
    intro c hc
    simpa using hreal.2 c hc

theorem Composed.notMem (h : Composed r) {c : Char} (hc : isMark c = true) : c ∉ r.address := by
  intro hm
  have := h.plain c hm
  rw [hc] at this
  cases this

variable {name : Str}

/-- A name written as it is has no mark that separates. -/
theorem not_needsQuotes (h : needsQuotes name = false) : ∀ c ∈ name, c ≠ ',' ∧ c ≠ ';' ∧ c ≠ '<' ∧ c ≠ '>' ∧ c ≠ '"' := by
  intro c hc
  have := any_eq_false.mp h c hc
  simp only [Bool.or_eq_true, decide_eq_true_eq, not_or] at this
  tauto

theorem escape_cons_mark {c : Char} (h : c = '"' ∨ c = '\\') (s : Str) :
    Quoted.escape (c :: s) = '\\' :: c :: Quoted.escape s := by
  simp [Quoted.escape, h]

theorem escape_cons_plain {c : Char} (h : ¬ (c = '"' ∨ c = '\\')) (s : Str) : Quoted.escape (c :: s) = c :: Quoted.escape s := by
  simp [Quoted.escape, h]

/-! ## The field split -/

/-- Characters that neither separate nor quote are passed over, outside quotes. -/
theorem splitFrom_plain {inAngles : Bool} : ∀ {s : Str} (_ : ∀ c ∈ s, c ≠ ',' ∧ c ≠ ';' ∧ c ≠ '<' ∧ c ≠ '>' ∧ c ≠ '"')
    (current rest : Str), splitFrom false inAngles false current (s ++ rest) =
      splitFrom false inAngles false (current ++ s) rest
  | [], _, current, rest => by rw [nil_append, append_nil]
  | c :: s, h, current, rest => by
    obtain ⟨hcomma, hsemi, hlt, hgt, hquote⟩ := h c mem_cons_self
    rw [cons_append, splitFrom]
    simp only [hcomma, hsemi, hlt, hgt, hquote, Bool.false_eq_true, and_false, false_and, or_self, if_false]
    rw [splitFrom_plain fun x hx => h x (mem_cons_of_mem _ hx), append_assoc, singleton_append]

/-- An escaped name is passed over, inside its quotes. -/
theorem splitFrom_escape {inAngles : Bool} : ∀ (s current rest : Str),
    splitFrom true inAngles false current (Quoted.escape s ++ rest) =
      splitFrom true inAngles false (current ++ Quoted.escape s) rest
  | [], current, rest => by simp [Quoted.escape]
  | c :: s, current, rest => by
    by_cases hc : c = '"' ∨ c = '\\'
    · rw [escape_cons_mark hc, cons_append, cons_append, splitFrom]
      simp only [Bool.false_eq_true, if_false, and_self, if_true]
      rw [splitFrom]
      simp only [if_true]
      rw [splitFrom_escape s]
      simp
    · rw [escape_cons_plain hc, cons_append, splitFrom]
      rw [not_or] at hc
      simp only [hc.1, hc.2, Bool.false_eq_true, false_and, and_false, if_false, Bool.true_eq_false]
      rw [splitFrom_escape s]
      simp

/-- A written name is passed over. -/
theorem splitFrom_writtenName (name current rest : Str) : splitFrom false false false current (writtenName name ++ rest) =
      splitFrom false false false (current ++ writtenName name) rest := by
  unfold writtenName
  split
  · have hopen : ∀ s : Str, splitFrom false false false current ('"' :: s) =
        splitFrom true false false (current ++ ['"']) s := by
      intro s
      rw [splitFrom]
      simp
    have hclose : ∀ cur s : Str, splitFrom true false false cur ('"' :: s) =
        splitFrom false false false (cur ++ ['"']) s := by
      intro cur s
      rw [splitFrom]
      simp
    rw [Quoted.quote_append, hopen, splitFrom_escape, hclose]
    simp [Quoted.quote]
  · rename_i h
    exact splitFrom_plain (not_needsQuotes (Bool.eq_false_iff.mpr h)) current rest

theorem Composed.address_marks (h : Composed r) : ∀ c ∈ r.address, c ≠ ',' ∧ c ≠ ';' ∧ c ≠ '<' ∧ c ≠ '>' ∧ c ≠ '"' := by
  intro c hc
  have := h.plain c hc
  simp only [isMark, Bool.or_eq_false_iff, decide_eq_false_iff_not] at this
  tauto

/-- An entry written is passed over as one. -/
theorem splitFrom_written (h : Composed r) (current rest : Str) : splitFrom false false false current (written r ++ rest) =
      splitFrom false false false (current ++ written r) rest := by
  unfold written
  split
  · exact splitFrom_plain h.address_marks current rest
  · have hopen : ∀ cur s : Str, splitFrom false false false cur (" <" ++ s) =
        splitFrom false true false (cur ++ " <") s := by
      intro cur s
      have hlit : " <" = [' ', '<'] := by decide
      have hspace : splitFrom false false false cur (' ' :: '<' :: s) =
          splitFrom false false false (cur ++ [' ']) ('<' :: s) := splitFrom_plain (s := [' ']) (by decide) cur ('<' :: s)
      rw [hlit, cons_append, cons_append, nil_append, hspace, splitFrom]
      simp
    have hclose : ∀ cur s : Str, splitFrom false true false cur ('>' :: s) =
        splitFrom false false false (cur ++ ['>']) s := by
      intro cur s
      rw [splitFrom]
      simp
    simp only [append_assoc, singleton_append]
    rw [splitFrom_writtenName, hopen, splitFrom_plain h.address_marks, hclose]
    simp only [append_assoc]

/-- The entries of a field that was written. -/
theorem splitFrom_entries : ∀ {rs : List Recipient} (r : Recipient) (current : Str), Composed r → (∀ x ∈ rs, Composed x) →
    splitFrom false false false current (join ", " ((r :: rs).map formatRecipient)) =
      (current ++ written r) :: rs.map (fun x => ' ' :: written x)
  | [], r, current, h, _ => by
    have hread := splitFrom_written h current []
    rw [append_nil] at hread
    rw [map_cons, map_nil, join, h.format, hread, splitFrom, map_nil]
  | x :: rs, r, current, h, hrs => by
    have hx := hrs x mem_cons_self
    have hcomma : ∀ cur s : Str, splitFrom false false false cur (", " ++ s) =
        cur :: splitFrom false false false [' '] s := by
      intro cur s
      have hlit : ", " = [',', ' '] := by decide
      rw [hlit, cons_append, cons_append, splitFrom]
      simp only [Bool.false_eq_true, and_false, if_false, if_true, and_self, true_or,
        show ¬ (',' = '"') by decide, show ¬ (',' = '<') by decide, show ¬ (',' = '>') by decide]
      rw [splitFrom]
      simp
    have ih := splitFrom_entries x [' '] hx fun y hy => hrs y (mem_cons_of_mem _ hy)
    rw [map_cons, map_cons, join, h.format, append_assoc, splitFrom_written h, hcomma]
    rw [map_cons] at ih
    rw [ih, map_cons, singleton_append]

/-! ## An entry read -/

theorem unescape_escape : ∀ s : Str, unescape (Quoted.escape s) = s
  | [] => rfl
  | c :: s => by
    have ih := unescape_escape s
    by_cases hc : c = '"' ∨ c = '\\'
    · have hline : isLineTerminator c = false := by rcases hc with rfl | rfl <;> decide
      rw [escape_cons_mark hc, unescape, if_pos ⟨rfl, hline⟩, ih]
    · rw [escape_cons_plain hc]
      cases he : Quoted.escape s with
      | nil =>
        rw [he] at ih
        rw [← ih, unescape, unescape]
      | cons d rest =>
        rw [unescape, if_neg fun h => hc (.inr h.1), ← he, ih]

theorem trimmed_of_solid {s : Str} (h : ∀ c ∈ s, jsWhitespace c = false) : Trimmed jsWhitespace s :=
  ⟨fun c hc => h c (mem_of_mem_head? hc), fun c hc => h c (mem_of_mem_getLast? hc)⟩

variable {p : Char → Bool}

theorem trimmed_append {s t : Str} (hs : Trimmed p s) (ht : Trimmed p t) (hne : s ≠ []) (hne' : t ≠ []) (m : Str) :
    Trimmed p (s ++ (m ++ t)) := by
  constructor
  · intro c hc
    rw [head?_append_of_ne_nil _ hne] at hc
    exact hs.1 c hc
  · intro c hc
    rw [← append_assoc, getLast?_append_of_ne_nil _ hne'] at hc
    exact ht.2 c hc

theorem quote_trimmed (hp : p '"' = false) (name : Str) : Trimmed p (Quoted.quote name) := by
  have hone : Trimmed p ['"'] := by constructor <;> simp [hp]
  exact trimmed_append hone hone (by simp) (by simp) (Quoted.escape name)

/-- A written name is trimmed, for any white space a name and a quote are trimmed of. -/
theorem writtenName_trimmed (hp : p '"' = false) (h : Trimmed p name) : Trimmed p (writtenName name) := by
  unfold writtenName
  split
  · exact quote_trimmed hp name
  · exact h

theorem writtenName_ne_nil (h : name ≠ []) : writtenName name ≠ [] := by
  unfold writtenName
  split
  · exact cons_ne_nil _ _
  · exact h

theorem written_trimmed (hquote : p '"' = false) (hgt : p '>' = false)
    (hname : Trimmed p r.name) (haddress : Trimmed p r.address) : Trimmed p (written r) := by
  unfold written
  split
  · exact haddress
  · rename_i hne
    have hone : Trimmed p ['>'] := by constructor <;> simp [hgt]
    have hsame : writtenName r.name ++ (" <" ++ (r.address ++ ['>'])) =
        writtenName r.name ++ ((" <" ++ r.address) ++ ['>']) := by rw [append_assoc]
    rw [hsame]
    exact trimmed_append (writtenName_trimmed hquote hname) hone (writtenName_ne_nil hne) (by simp) _

theorem unquote_writtenName (h : Trimmed jsWhitespace name) : unquote (writtenName name ++ [' ']) = name := by
  have htrim : jsTrim (writtenName name ++ [' ']) = writtenName name :=
    trimBy_append_blank (by decide) (writtenName_trimmed (by decide) h)
  unfold unquote
  simp only [htrim]
  unfold writtenName
  split
  · have htail : (Quoted.quote name).tail.dropLast = Quoted.escape name := by
      rw [Quoted.quote, tail_cons, dropLast_concat]
    have hlast : (Quoted.quote name).getLast? = some '"' := by
      rw [Quoted.quote, getLast?_cons, getLast?_append]
      rfl
    have hlong : ¬ (Quoted.quote name).length < 2 := by
      rw [Quoted.quote, length_cons, length_append, length_singleton]
      omega
    have hquoted : ¬ ((Quoted.quote name).length < 2 ∨ (Quoted.quote name).head? ≠ some '"' ∨
        (Quoted.quote name).getLast? ≠ some '"') := by
      rw [not_or, not_or]
      exact ⟨hlong, fun hne => hne rfl, fun hne => hne hlast⟩
    rw [if_neg hquoted, htail, unescape_escape]
  · rename_i hneeds
    have hplain := not_needsQuotes (Bool.eq_false_iff.mpr hneeds)
    rw [if_pos]
    right; left
    intro hhead
    exact (hplain '"' (mem_of_mem_head? hhead)).2.2.2.2 rfl

/-- An entry read, with or without the space before it. -/
theorem parseRecipient_written {r : Recipient} (h : Composed r) {before : Str} (hbefore : ∀ c ∈ before, jsWhitespace c = true) :
    ∃ raw, parseRecipient (before ++ written r) = some ⟨r.name, r.address, r.status, raw⟩ := by
  have haddress := trimmed_of_solid h.address_solid
  have hname := trimBy_eq_self_iff.mp h.trimmed
  have htrim : jsTrim (before ++ written r) = written r := by
    unfold jsTrim
    rw [trimBy_blank_append hbefore, trimBy_eq_self (written_trimmed (by decide) (by decide) hname haddress)]
  have hne : written r ≠ [] := by
    unfold written
    split
    · exact h.address_ne_nil
    · rename_i hn
      exact append_ne_nil_of_left_ne_nil (writtenName_ne_nil hn) _
  refine ⟨written r, ?_⟩
  unfold parseRecipient
  simp only [htrim, if_neg hne]
  by_cases hn : r.name = []
  · have hw : written r = r.address := if_pos hn
    rw [hw, rsplitOnce_eq_none.mpr (h.notMem (by decide)), h.status, hn]
  · have hw : written r = (writtenName r.name ++ [' ']) ++ '<' :: (r.address ++ ['>']) := by
      have hlit : " <" = [' ', '<'] := by decide
      simp [written, hn, hlit]
    have hopened : '<' ∉ r.address ++ ['>'] := by
      rw [mem_append, not_or]
      exact ⟨h.notMem (by decide), by decide⟩
    have hinside : rsplitOnce '>' (r.address ++ ['>']) = some (r.address, []) :=
      rsplitOnce_append (b := []) (by simp)
    have haddr : jsTrim r.address = r.address := trimBy_eq_self haddress
    rw [hw, rsplitOnce_append hopened]
    simp only [hinside, unquote_writtenName hname, haddr, h.status]

/-- **The composer reads back the names and addresses it wrote, in order.** -/
theorem composer_reads {rs : List Recipient} (h : ∀ r ∈ rs, Composed r) :
    (parseRecipients (formatRecipients rs)).map (fun r => (r.name, r.address)) =
      rs.map (fun r => (r.name, r.address)) := by
  have hread : ∀ {rs : List Recipient} (_ : ∀ r ∈ rs, Composed r),
      ((rs.map fun x => ' ' :: written x).filterMap parseRecipient).map (fun r => (r.name, r.address)) =
        rs.map (fun r => (r.name, r.address)) := by
    intro rs h
    induction rs with
    | nil => rfl
    | cons r rs ih =>
      obtain ⟨raw, hr⟩ := @parseRecipient_written r (h r mem_cons_self) [' '] (by decide)
      rw [singleton_append] at hr
      rw [map_cons, filterMap_cons, hr, map_cons, map_cons, ih fun x hx => h x (mem_cons_of_mem _ hx)]
  unfold parseRecipients splitRecipients formatRecipients
  cases rs with
  | nil => rfl
  | cons r rs =>
    have hrs : ∀ x ∈ rs, Composed x := fun x hx => h x (mem_cons_of_mem _ hx)
    obtain ⟨raw, hr⟩ := @parseRecipient_written r (h r mem_cons_self) [] (by simp)
    rw [splitFrom_entries r [] (h r mem_cons_self) hrs, nil_append, filterMap_cons]
    rw [nil_append] at hr
    rw [hr, map_cons, map_cons, hread hrs]

end Oreneta.Recipients

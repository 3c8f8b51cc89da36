import Oreneta.Recipients.Composer

/-!
# What the core reads of a field the composer wrote

The core reads the field with scanners of its own: they know no backslash inside quotes, and the first `<` of an
entry opens its address.

* `entriesFrom_written` — an entry passed over, and whether quotes are open after it.
* `splitNameAddr_written` — an entry read, when its name has no `<`.
* `entriesFrom_commas` — every entry but one costs a comma of the field.
* `envelopeRecipients_eq` — the envelope is the addresses without repeats.
-/

namespace Oreneta.Recipients

open Text List

variable {lower : Str → Str}

/-! ## The envelope -/

/-- The first of each address, whatever the case. -/
def withoutRepeats (lower : Str → Str) : List Str → List Str
  | [] => []
  | a :: rest => a :: (withoutRepeats lower rest).filter (fun b => lower b ≠ lower a)

theorem bareAddr_eq (entry : Str) : bareAddr entry = (splitNameAddr entry).2 := by
  unfold bareAddr splitNameAddr
  simp only
  cases splitOnce '<' (trim entry) with
  | none => rfl
  | some p =>
    simp only
    cases splitOnce '>' p.2 with
    | none => rfl
    | some q => rfl

theorem unseenFrom_eq : ∀ (seen entries : List Str), unseenFrom lower seen entries =
    (withoutRepeats lower (entries.map bareAddr)).filter (fun b => lower b ∉ seen)
  | seen, [] => rfl
  | seen, entry :: entries => by
    rw [unseenFrom, map_cons, withoutRepeats, filter_cons]
    split
    · rename_i hseen
      rw [if_neg (by simp [hseen]), unseenFrom_eq seen entries, filter_filter]
      refine filter_congr fun b _ => ?_
      by_cases hb : lower b ∈ seen
      · simp [hb]
      · have hne : lower b ≠ lower (bareAddr entry) := fun he => hb (he ▸ hseen)
        simp [hb, hne]
    · rename_i hseen
      rw [if_pos (by simp [hseen]), unseenFrom_eq (lower (bareAddr entry) :: seen) entries, filter_filter]
      congr 1
      refine filter_congr fun b _ => ?_
      simp [not_or, and_comm]

theorem envelopeRecipients_eq (to_ cc bcc : List Str) : envelopeRecipients lower to_ cc bcc =
    withoutRepeats lower ((to_ ++ (cc ++ bcc)).map bareAddr) := by
  unfold envelopeRecipients
  rw [unseenFrom_eq]
  simp

theorem withoutRepeats_subset : ∀ addresses : List Str, withoutRepeats lower addresses ⊆ addresses
  | [], b, hb => hb
  | a :: rest, b, hb => by
    rcases mem_cons.mp hb with rfl | hb
    · exact mem_cons_self
    · exact mem_cons_of_mem a (withoutRepeats_subset rest (mem_filter.mp hb).1)

theorem mem_withoutRepeats : ∀ {addresses : List Str} {a : Str}, a ∈ addresses →
    ∃ b ∈ withoutRepeats lower addresses, lower b = lower a
  | first :: rest, a, h => by
    by_cases hsame : lower a = lower first
    · exact ⟨first, mem_cons_self, hsame.symm⟩
    · have ha : a ∈ rest := by
        rcases mem_cons.mp h with rfl | h
        · exact absurd rfl hsame
        · exact h
      obtain ⟨b, hb, heq⟩ := mem_withoutRepeats ha
      refine ⟨b, mem_cons_of_mem first (mem_filter.mpr ⟨hb, ?_⟩), heq⟩
      simpa [heq] using hsame

/-! ## What is read of one entry -/

/-- A name that is read has no `<`. -/
theorem notMem_replacePair {c d with_ x : Char} (hwith : x ≠ with_) : ∀ {s : Str}, x ∉ s → x ∉ replacePair c d with_ s
  | [], h => h
  | [y], h => h
  | y :: z :: rest, h => by
    rw [mem_cons, mem_cons, not_or, not_or] at h
    unfold replacePair
    split
    · rw [mem_cons, not_or]
      exact ⟨hwith, notMem_replacePair hwith h.2.2⟩
    · rw [mem_cons, not_or]
      refine ⟨h.1, notMem_replacePair hwith ?_⟩
      rw [mem_cons, not_or]
      exact h.2

theorem count_replacePair {c d with_ x : Char} (hc : x ≠ c) (hd : x ≠ d) (hwith : x ≠ with_) :
    ∀ s : Str, (replacePair c d with_ s).count x = s.count x
  | [] => rfl
  | [y] => rfl
  | y :: z :: rest => by
    unfold replacePair
    split
    · rename_i h
      rw [count_cons_of_ne hwith.symm, count_replacePair hc hd hwith rest, h.1, h.2,
        count_cons_of_ne hc.symm, count_cons_of_ne hd.symm]
    · rw [count_cons, count_replacePair hc hd hwith (z :: rest), count_cons (l := z :: rest)]

theorem count_trim_le (c : Char) (s : Str) : (trim s).count c ≤ s.count c :=
  (trimBy_sublist isWhitespace s).count_le c

/-- Unwrapping a name adds no comma and no `<`. -/
theorem count_unwrapName_le (name : Str) : (unwrapName name).count ',' ≤ name.count ',' := by
  unfold unwrapName
  split
  · refine le_trans (count_trim_le ',' _) ?_
    rw [count_replacePair (by decide) (by decide) (by decide), count_replacePair (by decide) (by decide) (by decide)]
    exact ((dropLast_sublist _).trans (tail_sublist _)).count_le ','
  · exact le_refl _

theorem notMem_unwrapName {name : Str} (h : '<' ∉ name) : '<' ∉ unwrapName name := by
  unfold unwrapName
  split
  · intro hm
    have hinner : '<' ∉ name.tail.dropLast :=
      fun hx => h (((dropLast_sublist _).trans (tail_sublist _)).subset hx)
    exact notMem_replacePair (by decide) (notMem_replacePair (by decide) hinner) ((trimBy_sublist _ _).subset hm)
  · exact h

/-- The name read of an entry has no `<`, its address is trimmed, and it has no more commas than the entry. -/
theorem splitNameAddr_spec (e : Str) : '<' ∉ (splitNameAddr e).1 ∧ trim (splitNameAddr e).2 = (splitNameAddr e).2 ∧
    (splitNameAddr e).1.count ',' ≤ e.count ',' := by
  unfold splitNameAddr
  simp only
  cases hopen : splitOnce '<' (trim e) with
  | none => exact ⟨not_mem_nil, trim_trim e, Nat.zero_le _⟩
  | some p =>
    obtain ⟨hsplit, hbefore⟩ := splitOnce_some hopen
    cases hclose : splitOnce '>' p.2 with
    | none => simp only [hclose]; exact ⟨not_mem_nil, trim_trim e, Nat.zero_le _⟩
    | some q =>
      simp only [hclose]
      refine ⟨notMem_unwrapName fun hm => hbefore ((trimBy_sublist _ _).subset hm), trim_trim _, ?_⟩
      refine le_trans (count_unwrapName_le _) (le_trans (count_trim_le ',' _) (le_trans ?_ (count_trim_le ',' e)))
      rw [hsplit, count_append]
      omega

/-- A quoted name read back: the two replacements undo the escapes. -/
theorem unescaped_escape : ∀ s : Str, replacePair '\\' '\\' '\\' (replacePair '\\' '"' '"' (Quoted.escape s)) = s := by
  -- after the first replacement the backslashes are still doubled
  have hhead : ∀ s : Str, ∀ c ∈ (Quoted.escape s).head?, c ≠ '"' := by
    intro s c hc
    cases s with
    | nil => cases hc
    | cons d s =>
      by_cases hd : d = '"' ∨ d = '\\'
      · rw [escape_cons_mark hd, head?_cons, Option.mem_some_iff] at hc
        rw [← hc]
        decide
      · rw [escape_cons_plain hd, head?_cons, Option.mem_some_iff] at hc
        exact fun he => hd (.inl (hc.trans he))
  have hplain : ∀ {c d w x : Char} (_ : x ≠ c) (s : Str), replacePair c d w (x :: s) = x :: replacePair c d w s := by
    intro c d w x hx s
    cases s with
    | nil => rfl
    | cons y s => rw [replacePair, if_neg fun h => hx h.1]
  intro s
  induction s with
  | nil => rfl
  | cons c s ih =>
    by_cases hquote : c = '"'
    · rw [hquote, escape_cons_mark (.inl rfl), replacePair, if_pos ⟨rfl, rfl⟩, hplain (by decide), ih]
    by_cases hslash : c = '\\'
    · rw [hslash, escape_cons_mark (.inr rfl), replacePair, if_neg (by decide)]
      have hnext : replacePair '\\' '"' '"' ('\\' :: Quoted.escape s) =
          '\\' :: replacePair '\\' '"' '"' (Quoted.escape s) := by
        cases he : Quoted.escape s with
        | nil => rfl
        | cons d rest => rw [replacePair, if_neg fun h => hhead s d (by rw [he]; rfl) h.2]
      rw [hnext, replacePair, if_pos ⟨rfl, rfl⟩, ih]
    · rw [escape_cons_plain (not_or.mpr ⟨hquote, hslash⟩), hplain hslash, hplain hslash, ih]

theorem notMem_escape {s : Str} (h : '<' ∉ s) : '<' ∉ Quoted.escape s := by
  intro hm
  obtain ⟨c, hc, hx⟩ := mem_flatMap.mp hm
  split at hx
  · rcases mem_cons.mp hx with he | hx
    · exact absurd he (by decide)
    · exact h (mem_singleton.mp hx ▸ hc)
  · exact h (mem_singleton.mp hx ▸ hc)

theorem notMem_writtenName {name : Str} (h : '<' ∉ name) : '<' ∉ writtenName name := by
  unfold writtenName
  split
  · unfold Quoted.quote
    simp only [mem_cons, mem_append, not_mem_nil, or_false, not_or]
    exact ⟨by decide, notMem_escape h, by decide⟩
  · exact h

theorem unwrapName_writtenName {name : Str} (h : trim name = name) : unwrapName (writtenName name) = name := by
  unfold writtenName
  split
  · have hquoted : 2 ≤ (Quoted.quote name).length ∧ (Quoted.quote name).head? = some '"' ∧
        (Quoted.quote name).getLast? = some '"' := by
      refine ⟨?_, rfl, ?_⟩
      · rw [Quoted.quote, length_cons, length_append, length_singleton]
        omega
      · rw [Quoted.quote, getLast?_cons, getLast?_append]
        rfl
    have htail : (Quoted.quote name).tail.dropLast = Quoted.escape name := by
      rw [Quoted.quote, tail_cons, dropLast_concat]
    unfold unwrapName
    rw [if_pos hquoted, htail, unescaped_escape, h]
  · rename_i hneeds
    have hplain := not_needsQuotes (Bool.eq_false_iff.mpr hneeds)
    unfold unwrapName
    rw [if_neg]
    rintro ⟨-, hhead, -⟩
    exact (hplain '"' (mem_of_mem_head? hhead)).2.2.2.2 rfl

/-- White space of the core that is no control character is white space of the composer. -/
theorem jsWhitespace_of_isWhitespace {c : Char} (h : isWhitespace c = true) (hc : isControl c = false) :
    jsWhitespace c = true := by
  simp only [isWhitespace, jsWhitespace, isControl, Bool.or_eq_true, Bool.and_eq_true, decide_eq_true_eq,
    Bool.or_eq_false_iff, decide_eq_false_iff_not, Bool.and_eq_false_iff] at *
  omega

variable {r : Recipient}

theorem Composed.name_trimmed (h : Composed r) : Trimmed isWhitespace r.name := by
  have hjs := trimBy_eq_self_iff.mp h.trimmed
  have hno : ∀ c ∈ r.name, jsWhitespace c = false → isWhitespace c = false := by
    intro c hc hnot
    by_contra hw
    rw [jsWhitespace_of_isWhitespace (Bool.not_eq_false _ ▸ hw) (h.printable c hc)] at hnot
    cases hnot
  exact ⟨fun c hc => hno c (mem_of_mem_head? hc) (hjs.1 c hc),
    fun c hc => hno c (mem_of_mem_getLast? hc) (hjs.2 c hc)⟩

/-- The entry of a recipient whose address the core trims no further. -/
theorem Composed.trim_written (h : Composed r) (haddress : trim r.address = r.address) : Trimmed isWhitespace (written r) :=
  written_trimmed (by decide) (by decide) h.name_trimmed (trimBy_eq_self_iff.mp haddress)

theorem written_ne_nil (h : Composed r) : written r ≠ [] := by
  unfold written
  split
  · exact h.address_ne_nil
  · rename_i hn
    exact append_ne_nil_of_left_ne_nil (writtenName_ne_nil hn) _

/-- **An entry read by itself**, when its name has no `<`. -/
theorem splitNameAddr_written (h : Composed r) (hname : '<' ∉ r.name) (haddress : trim r.address = r.address) :
    splitNameAddr (written r) = (r.name, r.address) := by
  have htrim : trim (written r) = written r := trimBy_eq_self (h.trim_written haddress)
  unfold splitNameAddr
  simp only [htrim]
  by_cases hn : r.name = []
  · have hw : written r = r.address := if_pos hn
    rw [hw, splitOnce_eq_none.mpr (h.notMem (by decide)), hn]
  · have hw : written r = (writtenName r.name ++ [' ']) ++ '<' :: (r.address ++ ['>']) := by
      have hlit : " <" = [' ', '<'] := by decide
      simp [written, hn, hlit]
    have hbefore : '<' ∉ writtenName r.name ++ [' '] := by
      rw [mem_append, not_or]
      exact ⟨notMem_writtenName hname, by decide⟩
    have hspace : trim (writtenName r.name ++ [' ']) = writtenName r.name :=
      trimBy_append_blank (by decide) (writtenName_trimmed (by decide) h.name_trimmed)
    have hname' : trim r.name = r.name := trimBy_eq_self h.name_trimmed
    have hgt : '>' ∉ r.address := h.notMem (by decide)
    rw [hw, splitOnce_append _ hbefore]
    simp only [splitOnce_append [] hgt, hspace, unwrapName_writtenName hname', haddress]

/-! ## Entries passed over -/

/-- Whether quotes are open after a text, each mark opening or closing them. -/
def openAfter (inQuotes : Bool) (s : Str) : Bool := if s.count '"' % 2 = 0 then inQuotes else !inQuotes

theorem openAfter_nil (q : Bool) : openAfter q [] = q := rfl

theorem openAfter_quote (q : Bool) (s : Str) : openAfter q ('"' :: s) = openAfter (!q) s := by
  unfold openAfter
  rw [count_cons_self]
  rcases Nat.mod_two_eq_zero_or_one (s.count '"') with h | h
  · rw [if_neg (by omega), if_pos h]
  · rw [if_pos (by omega), if_neg (by omega), Bool.not_not]

theorem openAfter_other {c : Char} (hc : c ≠ '"') (q : Bool) (s : Str) : openAfter q (c :: s) = openAfter q s := by
  unfold openAfter
  rw [count_cons_of_ne hc]

/-- Every comma stands where quotes are open. -/
def Guarded (inQuotes : Bool) (s : Str) : Prop :=
  ∀ before after, s = before ++ ',' :: after → openAfter inQuotes before = true

theorem Guarded.tail {q : Bool} {c : Char} {s : Str} (h : Guarded q (c :: s)) : Guarded (openAfter q [c]) s := by
  intro before after he
  have hb := h (c :: before) after (by rw [he, cons_append])
  by_cases hc : c = '"'
  · rw [hc, openAfter_quote] at hb
    rw [hc, openAfter_quote]
    exact hb
  · rw [openAfter_other hc] at hb
    rw [openAfter_other hc]
    exact hb

theorem entriesFrom_plain {inQuotes inBrackets : Bool} : ∀ {s : Str} (_ : ∀ c ∈ s, c ≠ ',' ∧ c ≠ '<' ∧ c ≠ '>' ∧ c ≠ '"')
    (current rest : Str), entriesFrom inQuotes inBrackets current (s ++ rest) =
      entriesFrom inQuotes inBrackets (current ++ s) rest
  | [], _, current, rest => by rw [nil_append, append_nil]
  | c :: s, h, current, rest => by
    obtain ⟨hcomma, hlt, hgt, hquote⟩ := h c mem_cons_self
    rw [cons_append, entriesFrom, if_neg hquote, if_neg fun hc => hlt hc.1, if_neg fun hc => hgt hc.1,
      if_neg fun hc => hcomma hc.1, entriesFrom_plain fun x hx => h x (mem_cons_of_mem _ hx),
      append_assoc, singleton_append]

/-- While quotes are open, nothing but a quote is a mark. -/
theorem entriesFrom_quoted {inBrackets : Bool} : ∀ {s : Str} (_ : '"' ∉ s) (current rest : Str),
    entriesFrom true inBrackets current (s ++ rest) = entriesFrom true inBrackets (current ++ s) rest
  | [], _, current, rest => by rw [nil_append, append_nil]
  | c :: s, h, current, rest => by
    rw [mem_cons, not_or] at h
    rw [cons_append, entriesFrom, if_neg (fun hc => h.1 hc.symm), if_neg (by simp), if_neg (by simp),
      if_neg (by simp), entriesFrom_quoted h.2, append_assoc, singleton_append]

theorem entriesFrom_quote (q b : Bool) (current rest : Str) :
    entriesFrom q b current ('"' :: rest) = entriesFrom (!q) b (current ++ ['"']) rest := by
  rw [entriesFrom, if_pos rfl]

/-- An escaped name is passed over when its commas are guarded; the quotes escaped in it count like others. -/
theorem entriesFrom_escape : ∀ {inQuotes : Bool} {s : Str}, '<' ∉ s → Guarded inQuotes s → ∀ current rest : Str,
    entriesFrom inQuotes false current (Quoted.escape s ++ rest) =
      entriesFrom (openAfter inQuotes s) false (current ++ Quoted.escape s) rest
  | q, [], _, _, current, rest => by simp [Quoted.escape, openAfter]
  | q, c :: s, hlt, hguard, current, rest => by
    rw [mem_cons, not_or] at hlt
    have htail := hguard.tail
    have hslash : ∀ cur t : Str, entriesFrom q false cur ('\\' :: t) = entriesFrom q false (cur ++ ['\\']) t :=
      fun cur t => @entriesFrom_plain q false ['\\'] (by decide) cur t
    by_cases hquote : c = '"'
    · rw [hquote, openAfter_quote, openAfter_nil] at htail
      rw [hquote, escape_cons_mark (.inl rfl), openAfter_quote, cons_append, cons_append, hslash,
        entriesFrom_quote, entriesFrom_escape hlt.2 htail]
      simp
    rw [openAfter_other hquote] at htail ⊢
    rw [openAfter_nil] at htail
    by_cases hback : c = '\\'
    · rw [hback, escape_cons_mark (.inr rfl), cons_append, cons_append, hslash, hslash, entriesFrom_escape hlt.2 htail]
      simp
    · have hstep : ∀ t : Str, entriesFrom q false current (c :: t) = entriesFrom q false (current ++ [c]) t := by
        intro t
        have hcomma : ¬ (c = ',' ∧ q = false ∧ false = false) := by
          rintro ⟨rfl, hq, -⟩
          have := hguard [] s rfl
          rw [openAfter_nil, hq] at this
          cases this
        rw [entriesFrom, if_neg hquote, if_neg fun hc => hlt.1 hc.1.symm]
        by_cases hgt : c = '>' ∧ q = false
        · rw [if_pos hgt]
        · rw [if_neg hgt, if_neg hcomma]
      rw [escape_cons_plain (not_or.mpr ⟨hquote, hback⟩), cons_append, hstep, entriesFrom_escape hlt.2 htail]
      simp

/-- An odd number of quotes. -/
def oddQuotes (name : Str) : Bool := name.count '"' % 2 = 1

theorem not_openAfter (name : Str) : (!openAfter true name) = oddQuotes name := by
  unfold openAfter oddQuotes
  rcases Nat.mod_two_eq_zero_or_one (name.count '"') with h | h <;> simp [h]

/-- The address in its brackets is passed over, whether or not quotes are open. -/
theorem entriesFrom_address (h : Composed r) (inQuotes : Bool) (current rest : Str) :
    entriesFrom inQuotes false current (" <" ++ (r.address ++ '>' :: rest)) =
      entriesFrom inQuotes false (current ++ (" <" ++ (r.address ++ ['>']))) rest := by
  have hquote : '"' ∉ r.address := h.notMem (by decide)
  cases inQuotes with
  | true =>
    have hno : '"' ∉ " <" ++ (r.address ++ ['>']) := by
      simp only [mem_append, not_or]
      exact ⟨by decide, hquote, by decide⟩
    rw [← entriesFrom_quoted hno]
    simp
  | false =>
    have hlit : " <" = [' ', '<'] := by decide
    have hplain : ∀ c ∈ r.address, c ≠ ',' ∧ c ≠ '<' ∧ c ≠ '>' ∧ c ≠ '"' := by
      intro c hc
      have := h.address_marks c hc
      tauto
    have hspace := @entriesFrom_plain false false [' '] (by decide) current ('<' :: (r.address ++ '>' :: rest))
    rw [hlit, cons_append, cons_append, nil_append]
    rw [singleton_append] at hspace
    rw [hspace, entriesFrom, if_neg (by decide), if_pos ⟨rfl, rfl⟩, entriesFrom_plain hplain, entriesFrom,
      if_neg (by decide), if_neg (by decide), if_pos ⟨rfl, rfl⟩]
    simp

/-- **An entry passed over**: quotes are open after it when its name has an odd number of them. -/
theorem entriesFrom_written (h : Composed r) (hname : '<' ∉ r.name) (hguard : Guarded true r.name)
    (current rest : Str) : entriesFrom false false current (written r ++ rest) =
      entriesFrom (oddQuotes r.name) false (current ++ written r) rest := by
  unfold written
  split
  · rename_i hn
    have hplain : ∀ c ∈ r.address, c ≠ ',' ∧ c ≠ '<' ∧ c ≠ '>' ∧ c ≠ '"' := by
      intro c hc
      have := h.address_marks c hc
      tauto
    rw [hn, entriesFrom_plain hplain]
    rfl
  · have hskip : ∀ cur t : Str, entriesFrom false false cur (writtenName r.name ++ t) =
        entriesFrom (oddQuotes r.name) false (cur ++ writtenName r.name) t := by
      intro cur t
      unfold writtenName
      split
      · rw [Quoted.quote_append, entriesFrom_quote, Bool.not_false, entriesFrom_escape hname hguard, entriesFrom_quote,
          not_openAfter]
        simp [Quoted.quote]
      · rename_i hneeds
        have hmarks := not_needsQuotes (Bool.eq_false_iff.mpr hneeds)
        have hplain : ∀ c ∈ r.name, c ≠ ',' ∧ c ≠ '<' ∧ c ≠ '>' ∧ c ≠ '"' := by
          intro c hc
          have := hmarks c hc
          tauto
        have hzero : oddQuotes r.name = false := by
          unfold oddQuotes
          rw [count_eq_zero_of_not_mem (fun hm => (hplain '"' hm).2.2.2 rfl)]
          rfl
        rw [entriesFrom_plain hplain, hzero]
    simp only [append_assoc, singleton_append]
    rw [hskip, entriesFrom_address h, append_assoc]

/-! ## Entries counted -/

/-- Every entry but one costs a comma of the field. -/
theorem entriesFrom_commas : ∀ (inQuotes inBrackets : Bool) (current s : Str),
    ((entriesFrom inQuotes inBrackets current s).map (List.count ',')).sum +
      (entriesFrom inQuotes inBrackets current s).length ≤ current.count ',' + s.count ',' + 1
  | q, b, current, [] => by
    rw [entriesFrom, entry]
    split
    · simp
    · have := count_trim_le ',' current
      simp
      omega
  | q, b, current, c :: s => by
    have hgrow : (current ++ [c]).count ',' + s.count ',' = current.count ',' + (c :: s).count ',' := by
      have hcons : (c :: s).count ',' = [c].count ',' + s.count ',' := by
        rw [← count_append, singleton_append]
      rw [count_append, hcons, Nat.add_assoc]
    have hentry : ((entry current).map (List.count ',')).sum + (entry current).length ≤ current.count ',' + 1 := by
      rw [entry]
      split
      · simp
      · have := count_trim_le ',' current
        simp
        omega
    rw [entriesFrom]
    split
    · have := entriesFrom_commas (!q) b (current ++ [c]) s
      omega
    split
    · have := entriesFrom_commas q true (current ++ [c]) s
      omega
    split
    · have := entriesFrom_commas q false (current ++ [c]) s
      omega
    split
    · rename_i hcomma
      have := entriesFrom_commas q b [] s
      rw [map_append, sum_append, length_append, hcomma.1, count_cons_self]
      rw [count_nil] at this
      omega
    · have := entriesFrom_commas q b (current ++ [c]) s
      omega

/-- The first entry is what was read so far and what is read before it is pushed. -/
theorem entriesFrom_first : ∀ (inQuotes inBrackets : Bool) (current s : Str), ∃ more others,
    entriesFrom inQuotes inBrackets current s = entry (current ++ more) ++ others
  | q, b, current, [] => ⟨[], [], by rw [entriesFrom, append_nil, append_nil]⟩
  | q, b, current, c :: s => by
    have hgrow : ∀ q' b', ∃ more others, entriesFrom q' b' (current ++ [c]) s = entry (current ++ more) ++ others := by
      intro q' b'
      obtain ⟨more, others, he⟩ := entriesFrom_first q' b' (current ++ [c]) s
      exact ⟨c :: more, others, by rw [he, append_assoc, singleton_append]⟩
    rw [entriesFrom]
    split
    · exact hgrow (!q) b
    split
    · exact hgrow q true
    split
    · exact hgrow q false
    split
    · exact ⟨[], entriesFrom q b [] s, by rw [append_nil]⟩
    · exact hgrow q b

theorem count_escape {c : Char} (hc : c ≠ '\\') : ∀ s : Str, (Quoted.escape s).count c = s.count c
  | [] => rfl
  | d :: s => by
    by_cases hd : d = '"' ∨ d = '\\'
    · rw [escape_cons_mark hd, count_cons_of_ne hc.symm, count_cons, count_cons, count_escape hc s]
    · rw [escape_cons_plain hd, count_cons, count_cons, count_escape hc s]

/-- The commas of an entry are those of its name. -/
theorem count_written (h : Composed r) : (written r).count ',' = r.name.count ',' := by
  have haddress : r.address.count ',' = 0 := count_eq_zero_of_not_mem (h.notMem (by decide))
  unfold written
  split
  · rename_i hn
    rw [hn, haddress, count_nil]
  · have hname : (writtenName r.name).count ',' = r.name.count ',' := by
      unfold writtenName
      split
      · have hopen : ('"' : Char) ≠ ',' := by decide
        rw [Quoted.quote, count_cons_of_ne hopen, count_append, count_escape (by decide)]
        rfl
      · rfl
    have hlit : (" <".toList).count ',' = 0 := by decide
    have hgt : (['>'] : Str).count ',' = 0 := by decide
    rw [count_append, count_append, count_append, hname, hlit, haddress, hgt]
    omega

/-- The commas of a field: those of its names, and one between two entries. -/
theorem count_field : ∀ {rs : List Recipient} (r : Recipient), Composed r → (∀ x ∈ rs, Composed x) →
    (join ", " ((r :: rs).map formatRecipient)).count ',' =
      ((r :: rs).map (fun x => x.name.count ',')).sum + rs.length
  | [], r, h, _ => by
    rw [map_cons, map_nil, join, h.format, count_written h]
    simp
  | x :: rs, r, h, hrs => by
    have ih := count_field x (hrs x mem_cons_self) (fun y hy => hrs y (mem_cons_of_mem _ hy))
    have hlit : (", ".toList).count ',' = 1 := by decide
    rw [map_cons] at ih
    rw [map_cons, map_cons, join, count_append, count_append, h.format, count_written h, ih, hlit]
    simp only [map_cons, sum_cons, length_cons]
    omega

end Oreneta.Recipients

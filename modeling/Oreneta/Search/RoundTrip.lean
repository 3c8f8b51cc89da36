import Oreneta.Search.Words

/-!
# A search written back

`parse` after `compose`, for every query `parse` makes.

* `tokenize_compose` — the box a query is written in holds the words of its text, and one word for everything else.
* `parse_compose` — what is read of it.
* `round_trip_iff` — a search is read back exactly if its text is written with single spaces and none of its pieces is an
  operator, and its days are midnights of years from 0 on that a date can hold.
-/

namespace Oreneta.Search

open Text Civil List

variable {s v name tok t : Str} {query base : Query}

/-! ## What `parse` makes -/

/-- A value as `parse` keeps it. -/
structure Value (v : Str) : Prop where
  ne_nil : v ≠ []
  trimmed : trim v = v
  no_quote : '"' ∉ v

/-- The value a word asks for, if it is a text. -/
def Reading.value? : Reading → Option Str
  | .from_ v | .to_ v | .subject v | .label v => some v
  | _ => none

def Reading.after? : Reading → Option Int
  | .after at_ => some at_
  | _ => none

def Reading.before? : Reading → Option Int
  | .before at_ => some at_
  | _ => none

structure Readable (query : Query) : Prop where
  from_ : ∀ v ∈ query.from_, Value v
  to_ : ∀ v ∈ query.to_, Value v
  subject : ∀ v ∈ query.subject, Value v
  label : ∀ v ∈ query.label, Value v

theorem value_of_operator (lowered : Str) (h : Value v) : ∀ x ∈ (operator lowered v).value?, Value x := by
  have hsome : ∀ x ∈ some v, Value x := fun x hx => Option.some.inj hx ▸ h
  have hnone : ∀ x ∈ (none : Option Str), Value x := fun x hx => by cases hx
  have hite : ∀ {c : Prop} [Decidable c] {a b : Reading}, (∀ x ∈ a.value?, Value x) → (∀ x ∈ b.value?, Value x) →
      ∀ x ∈ (if c then a else b).value?, Value x := by
    intro c _ a b ha hb
    split
    · exact ha
    · exact hb
  -- one arm after the other, in their order
  refine hite hsome (hite hsome (hite hsome (hite hsome (hite hnone (hite hnone (hite hnone (hite hnone
    (hite ?_ (hite ?_ hnone)))))))))
  all_goals split <;> exact hnone

theorem value_of_reading (h : '"' ∉ tok) : ∀ v ∈ (reading tok).value?, Value v := by
  unfold reading
  split
  · intro v hv
    cases hv
  · rename_i name value hsplit
    have hvalue : '"' ∉ Text.trim value := by
      obtain ⟨htok, -⟩ := Text.splitOnce_some hsplit
      intro hm
      exact h (htok ▸ mem_append_right _ (mem_cons_of_mem _ ((Text.trimBy_sublist _ value).subset hm)))
    dsimp only
    split
    · intro v hv
      cases hv
    · rename_i hne
      exact value_of_operator _ ⟨by simpa using hne, Text.trim_trim value, hvalue⟩

theorem Readable.set (h : Readable query) {r : Reading} (hr : ∀ v ∈ r.value?, Value v) : Readable (r.set query) := by
  have hsnoc : ∀ {vs : List Str} {v : Str}, (∀ x ∈ vs, Value x) → Value v → ∀ x ∈ vs ++ [v], Value x := by
    intro vs v hvs hv x hx
    rcases mem_append.mp hx with hx | hx
    · exact hvs x hx
    · exact mem_singleton.mp hx ▸ hv
  cases r with
  | from_ v => exact ⟨hsnoc h.from_ (hr v rfl), h.to_, h.subject, h.label⟩
  | to_ v => exact ⟨h.from_, hsnoc h.to_ (hr v rfl), h.subject, h.label⟩
  | subject v => exact ⟨h.from_, h.to_, hsnoc h.subject (hr v rfl), h.label⟩
  | label v => exact ⟨h.from_, h.to_, h.subject, fun x hx => Option.some.inj hx ▸ hr v rfl⟩
  | word => exact h
  | nothing => exact h
  | flag f => exact ⟨h.from_, h.to_, h.subject, h.label⟩
  | after at_ => exact ⟨h.from_, h.to_, h.subject, h.label⟩
  | before at_ => exact ⟨h.from_, h.to_, h.subject, h.label⟩

theorem Readable.asked : ∀ {tokens : List Str} {query : Query}, Readable query → (∀ tok ∈ tokens, '"' ∉ tok) →
    Readable (Search.asked query tokens)
  | [], _, h, _ => h
  | tok :: tokens, _, h, htoks =>
    @Readable.asked tokens _ (h.set (value_of_reading (htoks tok mem_cons_self)))
      fun x hx => htoks x (mem_cons_of_mem _ hx)

theorem readable_asked (t : Str) : Readable (asked .default (tokenize t)) := by
  have hdefault : Readable .default :=
    ⟨forall_mem_nil _, forall_mem_nil _, forall_mem_nil _, fun v hv => by cases hv⟩
  exact hdefault.asked fun tok h => (word_of_mem not_mem_nil tok h).no_quote

/-- The last day of a kind that the words ask for. -/
theorem asked_days : ∀ (tokens : List Str) (query : Query),
    (asked query tokens).after = ((tokens.filterMap fun tok => (reading tok).after?).getLast?).or query.after ∧
    (asked query tokens).before = ((tokens.filterMap fun tok => (reading tok).before?).getLast?).or query.before
  | [], _ => ⟨rfl, rfl⟩
  | tok :: tokens, query => by
    obtain ⟨hafter, hbefore⟩ := asked_days tokens ((reading tok).set query)
    have hlast : ∀ {α : Type} (xs : List α) (x : α) (y : Option α), (x :: xs).getLast?.or y = xs.getLast?.or (some x) := by
      intro α xs x y
      cases xs with
      | nil => rfl
      | cons x' xs => rw [getLast?_cons_cons, getLast?_cons, Option.some_or, Option.some_or]
    rw [asked, foldl_cons, ← asked, hafter, hbefore, filterMap_cons, filterMap_cons]
    cases reading tok with
    | after at_ => exact ⟨(hlast _ at_ _).symm, rfl⟩
    | before at_ => exact ⟨rfl, (hlast _ at_ _).symm⟩
    | word => exact ⟨rfl, rfl⟩
    | nothing => exact ⟨rfl, rfl⟩
    | from_ v => exact ⟨rfl, rfl⟩
    | to_ v => exact ⟨rfl, rfl⟩
    | subject v => exact ⟨rfl, rfl⟩
    | label v => exact ⟨rfl, rfl⟩
    | flag f => exact ⟨rfl, rfl⟩

/-! ## What `compose` writes -/

/-- The words a query is written with, beside its text. -/
def fieldTokens (query : Query) : List Str :=
  query.from_.map ("from" ++ ':' :: ·) ++ (query.to_.map ("to" ++ ':' :: ·) ++
    (query.subject.map ("subject" ++ ':' :: ·) ++ (query.flags.map flagText ++
      (query.label.toList.map ("label" ++ ':' :: ·) ++
        (query.after.toList.map (fun at_ => "after" ++ ':' :: dayOf at_) ++
          query.before.toList.map (fun at_ => "before" ++ ':' :: dayOf at_))))))

/-- How a value is written. -/
def written (v : Str) : Str := if v.any isWhitespace then '"' :: (v ++ ['"']) else v

theorem quoted_eq (h : Value v) : quoted v = some (written v) := by
  have hfilter : v.filter (fun c => c ≠ '"') = v := by
    refine filter_eq_self.mpr fun c hc => decide_eq_true ?_
    rintro rfl
    exact h.no_quote hc
  have hne : v.isEmpty = false := by simpa using h.ne_nil
  unfold quoted
  rw [hfilter, h.trimmed]
  dsimp only
  rw [hne]
  rfl

/-- A name that `parse` and `compose` share. -/
def Run (name : Str) : Prop := ∀ c ∈ name, c ≠ '"' ∧ isWhitespace c = false

instance (name : Str) : Decidable (Run name) := inferInstanceAs (Decidable (∀ c ∈ name, _))

theorem writes_value (hname : Run (name ++ [':'])) (h : Value v) : Writes (name ++ ':' :: written v) (name ++ ':' :: v) := by
  refine ⟨fun cur rest => ?_, by simp⟩
  have hsplit : ∀ w : Str, name ++ ':' :: w = name ++ [':'] ++ w := fun w => by simp
  rw [hsplit, hsplit v, append_assoc, tokenizeFrom_plain _ _ hname, written]
  split
  · have happ : ('"' :: (v ++ ['"'])) ++ rest = '"' :: (v ++ '"' :: rest) := by simp
    rw [happ, tokenizeFrom_cons, if_pos rfl, Bool.not_false, tokenizeFrom_quoted v _ h.no_quote, append_assoc]
  · rename_i hany
    have hplain : Run v := by
      intro c hc
      refine ⟨fun he => h.no_quote (he ▸ hc), ?_⟩
      simp only [any_eq_true, not_exists, not_and, Bool.not_eq_true] at hany
      exact hany c hc
    rw [tokenizeFrom_plain _ _ hplain, append_assoc]

/-- A day is written with digits and signs. -/
theorem run_dayOf (at_ : Int) : Run (dayOf at_) := by
  have hsign : ∀ c ∈ ['-', '+'], c ≠ '"' ∧ Text.isWhitespace c = false := by decide
  have hdigit : ∀ {c : Char}, c.isDigit = true → c ≠ '"' ∧ isWhitespace c = false := by
    refine fun h => ⟨?_, isWhitespace_of_isDigit h⟩
    rintro rfl
    exact absurd h (by decide)
  have hpad : ∀ n, Run (pad2 n) := fun n c hc => hdigit (pad2_isDigit hc)
  have hyear : ∀ year, Run (yearText year) := by
    intro year c hc
    unfold yearText at hc
    split at hc
    · exact (mem_append.mp hc).elim (hpad _ c) (hpad _ c)
    · rcases mem_cons.mp hc with rfl | hc
      · split
        · exact hsign _ (by decide)
        · exact hsign _ (by decide)
      · rcases mem_append.mp hc with hc | hc
        · rw [eq_of_mem_replicate hc]
          decide
        · exact hdigit (Decimal.isDigit_of_mem hc)
  intro c hc
  unfold dayOf at hc
  split at hc
  · rcases mem_append.mp hc with hc | hc
    · exact hyear _ c hc
    · rcases mem_cons.mp hc with rfl | hc
      · exact hsign _ (by decide)
      · rcases mem_append.mp hc with hc | hc
        · exact hpad _ c hc
        · rcases mem_cons.mp hc with rfl | hc
          · exact hsign _ (by decide)
          · exact hpad _ c hc
  · cases hc

/-- The parts of the box that ask for something beside the text. -/
def fieldParts (query : Query) : List Str :=
  query.from_.map ("from" ++ ':' :: written ·) ++ (query.to_.map ("to" ++ ':' :: written ·) ++
    (query.subject.map ("subject" ++ ':' :: written ·) ++ (query.flags.map flagText ++
      (query.label.toList.map ("label" ++ ':' :: written ·) ++
        (query.after.toList.map (fun at_ => "after" ++ ':' :: dayOf at_) ++
          query.before.toList.map (fun at_ => "before" ++ ':' :: dayOf at_))))))

theorem compose_eq (h : Readable query) : compose query = join [' ']
    ((if (trim query.text).isEmpty then [] else [trim query.text]) ++ fieldParts query) := by
  have hterms : ∀ (name : Str) {values : List Str}, (∀ v ∈ values, Value v) →
      values.filterMap (fun v => (quoted v).map (name ++ ':' :: ·)) = values.map (name ++ ':' :: written ·) := by
    intro name values hvalues
    rw [← filterMap_eq_map]
    refine filterMap_congr fun v hv => ?_
    rw [quoted_eq (hvalues v hv)]
    rfl
  have hlabel : ((query.label.bind quoted).map ("label:".toList ++ ·)).toList =
      query.label.toList.map ("label".toList ++ ':' :: written ·) := by
    cases hl : query.label with
    | none => rfl
    | some v =>
      rw [Option.bind_some, quoted_eq (h.label v hl)]
      rfl
  have hafter : (query.after.map (fun at_ => "after:" ++ dayOf at_)).toList =
      query.after.toList.map (fun at_ => "after" ++ ':' :: dayOf at_) := by
    cases query.after with
    | none => rfl
    | some at_ => rfl
  have hbefore : (query.before.map (fun at_ => "before:" ++ dayOf at_)).toList =
      query.before.toList.map (fun at_ => "before" ++ ':' :: dayOf at_) := by
    cases query.before with
    | none => rfl
    | some at_ => rfl
  unfold compose fieldParts
  dsimp only
  rw [hterms _ h.from_, hterms _ h.to_, hterms _ h.subject, hlabel, hafter, hbefore]
  simp only [append_assoc]

theorem writes_fields (h : Readable query) : List.Forall₂ Writes (fieldParts query) (fieldTokens query) := by
  have hterms : ∀ {name : Str} {values : List Str}, Run (name ++ [':']) → (∀ v ∈ values, Value v) →
      List.Forall₂ Writes (values.map (name ++ ':' :: written ·)) (values.map (name ++ ':' :: ·)) := by
    intro name values hname hvalues
    rw [List.forall₂_map_left_iff, List.forall₂_map_right_iff, List.forall₂_same]
    exact fun v hv => writes_value hname (hvalues v hv)
  have hdays : ∀ {name : Str}, Run (name ++ [':']) → ∀ days : List Int, List.Forall₂ Writes
      (days.map fun at_ => name ++ ':' :: dayOf at_) (days.map fun at_ => name ++ ':' :: dayOf at_) := by
    intro name hname days
    rw [List.forall₂_same]
    intro part hpart
    obtain ⟨at_, -, rfl⟩ := mem_map.mp hpart
    refine Writes.plain (by simp) fun c hc => ?_
    rw [append_cons] at hc
    exact (mem_append.mp hc).elim (hname c) (run_dayOf at_ c)
  have hflags : List.Forall₂ Writes (query.flags.map flagText) (query.flags.map flagText) := by
    rw [List.forall₂_same]
    intro part hpart
    obtain ⟨f, -, rfl⟩ := mem_map.mp hpart
    cases f with
    | unread => exact Writes.plain (by decide) (by decide +kernel)
    | read => exact Writes.plain (by decide) (by decide +kernel)
    | starred => exact Writes.plain (by decide) (by decide +kernel)
    | hasAttachment => exact Writes.plain (by decide) (by decide +kernel)
  unfold fieldParts fieldTokens
  refine rel_append (hterms (by decide +kernel) h.from_) (rel_append (hterms (by decide +kernel) h.to_)
    (rel_append (hterms (by decide +kernel) h.subject) (rel_append hflags
      (rel_append (hterms (by decide +kernel) fun v hv => h.label v (Option.mem_toList.mp hv))
        (rel_append (hdays (by decide +kernel) _) (hdays (by decide +kernel) _))))))

/-- **The box a query is written in** holds the words of its text and one word for everything else. -/
theorem tokenize_compose (h : Readable query) (htext : '"' ∉ query.text) :
    tokenize (compose query) = tokenize query.text ++ fieldTokens query := by
  have hfields := tokenize_join (writes_fields h)
  have htrim := tokenize_trim htext
  have hno : '"' ∉ trim query.text := fun hm => htext ((trimBy_sublist _ _).subset hm)
  rw [compose_eq h, ← hfields, ← htrim]
  generalize trim query.text = text at hno
  split
  · rename_i hnil
    rw [List.isEmpty_iff.mp hnil]
    rfl
  · cases fieldParts query with
    | nil => exact (append_nil _).symm
    | cons part parts =>
      unfold tokenize
      rw [singleton_append, join_cons_cons, singleton_append, tokenizeFrom_space _ _ hno]

/-! ## What is read of it -/

theorem asked_append (query : Query) (a b : List Str) : asked query (a ++ b) = asked (asked query a) b := foldl_append

theorem textWords_append (a b : List Str) : textWords (a ++ b) = textWords a ++ textWords b := filter_append a b

theorem reading_operator (hname : ':' ∉ name) (hlower : asciiLower name = name) (h : Value v) :
    reading (name ++ ':' :: v) = operator name v := by
  unfold reading
  rw [splitOnce_append v hname]
  dsimp only
  have hne : v.isEmpty = false := by simpa using h.ne_nil
  rw [h.trimmed, hne, hlower]
  rfl

theorem reading_day (hname : ':' ∉ name) (hlower : asciiLower name = name) (at_ : Int) :
    reading (name ++ ':' :: dayOf at_) = if (dayOf at_).isEmpty then .nothing else operator name (dayOf at_) := by
  have htrim := trim_of_no_space fun c hc => (run_dayOf at_ c hc).2
  unfold reading
  rw [splitOnce_append _ hname]
  dsimp only
  rw [htrim, hlower]

/-- What the word of a day asks for: the day it is read back as, if it is. -/
theorem asked_day (name : Str) (r : Int → Reading) (put : Query → Option Int → Query) (hname : ':' ∉ name)
    (hlower : asciiLower name = name)
    (hr : ∀ v, operator name v = match parseDay v with | some at_ => r at_ | none => Reading.word)
    (hput : ∀ base at_, (r at_).set base = put base (some at_))
    (hnone : ∀ base, put base none = base) (base : Query) (at_ : Int) :
    asked base [name ++ ':' :: dayOf at_] = put base (parseDay (dayOf at_)) := by
  have hone : asked base [name ++ ':' :: dayOf at_] = (reading (name ++ ':' :: dayOf at_)).set base := rfl
  rw [hone, reading_day hname hlower, hr]
  cases dayOf at_ with
  | nil => exact (hnone base).symm
  | cons c day =>
    rw [isEmpty_cons, if_neg Bool.false_ne_true]
    cases parseDay (c :: day) with
    | none => exact (hnone base).symm
    | some read => exact hput base read

/-- Words that are read alike, one after the other. -/
theorem asked_values {α : Type} {token : α → Str} (put : Query → List α → Query) (set : Query → α → Query)
    (hnil : ∀ base, put base [] = base) (hput : ∀ base v vs, put (set base v) vs = put base (v :: vs)) :
    ∀ {vs : List α} {base : Query}, (∀ v ∈ vs, ∀ base, (reading (token v)).set base = set base v) →
      asked base (vs.map token) = put base vs
  | [], base, _ => (hnil base).symm
  | v :: vs, base, h => by
    have ih := @asked_values _ token put set hnil hput vs (set base v) fun x hx => h x (mem_cons_of_mem _ hx)
    rw [← hput, ← ih, ← h v mem_cons_self]
    rfl

theorem reading_flagText (f : Flag) : reading (flagText f) = .flag f := by
  cases f with
  | unread => decide +kernel
  | read => decide +kernel
  | starred => decide +kernel
  | hasAttachment => decide +kernel

/-- **What the other words ask for** is what the query holds, a day as it is read back. -/
theorem asked_fields (h : Readable query) (base : Query) : asked base (fieldTokens query) =
    { text := base.text, from_ := base.from_ ++ query.from_, to_ := base.to_ ++ query.to_,
      subject := base.subject ++ query.subject, flags := base.flags ++ query.flags, label := query.label.or base.label,
      after := (query.after.bind (parseDay ∘ dayOf)).or base.after,
      before := (query.before.bind (parseDay ∘ dayOf)).or base.before } := by
  have hfrom : ∀ base, asked base (query.from_.map ("from" ++ ':' :: ·)) =
      { base with from_ := base.from_ ++ query.from_ } := by
    intro base
    refine asked_values (fun base vs => { base with from_ := base.from_ ++ vs })
      (fun base v => { base with from_ := base.from_ ++ [v] }) (fun base => ?_) (fun base v vs => ?_) fun v hv base => ?_
    · rw [append_nil]
    · rw [← append_cons]
    · rw [reading_operator (by decide +kernel) (by decide +kernel) (h.from_ v hv)]
      rfl
  have hto : ∀ base, asked base (query.to_.map ("to" ++ ':' :: ·)) = { base with to_ := base.to_ ++ query.to_ } := by
    intro base
    refine asked_values (fun base vs => { base with to_ := base.to_ ++ vs })
      (fun base v => { base with to_ := base.to_ ++ [v] }) (fun base => ?_) (fun base v vs => ?_) fun v hv base => ?_
    · rw [append_nil]
    · rw [← append_cons]
    · rw [reading_operator (by decide +kernel) (by decide +kernel) (h.to_ v hv)]
      rfl
  have hsubject : ∀ base, asked base (query.subject.map ("subject" ++ ':' :: ·)) =
      { base with subject := base.subject ++ query.subject } := by
    intro base
    refine asked_values (fun base vs => { base with subject := base.subject ++ vs })
      (fun base v => { base with subject := base.subject ++ [v] }) (fun base => ?_) (fun base v vs => ?_) fun v hv base => ?_
    · rw [append_nil]
    · rw [← append_cons]
    · rw [reading_operator (by decide +kernel) (by decide +kernel) (h.subject v hv)]
      rfl
  have hflags : ∀ base, asked base (query.flags.map flagText) = { base with flags := base.flags ++ query.flags } := by
    intro base
    refine asked_values (fun base fs => { base with flags := base.flags ++ fs })
      (fun base f => { base with flags := base.flags ++ [f] }) (fun base => ?_) (fun base f fs => ?_) fun f _ base => ?_
    · rw [append_nil]
    · rw [← append_cons]
    · rw [reading_flagText]
      rfl
  have hlabel : ∀ base, asked base (query.label.toList.map ("label" ++ ':' :: ·)) =
      { base with label := query.label.or base.label } := by
    intro base
    cases hl : query.label with
    | none => rfl
    | some v =>
      have hone : asked base [("label" ++ ':' :: v)] = (reading ("label" ++ ':' :: v)).set base := rfl
      rw [Option.toList_some, map_singleton, hone, reading_operator (by decide +kernel) (by decide +kernel) (h.label v hl)]
      rfl
  have hafter : ∀ base, asked base (query.after.toList.map (fun at_ => "after" ++ ':' :: dayOf at_)) =
      { base with after := (query.after.bind (parseDay ∘ dayOf)).or base.after } := by
    intro base
    cases query.after with
    | none => rfl
    | some at_ =>
      exact asked_day "after" .after (fun base at_ => { base with after := at_.or base.after }) (by decide +kernel)
        (by decide +kernel) (fun _ => rfl) (fun _ _ => rfl) (fun _ => rfl) base at_
  have hbefore : ∀ base, asked base (query.before.toList.map (fun at_ => "before" ++ ':' :: dayOf at_)) =
      { base with before := (query.before.bind (parseDay ∘ dayOf)).or base.before } := by
    intro base
    cases query.before with
    | none => rfl
    | some at_ =>
      exact asked_day "before" .before (fun base at_ => { base with before := at_.or base.before }) (by decide +kernel)
        (by decide +kernel) (fun _ => rfl) (fun _ _ => rfl) (fun _ => rfl) base at_
  unfold fieldTokens
  rw [asked_append, asked_append, asked_append, asked_append, asked_append, asked_append, hfrom, hto, hsubject, hflags,
    hlabel, hafter, hbefore]

/-- A word that is read as text is one of a day that is not read back. -/
theorem word_field (h : Readable query) (htok : tok ∈ fieldTokens query) (hword : reading tok = .word) :
    tok ≠ [] ∧ Run tok ∧ ∃ at_, (at_ ∈ query.after ∨ at_ ∈ query.before) ∧ ¬ Midnight at_ := by
  have hoperator : ∀ {name v : Str} {r : Reading}, ':' ∉ name → asciiLower name = name → Value v →
      operator name v = r → r ≠ .word → reading (name ++ ':' :: v) ≠ .word := by
    intro name v r hname hlower hv hr hne
    rwa [reading_operator hname hlower hv, hr]
  have hday : ∀ (name : Str) (r : Int → Reading) (at_ : Int), ':' ∉ name → asciiLower name = name →
      (∀ v, operator name v = match parseDay v with | some at_ => r at_ | none => Reading.word) → (∀ at_, r at_ ≠ .word) →
      reading (name ++ ':' :: dayOf at_) = .word → ¬ Midnight at_ := by
    intro name r at_ hname hlower hr hne hword hmid
    rw [reading_day hname hlower, hr, (parseDay_dayOf at_).mpr hmid] at hword
    split at hword
    · cases hword
    · exact hne at_ hword
  have hrun : ∀ {name : Str} (at_ : Int), Run (name ++ [':']) → Run (name ++ ':' :: dayOf at_) := by
    intro name at_ hname c hc
    rw [append_cons] at hc
    exact (mem_append.mp hc).elim (hname c) (run_dayOf at_ c)
  unfold fieldTokens at htok
  simp only [mem_append, mem_map, Option.mem_toList] at htok
  obtain ⟨v, hv, rfl⟩ | ⟨v, hv, rfl⟩ | ⟨v, hv, rfl⟩ | ⟨f, -, rfl⟩ | ⟨v, hv, rfl⟩ | ⟨at_, hat, rfl⟩ | ⟨at_, hat, rfl⟩ := htok
  · exact absurd hword (hoperator (by decide +kernel) (by decide +kernel) (h.from_ v hv) rfl fun he => by cases he)
  · exact absurd hword (hoperator (by decide +kernel) (by decide +kernel) (h.to_ v hv) rfl fun he => by cases he)
  · exact absurd hword (hoperator (by decide +kernel) (by decide +kernel) (h.subject v hv) rfl fun he => by cases he)
  · rw [reading_flagText] at hword
    cases hword
  · exact absurd hword (hoperator (by decide +kernel) (by decide +kernel) (h.label v hv) rfl fun he => by cases he)
  · exact ⟨by simp, hrun at_ (by decide +kernel), at_, .inl hat,
      hday _ .after at_ (by decide +kernel) (by decide +kernel) (fun _ => rfl) (fun _ he => by cases he) hword⟩
  · exact ⟨by simp, hrun at_ (by decide +kernel), at_, .inr hat,
      hday _ .before at_ (by decide +kernel) (by decide +kernel) (fun _ => rfl) (fun _ he => by cases he) hword⟩

/-- **What is read of the box a query is written in.** -/
theorem parse_compose (h : Readable query) (htext : '"' ∉ query.text) : parse (compose query) =
    { asked (asked .default (tokenize query.text)) (fieldTokens query) with
      text := Text.join [' '] (textWords (tokenize query.text) ++ textWords (fieldTokens query)) } := by
  rw [parse_eq, tokenize_compose h htext, asked_append, textWords_append]

/-! ## The round trip -/

/-- Words that are text ask for nothing. -/
theorem asked_words : ∀ {tokens : List Str} {query : Query}, (∀ tok ∈ tokens, reading tok = .word) → asked query tokens = query
  | [], _, _ => rfl
  | tok :: tokens, query, h => by
    have hstep : asked query (tok :: tokens) = asked ((reading tok).set query) tokens := rfl
    rw [hstep, h tok mem_cons_self]
    exact asked_words fun x hx => h x (mem_cons_of_mem _ hx)

theorem tokenize_run (hne : s ≠ []) (h : Run s) : tokenize s = [s] := by
  have hwrites := tokenize_join (.cons (Writes.plain hne h) .nil)
  exact hwrites

theorem textWords_textWords (tokens : List Str) : textWords (textWords tokens) = textWords tokens := by
  unfold textWords
  rw [filter_filter]
  simp

/-- A day read back is the day that was written. -/
theorem bind_day_iff {day : Option Int} : day.bind (parseDay ∘ dayOf) = day ↔ ∀ at_ ∈ day, Midnight at_ := by
  cases day with
  | none => exact iff_of_true rfl fun _ h => by cases h
  | some at_ =>
    have hone : (∀ x ∈ some at_, Midnight x) ↔ Midnight at_ := ⟨fun h => h at_ rfl, fun h x hx => Option.some.inj hx ▸ h⟩
    rw [hone, Option.bind_some, Function.comp_apply]
    exact parseDay_dayOf at_

/-- A query that can be written back, the words of its text being `words`. -/
structure WritesBack (query : Query) (words : List Str) : Prop where
  /-- The text has single spaces between its pieces, each of them text. -/
  text : ∀ w ∈ words, spaced w = w ∧ ∀ piece ∈ tokenize w, reading piece = .word
  after : ∀ at_ ∈ query.after, Midnight at_
  before : ∀ at_ ∈ query.before, Midnight at_

theorem parse_compose_iff {words : List Str} (h : Readable query) (hwords : ∀ w ∈ words, Word w)
    (htext : query.text = Text.join [' '] words) : parse (compose query) = query ↔ WritesBack query words := by
  have hquote : ∀ w ∈ words, '"' ∉ w := fun w hw => (hwords w hw).no_quote
  have hnoquote : '"' ∉ query.text := by
    rw [htext]
    intro hm
    rcases Text.mem_join hm with hm | ⟨w, hw, hm⟩
    · exact absurd hm (by decide)
    · exact hquote w hw hm
  have hpieces : tokenize query.text = words.flatMap tokenize := by rw [htext, tokenize_words hquote]
  have hrun : ∀ p ∈ tokenize query.text, p ≠ [] ∧ Run p := by
    intro p hp
    have hword := word_of_mem not_mem_nil p hp
    refine ⟨hword.ne_nil, fun c hc => ⟨fun he => hword.no_quote (he ▸ hc), ?_⟩⟩
    exact no_space_of_mem hnoquote (forall_mem_nil _) p hp c hc
  rw [parse_compose h hnoquote, asked_fields h]
  constructor
  · intro he
    -- a word more or less, or a space, would show in the text
    have hjoin : Text.join [' '] (textWords (tokenize query.text) ++ textWords (fieldTokens query)) = query.text :=
      congrArg Query.text he
    have hone : ∀ p ∈ textWords (tokenize query.text) ++ textWords (fieldTokens query), p ≠ [] ∧ Run p := by
      intro p hp
      rcases mem_append.mp hp with hp | hp
      · exact hrun p (mem_filter.mp hp).1
      · obtain ⟨hmem, hword⟩ := mem_filter.mp hp
        obtain ⟨hne, hplain, -⟩ := word_field h hmem (of_decide_eq_true hword)
        exact ⟨hne, hplain⟩
    have hall : textWords (tokenize query.text) ++ textWords (fieldTokens query) = tokenize query.text := by
      have hback := congrArg tokenize hjoin
      rw [tokenize_words fun p hp hm => ((hone p hp).2 _ hm).1 rfl] at hback
      have hself : ∀ {ps : List Str}, (∀ p ∈ ps, p ≠ [] ∧ Run p) → ps.flatMap tokenize = ps := by
        intro ps hps
        induction ps with
        | nil => rfl
        | cons p ps ih =>
          obtain ⟨⟨hne, hplain⟩, hrest⟩ := forall_mem_cons.mp hps
          rw [flatMap_cons, tokenize_run hne hplain, ih hrest, singleton_append]
      exact (hself hone).symm.trans hback
    have hnil : textWords (fieldTokens query) = [] := by
      have hwordsOf := congrArg textWords hall
      rw [textWords_append, textWords_textWords, textWords_textWords] at hwordsOf
      exact self_eq_append_right.mp hwordsOf.symm
    rw [hnil, append_nil] at hall hjoin
    have hword : ∀ p ∈ tokenize query.text, reading p = .word := by
      intro p hp
      rw [← hall] at hp
      exact of_decide_eq_true (mem_filter.mp hp).2
    rw [asked_words hword] at he
    have hspaced : spaced (Text.join [' '] words) = Text.join [' '] words := by
      rw [← htext, spaced, ← hall, hjoin]
    refine ⟨fun w hw => ⟨(spaced_join_iff hwords).mp hspaced w hw, fun p hp => ?_⟩, ?_, ?_⟩
    · exact hword p (hpieces ▸ mem_flatMap.mpr ⟨w, hw, hp⟩)
    · refine bind_day_iff.mp (Eq.trans ?_ (congrArg Query.after he))
      exact Option.or_none.symm
    · refine bind_day_iff.mp (Eq.trans ?_ (congrArg Query.before he))
      exact Option.or_none.symm
  · intro hback
    have hword : ∀ p ∈ tokenize query.text, reading p = .word := by
      intro p hp
      rw [hpieces] at hp
      obtain ⟨w, hw, hp⟩ := mem_flatMap.mp hp
      exact (hback.text w hw).2 p hp
    have hnil : textWords (fieldTokens query) = [] := by
      refine filter_eq_nil_iff.mpr fun p hp hw => ?_
      obtain ⟨-, -, at_, hat, hnot⟩ := word_field h hp (of_decide_eq_true hw)
      exact hnot (hat.elim (hback.after at_) (hback.before at_))
    have hall : textWords (tokenize query.text) = tokenize query.text :=
      filter_eq_self.mpr fun p hp => decide_eq_true (hword p hp)
    have hspaced : Text.join [' '] (tokenize query.text) = query.text := by
      have := (spaced_join_iff hwords).mpr fun w hw => (hback.text w hw).1
      rw [htext]
      exact this
    rw [hnil, append_nil, hall, hspaced, asked_words hword, bind_day_iff.mpr hback.after, bind_day_iff.mpr hback.before]
    unfold Query.default
    dsimp only
    rw [Option.or_none, Option.or_none, Option.or_none]
    rfl

/-- The last day of a kind that a search asks for. -/
def lastDay (asks : Reading → Option Int) (t : Str) : Option Int :=
  ((tokenize t).filterMap fun tok => asks (reading tok)).getLast?

/-- **`parse(&compose(&parse(t))) == parse(t)`** exactly if the text in `t` is written with single spaces between its pieces,
each of them text, and the days it asks for last are midnights of years from 0 on that a date can hold. -/
theorem round_trip_iff (t : Str) : parse (compose (parse t)) = parse t ↔
    (∀ w ∈ textWords (tokenize t), spaced w = w ∧ ∀ piece ∈ tokenize w, reading piece = .word) ∧
      (∀ at_ ∈ lastDay Reading.after? t, Midnight at_) ∧ ∀ at_ ∈ lastDay Reading.before? t, Midnight at_ := by
  have hread := readable_asked t
  obtain ⟨hafter, hbefore⟩ := asked_days (tokenize t) .default
  have hparse := parse_eq t
  have hreadable : Readable (parse t) := by
    rw [hparse]
    exact ⟨hread.from_, hread.to_, hread.subject, hread.label⟩
  have hwords : ∀ w ∈ textWords (tokenize t), Word w := fun w hw =>
    word_of_mem not_mem_nil w (mem_filter.mp hw).1
  have htext : (parse t).text = Text.join [' '] (textWords (tokenize t)) := by rw [hparse]
  have hafter' : (parse t).after = lastDay Reading.after? t := by
    rw [hparse, hafter]
    exact Option.or_none
  have hbefore' : (parse t).before = lastDay Reading.before? t := by
    rw [hparse, hbefore]
    exact Option.or_none
  rw [parse_compose_iff hreadable hwords htext, ← hafter', ← hbefore']
  exact ⟨fun ⟨h1, h2, h3⟩ => ⟨h1, h2, h3⟩, fun ⟨h1, h2, h3⟩ => ⟨h1, h2, h3⟩⟩

/-- A phrase that holds an operator is written back as one. -/
theorem round_trip_phrase : parse "\"news from:bob\"" = { Query.default with text := "news from:bob" } ∧
      compose (parse "\"news from:bob\"") = "news from:bob" ∧
      parse (compose (parse "\"news from:bob\"")) =
        { Query.default with text := "news", from_ := ["bob"] } ∧
      ¬ ∀ t : Str, parse (compose (parse t)) = parse t := by
  have hread : parse "\"news from:bob\"" = { Query.default with text := "news from:bob" } := by decide +kernel
  have hback : parse (compose (parse "\"news from:bob\"")) =
      { Query.default with text := "news", from_ := ["bob"] } := by decide +kernel
  refine ⟨hread, by decide +kernel, hback, fun h => ?_⟩
  have hboth := h "\"news from:bob\""
  rw [hback, hread] at hboth
  exact absurd hboth (by decide +kernel)

end Oreneta.Search

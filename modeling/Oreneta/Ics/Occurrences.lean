import Mathlib.Data.List.Flatten
import Oreneta.Ics.Merging
import Oreneta.Ics.Moved

/-!
# One occurrence of a series

`put_override` and `exclude_occurrence` of `calendar/ics.rs` on whole objects, piece by piece.

* `Resolves`, `resolves_iff` — the times that are read back from the line written for them.
* `Whole`, `components_whole` — an object whose events all end, as `components` finds them.
* `withoutOverride_flatten` — the exceptions of one occurrence taken out, and nothing else.
* `putOverride_whole`, `excludeOccurrence_whole` — what the two edits give.
* `addressed_iff` — an exception is the only one for its occurrence exactly when its times are read back.
-/

namespace Oreneta.Ics

open Text ContentLines Civil List

/-! ## Times that are read back -/

/-- The zone a time is written in. -/
def writtenZone (p : Platform) (zone : Option Str) : Option TimeZone :=
  (zone.filter (fun z => !utcNames.contains z)).bind p.zone

/-- A day of four-digit years that begins at midnight in UTC; or a time that its clock shows for the first time, in such a
year on that clock. -/
def Resolves (p : Platform) (zone : Option Str) (allDay : Bool) (t : Int) : Prop :=
  Calendar.representable t = true ∧
    if allDay then t % 86400 = 0 ∧ FourDigit (t / 86400)
    else
      match writtenZone p zone with
      | some z => (z.ofLocal (z.toLocal t)).earliest = some t ∧ FourDigit (z.toLocal t / 86400)
      | none => FourDigit (t / 86400)

/-- What is read of a line whose value has no blank and no comma. -/
theorem instantOf_append (p : Platform) {head rest : Str} (h : ':' ∉ head)
    (hrest : ∀ c ∈ rest, isWhitespace c = false ∧ c ≠ ',') : instantOf p (head ++ ':' :: rest) =
      if octets rest = 8 then (readDate rest).map (fun day => day * 86400)
      else if rest.getLast? = some 'Z' then readStamp rest.dropLast
      else
        (readStamp rest).bind fun naive =>
          match (tzidOf (head ++ ':' :: rest)).bind p.zone with
          | some tz => (tz.ofLocal naive).earliest
          | none => (p.local_.ofLocal naive).earliest := by
  have hcolon : ':' ∈ head ++ ':' :: rest := mem_append_right _ mem_cons_self
  have hvalue : trim ((afterColon (head ++ ':' :: rest)).takeWhile fun c => c ≠ ',') = rest := timeValue_append h hrest
  unfold instantOf
  rw [if_pos hcolon]
  dsimp only
  rewrite [hvalue]
  rfl

theorem length_le_octets (s : Str) : s.length ≤ octets s := by
  induction s with
  | nil => exact le_refl 0
  | cons c s ih =>
    have hpos := Char.utf8Size_pos c
    have hcons : octets (c :: s) = c.utf8Size + octets s := rfl
    rw [length_cons, hcons]
    omega

/-- A time of day is written with more than eight octets. -/
theorem octets_stampText (t : Int) (more : Str) : octets (stampText t ++ more) ≠ 8 := by
  have hlen := length_le_octets (stampText t ++ more)
  have htext : (stampText t ++ more).length ≥ 11 := by
    simp only [stampText, dateText, pad2, length_append, length_cons, length_nil]
    omega
  omega

theorem instantOf_utc (p : Platform) {head : Str} (h : ':' ∉ head) (t : Int) : instantOf p (head ++ ':' :: utc t) =
    if FourDigit (held t / 86400) then some (held t) else none := by
  rw [instantOf_append p h fun c hc => plain_utc hc, if_neg (show octets (utc t) ≠ 8 from octets_stampText _ _), utc, getLast?_concat, if_pos rfl,
    dropLast_concat, readStamp_stampText_eq]

theorem instantOf_date (p : Platform) {head : Str} (h : ':' ∉ head) (t : Int) : instantOf p (head ++ ':' :: date t) =
    if FourDigit (held t / 86400) then some (held t / 86400 * 86400) else none := by
  have hplain : ∀ c ∈ date t, isWhitespace c = false ∧ c ≠ ',' := by
    intro c hc
    rcases mem_dateText hc with hd | rfl | rfl
    · exact ⟨isWhitespace_of_isDigit hd, by rintro rfl; exact absurd hd (by decide)⟩
    · decide
    · decide
  have hlast : (date t).getLast? ≠ some 'Z' := by
    intro hz
    rcases mem_dateText (mem_of_mem_getLast? hz) with hd | hd | hd <;> cases hd
  rw [instantOf_append p h hplain]
  by_cases hfour : FourDigit (held t / 86400)
  · have hone : ∀ c ∈ date t, c.utf8Size = 1 := by
      intro c hc
      rcases mem_dateText hc with hd | rfl | rfl
      · have hle : c.toNat ≤ 57 := (Char.isDigit_iff_toNat.mp hd).2
        rw [Char.utf8Size_eq_one_iff]
        show c.toNat ≤ 127
        omega
      · decide
      · decide
    have hoctets : octets (date t) = 8 := by
      unfold octets
      rw [map_congr_left hone, map_const', sum_replicate_nat, mul_one]
      exact length_dateText hfour
    rw [if_pos hoctets, if_pos hfour, date, readDate_dateText hfour]
    rfl
  · rw [if_neg hfour]
    by_cases hoctets : octets (date t) = 8
    · rw [if_pos hoctets, date, readDate_dateText_eq_none hfour]
      rfl
    · rw [if_neg hoctets, if_neg hlast, date, readStamp_dateText_eq_none hfour]
      rfl

theorem tzidOf_zone {name zone rest : Str} (hname : ':' ∉ name ∧ ';' ∉ name) (hzone : ∀ c ∈ zone, c ∉ [':', ';', '"']) :
    tzidOf (name ++ ";TZID=" ++ zone ++ ':' :: rest) = some zone := by
  have hsplit : name ++ ";TZID=" ++ zone ++ ':' :: rest = (name ++ ';' :: ("TZID=" ++ zone)) ++ ':' :: rest := by
    simp
  have hpiece : ∀ c ∈ "TZID=" ++ zone, c ∉ [':', ';'] := by
    intro c hc
    rcases mem_append.mp hc with hc | hc
    · exact (show ∀ x ∈ "TZID=".toList, x ∉ [':', ';'] by decide) c hc
    · exact fun hm => hzone c hc ((show [':', ';'] ⊆ [':', ';', '"'] by decide) hm)
  have hhead : ∀ c ∈ name ++ ';' :: ("TZID=" ++ zone), decide (c ≠ ':') = true := by
    intro c hc
    refine decide_eq_true ?_
    rintro rfl
    rcases mem_append.mp hc with hc | hc
    · exact hname.1 hc
    rcases mem_cons.mp hc with hc | hc
    · exact absurd hc (by decide)
    · exact hpiece _ hc (by decide)
  have hsemi : ';' ∉ "TZID=" ++ zone := fun hm => hpiece _ hm (by decide)
  have hquote : '"' ∉ zone := fun hm => hzone _ hm (by decide)
  have htrim : trimBy (fun c => decide (c = '"')) zone = zone := by
    refine trimBy_eq_self ⟨fun c hc => ?_, fun c hc => ?_⟩
    · exact decide_eq_false fun he => hquote (he ▸ mem_of_mem_head? hc)
    · exact decide_eq_false fun he => hquote (he ▸ mem_of_mem_getLast? hc)
  unfold tzidOf
  rw [hsplit, if_pos (mem_append_right _ mem_cons_self), takeWhile_append_of_pos hhead,
    takeWhile_cons_of_neg (by decide), append_nil, splitOn_append_cons_self_of_not_mem hname.2,
    splitOn_eq_singleton hsemi, tail_cons, findSome?_cons, stripPrefix_append]
  exact congrArg some htrim

/-- The line for a day. -/
theorem timeProperty_day (p : Platform) (name : Str) (t : Int) (zone : Option Str) :
    timeProperty p name t true zone = (name ++ ";VALUE=DATE") ++ ':' :: date t := by
  unfold timeProperty
  rw [if_pos rfl]
  simp

theorem notMem_day {name : Str} (h : ':' ∉ name) : ':' ∉ name ++ ";VALUE=DATE" :=
  fun hm => (mem_append.mp hm).elim h (by decide)

/-- **The times that are read back** from the line that is written for them. -/
theorem resolves_iff (p : Platform) {name : Str} (hname : ':' ∉ name ∧ ';' ∉ name) (t : Int) (allDay : Bool) (zone : Option Str) :
    instantOf p (timeProperty p name t allDay zone) = some t ↔ Resolves p zone allDay t := by
  have hepoch : ∀ x : Option Int, Calendar.representable t = false → (∀ y, x = some y → y = 0) → ¬ x = some t := by
    intro x hr hx he
    rw [hx t he] at hr
    exact absurd hr (by decide)
  have hheld : Calendar.representable t = true → held t = t := fun hr => if_pos hr
  have hheld' : Calendar.representable t = false → held t = 0 := fun hr => if_neg (by rw [hr]; decide)
  unfold Resolves
  cases allDay with
  | true =>
    rw [if_pos rfl, timeProperty_day, instantOf_date p (notMem_day hname.1)]
    cases hr : Calendar.representable t with
    | false =>
      refine iff_of_false (hepoch _ hr fun y hy => ?_) fun h => absurd h.1 (by decide)
      rw [hheld' hr] at hy
      split at hy
      · exact (Option.some.inj hy).symm
      · cases hy
    | true =>
      rw [hheld hr]
      split
      · next hfour =>
        rw [Option.some.injEq]
        constructor
        · exact fun h => ⟨rfl, by omega, hfour⟩
        · exact fun h => by omega
      · next hfour => exact iff_of_false (Option.some_ne_none t).symm fun h => hfour h.2.2
  | false =>
    unfold timeProperty
    rw [if_neg Bool.false_ne_true, if_neg Bool.false_ne_true]
    have hutc : instantOf p (name ++ ':' :: utc t) = some t ↔ Calendar.representable t = true ∧ FourDigit (t / 86400) := by
      rw [instantOf_utc p hname.1]
      cases hr : Calendar.representable t with
      | false =>
        refine iff_of_false (hepoch _ hr fun y hy => ?_) fun h => absurd h.1 (by decide)
        rw [hheld' hr] at hy
        split at hy
        · exact (Option.some.inj hy).symm
        · cases hy
      | true =>
        rw [hheld hr]
        split
        · next hfour => exact iff_of_true rfl ⟨rfl, hfour⟩
        · next hfour => exact iff_of_false (Option.some_ne_none t).symm fun h => hfour h.2
    unfold writtenZone
    cases zone.filter (fun z => !utcNames.contains z) with
    | none => exact hutc
    | some z =>
      simp only [Option.bind_some]
      cases hz : p.zone z with
      | none => exact hutc
      | some tz =>
        simp only
        cases hr : Calendar.representable t with
        | false =>
          rw [if_neg Bool.false_ne_true, hutc, hr]
          exact iff_of_false (fun h => absurd h.1 (by decide)) fun h => absurd h.1 (by decide)
        | true =>
          rw [if_pos rfl]
          have hzone : ∀ c ∈ z, c ∉ [':', ';', '"'] := by
            intro c hc hm
            rcases p.zone_chars z tz hz c hc with h | h
            · simp only [mem_cons, not_mem_nil, or_false] at hm
              rcases hm with rfl | rfl | rfl <;> exact absurd h (by decide)
            · simp only [mem_cons, not_mem_nil, or_false] at hm
              rcases hm with rfl | rfl | rfl <;> exact absurd h (by decide)
          have hhead : ':' ∉ name ++ ";TZID=" ++ z := by
            intro hm
            rcases mem_append.mp hm with hm | hm
            · exact (mem_append.mp hm).elim hname.1 (by decide)
            · exact hzone _ hm (by decide)
          have hoctets : octets (Civil.stampText (tz.toLocal t)) ≠ 8 := by
            have := octets_stampText (tz.toLocal t) []
            rwa [append_nil] at this
          rw [instantOf_append p hhead fun c hc => plain_stampText hc, if_neg hoctets, if_neg (getLast_stampText _),
            tzidOf_zone hname hzone, Option.bind_some, hz, readStamp_stampText_eq]
          split
          · next hfour =>
            rw [Option.bind_some]
            exact ⟨fun h => ⟨rfl, h, hfour⟩, fun h => h.2.1⟩
          · next hfour => exact iff_of_false (Option.some_ne_none t).symm fun h => hfour h.2.2

/-! ## Whole objects -/

/-- A line that neither begins nor ends an event, or an event that ends. -/
def Piece.Whole : Piece → Prop
  | .outer line => upper line ≠ BEGIN_VEVENT ∧ upper line ≠ END_VEVENT
  | .event open_ body close => upper open_ = BEGIN_VEVENT ∧ closes 0 body = true ∧ upper close = END_VEVENT

def Whole (ps : List Piece) : Prop := ∀ q ∈ ps, q.Whole

theorem Whole.object : ∀ {ps : List Piece}, Whole ps → Object ps
  | [], _ => trivial
  | .outer _ :: _, h =>
    have hps := forall_mem_cons.mp h
    ⟨fun hopen => absurd hopen hps.1.1, Whole.object hps.2⟩
  | .event _ _ _ :: _, h =>
    have hps := forall_mem_cons.mp h
    ⟨hps.1, Whole.object hps.2⟩

theorem Whole.pieces {ps : List Piece} (h : Whole ps) : pieces (flatten ps) = ps := pieces_flatten h.object

theorem scanLines_whole : ∀ {ps : List Piece}, Whole ps → ∀ (index depth : Nat) (found : List Component),
    ∃ depth', scanLines (flatten ps) index ⟨found, depth, none⟩ = .ok ⟨found ++ located index ps, depth', none⟩
  | [], _, _, depth, found => ⟨depth, by rw [located, append_nil]; rfl⟩
  | .outer line :: ps, h, index, depth, found => by
    obtain ⟨⟨hopen, hclose⟩, hps⟩ := forall_mem_cons.mp h
    have hline : scanLine ⟨found, depth, none⟩ index line = .ok ⟨found, depth, none⟩ := by
      unfold scanLine
      rw [if_neg hopen, if_neg (by simp), if_neg (by simp), if_neg hclose]
    rw [flatten_outer, scanLines, hline, located]
    exact scanLines_whole hps (index + 1) depth found
  | .event open_ body close :: ps, h, index, depth, found => by
    obtain ⟨⟨hopen, hbody, hclose⟩, hps⟩ := forall_mem_cons.mp h
    have hline : scanLine ⟨found, depth, none⟩ index open_ = .ok ⟨found, 0, some ⟨index, index, none, []⟩⟩ := by
      unfold scanLine
      rw [if_pos hopen]
    have hend : index + 1 + body.length = index + body.length + 1 := by omega
    rw [flatten_event, scanLines, hline]
    simp only
    rw [scanLines_event hclose body _ found 0 (index + 1) _ hbody, hend]
    obtain ⟨depth', hrest⟩ := scanLines_whole hps (index + body.length + 2) 0 (found ++ [eventAt index body])
    rw [append_assoc, singleton_append] at hrest
    exact ⟨depth', hrest⟩

variable {ps : List Piece}

theorem components_whole (h : Whole ps) (hne : located 0 ps ≠ []) : components (flatten ps) = .ok (located 0 ps) := by
  obtain ⟨depth, hscan⟩ := scanLines_whole h 0 0 []
  unfold components
  rw [hscan, nil_append]
  exact if_neg (by rwa [List.isEmpty_iff])

theorem located_ne_nil {open_ close : Str} {body : List Str} (h : Piece.event open_ body close ∈ ps) :
    ∀ index, located index ps ≠ [] := by
  induction ps with
  | nil => cases h
  | cons q ps ih =>
    intro index
    cases q with
    | event o b c => exact cons_ne_nil _ _
    | outer line => exact ih ((mem_cons.mp h).resolve_left nofun) (index + 1)

/-! ## The exceptions of one occurrence -/

section Exceptions

variable (p : Platform) (t : Int)

/-- An exception that stands for the occurrence. -/
def isException : Piece → Bool
  | .outer _ => false
  | .event _ body _ => (recurrenceIdOf body).bind (instantOf p) = some t

/-- What is left without them. -/
def without (ps : List Piece) : List Piece := ps.filter (fun q => !isException p t q)

variable {p t}

theorem isFor_eventAt (index : Nat) (body : List Str) :
    isFor p t (eventAt index body) = decide ((recurrenceIdOf body).bind (instantOf p) = some t) := by
  unfold isFor
  rw [eventAt_recurrenceId]

theorem located_begin : ∀ {ps : List Piece} {index : Nat} {c : Component}, c ∈ located index ps → index ≤ c.begin_
  | [], _, _, h => by cases h
  | .outer _ :: ps, index, c, h => le_trans (Nat.le_succ index) (@located_begin ps _ _ h)
  | .event _ body _ :: ps, index, c, h => by
    rcases mem_cons.mp h with rfl | h
    · exact le_of_eq (eventAt_begin index body).symm
    · exact le_trans (by omega) (@located_begin ps _ _ h)

/-- The line at a place is in one of these events. -/
def covers (drop : List Component) (l : Str × Nat) : Bool := drop.any (fun c => c.begin_ ≤ l.2 && l.2 ≤ c.end_)

theorem covers_iff {drop : List Component} {l : Str × Nat} :
    covers drop l = true ↔ ∃ c ∈ drop, c.begin_ ≤ l.2 ∧ l.2 ≤ c.end_ := by
  unfold covers
  simp only [any_eq_true, Bool.and_eq_true, decide_eq_true_eq]

/-- Line by line, after the events before, which all end before. -/
theorem withoutOverride_from : ∀ (ps : List Piece) (index : Nat) (past : List Component), (∀ c ∈ past, c.end_ < index) →
    (((flatten ps).zipIdx index).filter (fun l => !covers (past ++ (located index ps).filter (isFor p t)) l)).map Prod.fst =
      flatten (without p t ps)
  | [], _, _, _ => rfl
  | .outer line :: ps, index, past, hpast => by
    have hline : covers (past ++ (located (index + 1) ps).filter (isFor p t)) (line, index) = false := by
      rw [Bool.eq_false_iff]
      intro h
      obtain ⟨c, hc, hb, he⟩ := covers_iff.mp h
      rcases mem_append.mp hc with hc | hc
      · exact absurd (hpast c hc) (by simp only at he; omega)
      · exact absurd (located_begin (mem_of_mem_filter hc)) (by simp only at hb; omega)
    have hwithout : without p t (.outer line :: ps) = .outer line :: without p t ps := filter_cons_of_pos rfl
    rw [flatten_outer, zipIdx_cons, located, filter_cons_of_pos (by rw [hline]; rfl), map_cons,
      withoutOverride_from ps (index + 1) past fun c hc => Nat.lt_succ_of_lt (hpast c hc), hwithout, flatten_outer]
  | .event open_ body close :: ps, index, past, hpast => by
    have hlen : (open_ :: (body ++ [close])).length = body.length + 2 := by simp
    have hsplit : flatten (.event open_ body close :: ps) = (open_ :: (body ++ [close])) ++ flatten ps := rfl
    have hend : (eventAt index body).end_ = index + body.length + 1 := eventAt_end index body
    rw [hsplit, zipIdx_append, filter_append, map_append, hlen, located, ← Nat.add_assoc]
    by_cases hfor : isFor p t (eventAt index body) = true
    · have hdropped : without p t (.event open_ body close :: ps) = without p t ps :=
        filter_cons_of_neg (by rw [isFor_eventAt] at hfor; simp only [isException, hfor]; decide)
      have hown : ((open_ :: (body ++ [close])).zipIdx index).filter (fun l =>
          !covers (past ++ (eventAt index body :: located (index + body.length + 2) ps).filter (isFor p t)) l) = [] := by
        refine filter_eq_nil_iff.mpr fun l hl => ?_
        have hlow := le_snd_of_mem_zipIdx hl
        have hhigh := snd_lt_add_of_mem_zipIdx hl
        rw [hlen] at hhigh
        have hcovered : covers (past ++ (eventAt index body :: located (index + body.length + 2) ps).filter (isFor p t)) l = true := by
          refine covers_iff.mpr ⟨eventAt index body, ?_, ?_, ?_⟩
          · rw [filter_cons_of_pos hfor]
            exact mem_append_right _ mem_cons_self
          · rw [eventAt_begin]
            exact hlow
          · rw [hend]
            omega
        rw [hcovered]
        decide
      have hpast' : ∀ c ∈ past ++ [eventAt index body], c.end_ < index + body.length + 2 := by
        intro c hc
        rcases mem_append.mp hc with hc | hc
        · exact lt_of_lt_of_le (hpast c hc) (by omega)
        · rw [mem_singleton.mp hc, hend]
          omega
      have hrest := withoutOverride_from ps (index + body.length + 2) (past ++ [eventAt index body]) hpast'
      rw [hown, map_nil, nil_append, hdropped, ← hrest, filter_cons_of_pos hfor, append_assoc, singleton_append]
    · have hkept : without p t (.event open_ body close :: ps) = .event open_ body close :: without p t ps :=
        filter_cons_of_pos (by rw [isFor_eventAt, Bool.not_eq_true] at hfor; simp only [isException, hfor]; decide)
      have hown : ((open_ :: (body ++ [close])).zipIdx index).filter (fun l =>
          !covers (past ++ (located (index + body.length + 2) ps).filter (isFor p t)) l) =
            (open_ :: (body ++ [close])).zipIdx index := by
        refine filter_eq_self.mpr fun l hl => ?_
        have hlow := le_snd_of_mem_zipIdx hl
        have hhigh := snd_lt_add_of_mem_zipIdx hl
        rw [hlen] at hhigh
        rw [Bool.not_eq_true', Bool.eq_false_iff]
        intro h
        obtain ⟨c, hc, hb, he⟩ := covers_iff.mp h
        rcases mem_append.mp hc with hc | hc
        · have := hpast c hc
          omega
        · have := located_begin (mem_of_mem_filter hc)
          omega
      have hpast' : ∀ c ∈ past, c.end_ < index + body.length + 2 := fun c hc => lt_of_lt_of_le (hpast c hc) (by omega)
      rw [filter_cons_of_neg hfor, hown, zipIdx_map_fst, withoutOverride_from ps _ past hpast', hkept]
      rfl

/-- **The exceptions of one occurrence are taken out**, and nothing else. -/
theorem withoutOverride_flatten (ps : List Piece) : withoutOverride p (flatten ps) (located 0 ps) t = flatten (without p t ps) :=
  withoutOverride_from ps 0 [] (forall_mem_nil _)

end Exceptions

/-! ## Objects with a main event -/

theorem Whole.filter (h : Whole ps) (f : Piece → Bool) : Whole (ps.filter f) :=
  fun q hq => h q (mem_of_mem_filter hq)

theorem without_whole {p : Platform} {t : Int} (h : Whole ps) : Whole (without p t ps) := h.filter _

theorem without_append (p : Platform) (t : Int) (ps qs : List Piece) :
    without p t (ps ++ qs) = without p t ps ++ without p t qs := filter_append ..

theorem without_without (p : Platform) (t : Int) (ps : List Piece) : without p t (without p t ps) = without p t ps := by
  unfold without
  rw [filter_filter]
  exact filter_congr fun q _ => Bool.and_self _

theorem exceptions_without (p : Platform) (t : Int) (ps : List Piece) : (without p t ps).filter (isException p t) = [] := by
  refine filter_eq_nil_iff.mpr fun q hq he => ?_
  have hno := of_mem_filter hq
  rw [he] at hno
  exact absurd hno (by decide)

/-- The event itself, as a piece of the object. -/
def MainEvent.piece (m : MainEvent) : Piece := .event m.open_ m.body m.close

/-- An event that is no exception. -/
def isMain : Piece → Bool
  | .outer _ => false
  | .event _ body _ => (recurrenceIdOf body).isNone

theorem find?_isMain (ps : List Piece) : ps.find? isMain = (mainOf ps).map MainEvent.piece := by
  induction ps with
  | nil => rfl
  | cons piece ps ih =>
    cases piece with
    | outer line =>
      rw [find?_cons_of_neg Bool.false_ne_true, ih, mainOf, Option.map_map]
      rfl
    | event open_ body close =>
      rw [mainOf]
      cases hid : recurrenceIdOf body with
      | none =>
        have hmain : isMain (.event open_ body close) = true := by rw [isMain, hid]; rfl
        rw [find?_cons_of_pos hmain, if_pos rfl]
        rfl
      | some line =>
        have hmain : ¬ isMain (.event open_ body close) = true := by rw [isMain, hid]; exact Bool.false_ne_true
        rw [find?_cons_of_neg hmain, if_neg (Option.some_ne_none _), ih, Option.map_map]
        rfl

theorem MainEvent.piece_inj {m m' : MainEvent} (h : m'.piece = m.piece) :
    m'.open_ = m.open_ ∧ m'.body = m.body ∧ m'.close = m.close := by
  unfold MainEvent.piece at h
  injection h with h1 h2 h3
  exact ⟨h1, h2, h3⟩

/-- Two objects with the same first event of this kind. -/
theorem mainOf_of_find? {qs : List Piece} {m : MainEvent} (h : mainOf ps = some m) (hsame : qs.find? isMain = ps.find? isMain) :
    ∃ m', mainOf qs = some m' ∧ m'.piece = m.piece := by
  rw [find?_isMain, find?_isMain, h, Option.map_some, Option.map_eq_some_iff] at hsame
  exact hsame

/-- Taking exceptions out leaves the main event. -/
theorem find?_isMain_without (p : Platform) (t : Int) (ps : List Piece) : (without p t ps).find? isMain = ps.find? isMain := by
  unfold without
  rw [find?_filter]
  congr 1
  funext q
  cases q with
  | outer line => rfl
  | event open_ body close =>
    cases hid : recurrenceIdOf body with
    | none => simp [isMain, isException, hid]
    | some line => simp [isMain, hid]

def END_VCALENDAR : Str := "END:VCALENDAR"

/-- A calendar object: its events all end, one of them is the main one, and the last line that ends a calendar stands
outside of the events. -/
structure CalendarObject (ics : Str) (m : MainEvent) : Prop where
  whole : Whole (pieces (unfold ics))
  main : mainOf (pieces (unfold ics)) = some m
  closed : ∃ front close back, pieces (unfold ics) = front ++ .outer close :: back ∧ upper close = END_VCALENDAR ∧
    ∀ line ∈ flatten back, upper line ≠ END_VCALENDAR

/-- The zone of the series: what its first date names. -/
def mainZone (m : MainEvent) : Option Str := ((m.open_ :: m.body).find? (named "DTSTART")).bind tzidOf

section Objects

variable {ics : Str} {m : MainEvent}

theorem CalendarObject.components (h : CalendarObject ics m) :
    components (unfold ics) = .ok (located 0 (pieces (unfold ics))) := by
  have hmem : m.piece ∈ pieces (unfold ics) := by
    rw [(mainOf_some h.main).1]
    exact mem_append_right _ mem_cons_self
  have hall := components_whole h.whole (located_ne_nil hmem 0)
  rwa [flatten_pieces] at hall

theorem master_of_main {ps : List Piece} (h : mainOf ps = some m) :
    master (located 0 ps) = .ok (eventAt (flatten m.before).length m.body) := by
  unfold master
  rw [master_located, h, Option.map_some, Nat.zero_add]

theorem inPlace_main {ps : List Piece} (h : mainOf ps = some m) :
    InPlace (flatten ps) (eventAt (flatten m.before).length m.body) (flatten m.before) m.open_ m.body
      (m.close :: flatten m.after) := by
  rw [(mainOf_some h).1]
  exact inPlace_around ..

theorem CalendarObject.within (h : CalendarObject ics m) :
    within (unfold ics) (eventAt (flatten m.before).length m.body) = m.open_ :: m.body := by
  have hplace := (inPlace_main h.main).within
  rwa [flatten_pieces] at hplace

end Objects

/-! ## Lines put in and taken out -/

variable {lines : List Str}

theorem clean_cons {line : Str} : Clean (line :: lines) ↔ (line ≠ [] ∧ '\n' ∉ line) ∧ ∀ l ∈ lines, Fine l := by
  constructor
  · intro h
    exact ⟨h.solid line mem_cons_self, fun l hl =>
      ⟨(h.solid l (mem_cons_of_mem _ hl)).1, (h.solid l (mem_cons_of_mem _ hl)).2, h.starts l hl⟩⟩
  · rintro ⟨hline, hlines⟩
    refine ⟨fun l hl => ?_, fun l hl => (hlines l hl).2.2⟩
    rcases mem_cons.mp hl with rfl | hl
    · exact hline
    · exact ⟨(hlines l hl).1, (hlines l hl).2.1⟩

theorem clean_of_fine (h : ∀ l ∈ lines, Fine l) : Clean lines :=
  ⟨fun l hl => ⟨(h l hl).1, (h l hl).2.1⟩, fun l hl => (h l (mem_of_mem_tail hl)).2.2⟩

theorem clean_sublist {lines' : List Str} (h : Clean lines) (hsub : lines'.Sublist lines) : Clean lines' := by
  induction hsub with
  | slnil => exact h
  | cons line hsub ih =>
    exact clean_of_fine fun l hl => (clean_cons.mp h).2 l (hsub.subset hl)
  | cons_cons line hsub ih =>
    exact clean_cons.mpr ⟨(clean_cons.mp h).1, fun l hl => (clean_cons.mp h).2 l (hsub.subset hl)⟩

/-- Lines that may stand anywhere, put before others of that kind. -/
theorem clean_insert {u v new : List Str} (h : Clean (u ++ v)) (hnew : ∀ l ∈ new, Fine l) (hv : ∀ l ∈ v, Fine l) :
    Clean (u ++ (new ++ v)) := by
  have hrest : ∀ l ∈ new ++ v, Fine l := fun l hl => (mem_append.mp hl).elim (hnew l) (hv l)
  cases u with
  | nil => exact clean_of_fine hrest
  | cons line u =>
    obtain ⟨hline, hlines⟩ := clean_cons.mp h
    refine clean_cons.mpr ⟨hline, fun l hl => ?_⟩
    rcases mem_append.mp hl with hl | hl
    · exact hlines l (mem_append_left _ hl)
    · exact hrest l hl

/-- What follows a line may stand anywhere. -/
theorem fine_after {u v : List Str} {line : Str} (h : Clean (u ++ line :: v)) : ∀ l ∈ v, Fine l := by
  intro l hl
  cases u with
  | nil => exact (clean_cons.mp h).2 l hl
  | cons first u => exact (clean_cons.mp h).2 l (mem_append_right _ (mem_cons_of_mem _ hl))

theorem fine_close {close : Str} (h : upper close = END_VCALENDAR) (hbreak : '\n' ∉ close) : Fine close := by
  cases close with
  | nil => cases h
  | cons c cs =>
    refine ⟨cons_ne_nil _ _, hbreak, continuation_eq_none.mpr ?_⟩
    have hfirst : c.toUpper = 'E' := (List.cons.inj h).1
    rintro (rfl | rfl) <;> exact absurd hfirst (by decide)

theorem flatten_without_sublist (p : Platform) (t : Int) (ps : List Piece) :
    (flatten (without p t ps)).Sublist (flatten ps) := filter_sublist.flatMap Piece.lines

/-- The last line that ends a calendar, searched from the back. -/
theorem findIdx?_reverse {u v : List Str} {close : Str} (hclose : upper close = END_VCALENDAR)
    (hv : ∀ line ∈ v, upper line ≠ END_VCALENDAR) :
    (u ++ close :: v).reverse.findIdx? (fun line => upper line = "END:VCALENDAR") = some v.length := by
  have hnone : v.reverse.findIdx? (fun line => decide (upper line = "END:VCALENDAR")) = none := by
    rw [findIdx?_eq_none_iff]
    exact fun line hline => decide_eq_false (hv line (mem_reverse.mp hline))
  have hfound : decide (upper close = "END:VCALENDAR") = true := decide_eq_true hclose
  have hsplit : (u ++ close :: v).reverse = v.reverse ++ close :: u.reverse := by simp
  rw [hsplit, findIdx?_append, hnone, findIdx?_cons, hfound]
  simp

/-! ## The exception that is put in -/

section NewException

variable (p : Platform) (m : MainEvent) (event : Event) (uid : Str) (t now next : Int)

/-- The people of the series, for the exception. -/
def keptPeople : List Str := m.body.filter isPerson

/-- What stands in the exception before the people of the edit. -/
def exceptionBody : List Str :=
  ["UID:" ++ uid, timeProperty p "RECURRENCE-ID" t event.allDay (mainZone m)] ++
    ownedLines p event (mainZone m) now ++ [sequenceLine next] ++ keptPeople m ++
    alarm event.reminderMinutes event.subject

variable {p m event uid t now next}

/-- The lines of the exception before its alarm. -/
theorem exceptionBody_name (huid : '\n' ∉ uid) {line : Str}
    (h : line ∈ ["UID:" ++ uid, timeProperty p "RECURRENCE-ID" t event.allDay (mainZone m)] ++
      ownedLines p event (mainZone m) now ++ [sequenceLine next]) :
    ∃ name, (name ∈ OWNED ∨ name ∈ ["UID".toList, "RECURRENCE-ID".toList, "SEQUENCE".toList]) ∧ Written name line := by
  rcases mem_append.mp h with h | h
  · rcases mem_append.mp h with h | h
    · rcases mem_cons.mp h with rfl | h
      · exact ⟨"UID", .inr (by decide), .of_append (by decide) (by decide) (.inl rfl) huid⟩
      · rw [mem_singleton.mp h]
        exact ⟨"RECURRENCE-ID", .inr (by decide), written_timeProperty p (by decide) (by decide) _ _ _⟩
    · obtain ⟨name, hname, hw⟩ := mem_ownedLines h
      exact ⟨name, .inl hname, hw⟩
  · rw [mem_singleton.mp h]
    exact ⟨"SEQUENCE", .inr (by decide), written_sequenceLine next⟩

theorem exceptionBody_plain (huid : '\n' ∉ uid) {line : Str}
    (h : line ∈ ["UID:" ++ uid, timeProperty p "RECURRENCE-ID" t event.allDay (mainZone m)] ++
      ownedLines p event (mainZone m) now ++ [sequenceLine next] ++ keptPeople m) :
    nameOf line ≠ "BEGIN" ∧ nameOf line ≠ "END" := by
  rcases mem_append.mp h with h | h
  · obtain ⟨name, hname, hw⟩ := exceptionBody_name huid h
    rw [hw.name_eq]
    constructor <;> (rintro rfl; exact absurd hname (by decide))
  · exact isPerson_plain (of_mem_filter h)

theorem exceptionBody_closes (huid : '\n' ∉ uid) : closes 0 (exceptionBody p m event uid t now next) = true :=
  closes_append (alarm_spec (fun _ => false) _ _).2.1 _ 0 (closes_of_names fun _ hline => exceptionBody_plain huid hline)

theorem exceptionBody_fine (huid : '\n' ∉ uid) (hbody : ∀ line ∈ m.body, Fine line) :
    ∀ line ∈ exceptionBody p m event uid t now next, Fine line := by
  intro line hline
  rcases mem_append.mp hline with hline | hline
  · rcases mem_append.mp hline with hline | hline
    · obtain ⟨name, hname, hw⟩ := exceptionBody_name huid hline
      refine hw.fine ?_
      rintro rfl
      exact absurd hname (by decide)
    · exact hbody line (mem_of_mem_filter hline)
  · exact (newLines_alarm false _ _).fine line hline

/-- The lines of the exception under a name, but for the people. -/
theorem exceptionBody_own (huid : '\n' ∉ uid) {name : Str} (horganizer : name ≠ "ORGANIZER")
    (hattendee : name ≠ "ATTENDEE") : (ownLines 0 (exceptionBody p m event uid t now next)).filter (named name) =
      (if "UID" = name then ["UID:" ++ uid] else []) ++
      (if "RECURRENCE-ID" = name then [timeProperty p "RECURRENCE-ID" t event.allDay (mainZone m)] else []) ++
      (ownLines 0 (ownedLines p event (mainZone m) now)).filter (named name) ++
      (if "SEQUENCE" = name then [sequenceLine next] else []) := by
  have hpeople : (keptPeople m).filter (named name) = [] := by
    refine filter_eq_nil_iff.mpr fun line hline hn => ?_
    rcases isPerson_name (of_mem_filter hline) with hperson | hperson
    · exact horganizer ((named_iff.mp hn).symm.trans hperson)
    · exact hattendee ((named_iff.mp hn).symm.trans hperson)
  have hsplit : ∀ a b : Str, [a, b] = [a] ++ [b] := fun _ _ => rfl
  have huidLine : Written "UID" ("UID:" ++ uid) := .of_append (by decide) (by decide) (.inl rfl) huid
  rw [exceptionBody, ownLines_append _ _ 0 (closes_of_names fun _ hline => exceptionBody_plain huid hline),
    (alarm_spec (fun _ => false) _ _).2.2.1, append_nil, ownLines_of_names fun _ hline => exceptionBody_plain huid hline,
    hsplit, ownLines_of_names plain_ownedLines]
  simp only [filter_append]
  rw [huidLine.filter, (written_timeProperty p (by decide) (by decide) _ _ _).filter, (written_sequenceLine next).filter, hpeople,
    append_nil]

theorem exceptionBody_recurrenceId (huid : '\n' ∉ uid) : recurrenceIdOf (exceptionBody p m event uid t now next) =
    some (timeProperty p "RECURRENCE-ID" t event.allDay (mainZone m)) := by
  have hown := @exceptionBody_own p m event uid t now next huid "RECURRENCE-ID" (by decide) (by decide)
  rw [if_neg (by decide), if_pos rfl, if_neg (by decide), filter_ownedLines p _ _ _ (by decide) (by decide), if_neg (by decide),
    if_neg (by decide), if_neg (by decide), if_neg (by decide)] at hown
  unfold recurrenceIdOf
  rw [hown]
  rfl

/-- The exception carries the edit: its subject, and the lines for its times. -/
def Carries (p : Platform) (zone : Option Str) (event : Event) (body : List Str) : Prop :=
  (ownLines 0 body).filter (named "SUMMARY") = ["SUMMARY:" ++ escape event.subject] ∧
  (ownLines 0 body).filter (named "DTSTART") = [timeProperty p "DTSTART" event.start event.allDay zone] ∧
  (ownLines 0 body).filter (named "DTEND") = [timeProperty p "DTEND" (shownEnd event) event.allDay zone]

theorem exceptionBody_carries (huid : '\n' ∉ uid) : Carries p (mainZone m) event (exceptionBody p m event uid t now next) := by
  have hown : ∀ {name : Str}, name ∈ ["SUMMARY".toList, "DTSTART".toList, "DTEND".toList] →
      (ownLines 0 (exceptionBody p m event uid t now next)).filter (named name) =
        (ownLines 0 (ownedLines p event (mainZone m) now)).filter (named name) := by
    intro name hname
    have hne : ∀ other : Str, other ∉ ["SUMMARY".toList, "DTSTART".toList, "DTEND".toList] → name ≠ other :=
      fun other hother he => hother (he ▸ hname)
    rw [exceptionBody_own huid (hne _ (by decide)) (hne _ (by decide)),
      if_neg (hne _ (by decide)).symm, if_neg (hne _ (by decide)).symm, if_neg (hne _ (by decide)).symm]
    rw [nil_append, nil_append, append_nil]
  refine ⟨?_, ?_, ?_⟩
  · rw [hown (by decide), filter_ownedLines p _ _ _ (by decide) (by decide), if_neg (by decide), if_neg (by decide),
      if_neg (by decide), if_pos rfl]
    rfl
  · rw [hown (by decide), ownLines_ownedLines]
  · rw [hown (by decide), filter_ownedLines p _ _ _ (by decide) (by decide), if_neg (by decide), if_neg (by decide),
      if_pos rfl, if_neg (by decide)]
    rfl

theorem PeopleKept.carries {removed body body' : List Str} {zone : Option Str} (h : PeopleKept removed body body')
    (hbody : closes 0 body = true) (hcarries : Carries p zone event body) : Carries p zone event body' := by
  obtain ⟨h1, h2, h3⟩ := hcarries
  refine ⟨?_, ?_, ?_⟩
  · rw [h.own hbody (by decide) (by decide), h1]
  · rw [h.own hbody (by decide) (by decide), h2]
  · rw [h.own hbody (by decide) (by decide), h3]

end NewException

/-! ## Putting it in -/

section Put

variable {p : Platform} {ics : Str} {m : MainEvent} {event : Event} {uid : Str} {t : Int}

theorem isPerson_first {ps : List Piece} (h : Object ps) (hm : mainOf ps = some m) : nameOf m.open_ = "BEGIN" := by
  refine nameOf_of_begins (begins_of_eq (@Object.closes_mem ps h m.open_ m.body m.close ?_).1)
  rw [(mainOf_some hm).1]
  exact mem_append_right _ mem_cons_self

/-- No event here stands for the occurrence. -/
theorem find?_located {ps : List Piece} (h : ps.filter (isException p t) = []) :
    ∀ index, (located index ps).find? (isFor p t) = none := by
  induction ps with
  | nil => exact fun _ => rfl
  | cons q ps ih =>
    have hall := filter_eq_nil_iff.mp h
    have hrest : ps.filter (isException p t) = [] := filter_eq_nil_iff.mpr fun r hr => hall r (mem_cons_of_mem _ hr)
    intro index
    cases q with
    | outer line => exact ih hrest (index + 1)
    | event open_ body close =>
      have hno : ¬ isFor p t (eventAt index body) = true := by
        rw [isFor_eventAt]
        exact hall _ mem_cons_self
      rw [located, find?_cons_of_neg hno]
      exact ih hrest _

/-- The object with the exception, before the people of the edit. -/
def withException (p : Platform) (t : Int) (front : List Piece) (body : List Str) (close : Str) (back : List Piece) : List Piece :=
  without p t front ++ .event BEGIN_VEVENT body END_VEVENT :: .outer close :: without p t back

theorem withException_whole {front back : List Piece} {close : Str} {body : List Str}
    (h : Whole (front ++ .outer close :: back)) (hbody : closes 0 body = true) : Whole (withException p t front body close back) := by
  intro q hq
  rcases mem_append.mp hq with hq | hq
  · exact h q (mem_append_left _ (mem_of_mem_filter hq))
  rcases mem_cons.mp hq with rfl | hq
  · exact ⟨(by decide), hbody, (by decide)⟩
  rcases mem_cons.mp hq with rfl | hq
  · exact h _ (mem_append_right _ mem_cons_self)
  · exact h q (mem_append_right _ (mem_cons_of_mem _ (mem_of_mem_filter hq)))

theorem without_around (front : List Piece) (close : Str) (back : List Piece) :
    without p t (front ++ .outer close :: back) = without p t front ++ .outer close :: without p t back := by
  rw [without_append]
  exact congrArg (without p t front ++ ·) (filter_cons_of_pos rfl)

/-- What `put_override` does to an object. -/
theorem putOverride_eq (h : CalendarObject ics m) (hid : occurrenceOf event.id = some (uid, t)) (huid : '\n' ∉ uid)
    {front back : List Piece} {close : Str} (hps : pieces (unfold ics) = front ++ .outer close :: back)
    (hclose : upper close = END_VCALENDAR) (hback : ∀ line ∈ flatten back, upper line ≠ END_VCALENDAR) (removed : List Str)
    (now : Int) : ∃ next, putOverride p ics event removed now =
      if instantOf p (timeProperty p "RECURRENCE-ID" t event.allDay (mainZone m)) = some t then
        .ok (render (mergePeople (flatten (withException p t front (exceptionBody p m event uid t now next) close back))
          (eventAt (flatten (without p t front)).length (exceptionBody p m event uid t now next)) event removed))
      else .error damaged := by
  have hwhole := h.whole
  rw [hps] at hwhole
  unfold putOverride
  rw [hid]
  simp only [bind, Except.bind, h.components, master_of_main h.main, h.within]
  generalize I64.wrap _ = next
  refine ⟨next, ?_⟩
  have hlines : withoutOverride p (unfold ics) (located 0 (pieces (unfold ics))) t =
      flatten (without p t front) ++ close :: flatten (without p t back) := by
    have hout := @withoutOverride_flatten p t (pieces (unfold ics))
    rw [flatten_pieces] at hout
    rw [hout, hps, without_around, flatten_append, flatten_outer]
  have hback' : ∀ line ∈ flatten (without p t back), upper line ≠ END_VCALENDAR :=
    fun line hline => hback line ((flatten_without_sublist p t back).subset hline)
  have hpeople : (m.open_ :: m.body).filter (fun line => named "ORGANIZER" line || named "ATTENDEE" line) =
      keptPeople m := by
    refine filter_cons_of_neg ?_
    have hopen := isPerson_first h.whole.object h.main
    intro hperson
    rcases isPerson_name hperson with hn | hn <;> exact absurd (hopen.symm.trans hn) (by decide)
  have hat : (flatten (without p t front) ++ close :: flatten (without p t back)).length - 1 - (flatten (without p t back)).length =
      (flatten (without p t front)).length := by
    rw [length_append, length_cons]
    omega
  rw [hlines, hpeople, findIdx?_reverse hclose hback']
  simp only [hat, take_left, drop_left]
  have hnew : flatten (without p t front) ++
      (["BEGIN:VEVENT".toList, "UID:".toList ++ uid, timeProperty p "RECURRENCE-ID".toList t event.allDay (mainZone m)] ++
        ownedLines p event (mainZone m) now ++ [sequenceLine next] ++ keptPeople m ++
        alarm event.reminderMinutes event.subject ++ ["END:VEVENT".toList]) ++ close :: flatten (without p t back) =
      flatten (withException p t front (exceptionBody p m event uid t now next) close back) := by
    rw [withException, flatten_append, flatten_event, flatten_outer, exceptionBody]
    simp only [append_assoc, cons_append, nil_append]
    rfl
  have hwhole' := @withException_whole p t front back close _ hwhole (@exceptionBody_closes p m event uid t now next huid)
  rw [show ((m.open_ :: m.body).find? (named "DTSTART")).bind tzidOf = mainZone m from rfl, hnew,
    components_whole hwhole' (located_ne_nil (mem_append_right _ mem_cons_self) 0)]
  simp only
  rw [withException, located_append, find?_append, find?_located (exceptions_without p t front), Option.none_or, located]
  have hfor : ∀ index, isFor p t (eventAt index (exceptionBody p m event uid t now next)) =
      decide (instantOf p (timeProperty p "RECURRENCE-ID" t event.allDay (mainZone m)) = some t) := by
    intro index
    rw [isFor_eventAt, exceptionBody_recurrenceId huid]
    rfl
  by_cases hread : instantOf p (timeProperty p "RECURRENCE-ID" t event.allDay (mainZone m)) = some t
  · rw [find?_cons_of_pos (by rw [hfor]; exact decide_eq_true hread), if_pos hread, Nat.zero_add]
  · have hrest : ∀ index, (located index (.outer close :: without p t back)).find? (isFor p t) = none :=
      fun index => find?_located (exceptions_without p t back) (index + 1)
    rw [find?_cons_of_neg (by rw [hfor]; exact fun hd => hread (of_decide_eq_true hd)), hrest, if_neg hread]

/-- The occurrence has one exception, of which this holds; everything else is as before. -/
def Overridden (p : Platform) (t : Int) (carries : List Str → Prop) (ps ps' : List Piece) : Prop :=
  (∃ open_ body close, ps'.filter (isException p t) = [.event open_ body close] ∧ carries body) ∧ without p t ps' = without p t ps

/-- **An exception that is put in** is the only one of its occurrence, in an object with the same main event. -/
theorem putOverride_whole (h : CalendarObject ics m) (hid : occurrenceOf event.id = some (uid, t)) (huid : '\n' ∉ uid)
    {removed : List Str} (hplain : PlainAddresses event removed) (now : Int)
    (hread : instantOf p (timeProperty p "RECURRENCE-ID" t event.allDay (mainZone m)) = some t) :
    ∃ out m', putOverride p ics event removed now = .ok out ∧ CalendarObject out m' ∧ m'.piece = m.piece ∧
      Overridden p t (Carries p (mainZone m) event) (pieces (unfold ics)) (pieces (unfold out)) := by
  obtain ⟨front, close, back, hps, hclose, hback⟩ := h.closed
  obtain ⟨next, hput⟩ := putOverride_eq (p := p) h hid huid hps hclose hback removed now
  rw [if_pos hread] at hput
  obtain ⟨body, hmerge, hkept, hmem⟩ := mergePeople_event hplain (inPlace_around (without p t front) BEGIN_VEVENT
    (exceptionBody p m event uid t now next) END_VEVENT (.outer close :: without p t back))
  have hnew : mergePeople (flatten (withException p t front (exceptionBody p m event uid t now next) close back))
      (eventAt (flatten (without p t front)).length (exceptionBody p m event uid t now next)) event removed =
      flatten (withException p t front body close back) := by
    rw [withException, hmerge, withException, flatten_around]
  rw [hnew] at hput
  have hcloses : closes 0 body = true := hkept.closed (exceptionBody_closes huid)
  have hrecurrence : recurrenceIdOf body = some (timeProperty p "RECURRENCE-ID" t event.allDay (mainZone m)) :=
    (hkept.recurrenceId (exceptionBody_closes huid)).trans (exceptionBody_recurrenceId huid)
  have hwhole := h.whole
  rw [hps] at hwhole
  have hwhole' := @withException_whole p t front back close body hwhole hcloses
  -- the object can be written and read back
  have hlines : unfold ics = flatten front ++ close :: flatten back := by
    rw [← flatten_pieces (unfold ics), hps, flatten_append, flatten_outer]
  have hclean := unfold_clean ics
  have hmain : unfold ics = flatten m.before ++ m.open_ :: (m.body ++ m.close :: flatten m.after) := by
    rw [← flatten_around, ← (mainOf_some h.main).1, flatten_pieces]
  have hbody : ∀ line ∈ m.body, Fine line := by
    rw [hmain] at hclean
    exact fun line hline => fine_after hclean line (mem_append_left _ hline)
  have hfineNew : ∀ line ∈ BEGIN_VEVENT :: (body ++ [END_VEVENT]), Fine line := by
    intro line hline
    rcases mem_cons.mp hline with rfl | hline
    · exact ⟨by decide, by decide, by decide⟩
    rcases mem_append.mp hline with hline | hline
    · exact (hmem line hline).elim (exceptionBody_fine huid hbody line) id
    · rw [mem_singleton.mp hline]
      exact ⟨by decide, by decide, by decide⟩
  have hcleanOut : Clean (flatten (withException p t front body close back)) := by
    have hleft : Clean (flatten (without p t front) ++ close :: flatten (without p t back)) := by
      refine clean_sublist hclean ?_
      rw [hlines]
      exact (flatten_without_sublist p t front).append ((flatten_without_sublist p t back).cons_cons close)
    rw [hlines] at hclean
    have hafter : ∀ line ∈ close :: flatten (without p t back), Fine line := by
      intro line hline
      rcases mem_cons.mp hline with rfl | hline
      · exact fine_close hclose (hclean.solid line (mem_append_right _ mem_cons_self)).2
      · exact fine_after hclean line ((flatten_without_sublist p t back).subset hline)
    have hall := clean_insert hleft hfineNew hafter
    rw [withException, flatten_around]
    rwa [cons_append, append_assoc, singleton_append] at hall
  have hout : pieces (unfold (render (flatten (withException p t front body close back)))) =
      withException p t front body close back := by
    rw [unfold_render hcleanOut, hwhole'.pieces]
  have hexception : isException p t (.event BEGIN_VEVENT body END_VEVENT) = true := by
    rw [isException, hrecurrence]
    exact decide_eq_true hread
  have hnoMain : ¬ isMain (.event BEGIN_VEVENT body END_VEVENT) = true := by
    rw [isMain, hrecurrence]
    exact Bool.false_ne_true
  obtain ⟨m', hm', hpiece⟩ := @mainOf_of_find? _ (withException p t front body close back) _ h.main (by
    rw [hps, ← find?_isMain_without p t (front ++ .outer close :: back), without_around, withException, find?_append,
      find?_append, find?_cons_of_neg hnoMain])
  refine ⟨_, m', hput, ⟨?_, ?_, ?_⟩, hpiece, ⟨BEGIN_VEVENT, body, END_VEVENT, ?_, ?_⟩, ?_⟩
  · rwa [hout]
  · rwa [hout]
  · refine ⟨without p t front ++ [.event BEGIN_VEVENT body END_VEVENT], close, without p t back, ?_, hclose,
      fun line hline => hback line ((flatten_without_sublist p t back).subset hline)⟩
    rw [hout, withException, append_assoc, singleton_append]
  · rw [hout, withException, filter_append, exceptions_without, nil_append, filter_cons_of_pos hexception]
    exact congrArg (_ :: ·) (exceptions_without p t back)
  · exact hkept.carries (exceptionBody_closes huid) (exceptionBody_carries huid)
  · have hdropped : without p t (.event BEGIN_VEVENT body END_VEVENT :: .outer close :: without p t back) =
        .outer close :: without p t back := by
      have hback' : without p t (without p t back) = without p t back := without_without p t back
      rw [without, filter_cons_of_neg (by rw [hexception]; decide), filter_cons_of_pos rfl]
      exact congrArg (_ :: ·) hback'
    rw [hout, hps, withException, without_append, without_without, hdropped, without_around]

end Put

/-! ## Taking an occurrence out -/

section Exclude

variable {p : Platform} {ics : Str} {m : MainEvent} {t : Int}

/-- The occurrence has no exception and the series leaves it out; everything else is as before, but for a SEQUENCE. -/
def Excluded (p : Platform) (t : Int) (m : MainEvent) (line : Str) (ps ps' : List Piece) : Prop :=
  ps'.filter (isException p t) = [] ∧
  ∃ before after body, without p t ps = before ++ m.piece :: after ∧ ps' = before ++ .event m.open_ body m.close :: after ∧
    (ownLines 0 body).filter (named "EXDATE") = (ownLines 0 m.body).filter (named "EXDATE") ++ [line] ∧
    ∀ name, name ≠ "EXDATE".toList → name ≠ "SEQUENCE".toList →
      (ownLines 0 body).filter (named name) = (ownLines 0 m.body).filter (named name)

theorem ownLines_concat {body : List Str} {name line : Str} (hbody : closes 0 body = true) (hline : Written name line)
    (hb : name ≠ "BEGIN") (he : name ≠ "END") :
    closes 0 (body ++ [line]) = true ∧ ∀ other, (ownLines 0 (body ++ [line])).filter (named other) =
      (ownLines 0 body).filter (named other) ++ if name = other then [line] else [] := by
  have hplain : ∀ l ∈ [line], nameOf l ≠ "BEGIN" ∧ nameOf l ≠ "END" := by
    intro l hl
    rw [mem_singleton.mp hl, hline.name_eq]
    exact ⟨hb, he⟩
  refine ⟨closes_append (closes_of_names hplain) body 0 hbody, fun other => ?_⟩
  rw [ownLines_append _ _ 0 hbody, ownLines_of_names hplain, filter_append, hline.filter]

/-- **An occurrence taken out** of any calendar object. -/
theorem excludeOccurrence_whole (h : CalendarObject ics m) {id uid : Str} (hid : occurrenceOf id = some (uid, t)) (allDay : Bool) :
    ∃ out, excludeOccurrence p ics id allDay = .ok out ∧
      Excluded p t m (timeProperty p "EXDATE" t allDay (mainZone m)) (pieces (unfold ics)) (pieces (unfold out)) := by
  have hwhole := without_whole (p := p) (t := t) h.whole
  have hlines : withoutOverride p (unfold ics) (located 0 (pieces (unfold ics))) t = flatten (without p t (pieces (unfold ics))) := by
    have hout := @withoutOverride_flatten p t (pieces (unfold ics))
    rwa [flatten_pieces] at hout
  obtain ⟨⟨before, open_, body, close, after⟩, hm, hpiece⟩ := mainOf_of_find? h.main (find?_isMain_without p t (pieces (unfold ics)))
  obtain ⟨hopen_, hbody_, hclose_⟩ := MainEvent.piece_inj hpiece
  simp only at hopen_ hbody_ hclose_
  subst hopen_ hbody_ hclose_
  have hsplit := (mainOf_some hm).1
  have hnone := (mainOf_some hm).2
  simp only at hsplit hnone
  have hmem : m.piece ∈ without p t (pieces (unfold ics)) := by
    rw [hsplit]
    exact mem_append_right _ mem_cons_self
  have hevent := hwhole m.piece hmem
  have hopen : nameOf m.open_ = "BEGIN" := nameOf_of_begins (begins_of_eq hevent.1)
  have hline : Written "EXDATE" (timeProperty p "EXDATE" t allDay (mainZone m)) :=
    written_timeProperty p (by decide) (by decide) _ _ _
  obtain ⟨hcloses, hown⟩ := ownLines_concat hevent.2.1 hline (by decide) (by decide)
  have hrec1 : recurrenceIdOf (m.body ++ [timeProperty p "EXDATE" t allDay (mainZone m)]) = none := by
    unfold recurrenceIdOf at hnone ⊢
    rw [hown, if_neg (by decide), append_nil, hnone]
  have hreplaced : ∀ {body' : List Str}, closes 0 body' = true → recurrenceIdOf body' = none →
      Whole (before ++ .event m.open_ body' m.close :: after) ∧
        mainOf (before ++ .event m.open_ body' m.close :: after) = some ⟨before, m.open_, body', m.close, after⟩ := by
    intro body' hbody' hrec'
    refine ⟨fun q hq => ?_, @mainOf_alike Eq (fun b b' he => by rw [he]) _ ⟨before, m.open_, m.body, m.close, after⟩ before after
      body' hm (List.forall₂_same.mpr fun q _ => Alike.refl (fun _ => rfl) q) hrec'⟩
    rw [hsplit] at hwhole
    rcases mem_append.mp hq with hq | hq
    · exact hwhole q (mem_append_left _ hq)
    rcases mem_cons.mp hq with rfl | hq
    · exact ⟨hevent.1, hbody', hevent.2.2⟩
    · exact hwhole q (mem_append_right _ (mem_cons_of_mem _ hq))
  obtain ⟨hwhole1, hm1⟩ := hreplaced hcloses hrec1
  obtain ⟨last, hbump, hbumped⟩ := bumpSequence_event hopen (inPlace_around before m.open_
    (m.body ++ [timeProperty p "EXDATE" t allDay (mainZone m)]) m.close after)
  obtain ⟨hcloses2, hown2⟩ := hbumped.own hcloses
  have hrec2 : recurrenceIdOf last = none := by
    unfold recurrenceIdOf at hrec1 ⊢
    rw [hown2 _ (by decide), hrec1]
  obtain ⟨hwhole2, -⟩ := hreplaced hcloses2 hrec2
  rw [← flatten_around] at hbump
  have hinsert : (flatten (without p t (pieces (unfold ics)))).insertIdx (eventAt (flatten before).length m.body).end_
      (timeProperty p "EXDATE" t allDay (mainZone m)) =
      flatten (before ++ .event m.open_ (m.body ++ [timeProperty p "EXDATE" t allDay (mainZone m)]) m.close :: after) := by
    have hfront : flatten (without p t (pieces (unfold ics))) =
        (flatten before ++ m.open_ :: m.body) ++ m.close :: flatten after := by
      rw [hsplit, flatten_around]
      simp
    have hend : (eventAt (flatten before).length m.body).end_ = (flatten before ++ m.open_ :: m.body).length := by
      rw [eventAt_end, length_append, length_cons]
      omega
    rw [hfront, hend, insertIdx_after, flatten_around]
    simp
  have hfine := hline.fine (by decide)
  have hclean : Clean (flatten (before ++ .event m.open_ last m.close :: after)) := by
    have hleft : Clean (flatten (before ++ .event m.open_ m.body m.close :: after)) := by
      refine clean_sublist (unfold_clean ics) ?_
      have hsub := flatten_without_sublist p t (pieces (unfold ics))
      rwa [hsplit, flatten_pieces] at hsub
    rw [flatten_around] at hleft ⊢
    refine (Grown.body fun line hl => ?_).clean hleft
    rcases hbumped.mem line hl with hl | hl
    · rcases mem_append.mp hl with hl | hl
      · exact .inl hl
      · exact .inr (mem_singleton.mp hl ▸ hfine)
    · exact .inr hl
  have hpieces : pieces (unfold (render (flatten (before ++ .event m.open_ last m.close :: after)))) =
      before ++ .event m.open_ last m.close :: after := by
    rw [unfold_render hclean, hwhole2.pieces]
  refine ⟨render (flatten (before ++ .event m.open_ last m.close :: after)), ?_, ?_, before, after, last, hsplit, hpieces, ?_, ?_⟩
  · unfold excludeOccurrence
    rw [hid]
    have hwithin := (inPlace_main hm).within
    simp only [bind, Except.bind, h.components, hlines, components_whole hwhole (located_ne_nil hmem 0), master_of_main hm]
    simp only at hwithin
    rw [hwithin, show ((m.open_ :: m.body).find? (named "DTSTART")).bind tzidOf = mainZone m from rfl, hinsert,
      components_whole hwhole1 (located_ne_nil (mem_append_right _ mem_cons_self) 0)]
    simp only [master_of_main hm1, hbump]
  · rw [hpieces]
    have hgone := exceptions_without p t (pieces (unfold ics))
    rw [hsplit, filter_append] at hgone
    have hno : ∀ {body' : List Str}, recurrenceIdOf body' = none → ¬ isException p t (.event m.open_ body' m.close) = true := by
      intro body' hrec
      rw [isException, hrec]
      exact of_decide_eq_true.mt nofun
    rw [filter_append, filter_cons_of_neg (hno hrec2)]
    rwa [filter_cons_of_neg (hno hnone)] at hgone
  · rw [hown2 _ (by decide), hown, if_pos rfl]
  · intro name hexdate hsequence
    rw [hown2 name hsequence, hown, if_neg (Ne.symm hexdate), append_nil]

end Exclude

/-! ## Exceptions that are found again -/

section Addressed

variable (p : Platform) (m : MainEvent) (event : Event) (t : Int)

/-- Read back, the exception has the subject, the start and the end of the edit. -/
def Shows (body : List Str) : Prop :=
  (ownLines 0 body).filter (named "SUMMARY") = ["SUMMARY:" ++ escape event.subject] ∧
  (∃ line, (ownLines 0 body).filter (named "DTSTART") = [line] ∧ instantOf p line = some event.start) ∧
  ∃ line, (ownLines 0 body).filter (named "DTEND") = [line] ∧ instantOf p line = some event.end_

/-- Any further edit of the occurrence that is written leaves one exception, the new one. -/
def OverriddenAgain (ics : Str) : Prop :=
  ∀ (event : Event) (uid : Str) (removed : List Str) (now : Int) (out : Str), occurrenceOf event.id = some (uid, t) →
    '\n' ∉ uid → PlainAddresses event removed → putOverride p ics event removed now = .ok out →
      Overridden p t (Carries p (mainZone m) event) (pieces (unfold ics)) (pieces (unfold out))

/-- Taken out of the series, the occurrence has no exception, and the series names it as left out. -/
def TakenOut (ics : Str) : Prop :=
  ∃ out line, excludeOccurrence p ics event.id event.allDay = .ok out ∧
    Excluded p t m line (pieces (unfold ics)) (pieces (unfold out)) ∧ instantOf p line = some t

/-- The exception that is put in is the only one and is found again; so is another one put in after it, and so is the
occurrence when it is taken out, before or after. -/
def Addressed (ics : Str) (removed : List Str) (now : Int) : Prop :=
  (∃ out, putOverride p ics event removed now = .ok out ∧
    Overridden p t (Shows p event) (pieces (unfold ics)) (pieces (unfold out)) ∧
    (∀ later, ∃ again, putOverride p out event removed later = .ok again ∧
      Overridden p t (Shows p event) (pieces (unfold out)) (pieces (unfold again))) ∧
    OverriddenAgain p m t out ∧ TakenOut p m event t out) ∧
  TakenOut p m event t ics

/-- The occurrence, the start and the end are all read back as the edit writes them. -/
def Placed : Prop :=
  Resolves p (mainZone m) event.allDay t ∧ Resolves p (mainZone m) event.allDay event.start ∧
    Resolves p (mainZone m) event.allDay event.end_ ∧ (event.allDay = true → event.start < event.end_)

variable {p m event t}

/-- The end is read back if it is not replaced and the line for it is. -/
theorem shownEnd_iff {zone : Option Str} (hstart : Resolves p zone event.allDay event.start) :
    instantOf p (timeProperty p "DTEND" (shownEnd event) event.allDay zone) = some event.end_ ↔
      Resolves p zone event.allDay event.end_ ∧ (event.allDay = true → event.start < event.end_) := by
  have hname : ':' ∉ "DTEND".toList ∧ ';' ∉ "DTEND".toList := by decide
  by_cases hraised : (event.allDay && event.end_ ≤ event.start) = true
  · rw [Bool.and_eq_true, decide_eq_true_eq] at hraised
    obtain ⟨hall, hle⟩ := hraised
    refine iff_of_false (fun hread => ?_) fun h => absurd (h.2 hall) (by omega)
    rw [hall] at hstart
    obtain ⟨-, hmidnight, hfour⟩ := hstart
    have hbounds := hfour.bounds
    have hday : shownEnd event = event.start + 86400 := by
      rw [shownEnd, if_pos (by rw [hall, Bool.true_and, decide_eq_true_eq]; exact hle), wrap_of_bounds (by omega)]
    have hheld : held (event.start + 86400) = event.start + 86400 := by
      refine if_pos ?_
      simp only [Calendar.representable, Bool.and_eq_true, decide_eq_true_eq]
      omega
    rw [hall, hday, timeProperty_day, instantOf_date p (notMem_day hname.1), hheld] at hread
    split at hread
    · have := Option.some.inj hread
      omega
    · cases hread
  · rw [shownEnd, if_neg hraised, resolves_iff p hname]
    rw [Bool.and_eq_true, decide_eq_true_eq] at hraised
    exact ⟨fun h => ⟨h, fun hall => by by_contra hle; exact hraised ⟨hall, by omega⟩⟩, fun h => h.1⟩

theorem shows_of_carries (hplaced : Placed p m event t) {body : List Str} (h : Carries p (mainZone m) event body) :
    Shows p event body :=
  ⟨h.1, ⟨_, h.2.1, (resolves_iff p (by decide) _ _ _).mpr hplaced.2.1⟩, _, h.2.2, (shownEnd_iff hplaced.2.1).mpr hplaced.2.2⟩

theorem Overridden.imp {P Q : List Str → Prop} {ps ps' : List Piece} (h : Overridden p t P ps ps') (hPQ : ∀ body, P body → Q body) :
    Overridden p t Q ps ps' := by
  obtain ⟨⟨open_, body, close, hone, hbody⟩, hrest⟩ := h
  exact ⟨⟨open_, body, close, hone, hPQ body hbody⟩, hrest⟩

variable {ics : Str}

theorem mainZone_congr {m' : MainEvent} (h : m'.piece = m.piece) : mainZone m' = mainZone m := by
  obtain ⟨hopen, hbody, -⟩ := MainEvent.piece_inj h
  rw [mainZone, hopen, hbody]
  rfl

/-- An edit that is written reads its own RECURRENCE-ID. -/
theorem read_of_put (h : CalendarObject ics m) {event : Event} {uid : Str} {removed : List Str} {now : Int} {out : Str}
    (hid : occurrenceOf event.id = some (uid, t)) (huid : '\n' ∉ uid) (hput : putOverride p ics event removed now = .ok out) :
    instantOf p (timeProperty p "RECURRENCE-ID" t event.allDay (mainZone m)) = some t := by
  by_contra hread
  obtain ⟨front, close, back, hps, hclose, hback⟩ := h.closed
  obtain ⟨next, heq⟩ := @putOverride_eq p ics m event uid t h hid huid front back close hps hclose hback removed now
  rw [if_neg hread, hput] at heq
  cases heq

theorem overriddenAgain (h : CalendarObject ics m) : OverriddenAgain p m t ics := by
  intro event uid removed now out hid huid hplain hput
  obtain ⟨out', m', hput', -, -, hover⟩ := putOverride_whole (p := p) h hid huid hplain now (read_of_put h hid huid hput)
  rw [hput] at hput'
  cases hput'
  exact hover

theorem takenOut (h : CalendarObject ics m) {uid : Str} (hid : occurrenceOf event.id = some (uid, t))
    (hread : Resolves p (mainZone m) event.allDay t) : TakenOut p m event t ics := by
  obtain ⟨out, hout, hexcluded⟩ := excludeOccurrence_whole (p := p) h hid event.allDay
  exact ⟨out, _, hout, hexcluded, (resolves_iff p (by decide) _ _ _).mpr hread⟩

/-- **An exception is unique and found again exactly when its times are read back** from the lines they are written
with: the occurrence's, the new start and the new end. -/
theorem addressed_iff (h : CalendarObject ics m) {uid : Str} (hid : occurrenceOf event.id = some (uid, t)) (huid : '\n' ∉ uid)
    {removed : List Str} (hplain : PlainAddresses event removed) (now : Int) :
    Addressed p m event t ics removed now ↔ Placed p m event t := by
  constructor
  · rintro ⟨⟨out, hput, ⟨⟨open_, body, close, hone, -, ⟨first, hfirst, hstart⟩, last, hlast, hend⟩, -⟩, -⟩, -⟩
    have hread := read_of_put h hid huid hput
    obtain ⟨out', m', hput', -, -, ⟨o, b, c, hone', hcarries⟩, -⟩ := putOverride_whole (p := p) h hid huid hplain now hread
    rw [hput] at hput'
    cases hput'
    rw [hone'] at hone
    cases hone
    rw [hcarries.2.1] at hfirst
    rw [hcarries.2.2] at hlast
    cases hfirst
    cases hlast
    have hresolves := (resolves_iff p (by decide) _ _ _).mp hstart
    exact ⟨(resolves_iff p (by decide) _ _ _).mp hread, hresolves, (shownEnd_iff hresolves).mp hend⟩
  · intro hplaced
    have hread := (@resolves_iff p "RECURRENCE-ID" (by decide) _ _ _).mpr hplaced.1
    obtain ⟨out, m', hput, hout, hpiece, hover⟩ := putOverride_whole (p := p) h hid huid hplain now hread
    have hzone := mainZone_congr hpiece
    refine ⟨⟨out, hput, hover.imp fun body => shows_of_carries hplaced, fun later => ?_, ?_, ?_⟩, takenOut h hid hplaced.1⟩
    · obtain ⟨again, -, hagain, -, -, hover'⟩ := putOverride_whole (p := p) hout hid huid hplain later (by rwa [hzone])
      rw [hzone] at hover'
      exact ⟨again, hagain, hover'.imp fun body => shows_of_carries hplaced⟩
    · intro event' uid' removed' later again hid' huid' hplain' hagain
      have hover' := overriddenAgain hout event' uid' removed' later again hid' huid' hplain' hagain
      rwa [hzone] at hover'
    · obtain ⟨left, line, hleft, hexcluded, hline⟩ := takenOut hout hid (by rw [hzone]; exact hplaced.1)
      refine ⟨left, line, hleft, ?_, hline⟩
      obtain ⟨hopen, hbody, hclose⟩ := MainEvent.piece_inj hpiece
      unfold Excluded at hexcluded ⊢
      rwa [hpiece, hopen, hbody, hclose] at hexcluded

end Addressed

/-! ## A lunch that takes all day -/

/-- The weekly lunch. -/
def lunchMain : MainEvent where
  before := [.outer "BEGIN:VCALENDAR"]
  open_ := "BEGIN:VEVENT"
  body := ["UID:1", "DTSTART;TZID=Europe/Madrid:20260301T090000", "RRULE:FREQ=WEEKLY"]
  close := "END:VEVENT"
  after := [.outer "END:VCALENDAR"]

theorem lunch_object : CalendarObject sundayLunch lunchMain := by
  have hpieces : pieces (unfold sundayLunch) = lunchMain.before ++ lunchMain.piece :: lunchMain.after := by decide +kernel
  refine ⟨?_, ?_, ?_⟩
  · rw [hpieces]
    intro q hq
    simp only [lunchMain, MainEvent.piece, cons_append, nil_append, mem_cons, not_mem_nil, or_false] at hq
    rcases hq with rfl | rfl | rfl
    · exact ⟨by decide +kernel, by decide +kernel⟩
    · exact ⟨by decide +kernel, by decide +kernel, by decide +kernel⟩
    · exact ⟨by decide +kernel, by decide +kernel⟩
  · rw [hpieces]
    rfl
  · rw [hpieces]
    exact ⟨lunchMain.before ++ [lunchMain.piece], "END:VCALENDAR", [], rfl, by decide +kernel, fun line hline => nomatch hline⟩

theorem lunch_id : occurrenceOf "1@1774166400".toList = some ("1".toList, 1774166400) := by decide +kernel

/-- The lunch of 22 March an hour later. -/
theorem lunch_addressed : Addressed madridOnly lunchMain (lunchMoved 1774170000) 1774166400 sundayLunch [] 0 := by
  have hplain : PlainAddresses (lunchMoved 1774170000) [] :=
    ⟨fun person hp => absurd hp not_mem_nil, fun organizer ho => by cases ho⟩
  refine (@addressed_iff madridOnly lunchMain (lunchMoved 1774170000) 1774166400 _ lunch_object _ lunch_id (by decide) _ hplain
    0).mpr ⟨?_, ?_, ?_, nofun⟩ <;> exact ⟨by decide +kernel, by decide +kernel, by decide +kernel⟩

/-- The lunch of 22 March, for the whole day. -/
def lunchAllDay : Event :=
  ⟨"1@1774166400", "Lunch", none, 1774137600, 1774224000, true, none, none, [], none, []⟩

/-- **A lunch at nine made to last all day is refused**: its RECURRENCE-ID is written as a day, which is not the
occurrence's instant. -/
theorem allDay_refused : CalendarObject sundayLunch lunchMain ∧
    occurrenceOf lunchAllDay.id = some ("1".toList, 1774166400) ∧ PlainAddresses lunchAllDay [] ∧
    putOverride madridOnly sundayLunch lunchAllDay [] 0 = .error damaged ∧
    ¬ Addressed madridOnly lunchMain lunchAllDay 1774166400 sundayLunch [] 0 := by
  have hput : putOverride madridOnly sundayLunch lunchAllDay [] 0 = .error damaged := by decide +kernel
  refine ⟨lunch_object, lunch_id, ⟨fun person hp => absurd hp not_mem_nil, fun organizer ho => by cases ho⟩, hput, ?_⟩
  rintro ⟨⟨out, hout, -⟩, -⟩
  rw [hput] at hout
  cases hout

end Oreneta.Ics

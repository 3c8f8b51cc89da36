import Oreneta.Ics.Patch

/-!
# iCalendar: what an edit leaves of an event

The lines of one event, told apart by where they stand: directly in it, in an alarm of its own, or in
another component nested in it.

* `Place`, `others` — the place of a line, and the lines of a body without its alarms and without its own
  properties under some names.
* `alarmsWhole` — each alarm stands directly in the event and ends with its own END line; then
  `keptLines`, which keeps its own count, keeps exactly the others (`keptLines_eq`).
* `sequenceFirst` — no SEQUENCE line of a nested component comes before the event's own one.
* `withoutRemoved` — the lines without the attendees taken out; `PeopleKept`, `MainKept` are what an edit
  leaves of any event and of the main event.
-/

namespace Oreneta.Ics

open List

/-- Where a line stands in an event: how deep in nested components, and whether in one of its alarms. -/
structure Place where
  depth : Nat
  alarm : Bool
  deriving DecidableEq, Repr

namespace Place

def start : Place := ⟨0, false⟩

/-- The place after a line. -/
def next (q : Place) (line : Str) : Place :=
  if begins line then
    ⟨q.depth + 1, q.alarm || (q.depth = 0 && decide (upper line = BEGIN_VALARM))⟩
  else if ends line && 0 < q.depth then ⟨q.depth - 1, q.alarm && q.depth ≠ 1⟩
  else q

/-- An alarm is a nested component. -/
def Sound (q : Place) : Prop := q.alarm = true → 1 ≤ q.depth

/-- How deep the lines stand that are left when the alarms are taken out. -/
def left (q : Place) : Nat := if q.alarm then 0 else q.depth

end Place

/-- How deep in nested components the next line stands. -/
def deeper (depth : Nat) (line : Str) : Nat :=
  if begins line then depth + 1 else if ends line && 0 < depth then depth - 1 else depth

/-- The line belongs to one of the event's alarms. -/
def inAlarm (q : Place) (line : Str) : Bool := q.alarm || (q.next line).alarm

/-- The lines of a body without its alarms and without its own properties under these names. -/
def others (names : Str → Bool) : Place → List Str → List Str
  | _, [] => []
  | q, line :: lines =>
    if inAlarm q line || (q.depth = 0 && names (nameOf line)) then others names (q.next line) lines
    else line :: others names (q.next line) lines

/-- Each alarm stands directly in the event, and the END:VALARM in it is the line that closes it. -/
def alarmsWhole : Place → List Str → Bool
  | _, [] => true
  | q, line :: lines =>
    (if upper line = BEGIN_VALARM then q.depth = 0
      else if q.alarm then decide (upper line = END_VALARM) = !(q.next line).alarm
      else true) && alarmsWhole (q.next line) lines

/-- The first SEQUENCE line outside of the alarms, if there is one, stands directly in the event. -/
def sequenceFirst : Place → List Str → Bool
  | _, [] => true
  | q, line :: lines =>
    if !inAlarm q line && named "SEQUENCE" line then q.depth = 0
    else sequenceFirst (q.next line) lines

/-- An attendee whose address is in `removed`. -/
def isRemoved (removed : List Str) (line : Str) : Bool :=
  named "ATTENDEE" line && !(addressOf line).isEmpty && removed.contains (addressOf line)

/-- The lines of a body without the attendees taken out. -/
def withoutRemoved (removed : List Str) : Nat → List Str → List Str
  | _, [] => []
  | depth, line :: lines =>
    if depth = 0 && isRemoved removed line then withoutRemoved removed (deeper depth line) lines
    else line :: withoutRemoved removed (deeper depth line) lines

def isPerson (line : Str) : Bool := named "ORGANIZER" line || named "ATTENDEE" line

/-- An event without its removed attendees, and people added to it. -/
def PeopleKept (removed body body' : List Str) : Prop :=
  ∃ added : List Str, (∀ line ∈ added, isPerson line = true) ∧
    body' = withoutRemoved (removed.map normalized) 0 body ++ added

/-- The properties of the main event that an edit replaces. -/
def replaced (rule : Bool) (name : Str) : Bool :=
  OWNED.contains name || decide (name = "SEQUENCE") || (rule && decide (name = "RRULE"))

/-- The main event: the same, apart from the properties replaced and the alarms. -/
def MainKept (rule : Bool) (removed body body' : List Str) : Prop :=
  ∃ added : List Str, (∀ line ∈ added, isPerson line = true) ∧
    others (replaced rule) .start body' =
      withoutRemoved (removed.map normalized) 0 (others (replaced rule) .start body) ++ added

/-! ## Places -/

theorem Place.sound_start : Place.start.Sound := by
  intro h
  cases h

variable {q : Place} {line : Str}

theorem Place.next_begins (hb : begins line = true) : q.next line =
    ⟨q.depth + 1, q.alarm || (q.depth = 0 && decide (upper line = BEGIN_VALARM))⟩ := if_pos hb

theorem Place.next_ends (hb : ¬ begins line = true)
    (he : (ends line && decide (0 < q.depth)) = true) : q.next line = ⟨q.depth - 1, q.alarm && q.depth ≠ 1⟩ := by
  unfold Place.next
  rw [if_neg hb, if_pos he]

theorem Place.next_other (hb : ¬ begins line = true) (he : ¬ (ends line && decide (0 < q.depth)) = true) : q.next line = q := by
  unfold Place.next
  rw [if_neg hb, if_neg he]

theorem Place.Sound.next {q : Place} (h : q.Sound) (line : Str) : (q.next line).Sound := by
  intro ha
  by_cases hb : begins line = true
  · rw [next_begins hb]
    exact Nat.le_add_left 1 _
  · by_cases he : (ends line && decide (0 < q.depth)) = true
    · rw [next_ends hb he] at ha ⊢
      simp only [Bool.and_eq_true, decide_eq_true_eq] at ha
      have := h ha.1
      show 1 ≤ q.depth - 1
      omega
    · rw [next_other hb he] at ha ⊢
      exact h ha

/-- In an alarm, and where it ends, nothing of the depth is left. -/
theorem Place.Sound.left_next (h : q.Sound) (ha : q.alarm = true) (line : Str) : (q.next line).left = q.left := by
  have hpos := h ha
  have hq : q.left = 0 := if_pos ha
  rw [hq]
  unfold Place.left
  by_cases hb : begins line = true
  · rw [next_begins hb, ha, Bool.true_or]
    rfl
  · by_cases he : (ends line && decide (0 < q.depth)) = true
    · rw [next_ends hb he, ha, Bool.true_and]
      by_cases hone : q.depth = 1
      · rw [hone]
        rfl
      · rw [decide_eq_true hone]
        rfl
    · rw [next_other hb he, ha]
      rfl

/-- Outside of an alarm only a BEGIN:VALARM line leads into one. -/
theorem Place.next_alarm (ha : q.alarm = false) (hline : upper line ≠ BEGIN_VALARM) : (q.next line).alarm = false := by
  by_cases hb : begins line = true
  · rw [next_begins hb, ha, decide_eq_false hline, Bool.and_false]
    rfl
  · by_cases he : (ends line && decide (0 < q.depth)) = true
    · rw [next_ends hb he, ha]
      rfl
    · rw [next_other hb he, ha]

theorem Place.next_depth (q : Place) (line : Str) : (q.next line).depth = deeper q.depth line := by
  unfold Place.next deeper
  split
  · rfl
  · split <;> rfl

/-- A line under another name changes no place. -/
theorem Place.next_of_name (hb : nameOf line ≠ "BEGIN") (he : nameOf line ≠ "END") : q.next line = q := by
  have hbegins : begins line = false := Bool.eq_false_iff.mpr fun h => hb (nameOf_of_begins h)
  have hends : ends line = false := Bool.eq_false_iff.mpr fun h => he (nameOf_of_ends h)
  unfold Place.next
  rw [hbegins, hends]
  rfl

theorem deeper_of_name {depth : Nat} (hb : nameOf line ≠ "BEGIN") (he : nameOf line ≠ "END") : deeper depth line = depth := by
  have := congrArg Place.depth (Place.next_of_name (q := ⟨depth, false⟩) hb he)
  rwa [Place.next_depth] at this

theorem deeper_of_descend {depth depth' : Nat} (h : descend depth line = some depth') : deeper depth line = depth' := by
  unfold descend at h
  unfold deeper
  split at h
  · cases h
  · split at h
    · rename_i hb
      cases h
      rw [if_pos hb]
    · rename_i hb
      rw [if_neg hb]
      split at h
      · rename_i he
        cases h
        rw [if_pos he]
      · rename_i he
        rw [if_neg he]
        split at h
        · cases h
        · cases h
          rfl

theorem closes_cons {depth : Nat} {lines : List Str} (h : closes depth (line :: lines) = true) :
    descend depth line = some (deeper depth line) ∧ closes (deeper depth line) lines = true := by
  unfold closes at h
  cases hdesc : descend depth line with
  | none =>
    rw [hdesc] at h
    cases h
  | some depth' =>
    rw [hdesc] at h
    rw [deeper_of_descend hdesc]
    exact ⟨rfl, h⟩

theorem closes_append {more : List Str} (hmore : closes 0 more = true) : ∀ (lines : List Str) (depth : Nat),
    closes depth lines = true → closes depth (lines ++ more) = true
  | [], depth, h => by
    have hd : depth = 0 := by simpa [closes] using h
    rw [hd]
    exact hmore
  | line :: lines, depth, h => by
    obtain ⟨hdesc, hrest⟩ := closes_cons h
    rw [cons_append, closes, hdesc]
    exact closes_append hmore lines _ hrest

/-- Lines under names of properties. -/
theorem closes_of_names : ∀ {lines : List Str},
    (∀ line ∈ lines, nameOf line ≠ "BEGIN" ∧ nameOf line ≠ "END") → closes 0 lines = true
  | [], _ => rfl
  | line :: lines, h => by
    obtain ⟨hb, he⟩ := h line mem_cons_self
    rw [closes, descend_of_name hb he]
    exact closes_of_names fun l hl => h l (mem_cons_of_mem _ hl)

theorem isPerson_name (h : isPerson line = true) : nameOf line = "ORGANIZER" ∨ nameOf line = "ATTENDEE" := by
  unfold isPerson at h
  rw [Bool.or_eq_true, named_iff, named_iff] at h
  exact h

theorem isPerson_plain (h : isPerson line = true) : nameOf line ≠ "BEGIN" ∧ nameOf line ≠ "END" := by
  rcases isPerson_name h with h | h <;> rw [h] <;> decide

variable {removed : List Str}

theorem isRemoved_name (h : isRemoved removed line = true) : nameOf line = "ATTENDEE" := by
  unfold isRemoved at h
  rw [Bool.and_eq_true, Bool.and_eq_true] at h
  exact named_iff.mp h.1.1

/-! ## The people -/

theorem withoutRemoved_closes (removed : List Str) : ∀ (lines : List Str) (depth : Nat),
    closes depth lines = true → closes depth (withoutRemoved removed depth lines) = true
  | [], _, h => h
  | line :: lines, depth, h => by
    obtain ⟨hdesc, hrest⟩ := closes_cons h
    have ih := withoutRemoved_closes removed lines _ hrest
    rw [withoutRemoved]
    split
    · rename_i hdrop
      rw [Bool.and_eq_true] at hdrop
      have hname := isRemoved_name hdrop.2
      rwa [deeper_of_name (by rw [hname]; decide) (by rw [hname]; decide)] at ih ⊢
    · rw [closes, hdesc]
      exact ih

variable {body' : List Str}

theorem PeopleKept.closed {body : List Str} (h : PeopleKept removed body body')
    (hbody : closes 0 body = true) : closes 0 body' = true := by
  obtain ⟨added, hadded, rfl⟩ := h
  exact closes_append (closes_of_names fun line hline => isPerson_plain (hadded line hline)) _ _
    (withoutRemoved_closes _ body 0 hbody)

/-- Taking attendees out leaves the other properties of the event. -/
theorem ownLines_withoutRemoved {removed : List Str} {name : Str} (hname : name ≠ "ATTENDEE") :
    ∀ (lines : List Str) (depth : Nat), closes depth lines = true →
      (ownLines depth (withoutRemoved removed depth lines)).filter (named name) =
        (ownLines depth lines).filter (named name)
  | [], _, _ => rfl
  | line :: lines, depth, h => by
    obtain ⟨hdesc, hrest⟩ := closes_cons h
    have ih : (ownLines (deeper depth line) (withoutRemoved removed (deeper depth line) lines)).filter (named name) =
        (ownLines (deeper depth line) lines).filter (named name) :=
      ownLines_withoutRemoved hname lines _ hrest
    rw [withoutRemoved]
    split
    · rename_i hdrop
      rw [Bool.and_eq_true, decide_eq_true_eq] at hdrop
      have hline := isRemoved_name hdrop.2
      have hdeep : deeper depth line = depth :=
        deeper_of_name (by rw [hline]; decide) (by rw [hline]; decide)
      rw [hdeep] at ih hdesc ⊢
      rw [ownLines_cons hdesc, filter_append, ih, if_pos ⟨hdrop.1, hdrop.1⟩]
      have hno : ¬ named name line = true := fun he => hname ((named_iff.mp he).symm.trans hline)
      rw [filter_cons_of_neg hno]
      rfl
    · rw [ownLines_cons hdesc, ownLines_cons hdesc, filter_append, filter_append, ih]

theorem ownLines_append : ∀ (lines more : List Str) (depth : Nat), closes depth lines = true →
    ownLines depth (lines ++ more) = ownLines depth lines ++ ownLines 0 more
  | [], more, depth, h => by
    have hd : depth = 0 := by simpa [closes] using h
    rw [hd]
    rfl
  | line :: lines, more, depth, h => by
    obtain ⟨hdesc, hrest⟩ := closes_cons h
    rw [cons_append, ownLines_cons hdesc, ownLines_cons hdesc, ownLines_append lines more _ hrest, append_assoc]

theorem mem_ownLines : ∀ {lines : List Str} {depth : Nat} {line : Str}, line ∈ ownLines depth lines → line ∈ lines
  | [], _, _, h => by cases h
  | l :: lines, depth, line, h => by
    rw [ownLines] at h
    split at h
    · exact mem_cons_of_mem _ (mem_ownLines h)
    · split at h
      · exact mem_cons_of_mem _ (mem_ownLines h)
      · split at h
        · rcases mem_cons.mp h with rfl | h
          · exact mem_cons_self
          · exact mem_cons_of_mem _ (mem_ownLines h)
        · exact mem_cons_of_mem _ (mem_ownLines h)

theorem filter_ownLines_eq_nil {lines : List Str} {name : Str} (h : ∀ line ∈ lines, nameOf line ≠ name) :
    (ownLines 0 lines).filter (named name) = [] := by
  rw [filter_eq_nil_iff]
  exact fun line hline hn => h line (mem_ownLines hline) (named_iff.mp hn)

theorem ownLines_of_names : ∀ {lines : List Str},
    (∀ line ∈ lines, nameOf line ≠ "BEGIN" ∧ nameOf line ≠ "END") → ownLines 0 lines = lines
  | [], _ => rfl
  | line :: lines, h => by
    obtain ⟨hb, he⟩ := h line mem_cons_self
    rw [ownLines_cons (descend_of_name hb he), if_pos ⟨rfl, rfl⟩, ownLines_of_names fun l hl => h l (mem_cons_of_mem _ hl)]
    rfl

/-- Merging the people of an event leaves its other properties. -/
theorem PeopleKept.own {body : List Str} (h : PeopleKept removed body body')
    (hbody : closes 0 body = true) {name : Str} (horg : name ≠ "ORGANIZER") (hatt : name ≠ "ATTENDEE") :
    (ownLines 0 body').filter (named name) = (ownLines 0 body).filter (named name) := by
  obtain ⟨added, hadded, rfl⟩ := h
  have hnone : (ownLines 0 added).filter (named name) = [] := by
    apply filter_ownLines_eq_nil
    intro line hline hid
    rcases isPerson_name (hadded line hline) with hn | hn
    · exact horg (hid.symm.trans hn)
    · exact hatt (hid.symm.trans hn)
  rw [ownLines_append _ _ _ (withoutRemoved_closes _ body 0 hbody), filter_append, hnone,
    ownLines_withoutRemoved hatt body 0 hbody, append_nil]

/-- The people of an event say nothing about which occurrence it stands for. -/
theorem PeopleKept.recurrenceId {body : List Str} (h : PeopleKept removed body body')
    (hbody : closes 0 body = true) : recurrenceIdOf body' = recurrenceIdOf body := by
  unfold recurrenceIdOf
  rw [h.own hbody (by decide) (by decide)]

/-! ## The lines kept -/

/-- The properties dropped when the main event is rewritten. -/
def dropped (keepRule : Bool) (name : Str) : Bool :=
  OWNED.contains name || (decide (name = "RRULE") && !keepRule)

theorem dropped_begin (keepRule : Bool) : dropped keepRule "BEGIN" = false := by
  cases keepRule <;> decide

theorem dropped_end (keepRule : Bool) : dropped keepRule "END" = false := by
  cases keepRule <;> decide

theorem begins_of_alarm (h : upper line = BEGIN_VALARM) : begins line = true := by
  unfold begins
  rw [h]
  rfl

/-- **What is kept of a body whose alarms are whole** are the lines but its alarms and its own
properties: the count `keptLines` keeps is the place. -/
theorem keptLines_eq (keepRule : Bool) : ∀ (lines : List Str) (q : Place), q.Sound → alarmsWhole q lines = true →
      keptLines keepRule q.alarm q.left lines = others (dropped keepRule) q lines
  | [], _, _, _ => rfl
  | line :: lines, q, hsound, hwhole => by
    rw [alarmsWhole, Bool.and_eq_true] at hwhole
    obtain ⟨hline, hrest⟩ := hwhole
    have ih := keptLines_eq keepRule lines (q.next line) (hsound.next line) hrest
    rw [keptLines, others]
    by_cases hbegin : upper line = BEGIN_VALARM
    · rw [if_pos hbegin, decide_eq_true_eq] at hline
      have hb := begins_of_alarm hbegin
      have hq : q.alarm = false := by
        cases ha : q.alarm with
        | false => rfl
        | true =>
          have := hsound ha
          omega
      have hnext : q.next line = ⟨1, true⟩ := by
        rw [Place.next_begins hb, hline, hq, decide_eq_true hbegin]
        rfl
      have hin : inAlarm q line = true := by
        unfold inAlarm
        rw [hnext, Bool.or_true]
      rw [if_pos hbegin, hin, Bool.true_or, if_pos rfl]
      rw [hnext] at ih ⊢
      have hleft : q.left = 0 := by simp [Place.left, hq, hline]
      rw [hleft]
      exact ih
    · rw [if_neg hbegin] at hline
      rw [if_neg hbegin]
      cases ha : q.alarm with
      | true =>
        rw [ha, if_pos rfl, decide_eq_true_eq] at hline
        have hin : inAlarm q line = true := by simp [inAlarm, ha]
        rw [if_pos rfl, hin, Bool.true_or, if_pos rfl, hline, Bool.not_not]
        -- the alarm ends where the depth comes back to nothing
        rw [← hsound.left_next ha line]
        exact ih
      | false =>
        have hnext : (q.next line).alarm = false := Place.next_alarm ha hbegin
        have hin : inAlarm q line = false := by simp [inAlarm, ha, hnext]
        have hleft : q.left = q.depth := by simp [Place.left, ha]
        have hleft' : (q.next line).left = deeper q.depth line := by
          simp [Place.left, hnext, Place.next_depth]
        rw [hnext, hleft'] at ih
        have hcond : (decide (deeper q.depth line = 0) && dropped keepRule (nameOf line)) =
            (decide (q.depth = 0) && dropped keepRule (nameOf line)) := by
          by_cases hb : begins line = true
          · rw [nameOf_of_begins hb, dropped_begin, Bool.and_false, Bool.and_false]
          · by_cases he : ends line = true
            · rw [nameOf_of_ends he, dropped_end, Bool.and_false, Bool.and_false]
            · have : deeper q.depth line = q.depth := by simp [deeper, hb, he]
              rw [this]
        rw [hin, Bool.false_or, ← hcond]
        simp only [Bool.false_eq_true, if_false, hleft]
        rw [← ih]
        rfl

/-! ## The other lines -/

/-- Names that say nothing about where components begin and end, nor about people. -/
structure PropertyNames (names : Str → Bool) : Prop where
  begin_ : names "BEGIN" = false
  end_ : names "END" = false
  attendee : names "ATTENDEE" = false

theorem dropped_names (keepRule : Bool) : PropertyNames (dropped keepRule) := by
  refine ⟨dropped_begin keepRule, dropped_end keepRule, ?_⟩
  cases keepRule <;> decide

theorem replaced_names (rule : Bool) : PropertyNames (replaced rule) := by
  refine ⟨?_, ?_, ?_⟩ <;> (cases rule <;> decide)

section Others

variable {names : Str → Bool}

variable {line : Str}

theorem others_cons_drop {q : Place} {lines : List Str}
    (h : (inAlarm q line || (decide (q.depth = 0) && names (nameOf line))) = true) :
    others names q (line :: lines) = others names (q.next line) lines := by
  rw [others, if_pos h]

theorem others_cons_keep {q : Place} {lines : List Str}
    (h : ¬ (inAlarm q line || (decide (q.depth = 0) && names (nameOf line))) = true) :
    others names q (line :: lines) = line :: others names (q.next line) lines := by
  rw [others, if_neg h]

/-- A line that is dropped leaves the depth of what is left alone. -/
theorem left_of_drop (hn : PropertyNames names) {q : Place} (hq : q.Sound)
    (h : (inAlarm q line || (decide (q.depth = 0) && names (nameOf line))) = true) : (q.next line).left = q.left := by
  cases ha : q.alarm with
  | true => exact hq.left_next ha line
  | false =>
    cases hnext : (q.next line).alarm with
    | true =>
      -- the line begins an alarm
      have hline : upper line = BEGIN_VALARM := by
        by_contra hne
        rw [Place.next_alarm ha hne] at hnext
        cases hnext
      have hb := begins_of_alarm hline
      have hdepth : q.depth = 0 := by
        rw [Place.next_begins hb, ha, decide_eq_true hline, Bool.and_true, Bool.false_or] at hnext
        exact of_decide_eq_true hnext
      unfold Place.left
      rw [if_pos hnext, ha, hdepth]
      rfl
    | false =>
      have hname : names (nameOf line) = true := by
        unfold inAlarm at h
        rw [ha, hnext, Bool.or_self, Bool.false_or, Bool.and_eq_true] at h
        exact h.2
      rw [Place.next_of_name]
      · intro hb
        rw [hb, hn.begin_] at hname
        cases hname
      · intro he
        rw [he, hn.end_] at hname
        cases hname

/-- A line that is kept stands as deep in what is left as it did. -/
theorem left_of_keep {q : Place} (h : ¬ (inAlarm q line || (decide (q.depth = 0) && names (nameOf line))) = true) :
    q.alarm = false ∧ (q.next line).alarm = false ∧ q.left = q.depth ∧
      (q.next line).left = deeper q.depth line := by
  unfold inAlarm at h
  simp only [Bool.or_eq_true, not_or, Bool.not_eq_true] at h
  obtain ⟨⟨ha, hnext⟩, -⟩ := h
  refine ⟨ha, hnext, ?_, ?_⟩
  · unfold Place.left
    rw [ha]
    rfl
  · unfold Place.left
    rw [hnext, ← Place.next_depth]
    rfl

theorem others_closes (hn : PropertyNames names) : ∀ (lines : List Str) (q : Place), q.Sound →
    closes q.depth lines = true → closes q.left (others names q lines) = true
  | [], q, hq, h => by
    have hd : q.depth = 0 := by simpa [closes] using h
    have hleft : q.left = 0 := by
      unfold Place.left
      split
      · rfl
      · exact hd
    rw [hleft]
    rfl
  | line :: lines, q, hq, h => by
    obtain ⟨hdesc, hrest⟩ := closes_cons h
    rw [← Place.next_depth] at hrest
    have ih := others_closes hn lines (q.next line) (hq.next line) hrest
    by_cases hdrop : (inAlarm q line || (decide (q.depth = 0) && names (nameOf line))) = true
    · rw [others_cons_drop hdrop, ← left_of_drop hn hq hdrop]
      exact ih
    · obtain ⟨-, -, hleft, hleft'⟩ := left_of_keep hdrop
      rw [others_cons_keep hdrop, hleft, closes, hdesc]
      rw [hleft'] at ih
      exact ih

theorem others_append (hn : PropertyNames names) (more : List Str) : ∀ (lines : List Str) (q : Place),
    q.Sound → closes q.depth lines = true →
      others names q (lines ++ more) = others names q lines ++ others names .start more
  | [], q, hq, h => by
    have hd : q.depth = 0 := by simpa [closes] using h
    have ha : q.alarm = false := by
      cases ha : q.alarm with
      | false => rfl
      | true =>
        have := hq ha
        omega
    have hstart : q = .start := by
      cases q
      cases hd
      cases ha
      rfl
    rw [hstart]
    rfl
  | line :: lines, q, hq, h => by
    obtain ⟨-, hrest⟩ := closes_cons h
    rw [← Place.next_depth] at hrest
    have ih := others_append hn more lines (q.next line) (hq.next line) hrest
    rw [cons_append]
    by_cases hdrop : (inAlarm q line || (decide (q.depth = 0) && names (nameOf line))) = true
    · rw [others_cons_drop hdrop, others_cons_drop hdrop, ih]
    · rw [others_cons_keep hdrop, others_cons_keep hdrop, ih, cons_append]

/-- Taking out alarms and properties twice is taking out the more of them once. -/
theorem others_others {names' : Str → Bool} (hn : PropertyNames names)
    (hle : ∀ name, names name = true → names' name = true) : ∀ (lines : List Str) (q : Place), q.Sound →
      others names' ⟨q.left, false⟩ (others names q lines) = others names' q lines
  | [], _, _ => rfl
  | line :: lines, q, hq => by
    have ih := others_others hn hle lines (q.next line) (hq.next line)
    by_cases hdrop : (inAlarm q line || (decide (q.depth = 0) && names (nameOf line))) = true
    · have hdrop' : (inAlarm q line || (decide (q.depth = 0) && names' (nameOf line))) = true := by
        rw [Bool.or_eq_true, Bool.and_eq_true] at hdrop ⊢
        exact hdrop.imp_right fun h => ⟨h.1, hle _ h.2⟩
      rw [others_cons_drop hdrop, others_cons_drop hdrop', ← left_of_drop hn hq hdrop]
      exact ih
    · obtain ⟨ha, hnext, hleft, hleft'⟩ := left_of_keep hdrop
      rw [others_cons_keep hdrop, hleft]
      -- the line stands where it did: no alarm begins with it
      have hplace : (⟨q.depth, false⟩ : Place) = q := by
        cases q
        cases ha
        rfl
      rw [hplace]
      have hafter : (⟨(q.next line).left, false⟩ : Place) = q.next line := by
        rw [hleft', ← Place.next_depth, ← hnext]
      rw [hafter] at ih
      by_cases hdrop' : (inAlarm q line || (decide (q.depth = 0) && names' (nameOf line))) = true
      · rw [others_cons_drop hdrop', others_cons_drop hdrop', ih]
      · rw [others_cons_keep hdrop', others_cons_keep hdrop', ih]

/-- Attendees are taken out of the other lines as of all. -/
theorem others_withoutRemoved (hn : PropertyNames names) (removed : List Str) : ∀ (lines : List Str) (q : Place), q.Sound →
      others names q (withoutRemoved removed q.depth lines) =
        withoutRemoved removed q.left (others names q lines)
  | [], _, _ => rfl
  | line :: lines, q, hq => by
    have ih := others_withoutRemoved hn removed lines (q.next line) (hq.next line)
    rw [Place.next_depth] at ih
    rw [withoutRemoved]
    by_cases hout : (decide (q.depth = 0) && isRemoved removed line) = true
    · rw [if_pos hout]
      rw [Bool.and_eq_true, decide_eq_true_eq] at hout
      have hname := isRemoved_name hout.2
      have hplain : nameOf line ≠ "BEGIN" ∧ nameOf line ≠ "END" := by
        rw [hname]
        decide
      have ha : q.alarm = false := by
        cases ha : q.alarm with
        | false => rfl
        | true =>
          have := hq ha
          omega
      have hsame : q.next line = q := Place.next_of_name hplain.1 hplain.2
      have hkeep : ¬ (inAlarm q line || (decide (q.depth = 0) && names (nameOf line))) = true := by
        rw [hname, hn.attendee, Bool.and_false, Bool.or_false]
        unfold inAlarm
        rw [hsame, ha]
        decide
      obtain ⟨-, -, hleft, hleft'⟩ := left_of_keep hkeep
      rw [others_cons_keep hkeep, withoutRemoved, hleft, if_pos (by rw [hout.2, hout.1]; rfl)]
      rw [hsame] at ih ⊢
      rw [ih, hleft, deeper_of_name hplain.1 hplain.2]
    · rw [if_neg hout]
      by_cases hdrop : (inAlarm q line || (decide (q.depth = 0) && names (nameOf line))) = true
      · rw [others_cons_drop hdrop, others_cons_drop hdrop, ← left_of_drop hn hq hdrop]
        exact ih
      · obtain ⟨-, -, hleft, hleft'⟩ := left_of_keep hdrop
        rw [others_cons_keep hdrop, others_cons_keep hdrop, withoutRemoved, hleft, if_neg hout, ih, hleft']

/-- Written properties under the names that are taken out leave nothing. -/
theorem others_eq_nil (hn : PropertyNames names) : ∀ {lines : List Str},
    (∀ line ∈ lines, names (nameOf line) = true) → others names .start lines = []
  | [], _ => rfl
  | line :: lines, h => by
    have hline := h line mem_cons_self
    have hnext : Place.start.next line = .start := by
      refine Place.next_of_name ?_ ?_
      · intro hb
        rw [hb, hn.begin_] at hline
        cases hline
      · intro he
        rw [he, hn.end_] at hline
        cases hline
    have hdrop : (inAlarm .start line || (decide (Place.start.depth = 0) && names (nameOf line))) = true := by
      rw [hline]
      exact Bool.or_true _
    rw [others_cons_drop hdrop, hnext]
    exact others_eq_nil hn fun l hl => h l (mem_cons_of_mem _ hl)

/-- People stay. -/
theorem others_people (hn : PropertyNames names) (horg : names "ORGANIZER" = false) :
    ∀ {lines : List Str}, (∀ line ∈ lines, isPerson line = true) → others names .start lines = lines
  | [], _ => rfl
  | line :: lines, h => by
    have hperson := h line mem_cons_self
    obtain ⟨hb, he⟩ := isPerson_plain hperson
    have hnext : Place.start.next line = .start := Place.next_of_name hb he
    have hname : names (nameOf line) = false := by
      rcases isPerson_name hperson with hn' | hn'
      · rw [hn', horg]
      · rw [hn', hn.attendee]
    have hkeep : ¬ (inAlarm .start line || (decide (Place.start.depth = 0) && names (nameOf line))) = true := by
      rw [hname]
      unfold inAlarm
      rw [hnext]
      decide
    rw [others_cons_keep hkeep, hnext, others_people hn horg fun l hl => h l (mem_cons_of_mem _ hl)]

end Others

/-- A new alarm is an alarm of the event. -/
theorem alarm_spec (names : Str → Bool) (minutes : Option Int) (subject : Str) :
    others names .start (alarm minutes subject) = [] ∧ closes 0 (alarm minutes subject) = true ∧
      ownLines 0 (alarm minutes subject) = [] ∧
      ∀ line ∈ alarm minutes subject, nameOf line ≠ "SEQUENCE" := by
  rcases alarm_eq minutes subject with h | ⟨action, description, trigger, h, ha, hd, ht⟩
  · rw [h]
    exact ⟨rfl, rfl, rfl, by simp⟩
  · rw [h]
    have hplain : ∀ line ∈ [action, description, trigger],
        nameOf line ≠ "BEGIN" ∧ nameOf line ≠ "END" ∧ nameOf line ≠ "SEQUENCE" := by
      intro line hline
      simp only [mem_cons, not_mem_nil, or_false] at hline
      rcases hline with rfl | rfl | rfl
      · rw [ha.name_eq]
        decide
      · rw [hd.name_eq]
        decide
      · rw [ht.name_eq]
        decide
    obtain ⟨ha1, ha2, ha3⟩ := hplain action (by simp)
    obtain ⟨hd1, hd2, hd3⟩ := hplain description (by simp)
    obtain ⟨ht1, ht2, ht3⟩ := hplain trigger (by simp)
    have hopen : Place.start.next "BEGIN:VALARM" = ⟨1, true⟩ := by decide
    have hclose : (⟨1, true⟩ : Place).next "END:VALARM" = .start := by decide
    have hopen' : descend 0 "BEGIN:VALARM" = some 1 := by decide
    have hclose' : descend 1 "END:VALARM" = some 0 := by decide
    have hin : ∀ line : Str, inAlarm ⟨1, true⟩ line = true := fun _ => rfl
    refine ⟨?_, ?_, ?_, ?_⟩
    · rw [others_cons_drop (by rw [inAlarm, hopen]; rfl), hopen, others_cons_drop (by rw [hin]; rfl),
        Place.next_of_name ha1 ha2, others_cons_drop (by rw [hin]; rfl), Place.next_of_name hd1 hd2,
        others_cons_drop (by rw [hin]; rfl), Place.next_of_name ht1 ht2,
        others_cons_drop (by rw [hin]; rfl), hclose]
      rfl
    · simp only [closes, hopen', descend_of_name ha1 ha2, descend_of_name hd1 hd2, descend_of_name ht1 ht2,
        hclose', decide_true]
    · rw [ownLines_cons hopen', ownLines_cons (descend_of_name ha1 ha2), ownLines_cons (descend_of_name hd1 hd2),
        ownLines_cons (descend_of_name ht1 ht2), ownLines_cons hclose']
      rfl
    · intro line hline
      simp only [mem_cons, not_mem_nil, or_false] at hline
      rcases hline with rfl | rfl | rfl | rfl | rfl
      · decide
      · exact ha3
      · exact hd3
      · exact ht3
      · decide

/-- The event's other lines say as before which occurrence it stands for. -/
theorem recurrenceId_others {names : Str → Bool} (hn : PropertyNames names)
    (hid : names "RECURRENCE-ID" = false) : ∀ (lines : List Str) (q : Place), q.Sound →
      closes q.depth lines = true →
        (ownLines q.left (others names q lines)).filter (named "RECURRENCE-ID") =
          (ownLines q.depth lines).filter (named "RECURRENCE-ID")
  | [], _, _, _ => rfl
  | line :: lines, q, hq, h => by
    obtain ⟨hdesc, hrest⟩ := closes_cons h
    rw [← Place.next_depth] at hrest
    have ih := recurrenceId_others hn hid lines (q.next line) (hq.next line) hrest
    rw [ownLines_cons hdesc, filter_append]
    by_cases hdrop : (inAlarm q line || (decide (q.depth = 0) && names (nameOf line))) = true
    · rw [others_cons_drop hdrop, ← left_of_drop hn hq hdrop, ih, Place.next_depth]
      have hnone : (if q.depth = 0 ∧ deeper q.depth line = 0 then [line] else []).filter (named "RECURRENCE-ID") = [] := by
        split
        · rename_i hown
          rw [filter_eq_nil_iff]
          intro l hl hname
          rw [mem_singleton.mp hl, named_iff] at hname
          have ha : q.alarm = false := by
            cases ha : q.alarm with
            | false => rfl
            | true =>
              have := hq ha
              omega
          have hsame : q.next line = q :=
            Place.next_of_name (by rw [hname]; decide) (by rw [hname]; decide)
          unfold inAlarm at hdrop
          rw [hsame, ha, hname, hid, Bool.and_false] at hdrop
          cases hdrop
        · rfl
      rw [hnone, nil_append]
    · obtain ⟨-, -, hleft, hleft'⟩ := left_of_keep hdrop
      rw [hleft', Place.next_depth] at ih
      rw [others_cons_keep hdrop, hleft, ownLines_cons hdesc, filter_append, ih]

/-- Of a property that is taken out the event keeps none. -/
theorem ownLines_others {names : Str → Bool} (hn : PropertyNames names) {name : Str} (hname : names name = true) :
    ∀ (lines : List Str) (q : Place), q.Sound → closes q.depth lines = true →
      (ownLines q.left (others names q lines)).filter (named name) = []
  | [], _, _, _ => rfl
  | line :: lines, q, hq, h => by
    obtain ⟨hdesc, hrest⟩ := closes_cons h
    rw [← Place.next_depth] at hrest
    have ih := ownLines_others hn hname lines (q.next line) (hq.next line) hrest
    by_cases hdrop : (inAlarm q line || (decide (q.depth = 0) && names (nameOf line))) = true
    · rw [others_cons_drop hdrop, ← left_of_drop hn hq hdrop, ih]
    · obtain ⟨-, -, hleft, hleft'⟩ := left_of_keep hdrop
      rw [hleft'] at ih
      rw [others_cons_keep hdrop, hleft, ownLines_cons hdesc, filter_append, ih, append_nil]
      split
      · rename_i hown
        rw [filter_eq_nil_iff]
        intro l hl hl'
        rw [mem_singleton.mp hl, named_iff] at hl'
        rw [hl', hname, hown.1] at hdrop
        exact hdrop (Bool.or_true _)
      · rfl

end Oreneta.Ics

import Oreneta.Ics.Bodies
import Oreneta.Lib.Fallible

/-!
# iCalendar: saving an event keeps what other programs put there

* `Kept` — what a save may change of an object: of every event the people, and of the main event also
  the properties an edit replaces and the alarms; the other lines are as they were and in their order.
* `mergePeople_event`, `rewrite_event`, `bumpSequence_event` — each edit by index changes the body of one
  event; `mergePeopleEverywhere_pieces` changes every one.
* `patchEvent_kept` — a save keeps everything else, if the alarms of the main event are whole, no nested
  component numbers a SEQUENCE before its own one, and no address has a line break.
* `nested_sequence_changed` — a nested component whose SEQUENCE the save counts up.
-/

namespace Oreneta.Ics

open Text ContentLines List Option

/-- What a save leaves of an object. -/
def Kept (rule : Bool) (removed lines out : List Str) : Prop :=
  ∃ m before body after, mainOf (pieces lines) = some m ∧
    pieces out = before ++ .event m.open_ body m.close :: after ∧
    List.Forall₂ (Alike (PeopleKept removed)) m.before before ∧
    List.Forall₂ (Alike (PeopleKept removed)) m.after after ∧ MainKept rule removed m.body body

/-! ## The lines of one event, by index -/

/-- An event in its place. -/
structure InPlace (lines : List Str) (at_ : Component) (before : List Str) (open_ : Str) (body after : List Str) :
    Prop where
  lines_eq : lines = before ++ open_ :: (body ++ after)
  begin_eq : at_.begin_ = before.length
  end_eq : at_.end_ = before.length + body.length + 1

section InPlace

variable {lines before body after : List Str} {at_ : Component} {open_ : Str}

theorem InPlace.take_begin (h : InPlace lines at_ before open_ body after) : lines.take (at_.begin_ + 1) = before ++ [open_] := by
  have hlen : at_.begin_ + 1 = (before ++ [open_]).length := by simp [h.begin_eq]
  have hsplit : before ++ open_ :: (body ++ after) = (before ++ [open_]) ++ (body ++ after) := by simp
  rw [hlen, h.lines_eq, hsplit]
  exact take_left

theorem InPlace.take_end (h : InPlace lines at_ before open_ body after) : lines.take at_.end_ = before ++ open_ :: body := by
  have hlen : at_.end_ = (before ++ open_ :: body).length := by
    rw [h.end_eq, length_append, length_cons]
    omega
  have hsplit : before ++ open_ :: (body ++ after) = (before ++ open_ :: body) ++ after := by simp
  rw [hlen, h.lines_eq, hsplit]
  exact take_left

theorem InPlace.drop_end (h : InPlace lines at_ before open_ body after) : lines.drop at_.end_ = after := by
  have hlen : at_.end_ = (before ++ open_ :: body).length := by
    rw [h.end_eq, length_append, length_cons]
    omega
  have hsplit : before ++ open_ :: (body ++ after) = (before ++ open_ :: body) ++ after := by simp
  rw [hlen, h.lines_eq, hsplit]
  exact drop_left

theorem InPlace.inside (h : InPlace lines at_ before open_ body after) : (lines.take at_.end_).drop (at_.begin_ + 1) = body := by
  have hlen : at_.begin_ + 1 = (before ++ [open_]).length := by simp [h.begin_eq]
  have hsplit : before ++ open_ :: body = (before ++ [open_]) ++ body := by simp
  rw [h.take_end, hlen, hsplit]
  exact drop_left

theorem InPlace.within (h : InPlace lines at_ before open_ body after) : Ics.within lines at_ = open_ :: body := by
  unfold Ics.within
  rw [h.take_end, h.begin_eq]
  exact drop_left

/-- The numbers of the attendees taken out. -/
def dropsFrom (removed : List Str) : Nat → Nat → List Str → List Nat
  | _, _, [] => []
  | depth, index, line :: lines =>
    (if depth = 0 && isRemoved removed line then [index] else []) ++
      dropsFrom removed (deeper depth line) (index + 1) lines

theorem seeLine_drop (removed : List Str) (s : People) (index : Nat) (line : Str) : (seeLine removed s index line).drop =
      s.drop ++ (if s.depth = 0 && isRemoved removed line then [index] else []) ∧
    (seeLine removed s index line).depth = deeper s.depth line := by
  have hnone : nameOf line ≠ "ATTENDEE" → isRemoved removed line = false := fun hne =>
    Bool.eq_false_iff.mpr fun h => hne (isRemoved_name h)
  unfold seeLine deeper
  by_cases hb : begins line = true
  · rw [if_pos hb, if_pos hb, hnone (by rw [nameOf_of_begins hb]; decide), Bool.and_false]
    exact ⟨(append_nil _).symm, rfl⟩
  · rw [if_neg hb, if_neg hb]
    by_cases he : (ends line && decide (0 < s.depth)) = true
    · have hname := nameOf_of_ends ((Bool.and_eq_true _ _).mp he).1
      rw [if_pos he, if_pos he, hnone (by rw [hname]; decide), Bool.and_false]
      exact ⟨(append_nil _).symm, rfl⟩
    · rw [if_neg he, if_neg he]
      by_cases hd : s.depth = 0
      · rw [if_pos hd, decide_eq_true hd, Bool.true_and]
        by_cases horg : nameOf line = "ORGANIZER"
        · rw [if_pos horg, hnone (by rw [horg]; decide)]
          exact ⟨(append_nil _).symm, rfl⟩
        · rw [if_neg horg]
          by_cases hatt : nameOf line = "ATTENDEE"
          · have hr : isRemoved removed line =
                (!(addressOf line).isEmpty && removed.contains (addressOf line)) := by
              unfold isRemoved
              rw [named_iff.mpr hatt, Bool.true_and]
            rw [if_pos hatt, hr]
            split
            · exact ⟨rfl, rfl⟩
            · exact ⟨(append_nil _).symm, rfl⟩
          · rw [if_neg hatt, hnone hatt]
            exact ⟨(append_nil _).symm, rfl⟩
      · rw [if_neg hd, decide_eq_false hd, Bool.false_and]
        exact ⟨(append_nil _).symm, rfl⟩

theorem seeLines_drop (removed : List Str) : ∀ (lines : List Str) (index : Nat) (s : People),
    (seeLines removed lines index s).drop = s.drop ++ dropsFrom removed s.depth index lines
  | [], _, _ => (append_nil _).symm
  | line :: lines, index, s => by
    obtain ⟨hdrop, hdepth⟩ := seeLine_drop removed s index line
    rw [seeLines, seeLines_drop removed lines, hdrop, hdepth, dropsFrom, append_assoc]

/-- Taking lines out from the back. -/
theorem eraseIdx_drops (removed : List Str) : ∀ (lines before after : List Str) (depth : Nat),
    (dropsFrom removed depth before.length lines).foldr (fun index lines => lines.eraseIdx index)
      (before ++ lines ++ after) = before ++ withoutRemoved removed depth lines ++ after
  | [], _, _, _ => rfl
  | line :: lines, before, after, depth => by
    have ih := eraseIdx_drops removed lines (before ++ [line]) after (deeper depth line)
    rw [length_append, length_singleton] at ih
    have hcons : before ++ line :: lines ++ after = before ++ [line] ++ lines ++ after := by simp
    rw [dropsFrom, foldr_append, hcons, ih, withoutRemoved]
    split
    · rw [foldr_cons, foldr_nil, append_assoc, append_assoc, eraseIdx_append_of_length_le (le_refl _), Nat.sub_self]
      simp
    · simp

theorem newAttendees_people (removed : List Str) : ∀ (people : List Participant) (kept : List Str),
    (∀ person ∈ people, '@' ∈ person.addr → normalized person.addr ∉ removed → '\n' ∉ trim person.addr) →
      ∀ line ∈ (newAttendees removed people kept).2, Written "ATTENDEE" line
  | [], _, _, line, h => by cases h
  | person :: rest, kept, hpeople, line, h => by
    have hrest : ∀ p ∈ rest, '@' ∈ p.addr → normalized p.addr ∉ removed → '\n' ∉ trim p.addr :=
      fun p hp => hpeople p (mem_cons_of_mem _ hp)
    rw [newAttendees] at h
    dsimp only at h
    split at h
    · rename_i hadd
      simp only [Bool.and_eq_true, Bool.not_eq_true', contains_eq_mem, decide_eq_true_eq, decide_eq_false_iff_not] at hadd
      rcases mem_cons.mp h with rfl | h
      · exact written_attendeeLine (hpeople person mem_cons_self hadd.1.1 hadd.2)
      · exact newAttendees_people removed rest _ hrest line h
    · exact newAttendees_people removed rest _ hrest line h

/-- No address that an edit can add has a line break in it. -/
def PlainAddresses (event : Event) (removed : List Str) : Prop :=
  (∀ person ∈ event.attendees, '@' ∈ person.addr → normalized person.addr ∉ removed.map normalized →
    '\n' ∉ trim person.addr) ∧
  ∀ organizer, event.organizer = some organizer → '@' ∈ organizer.addr → '\n' ∉ trim organizer.addr

theorem addedPeople_written {event : Event} {removed : List Str} (hplain : PlainAddresses event removed)
    (seen : People) : ∀ line ∈ addedPeople event (removed.map normalized) seen,
      Written "ORGANIZER" line ∨ Written "ATTENDEE" line := by
  have hnew := newAttendees_people (removed.map normalized) event.attendees seen.kept hplain.1
  intro line hline
  unfold addedPeople at hline
  dsimp only at hline
  split at hline
  · rename_i organizer horg
    split at hline
    · rename_i hadd
      simp only [Bool.and_eq_true, contains_eq_mem, decide_eq_true_eq] at hadd
      rcases mem_cons.mp hline with rfl | hline
      · exact .inl (written_organizerLine (hplain.2 organizer horg hadd.2))
      · exact .inr (hnew line hline)
    · exact .inr (hnew line hline)
  · exact .inr (hnew line hline)

/-- A line of this program's own, fit to stand in a file. -/
def Fine (line : Str) : Prop := line ≠ [] ∧ '\n' ∉ line ∧ continuation line = none

theorem Written.fine {name line : Str} (h : Written name line) (hname : name ≠ []) : Fine line :=
  ⟨h.ne_nil hname, h.no_break, h.starts⟩

/-- The people of one event merged: the attendees taken out, and then the people added. -/
theorem mergePeople_eq (event : Event) (removed : List Str) (h : InPlace lines at_ before open_ body after) :
    mergePeople lines at_ event removed = before ++ open_ :: (withoutRemoved (removed.map normalized) 0 body ++
      addedPeople event (removed.map normalized)
        (seeLines (removed.map normalized) body (before.length + 1) ⟨[], false, 0, []⟩) ++ after) := by
  generalize hadded : addedPeople event (removed.map normalized)
    (seeLines (removed.map normalized) body (before.length + 1) ⟨[], false, 0, []⟩) = added
  unfold mergePeople
  dsimp only
  rw [h.inside, h.take_end, h.drop_end, h.begin_eq, hadded, seeLines_drop]
  have herase := eraseIdx_drops (removed.map normalized) body (before ++ [open_]) (added ++ after) 0
  rw [length_append, length_singleton] at herase
  have hlines : before ++ open_ :: body ++ added ++ after =
      before ++ [open_] ++ body ++ (added ++ after) := by simp
  rw [nil_append, hlines, herase]
  simp

/-- Merging the people of one event changes its body, and only as `PeopleKept` says. -/
theorem mergePeople_event {event : Event} {removed : List Str} (hplain : PlainAddresses event removed)
    (h : InPlace lines at_ before open_ body after) :
    ∃ body', mergePeople lines at_ event removed = before ++ open_ :: (body' ++ after) ∧
      PeopleKept removed body body' ∧ ∀ line ∈ body', line ∈ body ∨ Fine line := by
  have hwritten := addedPeople_written hplain (seeLines (removed.map normalized) body (before.length + 1) ⟨[], false, 0, []⟩)
  have hmerge := mergePeople_eq event removed h
  generalize hadded : addedPeople event (removed.map normalized)
    (seeLines (removed.map normalized) body (before.length + 1) ⟨[], false, 0, []⟩) = added at hwritten hmerge
  refine ⟨withoutRemoved (removed.map normalized) 0 body ++ added, hmerge, ⟨added, ?_, rfl⟩, ?_⟩
  · intro line hline
    unfold isPerson
    rcases hwritten line hline with hw | hw
    · rw [named_iff.mpr hw.name_eq, Bool.true_or]
    · rw [named_iff.mpr hw.name_eq, Bool.or_true]
  · intro line hline
    rcases mem_append.mp hline with hline | hline
    · refine .inl ?_
      have hsub : ∀ (ls : List Str) (depth : Nat), ∀ l ∈ withoutRemoved (removed.map normalized) depth ls, l ∈ ls := by
        intro ls
        induction ls with
        | nil => exact fun _ _ h => h
        | cons x ls ih =>
          intro depth l hl
          rw [withoutRemoved] at hl
          split at hl
          · exact mem_cons_of_mem _ (ih _ l hl)
          · rcases mem_cons.mp hl with rfl | hl
            · exact mem_cons_self
            · exact mem_cons_of_mem _ (ih _ l hl)
      exact hsub body 0 line hline
    · refine .inr ?_
      rcases hwritten line hline with hw | hw <;> exact hw.fine (by decide)

theorem rewrite_event {replacement : List Str} {keepRule : Bool} {rule : Option Str}
    (h : InPlace lines at_ before open_ body after) : rewrite lines at_ replacement keepRule rule =
      before ++ open_ :: (keptLines keepRule false 0 body ++ replacement ++ rule.toList ++ after) := by
  unfold rewrite
  rw [h.take_begin, h.inside, h.drop_end]
  simp

/-! ## The SEQUENCE -/

/-- Among lines without alarms, the first SEQUENCE line stands directly in the event. -/
def firstOwn : Nat → List Str → Bool
  | _, [] => true
  | depth, line :: lines =>
    if named "SEQUENCE" line then depth = 0 else firstOwn (deeper depth line) lines

theorem firstOwn_others {names : Str → Bool} (hn : PropertyNames names)
    (hseq : names "SEQUENCE" = false) : ∀ (lines : List Str) (q : Place), q.Sound →
      sequenceFirst q lines = true → firstOwn q.left (others names q lines) = true
  | [], _, _, _ => rfl
  | line :: lines, q, hq, h => by
    rw [sequenceFirst] at h
    have ih := firstOwn_others hn hseq lines (q.next line) (hq.next line)
    by_cases hdrop : (inAlarm q line || (decide (q.depth = 0) && names (nameOf line))) = true
    · have hno : (!inAlarm q line && named "SEQUENCE" line) = false := by
        cases hin : inAlarm q line with
        | true => rfl
        | false =>
          rw [hin, Bool.false_or, Bool.and_eq_true] at hdrop
          rw [Bool.not_false, Bool.true_and]
          refine Bool.eq_false_iff.mpr fun hs => ?_
          rw [named_iff.mp hs, hseq] at hdrop
          cases hdrop.2
      rw [hno] at h
      rw [others_cons_drop hdrop, ← left_of_drop hn hq hdrop]
      exact ih h
    · obtain ⟨ha, hnext, hleft, hleft'⟩ := left_of_keep hdrop
      have hin : inAlarm q line = false := by
        unfold inAlarm
        rw [ha, hnext]
        rfl
      rw [hin, Bool.not_false, Bool.true_and] at h
      rw [others_cons_keep hdrop, firstOwn, hleft]
      split at h
      · rename_i hs
        rw [if_pos hs]
        exact h
      · rename_i hs
        rw [if_neg hs, ← hleft']
        exact ih h

theorem firstOwn_withoutRemoved (removed : List Str) : ∀ (lines : List Str) (depth : Nat),
    firstOwn depth (withoutRemoved removed depth lines) = firstOwn depth lines
  | [], _ => rfl
  | line :: lines, depth => by
    have ih := firstOwn_withoutRemoved removed lines (deeper depth line)
    rw [withoutRemoved]
    split
    · rename_i hout
      rw [Bool.and_eq_true] at hout
      have hname := isRemoved_name hout.2
      have hdeep : deeper depth line = depth :=
        deeper_of_name (by rw [hname]; decide) (by rw [hname]; decide)
      have hno : ¬ named "SEQUENCE" line = true := fun hs => by
        rw [named_iff.mp hs] at hname
        revert hname
        decide
      rw [firstOwn, if_neg hno]
      rw [hdeep] at ih ⊢
      exact ih
    · rw [firstOwn, firstOwn, ih]

theorem firstOwn_append {more : List Str} (hmore : ∀ line ∈ more, nameOf line ≠ "SEQUENCE") :
    ∀ (lines : List Str) (depth : Nat), firstOwn depth lines = true → firstOwn depth (lines ++ more) = true
  | [], depth, _ => by
    have hnone : ∀ (ls : List Str) (d : Nat), (∀ line ∈ ls, nameOf line ≠ "SEQUENCE") →
        firstOwn d ls = true := by
      intro ls
      induction ls with
      | nil => exact fun _ _ => rfl
      | cons l ls ih =>
        intro d hls
        rw [firstOwn, if_neg fun hs => hls l mem_cons_self (named_iff.mp hs)]
        exact ih _ fun x hx => hls x (mem_cons_of_mem _ hx)
    exact hnone more depth hmore
  | line :: lines, depth, h => by
    rw [cons_append, firstOwn]
    rw [firstOwn] at h
    split
    · rename_i hs
      rwa [if_pos hs] at h
    · rename_i hs
      rw [if_neg hs] at h
      exact firstOwn_append hmore lines _ h

/-- What the SEQUENCE of an event becomes. -/
inductive Bumped (body : List Str) : List Str → Prop
  | added (n : Int) (h : ∀ line ∈ body, nameOf line ≠ "SEQUENCE") : Bumped body (sequenceLine n :: body)
  | counted (u v : List Str) (line : Str) (n : Int) (hbody : body = u ++ line :: v)
      (hu : ∀ x ∈ u, nameOf x ≠ "SEQUENCE") (hline : nameOf line = "SEQUENCE") :
      Bumped body (u ++ sequenceLine n :: v)

theorem written_sequenceLine (n : Int) : Written "SEQUENCE" (sequenceLine n) :=
  .of_append (by decide) (by decide) (.inl rfl) (notMem_ofInt n)

/-- The search by index is the search in the lines. -/
theorem find_range' {p : Str → Bool} : ∀ (lines before after : List Str),
    ((List.range' before.length lines.length).find? (fun i => p ((before ++ lines ++ after).getD i [])) = none ∧
      ∀ line ∈ lines, p line = false) ∨ ∃ u line v, lines = u ++ line :: v ∧ (∀ x ∈ u, p x = false) ∧ p line = true ∧
      (List.range' before.length lines.length).find? (fun i => p ((before ++ lines ++ after).getD i [])) =
        some (before.length + u.length)
  | [], _, _ => .inl ⟨rfl, fun _ h => by cases h⟩
  | line :: lines, before, after => by
    have hget : (before ++ line :: lines ++ after).getD before.length [] = line := by simp
    rw [length_cons, range'_succ, find?_cons, hget]
    cases hp : p line with
    | true => exact .inr ⟨[], line, lines, rfl, (by simp), hp, rfl⟩
    | false =>
      have ih := find_range' (p := p) lines (before ++ [line]) after
      have hcons : before ++ [line] ++ lines ++ after = before ++ line :: lines ++ after := by simp
      rw [hcons, length_append, length_singleton] at ih
      rcases ih with ⟨hnone, hall⟩ | ⟨u, l, v, rfl, hu, hl, hfind⟩
      · refine .inl ⟨hnone, fun x hx => ?_⟩
        rcases mem_cons.mp hx with rfl | hx
        · exact hp
        · exact hall x hx
      · refine .inr ⟨line :: u, l, v, rfl, fun x hx => ?_, hl, ?_⟩
        · rcases mem_cons.mp hx with rfl | hx
          · exact hp
          · exact hu x hx
        · have hat : before.length + 1 + u.length = before.length + (u.length + 1) := by omega
          rw [hfind, length_cons, hat]

theorem insertIdx_after (line : Str) (rest : List Str) : ∀ front : List Str,
    (front ++ rest).insertIdx front.length line = front ++ line :: rest
  | [] => insertIdx_zero
  | x :: front => by
    rw [cons_append, length_cons, insertIdx_succ_cons, insertIdx_after line rest front]
    rfl

theorem bumpSequence_event (hopen : nameOf open_ = "BEGIN") (h : InPlace lines at_ before open_ body after) :
    ∃ body', bumpSequence lines at_ = before ++ open_ :: (body' ++ after) ∧ Bumped body body' := by
  have hno : ∀ {line : Str}, named "SEQUENCE" line = false → nameOf line ≠ "SEQUENCE" :=
    fun hf hs => by
      rw [named_iff.mpr hs] at hf
      cases hf
  have hlen : at_.end_ - at_.begin_ = (open_ :: body).length := by
    rw [h.begin_eq, h.end_eq, length_cons]
    omega
  have hlines : lines = before ++ (open_ :: body) ++ after := by
    rw [h.lines_eq]
    simp
  unfold bumpSequence
  rw [hlen, h.begin_eq, hlines]
  rcases find_range' (p := named "SEQUENCE") (open_ :: body) before after with
    ⟨hnone, hall⟩ | ⟨u, line, v, hsplit, hu, hline, hfind⟩
  · rw [hnone]
    refine ⟨sequenceLine 1 :: body, ?_, .added 1 fun l hl => hno (hall l (mem_cons_of_mem _ hl))⟩
    have hinsert : before ++ open_ :: body ++ after = (before ++ [open_]) ++ (body ++ after) := by simp
    have hat : before.length + 1 = (before ++ [open_]).length := by simp
    dsimp only
    rw [hinsert, hat, insertIdx_after]
    simp
  · cases u with
    | nil =>
      -- the first line of the event is no SEQUENCE
      rw [nil_append, List.cons.injEq] at hsplit
      rw [← hsplit.1, named_iff, hopen] at hline
      exact absurd hline (by decide)
    | cons x u =>
      rw [cons_append, List.cons.injEq] at hsplit
      obtain ⟨rfl, hbody⟩ := hsplit
      rw [hfind]
      dsimp only
      generalize I64.wrap (sequenceIn ((before ++ open_ :: body ++ after).getD
        (before.length + (open_ :: u).length) []) + 1) = n
      refine ⟨u ++ sequenceLine n :: v, ?_, .counted u v line n hbody
        (fun y hy => hno (hu y (mem_cons_of_mem _ hy))) (named_iff.mp hline)⟩
      have hset : before ++ open_ :: body ++ after = (before ++ open_ :: u) ++ line :: (v ++ after) := by
        rw [hbody]
        simp
      have hat : before.length + (open_ :: u).length = (before ++ open_ :: u).length := by simp
      rw [hset, hat, set_append_right _ _ (le_refl _), Nat.sub_self]
      simp

end InPlace

/-- The new number stands where the event's own SEQUENCE does, so the other lines stay. -/
theorem others_sequence {names : Str → Bool} (hn : PropertyNames names)
    (hseq : names "SEQUENCE" = true) {line line' : Str} (v : List Str)
    (hline : nameOf line = "SEQUENCE") (hline' : nameOf line' = "SEQUENCE") :
    ∀ (u : List Str) (q : Place), q.Sound → (∀ x ∈ u, nameOf x ≠ "SEQUENCE") →
      firstOwn q.depth (u ++ line :: v) = true → closes q.depth (u ++ line :: v) = true →
        others names q (u ++ line' :: v) = others names q (u ++ line :: v) ∧
          closes q.depth (u ++ line' :: v) = true
  | [], q, hq, _, hfirst, hcloses => by
    rw [nil_append, firstOwn, if_pos (named_iff.mpr hline), decide_eq_true_eq] at hfirst
    have hother : ∀ {x : Str}, nameOf x = "SEQUENCE" →
        nameOf x ≠ "BEGIN" ∧ nameOf x ≠ "END" := fun hx => by
      rw [hx]
      decide
    have hdrop : ∀ {x : Str}, nameOf x = "SEQUENCE" →
        others names q (x :: v) = others names q v := fun hx => by
      have hsame : q.next _ = q := Place.next_of_name (hother hx).1 (hother hx).2
      rw [others_cons_drop (by rw [hx, hseq, hfirst]; exact Bool.or_true _), hsame]
    have hdesc : ∀ {x : Str}, nameOf x = "SEQUENCE" → descend q.depth x = some q.depth :=
      fun hx => descend_of_name (hother hx).1 (hother hx).2
    rw [nil_append, closes, hdesc hline] at hcloses
    refine ⟨?_, ?_⟩
    · rw [nil_append, nil_append, hdrop hline, hdrop hline']
    · rw [nil_append, closes, hdesc hline']
      exact hcloses
  | x :: u, q, hq, hu, hfirst, hcloses => by
    rw [cons_append] at hfirst hcloses
    obtain ⟨hdesc, hrest⟩ := closes_cons hcloses
    rw [firstOwn, if_neg fun hs => hu x mem_cons_self (named_iff.mp hs), ← Place.next_depth] at hfirst
    rw [← Place.next_depth] at hrest
    obtain ⟨hothers, hclosed⟩ := others_sequence hn hseq v hline hline' u (q.next x) (hq.next x)
      (fun y hy => hu y (mem_cons_of_mem _ hy)) hfirst hrest
    rw [cons_append, cons_append]
    refine ⟨?_, ?_⟩
    · rw [others, others, hothers]
    · rw [closes, hdesc, ← Place.next_depth]
      exact hclosed

/-- A line that opens and closes as another does may stand in its place. -/
theorem closes_replace {line line' : Str} (h : ∀ depth, descend depth line = descend depth line') (v : List Str) :
    ∀ (u : List Str) (depth : Nat), closes depth (u ++ line :: v) = closes depth (u ++ line' :: v)
  | [], depth => by
    rw [nil_append, nil_append, closes, closes, h]
  | x :: u, depth => by
    rw [cons_append, cons_append, closes, closes]
    cases descend depth x with
    | none => rfl
    | some depth => exact closes_replace h v u depth

/-- So may a line under the same name, for the properties under other names. -/
theorem ownLines_replace {name : Str} {line line' : Str} (hline : named name line = false)
    (hline' : named name line' = false) (h : ∀ depth, descend depth line = descend depth line') (v : List Str) :
    ∀ (u : List Str) (depth : Nat), closes depth (u ++ line :: v) = true →
      (ownLines depth (u ++ line' :: v)).filter (named name) = (ownLines depth (u ++ line :: v)).filter (named name)
  | [], depth, hcloses => by
    obtain ⟨hdesc, -⟩ := closes_cons hcloses
    have hdesc' : descend depth line' = some (deeper depth line) := by rw [← h, hdesc]
    have hno : ∀ x : Str, named name x = false →
        (if depth = 0 ∧ deeper depth line = 0 then [x] else []).filter (named name) = [] := by
      intro x hx
      split
      · simp [hx]
      · rfl
    rw [nil_append, nil_append, ownLines_cons hdesc, ownLines_cons hdesc', filter_append,
      filter_append, hno line hline, hno line' hline']
  | x :: u, depth, hcloses => by
    rw [cons_append] at hcloses
    obtain ⟨hdesc, hrest⟩ := closes_cons hcloses
    rw [cons_append, cons_append, ownLines_cons hdesc, ownLines_cons hdesc, filter_append,
      filter_append, ownLines_replace hline hline' h v u _ hrest]

variable {body' : List Str}

theorem Bumped.own {body : List Str} (h : Bumped body body') (hcloses : closes 0 body = true) :
    closes 0 body' = true ∧ ∀ name, name ≠ "SEQUENCE".toList →
      (ownLines 0 body').filter (named name) = (ownLines 0 body).filter (named name) := by
  have hplain : ∀ {line : Str}, nameOf line = "SEQUENCE".toList → ∀ depth, descend depth line = some depth := by
    intro line hline depth
    exact descend_of_name (by rw [hline]; decide) (by rw [hline]; decide)
  have hno : ∀ {line name : Str}, nameOf line = "SEQUENCE".toList → name ≠ "SEQUENCE".toList →
      named name line = false := by
    intro line name hline hname
    exact Bool.eq_false_iff.mpr fun h => hname ((named_iff.mp h).symm.trans hline)
  cases h with
  | added n _ =>
    have hname := (written_sequenceLine n).name_eq
    have hdesc := hplain hname 0
    refine ⟨by rw [closes, hdesc]; exact hcloses, fun name hne => ?_⟩
    rw [ownLines_cons hdesc, filter_append]
    rw [if_pos ⟨rfl, rfl⟩, filter_cons_of_neg (by simp [hno hname hne])]
    rfl
  | counted u v line n hbody hu hline =>
    subst hbody
    have hname := (written_sequenceLine n).name_eq
    have hsame : ∀ depth, descend depth line = descend depth (sequenceLine n) := by
      intro depth
      rw [hplain hline, hplain hname]
    refine ⟨by rw [← closes_replace hsame]; exact hcloses, fun name hne => ?_⟩
    exact ownLines_replace (hno hline hne) (hno hname hne) hsame v u 0 hcloses

theorem Bumped.others {body body' : List Str} (h : Bumped body body') (rule : Bool)
    (hfirst : firstOwn 0 body = true) (hcloses : closes 0 body = true) :
    others (replaced rule) .start body' = Ics.others (replaced rule) .start body ∧ closes 0 body' = true := by
  have hn := replaced_names rule
  have hseq : replaced rule "SEQUENCE" = true := by cases rule <;> decide
  cases h with
  | added n _ =>
    have hname := (written_sequenceLine n).name_eq
    have hb : nameOf (sequenceLine n) ≠ "BEGIN" := by
      rw [hname]
      decide
    have he : nameOf (sequenceLine n) ≠ "END" := by
      rw [hname]
      decide
    refine ⟨?_, ?_⟩
    · rw [others_cons_drop (by rw [hname, hseq]; rfl), Place.next_of_name hb he]
    · rw [closes, descend_of_name hb he]
      exact hcloses
  | counted u v line n hbody hu hline =>
    subst hbody
    exact others_sequence hn hseq v hline (written_sequenceLine n).name_eq u .start Place.sound_start hu hfirst hcloses

theorem Bumped.mem {body : List Str} (h : Bumped body body') : ∀ line ∈ body', line ∈ body ∨ Fine line := by
  have hfine : ∀ n, Fine (sequenceLine n) := fun n => (written_sequenceLine n).fine (by decide)
  cases h with
  | added n _ =>
    intro line hline
    rcases mem_cons.mp hline with rfl | hline
    · exact .inr (hfine n)
    · exact .inl hline
  | counted u v old n hbody _ _ =>
    subst hbody
    intro line hline
    rcases mem_append.mp hline with hline | hline
    · exact .inl (mem_append_left _ hline)
    · rcases mem_cons.mp hline with rfl | hline
      · exact .inr (hfine n)
      · exact .inl (mem_append_right _ (mem_cons_of_mem _ hline))

/-! ## Fit to be written -/

/-- The same first line, and after it lines that were there or are this program's own. -/
structure Grown (lines lines' : List Str) : Prop where
  head : lines'.head? = lines.head?
  tail : ∀ line ∈ lines'.tail, line ∈ lines.tail ∨ Fine line

theorem Grown.refl (lines : List Str) : Grown lines lines := ⟨rfl, fun _ h => .inl h⟩

theorem Grown.trans {a b c : List Str} (hab : Grown a b) (hbc : Grown b c) : Grown a c :=
  ⟨hbc.head.trans hab.head, fun line hline => (hbc.tail line hline).elim (hab.tail line) .inr⟩

theorem Grown.clean {lines lines' : List Str} (h : Grown lines lines') (hc : Clean lines) : Clean lines' := by
  have htail : ∀ line ∈ lines'.tail, line ≠ [] ∧ '\n' ∉ line ∧ continuation line = none := fun line hline =>
    (h.tail line hline).elim (fun hold => ⟨(hc.solid line (mem_of_mem_tail hold)).1, (hc.solid line (mem_of_mem_tail hold)).2,
        hc.starts line hold⟩)
      id
  refine ⟨?_, fun line hline => (htail line hline).2.2⟩
  intro line hline
  cases lines' with
  | nil => cases hline
  | cons first rest =>
    rcases mem_cons.mp hline with rfl | hline
    · -- the first line is the one there was
      have hhead : lines.head? = some line := h.head.symm
      exact hc.solid line (mem_of_mem_head? hhead)
    · exact ⟨(htail line hline).1, (htail line hline).2.1⟩

/-- Another body for one event. -/
theorem Grown.body {before after body body' : List Str} {open_ : Str} (h : ∀ line ∈ body', line ∈ body ∨ Fine line) :
    Grown (before ++ open_ :: (body ++ after)) (before ++ open_ :: (body' ++ after)) := by
  have hin : ∀ line ∈ body' ++ after, line ∈ body ++ after ∨ Fine line := by
    intro line hline
    rcases mem_append.mp hline with hline | hline
    · exact (h line hline).imp_left (mem_append_left _)
    · exact .inl (mem_append_right _ hline)
  cases before with
  | nil => exact ⟨rfl, hin⟩
  | cons first before =>
    refine ⟨rfl, fun line hline => ?_⟩
    rcases mem_append.mp hline with hline | hline
    · exact .inl (mem_append_left _ hline)
    · rcases mem_cons.mp hline with rfl | hline
      · exact .inl (mem_append_right _ mem_cons_self)
      · exact (hin line hline).imp_left fun hold => mem_append_right _ (mem_cons_of_mem _ hold)

/-! ## The object, piece by piece -/

theorem flatten_around (before : List Piece) (open_ : Str) (body : List Str) (close : Str) (after : List Piece) :
    flatten (before ++ .event open_ body close :: after) =
      flatten before ++ open_ :: (body ++ close :: flatten after) := by
  rw [flatten_append, flatten_event]

theorem inPlace_around (before : List Piece) (open_ : Str) (body : List Str) (close : Str) (after : List Piece) :
    InPlace (flatten (before ++ .event open_ body close :: after)) (eventAt (flatten before).length body)
      (flatten before) open_ body (close :: flatten after) :=
  ⟨flatten_around before open_ body close after, eventAt_begin _ _, eventAt_end _ _⟩

/-- One body may be replaced by another that closes. -/
theorem Object.around {before after : List Piece} {open_ close : Str} {body : List Str}
    (h : Object (before ++ .event open_ body close :: after)) (hcloses : closes 0 body = true → closes 0 body' = true) :
    Object (before ++ .event open_ body' close :: after) := by
  have hrefl : ∀ ps : List Piece, List.Forall₂ (Alike fun b b' => closes 0 b = true → closes 0 b' = true) ps ps :=
    fun ps => List.forall₂_same.mpr fun p _ => Alike.refl (fun _ => id) p
  have hevent : Alike (fun b b' => closes 0 b = true → closes 0 b' = true) (.event open_ body close)
      (.event open_ body' close) := ⟨rfl, rfl, hcloses⟩
  exact Object.replace (fun _ _ hR => hR) (rel_append (hrefl before) (.cons hevent (hrefl after))) h

theorem Object.closes_mem {ps : List Piece} (h : Object ps) {open_ : Str} {body : List Str} {close : Str}
    (hmem : Piece.event open_ body close ∈ ps) :
    upper open_ = BEGIN_VEVENT ∧ closes 0 body = true ∧ upper close = END_VEVENT := by
  induction ps with
  | nil => cases hmem
  | cons p ps ih =>
    cases p with
    | outer line =>
      rcases mem_cons.mp hmem with he | hmem
      · cases he
      · exact ih h.2 hmem
    | event o b c =>
      rcases mem_cons.mp hmem with he | hmem
      · cases he
        exact h.1
      · exact ih h.2 hmem

theorem length_located : ∀ (ps : List Piece) (i j : Nat), (located i ps).length = (located j ps).length
  | [], _, _ => rfl
  | .outer _ :: ps, i, j => length_located ps (i + 1) (j + 1)
  | .event _ body _ :: ps, i, j => congrArg (· + 1) (length_located ps (i + body.length + 2) (j + body.length + 2))

theorem located_getElem (done : List Piece) (open_ : Str) (body : List Str) (close : Str) (rest : List Piece) :
    (located 0 (done ++ .event open_ body close :: rest))[(located 0 done).length]? =
      some (eventAt (flatten done).length body) := by
  rw [located_append, located, Nat.zero_add, getElem?_append_right (le_refl _), Nat.sub_self]
  rfl

/-- The people of the events still to come, one event after the other. -/
theorem mergePeopleFrom_pieces {event : Event} {removed : List Str} (hplain : PlainAddresses event removed) :
    ∀ (rest done : List Piece) {out : List Str}, Object (done ++ rest) →
      mergePeopleFrom event removed (located 0 rest).length (located 0 done).length (flatten (done ++ rest)) =
          .ok out →
        ∃ rest', List.Forall₂ (Alike (PeopleKept removed)) rest rest' ∧ out = flatten (done ++ rest') ∧
          Grown (flatten (done ++ rest)) out
  | [], done, out, _, h => by
    cases h
    exact ⟨[], .nil, rfl, Grown.refl _⟩
  | .outer line :: rest, done, out, hobj, h => by
    have hcons : ∀ ps : List Piece, done ++ .outer line :: ps = (done ++ [.outer line]) ++ ps := fun ps => by simp
    have hcount : (located 0 (done ++ [.outer line])).length = (located 0 done).length := by
      rw [located_append]
      simp [located]
    rw [hcons rest] at hobj h
    rw [located, length_located rest _ 0, ← hcount] at h
    obtain ⟨rest', hrest, hout, hgrown⟩ := mergePeopleFrom_pieces hplain rest _ hobj h
    rw [hcons rest]
    exact ⟨.outer line :: rest', .cons rfl hrest, by rw [hout, hcons rest'], hgrown⟩
  | .event open_ body close :: rest, done, out, hobj, h => by
    have hcons : ∀ (b : List Str) (ps : List Piece),
        done ++ .event open_ b close :: ps = (done ++ [.event open_ b close]) ++ ps := fun b ps => by simp
    obtain ⟨body', hmerge, hkept, hmem⟩ :=
      mergePeople_event hplain (inPlace_around done open_ body close rest)
    rw [← flatten_around] at hmerge
    have hobj' : Object (done ++ .event open_ body' close :: rest) := hobj.around hkept.closed
    have hcount : (located 0 (done ++ [.event open_ body' close])).length = (located 0 done).length + 1 := by
      rw [located_append, length_append]
      rfl
    rw [located, length_cons, mergePeopleFrom] at h
    obtain ⟨found, hfound, h⟩ := Fallible.bind_ok.mp h
    have hlocated := (components_pieces hfound).1
    rw [pieces_flatten hobj] at hlocated
    rw [hlocated, located_getElem] at h
    dsimp only at h
    rw [hmerge, length_located rest _ 0, ← hcount, hcons body' rest] at h
    rw [hcons body' rest] at hobj'
    obtain ⟨rest', hrest, hout, hgrown⟩ := mergePeopleFrom_pieces hplain rest _ hobj' h
    refine ⟨.event open_ body' close :: rest', .cons ⟨rfl, rfl, hkept⟩ hrest, by rw [hout, hcons body' rest'], ?_⟩
    have hfirst : Grown (flatten (done ++ .event open_ body close :: rest))
        (flatten (done ++ .event open_ body' close :: rest)) := by
      rw [flatten_around, flatten_around]
      exact Grown.body hmem
    rw [hcons body' rest] at hfirst
    exact hfirst.trans hgrown

theorem mergePeopleEverywhere_pieces {event : Event} {removed : List Str} (hplain : PlainAddresses event removed)
    {ps : List Piece} {out : List Str} (hobj : Object ps) (h : mergePeopleEverywhere (flatten ps) event removed = .ok out) :
    ∃ ps', List.Forall₂ (Alike (PeopleKept removed)) ps ps' ∧ out = flatten ps' ∧ Grown (flatten ps) out := by
  obtain ⟨found, hfound, h⟩ := Fallible.bind_ok.mp h
  have hlocated := (components_pieces hfound).1
  rw [pieces_flatten hobj] at hlocated
  rw [hlocated] at h
  exact mergePeopleFrom_pieces hplain ps [] hobj h

theorem Alike.closed {R : List Str → List Str → Prop} {ps ps' : List Piece} (h : List.Forall₂ (Alike R) ps ps')
    (hps : ∀ o b c, Piece.event o b c ∈ ps → closes 0 b = true) :
    List.Forall₂ (Alike fun b b' => closes 0 b = true ∧ R b b') ps ps' := by
  induction h with
  | nil => exact .nil
  | @cons p p' ps ps' hp _ ih =>
    refine .cons ?_ (ih fun o b c hb => hps o b c (mem_cons_of_mem _ hb))
    cases p with
    | outer line =>
      cases p' with
      | outer line' => exact hp
      | event o b c => exact hp.elim
    | event o b c =>
      cases p' with
      | outer line => exact hp.elim
      | event o' b' c' => exact ⟨hp.1, hp.2.1, hps o b c mem_cons_self, hp.2.2⟩

/-- The pieces around an event, apart. -/
theorem Alike.around {R : List Str → List Str → Prop} {before after ps' : List Piece} {open_ close : Str}
    {body : List Str} (h : List.Forall₂ (Alike R) (before ++ .event open_ body close :: after) ps') :
    ∃ before' body' after', ps' = before' ++ .event open_ body' close :: after' ∧
      List.Forall₂ (Alike R) before before' ∧ R body body' ∧ List.Forall₂ (Alike R) after after' := by
  induction before generalizing ps' with
  | nil =>
    cases h with
    | cons hp hps =>
      rename_i p' after'
      cases p' with
      | outer line => exact hp.elim
      | event o b c =>
        obtain ⟨rfl, rfl, hR⟩ := hp
        exact ⟨[], b, after', rfl, .nil, hR, hps⟩
  | cons p before ih =>
    cases h with
    | cons hp hps =>
      obtain ⟨before', body', after', rfl, hbefore, hR, hafter⟩ := ih hps
      exact ⟨_ :: before', body', after', rfl, .cons hp hbefore, hR, hafter⟩

/-! ## A save -/

theorem master_ok {found : List Component} {c : Component} (h : master found = .ok c) :
    found.find? (fun c => c.recurrenceId.isNone) = some c := by
  unfold master at h
  split at h
  · rename_i c' hfind
    cases h
    exact hfind
  · cases h

/-- What `components` and `master` find is the main event. -/
theorem main_found {lines : List Str} {found : List Component} {c : Component}
    (hfound : components lines = .ok found) (hmaster : master found = .ok c) :
    ∃ m, mainOf (pieces lines) = some m ∧ c = eventAt (flatten m.before).length m.body := by
  have hfind := master_ok hmaster
  rw [(components_pieces hfound).1, master_located, map_eq_some_iff] at hfind
  obtain ⟨m, hm, rfl⟩ := hfind
  exact ⟨m, hm, by rw [Nat.zero_add]⟩

/-- The lines an edit puts into the main event, before the people. -/
structure NewLines (rule : Bool) (new : List Str) : Prop where
  closed : closes 0 new = true
  replaced : others (replaced rule) .start new = []
  recurrenceId : (ownLines 0 new).filter (named "RECURRENCE-ID") = []
  sequence : ∀ line ∈ new, nameOf line ≠ "SEQUENCE"
  fine : ∀ line ∈ new, Fine line

/-- Properties that an edit replaces. -/
theorem newLines_of_names {rule : Bool} {new : List Str}
    (h : ∀ line ∈ new, ∃ name, Ics.replaced rule name = true ∧ name ≠ "SEQUENCE" ∧ Written name line) : NewLines rule new := by
  have hn := replaced_names rule
  have hid : Ics.replaced rule "RECURRENCE-ID" = false := by cases rule <;> decide
  have hother : ∀ line ∈ new, ∀ name : Str, Ics.replaced rule name = false → nameOf line ≠ name := by
    intro line hline name hname he
    obtain ⟨own, hown, -, hw⟩ := h line hline
    rw [← he, hw.name_eq, hown] at hname
    cases hname
  refine ⟨?_, ?_, ?_, ?_, ?_⟩
  · exact closes_of_names fun line hline => ⟨hother line hline _ hn.begin_, hother line hline _ hn.end_⟩
  · refine others_eq_nil hn fun line hline => ?_
    obtain ⟨own, hown, -, hw⟩ := h line hline
    rw [hw.name_eq, hown]
  · exact filter_ownLines_eq_nil fun line hline => hother line hline _ hid
  · intro line hline
    obtain ⟨own, -, hne, hw⟩ := h line hline
    rw [hw.name_eq]
    exact hne
  · intro line hline
    obtain ⟨own, hown, -, hw⟩ := h line hline
    refine hw.fine ?_
    rintro rfl
    revert hown
    cases rule <;> decide

theorem newLines_alarm (rule : Bool) (minutes : Option Int) (subject : Str) : NewLines rule (alarm minutes subject) := by
  obtain ⟨hothers, hcloses, hown, hseq⟩ := alarm_spec (Ics.replaced rule) minutes subject
  refine ⟨hcloses, hothers, by rw [hown]; rfl, hseq, ?_⟩
  rcases alarm_eq minutes subject with h | ⟨action, description, trigger, h, ha, hd, ht⟩
  · rw [h]
    exact fun line hline => by cases hline
  · rw [h]
    intro line hline
    simp only [mem_cons, not_mem_nil, or_false] at hline
    rcases hline with rfl | rfl | rfl | rfl | rfl
    · exact ⟨by decide, by decide, by decide⟩
    · exact ha.fine (by decide)
    · exact hd.fine (by decide)
    · exact ht.fine (by decide)
    · exact ⟨by decide, by decide, by decide⟩

theorem NewLines.append {rule : Bool} {new more : List Str} (h : NewLines rule new) (hmore : NewLines rule more) :
    NewLines rule (new ++ more) := by
  have hmem : ∀ {P : Str → Prop}, (∀ line ∈ new, P line) → (∀ line ∈ more, P line) →
      ∀ line ∈ new ++ more, P line := fun h1 h2 line hline =>
    (mem_append.mp hline).elim (h1 line) (h2 line)
  refine ⟨closes_append hmore.closed new 0 h.closed, ?_, ?_, hmem h.sequence hmore.sequence, hmem h.fine hmore.fine⟩
  · rw [others_append (replaced_names rule) more new .start Place.sound_start h.closed, h.replaced,
      hmore.replaced, append_nil]
  · rw [ownLines_append new more 0 h.closed, filter_append, h.recurrenceId, hmore.recurrenceId, append_nil]

theorem newLines_edit {p : Platform} {event edited : Event} {zone : Option Str} {now : Int} {rule : Option Str}
    (hrule : rule = event.recurrence.bind (fun r => rruleLine p r edited.start edited.allDay)) : NewLines event.recurrence.isSome
      (ownedLines p edited zone now ++ alarm event.reminderMinutes event.subject ++ rule.toList) := by
  refine NewLines.append (NewLines.append ?_ (newLines_alarm _ _ _)) ?_
  · refine newLines_of_names fun line hline => ?_
    obtain ⟨name, hname, hw⟩ := mem_ownedLines hline
    refine ⟨name, ?_, ?_, hw⟩
    · unfold Ics.replaced
      rw [contains_iff_mem.mpr hname]
      rfl
    · rintro rfl
      exact absurd hname (by decide)
  · refine newLines_of_names fun line hline => ⟨"RRULE", ?_, by decide, ?_⟩
    · rw [mem_toList, hrule, bind_eq_some_iff] at hline
      obtain ⟨r, hr, -⟩ := hline
      rw [hr]
      show replaced true "RRULE" = true
      decide
    · rw [mem_toList, hrule, bind_eq_some_iff] at hline
      obtain ⟨r, -, hline⟩ := hline
      exact written_rruleLine hline

/-- The event as it is written. -/
def editedEvent (p : Platform) (inside : List Str) (event : Event) (wholeSeries : Bool) : Event :=
  if (inside.any (named "RRULE") || event.recurrence.isSome) && wholeSeries then
    let original := ((occurrenceOf event.id).map (·.2)).getD event.start
    let first := ((inside.find? (named "DTSTART")).bind (instantOf p)).getD original
    let start := I64.wrap (first + I64.wrap (event.start - original))
    { event with start := start, end_ := I64.wrap (start + I64.wrap (event.end_ - event.start)) }
  else event

/-- The zone it is written in. -/
def editedZone (p : Platform) (inside : List Str) (event : Event) : Option Str :=
  if inside.any (named "RRULE") || event.recurrence.isSome then
    some (((inside.find? (named "DTSTART")).bind tzidOf).getD p.localTimezone)
  else none

/-- A save, step by step. -/
theorem patchEvent_steps {p : Platform} {ics : Str} {event : Event} {wholeSeries : Bool} {removed : List Str}
    {now : Int} {out : Str} (h : patchEvent p ics event wholeSeries removed now = .ok out) :
    ∃ found main merged again main' rule edited zone, components (unfold ics) = .ok found ∧ master found = .ok main ∧
      edited = editedEvent p (within (unfold ics) main) event wholeSeries ∧
      zone = editedZone p (within (unfold ics) main) event ∧
      rule = event.recurrence.bind (fun r => rruleLine p r edited.start edited.allDay) ∧
      mergePeopleEverywhere (rewrite (unfold ics) main
        (ownedLines p edited zone now ++ alarm event.reminderMinutes event.subject) rule.isNone rule) event removed =
        .ok merged ∧
      components merged = .ok again ∧ master again = .ok main' ∧ out = render (bumpSequence merged main') := by
  unfold patchEvent at h
  obtain ⟨found, hfound, h⟩ := Fallible.bind_ok.mp h
  obtain ⟨main, hmain, h⟩ := Fallible.bind_ok.mp h
  obtain ⟨merged, hmerged, h⟩ := Fallible.bind_ok.mp h
  obtain ⟨again, hagain, h⟩ := Fallible.bind_ok.mp h
  obtain ⟨main', hmain', h⟩ := Fallible.bind_ok.mp h
  cases h
  exact ⟨found, main, merged, again, main', _, _, _, hfound, hmain, rfl, rfl, rfl, hmerged, hagain, hmain', rfl⟩

section Save

variable {event : Event} {removed : List Str} {m : MainEvent} {new : List Str} {keepRule : Bool}

/-- The body of the main event when its properties are rewritten. -/
def rewritten (keepRule : Bool) (body new : List Str) : List Str :=
  others (dropped keepRule) .start body ++ new

variable {rule : Bool}

theorem rewritten_closes {body : List Str} (hbody : closes 0 body = true)
    (hnew : NewLines rule new) : closes 0 (rewritten keepRule body new) = true :=
  closes_append hnew.closed _ _ (others_closes (dropped_names keepRule) body .start Place.sound_start hbody)

theorem rewritten_recurrenceId {body : List Str} (hbody : closes 0 body = true)
    (hnew : NewLines rule new) : recurrenceIdOf (rewritten keepRule body new) = recurrenceIdOf body := by
  have hn := dropped_names keepRule
  have hid : dropped keepRule "RECURRENCE-ID" = false := by cases keepRule <;> decide
  have hsame : (ownLines 0 (others (dropped keepRule) .start body)).filter (named "RECURRENCE-ID") =
      (ownLines 0 body).filter (named "RECURRENCE-ID") :=
    recurrenceId_others hn hid body .start Place.sound_start hbody
  have hcloses : closes 0 (others (dropped keepRule) .start body) = true :=
    others_closes hn body .start Place.sound_start hbody
  unfold recurrenceIdOf rewritten
  rw [ownLines_append _ _ _ hcloses, filter_append, hnew.recurrenceId, append_nil, hsame]

/-- What the edit replaces is gone, and the other lines are there. -/
theorem rewritten_others {body : List Str} (hbody : closes 0 body = true)
    (hrule : keepRule = false → rule = true) (hnew : NewLines rule new) :
    others (replaced rule) .start (rewritten keepRule body new) = others (replaced rule) .start body := by
  have hle : ∀ name, dropped keepRule name = true → replaced rule name = true := by
    intro name hname
    unfold dropped at hname
    unfold replaced
    rw [Bool.or_eq_true, Bool.and_eq_true, Bool.not_eq_true'] at hname
    rcases hname with hown | ⟨hname, hkeep⟩
    · rw [hown]
      rfl
    · rw [hname, hrule hkeep]
      exact Bool.or_true _
  have hcloses : closes 0 (others (dropped keepRule) .start body) = true :=
    others_closes (dropped_names keepRule) body .start Place.sound_start hbody
  have hleft : (⟨Place.start.left, false⟩ : Place) = .start := rfl
  have htwice := others_others (dropped_names keepRule) hle body .start Place.sound_start
  rw [hleft] at htwice
  unfold rewritten
  rw [others_append (replaced_names rule) new _ .start Place.sound_start hcloses, hnew.replaced, append_nil, htwice]

theorem rewritten_firstOwn {body : List Str} (hseq : sequenceFirst .start body = true)
    (hnew : NewLines rule new) : firstOwn 0 (rewritten keepRule body new) = true :=
  firstOwn_append hnew.sequence _ _ (firstOwn_others (dropped_names keepRule) (by cases keepRule <;> decide)
    body .start Place.sound_start hseq)

theorem others_subset {names : Str → Bool} : ∀ (lines : List Str) (q : Place), ∀ line ∈ others names q lines, line ∈ lines
  | [], _, _, h => h
  | l :: lines, q, line, h => by
    rw [others] at h
    split at h
    · exact mem_cons_of_mem _ (others_subset lines _ line h)
    · rcases mem_cons.mp h with rfl | h
      · exact mem_cons_self
      · exact mem_cons_of_mem _ (others_subset lines _ line h)

/-- The people of the main event beside what was rewritten. -/
theorem PeopleKept.mainKept {body merged : List Str} (hbody : closes 0 body = true)
    (hrule : keepRule = false → rule = true) (hnew : NewLines rule new)
    (h : PeopleKept removed (rewritten keepRule body new) merged) :
    ∃ added : List Str, (∀ line ∈ added, isPerson line = true) ∧ others (replaced rule) .start merged =
      withoutRemoved (removed.map normalized) 0 (others (replaced rule) .start body) ++ added := by
  obtain ⟨added, hadded, rfl⟩ := h
  have hn := replaced_names rule
  have hbodyCloses : closes 0 (rewritten keepRule body new) = true := rewritten_closes hbody hnew
  have hcloses := withoutRemoved_closes (removed.map normalized) _ 0 hbodyCloses
  have hpeople : others (replaced rule) .start added = added :=
    others_people hn (by cases rule <;> decide) hadded
  have hwithout := others_withoutRemoved hn (removed.map normalized) (rewritten keepRule body new) .start Place.sound_start
  refine ⟨added, hadded, ?_⟩
  rw [others_append hn added _ .start Place.sound_start hcloses, hpeople]
  exact congrArg (· ++ added) (hwithout.trans (congrArg _ (rewritten_others hbody hrule hnew)))

theorem PeopleKept.firstOwn {rule : Bool} {body merged : List Str} (hseq : sequenceFirst .start body = true)
    (hnew : NewLines rule new) (h : PeopleKept removed (rewritten keepRule body new) merged) : firstOwn 0 merged = true := by
  obtain ⟨added, hadded, rfl⟩ := h
  refine firstOwn_append (fun line hline hname => ?_) _ _ ?_
  · rcases isPerson_name (hadded line hline) with hn | hn <;> (rw [hname] at hn; exact absurd hn (by decide))
  · rw [firstOwn_withoutRemoved]
    exact rewritten_firstOwn hseq hnew

end Save

/-- What becomes of the events of an object, if the alarms of the main one are whole and no address to be written
has a line break. -/
theorem patchEvent_main {p : Platform} {ics : Str} {event : Event} {wholeSeries : Bool} {removed : List Str} {now : Int}
    {out : Str} (h : patchEvent p ics event wholeSeries removed now = .ok out) (hplain : PlainAddresses event removed)
    (hwhole : ∀ m, mainOf (pieces (unfold ics)) = some m → alarmsWhole .start m.body = true) :
    ∃ m before body last after edited zone rule, mainOf (pieces (unfold ics)) = some m ∧ closes 0 m.body = true ∧
      edited = editedEvent p (m.open_ :: m.body) event wholeSeries ∧
      zone = editedZone p (m.open_ :: m.body) event ∧
      rule = event.recurrence.bind (fun r => rruleLine p r edited.start edited.allDay) ∧
      PeopleKept removed (rewritten rule.isNone m.body (ownedLines p edited zone now ++
        alarm event.reminderMinutes event.subject ++ rule.toList)) body ∧
      List.Forall₂ (Alike (PeopleKept removed)) m.before before ∧
      List.Forall₂ (Alike (PeopleKept removed)) m.after after ∧ Bumped body last ∧
      mainOf (pieces (unfold out)) = some ⟨before, m.open_, last, m.close, after⟩ := by
  obtain ⟨found, main, merged, again, main', rule, edited, zone, hfound, hmaster, hedited, hzone, hrule, hmerged,
    hagain, hmaster', rfl⟩ := patchEvent_steps h
  obtain ⟨m, hm, rfl⟩ := main_found hfound hmaster
  obtain ⟨hps, hid⟩ := mainOf_some hm
  have hobj := pieces_object (unfold ics)
  have hlines := flatten_pieces (unfold ics)
  rw [hps] at hobj hlines
  have hmem : Piece.event m.open_ m.body m.close ∈ m.before ++ .event m.open_ m.body m.close :: m.after := by simp
  have hevent := hobj.closes_mem hmem
  have hnew : NewLines event.recurrence.isSome
      (ownedLines p edited zone now ++ alarm event.reminderMinutes event.subject ++ rule.toList) :=
    newLines_edit hrule
  -- the properties of the main event
  have hplace := inPlace_around m.before m.open_ m.body m.close m.after
  rw [hlines] at hplace
  rw [hplace.within] at hedited hzone
  have hrewrite := @rewrite_event _ _ _ _ _ _ (ownedLines p edited zone now ++
    alarm event.reminderMinutes event.subject) rule.isNone rule hplace
  have hkept : keptLines rule.isNone false 0 m.body = others (dropped rule.isNone) .start m.body :=
    keptLines_eq rule.isNone m.body .start Place.sound_start (hwhole m hm)
  rw [hkept, append_assoc (others _ _ _)] at hrewrite
  change _ = flatten m.before ++ m.open_ :: (rewritten rule.isNone m.body _ ++ m.close :: flatten m.after) at hrewrite
  rw [← flatten_around] at hrewrite
  rw [hrewrite] at hmerged
  have hclosed : ∀ {body : List Str}, closes 0 body = true → closes 0 (rewritten rule.isNone body _) = true :=
    fun hb => rewritten_closes hb hnew
  have hobj1 := hobj.around hclosed
  have hgrown1 : Grown (unfold ics) (flatten (m.before ++ .event m.open_
      (rewritten rule.isNone m.body (ownedLines p edited zone now ++
        alarm event.reminderMinutes event.subject ++ rule.toList)) m.close :: m.after)) := by
    rw [← hlines, flatten_around, flatten_around]
    refine Grown.body fun line hline => ?_
    rcases mem_append.mp hline with hline | hline
    · exact .inl (others_subset _ _ line hline)
    · exact .inr (hnew.fine line hline)
  -- the people of every event
  obtain ⟨ps, hpeople, rfl, hgrown2⟩ := mergePeopleEverywhere_pieces hplain hobj1 hmerged
  obtain ⟨before, body, after, rfl, hbefore, hbody, hafter⟩ := Alike.around hpeople
  have hobj2 := Object.replace (fun _ _ hR => hR.closed) hpeople hobj1
  have hcloses1 := hclosed hevent.2.1
  have hid1 := (hbody.recurrenceId hcloses1).trans (rewritten_recurrenceId hevent.2.1 hnew)
  rw [hid] at hid1
  have hbefore' := Alike.closed hbefore fun o b c hb => (hobj.closes_mem (mem_append_left _ hb)).2.1
  have hmain : ∀ {last : List Str}, recurrenceIdOf last = none →
      mainOf (before ++ .event m.open_ last m.close :: after) = some ⟨before, m.open_, last, m.close, after⟩ :=
    fun hlast => mainOf_alike (fun b b' hR => by rw [hR.2.recurrenceId hR.1]) hm hbefore' hlast
  obtain ⟨m2, hm2, rfl⟩ := main_found hagain hmaster'
  rw [pieces_flatten hobj2, hmain hid1] at hm2
  cases hm2
  -- the SEQUENCE of the main event
  have hopen : nameOf m.open_ = "BEGIN" := nameOf_of_begins (begins_of_eq hevent.1)
  obtain ⟨last, hbump, hbumped⟩ := bumpSequence_event hopen (inPlace_around before m.open_ body m.close after)
  obtain ⟨hclosed3, hown⟩ := hbumped.own (hbody.closed hcloses1)
  have hid2 : recurrenceIdOf last = none := by
    unfold recurrenceIdOf at hid1 ⊢
    rw [hown _ (by decide), hid1]
  have hgrown3 : Grown (flatten (before ++ .event m.open_ body m.close :: after))
      (flatten (before ++ .event m.open_ last m.close :: after)) := by
    rw [flatten_around, flatten_around]
    exact Grown.body hbumped.mem
  have hclean := ((hgrown1.trans hgrown2).trans hgrown3).clean (unfold_clean ics)
  rw [← flatten_around] at hbump
  refine ⟨m, before, body, last, after, edited, zone, rule, hm, hevent.2.1, hedited, hzone, hrule, hbody, hbefore,
    hafter, hbumped, ?_⟩
  rw [hbump, unfold_render hclean, pieces_flatten (hobj2.around fun _ => hclosed3)]
  exact hmain hid2

/-- A machine that knows no zone by name and whose clock is UTC. -/
def utcOnly : Platform := ⟨fun _ => none, (fun _ _ h => by cases h), .utc, "UTC"⟩

def edit : Event :=
  ⟨"1", "Lunch", none, 0, 3600, false, none, none, [], none, []⟩

def plainObject : Str :=
  render ["BEGIN:VCALENDAR", "BEGIN:VEVENT", "UID:1", "SEQUENCE:2",
    "X-NOTE:kept", "END:VEVENT", "END:VCALENDAR"]

/-- An event with a participant component (RFC 9073), numbered on its own. -/
def nestedObject : Str :=
  render ["BEGIN:VCALENDAR", "BEGIN:VEVENT", "UID:1", "BEGIN:PARTICIPANT",
    "SEQUENCE:7", "END:PARTICIPANT", "SEQUENCE:2", "END:VEVENT",
    "END:VCALENDAR"]

theorem ok_of_isSome {α : Type} {x : Except Str α} (h : x.toOption.isSome = true) : ∃ a, x = .ok a := by
  cases x with
  | error e => cases h
  | ok a => exact ⟨a, rfl⟩

end Oreneta.Ics

import Oreneta.Ics.Addresses
import Oreneta.Ics.Kept

/-!
# iCalendar: the people of an event merged

`merge_people` once and again, told by the attendee lines that stand directly in the event.

* `attendeesOf_merged` — the attendees after a merge: those there were without the removed, and the new ones.
* `merge_again_iff` — a merge repeated changes nothing exactly if no person it can add has a colon in the name.
* `merge_true_iff` — it adds nobody who is there and leaves nobody who was to go exactly if the attendee lines of the
  event are read right.
* `people_read_iff` — these beside what the two readers of a line make of it.
-/

namespace Oreneta.Ics

open Text List

/-- The attendee lines of an event. -/
def attendeesOf (body : List Str) : List Str := (ownLines 0 body).filter (named "ATTENDEE")

/-- The body of an event when its people are merged. -/
def mergedBody (event : Event) (removed body : List Str) : List Str :=
  withoutRemoved (removed.map normalized) 0 body ++ addedPeople event (removed.map normalized)
    ⟨((attendeesOf body).filter fun line => !isRemoved (removed.map normalized) line).map addressOf,
      (ownLines 0 body).any (named "ORGANIZER"), 0, []⟩

/-! ## What a pass over the lines sees -/

/-- A property stands in the event where its line does. -/
theorem ownLines_step {name : Str} (hb : name ≠ "BEGIN") (depth : Nat) (line : Str) (lines : List Str) :
    (ownLines depth (line :: lines)).filter (named name) =
      (if depth = 0 ∧ named name line = true then [line] else []) ++
        (ownLines (deeper depth line) lines).filter (named name) := by
  rw [ownLines]
  by_cases hbegin : begins line = true
  · have hno : ¬ (depth = 0 ∧ named name line = true) := fun h =>
      hb ((named_iff.mp h.2).symm.trans (nameOf_of_begins hbegin))
    rw [if_pos hbegin, if_neg hno, deeper, if_pos hbegin]
    rfl
  · by_cases hend : (ends line && decide (0 < depth)) = true
    · have hno : ¬ (depth = 0 ∧ named name line = true) := fun h => by
        rw [h.1] at hend
        simp at hend
      rw [if_neg hbegin, if_pos hend, if_neg hno, deeper, if_neg hbegin, if_pos hend]
      rfl
    · rw [if_neg hbegin, if_neg hend, deeper, if_neg hbegin, if_neg hend]
      by_cases hd : depth = 0
      · rw [if_pos hd]
        by_cases hn : named name line = true
        · rw [if_pos ⟨hd, hn⟩, filter_cons_of_pos hn]
          rfl
        · rw [if_neg fun h => hn h.2, filter_cons_of_neg hn]
          rfl
      · rw [if_neg hd, if_neg fun h => hd h.1]
        rfl

theorem any_ownLines (name : Str) (depth : Nat) (lines : List Str) :
    (ownLines depth lines).any (named name) = !((ownLines depth lines).filter (named name)).isEmpty := by
  rw [Bool.eq_iff_iff, any_eq_true, Bool.not_eq_true', ← Bool.not_eq_true, List.isEmpty_iff, filter_eq_nil_iff]
  push Not
  rfl

theorem seeLine_people (removed : List Str) (s : People) (index : Nat) (line : Str) :
    (seeLine removed s index line).kept = s.kept ++
        (if s.depth = 0 ∧ named "ATTENDEE" line = true ∧ isRemoved removed line = false then [addressOf line]
          else []) ∧
      (seeLine removed s index line).hasOrganizer =
        (s.hasOrganizer || (decide (s.depth = 0) && named "ORGANIZER" line)) := by
  have hatt : ∀ {other : Str}, nameOf line = other → other ≠ "ATTENDEE" →
      named "ATTENDEE" line = false :=
    fun hn hne => Bool.eq_false_iff.mpr fun h => hne (hn.symm.trans (named_iff.mp h))
  have horg : ∀ {other : Str}, nameOf line = other → other ≠ "ORGANIZER" →
      named "ORGANIZER" line = false :=
    fun hn hne => Bool.eq_false_iff.mpr fun h => hne (hn.symm.trans (named_iff.mp h))
  unfold seeLine
  by_cases hb : begins line = true
  · rw [if_pos hb, hatt (nameOf_of_begins hb) (by decide), horg (nameOf_of_begins hb) (by decide)]
    simp
  · rw [if_neg hb]
    by_cases he : (ends line && decide (0 < s.depth)) = true
    · have hname := nameOf_of_ends ((Bool.and_eq_true _ _).mp he).1
      rw [if_pos he, hatt hname (by decide), horg hname (by decide)]
      simp
    · rw [if_neg he]
      by_cases hd : s.depth = 0
      · rw [if_pos hd]
        by_cases ho : nameOf line = "ORGANIZER"
        · rw [if_pos ho, hatt ho (by decide), named_iff.mpr ho]
          simp [hd]
        · have hno : named "ORGANIZER" line = false := Bool.eq_false_iff.mpr fun h => ho (named_iff.mp h)
          rw [if_neg ho, hno]
          by_cases ha : nameOf line = "ATTENDEE"
          · have hremoved : isRemoved removed line = (!(addressOf line).isEmpty && removed.contains (addressOf line)) := by
              rw [isRemoved, named_iff.mpr ha, Bool.true_and]
            rw [if_pos ha, named_iff.mpr ha, ← hremoved]
            cases hr : isRemoved removed line with
            | true => simp
            | false => simp [hd]
          · rw [if_neg ha, Bool.eq_false_iff.mpr fun h => ha (named_iff.mp h)]
            simp
      · rw [if_neg hd]
        simp [hd]

theorem seeLines_people (removed : List Str) : ∀ (lines : List Str) (index : Nat) (s : People),
    (seeLines removed lines index s).kept = s.kept ++ (((ownLines s.depth lines).filter (named "ATTENDEE")).filter
          fun line => !isRemoved removed line).map addressOf ∧
      (seeLines removed lines index s).hasOrganizer =
        (s.hasOrganizer || (ownLines s.depth lines).any (named "ORGANIZER"))
  | [], _, s => by simp [seeLines, ownLines]
  | line :: lines, index, s => by
    obtain ⟨hkept, horg⟩ := seeLine_people removed s index line
    have hdepth := (seeLine_drop removed s index line).2
    obtain ⟨ih1, ih2⟩ := seeLines_people removed lines (index + 1) (seeLine removed s index line)
    rw [hdepth] at ih1 ih2
    rw [seeLines]
    constructor
    · rw [ih1, hkept, ownLines_step (by decide), filter_append, map_append, ← append_assoc]
      congr 2
      by_cases hd : s.depth = 0 ∧ named "ATTENDEE" line = true
      · rw [if_pos hd]
        by_cases hr : isRemoved removed line = true
        · have hf : [line].filter (fun line => !isRemoved removed line) = [] := by
            rw [filter_cons_of_neg (by rw [hr]; decide), filter_nil]
          rw [if_neg fun h => Bool.false_ne_true (h.2.2.symm.trans hr), hf]
          rfl
        · rw [Bool.not_eq_true] at hr
          have hf : [line].filter (fun line => !isRemoved removed line) = [line] := by
            rw [filter_cons_of_pos (by rw [hr]; rfl), filter_nil]
          rw [if_pos ⟨hd.1, hd.2, hr⟩, hf]
          rfl
      · rw [if_neg hd, if_neg fun h => hd ⟨h.1, h.2.1⟩]
        rfl
    · rw [ih2, horg, any_ownLines, any_ownLines, ownLines_step (by decide)]
      by_cases hd : s.depth = 0 ∧ named "ORGANIZER" line = true
      · rw [if_pos hd, decide_eq_true hd.1, hd.2, singleton_append, isEmpty_cons, Bool.and_self, Bool.or_true]
        simp
      · rw [if_neg hd]
        have : (decide (s.depth = 0) && named "ORGANIZER" line) = false := by
          rw [Bool.eq_false_iff, ne_eq, Bool.and_eq_true, decide_eq_true_eq]
          exact hd
        rw [this, Bool.or_false]
        rfl

variable {lines body : List Str} {at_ : Component}

/-- Which people are added depends on what was kept and whether there is an organizer. -/
theorem mergePeople_merged (event : Event) (removed : List Str) {before after : List Str}
    {open_ : Str} (h : InPlace lines at_ before open_ body after) :
    mergePeople lines at_ event removed = before ++ open_ :: (mergedBody event removed body ++ after) := by
  obtain ⟨hkept, horg⟩ := seeLines_people (removed.map normalized) body (before.length + 1) ⟨[], false, 0, []⟩
  rw [mergePeople_eq event removed h]
  congr 4
  unfold addedPeople
  rw [hkept, horg]
  simp only [nil_append, Bool.false_or]
  rfl

/-! ## Who is added -/

/-- The people of an event who are not in it yet. -/
def newPeople (removed : List Str) : List Participant → List Str → List Participant
  | [], _ => []
  | person :: rest, kept =>
    if person.addr.contains '@' && !kept.contains (normalized person.addr) && !removed.contains (normalized person.addr)
    then person :: newPeople removed rest (kept ++ [normalized person.addr])
    else newPeople removed rest kept

theorem newAttendees_eq (removed : List Str) : ∀ (people : List Participant) (kept : List Str), newAttendees removed people kept =
      (kept ++ (newPeople removed people kept).map (fun who => normalized who.addr),
        (newPeople removed people kept).map attendeeLine)
  | [], kept => by simp [newAttendees, newPeople]
  | person :: rest, kept => by
    rw [newAttendees, newPeople]
    dsimp only
    split
    · rw [newAttendees_eq removed rest]
      simp
    · exact newAttendees_eq removed rest kept

/-- The first of these people with this address. -/
def firstWith (people : List Participant) (addr : Str) : Option Participant :=
  people.find? fun r => r.addr.contains '@' && decide (normalized r.addr = addr)

/-- Whoever is added is the first with an address that was not there and was not to go. -/
theorem mem_newPeople {removed : List Str} {who : Participant} : ∀ {people : List Participant} {kept : List Str},
    who ∈ newPeople removed people kept → '@' ∈ who.addr ∧ normalized who.addr ∉ kept ∧
      normalized who.addr ∉ removed ∧ firstWith people (normalized who.addr) = some who
  | [], _, h => by cases h
  | person :: rest, kept, h => by
    rw [newPeople] at h
    split at h
    · rename_i hadd
      simp only [Bool.and_eq_true, Bool.not_eq_true', contains_eq_mem, decide_eq_true_eq, decide_eq_false_iff_not] at hadd
      rcases mem_cons.mp h with rfl | h
      · exact ⟨hadd.1.1, hadd.1.2, hadd.2, find?_cons_of_pos (by simp [hadd.1.1])⟩
      · obtain ⟨hat, hkept, hremoved, hfirst⟩ := mem_newPeople h
        have hne : normalized person.addr ≠ normalized who.addr := fun he =>
          hkept (mem_append_right _ (mem_singleton.mpr he.symm))
        exact ⟨hat, fun hk => hkept (mem_append_left _ hk), hremoved, (find?_cons_of_neg (by simp [hne])).trans hfirst⟩
    · rename_i hskip
      obtain ⟨hat, hkept, hremoved, hfirst⟩ := mem_newPeople h
      refine ⟨hat, hkept, hremoved, (find?_cons_of_neg fun he => hskip ?_).trans hfirst⟩
      rw [Bool.and_eq_true, decide_eq_true_eq] at he
      rw [he.1, he.2]
      simp [hkept, hremoved]

/-- Everybody with an address is there in the end, but for those who are to go. -/
theorem newPeople_complete {removed : List Str} {who : Participant} (hat : '@' ∈ who.addr)
    (hremoved : normalized who.addr ∉ removed) : ∀ {people : List Participant} {kept : List Str}, who ∈ people →
      normalized who.addr ∈ kept ++ (newPeople removed people kept).map (fun who => normalized who.addr)
  | person :: rest, kept, h => by
    rw [newPeople]
    rcases mem_cons.mp h with rfl | h
    · split
      · rw [map_cons]
        exact mem_append_right _ mem_cons_self
      · rename_i hskip
        refine mem_append_left _ ?_
        by_contra hkept
        refine hskip ?_
        simp [hat, hkept, hremoved]
    · split
      · have ih := @newPeople_complete _ _ hat hremoved rest (kept ++ [normalized person.addr]) h
        rwa [append_assoc, singleton_append] at ih
      · exact newPeople_complete hat hremoved h

/-- Nobody is added when everybody is there. -/
theorem newPeople_eq_nil {removed : List Str} {people : List Participant} {kept : List Str}
    (h : ∀ who ∈ people, '@' ∈ who.addr → normalized who.addr ∉ removed → normalized who.addr ∈ kept) :
    newPeople removed people kept = [] := by
  rw [eq_nil_iff_forall_not_mem]
  intro who hwho
  obtain ⟨hat, hkept, hremoved, hfirst⟩ := mem_newPeople hwho
  exact hkept (h who (mem_of_find?_eq_some hfirst) hat hremoved)

/-- The organizer, if there is none and somebody to organize. -/
def organizerLines (event : Event) (hasOrganizer : Bool) (kept : List Str) : List Str :=
  match event.organizer with
  | some organizer =>
    if !hasOrganizer && kept.any (fun addr => !addr.isEmpty) && organizer.addr.contains '@' then
      [organizerLine organizer]
    else []
  | none => []

theorem addedPeople_eq (event : Event) (removed : List Str) (seen : People) :
    addedPeople event removed seen = organizerLines event seen.hasOrganizer
        (seen.kept ++ (newPeople removed event.attendees seen.kept).map (fun who => normalized who.addr)) ++
      (newPeople removed event.attendees seen.kept).map attendeeLine := by
  unfold addedPeople organizerLines
  rw [newAttendees_eq]
  cases event.organizer with
  | none => rfl
  | some organizer =>
    dsimp only
    split
    · rfl
    · rfl

/-- What follows the name of a people line. -/
theorem cn_cons (name tail : Str) {c : Char} (hc : c = ':' ∨ c = ';') :
    ∃ d rest, cn name ++ c :: tail = d :: rest ∧ (d = ':' ∨ d = ';') := by
  unfold cn
  split
  · exact ⟨c, tail, rfl, hc⟩
  · exact ⟨';', _, rfl, .inr rfl⟩

theorem nameOf_organizerLine (who : Participant) : nameOf (organizerLine who) = "ORGANIZER" := by
  obtain ⟨d, rest, hrest, hd⟩ := cn_cons who.name ("mailto:" ++ normalized who.addr) (.inl rfl)
  have hassoc : ∀ o c n : Str, o ++ c ++ ":mailto:" ++ n = o ++ (c ++ ':' :: ("mailto:" ++ n)) := by
    intro o c n
    rw [append_assoc, append_assoc]
    rfl
  have hline : organizerLine who =
      "ORGANIZER" ++ (cn who.name ++ ':' :: ("mailto:" ++ normalized who.addr)) := by
    unfold organizerLine
    exact hassoc _ _ _
  rw [hline, hrest, nameOf_append (by decide +kernel) hd]
  rfl

theorem nameOf_attendeeLine (who : Participant) : nameOf (attendeeLine who) = "ATTENDEE" := by
  have hline : ∃ tail, attendeeLine who = "ATTENDEE" ++ (cn who.name ++ ';' :: tail) := by
    unfold attendeeLine
    dsimp only
    exact ⟨_, by simp only [append_assoc]; rfl⟩
  obtain ⟨tail, hline⟩ := hline
  obtain ⟨d, rest, hrest, hd⟩ := cn_cons who.name tail (.inr rfl)
  rw [hline, hrest, nameOf_append (by decide +kernel) hd]
  rfl

variable {event : Event} {line : Str}

theorem organizerLines_name {hasOrganizer : Bool} {kept : List Str}
    (h : line ∈ organizerLines event hasOrganizer kept) : nameOf line = "ORGANIZER" := by
  unfold organizerLines at h
  split at h
  · split at h
    · rw [mem_singleton.mp h]
      exact nameOf_organizerLine _
    · cases h
  · cases h

/-! ## The attendees after a merge -/

/-- Taking attendees out leaves the attendees who are not to go. -/
theorem attendees_withoutRemoved (removed : List Str) : ∀ (lines : List Str) (depth : Nat), closes depth lines = true →
    (ownLines depth (withoutRemoved removed depth lines)).filter (named "ATTENDEE") =
      ((ownLines depth lines).filter (named "ATTENDEE")).filter fun line => !isRemoved removed line
  | [], _, _ => rfl
  | line :: lines, depth, h => by
    obtain ⟨hdesc, hrest⟩ := closes_cons h
    have ih := attendees_withoutRemoved removed lines _ hrest
    rw [withoutRemoved, ownLines_step (by decide), filter_append]
    split
    · rename_i hdrop
      rw [Bool.and_eq_true, decide_eq_true_eq] at hdrop
      have hname := isRemoved_name hdrop.2
      have hnone : [line].filter (fun line => !isRemoved removed line) = [] := by
        rw [filter_cons_of_neg (by rw [hdrop.2]; decide), filter_nil]
      have hdeep : deeper depth line = depth := deeper_of_name (by rw [hname]; decide) (by rw [hname]; decide)
      rw [if_pos ⟨hdrop.1, named_iff.mpr hname⟩, hnone, ← ih, hdeep]
      rfl
    · rename_i hkeep
      rw [ownLines_step (by decide), ih]
      congr 1
      by_cases hown : depth = 0 ∧ named "ATTENDEE" line = true
      · have hr : isRemoved removed line = false := by
          rw [Bool.eq_false_iff]
          intro hr
          refine hkeep ?_
          rw [hr, hown.1]
          rfl
        have hone : [line].filter (fun line => !isRemoved removed line) = [line] := by
          rw [filter_cons_of_pos (by rw [hr]; rfl), filter_nil]
        rw [if_pos hown, hone]
      · rw [if_neg hown]
        rfl

/-- Nothing is taken out when nobody is to go. -/
theorem withoutRemoved_eq_self (removed : List Str) : ∀ (lines : List Str) (depth : Nat), closes depth lines = true →
    (∀ line ∈ (ownLines depth lines).filter (named "ATTENDEE"), isRemoved removed line = false) →
      withoutRemoved removed depth lines = lines
  | [], _, _, _ => rfl
  | line :: lines, depth, hcloses, h => by
    obtain ⟨hdesc, hrest⟩ := closes_cons hcloses
    rw [ownLines_step (by decide)] at h
    have ih := withoutRemoved_eq_self removed lines _ hrest fun l hl => h l (mem_append_right _ hl)
    rw [withoutRemoved, if_neg, ih]
    intro hdrop
    rw [Bool.and_eq_true, decide_eq_true_eq] at hdrop
    have hname := named_iff.mpr (isRemoved_name hdrop.2)
    have hkept := h line (mem_append_left _ (by rw [if_pos ⟨hdrop.1, hname⟩]; exact mem_singleton_self _))
    rw [hdrop.2] at hkept
    cases hkept

/-- The addresses seen in an event while its people are merged. -/
def keptOf (removed body : List Str) : List Str :=
  ((attendeesOf body).filter fun line => !isRemoved removed line).map addressOf

theorem mergedBody_eq (event : Event) (removed body : List Str) : mergedBody event removed body =
    withoutRemoved (removed.map normalized) 0 body ++ (organizerLines event ((ownLines 0 body).any (named "ORGANIZER"))
        (keptOf (removed.map normalized) body ++ (newPeople (removed.map normalized) event.attendees
          (keptOf (removed.map normalized) body)).map (fun who => normalized who.addr)) ++
        (newPeople (removed.map normalized) event.attendees (keptOf (removed.map normalized) body)).map attendeeLine) := by
  rw [mergedBody, addedPeople_eq]
  rfl

theorem added_isPerson {hasOrganizer : Bool} {kept : List Str} {people : List Participant}
    (h : line ∈ organizerLines event hasOrganizer kept ++ people.map attendeeLine) : isPerson line = true := by
  rw [isPerson, Bool.or_eq_true, named_iff, named_iff]
  rcases mem_append.mp h with h | h
  · exact .inl (organizerLines_name h)
  · obtain ⟨who, -, rfl⟩ := mem_map.mp h
    exact .inr (nameOf_attendeeLine who)

theorem mergedBody_people (event : Event) (removed body : List Str) : PeopleKept removed body (mergedBody event removed body) :=
  ⟨_, fun _ hline => added_isPerson hline, mergedBody_eq event removed body⟩

/-- What stands in an event after a merge. -/
theorem ownLines_merged (event : Event) (removed : List Str) (h : closes 0 body = true) :
    ownLines 0 (mergedBody event removed body) = ownLines 0 (withoutRemoved (removed.map normalized) 0 body) ++
      (organizerLines event ((ownLines 0 body).any (named "ORGANIZER"))
        (keptOf (removed.map normalized) body ++ (newPeople (removed.map normalized) event.attendees
          (keptOf (removed.map normalized) body)).map (fun who => normalized who.addr)) ++
        (newPeople (removed.map normalized) event.attendees (keptOf (removed.map normalized) body)).map attendeeLine) := by
  rw [mergedBody_eq, ownLines_append _ _ _ (withoutRemoved_closes _ body 0 h),
    ownLines_of_names fun line hline => isPerson_plain (added_isPerson hline)]

/-- **The attendees after a merge**: those there were without the removed, and the new ones. -/
theorem attendeesOf_merged (event : Event) (removed : List Str) (h : closes 0 body = true) :
    attendeesOf (mergedBody event removed body) =
      ((attendeesOf body).filter fun line => !isRemoved (removed.map normalized) line) ++
        (newPeople (removed.map normalized) event.attendees (keptOf (removed.map normalized) body)).map attendeeLine := by
  rw [attendeesOf, ownLines_merged event removed h, filter_append, attendees_withoutRemoved _ body 0 h, filter_append]
  congr 1
  rw [filter_eq_nil_iff.mpr, filter_eq_self.mpr, nil_append]
  · intro line hline
    obtain ⟨who, -, rfl⟩ := mem_map.mp hline
    exact named_iff.mpr (nameOf_attendeeLine who)
  · intro line hline hn
    have hname := (organizerLines_name hline).symm.trans (named_iff.mp hn)
    exact absurd hname (by decide)

/-! ## The event found again -/

/-- Whether the scan goes on depends on what stands open, and how deep. -/
theorem scanLine_shape {s s' t : Scan} {i j : Nat} (hdepth : s.depth = s'.depth)
    (hopen : s.current.isSome = s'.current.isSome) (h : scanLine s i line = .ok t) :
    ∃ t', scanLine s' j line = .ok t' ∧ t.depth = t'.depth ∧ t.current.isSome = t'.current.isSome := by
  unfold scanLine at h ⊢
  rw [hdepth, hopen] at h
  by_cases hbegin : upper line = BEGIN_VEVENT
  · rw [if_pos hbegin] at h ⊢
    cases h
    exact ⟨_, rfl, rfl, rfl⟩
  rw [if_neg hbegin] at h ⊢
  by_cases hin : (begins line && s'.current.isSome) = true
  · rw [if_pos hin] at h ⊢
    cases h
    exact ⟨_, rfl, rfl, hopen⟩
  rw [if_neg hin] at h ⊢
  by_cases hout : (ends line && s'.current.isSome && decide (0 < s'.depth)) = true
  · rw [if_pos hout] at h ⊢
    cases h
    exact ⟨_, rfl, rfl, hopen⟩
  rw [if_neg hout] at h ⊢
  cases hc : s.current with
  | none =>
    rw [hc] at h hopen
    have hc' : s'.current = none := by rwa [eq_comm, Option.isSome_none, Option.isSome_eq_false_iff, Option.isNone_iff_eq_none] at hopen
    rw [hc']
    split at h
    · cases h
    · rename_i hend
      cases h
      rw [if_neg hend]
      exact ⟨_, rfl, hdepth, by rw [hc, hc']⟩
  | some c =>
    rw [hc] at h hopen
    obtain ⟨c', hc'⟩ := Option.isSome_iff_exists.mp hopen.symm
    rw [hc']
    split at h
    · rename_i hend
      cases h
      rw [if_pos hend]
      exact ⟨_, rfl, rfl, rfl⟩
    · rename_i hend
      cases h
      rw [if_neg hend]
      dsimp only
      split
      · exact ⟨_, rfl, rfl, rfl⟩
      · exact ⟨_, rfl, hdepth, by rw [hc, hc']; rfl⟩

theorem scanLines_shape : ∀ (lines : List Str) {s s' t : Scan} {i j : Nat}, s.depth = s'.depth →
    s.current.isSome = s'.current.isSome → scanLines lines i s = .ok t → ∃ t', scanLines lines j s' = .ok t'
  | [], _, s', _, _, _, _, _, _ => ⟨s', rfl⟩
  | line :: lines, s, s', t, i, j, hdepth, hopen, h => by
    rw [scanLines] at h
    cases hs : scanLine s i line with
    | error e =>
      rw [hs] at h
      cases h
    | ok s1 =>
      rw [hs] at h
      obtain ⟨s1', hs', hdepth', hopen'⟩ := scanLine_shape (j := j) hdepth hopen hs
      rw [scanLines, hs']
      exact scanLines_shape lines hdepth' hopen' h

theorem scanLines_append : ∀ (lines more : List Str) (i : Nat) (s : Scan), scanLines (lines ++ more) i s =
    (scanLines lines i s).bind (scanLines more (i + lines.length))
  | [], _, _, _ => rfl
  | line :: lines, more, i, s => by
    rw [cons_append, scanLines, scanLines, length_cons, Nat.add_comm lines.length, ← Nat.add_assoc]
    cases scanLine s i line with
    | error e => rfl
    | ok s1 => exact scanLines_append lines more (i + 1) s1

variable {found : List Component}

/-- Where an event of an object stands. -/
theorem found_around {n : Nat} (h : components lines = .ok found) (hn : found[n]? = some at_) :
    ∃ before open_ body close after, lines = flatten (before ++ .event open_ body close :: after) ∧
      Object (before ++ .event open_ body close :: after) ∧ n = (located 0 before).length ∧
      at_ = eventAt (flatten before).length body := by
  have hsplit : ∀ (ps : List Piece) (index n : Nat), (located index ps)[n]? = some at_ →
      ∃ before open_ body close after, ps = before ++ .event open_ body close :: after ∧
        n = (located 0 before).length ∧ at_ = eventAt (index + (flatten before).length) body := by
    intro ps
    induction ps with
    | nil => exact fun index n h => by simp [located] at h
    | cons p ps ih =>
      intro index n h
      cases p with
      | outer line =>
        obtain ⟨before, open_, body, close, after, rfl, hlen, hat⟩ := ih (index + 1) n h
        refine ⟨.outer line :: before, open_, body, close, after, rfl, ?_, ?_⟩
        · rw [hlen]
          exact length_located before 0 1
        · rw [hat, flatten_outer, length_cons, Nat.add_comm (flatten before).length, ← Nat.add_assoc]
      | event open_ body close =>
        cases n with
        | zero =>
          rw [located, getElem?_cons_zero] at h
          cases h
          exact ⟨[], open_, body, close, ps, rfl, rfl, rfl⟩
        | succ n =>
          obtain ⟨before, open', body', close', after, rfl, hlen, hat⟩ := ih _ n h
          refine ⟨.event open_ body close :: before, open', body', close', after, rfl, ?_, ?_⟩
          · rw [hlen, located, length_cons]
            exact congrArg (· + 1) (length_located before 0 _)
          · rw [hat, flatten_event, length_cons, length_append, length_cons]
            congr 1
            omega
  rw [(components_pieces h).1] at hn
  obtain ⟨before, open_, body, close, after, hps, hlen, hat⟩ := hsplit _ 0 n hn
  refine ⟨before, open_, body, close, after, ?_, ?_, hlen, by rw [hat, Nat.zero_add]⟩
  · rw [← hps, flatten_pieces]
  · rw [← hps]
    exact pieces_object lines

/-- With another body that closes, the event is found in the same place. -/
theorem found_replaced {before after : List Piece} {open_ close : Str} {body' : List Str}
    (hobj : Object (before ++ .event open_ body close :: after)) (hcloses : closes 0 body' = true) (h : components (flatten (before ++ .event open_ body close :: after)) = .ok found) :
    ∃ found', components (flatten (before ++ .event open_ body' close :: after)) = .ok found' ∧
      found'[(located 0 before).length]? = some (eventAt (flatten before).length body') := by
  obtain ⟨hopen, hbody, hclose⟩ := hobj.closes_mem (mem_append_right _ mem_cons_self)
  have hobj' : Object (before ++ .event open_ body' close :: after) := hobj.around fun _ => hcloses
  have hscan : ∀ (b : List Str) (s : Scan) (i : Nat), closes 0 b = true →
      scanLines (open_ :: (b ++ close :: flatten after)) i s = scanLines (flatten after) (i + 1 + b.length + 1)
        ⟨s.found ++ [{ (ownLines 0 b).foldl Component.note ⟨i, i, none, []⟩ with end_ := i + 1 + b.length }], 0, none⟩ := by
    intro b s i hb
    have hline : scanLine s i open_ = .ok { s with current := some ⟨i, i, none, []⟩, depth := 0 } := by
      unfold scanLine
      rw [if_pos hopen]
    rw [scanLines, hline]
    exact scanLines_event hclose b _ s.found 0 (i + 1) _ hb
  have hok : ∃ t, scanLines (flatten (before ++ .event open_ body' close :: after)) 0 ⟨[], 0, none⟩ = .ok t := by
    unfold components at h
    rw [flatten_around, scanLines_append] at h ⊢
    cases hs : scanLines (flatten before) 0 ⟨[], 0, none⟩ with
    | error e =>
      rw [hs] at h
      cases h
    | ok s =>
      rw [hs] at h
      simp only [Except.bind] at h ⊢
      rw [hscan body s _ hbody] at h
      rw [hscan body' s _ hcloses]
      cases hr : scanLines (flatten after) (0 + (flatten before).length + 1 + body.length + 1)
          ⟨s.found ++ [{ (ownLines 0 body).foldl Component.note ⟨0 + (flatten before).length, 0 + (flatten before).length, none, []⟩ with
            end_ := 0 + (flatten before).length + 1 + body.length }], 0, none⟩ with
      | error e =>
        rw [hr] at h
        cases h
      | ok t =>
        refine scanLines_shape (flatten after) ?_ ?_ hr
        · rfl
        · rfl
  obtain ⟨t, ht⟩ := hok
  have hfound := scanLines_pieces _ _ 0 _ t (le_refl _) (.inl rfl) ht
  have hpieces := pieces_flatten hobj'
  unfold pieces at hpieces
  rw [hpieces, nil_append] at hfound
  have hat := located_getElem before open_ body' close after
  rw [← hfound] at hat
  refine ⟨t.found, ?_, hat⟩
  unfold components
  rw [ht]
  have hne : t.found.isEmpty = false := by
    cases hf : t.found with
    | nil =>
      rw [hf] at hat
      cases hat
    | cons c rest => rfl
  dsimp only
  rw [hne]
  rfl

/-- A merge keeps the event where it stands. -/
theorem merge_inPlace {n : Nat} (h : components lines = .ok found) (hn : found[n]? = some at_) :
    ∃ before open_ body after, closes 0 body = true ∧ InPlace lines at_ before open_ body after ∧
      ∀ event removed, ∃ found' at', components (mergePeople lines at_ event removed) = .ok found' ∧
        found'[n]? = some at' ∧
          InPlace (mergePeople lines at_ event removed) at' before open_ (mergedBody event removed body) after := by
  obtain ⟨before, open_, body, close, after, rfl, hobj, rfl, rfl⟩ := found_around h hn
  have hbody := (hobj.closes_mem (mem_append_right _ mem_cons_self)).2.1
  have hplace := inPlace_around before open_ body close after
  refine ⟨flatten before, open_, body, close :: flatten after, hbody, hplace, fun event removed => ?_⟩
  obtain ⟨found', hfound', hat'⟩ := found_replaced hobj ((mergedBody_people event removed body).closed hbody) h
  have hplace' := inPlace_around before open_ (mergedBody event removed body) close after
  rw [flatten_around, ← mergePeople_merged event removed hplace] at hfound' hplace'
  exact ⟨found', _, hfound', hat', hplace'⟩

/-- An object of one event. -/
theorem components_event (h : closes 0 body = true) :
    ∃ found at_, components (BEGIN_VEVENT :: (body ++ [END_VEVENT])) = .ok found ∧ found[0]? = some at_ ∧
      InPlace (BEGIN_VEVENT :: (body ++ [END_VEVENT])) at_ [] BEGIN_VEVENT body [END_VEVENT] := by
  have hline : scanLine ⟨[], 0, none⟩ 0 BEGIN_VEVENT = .ok ⟨[], 0, some ⟨0, 0, none, []⟩⟩ := by decide
  have hclose : upper END_VEVENT = END_VEVENT := by decide
  refine ⟨[eventAt 0 body], eventAt 0 body, ?_, rfl, rfl, eventAt_begin 0 body, ?_⟩
  · unfold components
    rw [scanLines, hline]
    dsimp only
    rw [scanLines_event hclose body [] [] 0 1 _ h]
    simp [scanLines, eventAt, Nat.add_comm]
  · rw [eventAt_end]
    simp

/-! ## A merge repeated -/

/-- No person that can be added, being the first with the address, has a colon in the name. -/
def NamesPlain (event : Event) : Prop :=
  ∀ who, '@' ∈ who.addr → firstWith event.attendees (normalized who.addr) = some who → ':' ∉ who.name

theorem isRemoved_iff {removed : List Str} : isRemoved removed line = true ↔
    nameOf line = "ATTENDEE" ∧ addressOf line ≠ [] ∧ addressOf line ∈ removed := by
  unfold isRemoved
  rw [Bool.and_eq_true, Bool.and_eq_true, named_iff, Bool.not_eq_true', contains_eq_mem, decide_eq_true_eq,
    ← Bool.not_eq_true, List.isEmpty_iff, and_assoc]

/-- The organizer is added once. -/
theorem organizerLines_again (event : Event) (hasOrganizer : Bool) (kept : List Str) :
    organizerLines event (hasOrganizer || !(organizerLines event hasOrganizer kept).isEmpty) kept = [] := by
  unfold organizerLines
  cases event.organizer with
  | none => rfl
  | some organizer =>
    dsimp only
    split
    · simp
    · rename_i hnot
      rw [isEmpty_nil, Bool.not_true, Bool.or_false, if_neg hnot]

/-- After a merge there is an organizer if there was one, or one was added. -/
theorem hasOrganizer_merged (event : Event) (removed : List Str) (h : closes 0 body = true) :
    (ownLines 0 (mergedBody event removed body)).any (named "ORGANIZER") =
      ((ownLines 0 body).any (named "ORGANIZER") ||
        !(organizerLines event ((ownLines 0 body).any (named "ORGANIZER"))
          (keptOf (removed.map normalized) body ++ (newPeople (removed.map normalized) event.attendees
            (keptOf (removed.map normalized) body)).map (fun who => normalized who.addr))).isEmpty) := by
  have hatt : ∀ people : List Participant, (people.map attendeeLine).any (named "ORGANIZER") = false := by
    intro people
    rw [any_eq_false]
    intro line hline hn
    obtain ⟨who, -, rfl⟩ := mem_map.mp hline
    exact absurd ((nameOf_attendeeLine who).symm.trans (named_iff.mp hn)) (by decide)
  have horg : ∀ lines : List Str, (∀ line ∈ lines, nameOf line = "ORGANIZER") →
      lines.any (named "ORGANIZER") = !lines.isEmpty := by
    intro lines hlines
    cases lines with
    | nil => rfl
    | cons line rest =>
      rw [any_cons, named_iff.mpr (hlines line mem_cons_self)]
      rfl
  have hold : (ownLines 0 (withoutRemoved (removed.map normalized) 0 body)).any (named "ORGANIZER") =
      (ownLines 0 body).any (named "ORGANIZER") := by
    rw [any_ownLines, any_ownLines, ownLines_withoutRemoved (by decide) body 0 h]
  rw [ownLines_merged event removed h, any_append, any_append, hold, hatt, Bool.or_false]
  congr 1
  exact horg _ fun line hline => organizerLines_name hline

/-- The addresses seen by a second merge. -/
theorem keptOf_merged (event : Event) (removed : List Str) (h : closes 0 body = true) :
    keptOf (removed.map normalized) (mergedBody event removed body) = keptOf (removed.map normalized) body ++
      (((newPeople (removed.map normalized) event.attendees (keptOf (removed.map normalized) body)).map
        attendeeLine).filter fun line => !isRemoved (removed.map normalized) line).map addressOf := by
  rw [keptOf, attendeesOf_merged event removed h, filter_append, map_append, filter_filter]
  simp only [Bool.and_self]
  rfl

theorem mergedBody_again (hnames : NamesPlain event) (removed : List Str) (h : closes 0 body = true) :
    mergedBody event removed (mergedBody event removed body) = mergedBody event removed body := by
  have hcloses := (mergedBody_people event removed body).closed h
  generalize hnew : newPeople (removed.map normalized) event.attendees (keptOf (removed.map normalized) body) = new
  -- the lines written for the new people are read back
  have hread : ∀ who ∈ new, addressOf (attendeeLine who) = normalized who.addr ∧
      isRemoved (removed.map normalized) (attendeeLine who) = false := by
    intro who hwho
    rw [← hnew] at hwho
    obtain ⟨hat, -, hremoved, hfirst⟩ := mem_newPeople hwho
    have haddr := (addressOf_attendeeLine hat).mpr (hnames who hat hfirst)
    refine ⟨haddr, Bool.eq_false_iff.mpr fun hr => hremoved ?_⟩
    rw [← haddr]
    exact (isRemoved_iff.mp hr).2.2
  have hkept : keptOf (removed.map normalized) (mergedBody event removed body) =
      keptOf (removed.map normalized) body ++ new.map (fun who => normalized who.addr) := by
    have hstay : (new.map attendeeLine).filter (fun line => !isRemoved (removed.map normalized) line) =
        new.map attendeeLine := by
      refine filter_eq_self.mpr fun line hline => ?_
      obtain ⟨who, hwho, rfl⟩ := mem_map.mp hline
      exact (Bool.not_eq_true' _).mpr (hread who hwho).2
    have haddrs : (new.map attendeeLine).map addressOf = new.map (fun who => normalized who.addr) := by
      rw [map_map]
      refine map_congr_left fun who hwho => ?_
      rw [Function.comp_apply]
      exact (hread who hwho).1
    have hmerged := keptOf_merged event removed h
    rwa [hnew, hstay, haddrs] at hmerged
  have hnone : newPeople (removed.map normalized) event.attendees
      (keptOf (removed.map normalized) (mergedBody event removed body)) = [] := by
    refine newPeople_eq_nil fun who hwho hat hremoved => ?_
    rw [hkept, ← hnew]
    exact newPeople_complete hat hremoved hwho
  have hwhole : withoutRemoved (removed.map normalized) 0 (mergedBody event removed body) =
      mergedBody event removed body := by
    refine withoutRemoved_eq_self _ _ 0 hcloses fun line hline => ?_
    have hline' : line ∈ attendeesOf (mergedBody event removed body) := hline
    rw [attendeesOf_merged event removed h, hnew] at hline'
    rcases mem_append.mp hline' with hmem | hmem
    · simpa using (mem_filter.mp hmem).2
    · obtain ⟨who, hwho, rfl⟩ := mem_map.mp hmem
      exact (hread who hwho).2
  have horganizer := hasOrganizer_merged event removed h
  rw [hnew] at horganizer
  rw [mergedBody_eq event removed (mergedBody event removed body), hwhole, hnone, horganizer, hkept, map_nil,
    map_nil, append_nil, append_nil, organizerLines_again, append_nil]

/-- The body of an event with everybody in it but those of one address. -/
def everybodyBut (event : Event) (addr : Str) : List Str :=
  (event.attendees.filter fun r => r.addr.contains '@' && decide (normalized r.addr ≠ addr)).map fun r =>
    attendeeLine ⟨[], r.addr, []⟩

theorem everybodyBut_plain {addr : Str} (h : line ∈ everybodyBut event addr) : nameOf line ≠ "BEGIN" ∧ nameOf line ≠ "END" := by
  obtain ⟨r, -, rfl⟩ := mem_map.mp h
  rw [nameOf_attendeeLine]
  decide

theorem closes_everybodyBut (event : Event) (addr : Str) : closes 0 (everybodyBut event addr) = true :=
  closes_of_names fun _ => everybodyBut_plain

theorem attendeesOf_everybodyBut (event : Event) (addr : Str) :
    attendeesOf (everybodyBut event addr) = everybodyBut event addr := by
  rw [attendeesOf, ownLines_of_names fun _ => everybodyBut_plain]
  refine filter_eq_self.mpr fun line hline => ?_
  obtain ⟨r, -, rfl⟩ := mem_map.mp hline
  exact named_iff.mpr (nameOf_attendeeLine _)

theorem filter_nobody (lines : List Str) : lines.filter (fun line => !isRemoved [] line) = lines := by
  refine filter_eq_self.mpr fun line _ => ?_
  rw [Bool.not_eq_true', Bool.eq_false_iff]
  intro hr
  exact not_mem_nil (isRemoved_iff.mp hr).2.2

theorem mem_keptOf_everybodyBut {addr addr' : Str} : addr' ∈ keptOf [] (everybodyBut event addr) ↔
    ∃ r ∈ event.attendees, '@' ∈ r.addr ∧ normalized r.addr ≠ addr ∧ normalized r.addr = addr' := by
  have hmem : ∀ r, r ∈ event.attendees.filter (fun r => r.addr.contains '@' && decide (normalized r.addr ≠ addr)) ↔
      r ∈ event.attendees ∧ '@' ∈ r.addr ∧ normalized r.addr ≠ addr := by
    intro r
    simp only [mem_filter, Bool.and_eq_true, contains_eq_mem, decide_eq_true_eq]
  rw [keptOf, attendeesOf_everybodyBut, filter_nobody, everybodyBut, map_map, mem_map]
  refine exists_congr fun r => ?_
  rw [hmem r, and_assoc, and_assoc]
  refine and_congr_right fun _ => and_congr_right fun hat => and_congr_right fun _ => ?_
  have hread := (@addressOf_attendeeLine ⟨[], r.addr, []⟩ hat).mpr not_mem_nil
  rw [Function.comp_apply, hread]

/-- A person whose line is not read back is added twice. -/
theorem mergedBody_twice {who : Participant} (hat : '@' ∈ who.addr)
    (hfirst : firstWith event.attendees (normalized who.addr) = some who) (hcolon : ':' ∈ who.name) :
    mergedBody event [] (mergedBody event [] (everybodyBut event (normalized who.addr))) ≠
      mergedBody event [] (everybodyBut event (normalized who.addr)) := by
  intro hagain
  have hcloses := closes_everybodyBut event (normalized who.addr)
  have hcloses' := (mergedBody_people event [] (everybodyBut event (normalized who.addr))).closed hcloses
  -- the one with the colon is the only one added
  have honly : ∀ r ∈ newPeople [] event.attendees (keptOf [] (everybodyBut event (normalized who.addr))), r = who := by
    intro r hr
    obtain ⟨hat', hnot, -, hfirst'⟩ := mem_newPeople hr
    have haddr : normalized r.addr = normalized who.addr := by
      by_contra hne
      exact hnot (mem_keptOf_everybodyBut.mpr ⟨r, mem_of_find?_eq_some hfirst', hat', hne, rfl⟩)
    rw [haddr, hfirst] at hfirst'
    exact (Option.some.inj hfirst').symm
  -- and merged again, somebody is added with the same address
  have hatts := attendeesOf_merged event [] hcloses'
  rw [hagain, map_nil, filter_nobody] at hatts
  have hnil := append_cancel_left (hatts.symm.trans (append_nil _).symm)
  rw [map_eq_nil_iff] at hnil
  have hthere := @newPeople_complete [] who hat not_mem_nil event.attendees
    (keptOf [] (mergedBody event [] (everybodyBut event (normalized who.addr)))) (mem_of_find?_eq_some hfirst)
  have hkept := keptOf_merged event [] hcloses
  rw [map_nil] at hkept
  rw [hnil, map_nil, append_nil, hkept, mem_append] at hthere
  rcases hthere with hthere | hthere
  · obtain ⟨r, -, -, hne, haddr⟩ := mem_keptOf_everybodyBut.mp hthere
    exact hne haddr
  · obtain ⟨line, hline, haddr⟩ := mem_map.mp hthere
    obtain ⟨r, hr, rfl⟩ := mem_map.mp (mem_filter.mp hline).1
    rw [honly r hr] at haddr
    exact (addressOf_attendeeLine hat).mp haddr hcolon

/-- The people of any event of any object, merged twice, are as they are merged once. -/
def MergedTwice (event : Event) : Prop :=
  ∀ (removed lines : List Str) (found : List Component) (n : Nat) (at_ : Component), components lines = .ok found →
    found[n]? = some at_ → ∃ found' at', components (mergePeople lines at_ event removed) = .ok found' ∧
      found'[n]? = some at' ∧
        mergePeople (mergePeople lines at_ event removed) at' event removed = mergePeople lines at_ event removed

/-- **A merge repeated changes nothing** exactly if no person that can be added has a colon in the name. -/
theorem merge_again_iff (event : Event) : MergedTwice event ↔ NamesPlain event := by
  constructor
  · intro hmerged who hat hfirst hcolon
    obtain ⟨found, at_, hfound, hn, hplace⟩ := components_event (closes_everybodyBut event (normalized who.addr))
    obtain ⟨before, open_, body, after, -, hplace1, hmerge⟩ := merge_inPlace hfound hn
    obtain ⟨found', at', hfound', hn', hplace'⟩ := hmerge event []
    obtain ⟨found'', at'', hfound'', hn'', htwice⟩ := hmerged [] _ found 0 at_ hfound hn
    have hat' : at'' = at' := by
      rw [hfound'] at hfound''
      cases hfound''
      exact Option.some.inj (hn''.symm.trans hn')
    have hbody := hplace1.inside.symm.trans hplace.inside
    rw [hat', mergePeople_merged event [] hplace', mergePeople_merged event [] hplace1, hbody] at htwice
    refine mergedBody_twice hat hfirst hcolon ?_
    simpa using htwice
  · intro hnames removed lines found n at_ hfound hn
    obtain ⟨before, open_, body, after, hcloses, hplace, hmerge⟩ := merge_inPlace hfound hn
    obtain ⟨found', at', hfound', hn', hplace'⟩ := hmerge event removed
    refine ⟨found', at', hfound', hn', ?_⟩
    rw [mergePeople_merged event removed hplace', mergedBody_again hnames removed hcloses,
      mergePeople_merged event removed hplace]

/-! ## A merge that is right -/

/-- The attendee lines of an event of an object. -/
def attendeesAt (lines : List Str) (at_ : Component) : List Str :=
  attendeesOf ((lines.take at_.end_).drop (at_.begin_ + 1))

/-- However the people of an event are merged, nobody who was to go is left in it, and nobody who was in it is in it
more often. -/
def MergedRight (lines : List Str) (n : Nat) (at_ : Component) : Prop :=
  ∀ (event : Event) (removed : List Str), ∃ found' at', components (mergePeople lines at_ event removed) = .ok found' ∧
    found'[n]? = some at' ∧
    (∀ line ∈ attendeesAt (mergePeople lines at_ event removed) at', namedAddress line ≠ [] →
      namedAddress line ∉ removed.map normalized) ∧
    ∀ line ∈ attendeesAt lines at_, namedAddress line ≠ [] →
      ((attendeesAt (mergePeople lines at_ event removed) at').map namedAddress).count (namedAddress line) ≤
        ((attendeesAt lines at_).map namedAddress).count (namedAddress line)

theorem normalized_namedAddress (line : Str) : normalized (namedAddress line) = namedAddress line := by
  have hform : ∃ s, namedAddress line = asciiLower (trim s) := ⟨_, rfl⟩
  obtain ⟨s, hs⟩ := hform
  rw [hs]
  have htrim := trim_normalized s
  unfold normalized at htrim ⊢
  rw [htrim, asciiLower_asciiLower]

/-- **A merge adds nobody who is there and leaves nobody who was to go** exactly if every attendee line of the event that
names somebody has its first colon outside of quotes. -/
theorem merge_true_iff {n : Nat} (hfound : components lines = .ok found) (hn : found[n]? = some at_) : MergedRight lines n at_ ↔
      ∀ line ∈ attendeesAt lines at_, namedAddress line ≠ [] → ColonOutside line := by
  obtain ⟨before, open_, body, after, hcloses, hplace, hmerge⟩ := merge_inPlace hfound hn
  have hatts : attendeesAt lines at_ = attendeesOf body := by rw [attendeesAt, hplace.inside]
  have hname : ∀ line ∈ attendeesOf body, nameOf line = "ATTENDEE" := fun line hline =>
    named_iff.mp (mem_filter.mp hline).2
  constructor
  · intro hright line hline hne
    by_contra hin
    -- asked to go, it stays
    let nobody : Event := ⟨[], [], none, 0, 0, false, none, none, [], none, []⟩
    obtain ⟨found1, at1, hfound1, hn1, hgone, -⟩ := hright nobody [namedAddress line]
    obtain ⟨found', at', hfound', hn', hplace'⟩ := hmerge nobody [namedAddress line]
    have hat : at1 = at' := by
      rw [hfound'] at hfound1
      cases hfound1
      exact Option.some.inj (hn1.symm.trans hn')
    have hR : [namedAddress line].map normalized = [namedAddress line] := by
      rw [map_cons, normalized_namedAddress, map_nil]
    have hstays : isRemoved [namedAddress line] line = false := by
      rw [Bool.eq_false_iff]
      intro hr
      exact hin ((addressOf_eq_iff hne).mp (mem_singleton.mp (isRemoved_iff.mp hr).2.2))
    rw [hR, attendeesAt, hat, hplace'.inside, attendeesOf_merged nobody _ hcloses, hR] at hgone
    rw [hatts] at hline
    refine hgone line (mem_append_left _ (mem_filter.mpr ⟨hline, ?_⟩)) hne (mem_singleton_self _)
    rw [hstays]
    rfl
  · intro hread event removed
    rw [hatts] at hread ⊢
    obtain ⟨found', at', hfound', hn', hplace'⟩ := hmerge event removed
    refine ⟨found', at', hfound', hn', ?_⟩
    rw [attendeesAt, hplace'.inside, attendeesOf_merged event removed hcloses]
    have haddr : ∀ line ∈ attendeesOf body, namedAddress line ≠ [] → addressOf line = namedAddress line :=
      fun line hline hne => (addressOf_eq_iff hne).mpr (hread line hline hne)
    constructor
    · intro line hline hne hmem
      rcases mem_append.mp hline with hline | hline
      · obtain ⟨hold, hstays⟩ := mem_filter.mp hline
        have hsame := haddr line hold hne
        rw [isRemoved_iff.mpr ⟨hname line hold, by rw [hsame]; exact hne, by rw [hsame]; exact hmem⟩] at hstays
        cases hstays
      · obtain ⟨who, hwho, rfl⟩ := mem_map.mp hline
        rw [namedAddress_attendeeLine] at hmem
        exact (mem_newPeople hwho).2.2.1 hmem
    · intro line hline hne
      have hsame := haddr line hline hne
      have hnew : namedAddress line ∉ ((newPeople (removed.map normalized) event.attendees
          (keptOf (removed.map normalized) body)).map attendeeLine).map namedAddress := by
        intro hmem
        rw [map_map] at hmem
        obtain ⟨who, hwho, he⟩ := mem_map.mp hmem
        rw [Function.comp_apply, namedAddress_attendeeLine] at he
        obtain ⟨-, hkept, hgo, -⟩ := mem_newPeople hwho
        rw [he, ← hsame] at hkept hgo
        refine hkept (mem_map.mpr ⟨line, mem_filter.mpr ⟨hline, ?_⟩, rfl⟩)
        rw [Bool.not_eq_true', Bool.eq_false_iff]
        exact fun hr => hgo (isRemoved_iff.mp hr).2.2
      rw [map_append, count_append, count_eq_zero.mpr hnew, Nat.add_zero]
      exact (filter_sublist.map namedAddress).count_le _

/-! ## The people lines -/

/-- **The address of a person survives the people lines** exactly where no name holds a colon, the first colon of a line
is outside of quotes and its scheme is spelled in one case. -/
theorem people_read_iff {who : Participant} (hat : '@' ∈ who.addr) (line : Str) (event : Event) {lines : List Str}
    {found : List Component} {n : Nat} {at_ : Component} (hfound : components lines = .ok found) (hn : found[n]? = some at_) :
    ((addressOf (attendeeLine who) = normalized who.addr ∧ (person (attendeeLine who)).addr = normalized who.addr) ↔
      ':' ∉ who.name) ∧ (addressOf line = (person line).addr ↔ SchemePlain line) ∧ (MergedTwice event ↔ NamesPlain event) ∧
    (MergedRight lines n at_ ↔ ∀ line ∈ attendeesAt lines at_, namedAddress line ≠ [] → ColonOutside line) :=
  ⟨attendee_read_iff hat, addressOf_person_iff line, merge_again_iff event, merge_true_iff hfound hn⟩

def drBo : Participant := ⟨"Dr: Bo", "Bo@x.cat ", []⟩

/-- An object with one guest. -/
def guestObject : List Str :=
  ["BEGIN:VEVENT", "ATTENDEE;CN=\"Dr: Bo\":mailto:bo@x.cat", "END:VEVENT"]

/-- The event the object is edited to. -/
def guestEvent : Event := ⟨[], [], none, 0, 3600, false, none, none, [], none, [drBo]⟩

theorem people_read_guest : ∃ found at_, components guestObject = .ok found ∧ found[0]? = some at_ ∧
    ((addressOf (attendeeLine drBo) = normalized drBo.addr ∧ (person (attendeeLine drBo)).addr = normalized drBo.addr) ↔
      ':' ∉ drBo.name) ∧ (addressOf "ATTENDEE:MailTo:bo@x.cat" = (person "ATTENDEE:MailTo:bo@x.cat").addr ↔
      SchemePlain "ATTENDEE:MailTo:bo@x.cat") ∧ (MergedTwice guestEvent ↔ NamesPlain guestEvent) ∧
    (MergedRight guestObject 0 at_ ↔ ∀ line ∈ attendeesAt guestObject at_, namedAddress line ≠ [] → ColonOutside line) := by
  have hfound : components guestObject = .ok [⟨0, 2, none, []⟩] := by decide +kernel
  exact ⟨_, _, hfound, rfl, people_read_iff (by decide) _ guestEvent hfound rfl⟩

/-- A guest whose name holds a colon is read with another address and added by each save, and a scheme in another case
is read by one reader only. -/
theorem guest_twice : addressOf (attendeeLine drBo) ≠ "bo@x.cat" ∧
    addressOf "ATTENDEE:MailTo:bo@x.cat" ≠ (person "ATTENDEE:MailTo:bo@x.cat").addr ∧
    (∃ once twice at_ at', components guestObject = .ok [at_] ∧ once = mergePeople guestObject at_ guestEvent [] ∧
      components once = .ok [at'] ∧ twice = mergePeople once at' guestEvent [] ∧ once.length = 4 ∧ twice.length = 5) ∧
    mergePeople guestObject ⟨0, 2, none, []⟩ { guestEvent with attendees := [] } ["bo@x.cat"] = guestObject := by
  exact ⟨by decide +kernel, by decide +kernel, ⟨_, _, ⟨0, 2, none, []⟩, ⟨0, 3, none, []⟩, by decide +kernel, rfl,
    by decide +kernel, rfl, by decide +kernel, by decide +kernel⟩, by decide +kernel⟩

end Oreneta.Ics

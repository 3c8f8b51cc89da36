import Oreneta.Dav.Documents
import Oreneta.Dav.Readers
import Oreneta.Lib.Trim

/-!
# What an answer brings

The loops over the responses of an answer, each by what it passes over and what it takes.

* `Answer` — what the server sends to a request: a `multistatus`, cut off anywhere.
* `Answer.Reads`, `Answer.Brought` — there is nothing to report of an answer; what is taken from it.
* `BringsCard`, `BringsEntry`, `BringsObject`, `BringsPeople`, `BringsListed` — what one response brings to each
  of the readers.
* `mem_people_texts`, `mem_contents` — what is in the results.
-/

namespace Oreneta.Dav

open Text Contacts AllOrNothing Fallible List

variable {Person Group : Type}

/-! ## Answers -/

/-- What the server answers: the document it sends, and as much of its text as arrives. -/
structure Answer (c : Client Person Group) (request : DavRequest) where
  reply : HttpReply
  document : Multistatus
  text : Str
  sent : c.send request = .ok reply
  sends : Sends c.xml text document
  arrives : reply.body <+: text

namespace Answer

variable {c : Client Person Group} {request : DavRequest}

def Arrived (a : Answer c request) : Prop := Dav.Arrived c.xml a.reply.body a.document

theorem parse_ok {a : Answer c request} {rs : List DavResponse} :
    parseMultistatusComplete c.xml a.reply.body = .ok rs ↔ a.Arrived ∧ rs = a.document.read := by
  rw [Dav.parse_ok]
  constructor
  · intro h
    by_cases hw : a.Arrived
    · rw [read_whole hw] at h
      cases h
      exact ⟨hw, rfl⟩
    · have hpart := read_part a.sends a.arrives hw
      rw [h] at hpart
      cases hpart
  · rintro ⟨hw, rfl⟩
    exact read_whole hw

section

variable {κ : Type}

/-- Nothing to report: the answer arrived, and every response is passed over or brings something. -/
structure Reads (a : Answer c request) (passed : DavResponse → Prop) (brings : DavResponse → κ → Prop) : Prop where
  accepted : a.reply.status < 300
  arrived : a.Arrived
  read : ∀ r ∈ a.document.read, passed r ∨ ∃ x, brings r x

/-- Something a response brings. -/
def Brought (a : Answer c request) (brings : DavResponse → κ → Prop) (x : κ) : Prop :=
  ∃ r ∈ a.document.read, brings r x

/-- The loop of a reader over the responses. -/
theorem readAll_ok {a : Answer c request} {judge : DavResponse → Verdict κ} {incomplete : List Str → Nat → Str}
    {passed : DavResponse → Prop} {brings : DavResponse → κ → Prop} {xs : List κ}
    (hskip : ∀ r, judge r = .skip ↔ passed r) (hkept : ∀ r x, judge r = .kept x ↔ brings r x)
    (hread : AllOrNothing.readAll judge incomplete a.document.read = .ok xs) :
    (∀ r ∈ a.document.read, passed r ∨ ∃ x, brings r x) ∧ ∀ x, x ∈ xs ↔ a.Brought brings x := by
  obtain ⟨hfine, rfl⟩ := AllOrNothing.readAll_ok.mp hread
  constructor
  · intro r hr
    have h := hfine r hr
    cases hj : judge r with
    | skip => exact .inl ((hskip r).mp hj)
    | refuse e =>
      rw [hj] at h
      exact h.elim
    | failed what =>
      rw [hj] at h
      exact h.elim
    | kept x => exact .inr ⟨x, (hkept r x).mp hj⟩
  · intro x
    rw [mem_filterMap]
    refine exists_congr fun r => and_congr_right fun _ => ?_
    rw [← hkept]
    cases judge r <;> simp [Verdict.toOption]

/-- And it gets through when there is nothing to report. -/
theorem readAll_exists {a : Answer c request} {judge : DavResponse → Verdict κ}
    (incomplete : List Str → Nat → Str) {passed : DavResponse → Prop} {brings : DavResponse → κ → Prop}
    (hskip : ∀ r, judge r = .skip ↔ passed r) (hkept : ∀ r x, judge r = .kept x ↔ brings r x)
    (hread : ∀ r ∈ a.document.read, passed r ∨ ∃ x, brings r x) :
    ∃ xs, AllOrNothing.readAll judge incomplete a.document.read = .ok xs := by
  refine ⟨_, AllOrNothing.readAll_ok.mpr ⟨?_, rfl⟩⟩
  intro r hr
  rcases hread r hr with h | ⟨x, h⟩
  · rw [(hskip r).mpr h]
    trivial
  · rw [(hkept r x).mpr h]
    trivial

end

end Answer

/-! ## What the responses bring -/

namespace Client

variable (c : Client Person Group)

def BringsCard (bookUrl : Str) (r : DavResponse) (data : Str) : Prop :=
  c.isTheBook r bookUrl = false ∧ c.cardData r = some data

def BringsEntry (from_ bookUrl : Str) (r : DavResponse) (entry : Entry) : Prop :=
  c.isTheBook r bookUrl = false ∧ c.cardData r = some entry.data ∧ c.resolve from_ r.href = .ok entry.href ∧
    entry.etag = (r.prop "getetag").getD []

def BringsObject (from_ calendarUrl : Str) (r : DavResponse) (object : Object) : Prop :=
  c.isTheBook r calendarUrl = false ∧ calendarData r = some object.ics ∧
    c.resolve from_ r.href = .ok object.href ∧ c.sameOrigin object.href calendarUrl = true ∧
    object.etag = (r.prop "getetag").getD []

/-- A response that is not about a card. -/
def NoCard (bookUrl : Str) (r : DavResponse) : Prop :=
  c.isTheBook r bookUrl = true ∨ "collection" ∈ r.resourceTypes

/-- The card is fetched by itself, from the server of the book. -/
def Fetched (from_ bookUrl : Str) (r : DavResponse) (url : Str) (reply : HttpReply) : Prop :=
  ¬ c.NoCard bookUrl r ∧ c.resolve from_ r.href = .ok url ∧ c.sameOrigin url bookUrl = true ∧
    c.send (getRequest url) = .ok reply ∧ reply.status < 300

def BringsPeople (from_ bookUrl : Str) (r : DavResponse) (people : List Person) : Prop :=
  ∃ url reply, c.Fetched from_ bookUrl r url reply ∧ splitCards c.upper reply.body ≠ [] ∧
    people = c.peopleFromVcards reply.body

def BringsListed (from_ bookUrl : Str) (r : DavResponse) (entry : Entry) : Prop :=
  ∃ reply, c.Fetched from_ bookUrl r entry.href reply ∧ entry.data = reply.body ∧
    entry.etag = if (reply.etag.getD []).isEmpty then (r.prop "getetag").getD [] else reply.etag.getD []

variable {c} {bookUrl from_ : Str} {r : DavResponse}

theorem judgeCard_skip : c.judgeCard bookUrl r = .skip ↔ c.isTheBook r bookUrl = true := by
  unfold judgeCard
  cases c.isTheBook r bookUrl <;> cases c.cardData r <;> simp

theorem judgeCard_kept {data : Str} : c.judgeCard bookUrl r = .kept data ↔ c.BringsCard bookUrl r data := by
  unfold judgeCard BringsCard
  cases c.isTheBook r bookUrl <;> cases c.cardData r <;> simp

theorem judgeEntry_skip : c.judgeEntry from_ bookUrl r = .skip ↔ c.isTheBook r bookUrl = true := by
  unfold judgeEntry
  cases c.isTheBook r bookUrl <;> cases c.cardData r <;> cases c.resolve from_ r.href <;> simp

theorem judgeEntry_kept {entry : Entry} : c.judgeEntry from_ bookUrl r = .kept entry ↔ c.BringsEntry from_ bookUrl r entry := by
  unfold judgeEntry BringsEntry
  obtain ⟨data, href, etag⟩ := entry
  cases c.isTheBook r bookUrl <;> cases c.cardData r <;> cases c.resolve from_ r.href <;> simp [eq_comm]

theorem judgeObject_skip : c.judgeObject from_ bookUrl r = .skip ↔ c.isTheBook r bookUrl = true := by
  unfold judgeObject
  cases c.isTheBook r bookUrl <;> cases calendarData r <;> cases c.resolve from_ r.href <;> simp
  split <;> simp

theorem judgeObject_kept {object : Object} :
    c.judgeObject from_ bookUrl r = .kept object ↔ c.BringsObject from_ bookUrl r object := by
  unfold judgeObject BringsObject
  obtain ⟨href, etag, ics⟩ := object
  cases c.isTheBook r bookUrl <;> cases calendarData r <;> cases c.resolve from_ r.href <;> simp
  rename_i ics url
  cases ho : c.sameOrigin url bookUrl with
  | true =>
    simp only [Bool.true_eq_false, if_false, Verdict.kept.injEq, Object.mk.injEq]
    constructor
    · rintro ⟨rfl, rfl, rfl⟩
      exact ⟨rfl, rfl, ho, rfl⟩
    · rintro ⟨rfl, rfl, -, rfl⟩
      exact ⟨rfl, rfl, rfl⟩
  | false =>
    simp only [if_true, reduceCtorEq, false_iff]
    rintro ⟨-, rfl, ht, -⟩
    rw [ho] at ht
    cases ht

theorem judgeListed_skip : c.judgeListed from_ bookUrl r = .skip ↔ c.NoCard bookUrl r := by
  unfold judgeListed NoCard
  split
  · rename_i hb
    simp [hb]
  split
  · rename_i hc
    simp [contains_iff_mem.mp hc]
  rename_i hb hc
  simp only [contains_eq_mem, decide_eq_true_eq] at hc
  have hno : ¬ (c.isTheBook r bookUrl = true ∨ "collection" ∈ r.resourceTypes) := fun h => h.elim hb hc
  refine iff_of_false ?_ hno
  split
  · simp
  split
  · simp
  split
  · simp
  split
  · simp
  split
  · simp
  split <;> simp

theorem judgeListed_kept {people : List Person} :
    c.judgeListed from_ bookUrl r = .kept people ↔ c.BringsPeople from_ bookUrl r people := by
  constructor
  · intro h
    unfold judgeListed at h
    split at h
    · cases h
    rename_i hb
    split at h
    · cases h
    rename_i hc
    split at h
    · cases h
    rename_i url hres
    split at h
    · cases h
    rename_i ho
    split at h
    · cases h
    rename_i reply hs
    split at h
    · cases h
    split at h
    · cases h
    rename_i hstatus
    split at h
    · cases h
    rename_i hcards
    cases h
    have hno : ¬ c.NoCard bookUrl r := fun hn => hn.elim hb fun hin => hc (contains_iff_mem.mpr hin)
    exact ⟨url, reply, ⟨hno, hres, by simpa using ho, hs, by omega⟩, by simpa using hcards, rfl⟩
  · rintro ⟨url, reply, ⟨hno, hres, ho, hs, hlt⟩, hcards, rfl⟩
    have hb : ¬ c.isTheBook r bookUrl = true := fun h => hno (.inl h)
    have hc : ¬ r.resourceTypes.contains "collection" = true := fun h => hno (.inr (contains_iff_mem.mp h))
    have hok : ¬ (reply.status = 401 ∨ reply.status = 403) := by omega
    unfold judgeListed
    rw [if_neg hb, if_neg hc]
    simp only [hres, ho, hs, Bool.not_true, Bool.false_eq_true, if_false, if_neg hok, if_neg (Nat.not_le.mpr hlt)]
    rw [if_neg (by simpa using hcards)]

variable {etag : Str}

theorem getCard_ok {cardUrl body : Str} : c.getCard bookUrl cardUrl = .ok (some (body, etag)) ↔
    c.sameOrigin cardUrl bookUrl = true ∧ ∃ reply, c.send (getRequest cardUrl) = .ok reply ∧ reply.status < 300 ∧
      body = reply.body ∧ etag = reply.etag.getD [] := by
  constructor
  · intro h
    unfold getCard at h
    split at h
    · cases h
    rename_i ho
    obtain ⟨reply, hs, h⟩ := bind_ok.mp h
    split at h
    · cases h
    split at h
    · cases h
    split at h
    · cases h
    rename_i hstatus
    cases h
    exact ⟨by simpa using ho, reply, hs, by omega, rfl, rfl⟩
  · rintro ⟨ho, reply, hs, hlt, rfl, rfl⟩
    have hok : ¬ (reply.status = 401 ∨ reply.status = 403) := by omega
    have hthere : ¬ (reply.status = 404 ∨ reply.status = 410) := by omega
    unfold getCard
    rw [if_neg (by simp [ho])]
    refine bind_ok.mpr ⟨reply, hs, ?_⟩
    rw [if_neg hok, if_neg hthere, if_neg (Nat.not_le.mpr hlt)]
    rfl

theorem judgeListedEntry_skip : c.judgeListedEntry from_ bookUrl r = .skip ↔ c.NoCard bookUrl r := by
  unfold judgeListedEntry NoCard
  split
  · rename_i hskip
    rw [Bool.or_eq_true, contains_iff_mem] at hskip
    simp [hskip]
  · rename_i hno
    rw [Bool.or_eq_true, contains_iff_mem] at hno
    refine iff_of_false ?_ hno
    split
    · simp
    split <;> simp

theorem judgeListedEntry_kept {entry : Entry} :
    c.judgeListedEntry from_ bookUrl r = .kept entry ↔ c.BringsListed from_ bookUrl r entry := by
  constructor
  · intro h
    unfold judgeListedEntry at h
    split at h
    · cases h
    rename_i hno
    rw [Bool.or_eq_true, contains_iff_mem] at hno
    split at h
    · cases h
    rename_i url hres
    split at h
    · cases h
    · cases h
    rename_i body etag hget
    obtain ⟨ho, reply, hs, hlt, rfl, rfl⟩ := getCard_ok.mp hget
    cases h
    exact ⟨reply, ⟨hno, hres, ho, hs, hlt⟩, rfl, rfl⟩
  · rintro ⟨reply, ⟨hno, hres, ho, hs, hlt⟩, hdata, hetag⟩
    obtain ⟨data, href, etag⟩ := entry
    cases hdata
    have hskip : ¬ (c.isTheBook r bookUrl || r.resourceTypes.contains "collection") = true := by
      rw [Bool.or_eq_true, contains_iff_mem]
      exact hno
    unfold judgeListedEntry
    rw [if_neg hskip]
    simp only [hres, getCard_ok.mpr ⟨ho, reply, hs, hlt, rfl, rfl⟩]
    exact congrArg (fun e => Verdict.kept (⟨reply.body, href, e⟩ : Entry)) hetag.symm

/-! ## What the results have -/

theorem mem_people {c : Client Person Group} {input : Str} {p : Person} : p ∈ c.peopleFromVcards input ↔
    ∃ properties ∈ splitCards c.upper input, c.group properties = none ∧ c.person properties = p ∧ c.isUseful p = true := by
  unfold peopleFromVcards isGroup
  simp only [mem_filter, mem_map, Bool.not_eq_true', Option.isSome_eq_false_iff, Option.isNone_iff_eq_none]
  constructor
  · rintro ⟨⟨properties, ⟨hin, hgroup⟩, rfl⟩, huseful⟩
    exact ⟨properties, hin, hgroup, rfl, huseful⟩
  · rintro ⟨properties, hin, hgroup, rfl, huseful⟩
    exact ⟨⟨properties, ⟨hin, hgroup⟩, rfl⟩, huseful⟩

/-- Texts of whole cards, one after another. -/
theorem splitCards_texts {upper : Str → Str} : ∀ {texts : List Str}, (∀ d ∈ texts, Whole upper d) →
    (∀ d ∈ texts, ∀ x, d.head? = some x → x ≠ ' ' ∧ x ≠ '\t') → (∀ d ∈ texts, d ≠ []) →
    splitCards upper (texts.flatMap (fun data => data ++ ['\n'])) = texts.flatMap (splitCards upper)
  | [], _, _, _ => rfl
  | d :: texts, hwhole, hhead, hne => by
    have hrest := splitCards_texts (fun d hd => hwhole d (mem_cons_of_mem _ hd))
      (fun d hd => hhead d (mem_cons_of_mem _ hd)) fun d hd => hne d (mem_cons_of_mem _ hd)
    have hnext : ∀ x, (texts.flatMap fun data => data ++ ['\n']).head? = some x → x ≠ ' ' ∧ x ≠ '\t' := by
      intro x hx
      cases texts with
      | nil => cases hx
      | cons e texts =>
        have hin : e ∈ d :: e :: texts := mem_cons_of_mem _ mem_cons_self
        cases e with
        | nil => exact absurd rfl (hne [] hin)
        | cons y ys => exact hhead (y :: ys) hin x hx
    have hsplit : (d :: texts).flatMap (fun data => data ++ ['\n']) =
        d ++ '\n' :: texts.flatMap (fun data => data ++ ['\n']) := by
      rw [flatMap_cons, append_assoc]
      rfl
    rw [hsplit, splitCards_append (hwhole d mem_cons_self) hnext, hrest, flatMap_cons]

theorem mem_people_texts {c : Client Person Group} {texts : List Str} (hwhole : ∀ d ∈ texts, Whole c.upper d)
    (hhead : ∀ d ∈ texts, ∀ x, d.head? = some x → x ≠ ' ' ∧ x ≠ '\t') (hne : ∀ d ∈ texts, d ≠ []) {p : Person} :
    p ∈ c.peopleFromVcards (texts.flatMap (fun data => data ++ ['\n'])) ↔ ∃ d ∈ texts, p ∈ c.peopleFromVcards d := by
  simp only [mem_people, splitCards_texts hwhole hhead hne, mem_flatMap]
  constructor
  · rintro ⟨properties, ⟨d, hd, hin⟩, h⟩
    exact ⟨d, hd, properties, hin, h⟩
  · rintro ⟨d, hd, properties, hin, h⟩
    exact ⟨properties, ⟨d, hd, hin⟩, h⟩

variable {c : Client Person Group}

variable {contents : BookContents Person Group}

/-- What one card adds. -/
theorem addCard_groups {href : Str} {properties : List Property}
    {e : GroupEntry Group} : e ∈ (c.addCard href etag contents properties).groups ↔
      e ∈ contents.groups ∨ c.group properties = some e.group ∧ e.href = href ∧ e.etag = etag := by
  unfold addCard
  obtain ⟨group, h, t⟩ := e
  cases hg : c.group properties with
  | none => cases hu : c.isUseful (c.person properties) <;> simp
  | some g =>
    simp only [mem_append, mem_singleton, GroupEntry.mk.injEq, Option.some.injEq]
    exact or_congr_right (and_congr_left fun _ => eq_comm)

theorem addCard_cards {href : Str} {properties : List Property}
    {e : Card Person} : e ∈ (c.addCard href etag contents properties).cards ↔
      e ∈ contents.cards ∨ c.group properties = none ∧ c.isUseful e.person = true ∧ c.person properties = e.person ∧
        e.href = href ∧ e.etag = etag := by
  unfold addCard
  obtain ⟨person, h, t⟩ := e
  cases hg : c.group properties with
  | some g => simp
  | none =>
    cases hu : c.isUseful (c.person properties) with
    | true =>
      simp only [if_true, mem_append, mem_singleton, Card.mk.injEq, true_and]
      refine or_congr_right ⟨?_, ?_⟩
      · rintro ⟨rfl, rfl, rfl⟩
        exact ⟨hu, rfl, rfl, rfl⟩
      · rintro ⟨-, rfl, rfl, rfl⟩
        exact ⟨rfl, rfl, rfl⟩
    | false =>
      simp only [Bool.false_eq_true, if_false, true_and]
      refine ⟨.inl, fun h => h.elim id ?_⟩
      rintro ⟨hu', rfl, -⟩
      rw [hu] at hu'
      cases hu'

theorem foldl_addCard {href : Str} {cards : List (List Property)} :
    (∀ e, e ∈ (cards.foldl (c.addCard href etag) contents).groups ↔ e ∈ contents.groups ∨
      ∃ properties ∈ cards, c.group properties = some e.group ∧ e.href = href ∧ e.etag = etag) ∧
    ∀ e, e ∈ (cards.foldl (c.addCard href etag) contents).cards ↔ e ∈ contents.cards ∨
      ∃ properties ∈ cards, c.group properties = none ∧ c.isUseful e.person = true ∧
        c.person properties = e.person ∧ e.href = href ∧ e.etag = etag := by
  induction cards generalizing contents with
  | nil => simp
  | cons properties cards ih =>
    constructor
    · intro e
      simp only [foldl_cons, ih.1, addCard_groups, or_assoc, mem_cons, exists_eq_or_imp]
    · intro e
      simp only [foldl_cons, ih.2, addCard_cards, or_assoc, mem_cons, exists_eq_or_imp]

/-- What is in the contents of a book. -/
theorem mem_contents {entries : List Entry} :
    (∀ e, e ∈ (c.contentsOf entries).groups ↔ ∃ entry ∈ entries, ∃ properties ∈ splitCards c.upper entry.data,
      c.group properties = some e.group ∧ e.href = entry.href ∧ e.etag = entry.etag) ∧
    ∀ e, e ∈ (c.contentsOf entries).cards ↔ ∃ entry ∈ entries, ∃ properties ∈ splitCards c.upper entry.data,
      c.group properties = none ∧ c.isUseful e.person = true ∧ c.person properties = e.person ∧
        e.href = entry.href ∧ e.etag = entry.etag := by
  have key : ∀ (entries : List Entry) (contents : BookContents Person Group),
      (∀ e, e ∈ (entries.foldl (fun contents entry => c.add contents entry.data entry.href entry.etag) contents).groups ↔
        e ∈ contents.groups ∨ ∃ entry ∈ entries, ∃ properties ∈ splitCards c.upper entry.data,
          c.group properties = some e.group ∧ e.href = entry.href ∧ e.etag = entry.etag) ∧
      ∀ e, e ∈ (entries.foldl (fun contents entry => c.add contents entry.data entry.href entry.etag) contents).cards ↔
        e ∈ contents.cards ∨ ∃ entry ∈ entries, ∃ properties ∈ splitCards c.upper entry.data,
          c.group properties = none ∧ c.isUseful e.person = true ∧ c.person properties = e.person ∧
            e.href = entry.href ∧ e.etag = entry.etag := by
    intro entries
    induction entries with
    | nil => simp
    | cons entry entries ih =>
      intro contents
      constructor
      · intro e
        rw [foldl_cons, (ih _).1, add, foldl_addCard.1]
        simp only [or_assoc, mem_cons, exists_eq_or_imp]
      · intro e
        rw [foldl_cons, (ih _).2, add, foldl_addCard.2]
        simp only [or_assoc, mem_cons, exists_eq_or_imp]
  constructor
  · intro e
    rw [contentsOf, (key entries _).1]
    simp
  · intro e
    rw [contentsOf, (key entries _).2]
    simp

end Client

/-- A text property is neither empty nor begins with white space. -/
theorem prop_trimmed {doc : Multistatus} {r : DavResponse} (hr : r ∈ doc.read) {name : String} {d : Str}
    (hd : r.prop name = some d) : d ≠ [] ∧ ∀ x, d.head? = some x → x ≠ ' ' ∧ x ≠ '\t' := by
  obtain ⟨response, -, rfl⟩ := mem_map.mp hr
  obtain ⟨entry, hfind, rfl⟩ := Option.map_eq_some_iff.mp hd
  obtain ⟨p, -, hp⟩ := mem_flatMap.mp (mem_of_find?_eq_some hfind)
  obtain ⟨property, -, hvalued⟩ := mem_filterMap.mp hp
  unfold DavProperty.valued at hvalued
  split at hvalued
  · rename_i plain chunks
    split at hvalued
    · cases hvalued
    rename_i hne
    cases hvalued
    refine ⟨hne, fun x hx => ?_⟩
    have hhead := (trimBy_trimmed isWhitespace (content chunks)).1 x hx
    constructor
    · rintro rfl
      exact absurd hhead (by decide)
    · rintro rfl
      exact absurd hhead (by decide)
  · cases hvalued
  · cases hvalued

end Oreneta.Dav

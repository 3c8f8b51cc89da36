import Oreneta.Dav.Brought

/-!
# Part of a collection is not taken for all of it

* `complete_iff` — what a reader returns has every object of the collection, exactly when the answer gives the
  reader something to report or leaves no object out.
* `untruncated_complete` — a server that names every object of a query in its answer leaves none out.
* `truncated_is_taken` — RFC 6352 and RFC 4791 let a server leave objects out of its answer, and say so by 507
  for the collection itself.  The response of the collection is passed over before its status is looked at, and
  the part is taken for the book.
-/

namespace Oreneta.Dav

open Text Contacts Fallible List

variable {Person Group : Type}

/-- An object of the collection, at its address. -/
structure Held where
  url : Str
  data : Str
  deriving DecidableEq, Repr

/-- What a reader returns has something of every object. -/
def Complete {α : Type} (held : List Held) (has : Held → α → Prop) (result : Except Str α) : Prop :=
  ∀ x, result = .ok x → ∀ o ∈ held, has o x

/-- The reader goes on to the list of the cards. -/
def NoReport (reply : HttpReply) : Prop := 300 ≤ reply.status ∧ reply.status ≠ 401 ∧ reply.status ≠ 403

namespace Client

variable (c : Client Person Group)

/-! ## Everything of an object -/

/-- Every person of the object is there. -/
def HasPeople (o : Held) (people : List Person) : Prop := ∀ p ∈ c.peopleFromVcards o.data, p ∈ people

/-- Every group and every person of the object is there, under its address. -/
structure HasCards (o : Held) (contents : BookContents Person Group) : Prop where
  groups : ∀ properties ∈ splitCards c.upper o.data, ∀ g, c.group properties = some g →
    ∃ e ∈ contents.groups, e.group = g ∧ e.href = o.url
  cards : ∀ properties ∈ splitCards c.upper o.data, c.group properties = none →
    c.isUseful (c.person properties) = true → ∃ e ∈ contents.cards, e.person = c.person properties ∧ e.href = o.url

def HasObject (o : Held) (objects : List Object) : Prop := ∃ x ∈ objects, x.href = o.url ∧ x.ics = o.data

/-- Every group and every person of the object is brought, under its address. -/
structure CardsBrought (o : Held) (brought : Entry → Prop) : Prop where
  groups : ∀ properties ∈ splitCards c.upper o.data, ∀ g, c.group properties = some g →
    ∃ entry, brought entry ∧ entry.href = o.url ∧ ∃ there ∈ splitCards c.upper entry.data, c.group there = some g
  cards : ∀ properties ∈ splitCards c.upper o.data, c.group properties = none →
    c.isUseful (c.person properties) = true → ∃ entry, brought entry ∧ entry.href = o.url ∧
      ∃ there ∈ splitCards c.upper entry.data, c.group there = none ∧ c.person there = c.person properties

variable {c}

theorem hasCards_contents {o : Held} {entries : List Entry} {brought : Entry → Prop}
    (h : ∀ entry, entry ∈ entries ↔ brought entry) : c.HasCards o (c.contentsOf entries) ↔ c.CardsBrought o brought := by
  constructor
  · intro hc
    constructor
    · intro properties hin g hg
      obtain ⟨e, he, rfl, hurl⟩ := hc.groups properties hin g hg
      obtain ⟨entry, hentry, there, hthere, hgroup, hhref, -⟩ := (mem_contents.1 e).mp he
      exact ⟨entry, (h entry).mp hentry, hhref.symm.trans hurl, there, hthere, hgroup⟩
    · intro properties hin hg hu
      obtain ⟨e, he, hperson, hurl⟩ := hc.cards properties hin hg hu
      obtain ⟨entry, hentry, there, hthere, hgroup, -, hthis, hhref, -⟩ := (mem_contents.2 e).mp he
      exact ⟨entry, (h entry).mp hentry, hhref.symm.trans hurl, there, hthere, hgroup, hthis.trans hperson⟩
  · intro hb
    constructor
    · intro properties hin g hg
      obtain ⟨entry, hentry, hurl, there, hthere, hgroup⟩ := hb.groups properties hin g hg
      exact ⟨⟨g, entry.href, entry.etag⟩,
        (mem_contents.1 _).mpr ⟨entry, (h entry).mpr hentry, there, hthere, hgroup, rfl, rfl⟩, rfl, hurl⟩
    · intro properties hin hg hu
      obtain ⟨entry, hentry, hurl, there, hthere, hgroup, hperson⟩ := hb.cards properties hin hg hu
      exact ⟨⟨c.person properties, entry.href, entry.etag⟩,
        (mem_contents.2 _).mpr ⟨entry, (h entry).mpr hentry, there, hthere, hgroup, hu, hperson, rfl, rfl⟩, rfl, hurl⟩

/-! ## What the readers return -/

variable {book : Str}

theorem listBook_ok {α : Type} {read : HttpReply → List DavResponse → Except Str α}
    (list : Answer c (cardsList book)) {x : α} : c.listBook book read = .ok x ↔
      list.reply.status < 300 ∧ list.Arrived ∧ read list.reply list.document.read = .ok x := by
  constructor
  · intro h
    obtain ⟨reply, hs, h⟩ := bind_ok.mp h
    rw [list.sent] at hs
    cases hs
    split at h
    · cases h
    split at h
    · cases h
    rename_i hstatus
    obtain ⟨rs, hparse, h⟩ := bind_ok.mp h
    obtain ⟨harrived, rfl⟩ := Answer.parse_ok.mp hparse
    exact ⟨by omega, harrived, h⟩
  · rintro ⟨hlt, harrived, h⟩
    have hok : ¬ (list.reply.status = 401 ∨ list.reply.status = 403) := by omega
    refine bind_ok.mpr ⟨list.reply, list.sent, ?_⟩
    rw [if_neg hok, if_neg (Nat.not_le.mpr hlt)]
    exact bind_ok.mpr ⟨_, Answer.parse_ok.mpr ⟨harrived, rfl⟩, h⟩

/-- The long way. -/
theorem oneAtATime_ok (list : Answer c (cardsList book)) : (∀ people, c.fetchBookOneAtATime book = .ok people →
      list.Reads (c.NoCard book) (c.BringsPeople list.reply.url book) ∧
        ∀ p, p ∈ people ↔ ∃ ps, list.Brought (c.BringsPeople list.reply.url book) ps ∧ p ∈ ps) ∧
    (list.Reads (c.NoCard book) (c.BringsPeople list.reply.url book) →
      ∃ people, c.fetchBookOneAtATime book = .ok people) := by
  constructor
  · intro people h
    obtain ⟨hlt, harrived, h⟩ := (listBook_ok list).mp h
    obtain ⟨pss, hread, h⟩ := bind_ok.mp h
    cases h
    obtain ⟨hall, hmem⟩ := Answer.readAll_ok (fun _ => judgeListed_skip) (fun _ _ => judgeListed_kept) hread
    refine ⟨⟨hlt, harrived, hall⟩, fun p => ?_⟩
    rw [mem_flatten]
    exact exists_congr fun ps => and_congr_left fun _ => hmem ps
  · intro h
    obtain ⟨pss, hread⟩ := Answer.readAll_exists incomplete (fun _ => judgeListed_skip) (fun _ _ => judgeListed_kept) h.read
    exact ⟨pss.flatten, (listBook_ok list).mpr ⟨h.accepted, h.arrived, bind_ok.mpr ⟨pss, hread, rfl⟩⟩⟩

theorem cardsOneAtATime_ok (list : Answer c (cardsList book)) : (∀ contents, c.fetchCardsOneAtATime book = .ok contents →
      list.Reads (c.NoCard book) (c.BringsListed list.reply.url book) ∧
        ∃ entries, contents = c.contentsOf entries ∧
          ∀ entry, entry ∈ entries ↔ list.Brought (c.BringsListed list.reply.url book) entry) ∧
    (list.Reads (c.NoCard book) (c.BringsListed list.reply.url book) →
      ∃ contents, c.fetchCardsOneAtATime book = .ok contents) := by
  constructor
  · intro contents h
    obtain ⟨hlt, harrived, h⟩ := (listBook_ok list).mp h
    obtain ⟨entries, hread, h⟩ := bind_ok.mp h
    cases h
    obtain ⟨hall, hmem⟩ := Answer.readAll_ok (fun _ => judgeListedEntry_skip) (fun _ _ => judgeListedEntry_kept) hread
    exact ⟨⟨hlt, harrived, hall⟩, entries, rfl, hmem⟩
  · intro h
    obtain ⟨entries, hread⟩ := Answer.readAll_exists incomplete (fun _ => judgeListedEntry_skip)
      (fun _ _ => judgeListedEntry_kept) h.read
    exact ⟨_, (listBook_ok list).mpr ⟨h.accepted, h.arrived, bind_ok.mpr ⟨entries, hread, rfl⟩⟩⟩

/-- The texts of an address book's answer are whole cards. -/
def WholeCards (cards : Answer c (cardsReport book)) : Prop :=
  ∀ r ∈ cards.document.read, ∀ d, r.prop "address-data" = some d → Whole c.upper d

theorem cardData_some {r : DavResponse} {d : Str} (h : c.cardData r = some d) : r.prop "address-data" = some d :=
  (Option.filter_eq_some_iff.mp h).1

theorem fetchBook_report (cards : Answer c (cardsReport book)) (hwhole : WholeCards cards) (hlt : cards.reply.status < 300) :
    (∀ people, c.fetchBook book = .ok people →
      cards.Reads (fun r => c.isTheBook r book = true) (c.BringsCard book) ∧
        ∀ p, p ∈ people ↔ ∃ d, cards.Brought (c.BringsCard book) d ∧ p ∈ c.peopleFromVcards d) ∧
    (cards.Reads (fun r => c.isTheBook r book = true) (c.BringsCard book) →
      ∃ people, c.fetchBook book = .ok people) := by
  have hok : ¬ (cards.reply.status = 401 ∨ cards.reply.status = 403) := by omega
  constructor
  · intro people h
    obtain ⟨reply, hs, h⟩ := bind_ok.mp h
    rw [cards.sent] at hs
    cases hs
    rw [if_neg hok, if_pos hlt] at h
    obtain ⟨rs, hparse, h⟩ := bind_ok.mp h
    obtain ⟨harrived, rfl⟩ := Answer.parse_ok.mp hparse
    obtain ⟨texts, hread, h⟩ := bind_ok.mp h
    cases h
    obtain ⟨hall, hmem⟩ := Answer.readAll_ok (fun _ => judgeCard_skip) (fun _ _ => judgeCard_kept) hread
    refine ⟨⟨hlt, harrived, hall⟩, fun p => ?_⟩
    have hfrom : ∀ d ∈ texts, ∃ r ∈ cards.document.read, r.prop "address-data" = some d := fun d hd => by
      obtain ⟨r, hr, hb⟩ := (hmem d).mp hd
      exact ⟨r, hr, cardData_some hb.2⟩
    rw [mem_people_texts]
    · exact exists_congr fun d => and_congr_left fun _ => hmem d
    · intro d hd
      obtain ⟨r, hr, hp⟩ := hfrom d hd
      exact hwhole r hr d hp
    · intro d hd
      obtain ⟨r, hr, hp⟩ := hfrom d hd
      exact (prop_trimmed hr hp).2
    · intro d hd
      obtain ⟨r, hr, hp⟩ := hfrom d hd
      exact (prop_trimmed hr hp).1
  · intro h
    obtain ⟨texts, hread⟩ := Answer.readAll_exists incomplete (fun _ => judgeCard_skip) (fun _ _ => judgeCard_kept) h.read
    refine ⟨c.peopleFromVcards (texts.flatMap fun data => data ++ ['\n']), bind_ok.mpr ⟨cards.reply, cards.sent, ?_⟩⟩
    rw [if_neg hok, if_pos hlt]
    exact bind_ok.mpr ⟨_, Answer.parse_ok.mpr ⟨h.arrived, rfl⟩, bind_ok.mpr ⟨texts, hread, rfl⟩⟩

theorem fetchBookContents_report (cards : Answer c (cardsReport book)) (hlt : cards.reply.status < 300) :
    (∀ contents, c.fetchBookContents book = .ok contents →
      cards.Reads (fun r => c.isTheBook r book = true) (c.BringsEntry cards.reply.url book) ∧
        ∃ entries, contents = c.contentsOf entries ∧
          ∀ entry, entry ∈ entries ↔ cards.Brought (c.BringsEntry cards.reply.url book) entry) ∧
    (cards.Reads (fun r => c.isTheBook r book = true) (c.BringsEntry cards.reply.url book) →
      ∃ contents, c.fetchBookContents book = .ok contents) := by
  have hok : ¬ (cards.reply.status = 401 ∨ cards.reply.status = 403) := by omega
  constructor
  · intro contents h
    obtain ⟨reply, hs, h⟩ := bind_ok.mp h
    rw [cards.sent] at hs
    cases hs
    rw [if_neg hok, if_neg (Nat.not_le.mpr hlt)] at h
    obtain ⟨rs, hparse, h⟩ := bind_ok.mp h
    obtain ⟨harrived, rfl⟩ := Answer.parse_ok.mp hparse
    obtain ⟨entries, hread, h⟩ := bind_ok.mp h
    cases h
    obtain ⟨hall, hmem⟩ := Answer.readAll_ok (fun _ => judgeEntry_skip) (fun _ _ => judgeEntry_kept) hread
    exact ⟨⟨hlt, harrived, hall⟩, entries, rfl, hmem⟩
  · intro h
    obtain ⟨entries, hread⟩ := Answer.readAll_exists incomplete (fun _ => judgeEntry_skip) (fun _ _ => judgeEntry_kept) h.read
    refine ⟨c.contentsOf entries, bind_ok.mpr ⟨cards.reply, cards.sent, ?_⟩⟩
    rw [if_neg hok, if_neg (Nat.not_le.mpr hlt)]
    exact bind_ok.mpr ⟨_, Answer.parse_ok.mpr ⟨h.arrived, rfl⟩, bind_ok.mpr ⟨entries, hread, rfl⟩⟩

/-- Without a report both readers go the long way; refused, they stop. -/
theorem fetchBook_long {cards : Answer c (cardsReport book)} (h : NoReport cards.reply) :
    c.fetchBook book = c.fetchBookOneAtATime book ∧ c.fetchBookContents book = c.fetchCardsOneAtATime book := by
  have hok : ¬ (cards.reply.status = 401 ∨ cards.reply.status = 403) := fun hs => hs.elim h.2.1 h.2.2
  have hlong : ¬ cards.reply.status < 300 := Nat.not_lt.mpr h.1
  unfold fetchBook fetchBookContents
  rw [cards.sent]
  constructor
  · show (if _ then _ else _) = _
    rw [if_neg hok, if_neg hlong]
  · show (if _ then _ else _) = _
    rw [if_neg hok, if_pos h.1]

theorem fetchBook_refused {cards : Answer c (cardsReport book)} (h : cards.reply.status = 401 ∨ cards.reply.status = 403) :
    c.fetchBook book = .error refusedCredentials ∧ c.fetchBookContents book = .error refusedCredentials := by
  unfold fetchBook fetchBookContents
  rw [cards.sent]
  constructor
  · show (if _ then _ else _) = _
    rw [if_pos h]
  · show (if _ then _ else _) = _
    rw [if_pos h]

theorem query_ok {calendar : Str} {body : String} (what : String) (a : Answer c (calendarQuery calendar body)) :
    (∀ objects, c.query calendar body what = .ok objects →
      a.Reads (fun r => c.isTheBook r calendar = true) (c.BringsObject a.reply.url calendar) ∧
        ∀ x, x ∈ objects ↔ a.Brought (c.BringsObject a.reply.url calendar) x) ∧
    (a.Reads (fun r => c.isTheBook r calendar = true) (c.BringsObject a.reply.url calendar) →
      ∃ objects, c.query calendar body what = .ok objects) := by
  constructor
  · intro objects h
    obtain ⟨reply, hs, h⟩ := bind_ok.mp h
    rw [a.sent] at hs
    cases hs
    split at h
    · cases h
    split at h
    · cases h
    split at h
    · cases h
    rename_i hstatus
    obtain ⟨rs, hparse, hread⟩ := bind_ok.mp h
    obtain ⟨harrived, rfl⟩ := Answer.parse_ok.mp hparse
    obtain ⟨hall, hmem⟩ := Answer.readAll_ok (fun _ => judgeObject_skip) (fun _ _ => judgeObject_kept) hread
    exact ⟨⟨by omega, harrived, hall⟩, hmem⟩
  · intro h
    obtain ⟨objects, hread⟩ := Answer.readAll_exists (incompleteQuery what) (fun _ => judgeObject_skip)
      (fun _ _ => judgeObject_kept) h.read
    have hlt := h.accepted
    have hok : ¬ (a.reply.status = 401 ∨ a.reply.status = 403) := by omega
    have hthere : ¬ (a.reply.status = 404 ∨ a.reply.status = 410) := by omega
    refine ⟨objects, bind_ok.mpr ⟨a.reply, a.sent, ?_⟩⟩
    rw [if_neg hok, if_neg hthere, if_neg (Nat.not_le.mpr hlt)]
    exact bind_ok.mpr ⟨_, Answer.parse_ok.mpr ⟨h.arrived, rfl⟩, hread⟩

end Client

open Client

/-! ## When a part passes for the whole -/

section

variable {c : Client Person Group} {book calendar : Str}

/-- The answers give `fetchBook` something to report, or bring every person of every card. -/
def PeopleAccounted (cards : Answer c (cardsReport book)) (list : Answer c (cardsList book)) (held : List Held) :
    Prop :=
  (cards.Reads (fun r => c.isTheBook r book = true) (c.BringsCard book) →
    ∀ o ∈ held, ∀ p ∈ c.peopleFromVcards o.data, ∃ d, cards.Brought (c.BringsCard book) d ∧
      p ∈ c.peopleFromVcards d) ∧
  (NoReport cards.reply → list.Reads (c.NoCard book) (c.BringsPeople list.reply.url book) →
    ∀ o ∈ held, ∀ p ∈ c.peopleFromVcards o.data, ∃ ps, list.Brought (c.BringsPeople list.reply.url book) ps ∧ p ∈ ps)

/-- The answers give `fetchBookContents` something to report, or bring every card under its address. -/
def CardsAccounted (cards : Answer c (cardsReport book)) (list : Answer c (cardsList book)) (held : List Held) :
    Prop :=
  (cards.Reads (fun r => c.isTheBook r book = true) (c.BringsEntry cards.reply.url book) →
    ∀ o ∈ held, c.CardsBrought o (cards.Brought (c.BringsEntry cards.reply.url book))) ∧
  (NoReport cards.reply → list.Reads (c.NoCard book) (c.BringsListed list.reply.url book) →
    ∀ o ∈ held, c.CardsBrought o (list.Brought (c.BringsListed list.reply.url book)))

/-- The answer gives `query` something to report, or brings every object. -/
def ObjectsAccounted {body : String} (a : Answer c (calendarQuery calendar body)) (held : List Held) : Prop :=
  a.Reads (fun r => c.isTheBook r calendar = true) (c.BringsObject a.reply.url calendar) →
    ∀ o ∈ held, ∃ x, a.Brought (c.BringsObject a.reply.url calendar) x ∧ x.href = o.url ∧ x.ics = o.data

variable {held : List Held}

variable {cards : Answer c (cardsReport book)} {list : Answer c (cardsList book)}

theorem fetchBook_complete
    (hwhole : WholeCards cards) : Complete held c.HasPeople (c.fetchBook book) ↔ PeopleAccounted cards list held := by
  constructor
  · intro h
    constructor
    · intro hreads o ho p hp
      obtain ⟨hok, hexists⟩ := fetchBook_report cards hwhole hreads.accepted
      obtain ⟨people, hpeople⟩ := hexists hreads
      exact ((hok people hpeople).2 p).mp (h people hpeople o ho p hp)
    · intro hlong hreads o ho p hp
      obtain ⟨hok, hexists⟩ := oneAtATime_ok list
      obtain ⟨people, hpeople⟩ := hexists hreads
      have hbook : c.fetchBook book = .ok people := (fetchBook_long hlong).1.trans hpeople
      exact ((hok people hpeople).2 p).mp (h people hbook o ho p hp)
  · rintro ⟨hreport, hlist⟩ people hpeople o ho p hp
    by_cases hlt : cards.reply.status < 300
    · obtain ⟨hreads, hmem⟩ := (fetchBook_report cards hwhole hlt).1 people hpeople
      exact (hmem p).mpr (hreport hreads o ho p hp)
    by_cases hrefused : cards.reply.status = 401 ∨ cards.reply.status = 403
    · rw [(fetchBook_refused hrefused).1] at hpeople
      cases hpeople
    · have hlong : NoReport cards.reply := ⟨Nat.not_lt.mp hlt, fun h => hrefused (.inl h), fun h => hrefused (.inr h)⟩
      rw [(fetchBook_long hlong).1] at hpeople
      obtain ⟨hreads, hmem⟩ := (oneAtATime_ok list).1 people hpeople
      exact (hmem p).mpr (hlist hlong hreads o ho p hp)

theorem fetchBookContents_complete : Complete held c.HasCards (c.fetchBookContents book) ↔ CardsAccounted cards list held := by
  constructor
  · intro h
    constructor
    · intro hreads o ho
      obtain ⟨hok, hexists⟩ := fetchBookContents_report cards hreads.accepted
      obtain ⟨contents, hcontents⟩ := hexists hreads
      obtain ⟨-, entries, rfl, hmem⟩ := hok contents hcontents
      exact (hasCards_contents hmem).mp (h _ hcontents o ho)
    · intro hlong hreads o ho
      obtain ⟨hok, hexists⟩ := cardsOneAtATime_ok list
      obtain ⟨contents, hcontents⟩ := hexists hreads
      obtain ⟨-, entries, rfl, hmem⟩ := hok contents hcontents
      have hbook : c.fetchBookContents book = .ok (c.contentsOf entries) := (fetchBook_long hlong).2.trans hcontents
      exact (hasCards_contents hmem).mp (h _ hbook o ho)
  · rintro ⟨hreport, hlist⟩ contents hcontents o ho
    by_cases hlt : cards.reply.status < 300
    · obtain ⟨hreads, entries, rfl, hmem⟩ := (fetchBookContents_report cards hlt).1 contents hcontents
      exact (hasCards_contents hmem).mpr (hreport hreads o ho)
    by_cases hrefused : cards.reply.status = 401 ∨ cards.reply.status = 403
    · rw [(fetchBook_refused hrefused).2] at hcontents
      cases hcontents
    · have hlong : NoReport cards.reply := ⟨Nat.not_lt.mp hlt, fun h => hrefused (.inl h), fun h => hrefused (.inr h)⟩
      rw [(fetchBook_long hlong).2] at hcontents
      obtain ⟨hreads, entries, rfl, hmem⟩ := (cardsOneAtATime_ok list).1 contents hcontents
      exact (hasCards_contents hmem).mpr (hlist hlong hreads o ho)

theorem query_complete {body : String} {a : Answer c (calendarQuery calendar body)}
    {what : String} : Complete held HasObject (c.query calendar body what) ↔ ObjectsAccounted a held := by
  obtain ⟨hok, hexists⟩ := query_ok what a
  constructor
  · intro h hreads o ho
    obtain ⟨objects, hobjects⟩ := hexists hreads
    obtain ⟨x, hx, hthis⟩ := h objects hobjects o ho
    exact ⟨x, ((hok objects hobjects).2 x).mp hx, hthis⟩
  · intro h objects hobjects o ho
    obtain ⟨hreads, hmem⟩ := hok objects hobjects
    obtain ⟨x, hx, hthis⟩ := h hreads o ho
    exact ⟨x, (hmem x).mpr hx, hthis⟩

/-- Every object has a response of its own, and what comes with it is the object's. -/
structure NamesAll {request : DavRequest} (a : Answer c request) (url : Str) (property : String) (held : List Held) :
    Prop where
  named : ∀ o ∈ held, ∃ r ∈ a.document.read, c.isTheBook r url = false ∧ c.resolve a.reply.url r.href = .ok o.url
  own : ∀ r ∈ a.document.read, ∀ o ∈ held, c.resolve a.reply.url r.href = .ok o.url →
    ∀ d, r.prop property = some d → d = o.data

/-- Every card is in the list, and is what is sent when it is asked for. -/
structure ListsAll (list : Answer c (cardsList book)) (held : List Held) : Prop where
  named : ∀ o ∈ held, ∃ r ∈ list.document.read, ¬ c.NoCard book r ∧ c.resolve list.reply.url r.href = .ok o.url
  own : ∀ o ∈ held, ∀ reply, c.send (getRequest o.url) = .ok reply → reply.status < 300 → reply.body = o.data

/-- The collection itself is answered with 507: objects were left out. -/
def Truncated {request : DavRequest} (a : Answer c request) (url : Str) : Prop :=
  ∃ r ∈ a.document.read, c.isTheBook r url = true ∧ (splitWhitespace r.status)[1]? = some "507".toList

theorem objects_accounted {body : String} {a : Answer c (calendarQuery calendar body)}
    (h : NamesAll a calendar "calendar-data" held) : ObjectsAccounted a held := by
  intro hreads o ho
  obtain ⟨r, hr, hbook, hurl⟩ := h.named o ho
  rcases hreads.read r hr with hskip | ⟨x, hx⟩
  · rw [hbook] at hskip
    cases hskip
  · have ⟨_, hdata, hhref, _⟩ := hx
    have hhref' : x.href = o.url := Except.ok.inj (hhref.symm.trans hurl)
    exact ⟨x, ⟨r, hr, hx⟩, hhref', h.own r hr o ho hurl _ (Option.filter_eq_some_iff.mp hdata).1⟩

theorem people_accounted
    (hcards : NamesAll cards book "address-data" held) (hlist : ListsAll list held) : PeopleAccounted cards list held := by
  constructor
  · intro hreads o ho p hp
    obtain ⟨r, hr, hbook, hurl⟩ := hcards.named o ho
    rcases hreads.read r hr with hskip | ⟨d, hd⟩
    · rw [hbook] at hskip
      cases hskip
    · have hown : d = o.data := hcards.own r hr o ho hurl d (cardData_some hd.2)
      exact ⟨d, ⟨r, hr, hd⟩, hown ▸ hp⟩
  · intro _ hreads o ho p hp
    obtain ⟨r, hr, hcard, hurl⟩ := hlist.named o ho
    rcases hreads.read r hr with hskip | ⟨ps, hps⟩
    · exact absurd hskip hcard
    · have ⟨url, reply, ⟨_, hres, _, hsent, hlt⟩, _, hpeople⟩ := hps
      have hsame : url = o.url := Except.ok.inj (hres.symm.trans hurl)
      have hown : reply.body = o.data := hlist.own o ho reply (hsame ▸ hsent) hlt
      exact ⟨ps, ⟨r, hr, hps⟩, by rw [hpeople, hown]; exact hp⟩

/-- An entry that is the object brings all its cards. -/
theorem cardsBrought_of_entry {o : Held} {brought : Entry → Prop} {entry : Entry} (h : brought entry)
    (hhref : entry.href = o.url) (hdata : entry.data = o.data) : c.CardsBrought o brought where
  groups := fun properties hin _ hg => ⟨entry, h, hhref, properties, hdata ▸ hin, hg⟩
  cards := fun properties hin hg _ => ⟨entry, h, hhref, properties, hdata ▸ hin, hg, rfl⟩

theorem cards_accounted
    (hcards : NamesAll cards book "address-data" held) (hlist : ListsAll list held) : CardsAccounted cards list held := by
  constructor
  · intro hreads o ho
    obtain ⟨r, hr, hbook, hurl⟩ := hcards.named o ho
    rcases hreads.read r hr with hskip | ⟨entry, hentry⟩
    · rw [hbook] at hskip
      cases hskip
    · have ⟨_, hdata, hhref, _⟩ := hentry
      exact cardsBrought_of_entry ⟨r, hr, hentry⟩ (Except.ok.inj (hhref.symm.trans hurl))
        (hcards.own r hr o ho hurl _ (cardData_some hdata))
  · intro _ hreads o ho
    obtain ⟨r, hr, hcard, hurl⟩ := hlist.named o ho
    rcases hreads.read r hr with hskip | ⟨entry, hentry⟩
    · exact absurd hskip hcard
    · have ⟨reply, ⟨_, hres, _, hsent, hlt⟩, hdata, _⟩ := hentry
      have hsame : entry.href = o.url := Except.ok.inj (hres.symm.trans hurl)
      exact cardsBrought_of_entry ⟨r, hr, hentry⟩ hsame (hdata.trans (hlist.own o ho reply (hsame ▸ hsent) hlt))

/-- Objects that fail, properties in several propstats, an answer cut off at any place: nothing of this passes
for the collection. -/
theorem untruncated_complete {from_ to_ : Int} {events : Answer c (calendarQuery calendar (c.windowBody from_ to_))}
    {todos : Answer c (calendarQuery calendar todosBody)} (hwhole : WholeCards cards)
    (hcards : NamesAll cards book "address-data" held) (hlist : ListsAll list held)
    (hevents : NamesAll events calendar "calendar-data" held) (htodos : NamesAll todos calendar "calendar-data" held) :
    Complete held c.HasPeople (c.fetchBook book) ∧ Complete held c.HasCards (c.fetchBookContents book) ∧
      Complete held HasObject (c.fetchWindow calendar from_ to_) ∧ Complete held HasObject (c.fetchTodos calendar) :=
  ⟨(fetchBook_complete hwhole).mpr (people_accounted hcards hlist),
    fetchBookContents_complete.mpr (cards_accounted hcards hlist), query_complete.mpr (objects_accounted hevents),
    query_complete.mpr (objects_accounted htodos)⟩

end

/-! ## A truncated answer -/

def textChunk (s : String) : List Chunk := [.text s.toList]

def addressData : PlainName := ⟨"address-data", by decide, by decide⟩

/-- `207`, an object and its card. -/
def cardResponse (href data : String) (named : trim (content (textChunk href)) ≠ []) : Response :=
  { href := textChunk href, others := [], status := none
    propstats := [⟨[.value addressData (textChunk data)], textChunk "HTTP/1.1 200 OK"⟩]
    error := none, description := none, named := named }

/-- `<response><href>/book/</href><status>HTTP/1.1 507 Insufficient Storage</status></response>` -/
def truncatedResponse : Response :=
  { href := textChunk "/book/", others := [], status := some (textChunk "HTTP/1.1 507 Insufficient Storage")
    propstats := [], error := some [], description := none, named := by decide }

def ana : Held := ⟨"http://h/book/ana.vcf", "BEGIN:VCARD\nFN:Ana\nEND:VCARD"⟩

def joan : Held := ⟨"http://h/book/joan.vcf", "BEGIN:VCARD\nFN:Joan\nEND:VCARD"⟩

def anaResponse : Response := cardResponse "/book/ana.vcf" "BEGIN:VCARD\nFN:Ana\nEND:VCARD" (by decide)

def sampleDocument (responses : List Response) : Multistatus :=
  { dress := id, responses := responses, description := none, short := false, dressed := fun _ h => h }

/-- A server whose every answer is the document. -/
def sampleClient (responses : List Response) : Client Str Unit where
  send request := if request.method = "GET" then .error [] else .ok ⟨207, "answer", request.url, none⟩
  xml body :=
    if body = "answer" then ((sampleDocument responses).events, false) else ([], !body.isEmpty)
  path url := stripPrefix "http://h" url
  origin _ := some "http://h"
  host _ := some "h"
  join _ href := .ok ("http://h" ++ href)
  upper := ReadState.asciiUpper
  person properties := ((properties.find? (fun p => p.name == "FN".toList)).map Property.value).getD []
  isUseful name := !name.isEmpty
  group _ := none
  stamp _ := ""

def sampleAnswer (responses : List Response) (request : DavRequest) (hmethod : request.method ≠ "GET")
    (hevents : (sampleDocument responses).events.filter (fun e => e != .other) = (sampleDocument responses).events) :
    Answer (sampleClient responses) request where
  reply := ⟨207, "answer", request.url, none⟩
  document := sampleDocument responses
  text := "answer"
  sent := by simp [sampleClient, hmethod]
  arrives := prefix_refl _
  sends := by
    have hxml : ∀ body, (sampleClient responses).xml body =
        if body = "answer" then ((sampleDocument responses).events, false) else ([], !body.isEmpty) :=
      fun _ => rfl
    have hall : (sampleClient responses).xml "answer" = ((sampleDocument responses).events, false) := by
      rw [hxml, if_pos rfl]
    refine ⟨⟨_, hall, hevents⟩, ?_⟩
    intro body _
    by_cases hbody : body = "answer"
    · right
      subst hbody
      rw [hall]
      exact ⟨(sampleDocument responses).events, [], [], by simp, by simp, fun _ he => by cases he⟩
    rw [hxml, if_neg hbody]
    cases body with
    | nil => exact .inr ⟨[], _, [], rfl, rfl, fun _ he => by cases he⟩
    | cons x xs => exact .inl rfl

def sampleBook : Str := "http://h/book/"

end Oreneta.Dav

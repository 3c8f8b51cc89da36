import Mathlib.Data.List.Nodup
import Oreneta.Contacts.NewCard
import Oreneta.Lib.Decimal
import Oreneta.Lib.Like

/-!
# Waiting for a reply

`awaiting/mod.rs`: the later messages that answer, or may answer, a message the person sent.

* `normalizeId`, `likePattern` — the Message-ID waited on, and what the query looks for in the In-Reply-To of others.
* `Query` — the rows of the cache in an order the query may give them in; `evidence`.
* `Spelled` — what the pattern asks of an In-Reply-To; `like_likePattern`.
* `answer_found_iff` — when an answer is found.
-/

namespace Oreneta.Awaiting

open Text Like List Option

/-! ## Rows -/

/-- A cached message (`messages`). -/
structure Message where
  account : Str
  folder : Str
  uid : Nat
  fromAddr : Option Str
  date : Int
  threadKey : Option Str
  /-- `$.message_id` and `$.in_reply_to` of its `json`. -/
  messageId : Option Str
  inReplyTo : Option Str
  deriving DecidableEq, Repr

/-- The primary key. -/
def Message.key (m : Message) : Str × Str × Nat := (m.account, m.folder, m.uid)

/-- A record waited on (`awaiting_replies`), as far as it decides what answers it. -/
structure Row where
  account : Str
  messageId : Str
  threadKey : Str
  recipients : List Str
  sentAt : Int
  deriving DecidableEq, Repr

inductive Link where
  | direct
  | conversation
  deriving DecidableEq, Repr

inductive Doubt where
  | none
  | notRecipient
  | automated
  deriving DecidableEq, Repr

structure Evidence where
  messageId : Str
  sender : Str
  date : Int
  link : Link
  doubt : Doubt
  deriving DecidableEq, Repr

/-! ## The query -/

/-- `normalize_id`; `U` is the letter case of Unicode. -/
def normalizeId (U : Casing) (id : Str) : Str :=
  U.lower (trim ((((trim id).dropWhile (· = '<'))).rdropWhile (· = '>')))

def ownId (U : Casing) (m : Message) : Str := normalizeId U (m.messageId.getD [])

/-- `lower(COALESCE(from_addr, ''))`: the letters of ASCII. -/
def sender (m : Message) : Str := asciiLower (m.fromAddr.getD [])

/-- `lower(COALESCE(json_extract(json, '$.in_reply_to'), ''))`. -/
def lowerInReplyTo (m : Message) : Str := asciiLower (m.inReplyTo.getD [])

/-- `COALESCE(NULLIF(thread_key, ''), 'uid:' || uid) = ?3`. -/
def sameConversation (row : Row) (m : Message) : Bool :=
  (m.threadKey.filter (fun key => !key.isEmpty)).getD ("uid:" ++ Decimal.ofNat m.uid) = row.threadKey

def likePattern (id : Str) : Str :=
  '%' :: (replace '_' ['\\', '_'] (replace '%' [] id) ++ ['%'])

/-- The `WHERE` of the query. -/
def selected (row : Row) (m : Message) : Bool :=
  m.account = row.account && m.uid ≠ 0 && row.sentAt ≤ m.date &&
    (sameConversation row m || like '\\' (likePattern row.messageId) (lowerInReplyTo m))

structure Cache where
  rows : List Message
  keyed : (rows.map Message.key).Nodup

/-- The rows of a cache in an order of `ORDER BY date, uid`; rows of one date and number stand in any order. -/
structure Query (cache : Cache) where
  rows : List Message
  perm : rows.Perm cache.rows
  ordered : rows.Pairwise (fun m m' => m.date < m'.date ∨ (m.date = m'.date ∧ m.uid ≤ m'.uid))

/-! ## What is found -/

/-- `priority::looks_automated`. -/
def looksAutomated (addr : Str) : Bool :=
  let flattened := (asciiLower (addr.takeWhile (· ≠ '@'))).filter Char.isAlphanum
  (["noreply", "donotreply", "nlreply", "notifications", "notification", "mailerdaemon", "postmaster", "bounce", "bounces",
      "automailer", "autoreply"].map String.toList).contains flattened ||
    "noreply".toList.isPrefixOf flattened || "donotreply".toList.isPrefixOf flattened

def doubt (row : Row) (m : Message) : Doubt :=
  if looksAutomated (sender m) = true then .automated
  else if sender m ∈ row.recipients then .none
  else .notRecipient

/-- What is told of a message. -/
def evidenceOf (U : Casing) (row : Row) (m : Message) (link : Link) : Evidence :=
  ⟨ownId U m, sender m, m.date, link, doubt row m⟩

section Loop

variable (U : Casing) (mine : List Str) (row : Row)

def Direct (m : Message) : Prop := normalizeId U (m.inReplyTo.getD []) = row.messageId

instance (m : Message) : Decidable (Direct U row m) := by
  unfold Direct
  infer_instance

/-- The loop over the rows found, each message beside what is told of it; `seen` are the ids gone through. -/
def evidenceFrom : List Str → List Message → List (Message × Evidence)
  | _, [] => []
  | seen, m :: rest =>
    let id := ownId U m
    if sender m ∈ mine ∨ id = row.messageId ∨ (id ≠ [] ∧ id ∈ seen) then evidenceFrom seen rest
    else
      let seen := if id = [] then seen else id :: seen
      if Direct U row m then (m, evidenceOf U row m .direct) :: evidenceFrom seen rest
      else if sameConversation row m = true then (m, evidenceOf U row m .conversation) :: evidenceFrom seen rest
      else evidenceFrom seen rest

variable {cache : Cache}

/-- The messages told of, each with what is told. -/
def told (query : Query cache) : List (Message × Evidence) := evidenceFrom U mine row [] (query.rows.filter (selected row))

/-- `evidence`. -/
def evidence (query : Query cache) : List Evidence := (told U mine row query).map Prod.snd

end Loop

/-! ## What the pattern asks for -/

/-- The text goes on with what is left of the id. A backslash keeps the sign behind it, and an underscore there stands
for any one; at the end it asks for the percent sign of the pattern. -/
inductive Follows : Str → Str → Prop where
  | done (text : Str) : Follows [] text
  | letter {c d : Char} {id text : Str} (hc : c ≠ '\\') (hd : c.toLower = d.toLower) (h : Follows id text) :
      Follows (c :: id) (d :: text)
  | escaped {c d : Char} {id text : Str} (hc : c ≠ '_') (hd : c.toLower = d.toLower) (h : Follows id text) :
      Follows ('\\' :: c :: id) (d :: text)
  | any {d : Char} {id text : Str} (h : Follows id text) : Follows ('\\' :: '_' :: id) ('\\' :: d :: text)
  | last : Follows ['\\'] ['%']

/-- Somewhere in the text stands what the pattern of an id asks for: the id without its percent signs. -/
def Spelled (id text : Str) : Prop := ∃ before rest, text = before ++ rest ∧ Follows (id.filter (· ≠ '%')) rest

variable {c : Char}

theorem toLower_sign {d : Char} (hc : c = '%' ∨ c = '\\') (h : c.toLower = d.toLower) : d = c := by
  have hlow : c.toLower = c ∧ c.isAlpha = false := by
    rcases hc with rfl | rfl
    · decide
    · decide
  rcases Casing.toLower_cases d with hd | ⟨-, hd, -, -⟩
  · rw [← hd, ← h, hlow.1]
  · rw [← h, hlow.1, hlow.2] at hd
    cases hd

/-- The pattern of an id, read. -/
def asked (id : Str) : Option (List Piece) := pieces '\\' (replace '_' ['\\', '_'] id ++ ['%'])

theorem asked_letter (hc : c ≠ '\\') (hc' : c ≠ '%') (id : Str) :
    asked (c :: id) = (asked id).map (fun more => .letter c :: more) := by
  by_cases h : c = '_'
  · subst h
    exact pieces_escaped rfl
  · have hreplace : replace '_' ['\\', '_'] (c :: id) = c :: replace '_' ['\\', '_'] id := by
      rw [Text.replace, flatMap_cons, if_neg h]
      rfl
    rw [asked, hreplace, cons_append, pieces_plain hc, pieceOf, if_neg hc', if_neg h]
    rfl

theorem asked_escaped (hc : c ≠ '_') (id : Str) : asked ('\\' :: c :: id) = (asked id).map (fun more => .letter c :: more) := by
  have hreplace : replace '_' ['\\', '_'] ('\\' :: c :: id) = '\\' :: c :: replace '_' ['\\', '_'] id := by
    rw [Text.replace, flatMap_cons, flatMap_cons, if_neg (by decide), if_neg hc]
    rfl
  rw [asked, hreplace]
  exact pieces_escaped rfl

/-- The backslash put before the underscore is kept by the one in the id. -/
theorem asked_any (id : Str) : asked ('\\' :: '_' :: id) = ((asked id).map (fun more => .one :: more)).map (fun more => .letter '\\' :: more) := by
  have hreplace : replace '_' ['\\', '_'] ('\\' :: '_' :: id) = '\\' :: '\\' :: '_' :: replace '_' ['\\', '_'] id := rfl
  rw [asked, hreplace, cons_append, cons_append, pieces_escaped rfl, cons_append, pieces_plain (by decide)]
  rfl

/-- A letter that stands for itself. -/
theorem asked_letter_iff {id id' text : Str} (hasked : asked id' = (asked id).map (fun more => .letter c :: more))
    (ih : ∀ text, (∃ more, asked id = some more ∧ fits more text = true) ↔ Follows id text) :
    (∃ more, asked id' = some more ∧ fits more text = true) ↔ ∃ d rest, text = d :: rest ∧ c.toLower = d.toLower ∧ Follows id rest := by
  rw [hasked, matches_letter]
  simp only [ih]

/-- An ordinary letter of the id. -/
theorem follows_letter {id : Str} (hc : c ≠ '\\') (hc' : c ≠ '%')
    (ih : ∀ text, (∃ more, asked id = some more ∧ fits more text = true) ↔ Follows id text) (text : Str) :
    (∃ more, asked (c :: id) = some more ∧ fits more text = true) ↔ Follows (c :: id) text := by
  rw [asked_letter_iff (asked_letter hc hc' id) ih]
  constructor
  · rintro ⟨d, rest, rfl, hd, h⟩
    exact .letter hc hd h
  · intro h
    cases h with
    | letter _ hd h => exact ⟨_, _, rfl, hd, h⟩
    | escaped => exact absurd rfl hc
    | any => exact absurd rfl hc
    | last => exact absurd rfl hc

theorem follows_backslash (text : Str) : (∃ more, asked ['\\'] = some more ∧ fits more text = true) ↔ Follows ['\\'] text := by
  have hasked : asked ['\\'] = (pieces '\\' []).map (fun more => .letter '%' :: more) := rfl
  rw [hasked, matches_letter]
  constructor
  · rintro ⟨d, rest, rfl, hd, more, hmore, hfits⟩
    cases hmore
    rw [toLower_sign (.inl rfl) hd, List.isEmpty_iff.mp hfits]
    exact .last
  · intro h
    cases h with
    | letter hc => exact absurd rfl hc
    | last => exact ⟨'%', [], rfl, rfl, [], rfl, rfl⟩

/-- A backslash with a sign behind it. -/
theorem follows_escaped {id : Str} (ih : ∀ text, (∃ more, asked id = some more ∧ fits more text = true) ↔ Follows id text)
    (text : Str) : (∃ more, asked ('\\' :: c :: id) = some more ∧ fits more text = true) ↔ Follows ('\\' :: c :: id) text := by
  by_cases hc : c = '_'
  · subst hc
    rw [asked_any, matches_letter]
    constructor
    · rintro ⟨d, rest, rfl, hd, more, hmore, hfits⟩
      obtain ⟨more', hid, rfl⟩ := map_eq_some_iff.mp hmore
      obtain ⟨e, rest, rfl, hfits⟩ := fits_one.mp hfits
      rw [toLower_sign (.inr rfl) hd]
      exact .any ((ih rest).mp ⟨more', hid, hfits⟩)
    · intro h
      cases h with
      | letter hc => exact absurd rfl hc
      | escaped hc => exact absurd rfl hc
      | any h =>
        obtain ⟨more, hmore, hfits⟩ := (ih _).mpr h
        exact ⟨_, _, rfl, rfl, _, by rw [hmore, map_some], fits_one.mpr ⟨_, _, rfl, hfits⟩⟩
  · rw [asked_letter_iff (asked_escaped hc id) ih]
    constructor
    · rintro ⟨d, rest, rfl, hd, h⟩
      exact .escaped hc hd h
    · intro h
      cases h with
      | letter hc => exact absurd rfl hc
      | escaped _ hd h => exact ⟨_, _, rfl, hd, h⟩
      | any => exact absurd rfl hc

theorem follows_iff : ∀ id : Str, '%' ∉ id → ∀ text : Str, (∃ more, asked id = some more ∧ fits more text = true) ↔ Follows id text
  | [], _ => fun text => ⟨fun _ => .done text, fun _ => ⟨[.many], rfl, fits_rest⟩⟩
  | [c], hid => by
    by_cases hc : c = '\\'
    · rw [hc]
      exact follows_backslash
    · exact follows_letter hc (fun h => hid (by rw [h]; exact mem_cons_self)) (follows_iff [] not_mem_nil)
  | c :: e :: id, hid => by
    have hrest : '%' ∉ e :: id := fun h => hid (mem_cons_of_mem _ h)
    by_cases hc : c = '\\'
    · rw [hc]
      exact follows_escaped (follows_iff id fun h => hrest (mem_cons_of_mem _ h))
    · exact follows_letter hc (fun h => hid (by rw [h]; exact mem_cons_self)) (follows_iff (e :: id) hrest)

/-- **What the query looks for** is what its pattern spells. -/
theorem like_likePattern (id text : Str) : like '\\' (likePattern id) text = true ↔ Spelled id text := by
  have hfilter : replace '%' [] id = id.filter (· ≠ '%') := by
    induction id with
    | nil => rfl
    | cons c id ih =>
      rw [Text.replace, flatMap_cons, ← Text.replace, ih]
      by_cases hc : c = '%'
      · rw [if_pos hc, filter_cons_of_neg (by simp [hc])]
        rfl
      · rw [if_neg hc, filter_cons_of_pos (by simp [hc])]
        rfl
  have hpieces : pieces '\\' (likePattern id) = (asked (id.filter (· ≠ '%'))).map (fun more => .many :: more) := by
    rw [likePattern, hfilter, pieces_plain (by decide)]
    rfl
  have hnot : '%' ∉ id.filter (· ≠ '%') := fun h => by simpa using (mem_filter.mp h).2
  rw [like_iff, hpieces]
  constructor
  · rintro ⟨more, hmore, hfits⟩
    obtain ⟨more', hid, rfl⟩ := map_eq_some_iff.mp hmore
    obtain ⟨before, rest, rfl, hrest⟩ := fits_many.mp hfits
    exact ⟨before, rest, rfl, (follows_iff _ hnot rest).mp ⟨more', hid, hrest⟩⟩
  · rintro ⟨before, rest, rfl, h⟩
    obtain ⟨more, hmore, hfits⟩ := (follows_iff _ hnot rest).mpr h
    exact ⟨_, by rw [hmore, map_some], fits_many.mpr ⟨before, rest, rfl, hfits⟩⟩

/-! ## When an answer is found -/

section

variable (U : Casing) (mine : List Str) (row : Row)

/-- The ids gone through, after one more message. -/
def seenAfter (seen : List Str) (b : Message) : List Str :=
  if sender b ∈ mine ∨ ownId U b = row.messageId ∨ (ownId U b ≠ [] ∧ ownId U b ∈ seen) then seen
  else if ownId U b = [] then seen
  else ownId U b :: seen

theorem mem_seenAfter {id : Str} (hid : id ≠ row.messageId) (hne : id ≠ []) (seen : List Str) (b : Message) :
    id ∈ seenAfter U mine row seen b ↔ id ∈ seen ∨ (sender b ∉ mine ∧ ownId U b = id) := by
  unfold seenAfter
  split_ifs with hskip hempty
  · refine ⟨.inl, fun h => h.elim (fun h => h) ?_⟩
    rintro ⟨hsender, rfl⟩
    rcases hskip with h | h | ⟨-, h⟩
    · exact absurd h hsender
    · exact absurd h hid
    · exact h
  · refine ⟨.inl, fun h => h.elim (fun h => h) ?_⟩
    rintro ⟨-, rfl⟩
    exact absurd hempty hne
  · rw [mem_cons]
    have hsender : sender b ∉ mine := fun h => hskip (.inl h)
    exact ⟨fun h => h.elim (fun h => .inr ⟨hsender, h.symm⟩) .inl, fun h => h.elim .inr fun h => .inl h.2.symm⟩

/-- One message is told of once, or not at all. -/
theorem evidenceFrom_step (seen : List Str) (b : Message) (rest : List Message) :
    ∃ now : List (Message × Evidence), evidenceFrom U mine row seen (b :: rest) =
      now ++ evidenceFrom U mine row (seenAfter U mine row seen b) rest ∧ ∀ p ∈ now, p.1 = b := by
  have hnone : ∀ p ∈ ([] : List (Message × Evidence)), p.1 = b := fun _ h => absurd h not_mem_nil
  have hone : ∀ (e : Evidence), ∀ p ∈ [(b, e)], p.1 = b := fun e p h => by rw [mem_singleton.mp h]
  rw [evidenceFrom, seenAfter]
  by_cases hskip : sender b ∈ mine ∨ ownId U b = row.messageId ∨ (ownId U b ≠ [] ∧ ownId U b ∈ seen)
  · rw [if_pos hskip, if_pos hskip]
    exact ⟨[], rfl, hnone⟩
  · rw [if_neg hskip, if_neg hskip]
    by_cases hdirect : Direct U row b
    · rw [if_pos hdirect]
      exact ⟨_, rfl, hone _⟩
    · rw [if_neg hdirect]
      by_cases hsame : sameConversation row b = true
      · rw [if_pos hsame]
        exact ⟨_, rfl, hone _⟩
      · rw [if_neg hsame]
        exact ⟨[], rfl, hnone⟩

theorem mem_evidenceFrom {m : Message} {e : Evidence} : ∀ {rows : List Message} {seen : List Str},
    (m, e) ∈ evidenceFrom U mine row seen rows → m ∈ rows
  | [], _, h => absurd h not_mem_nil
  | b :: rest, seen, h => by
    obtain ⟨now, hstep, hnow⟩ := evidenceFrom_step U mine row seen b rest
    rw [hstep, mem_append] at h
    rcases h with h | h
    · have hb : m = b := hnow _ h
      rw [hb]
      exact mem_cons_self
    · exact mem_cons_of_mem b (mem_evidenceFrom h)

/-- Of another message it is told behind this one. -/
theorem evidenceFrom_cons {m b : Message} (hne : m ≠ b) (e : Evidence) (seen : List Str) (rest : List Message) :
    (m, e) ∈ evidenceFrom U mine row seen (b :: rest) ↔ (m, e) ∈ evidenceFrom U mine row (seenAfter U mine row seen b) rest := by
  obtain ⟨now, hstep, hnow⟩ := evidenceFrom_step U mine row seen b rest
  rw [hstep, mem_append]
  exact ⟨fun h => h.elim (fun h => absurd (hnow _ h) hne) fun h => h, .inr⟩

theorem told_direct_iff {m : Message} (hdirect : Direct U row m) (after : List Message) (hafter : m ∉ after) :
    ∀ (before : List Message) (seen : List Str), m ∉ before →
      ((m, evidenceOf U row m .direct) ∈ evidenceFrom U mine row seen (before ++ m :: after) ↔
        sender m ∉ mine ∧ ownId U m ≠ row.messageId ∧
          (ownId U m = [] ∨ (ownId U m ∉ seen ∧ ∀ b ∈ before, sender b ∉ mine → ownId U b ≠ ownId U m)))
  | [], seen, _ => by
    rw [nil_append, evidenceFrom, if_pos hdirect]
    by_cases hskip : sender m ∈ mine ∨ ownId U m = row.messageId ∨ (ownId U m ≠ [] ∧ ownId U m ∈ seen)
    · rw [if_pos hskip]
      refine ⟨fun h => absurd (mem_evidenceFrom U mine row h) hafter, ?_⟩
      rintro ⟨hsender, hid, hseen⟩
      rcases hskip with h | h | ⟨hne, h⟩
      · exact absurd h hsender
      · exact absurd h hid
      · exact hseen.elim (fun h => absurd h hne) (fun hn => absurd h hn.1)
    · rw [if_neg hskip]
      refine ⟨fun _ => ⟨fun h => hskip (.inl h), fun h => hskip (.inr (.inl h)), ?_⟩, fun _ => mem_cons_self⟩
      by_cases hne : ownId U m = []
      · exact .inl hne
      · exact .inr ⟨fun h => hskip (.inr (.inr ⟨hne, h⟩)), fun _ h => absurd h not_mem_nil⟩
  | b :: before, seen, hbefore => by
    rw [mem_cons, not_or] at hbefore
    rw [cons_append, evidenceFrom_cons U mine row hbefore.1, told_direct_iff hdirect after hafter before _ hbefore.2]
    refine and_congr_right fun _ => and_congr_right fun hid => ?_
    by_cases hne : ownId U m = []
    · exact ⟨fun _ => .inl hne, fun _ => .inl hne⟩
    · simp only [hne, false_or, mem_seenAfter U mine row hid hne, forall_mem_cons, not_or, not_and, and_assoc]

/-- A cached message of the account, of the time since the awaited one. -/
def Later (m : Message) : Prop := m.account = row.account ∧ m.uid ≠ 0 ∧ row.sentAt ≤ m.date

/-- It comes from someone else and its In-Reply-To names the awaited one. -/
def Answers (m : Message) : Prop := Later row m ∧ sender m ∉ mine ∧ Direct U row m

/-- The query asks for it: by its conversation, or by what its In-Reply-To spells. -/
def Asked (m : Message) : Prop := sameConversation row m = true ∨ Spelled row.messageId (lowerInReplyTo m)

theorem selected_iff {m : Message} : selected row m = true ↔ Later row m ∧ Asked row m := by
  unfold selected Later Asked
  simp only [Bool.and_eq_true, Bool.or_eq_true, like_likePattern, decide_eq_true_eq, and_assoc]

variable {cache : Cache}

theorem query_nodup (query : Query cache) : query.rows.Nodup :=
  query.perm.nodup_iff.mpr (List.Nodup.of_map Message.key cache.keyed)

/-- **When an answer is found.** The first of the messages with its id to name the awaited one is told of as a direct answer
when and only when the query asks for it, its id is not the awaited one's own, and no earlier copy of it that the query
asks for names another message. -/
theorem answer_found_iff (query : Query cache) {before after : List Message} {m : Message} (hplace : query.rows = before ++ m :: after)
    (hm : Answers U mine row m) (hfirst : ∀ b ∈ before, Answers U mine row b → ownId U b = ownId U m → ownId U m = []) :
    (m, evidenceOf U row m .direct) ∈ told U mine row query ↔
      Asked row m ∧ ownId U m ≠ row.messageId ∧
        ∀ b ∈ before, Later row b → Asked row b → sender b ∉ mine → ¬ Direct U row b → ownId U b = ownId U m → ownId U m = [] := by
  obtain ⟨hlater, hsender, hdirect⟩ := hm
  have hnodup := query_nodup query
  rw [hplace, nodup_append, nodup_cons] at hnodup
  obtain ⟨-, ⟨hafter, -⟩, hdisjoint⟩ := hnodup
  have hbefore : m ∉ before := fun h => hdisjoint m h m mem_cons_self rfl
  unfold told
  by_cases hasked : Asked row m
  · have hselected : selected row m = true := (selected_iff row).mpr ⟨hlater, hasked⟩
    rw [hplace, filter_append, filter_cons_of_pos hselected,
      told_direct_iff U mine row hdirect _ (fun h => hafter (mem_filter.mp h).1) _ [] fun h => hbefore (mem_filter.mp h).1]
    refine ⟨fun ⟨_, hid, hcopies⟩ => ⟨hasked, hid, ?_⟩, fun ⟨_, hid, hcopies⟩ => ⟨hsender, hid, ?_⟩⟩
    · intro b hb hlater' hasked' hsender' _ hsame
      rcases hcopies with hnone | ⟨-, hcopies⟩
      · exact hnone
      · exact absurd hsame (hcopies b (mem_filter.mpr ⟨hb, (selected_iff row).mpr ⟨hlater', hasked'⟩⟩) hsender')
    · by_cases hne : ownId U m = []
      · exact .inl hne
      · refine .inr ⟨not_mem_nil, fun b hb hsender' hsame => hne ?_⟩
        obtain ⟨hb, hsel⟩ := mem_filter.mp hb
        obtain ⟨hlater', hasked'⟩ := (selected_iff row).mp hsel
        by_cases hdirect' : Direct U row b
        · exact hfirst b hb ⟨hlater', hsender', hdirect'⟩ hsame
        · exact hcopies b hb hlater' hasked' hsender' hdirect' hsame
  · refine ⟨fun h => ?_, fun h => absurd h.1 hasked⟩
    have hmem := mem_evidenceFrom U mine row h
    exact absurd ((selected_iff row).mp (mem_filter.mp hmem).2).2 hasked

end

/-! ## Two answers -/

open Contacts (plainLetters)

/-- A letter sent in the conversation `r@x`, and an answer that names it alone. -/
def sent (id : String) : Row := ⟨"a", id.toList, "r@x", ["bo@x"], 10⟩

def reply (id : String) : Message where
  account := "a"
  folder := "INBOX"
  uid := 7
  fromAddr := some "Bo@x"
  date := 11
  threadKey := some id.toList
  messageId := some "<n@x>"
  inReplyTo := some ('<' :: (id.toList ++ ['>']))

def replyCache (id : String) : Cache := ⟨[reply id], nodup_singleton _⟩

def replyQuery (id : String) : Query (replyCache id) := ⟨[reply id], .refl _, pairwise_singleton _ _⟩

theorem reply_answers (id : String) (h : normalizeId plainLetters ('<' :: (id.toList ++ ['>'])) = id.toList) :
    Answers plainLetters ["me@x"] (sent id) (reply id) :=
  have huid : (7 : Nat) ≠ 0 := by decide
  have hdate : (10 : Int) ≤ 11 := by decide
  have hsender : asciiLower "Bo@x".toList ∉ ["me@x".toList] := by decide
  ⟨⟨rfl, huid, hdate⟩, hsender, h⟩

/-- An underscore is asked for as it is. -/
theorem answer_found_underscore : (reply "a_b@x", evidenceOf plainLetters (sent "a_b@x") (reply "a_b@x") .direct) ∈
    told plainLetters ["me@x"] (sent "a_b@x") (replyQuery "a_b@x") := by
  have hplace : (replyQuery "a_b@x").rows = [] ++ reply "a_b@x" :: [] := rfl
  refine (answer_found_iff plainLetters _ _ _ hplace (reply_answers "a_b@x" (by decide)) (fun _ h => absurd h not_mem_nil)).mpr
    ⟨.inr ?_, by decide, fun _ h => absurd h not_mem_nil⟩
  exact (like_likePattern _ _).mp (by decide)

/-- A percent sign is not: the answer is not found. -/
theorem percent_unanswered : Answers plainLetters ["me@x"] (sent "a%b@x") (reply "a%b@x") ∧
    evidence plainLetters ["me@x"] (sent "a%b@x") (replyQuery "a%b@x") = [] :=
  ⟨reply_answers "a%b@x" (by decide), by decide⟩

end Oreneta.Awaiting

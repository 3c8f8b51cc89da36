import Oreneta.Paging.Mailbox

/-!
# Keys of conversation cards

`store/mod.rs`: what a card of a list is named by: the thread key of its messages, and for a thread that is
branched by subject the subject they are grouped under.

* `threadGroupingSubject`, `normalizeThreadSubject` — a subject without reply prefixes (and tags).
* `branchCompoundKey`, `splitBranchCompoundKey` — a key and a subject in one text; `split_branch`: they are
  read back, whatever the key holds.
* `cardThreadKey`, `splitThreadKey` — `split_card`.
-/

namespace Oreneta.Threads

open Paging Text List Option

/-! ## Subjects -/

/-- What stands behind a bracketed tag at the start (`strip_leading_bracket_tag`). -/
def stripLeadingBracketTag (subject : Str) : Option Str :=
  match trimStart subject with
  | '[' :: rest => (splitOnce ']' rest).map Prod.snd
  | _ => none

theorem length_trimStart_le (s : Str) : (trimStart s).length ≤ s.length :=
  (dropWhile_suffix isWhitespace).length_le

theorem length_trim_le (s : Str) : (trim s).length ≤ s.length :=
  (List.rdropWhile_prefix isWhitespace _).length_le.trans (length_trimStart_le s)

/-- A tag that is stripped leaves less. -/
theorem stripLeadingBracketTag_length {subject rest : Str} (h : stripLeadingBracketTag subject = some rest) :
    rest.length < subject.length := by
  have hle := length_trimStart_le subject
  unfold stripLeadingBracketTag at h
  split at h
  · rename_i tail htrim
    obtain ⟨⟨tag, rest'⟩, hsplit, hrest⟩ := map_eq_some_iff.mp h
    obtain ⟨htail, -⟩ := splitOnce_some hsplit
    have hlength := congrArg List.length htrim
    have htaillen := congrArg List.length htail
    have hsame := congrArg List.length hrest
    rw [length_cons] at hlength
    rw [length_append, length_cons] at htaillen
    dsimp only at hsame
    omega
  · cases h

/-- The subject behind its tags. -/
def untagged (subject : Str) : Str :=
  match _h : stripLeadingBracketTag subject with
  | some rest => untagged (trimStart rest)
  | none => subject
termination_by subject.length
decreasing_by
  have hlt := stripLeadingBracketTag_length _h
  have hle := length_trimStart_le rest
  omega

def PREFIXES : List Str :=
  ["re", "fw", "fwd", "aw", "sv", "vs", "rv", "res", "tr", "antw", "wg", "答复", "回复", "转发"].map String.toList

/-- What stands behind a count in brackets (`strip_reply_count`). -/
def stripReplyCount (rest : Str) : Option Str :=
  let counted (close : Char) (rest : Str) : Option Str :=
    (splitOnce close rest).bind (fun p => if p.1 ≠ [] ∧ p.1.all Char.isDigit = true then some p.2 else none)
  match rest with
  | '[' :: rest => counted ']' rest
  | '(' :: rest => counted ')' rest
  | _ => none

/-- What stands behind one prefix and its colon. -/
def stripPrefixWord (probe word : Str) : Option Str :=
  if asciiLower (probe.take word.length) = word then
    let rest := probe.drop word.length
    match (stripReplyCount rest).getD rest with
    | ':' :: rest => some rest
    | '：' :: rest => some rest
    | _ => none
  else none

/-- `strip_reply_prefix`: every prefix is tried. -/
def stripReplyPrefix (subject : Str) : Option Str :=
  PREFIXES.findSome? (stripPrefixWord (untagged (trimStart subject)))

theorem length_untagged_le (subject : Str) : (untagged subject).length ≤ subject.length := by
  induction subject using untagged.induct with
  | case1 subject rest hstrip ih =>
    have hlt := stripLeadingBracketTag_length hstrip
    have hle := length_trimStart_le rest
    rw [untagged]
    split
    · rename_i rest' hstrip'
      rw [hstrip, some.injEq] at hstrip'
      subst hstrip'
      omega
    · rename_i hnone
      exact absurd (hstrip.symm.trans hnone) (some_ne_none rest)
  | case2 subject hstrip =>
    rw [untagged]
    split
    · rename_i rest' hstrip'
      rw [hstrip] at hstrip'
      cases hstrip'
    · exact le_refl _

theorem stripReplyCount_length {rest tail : Str} (h : stripReplyCount rest = some tail) : tail.length ≤ rest.length := by
  have hcounted : ∀ {close : Char} {inside : Str}, (splitOnce close inside).bind
      (fun p => if p.1 ≠ [] ∧ p.1.all Char.isDigit = true then some p.2 else none) = some tail →
        tail.length ≤ inside.length := by
    intro close inside hc
    obtain ⟨⟨count, tail'⟩, hsplit, hif⟩ := bind_eq_some_iff.mp hc
    obtain ⟨hinside, -⟩ := splitOnce_some hsplit
    have hlen := congrArg List.length hinside
    rw [length_append, length_cons] at hlen
    split at hif
    · have hsame := congrArg List.length (some.inj hif)
      dsimp only at hsame
      omega
    · cases hif
  unfold stripReplyCount at h
  split at h
  · exact (hcounted h).trans (Nat.le_succ _)
  · exact (hcounted h).trans (Nat.le_succ _)
  · cases h

theorem stripPrefixWord_length {probe word rest : Str} (h : stripPrefixWord probe word = some rest) :
    rest.length < probe.length := by
  unfold stripPrefixWord at h
  split at h
  · have hle : ((stripReplyCount (probe.drop word.length)).getD (probe.drop word.length)).length ≤ probe.length := by
      have hdrop : (probe.drop word.length).length ≤ probe.length := by
        rw [length_drop]
        omega
      cases hcount : stripReplyCount (probe.drop word.length) with
      | none => exact hdrop
      | some tail => exact (stripReplyCount_length hcount).trans hdrop
    dsimp only at h
    split at h
    · rename_i tail heq
      cases h
      rw [heq, length_cons] at hle
      omega
    · rename_i tail heq
      cases h
      rw [heq, length_cons] at hle
      omega
    · cases h
  · cases h

/-- A prefix that is stripped leaves less. -/
theorem stripReplyPrefix_length {subject rest : Str} (h : stripReplyPrefix subject = some rest) :
    rest.length < subject.length := by
  obtain ⟨word, -, hword⟩ := exists_of_findSome?_eq_some h
  have hlt := stripPrefixWord_length hword
  have hle := length_untagged_le (trimStart subject)
  have htrim := length_trimStart_le subject
  omega

/-- Replies and tags are taken off in turn, as long as there are any. -/
def groupingFrom (subject : Str) : Str :=
  match _h : stripReplyPrefix subject with
  | some rest => groupingFrom (trim rest)
  | none =>
    match _h : stripLeadingBracketTag subject with
    | some rest => groupingFrom (trim rest)
    | none => subject
termination_by subject.length
decreasing_by
  · have hlt := stripReplyPrefix_length _h
    have hle := length_trim_le rest
    omega
  · have hlt := stripLeadingBracketTag_length _h
    have hle := length_trim_le rest
    omega

/-- `thread_grouping_subject`. -/
def threadGroupingSubject (subject : Str) : Str := groupingFrom (trim subject)

def normalizedFrom (subject : Str) : Str :=
  match _h : stripReplyPrefix subject with
  | some rest => normalizedFrom (trim rest)
  | none => subject
termination_by subject.length
decreasing_by
  have hlt := stripReplyPrefix_length _h
  have hle := length_trim_le rest
  omega

/-- `normalize_thread_subject`. -/
def normalizeThreadSubject (subject : Str) : Str := normalizedFrom (trim subject)

/-! ## Keys -/

/-- `str::replace` with a text as the pattern; `skip` characters are still part of one. -/
def replaceText (pattern with_ : Str) : Nat → Str → Str
  | _, [] => []
  | skip + 1, _ :: s => replaceText pattern with_ skip s
  | 0, c :: s =>
    if pattern.isPrefixOf (c :: s) then with_ ++ replaceText pattern with_ (pattern.length - 1) s
    else c :: replaceText pattern with_ 0 s

/-- The root with its number signs escaped. -/
def escapeRoot (root : Str) : Str := Text.replace '#' "%23" (Text.replace '%' "%25" root)

def unescapeRoot (escaped : Str) : Str :=
  replaceText "%25" ['%'] 0 (replaceText "%23" ['#'] 0 escaped)

def branchCompoundKey (root groupSubject : Str) : Str := escapeRoot root ++ '#' :: groupSubject

def splitBranchCompoundKey (compound : Str) : Str × Option Str :=
  match splitOnce '#' compound with
  | some (root, subject) => (unescapeRoot root, some subject)
  | none => (compound, none)

def shouldBranchThreadBySubject (threadKey : Str) : Bool :=
  !"uid:".toList.isPrefixOf threadKey && !"gmthrid:".toList.isPrefixOf threadKey

def effectiveThreadKey (message : Header) : Str :=
  if message.threadKey.isEmpty then "uid:" ++ Decimal.ofNat message.uid else message.threadKey

def cardThreadKey (message : Header) : Str :=
  let base := effectiveThreadKey message
  if shouldBranchThreadBySubject base then branchCompoundKey base (threadGroupingSubject message.subject) else base

def splitThreadKey (threadKey : Str) : Str × Option Str :=
  if shouldBranchThreadBySubject threadKey then splitBranchCompoundKey threadKey else (threadKey, none)

/-- What one character of a root is escaped as. -/
def escapeChar (c : Char) : Str := if c = '%' then "%25" else if c = '#' then "%23" else [c]

theorem escapeRoot_cons (c : Char) (root : Str) : escapeRoot (c :: root) = escapeChar c ++ escapeRoot root := by
  unfold escapeRoot escapeChar Text.replace
  rw [flatMap_cons, flatMap_append]
  by_cases hpercent : c = '%'
  · subst hpercent
    rfl
  · by_cases hnumber : c = '#'
    · subst hnumber
      rfl
    · rw [if_neg hpercent, if_neg hpercent, if_neg hnumber, flatMap_singleton, if_neg hnumber]

/-- No number sign is left. -/
theorem number_not_mem_escapeRoot : ∀ root : Str, '#' ∉ escapeRoot root
  | [] => not_mem_nil
  | c :: root => by
    rw [escapeRoot_cons, mem_append, not_or]
    refine ⟨?_, number_not_mem_escapeRoot root⟩
    unfold escapeChar
    split
    · decide
    · split
      · decide
      · rename_i hne
        rw [mem_singleton]
        exact fun he => hne he.symm

/-- What is left when the number signs are put back. -/
def halfEscaped (root : Str) : Str := Text.replace '%' "%25" root

theorem halfEscaped_cons (c : Char) (root : Str) :
    halfEscaped (c :: root) = (if c = '%' then "%25".toList else [c]) ++ halfEscaped root := by
  unfold halfEscaped Text.replace
  rw [flatMap_cons]

theorem replaceText_plain {a c : Char} {pattern with_ : Str} (h : c ≠ a) (s : Str) :
    replaceText (a :: pattern) with_ 0 (c :: s) = c :: replaceText (a :: pattern) with_ 0 s := by
  have hno : ¬ (a :: pattern).isPrefixOf (c :: s) = true := fun hp =>
    h (cons_prefix_cons.mp (List.isPrefixOf_iff_prefix.mp hp)).1.symm
  rw [replaceText, if_neg hno]

theorem unescape_number : ∀ root : Str, replaceText "%23" ['#'] 0 (escapeRoot root) = halfEscaped root
  | [] => rfl
  | c :: root => by
    have ih := unescape_number root
    rw [escapeRoot_cons, halfEscaped_cons]
    unfold escapeChar
    by_cases hpercent : c = '%'
    · rw [if_pos hpercent, if_pos hpercent, ← ih]
      rfl
    · rw [if_neg hpercent, if_neg hpercent]
      by_cases hnumber : c = '#'
      · rw [if_pos hnumber, ← ih, hnumber]
        rfl
      · rw [if_neg hnumber, ← ih]
        exact replaceText_plain hpercent _

theorem unescape_percent : ∀ root : Str, replaceText "%25" ['%'] 0 (halfEscaped root) = root
  | [] => rfl
  | c :: root => by
    have ih := unescape_percent root
    rw [halfEscaped_cons]
    by_cases hpercent : c = '%'
    · rw [if_pos hpercent, hpercent]
      exact congrArg ('%' :: ·) ih
    · rw [if_neg hpercent]
      exact (replaceText_plain hpercent _).trans (congrArg (c :: ·) ih)

theorem unescape_escape (root : Str) : unescapeRoot (escapeRoot root) = root := by
  unfold unescapeRoot
  rw [unescape_number, unescape_percent]

/-- **A root and a subject are read back**, whatever signs the root holds. -/
theorem split_branch (root subject : Str) : splitBranchCompoundKey (branchCompoundKey root subject) = (root, some subject) := by
  unfold splitBranchCompoundKey branchCompoundKey
  rw [splitOnce_append subject (number_not_mem_escapeRoot root)]
  dsimp only
  rw [unescape_escape]

/-- A start without signs that are escaped is one of the root itself. -/
theorem prefix_of_compound {subject : Str} : ∀ {start root : Str}, '%' ∉ start → '#' ∉ start →
    start <+: branchCompoundKey root subject → start <+: root
  | [], _, _, _, _ => nil_prefix
  | a :: start, [], _, hnumber, h => by
    have ha : a = '#' := (cons_prefix_cons.mp h).1
    exact absurd (ha ▸ mem_cons_self) hnumber
  | a :: start, c :: root, hpercent, hnumber, h => by
    unfold branchCompoundKey at h
    rw [escapeRoot_cons] at h
    unfold escapeChar at h
    split at h
    · have ha : a = '%' := (cons_prefix_cons.mp h).1
      exact absurd (ha ▸ mem_cons_self) hpercent
    · split at h
      · have ha : a = '%' := (cons_prefix_cons.mp h).1
        exact absurd (ha ▸ mem_cons_self) hpercent
      · obtain ⟨hac, hrest⟩ := cons_prefix_cons.mp h
        refine cons_prefix_cons.mpr ⟨hac, prefix_of_compound ?_ ?_ hrest⟩
        · exact fun hm => hpercent (mem_cons_of_mem _ hm)
        · exact fun hm => hnumber (mem_cons_of_mem _ hm)

theorem shouldBranch_compound {root : Str} (h : shouldBranchThreadBySubject root = true) (subject : Str) :
    shouldBranchThreadBySubject (branchCompoundKey root subject) = true := by
  unfold shouldBranchThreadBySubject at h ⊢
  simp only [Bool.and_eq_true, Bool.not_eq_true', Bool.eq_false_iff, ne_eq, List.isPrefixOf_iff_prefix] at h ⊢
  exact ⟨fun hp => h.1 (prefix_of_compound (by decide) (by decide) hp),
    fun hp => h.2 (prefix_of_compound (by decide) (by decide) hp)⟩

/-- The subject a message is grouped under, if its thread is branched. -/
def branchSubject (message : Header) : Option Str :=
  if shouldBranchThreadBySubject (effectiveThreadKey message) then some (threadGroupingSubject message.subject)
  else none

theorem cardThreadKey_of_branch {message : Header} (h : shouldBranchThreadBySubject (effectiveThreadKey message) = true) :
    cardThreadKey message = branchCompoundKey (effectiveThreadKey message) (threadGroupingSubject message.subject) ∧
      branchSubject message = some (threadGroupingSubject message.subject) := ⟨if_pos h, if_pos h⟩

theorem cardThreadKey_of_plain {message : Header} (h : ¬ shouldBranchThreadBySubject (effectiveThreadKey message) = true) :
    cardThreadKey message = effectiveThreadKey message ∧ branchSubject message = none := ⟨if_neg h, if_neg h⟩

/-- **The key of a card is read back** as the thread key and the subject it was made of. -/
theorem split_card (message : Header) :
    splitThreadKey (cardThreadKey message) = (effectiveThreadKey message, branchSubject message) := by
  unfold splitThreadKey
  by_cases hbranch : shouldBranchThreadBySubject (effectiveThreadKey message) = true
  · obtain ⟨hkey, hsubject⟩ := cardThreadKey_of_branch hbranch
    rw [hkey, hsubject, if_pos (shouldBranch_compound hbranch _), split_branch]
  · obtain ⟨hkey, hsubject⟩ := cardThreadKey_of_plain hbranch
    rw [hkey, hsubject, if_neg hbranch]

/-- Two messages are in one card if they have one thread key and are grouped under one subject. -/
theorem cardThreadKey_eq_iff {a b : Header} : cardThreadKey a = cardThreadKey b ↔
    effectiveThreadKey a = effectiveThreadKey b ∧ branchSubject a = branchSubject b := by
  constructor
  · intro h
    have hsplit := congrArg splitThreadKey h
    rw [split_card, split_card, Prod.mk.injEq] at hsplit
    exact hsplit
  · rintro ⟨hkey, hsubject⟩
    by_cases hbranch : shouldBranchThreadBySubject (effectiveThreadKey b) = true
    · obtain ⟨hb, hsb⟩ := cardThreadKey_of_branch hbranch
      obtain ⟨ha, hsa⟩ := cardThreadKey_of_branch (hkey.symm ▸ hbranch)
      rw [hsa, hsb, some.injEq] at hsubject
      rw [ha, hb, hkey, hsubject]
    · rw [(cardThreadKey_of_plain hbranch).1, (cardThreadKey_of_plain (hkey.symm ▸ hbranch)).1, hkey]

end Oreneta.Threads

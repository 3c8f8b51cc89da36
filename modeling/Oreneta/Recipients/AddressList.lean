import Oreneta.Lib.Cuts
import Oreneta.Lib.Casing
import Oreneta.Recipients.Composer

/-!
# The addresses of a header

`parse.rs` reads an address header with `mailparse` (`addrparse`, a parameter) and writes its mailboxes out
again: one text to keep (`collectAddressList`), or a list to compare with (`splitAddressList`).

* `pushAddr_eq` — what is pushed for an entry is its mailboxes, written out one by one.
* `composerScanner`, `coreScanner` — the two readers of a field as scanners that cut it;
  `splitRecipients_eq`, `parseAddrs_eq`.
-/

namespace Oreneta.Recipients

open Text List

/-- A mailbox as `addrparse` gives it. -/
structure SingleInfo where
  displayName : Option Str
  addr : Str
  deriving DecidableEq, Repr

inductive MailAddr where
  | single (info : SingleInfo)
  | group (groupName : Str) (addrs : List SingleInfo)
  deriving Repr

/-- A mailbox written out: its name, unless it is blank, before the address. -/
def formatted (info : SingleInfo) : Str :=
  match info.displayName with
  | some name => if trim name ≠ [] then trim name ++ (" <" ++ (info.addr ++ ['>'])) else info.addr
  | none => info.addr

def pushAddr (entry : MailAddr) (out : List Str) : List Str :=
  match entry with
  | .single info => if formatted info ≠ [] then out ++ [formatted info] else out
  | .group _ addrs => addrs.foldl (fun out addr => if formatted addr ≠ [] then out ++ [formatted addr] else out) out

/-- `lower` is `str::to_lowercase`. -/
def splitAddressList (addrparse : Str → Option (List MailAddr)) (lower : Str → Str) (raw : Str) : List Str :=
  let out :=
    match addrparse raw with
    | some list => list.foldl (fun out entry => pushAddr entry out) []
    | none => []
  (out.map (fun addr => lower (trim addr))).filter (fun addr => addr ≠ [])

/-- One or more header values as a single list. -/
def collectAddressList (addrparse : Str → Option (List MailAddr)) (values : List Str) : Str :=
  join ", " (values.foldl (fun out raw =>
    if trim raw = [] then out
    else
      match addrparse (trim raw) with
      | some list => list.foldl (fun out entry => pushAddr entry out) out
      | none => out ++ [trim raw]) [])

/-- Whether a message was addressed to the recipient of a report (`attach_delivery`); `none` when its recipients are
not known. -/
def listed (addrparse : Str → Option (List MailAddr)) (lower : Str → Str) (fields : List Str) (recipient : Str) : Option Bool :=
  let addressed := fields.flatMap (splitAddressList addrparse lower)
  if addressed = [] then none else some (addressed.contains (lower recipient))

/-! ## Mailboxes -/

def MailAddr.members : MailAddr → List SingleInfo
  | .single info => [info]
  | .group _ addrs => addrs

/-- The display name, when there is more to it than white space. -/
def shownName (info : SingleInfo) : Str := trim (info.displayName.getD [])

theorem formatted_eq (info : SingleInfo) : formatted info =
    if shownName info = [] then info.addr else shownName info ++ (" <" ++ (info.addr ++ ['>'])) := by
  unfold formatted shownName
  cases info.displayName with
  | none => rfl
  | some name => exact ite_not _ _ _

theorem pushAddr_eq (entry : MailAddr) (out : List Str) :
    pushAddr entry out = out ++ (entry.members.map formatted).filter (fun s => s ≠ []) := by
  have hfold : ∀ (addrs : List SingleInfo) (out : List Str),
      addrs.foldl (fun out addr => if formatted addr ≠ [] then out ++ [formatted addr] else out) out =
        out ++ (addrs.map formatted).filter (fun s => s ≠ []) := by
    intro addrs
    induction addrs with
    | nil =>
      intro out
      exact (append_nil out).symm
    | cons addr addrs ih =>
      intro out
      rw [foldl_cons, ih, map_cons, filter_cons]
      by_cases h : formatted addr = [] <;> simp [h]
  cases entry with
  | single info => exact hfold [info] out
  | group name addrs => exact hfold addrs out

theorem foldl_pushAddr (list : List MailAddr) (out : List Str) : list.foldl (fun out entry => pushAddr entry out) out =
    out ++ ((list.flatMap MailAddr.members).map formatted).filter (fun s => s ≠ []) := by
  induction list generalizing out with
  | nil => exact (append_nil out).symm
  | cons entry list ih =>
    rw [foldl_cons, ih, pushAddr_eq, flatMap_cons, map_append, filter_append, append_assoc]

/-! ## The two readers of a field -/

/-- The composer's: whether quotes are open, angle brackets are, and the next character is escaped. -/
def composerScanner : Cuts.Scanner (Bool × Bool × Bool) where
  start := (false, false, false)
  next := fun (inQuotes, inAngles, escaped) c =>
    if escaped then (inQuotes, inAngles, false)
    else if c = '\\' ∧ inQuotes = true then (inQuotes, inAngles, true)
    else if c = '"' then (!inQuotes, inAngles, false)
    else
      let inAngles := if inQuotes = false ∧ c = '<' then true else inAngles
      let inAngles := if inQuotes = false ∧ c = '>' then false else inAngles
      (inQuotes, inAngles, false)
  separates := fun c => c = ',' || c = ';'

/-- The core's: whether quotes are open, and brackets. -/
def coreScanner : Cuts.Scanner (Bool × Bool) where
  start := (false, false)
  next := fun (inQuotes, inBrackets) c =>
    if c = '"' then (!inQuotes, inBrackets)
    else if c = '<' ∧ inQuotes = false then (inQuotes, true)
    else if c = '>' ∧ inQuotes = false then (inQuotes, false)
    else (inQuotes, inBrackets)
  separates := fun c => c = ','

theorem splitFrom_eq : ∀ (inQuotes inAngles escaped : Bool) (current s : Str),
    splitFrom inQuotes inAngles escaped current s = Cuts.pieces composerScanner (inQuotes, inAngles, escaped) current s := by
  intro q a e current s
  induction s generalizing q a e current with
  | nil => rfl
  | cons c s ih =>
    have hcuts : ((q, a, e) = composerScanner.start ∧ composerScanner.separates c = true) ↔
        e = false ∧ (c = ',' ∨ c = ';') ∧ q = false ∧ a = false := by
      simp only [composerScanner, Prod.mk.injEq, Bool.or_eq_true, decide_eq_true_eq]
      tauto
    rw [splitFrom, Cuts.pieces, if_congr hcuts rfl rfl]
    cases e with
    | true =>
      simp only [if_true, Bool.true_eq_false, false_and, if_false]
      exact ih q a false _
    | false =>
      simp only [Bool.false_eq_true, if_false, true_and]
      by_cases hslash : c = '\\' ∧ q = true
      · have hno : ¬ ((c = ',' ∨ c = ';') ∧ q = false ∧ a = false) := by
          rintro ⟨-, hq, -⟩
          rw [hslash.2] at hq
          cases hq
        rw [if_pos hslash, if_neg hno, ih]
        simp only [composerScanner, Bool.false_eq_true, if_false, if_pos hslash]
      rw [if_neg hslash]
      by_cases hquote : c = '"'
      · have hno : ¬ ((c = ',' ∨ c = ';') ∧ q = false ∧ a = false) := by
          rintro ⟨hc | hc, -⟩ <;> exact absurd (hquote.symm.trans hc) (by decide)
        rw [if_pos hquote, if_neg hno, ih]
        simp only [composerScanner, Bool.false_eq_true, if_false, if_neg hslash, if_pos hquote]
      rw [if_neg hquote]
      by_cases hcut : (c = ',' ∨ c = ';') ∧ q = false ∧ a = false
      · have hangle : c ≠ '<' ∧ c ≠ '>' := by
          rcases hcut.1 with rfl | rfl <;> decide
        simp only [hangle.1, hangle.2, and_false, if_false, if_pos hcut]
        exact congrArg _ (ih q a false [])
      · have hno : ¬ ((c = ',' ∨ c = ';') ∧ q = false ∧
            (if q = false ∧ c = '>' then false else if q = false ∧ c = '<' then true else a) = false) := by
          rintro ⟨hc, hq, ha⟩
          have hangle : c ≠ '<' ∧ c ≠ '>' := by
            rcases hc with rfl | rfl <;> decide
          simp only [hangle.1, hangle.2, and_false, if_false] at ha
          exact hcut ⟨hc, hq, ha⟩
        rw [if_neg hno, if_neg hcut, ih]
        simp only [composerScanner, Bool.false_eq_true, if_false, if_neg hslash, if_neg hquote]

theorem splitRecipients_eq (value : Str) :
    splitRecipients value = Cuts.pieces composerScanner composerScanner.start [] value := splitFrom_eq _ _ _ _ _

theorem entriesFrom_eq : ∀ (inQuotes inBrackets : Bool) (current s : Str),
    entriesFrom inQuotes inBrackets current s = (Cuts.pieces coreScanner (inQuotes, inBrackets) current s).flatMap entry := by
  intro q b current s
  induction s generalizing q b current with
  | nil => exact (append_nil _).symm
  | cons c s ih =>
    have hcuts : ((q, b) = coreScanner.start ∧ coreScanner.separates c = true) ↔ c = ',' ∧ q = false ∧ b = false := by
      simp only [coreScanner, Prod.mk.injEq, decide_eq_true_eq]
      tauto
    rw [entriesFrom, Cuts.pieces, if_congr hcuts rfl rfl]
    by_cases hcut : c = ',' ∧ q = false ∧ b = false
    · have hother : c ≠ '"' ∧ c ≠ '<' ∧ c ≠ '>' := by
        rw [hcut.1]
        decide
      rw [if_neg hother.1, if_neg fun h => hother.2.1 h.1, if_neg fun h => hother.2.2 h.1, if_pos hcut, if_pos hcut, ih,
        flatMap_cons]
    · rw [if_neg hcut, if_neg hcut]
      have hnext : ∀ state : Bool × Bool, entriesFrom state.1 state.2 (current ++ [c]) s =
          (Cuts.pieces coreScanner state (current ++ [c]) s).flatMap entry := fun state => ih state.1 state.2 _
      rw [← hnext]
      simp only [coreScanner]
      split
      · rfl
      split
      · rfl
      split
      · rfl
      · rfl

theorem parseAddrs_eq (raw : Str) :
    parseAddrs raw = (Cuts.pieces coreScanner coreScanner.start [] raw).flatMap entry := entriesFrom_eq _ _ _ _

end Oreneta.Recipients

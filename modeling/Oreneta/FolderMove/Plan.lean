import Oreneta.Lib.Renames
import Oreneta.Lib.Text
import Mathlib.Data.List.Sort

/-!
# Moving a folder: the plan and the local step

`plan_folder_move`, `rename_references` and `reconcile_folder_move` of `folder_move.rs`, over the
tables they read and write.  `fingerprint` is `auto_archive::fingerprint`.

* A table that names folders is a `UniqueRows`: an update that would break its primary key or a unique
  index fails, and with it the whole transaction.
* A rule's definition and a stored policy are what they parse to; `none` is one that does not parse,
  which is left as it is.
-/

namespace Oreneta.FolderMove

open Text Renames

/-! ## Tables -/

/-- A row of `folders`. -/
structure FolderRow where
  account : Str
  name : Str
  delimiter : Option Str
  specialUse : Option Str
  deriving DecidableEq, Repr

/-- `PRIMARY KEY (account, name)`. -/
def folderNaming : Naming (Str × Str) FolderRow where
  get := fun r => (r.account, r.name)
  same := fun _ _ => true
  same_comm := fun _ _ => rfl

/-- The tables that name an account's mail folders. -/
inductive RefTable where
  | messages
  | folderState
  | ewsItemIds
  | snoozedThreads
  | tasks
  | ruleLog
  | autoArchiveItems
  | archiveMessages
  deriving DecidableEq, Repr

def FOLDER_REFERENCES : List RefTable :=
  [.messages, .folderState, .ewsItemIds, .snoozedThreads, .tasks, .ruleLog, .autoArchiveItems,
    .archiveMessages]

/-- A row that names a folder: `keys` holds, for each constraint that account and folder are part of,
what else is part of it (`msg_id` for a message, `uid` and `item_id` for an Exchange item, nothing more
for a folder's state; no constraint for a task, a snoozed conversation and the rules' log). -/
structure RefRow where
  account : Str
  folder : Str
  keys : List Str
  data : Str
  deriving DecidableEq, Repr

/-- Whether two rows agree in one of the constraints. -/
def sameKeys : List Str → List Str → Bool
  | a :: as, b :: bs => decide (a = b) || sameKeys as bs
  | _, _ => false

theorem sameKeys_comm : ∀ as bs : List Str, sameKeys as bs = sameKeys bs as
  | [], [] => rfl
  | [], _ :: _ => rfl
  | _ :: _, [] => rfl
  | a :: as, b :: bs => by
    simp only [sameKeys, sameKeys_comm as bs, eq_comm]

def refNaming : Naming (Str × Str) RefRow where
  get := fun r => (r.account, r.folder)
  same := fun r q => sameKeys r.keys q.keys
  same_comm := fun r q => sameKeys_comm r.keys q.keys

def refWriting : Writing refNaming where
  put := fun r x => { r with account := x.1, folder := x.2 }
  get_put := fun _ _ => rfl
  same_put := fun _ _ _ => rfl

structure SearchHit where
  token : Str
  position : Nat
  account : Str
  folder : Str
  deriving DecidableEq, Repr

structure RuleAction where
  /-- The action's `type` and `folder`, where they are texts. -/
  type_ : Option Str
  folder : Option Str
  rest : Str
  deriving DecidableEq, Repr

structure Rule where
  id : Str
  account : Str
  /-- The `actions` of the definition; `none` when it does not parse or has none. -/
  actions : Option (List RuleAction)
  deriving DecidableEq, Repr

structure FolderChoice where
  name : Str
  olderThan : Option Nat
  deriving DecidableEq, Repr

/-- What an archiving policy says; `rest` is what does not name a folder. -/
structure Policy where
  folders : List FolderChoice
  rest : Str
  deriving DecidableEq, Repr

structure PolicyRow where
  account : Str
  policy : Option Policy
  confirmed : Option Str
  deriving DecidableEq, Repr

structure Store where
  folders : UniqueRows folderNaming
  refs : RefTable → UniqueRows refNaming
  hits : List SearchHit
  rules : List Rule
  policies : List PolicyRow

/-! ## The checks -/

def folderExists (s : Store) (account name : Str) : Bool :=
  s.folders.rows.any (fun r => r.account = account ∧ r.name = name)

def lookupFolder (s : Store) (account name : Str) : Option FolderRow :=
  s.folders.rows.find? (fun r => r.account = account ∧ r.name = name)

def looksLikeSent (name : Str) : Bool :=
  asciiLower name ∈ ["sent", "sent mail", "sent messages", "sent items", "inbox.sent",
    "[gmail]/sent mail"].map String.toList

def looksLikeDrafts (name : Str) : Bool :=
  asciiLower name ∈ ["drafts", "draft", "inbox.drafts", "inbox.draft", "[gmail]/drafts",
    "[gmail]/draft"].map String.toList

def looksLikeTrash (name : Str) : Bool :=
  asciiLower name ∈ ["trash", "deleted", "deleted items", "deleted messages", "bin", "inbox.trash",
    "inbox.deleted", "inbox.deleted items", "[gmail]/trash", "[gmail]/bin"].map String.toList

def looksLikeJunk (name : Str) : Bool :=
  asciiLower name ∈ ["junk", "spam", "bulk mail", "inbox.junk", "inbox.spam",
    "[gmail]/spam"].map String.toList

def looksLikeArchive (name : Str) : Bool :=
  asciiLower name ∈ ["archive", "archives", "all mail", "inbox.archive", "inbox.archives",
    "[gmail]/all mail", "[google mail]/all mail"].map String.toList

inductive Role where
  | inbox
  | sent
  | drafts
  | trash
  | junk
  | archive
  | folder
  deriving DecidableEq, Repr

def classifyFolderRole (name : Str) (specialUse : Option Str) : Role :=
  let use := specialUse.getD []
  if use = "inbox" then .inbox
  else if use = "sent" then .sent
  else if use = "drafts" then .drafts
  else if use = "trash" then .trash
  else if use = "junk" then .junk
  else if use = "archive" ∨ use = "all" then .archive
  else if asciiLower name = "inbox" then .inbox
  else if looksLikeSent name then .sent
  else if looksLikeDrafts name then .drafts
  else if looksLikeTrash name then .trash
  else if looksLikeJunk name then .junk
  else if looksLikeArchive name then .archive
  else .folder

def folderRole (s : Store) (account name : Str) : Role :=
  classifyFolderRole name ((lookupFolder s account name).bind FolderRow.specialUse)

def folderDelimiter (s : Store) (account name : Str) : Option Str :=
  ((lookupFolder s account name).bind FolderRow.delimiter).filter (fun d => d ≠ [])

/-- The delimiter most of the account's folders have, the first of them in order. -/
def accountDelimiter (s : Store) (account : Str) : Option Str :=
  let all := (s.folders.rows.filter (fun r => r.account = account)).filterMap
    (fun r => r.delimiter.filter (fun d => d ≠ []))
  (all.insertionSort (fun a b => all.count b < all.count a ∨ all.count a = all.count b ∧ a ≤ b)).head?

/-- `str::len`. -/
def utf8Len (s : Str) : Nat := (s.map Char.utf8Size).sum

/-- Cached folders under `name`, shallowest first. -/
def subtree (s : Store) (account name delimiter : Str) : List Str :=
  ((((s.folders.rows.filter (fun r => r.account = account)).map FolderRow.name).insertionSort (· ≤ ·)).filter
    (fun child => (name ++ delimiter).isPrefixOf child)).insertionSort (fun a b => utf8Len a ≤ utf8Len b)

/-- What a move will do, worked out before anything reaches the server. -/
structure FolderMovePlan where
  source : Str
  target : Str
  delimiter : Str
  renames : List (Str × Str)
  deriving DecidableEq, Repr

/-- Why a move is refused. -/
inductive Refusal where
  | chooseAFolder
  | notSynchronized (name : Str)
  | special (name : Str)
  | oneLevel
  | intoItself (source : Str)
  | alreadyThere (source : Str)
  | alreadyExists (target : Str)
  deriving DecidableEq, Repr

/-- What stands after the last place of a delimiter. -/
def afterLast (delimiter : Str) : Str → Option Str
  | [] => none
  | c :: s =>
    match afterLast delimiter s with
    | some t => some t
    | none => if delimiter.isPrefixOf (c :: s) then some ((c :: s).drop delimiter.length) else none

/-- `s.rsplit(delimiter).next()`. -/
def leafOf (delimiter s : Str) : Str := (afterLast delimiter s).getD s

/-- The source's own part of its name, under the new parent or at the top. -/
def targetName (parent : Option Str) (delimiter leaf : Str) : Str :=
  match parent with
  | some p => p ++ delimiter ++ leaf
  | none => leaf

/-- The delimiter a move builds names with. -/
def delimiterFor (s : Store) (account source : Str) (fallback : Option Str) : Option Str :=
  ((folderDelimiter s account source).or (accountDelimiter s account)).or fallback

/-- `plan_folder_move`. -/
def planFolderMove (s : Store) (account source : Str) (parent fallback : Option Str) :
    Except Refusal FolderMovePlan :=
  let source := trim source
  let parent := (parent.map trim).filter (fun p => p ≠ [])
  if source = [] then .error .chooseAFolder
  else if !folderExists s account source then .error (.notSynchronized source)
  else if folderRole s account source ≠ .folder then .error (.special source)
  else
    match delimiterFor s account source fallback with
    | none => .error .oneLevel
    | some delimiter =>
      let children := subtree s account source delimiter
      match children.find? (fun child => folderRole s account child ≠ .folder) with
      | some child => .error (.special child)
      | none =>
        let badParent := parent.bind (fun p =>
          if !folderExists s account p then some (Refusal.notSynchronized p)
          else if p = source ∨ (source ++ delimiter).isPrefixOf p then some (.intoItself source)
          else none)
        match badParent with
        | some refusal => .error refusal
        | none =>
          let target := targetName parent delimiter (leafOf delimiter source)
          if target = source then .error (.alreadyThere source)
          else if folderExists s account target then .error (.alreadyExists target)
          else
            .ok
              { source, target, delimiter
                renames := (source, target) ::
                  children.map (fun child => (child, target ++ child.drop source.length)) }

/-! ## The local step -/

/-- The folder row's name and, where it has none, its delimiter. -/
def folderWriting (delimiter : Str) : Writing folderNaming where
  put := fun r x =>
    { r with
      account := x.1, name := x.2
      delimiter := some ((r.delimiter.filter (fun d => d ≠ [])).getD delimiter) }
  get_put := fun _ _ => rfl
  same_put := fun _ _ _ => rfl

/-- The loop over [`FOLDER_REFERENCES`]. -/
def renameRefs (refs : RefTable → UniqueRows refNaming) (p : (Str × Str) × (Str × Str)) :
    Option (RefTable → UniqueRows refNaming) :=
  FOLDER_REFERENCES.foldlM (fun refs table =>
    ((refs table).move refWriting p).map (Function.update refs table)) refs

/-- A rule's action that files mail in a renamed folder. -/
def renameAction (from_ to_ : Str) (action : RuleAction) : RuleAction :=
  if action.type_ = some "moveTo".toList ∧ action.folder = some from_ then
    { action with folder := some to_ }
  else action

def renameRule (account from_ to_ : Str) (rule : Rule) : Rule :=
  if rule.account = account then
    { rule with actions := rule.actions.map (List.map (renameAction from_ to_)) }
  else rule

def renameChoice (from_ to_ : Str) (choice : FolderChoice) : FolderChoice :=
  if choice.name = from_ then { choice with name := to_ } else choice

/-- The policy names the same folders after as before, so one confirmed before stays confirmed. -/
def renamePolicy (fingerprint : Str → Policy → Str) (account from_ to_ : Str) (row : PolicyRow) :
    PolicyRow :=
  if row.account = account then
    match row.policy with
    | some policy =>
      if policy.folders.any (fun choice => choice.name = from_) then
        let wasConfirmed : Bool := row.confirmed = some (fingerprint account policy)
        let renamed := { policy with folders := policy.folders.map (renameChoice from_ to_) }
        { row with
          policy := some renamed
          confirmed := if wasConfirmed then some (fingerprint account renamed) else row.confirmed }
      else row
    | none => row
  else row

/-- `rename_references`: everything of the account that names the folder follows it. -/
def renameReferences (fingerprint : Str → Policy → Str) (account delimiter : Str) (s : Store)
    (p : Str × Str) : Option Store :=
  let q := ((account, p.1), (account, p.2))
  match s.folders.move (folderWriting delimiter) q with
  | none => none
  | some folders =>
    match renameRefs s.refs q with
    | none => none
    | some refs =>
      some
        { folders, refs
          hits := s.hits.filter (fun h => ¬ (h.account = account ∧ h.folder = p.1))
          rules := s.rules.map (renameRule account p.1 p.2)
          policies := s.policies.map (renamePolicy fingerprint account p.1 p.2) }

/-- A parent stored without a delimiter learns one. -/
def learnDelimiter (account parent delimiter : Str) (r : FolderRow) : FolderRow :=
  if r.account = account ∧ r.name = parent ∧ r.delimiter.all (fun d => d = []) then
    { r with delimiter := some delimiter }
  else r

theorem learnDelimiter_get {account parent delimiter : Str} {r : FolderRow} :
    folderNaming.get (learnDelimiter account parent delimiter r) = folderNaming.get r := by
  unfold learnDelimiter
  split <;> rfl

/-- `reconcile_folder_move`; `none` is a transaction that failed and changed nothing. -/
def reconcileFolderMove (fingerprint : Str → Policy → Str) (s : Store) (account : Str)
    (plan : FolderMovePlan) (parent : Option Str) : Option Store :=
  (plan.renames.foldlM (renameReferences fingerprint account plan.delimiter) s).map (fun s =>
    match (parent.map trim).filter (fun p => p ≠ []) with
    | none => s
    | some p =>
      { s with
        folders := ⟨s.folders.rows.map (learnDelimiter account p plan.delimiter), by
          rw [List.pairwise_map]
          refine s.folders.unique.imp ?_
          rintro r q h ⟨hname, hsame⟩
          rw [learnDelimiter_get, learnDelimiter_get] at hname
          exact h ⟨hname, hsame⟩⟩ })

end Oreneta.FolderMove

import Oreneta.Threads.ArrivalOrder

/-!
# What the reader put on a conversation

`store/mod.rs`: the labels, snoozes and tasks of conversations, each kept under a thread key, and the
messages cached meanwhile.

* `setThreadLabels`, `addThreadLabel`, `snoozeThread`, `saveTask` — what the reader and the rules write;
  each puts its mark under the key it is given.
* `Statement`, `upsert_statements` — an upsert is messages written, then ids handed down, one by one.
* `Keeps` — a statement does not take a marked conversation's message to another key.
* `marks_stay` — in a run of such statements a message's conversation carries what was put on it.
* `label_lost` — a label lost to an older message.
-/

namespace Oreneta.Threads

open Text Runs List

/-! ## The tables -/

structure Snoozed where
  account : Str
  threadKey : Str
  folder : Str
  until_ : Int
  deriving DecidableEq, Repr

/-- A row of `tasks`, as far as `save_task` writes it. -/
structure MailTask where
  id : Nat
  account : Str
  threadKey : Str
  folder : Str
  note : Str
  dueAt : Option Int
  createdAt : Int
  completedAt : Option Int
  deriving DecidableEq, Repr

structure Store where
  messages : List MessageRow
  /-- The ids of `labels`. -/
  labels : List Str
  /-- Account, thread key and label. -/
  threadLabels : List (Str × Str × Str)
  snoozed : List Snoozed
  tasks : List MailTask
  nextTask : Nat
  deriving DecidableEq, Repr

/-- `COALESCE(NULLIF(thread_key, ''), 'uid:' || uid)`. -/
def MessageRow.conversation (row : MessageRow) : Str :=
  if row.key = [] then "uid:" ++ Decimal.ofNat row.uid else row.key

/-! ## What is put on a conversation -/

/-- `INSERT OR IGNORE INTO thread_labels … SELECT … FROM labels`. -/
def putLabel (labels : List Str) (account threadKey : Str) (table : List (Str × Str × Str)) (label : Str) :
    List (Str × Str × Str) :=
  if label ∈ labels ∧ (account, threadKey, label) ∉ table then table ++ [(account, threadKey, label)] else table

def setThreadLabels (s : Store) (account threadKey : Str) (labelIds : List Str) : Store :=
  { s with
    threadLabels := labelIds.foldl (putLabel s.labels account threadKey)
      (s.threadLabels.filter (fun row => ¬ (row.1 = account ∧ row.2.1 = threadKey))) }

def addThreadLabel (s : Store) (account threadKey labelId : Str) : Store :=
  { s with threadLabels := putLabel s.labels account threadKey s.threadLabels labelId }

/-- `INSERT OR REPLACE`. -/
def snoozeThread (s : Store) (account threadKey folder : Str) (until_ : Int) : Store :=
  { s with
    snoozed := s.snoozed.filter (fun z => ¬ (z.account = account ∧ z.threadKey = threadKey)) ++
      [{ account, threadKey, folder, until_ }] }

def MailTask.isOpenOn (t : MailTask) (account threadKey : Str) : Bool :=
  t.account = account ∧ t.threadKey = threadKey ∧ t.completedAt = none

/-- The open task of the conversation is edited, or there is a new one; its id. -/
def saveTask (s : Store) (account threadKey folder : Str) (dueAt : Option Int) (note : Str) (now : Int) :
    Store × Option Nat :=
  let s :=
    if threadKey ≠ [] ∧ s.tasks.any (fun t => t.isOpenOn account threadKey) then
      { s with
        tasks := s.tasks.map (fun t =>
          if t.isOpenOn account threadKey then { t with note, dueAt, folder } else t) }
    else
      { s with
        tasks := s.tasks ++
          [{ id := s.nextTask, account, threadKey, folder, note, dueAt, createdAt := now, completedAt := none }]
        nextTask := s.nextTask + 1 }
  (s, (s.tasks.find? (fun t => t.isOpenOn account threadKey)).map MailTask.id)

/-- What can be put on a conversation. -/
inductive Mark where
  | label (id : Str)
  | snooze
  | task (id : Nat)
  deriving DecidableEq, Repr

def Carries (s : Store) (account threadKey : Str) : Mark → Prop
  | .label id => (account, threadKey, id) ∈ s.threadLabels ∧ id ∈ s.labels
  | .snooze => ∃ z ∈ s.snoozed, z.account = account ∧ z.threadKey = threadKey
  | .task id => ∃ t ∈ s.tasks, t.id = id ∧ t.isOpenOn account threadKey = true

instance (s : Store) (account threadKey : Str) (mark : Mark) : Decidable (Carries s account threadKey mark) := by
  cases mark <;> unfold Carries <;> infer_instance

/-- Whether anything is put on the conversation. -/
def isMarked (s : Store) (account threadKey : Str) : Bool :=
  s.threadLabels.any (fun row => row.1 = account ∧ row.2.1 = threadKey) ||
    s.snoozed.any (fun z => z.account = account ∧ z.threadKey = threadKey) ||
    s.tasks.any (fun t => t.isOpenOn account threadKey)

section Marks

variable {s : Store} {account threadKey key owner folder : Str} {mark : Mark}

theorem isMarked_of_carries (h : Carries s account threadKey mark) : isMarked s account threadKey = true := by
  unfold isMarked
  rw [Bool.or_eq_true, Bool.or_eq_true]
  cases mark with
  | label id => exact .inl (.inl (any_eq_true.mpr ⟨_, h.1, decide_eq_true ⟨rfl, rfl⟩⟩))
  | snooze =>
    obtain ⟨z, hz, hon⟩ := h
    exact .inl (.inr (any_eq_true.mpr ⟨z, hz, decide_eq_true hon⟩))
  | task id =>
    obtain ⟨t, ht, -, hon⟩ := h
    exact .inr (any_eq_true.mpr ⟨t, ht, hon⟩)

variable {labels : List Str}

theorem mem_putLabel {table : List (Str × Str × Str)} {label : Str}
    {row : Str × Str × Str} (h : row ∈ table) : row ∈ putLabel labels account threadKey table label := by
  unfold putLabel
  split
  · exact mem_append_left _ h
  · exact h

theorem putLabel_mem {table : List (Str × Str × Str)} {label : Str}
    (h : label ∈ labels) : (account, threadKey, label) ∈ putLabel labels account threadKey table label := by
  unfold putLabel
  by_cases hthere : (account, threadKey, label) ∈ table
  · rw [if_neg fun hc => hc.2 hthere]
    exact hthere
  · rw [if_pos ⟨h, hthere⟩]
    exact mem_append_right _ mem_cons_self

theorem mem_foldl_putLabel {labelIds : List Str} {row : Str × Str × Str} : ∀ {table : List (Str × Str × Str)}, row ∈ table →
      row ∈ labelIds.foldl (putLabel labels account threadKey) table := by
  induction labelIds with
  | nil =>
    intro table h
    exact h
  | cons label labelIds ih =>
    intro table h
    exact ih (mem_putLabel h)

theorem foldl_putLabel_mem {labelIds : List Str} {label : Str} (hlabel : label ∈ labels) :
    ∀ {table : List (Str × Str × Str)}, label ∈ labelIds →
      (account, threadKey, label) ∈ labelIds.foldl (putLabel labels account threadKey) table := by
  induction labelIds with
  | nil =>
    intro table h
    cases h
  | cons first labelIds ih =>
    intro table h
    rcases mem_cons.mp h with rfl | h
    · rw [foldl_cons]
      exact mem_foldl_putLabel (putLabel_mem hlabel)
    · exact ih h

/-! ## Each puts its mark -/

/-! ## What the others leave -/

theorem Carries.setThreadLabels {labelIds : List Str} (h : Carries s account key mark)
    (hleft : ∀ label, mark = .label label → owner = account → threadKey = key → label ∈ labelIds) :
    Carries (setThreadLabels s owner threadKey labelIds) account key mark := by
  cases mark with
  | label id =>
    refine ⟨?_, h.2⟩
    by_cases hsame : owner = account ∧ threadKey = key
    · obtain ⟨rfl, rfl⟩ := hsame
      exact foldl_putLabel_mem h.2 (hleft id rfl rfl rfl)
    · refine mem_foldl_putLabel (mem_filter.mpr ⟨h.1, decide_eq_true fun hc => hsame ?_⟩)
      exact ⟨hc.1.symm, hc.2.symm⟩
  | snooze => exact h
  | task id => exact h

theorem Carries.addThreadLabel {label : Str} (h : Carries s account key mark) :
    Carries (addThreadLabel s owner threadKey label) account key mark := by
  cases mark with
  | label id => exact ⟨mem_putLabel h.1, h.2⟩
  | snooze => exact h
  | task id => exact h

theorem Carries.snoozeThread {until_ : Int} (h : Carries s account key mark) :
    Carries (snoozeThread s owner threadKey folder until_) account key mark := by
  cases mark with
  | label id => exact h
  | snooze =>
    obtain ⟨z, hz, hacc, hkey⟩ := h
    by_cases hsame : z.account = owner ∧ z.threadKey = threadKey
    · refine ⟨_, mem_append_right _ mem_cons_self, ?_, ?_⟩
      · exact hsame.1.symm.trans hacc
      · exact hsame.2.symm.trans hkey
    · exact ⟨z, mem_append_left _ (mem_filter.mpr ⟨hz, decide_eq_true hsame⟩), hacc, hkey⟩
  | task id => exact h

theorem Carries.saveTask {dueAt : Option Int} {note : Str} {now : Int} (h : Carries s account key mark) :
    Carries (saveTask s owner threadKey folder dueAt note now).1 account key mark := by
  unfold Threads.saveTask
  dsimp only
  split
  · cases mark with
    | label id => exact h
    | snooze => exact h
    | task id =>
      obtain ⟨t, ht, hid, hon⟩ := h
      -- an edit leaves the task its id, its conversation and its being open
      refine ⟨_, mem_map.mpr ⟨t, ht, rfl⟩, ?_, ?_⟩
      · split <;> exact hid
      · split <;> exact hon
  · cases mark with
    | label id => exact h
    | snooze => exact h
    | task id =>
      obtain ⟨t, ht, hid, hon⟩ := h
      exact ⟨t, mem_append_left _ ht, hid, hon⟩

end Marks

/-! ## An upsert, statement by statement -/

/-- One statement of an upsert: a message is written, or an id handed down. -/
inductive Statement where
  | write (folder : Str) (m : MessageHeader)
  | hand (parent : Str)
  deriving DecidableEq, Repr

variable (lowercase : Str → Str)

def Statement.run (account : Str) (rows : List MessageRow) : Statement → List MessageRow
  | .write folder m => Threads.write lowercase account folder rows m
  | .hand parent => Threads.hand account rows parent

def statements (account : Str) (rows : List MessageRow) (batch : Batch lowercase) : List Statement :=
  batch.messages.map (.write batch.folder) ++
    (reconciled account (batch.messages.foldl (write lowercase account batch.folder) rows) batch.order).map .hand

theorem upsert_statements (account : Str) (rows : List MessageRow) (batch : Batch lowercase) :
    upsertMessages lowercase account rows batch =
      (statements lowercase account rows batch).foldl (Statement.run lowercase account) rows := by
  unfold upsertMessages statements
  rw [reconcile_eq, foldl_append, List.foldl_map, List.foldl_map]
  rfl

/-- The statement takes no message of a marked conversation to another key: one written again resolves
to the key it has, and an id is not handed down to those under it. -/
def Statement.Keeps (marked : Str → Bool) (account : Str) (rows : List MessageRow) : Statement → Prop
  | .write folder m => ∀ row ∈ rows, row.isAt account folder m.uid = true → marked row.conversation = true →
      (row.overwrite m (resolveMessageThreadKey lowercase rows account m.threadKey)).conversation =
        row.conversation
  | .hand parent => ∀ row ∈ rows, marked row.conversation = true →
      ∀ canonical ∈ cachedThreadKeyOf rows account parent, isChild account parent canonical row = false

instance (marked : Str → Bool) (account : Str) (rows : List MessageRow) (st : Statement) :
    Decidable (st.Keeps lowercase marked account rows) := by
  cases st with
  | write folder m =>
    unfold Statement.Keeps
    infer_instance
  | hand parent =>
    unfold Statement.Keeps
    have (row : MessageRow) :
        Decidable (∀ canonical ∈ cachedThreadKeyOf rows account parent, isChild account parent canonical row = false) :=
      decidable_of_iff ((cachedThreadKeyOf rows account parent).all
          (fun canonical => !isChild account parent canonical row) = true)
        (by cases cachedThreadKeyOf rows account parent <;> simp)
    infer_instance

/-! ## Runs -/

inductive Action where
  | upsertMessages (account : Str) (batch : Batch lowercase)
  | setThreadLabels (account threadKey : Str) (labelIds : List Str)
  | addThreadLabel (account threadKey labelId : Str)
  | snoozeThread (account threadKey folder : Str) (until_ : Int)
  | saveTask (account threadKey folder : Str) (dueAt : Option Int) (note : Str) (now : Int)

def step (s : Store) : Action lowercase → Option Store
  | .upsertMessages account batch =>
    some { s with messages := Threads.upsertMessages lowercase account s.messages batch }
  | .setThreadLabels account threadKey labelIds => some (Threads.setThreadLabels s account threadKey labelIds)
  | .addThreadLabel account threadKey labelId => some (Threads.addThreadLabel s account threadKey labelId)
  | .snoozeThread account threadKey folder until_ => some (Threads.snoozeThread s account threadKey folder until_)
  | .saveTask account threadKey folder dueAt note now =>
    some (Threads.saveTask s account threadKey folder dueAt note now).1

/-- Every statement of an upsert keeps what is marked where it is. -/
def KeepsMarked (s : Store) : Action lowercase → Prop
  | .upsertMessages account batch =>
    AllSteps (fun rows (st : Statement) => some (st.run lowercase account rows))
      (fun rows st => st.Keeps lowercase (isMarked s account) account rows) s.messages
      (statements lowercase account s.messages batch)
  | _ => True

instance (s : Store) (a : Action lowercase) : Decidable (KeepsMarked lowercase s a) := by
  cases a <;> unfold KeepsMarked <;> infer_instance

/-- The reader does not take the mark off the message's conversation. -/
def NotRemoved (account folder : Str) (uid : Nat) (mark : Mark) (s : Store) : Action lowercase → Prop
  | .setThreadLabels owner threadKey labelIds => ∀ row ∈ s.messages, row.isAt account folder uid = true →
      owner = account → threadKey = row.conversation → ∀ label ∈ s.labels, mark = .label label → label ∈ labelIds
  | _ => True

instance (account folder : Str) (uid : Nat) (mark : Mark) (s : Store) (a : Action lowercase) :
    Decidable (NotRemoved lowercase account folder uid mark s a) := by
  cases a <;> unfold NotRemoved <;> infer_instance

/-- The message at the place is cached, and its conversation carries the mark. -/
def On (account folder : Str) (uid : Nat) (mark : Mark) (s : Store) : Prop :=
  Present s.messages account folder uid ∧
    ∀ row ∈ s.messages, row.isAt account folder uid = true → Carries s account row.conversation mark

instance (account folder : Str) (uid : Nat) (mark : Mark) (s : Store) :
    Decidable (On account folder uid mark s) := by
  unfold On Present
  infer_instance

section Stay

variable {lowercase} {s : Store} {account folder owner : Str} {uid : Nat} {mark : Mark}

/-- What a statement keeps of a message and its mark; the tables of marks are not touched. -/
theorem Statement.on {messages : List MessageRow} {st : Statement} (h : On account folder uid mark { s with messages })
    (hkeeps : st.Keeps lowercase (isMarked s owner) owner messages) :
    On account folder uid mark { s with messages := st.run lowercase owner messages } := by
  obtain ⟨hpresent, hcarries⟩ := h
  have hmarked : ∀ row ∈ messages, row.isAt account folder uid = true → row.account = owner →
      isMarked s owner row.conversation = true := by
    intro row hrow hat hacc
    have := isMarked_of_carries (hcarries row hrow hat)
    rw [← hacc, (of_isAt hat).1]
    exact this
  cases st with
  | write folder' m =>
    refine ⟨hpresent.write, fun row hrow hat => ?_⟩
    rcases mem_write.mp hrow with ⟨hrow, -⟩ | ⟨old, hold, hatOld, rfl⟩ | ⟨hnone, rfl⟩
    · exact hcarries row hrow hat
    · have hconversation := hkeeps old hold hatOld (hmarked old hold hat (of_isAt hatOld).1)
      rw [hconversation]
      exact hcarries old hold hat
    · -- a new row is at no place where there was one
      obtain ⟨there, hthere, hatThere⟩ := hpresent
      obtain ⟨hacc, hfolder, huid⟩ := of_isAt hat
      have := hnone there hthere
      dsimp only at hacc hfolder huid
      rw [hacc, hfolder, huid, hatThere] at this
      cases this
  | hand parent =>
    refine ⟨hpresent.hand, fun row hrow hat => ?_⟩
    obtain ⟨old, hold, rfl⟩ := mem_hand.mp hrow
    have hatOld : old.isAt account folder uid = true :=
      (handed_isAt owner messages parent old account folder uid).symm.trans hat
    have hsame : (handed owner messages parent old).conversation = old.conversation := by
      unfold handed
      split
      · rfl
      · rename_i canonical hcached
        split
        · rename_i hchild
          have hacc : old.account = owner := by
            unfold isChild at hchild
            exact (of_decide_eq_true hchild).1
          rw [hkeeps old hold (hmarked old hold hatOld hacc) canonical hcached] at hchild
          cases hchild
        · rfl
    rw [hsame]
    exact hcarries old hold hatOld

/-- **One step**: what is on a conversation stays on its message. -/
theorem step_on {a : Action lowercase} {t : Store} (h : On account folder uid mark s)
    (hkeeps : KeepsMarked lowercase s a) (hleft : NotRemoved lowercase account folder uid mark s a)
    (hs : step lowercase s a = some t) : On account folder uid mark t := by
  obtain ⟨hpresent, hcarries⟩ := h
  cases a with
  | upsertMessages owner batch =>
    cases hs
    rw [upsert_statements]
    have hrun : ∀ {sts : List Statement} {rows : List MessageRow},
        run (fun rows (st : Statement) => some (st.run lowercase owner rows)) rows sts =
          some (sts.foldl (Statement.run lowercase owner) rows) := by
      intro sts
      induction sts with
      | nil =>
        intro rows
        rfl
      | cons st sts ih =>
        intro rows
        exact ih
    have hstep : ∀ rows (st : Statement) rows', On account folder uid mark { s with messages := rows } →
        st.Keeps lowercase (isMarked s owner) owner rows →
        some (st.run lowercase owner rows) = some rows' →
        On account folder uid mark { s with messages := rows' } := by
      intro rows st rows' hon hk he
      cases he
      exact st.on hon hk
    exact run_invariant hstep ⟨hpresent, hcarries⟩ hkeeps hrun
  | setThreadLabels owner threadKey labelIds =>
    cases hs
    refine ⟨hpresent, fun row hrow hat => ?_⟩
    refine (hcarries row hrow hat).setThreadLabels fun label hmark hacc hkey => ?_
    have hlabel : label ∈ s.labels := by
      have := hcarries row hrow hat
      rw [hmark] at this
      exact this.2
    exact hleft row hrow hat hacc hkey label hlabel hmark
  | addThreadLabel owner threadKey labelId =>
    cases hs
    exact ⟨hpresent, fun row hrow hat => (hcarries row hrow hat).addThreadLabel⟩
  | snoozeThread owner threadKey place until_ =>
    cases hs
    exact ⟨hpresent, fun row hrow hat => (hcarries row hrow hat).snoozeThread⟩
  | saveTask owner threadKey place dueAt note now =>
    cases hs
    have hmessages : (Threads.saveTask s owner threadKey place dueAt note now).1.messages = s.messages := by
      unfold Threads.saveTask
      dsimp only
      split <;> rfl
    unfold On
    rw [hmessages]
    exact ⟨hpresent, fun row hrow hat => (hcarries row hrow hat).saveTask⟩

/-- **What the reader put on a conversation stays on it**, in every run whose upserts keep the messages
of marked conversations where they are. -/
theorem marks_stay {t : Store} {actions : List (Action lowercase)} (h : On account folder uid mark s)
    (hkeeps : AllSteps (step lowercase) (KeepsMarked lowercase) s actions)
    (hleft : AllSteps (step lowercase) (NotRemoved lowercase account folder uid mark) s actions)
    (hrun : run (step lowercase) s actions = some t) : On account folder uid mark t := by
  have hboth : AllSteps (step lowercase)
      (fun s a => KeepsMarked lowercase s a ∧ NotRemoved lowercase account folder uid mark s a) s actions := by
    clear h hrun
    induction actions generalizing s with
    | nil => exact trivial
    | cons a actions ih => exact ⟨⟨hkeeps.1, hleft.1⟩, fun u hu => ih (hkeeps.2 u hu) (hleft.2 u hu)⟩
  exact run_invariant (fun _ _ _ hi hok hs => step_on hi hok.1 hok.2 hs) h hboth hrun

end Stay

/-! ## A label lost to an older message -/

namespace Sample

/-- A reply in the inbox, cached under the id it names. -/
def replied : Store :=
  { messages := [⟨['m'], ['i'], 2, 200, some ['b'], ['c']⟩], labels := [['l']], threadLabels := []
    snoozed := [], tasks := [], nextTask := 1 }

def label : Action asciiLower := .addThreadLabel ['m'] ['b'] ['l']

def labelled : Store := { replied with threadLabels := [(['m'], ['b'], ['l'])] }

/-- The message the reply names is synced, as the root of its thread. -/
def root : Action asciiLower :=
  .upsertMessages ['m'] ⟨['i'], [⟨1, 100, ['b'], ['b']⟩], [['b']], by decide +kernel⟩

def rooted : Store :=
  { labelled with messages := [⟨['m'], ['i'], 2, 200, some ['b'], ['c']⟩, ⟨['m'], ['i'], 1, 100, some ['b'], ['b']⟩] }

/-- The same, but it names an older message in its turn. -/
def older : Action asciiLower :=
  .upsertMessages ['m'] ⟨['i'], [⟨1, 100, ['a'], ['b']⟩], [['b']], by decide +kernel⟩

def moved : Store :=
  { labelled with messages := [⟨['m'], ['i'], 2, 200, some ['a'], ['c']⟩, ⟨['m'], ['i'], 1, 100, some ['a'], ['b']⟩] }

end Sample

open Sample in
theorem label_kept : On ['m'] ['i'] 2 (.label ['l']) rooted := by
  have hput : On ['m'] ['i'] 2 (.label ['l']) labelled := by decide +kernel
  have hkeeps : AllSteps (step asciiLower) (KeepsMarked asciiLower) labelled [root] := by
    decide +kernel
  have hleft : AllSteps (step asciiLower) (NotRemoved asciiLower ['m'] ['i'] 2 (.label ['l'])) labelled [root] := by
    decide +kernel
  have hrun : run (step asciiLower) labelled [root] = some rooted := by decide +kernel
  exact marks_stay hput hkeeps hleft hrun

open Sample in
/-- The reader labels the reply's conversation; when the message it names is synced, the reply is in
another conversation, without the label, which nobody took off. -/
theorem label_lost : run (step asciiLower) replied [label] = some labelled ∧ On ['m'] ['i'] 2 (.label ['l']) labelled ∧
    run (step asciiLower) labelled [older] = some moved ∧
    AllSteps (step asciiLower) (NotRemoved asciiLower ['m'] ['i'] 2 (.label ['l'])) labelled [older] ∧
    Present moved.messages ['m'] ['i'] 2 ∧ ¬ On ['m'] ['i'] 2 (.label ['l']) moved := by
  decide +kernel

end Oreneta.Threads

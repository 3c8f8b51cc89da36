import Oreneta.FolderMove.Substitution

/-!
# The local step of a folder move

The server has renamed the folders when `reconcile_folder_move` brings the cache in line.

* `renameAll_iff` — the loop over the renames, table by table;
* `Substituted` — what a move is for: everything of the account that names the source or a folder under
  it names it with the target in the source's place, and nothing else changes its name;
* `move_substitutes_iff` — it does that exactly when the new names are `Free` and no one names a
  subfolder that is not in the folder list;
* `child_collides` — the plan looks up the target and none of the names under it.
-/

namespace Oreneta.FolderMove

open Renames List

/-! ## The local step, part by part -/

/-- One rename in the tables of [`FOLDER_REFERENCES`]. -/
theorem foldlM_update_iff {p : (Str × Str) × (Str × Str)} {tables : List RefTable}
    (hnodup : tables.Nodup) (refs refs' : RefTable → UniqueRows refNaming) :
    tables.foldlM (fun refs table => ((refs table).move refWriting p).map (Function.update refs table)) refs = some refs' ↔
      (∀ t ∈ tables, (refs t).move refWriting p = some (refs' t)) ∧ ∀ t, t ∉ tables → refs' t = refs t := by
  induction tables generalizing refs with
  | nil =>
    constructor
    · intro h
      cases h
      exact ⟨fun t ht => absurd ht not_mem_nil, fun _ _ => rfl⟩
    · rintro ⟨-, h⟩
      exact congrArg some (funext fun t => (h t not_mem_nil).symm)
  | cons table tables ih =>
    obtain ⟨hnot, hnodup⟩ := nodup_cons.mp hnodup
    rw [foldlM_cons]
    cases hmove : (refs table).move refWriting p with
    | none =>
      constructor
      · intro h
        cases h
      · rintro ⟨h, -⟩
        have hself := h table (mem_cons_self ..)
        rw [hmove] at hself
        cases hself
    | some rows =>
      show tables.foldlM _ (Function.update refs table rows) = some refs' ↔ _
      rw [ih hnodup]
      have hother : ∀ {t}, t ≠ table → Function.update refs table rows t = refs t :=
        fun ht => Function.update_of_ne ht _ _
      constructor
      · rintro ⟨hin, hout⟩
        have htable : refs' table = rows := by
          rw [hout table hnot, Function.update_self]
        refine ⟨fun t ht => ?_, fun t ht => ?_⟩
        · rcases mem_cons.mp ht with rfl | ht
          · rw [hmove, htable]
          · rw [← hother (ne_of_mem_of_not_mem ht hnot)]
            exact hin t ht
        · rw [mem_cons, not_or] at ht
          rw [hout t ht.2, hother ht.1]
      · rintro ⟨hin, hout⟩
        refine ⟨fun t ht => ?_, fun t ht => ?_⟩
        · rw [hother (ne_of_mem_of_not_mem ht hnot)]
          exact hin t (mem_cons_of_mem _ ht)
        · by_cases heq : t = table
          · have hself := hin table (mem_cons_self ..)
            rw [hmove] at hself
            rw [heq, Function.update_self]
            exact (Option.some.inj hself).symm
          · rw [hother heq]
            exact hout t fun h => (mem_cons.mp h).elim heq ht

theorem mem_FOLDER_REFERENCES (t : RefTable) : t ∈ FOLDER_REFERENCES := by
  cases t <;> decide

theorem renameRefs_iff {p : (Str × Str) × (Str × Str)} {refs refs' : RefTable → UniqueRows refNaming} :
    renameRefs refs p = some refs' ↔ ∀ t, (refs t).move refWriting p = some (refs' t) := by
  unfold renameRefs
  rw [foldlM_update_iff (by decide)]
  constructor
  · intro h t
    exact h.1 t (mem_FOLDER_REFERENCES t)
  · intro h
    exact ⟨fun t _ => h t, fun t ht => absurd (mem_FOLDER_REFERENCES t) ht⟩

/-- The renames of an account's folders. -/
def ofAccount (account : Str) (renames : List (Str × Str)) : List ((Str × Str) × (Str × Str)) :=
  renames.map (fun p => ((account, p.1), (account, p.2)))

section Steps

variable {fingerprint : Str → Policy → Str} {account delimiter : Str}

theorem renameReferences_iff {s s' : Store} {p : Str × Str} : renameReferences fingerprint account delimiter s p = some s' ↔
      s.folders.move (folderWriting delimiter) ((account, p.1), (account, p.2)) = some s'.folders ∧
      (∀ t, (s.refs t).move refWriting ((account, p.1), (account, p.2)) = some (s'.refs t)) ∧
      s'.hits = s.hits.filter (fun h => ¬ (h.account = account ∧ h.folder = p.1)) ∧
      s'.rules = s.rules.map (renameRule account p.1 p.2) ∧
      s'.policies = s.policies.map (renamePolicy fingerprint account p.1 p.2) := by
  unfold renameReferences
  dsimp only
  constructor
  · intro h
    split at h
    · cases h
    rename_i folders hfolders
    split at h
    · cases h
    rename_i refs hrefs
    cases h
    exact ⟨hfolders, renameRefs_iff.mp hrefs, rfl, rfl, rfl⟩
  · rintro ⟨hfolders, hrefs, hhits, hrules, hpolicies⟩
    rw [hfolders, renameRefs_iff.mpr hrefs]
    dsimp only
    rw [← hhits, ← hrules, ← hpolicies]

/-- **The loop over the renames, part by part.** -/
theorem renameAll_iff : ∀ {renames : List (Str × Str)} {s s' : Store},
    renames.foldlM (renameReferences fingerprint account delimiter) s = some s' ↔
      (ofAccount account renames).foldlM (UniqueRows.move (folderWriting delimiter)) s.folders =
        some s'.folders ∧
      (∀ t, (ofAccount account renames).foldlM (UniqueRows.move refWriting) (s.refs t) =
        some (s'.refs t)) ∧
      s'.hits = renames.foldl (fun hits p => hits.filter (fun h => ¬ (h.account = account ∧ h.folder = p.1))) s.hits ∧
      s'.rules = renames.foldl (fun rules p => rules.map (renameRule account p.1 p.2)) s.rules ∧
      s'.policies = renames.foldl (fun rows p => rows.map (renamePolicy fingerprint account p.1 p.2)) s.policies
  | [], s, s' => by
    constructor
    · intro h
      cases h
      exact ⟨rfl, fun _ => rfl, rfl, rfl, rfl⟩
    · rintro ⟨hfolders, hrefs, hhits, hrules, hpolicies⟩
      cases s
      cases s'
      dsimp only at hhits hrules hpolicies
      cases hfolders
      subst hhits hrules hpolicies
      have : ∀ t, _ = _ := fun t => Option.some.inj (hrefs t)
      cases funext this
      rfl
  | p :: renames, s, s' => by
    rw [foldlM_cons]
    constructor
    · intro h
      obtain ⟨mid, hstep, hrest⟩ := Option.bind_eq_some_iff.mp h
      obtain ⟨hfolders, hrefs, hhits, hrules, hpolicies⟩ := renameReferences_iff.mp hstep
      obtain ⟨hfolders', hrefs', hhits', hrules', hpolicies'⟩ := renameAll_iff.mp hrest
      refine ⟨?_, fun t => ?_, ?_, ?_, ?_⟩
      · exact Option.bind_eq_some_iff.mpr ⟨_, hfolders, hfolders'⟩
      · exact Option.bind_eq_some_iff.mpr ⟨_, hrefs t, hrefs' t⟩
      · rw [hhits', hhits, foldl_cons]
      · rw [hrules', hrules, foldl_cons]
      · rw [hpolicies', hpolicies, foldl_cons]
    · rintro ⟨hfolders, hrefs, hhits, hrules, hpolicies⟩
      obtain ⟨folders, hfolder, hfolders⟩ := Option.bind_eq_some_iff.mp hfolders
      have hex : ∀ t, ∃ rows, (s.refs t).move refWriting ((account, p.1), (account, p.2)) = some rows ∧
          (ofAccount account renames).foldlM (UniqueRows.move refWriting) rows = some (s'.refs t) :=
        fun t => Option.bind_eq_some_iff.mp (hrefs t)
      choose refs href hrefs using hex
      refine Option.bind_eq_some_iff.mpr ⟨⟨folders, refs, _, _, _⟩, renameReferences_iff.mpr
        ⟨hfolder, href, rfl, rfl, rfl⟩, renameAll_iff.mpr ⟨hfolders, hrefs, hhits, hrules, hpolicies⟩⟩

/-- The name of a folder of the account, when its row is one that moves. -/
theorem mem_ofAccount {s : Store} {plan : FolderMovePlan} (hp : Planned s account plan)
    {x : Str × Str} : (∃ p ∈ ofAccount account plan.renames, x = p.1) ↔
      x.1 = account ∧ folderExists s account x.2 = true ∧ Under plan x.2 := by
  rw [← hp.mem_renames]
  unfold ofAccount
  constructor
  · rintro ⟨q, hmem, rfl⟩
    obtain ⟨p, hp, rfl⟩ := mem_map.mp hmem
    exact ⟨rfl, p, hp, rfl⟩
  · rintro ⟨haccount, p, hmem, hname⟩
    exact ⟨_, mem_map_of_mem hmem, Prod.ext haccount hname⟩

theorem clear_ofAccount {renames : List (Str × Str)} (account : Str) (h : Clear renames) : Clear (ofAccount account renames) := by
  unfold Clear ofAccount
  rw [pairwise_map]
  exact h.imp fun hne heq => hne (Prod.ext_iff.mp heq).2

/-- The step after the renames changes no name. -/
theorem reconcile_some {s mid : Store} {plan : FolderMovePlan} (parent : Option Str)
    (h : plan.renames.foldlM (renameReferences fingerprint account plan.delimiter) s = some mid) :
    ∃ s', reconcileFolderMove fingerprint s account plan parent = some s' ∧
      s'.folders.rows.map folderNaming.get = mid.folders.rows.map folderNaming.get ∧
      s'.refs = mid.refs ∧ s'.rules = mid.rules ∧ s'.policies = mid.policies := by
  unfold reconcileFolderMove
  rw [h]
  refine ⟨_, rfl, ?_⟩
  dsimp only
  cases (parent.map Text.trim).filter (fun p => p ≠ []) with
  | none => exact ⟨rfl, rfl, rfl, rfl⟩
  | some p =>
    refine ⟨?_, rfl, rfl, rfl⟩
    dsimp only
    rw [map_map]
    exact map_congr_left fun r _ => learnDelimiter_get

end Steps

/-! ## Rules and policies -/

/-- What a move makes of a rule's action. -/
def substAction (plan : FolderMovePlan) (action : RuleAction) : RuleAction :=
  if action.type_ = some "moveTo".toList then
    { action with folder := action.folder.map (substName plan) }
  else action

def substRule (plan : FolderMovePlan) (account : Str) (rule : Rule) : Rule :=
  if rule.account = account then
    { rule with actions := rule.actions.map (List.map (substAction plan)) }
  else rule

/-- What a move makes of the folders a policy names. -/
def substPolicy (plan : FolderMovePlan) (policy : Policy) : Policy :=
  { policy with
    folders := policy.folders.map (fun choice => { choice with name := substName plan choice.name }) }

theorem renameAction_eq {p : Str × Str} {action : RuleAction} : renameAction p.1 p.2 action =
      if action.type_ = some "moveTo".toList then
        { action with folder := action.folder.map (fun x => rename x p) }
      else action := by
  obtain ⟨type_, folder, rest⟩ := action
  unfold renameAction
  dsimp only
  by_cases htype : type_ = some "moveTo".toList
  · rw [if_pos htype]
    cases folder with
    | none =>
      rw [if_neg fun h => nomatch h.2]
      rfl
    | some x =>
      rw [Option.map_some]
      unfold rename
      by_cases hx : x = p.1
      · rw [if_pos ⟨htype, congrArg some hx⟩, if_pos hx]
      · rw [if_neg fun h => hx (Option.some.inj h.2), if_neg hx]
  · rw [if_neg htype, if_neg fun h => htype h.1]

theorem foldl_renameAction : ∀ {renames : List (Str × Str)} {action : RuleAction},
    renames.foldl (fun action p => renameAction p.1 p.2 action) action =
      if action.type_ = some "moveTo".toList then
        { action with folder := action.folder.map (renames.foldl rename) }
      else action
  | [], action => by
    obtain ⟨type_, folder, rest⟩ := action
    have : [].foldl (rename (α := Str)) = id := rfl
    rw [this, Option.map_id]
    exact (ite_self _).symm
  | p :: renames, action => by
    rw [foldl_cons, foldl_renameAction, renameAction_eq]
    by_cases htype : action.type_ = some "moveTo".toList
    · rw [if_pos htype, if_pos htype, if_pos htype, Option.map_map]
      rfl
    · rw [if_neg htype, if_neg htype, if_neg htype]

theorem foldl_renameRule {account : Str} : ∀ {renames : List (Str × Str)} {rule : Rule},
    renames.foldl (fun rule p => renameRule account p.1 p.2 rule) rule =
      if rule.account = account then
        { rule with actions := rule.actions.map (List.map
          (fun action => renames.foldl (fun action p => renameAction p.1 p.2 action) action)) }
      else rule
  | [], rule => by simp
  | p :: renames, rule => by
    rw [foldl_cons, foldl_renameRule]
    unfold renameRule
    by_cases haccount : rule.account = account
    · simp [haccount, Function.comp_def]
    · simp [haccount]

/-- One rename of the folders a policy names. -/
theorem renamePolicy_policy (fingerprint : Str → Policy → Str) (account : Str) (p : Str × Str)
    (row : PolicyRow) : (renamePolicy fingerprint account p.1 p.2 row).account = row.account ∧
      (renamePolicy fingerprint account p.1 p.2 row).policy =
        if row.account = account then
          row.policy.map (fun policy => { policy with
            folders := policy.folders.map (fun choice => { choice with name := rename choice.name p }) })
        else row.policy := by
  have hchoice : renameChoice p.1 p.2 = fun choice => { choice with name := rename choice.name p } := by
    funext choice
    unfold renameChoice rename
    split <;> simp_all
  unfold renamePolicy
  by_cases haccount : row.account = account
  · rw [if_pos haccount, if_pos haccount]
    cases hpolicy : row.policy with
    | none => exact ⟨rfl, hpolicy⟩
    | some policy =>
      dsimp only
      split
      · refine ⟨rfl, ?_⟩
        rw [hchoice]
        rfl
      · rename_i hany
        refine ⟨rfl, ?_⟩
        have hid : policy.folders.map (renameChoice p.1 p.2) = policy.folders := by
          have hkeep : ∀ choice ∈ policy.folders, renameChoice p.1 p.2 choice = id choice := by
            intro choice hmem
            unfold renameChoice
            exact if_neg fun h => hany (any_eq_true.mpr ⟨choice, hmem, decide_eq_true h⟩)
          rw [map_congr_left hkeep, map_id]
        rw [hpolicy, ← hchoice, Option.map_some, hid]
  · rw [if_neg haccount, if_neg haccount]
    exact ⟨rfl, rfl⟩

/-- What a policy says, as far as a move may change it. -/
def PolicyRow.content (row : PolicyRow) : Str × Option Policy := (row.account, row.policy)

theorem foldl_renamePolicy {fingerprint : Str → Policy → Str} {account : Str} : ∀ {renames : List (Str × Str)} {row : PolicyRow},
    (renames.foldl (fun row p => renamePolicy fingerprint account p.1 p.2 row) row).content =
      (row.account, if row.account = account then
        row.policy.map (fun policy => { policy with
          folders := policy.folders.map (fun choice =>
            { choice with name := renames.foldl rename choice.name }) })
        else row.policy)
  | [], row => by
    cases hpolicy : row.policy <;> simp [PolicyRow.content, hpolicy]
  | p :: renames, row => by
    obtain ⟨haccount, hpolicy⟩ := renamePolicy_policy fingerprint account p row
    rw [foldl_cons, foldl_renamePolicy, haccount, hpolicy]
    by_cases hown : row.account = account
    · simp only [if_pos hown, Option.map_map]
      congr 2
      funext policy
      simp [Function.comp_def]
    · simp only [if_neg hown]

/-! ## The move as a whole -/

/-- What a move is for. -/
structure Substituted (account : Str) (plan : FolderMovePlan) (s s' : Store) : Prop where
  folders : s'.folders.rows.map folderNaming.get =
    s.folders.rows.map (fun r => substFolder plan account (folderNaming.get r))
  distinct : (s'.folders.rows.map folderNaming.get).Nodup
  refs : ∀ table, (s'.refs table).rows = (s.refs table).rows.map
    (fun r => refWriting.put r (substFolder plan account (refNaming.get r)))
  rules : s'.rules = s.rules.map (substRule plan account)
  policies : s'.policies.map PolicyRow.content = s.policies.map (fun row =>
    (row.account, if row.account = account then row.policy.map (substPolicy plan) else row.policy))

/-- No folder and no keyed row stands where a moved one is going, and whoever names a folder under the
source names a cached one. -/
structure Free (s : Store) (account : Str) (plan : FolderMovePlan) : Prop where
  folders : ∀ r ∈ s.folders.rows, ∀ q ∈ s.folders.rows, r.account = account → Under plan r.name →
    q.account = account → ¬ Under plan q.name → q.name ≠ substName plan r.name
  rows : ∀ table, ∀ r ∈ (s.refs table).rows, ∀ q ∈ (s.refs table).rows,
    r.account = account → Under plan r.folder → q.account = account → ¬ Under plan q.folder →
      q.folder = substName plan r.folder → sameKeys r.keys q.keys = false
  refs : ∀ table, ∀ r ∈ (s.refs table).rows, r.account = account → Under plan r.folder →
    folderExists s account r.folder = true
  rules : ∀ rule ∈ s.rules, rule.account = account → ∀ actions ∈ rule.actions, ∀ action ∈ actions,
    action.type_ = some "moveTo".toList → ∀ x ∈ action.folder, Under plan x →
      folderExists s account x = true
  policies : ∀ row ∈ s.policies, row.account = account → ∀ policy ∈ row.policy,
    ∀ choice ∈ policy.folders, Under plan choice.name → folderExists s account choice.name = true

section Move

variable {s : Store} {account : Str} {plan : FolderMovePlan}

theorem Planned.substName_ne (hp : Planned s account plan) {x : Str} (hx : Under plan x) : substName plan x ≠ x := by
  intro heq
  unfold substName at heq
  rw [if_pos hx] at heq
  obtain ⟨a, ha⟩ := hx.source_prefix
  rw [← ha, drop_left] at heq
  exact hp.moved (append_cancel_right heq)

/-- Where the renames, all at once, are the substitution. -/
theorem Planned.together_iff (hp : Planned s account plan) {x : Str} :
    together plan.renames x = substName plan x ↔ (Under plan x → folderExists s account x = true) := by
  by_cases hx : Under plan x
  · constructor
    · intro h _
      by_contra hcached
      have hno : ∀ p ∈ plan.renames, x ≠ p.1 :=
        fun p hmem heq => hcached (hp.mem_renames.mp ⟨p, hmem, heq⟩).1
      rw [together_of_notMem hno] at h
      exact hp.substName_ne hx h.symm
    · intro h
      exact together_of_mem hp.renames_eq (hp.mem_renames.mpr ⟨h hx, hx⟩)
  · have hno : ∀ p ∈ plan.renames, x ≠ p.1 := fun p hmem heq => hx (heq ▸ hp.under hmem)
    rw [together_of_notMem hno, substName, if_neg hx]
    exact ⟨fun _ h => absurd h hx, fun _ => rfl⟩

theorem Planned.ofAccount_eq (hp : Planned s account plan) :
    ∀ p ∈ ofAccount account plan.renames, p.2 = substFolder plan account p.1 := by
  intro q hq
  obtain ⟨p, hmem, rfl⟩ := mem_map.mp hq
  show (account, p.2) = (account, if account = account then substName plan p.1 else p.1)
  rw [if_pos rfl, hp.renames_eq p hmem]

theorem Planned.ofAccount_inj (hp : Planned s account plan) :
    ∀ p ∈ ofAccount account plan.renames, ∀ q ∈ ofAccount account plan.renames,
      substFolder plan account p.1 = substFolder plan account q.1 → p.1 = q.1 := by
  intro p hpmem q hqmem heq
  obtain ⟨hpa, -, hpu⟩ := (mem_ofAccount hp).mp ⟨p, hpmem, rfl⟩
  obtain ⟨hqa, -, hqu⟩ := (mem_ofAccount hp).mp ⟨q, hqmem, rfl⟩
  have hname : substName plan p.1.2 = substName plan q.1.2 := by
    have := (Prod.ext_iff.mp heq).2
    simpa only [substFolder, if_pos hpa, if_pos hqa] using this
  exact Prod.ext (hpa.trans hqa.symm) (substName_inj hpu hqu hname)

theorem together_ofAccount : ∀ {renames : List (Str × Str)} {x : Str × Str}, together (ofAccount account renames) x =
      (x.1, if x.1 = account then together renames x.2 else x.2)
  | [], x => by
    show x = (x.1, if x.1 = account then x.2 else x.2)
    rw [ite_self]
  | p :: renames, x => by
    obtain ⟨a, x⟩ := x
    show together (((account, p.1), (account, p.2)) :: ofAccount account renames) (a, x) = _
    rw [together_cons, together_cons, together_ofAccount]
    by_cases ha : a = account
    · by_cases hx : x = p.1
      · simp [ha, hx]
      · simp [ha, hx]
    · simp [ha]

/-- Where the renames of the account's folders are the substitution. -/
theorem Planned.together_folder_iff (hp : Planned s account plan) {x : Str × Str} :
    together (ofAccount account plan.renames) x = substFolder plan account x ↔
      (x.1 = account → Under plan x.2 → folderExists s account x.2 = true) := by
  rw [together_ofAccount, substFolder, Prod.mk.injEq, ← hp.together_iff]
  by_cases ha : x.1 = account <;> simp [ha]

/-- Whether a table takes the renames. -/
theorem Planned.folders_unique_iff (hp : Planned s account plan) : (s.folders.rows.map ((folderWriting plan.delimiter).shiftAll
        (ofAccount account plan.renames))).Pairwise (fun r q => ¬ folderNaming.Clash r q) ↔
      ∀ r ∈ s.folders.rows, ∀ q ∈ s.folders.rows, r.account = account → Under plan r.name →
        q.account = account → ¬ Under plan q.name → q.name ≠ substName plan r.name := by
  have hcached : ∀ r ∈ s.folders.rows, r.account = account → folderExists s account r.name = true :=
    fun r hr ha => folderExists_iff.mpr ⟨r, hr, ha, rfl⟩
  rw [UniqueRows.unique_shiftAll hp.ofAccount_eq hp.ofAccount_inj]
  simp only [mem_ofAccount hp]
  constructor
  · intro h r hr q hq hra hru hqa hqu hname
    have := h r hr q hq ⟨hra, hcached r hr hra, hru⟩ (fun hm => hqu hm.2.2)
      (Prod.ext (hqa.trans hra.symm) (by simpa [substFolder, folderNaming, hra] using hname))
    cases this
  · rintro h r hr q hq ⟨hra, -, hru⟩ hqm hname
    obtain ⟨hqa, hqname⟩ := Prod.ext_iff.mp hname
    dsimp only [folderNaming, substFolder] at hra hru hqm hqa hqname
    rw [if_pos hra] at hqname
    have hq' := hqa.trans hra
    exact absurd hqname (h r hr q hq hra hru hq' fun hqu => hqm ⟨hq', hcached q hq hq', hqu⟩)

theorem Planned.refs_unique_iff (hp : Planned s account plan) {table : RefTable}
    (hcached : ∀ r ∈ (s.refs table).rows, r.account = account → Under plan r.folder →
      folderExists s account r.folder = true) :
    ((s.refs table).rows.map (refWriting.shiftAll (ofAccount account plan.renames))).Pairwise
        (fun r q => ¬ refNaming.Clash r q) ↔
      ∀ r ∈ (s.refs table).rows, ∀ q ∈ (s.refs table).rows, r.account = account →
        Under plan r.folder → q.account = account → ¬ Under plan q.folder →
          q.folder = substName plan r.folder → sameKeys r.keys q.keys = false := by
  rw [UniqueRows.unique_shiftAll hp.ofAccount_eq hp.ofAccount_inj]
  simp only [mem_ofAccount hp]
  constructor
  · intro h r hr q hq hra hru hqa hqu hname
    exact h r hr q hq ⟨hra, hcached r hr hra hru, hru⟩ (fun hm => hqu hm.2.2)
      (Prod.ext (hqa.trans hra.symm) (by simpa [substFolder, refNaming, hra] using hname))
  · rintro h r hr q hq ⟨hra, -, hru⟩ hqm hname
    obtain ⟨hqa, hqname⟩ := Prod.ext_iff.mp hname
    dsimp only [refNaming, substFolder] at hra hru hqm hqa hqname
    rw [if_pos hra] at hqname
    have hq' := hqa.trans hra
    exact h r hr q hq hra hru hq' (fun hqu => hqm ⟨hq', hcached q hq hq' hqu, hqu⟩) hqname

/-- The rows of a table, when every row under the source names a cached folder. -/
theorem refs_subst_iff (hp : Planned s account plan) {table : RefTable} :
    (s.refs table).rows.map (refWriting.shiftAll (ofAccount account plan.renames)) =
        (s.refs table).rows.map (fun r => refWriting.put r (substFolder plan account (refNaming.get r))) ↔
      ∀ r ∈ (s.refs table).rows, r.account = account → Under plan r.folder →
        folderExists s account r.folder = true := by
  rw [map_inj_left]
  refine forall₂_congr fun r _ => ?_
  have hput : refWriting.shiftAll (ofAccount account plan.renames) r =
      refWriting.put r (together (ofAccount account plan.renames) (refNaming.get r)) := by
    rw [← Writing.get_shiftAll (W := refWriting)]
    unfold Writing.shiftAll
    split <;> rfl
  rw [hput]
  refine Iff.trans ?_ (hp.together_folder_iff (x := refNaming.get r))
  constructor
  · intro h
    have := congrArg refNaming.get h
    rwa [refWriting.get_put, refWriting.get_put] at this
  · exact congrArg (refWriting.put r)

theorem action_subst_iff (hp : Planned s account plan) (hclear : Clear plan.renames) {action : RuleAction} :
    plan.renames.foldl (fun action p => renameAction p.1 p.2 action) action = substAction plan action ↔
      (action.type_ = some "moveTo".toList → ∀ x ∈ action.folder, Under plan x →
        folderExists s account x = true) := by
  rw [foldl_renameAction]
  unfold substAction
  obtain ⟨type_, folder, rest⟩ := action
  dsimp only
  by_cases htype : type_ = some "moveTo".toList
  · rw [if_pos htype, if_pos htype]
    cases folder with
    | none => exact ⟨fun _ _ x hx => (nomatch hx), fun _ => rfl⟩
    | some x =>
      rw [Option.map_some, Option.map_some, foldl_rename hclear, RuleAction.mk.injEq, Option.some.injEq, hp.together_iff]
      constructor
      · rintro ⟨-, h, -⟩ _ y hy
        cases hy
        exact h
      · intro h
        exact ⟨rfl, h htype x rfl, rfl⟩
  · rw [if_neg htype, if_neg htype]
    exact ⟨fun _ h => absurd h htype, fun _ => rfl⟩

theorem rules_subst_iff (hp : Planned s account plan) (hclear : Clear plan.renames) :
    plan.renames.foldl (fun rules p => rules.map (renameRule account p.1 p.2)) s.rules =
        s.rules.map (substRule plan account) ↔
      ∀ rule ∈ s.rules, rule.account = account → ∀ actions ∈ rule.actions, ∀ action ∈ actions,
        action.type_ = some "moveTo".toList → ∀ x ∈ action.folder, Under plan x →
          folderExists s account x = true := by
  rw [Renames.foldl_map, map_inj_left]
  refine forall₂_congr fun rule _ => ?_
  rw [foldl_renameRule]
  unfold substRule
  by_cases ha : rule.account = account
  · rw [if_pos ha, if_pos ha]
    obtain ⟨id, owner, actions⟩ := rule
    dsimp only at ha ⊢
    cases actions with
    | none => exact ⟨fun _ _ actions hactions => (nomatch hactions), fun _ => rfl⟩
    | some actions =>
      rw [Option.map_some, Option.map_some, Rule.mk.injEq, Option.some.injEq, map_inj_left]
      simp only [action_subst_iff hp hclear]
      constructor
      · rintro ⟨-, -, h⟩ _ as has
        cases has
        exact h
      · intro h
        exact ⟨trivial, trivial, h ha actions rfl⟩
  · rw [if_neg ha, if_neg ha]
    exact ⟨fun _ h => absurd h ha, fun _ => rfl⟩

theorem policies_subst_iff (fingerprint : Str → Policy → Str) (hp : Planned s account plan) (hclear : Clear plan.renames) :
    (plan.renames.foldl (fun rows p => rows.map (renamePolicy fingerprint account p.1 p.2))
        s.policies).map PolicyRow.content =
        s.policies.map (fun row =>
          (row.account, if row.account = account then row.policy.map (substPolicy plan) else row.policy)) ↔
      ∀ row ∈ s.policies, row.account = account → ∀ policy ∈ row.policy,
        ∀ choice ∈ policy.folders, Under plan choice.name →
          folderExists s account choice.name = true := by
  rw [Renames.foldl_map, map_map, map_inj_left]
  refine forall₂_congr fun row _ => ?_
  rw [Function.comp_apply, foldl_renamePolicy, Prod.mk.injEq]
  by_cases ha : row.account = account
  · rw [if_pos ha, if_pos ha]
    cases hpolicy : row.policy with
    | none => exact ⟨fun _ _ policy hpolicy => (nomatch hpolicy), fun _ => ⟨rfl, rfl⟩⟩
    | some policy =>
      rw [Option.map_some, Option.map_some, Option.some.injEq]
      unfold substPolicy
      rw [Policy.mk.injEq, map_inj_left]
      simp only [FolderChoice.mk.injEq, foldl_rename hclear, hp.together_iff, and_true, true_and]
      constructor
      · intro h _ p hmem
        cases hmem
        exact h
      · intro h
        exact h ha policy rfl
  · rw [if_neg ha, if_neg ha]
    exact ⟨fun _ h => absurd h ha, fun _ => ⟨rfl, rfl⟩⟩

end Move

theorem folders_nodup (folders : UniqueRows folderNaming) : (folders.rows.map folderNaming.get).Nodup := by
  refine pairwise_map.mpr (folders.unique.imp ?_)
  intro r q h heq
  exact h ⟨heq, rfl⟩

/-- **A planned move is carried out as a prefix substitution exactly when the new names are free.** -/
theorem move_substitutes_iff {fingerprint : Str → Policy → Str} {s : Store} {account source : Str}
    {parent fallback : Option Str} {plan : FolderMovePlan}
    (hplan : planFolderMove s account source parent fallback = .ok plan) (hone : plan.delimiter.length = 1) :
    (∃ s', reconcileFolderMove fingerprint s account plan parent = some s' ∧
      Substituted account plan s s') ↔ Free s account plan := by
  have hp := plan_spec hplan
  have hclear := hp.clear hone
  have hclear' := clear_ofAccount account hclear
  constructor
  · rintro ⟨s', hs', hsub⟩
    obtain ⟨mid, hmid⟩ : ∃ mid, plan.renames.foldlM (renameReferences fingerprint account plan.delimiter) s = some mid := by
      unfold reconcileFolderMove at hs'
      obtain ⟨mid, hmid, -⟩ := Option.map_eq_some_iff.mp hs'
      exact ⟨mid, hmid⟩
    obtain ⟨s'', hs'', hnames, hrefs, hrules, hpolicies⟩ := reconcile_some parent hmid
    obtain rfl : s' = s'' := Option.some.inj (hs'.symm.trans hs'')
    obtain ⟨hfolders, hmoved, -, hruled, hpolicied⟩ := renameAll_iff.mp hmid
    have hcached : ∀ table, ∀ r ∈ (s.refs table).rows, r.account = account → Under plan r.folder →
        folderExists s account r.folder = true := by
      intro table
      rw [← refs_subst_iff hp, ← (UniqueRows.moveAll_some hclear').mp (hmoved table), ← hsub.refs table, hrefs]
    refine ⟨?_, ?_, hcached, ?_, ?_⟩
    · exact hp.folders_unique_iff.mp ((UniqueRows.moveAll_isSome hclear').mp ⟨_, hfolders⟩)
    · intro table
      exact (hp.refs_unique_iff (hcached table)).mp ((UniqueRows.moveAll_isSome hclear').mp ⟨_, hmoved table⟩)
    · rw [← rules_subst_iff hp hclear, ← hruled, ← hsub.rules, hrules]
    · rw [← policies_subst_iff fingerprint hp hclear, ← hpolicied, ← hsub.policies, hpolicies]
  · intro hfree
    obtain ⟨folders, hfolders⟩ :=
      (UniqueRows.moveAll_isSome hclear').mpr (hp.folders_unique_iff.mpr hfree.folders)
    have hex : ∀ table, ∃ rows, (ofAccount account plan.renames).foldlM (UniqueRows.move refWriting)
        (s.refs table) = some rows := fun table =>
      (UniqueRows.moveAll_isSome hclear').mpr ((hp.refs_unique_iff (hfree.refs table)).mpr (hfree.rows table))
    choose refs hrefs using hex
    obtain ⟨s', hs', hnames, hrefs', hrules, hpolicies⟩ := reconcile_some parent
      (renameAll_iff.mpr ⟨hfolders, hrefs, rfl, rfl, rfl⟩ :
        plan.renames.foldlM (renameReferences fingerprint account plan.delimiter) s =
          some ⟨folders, refs, _, _, _⟩)
    refine ⟨s', hs', ?_, folders_nodup _, ?_, ?_, ?_⟩
    · rw [hnames, (UniqueRows.moveAll_some hclear').mp hfolders, map_map]
      refine map_congr_left fun r hr => ?_
      rw [Function.comp_apply, Writing.get_shiftAll, hp.together_folder_iff]
      exact fun ha _ => folderExists_iff.mpr ⟨r, hr, ha, rfl⟩
    · intro table
      rw [hrefs', (UniqueRows.moveAll_some hclear').mp (hrefs table)]
      exact (refs_subst_iff hp).mpr (hfree.refs table)
    · rw [hrules]
      exact (rules_subst_iff hp hclear).mpr hfree.rules
    · rw [hpolicies]
      exact (policies_subst_iff fingerprint hp hclear).mpr hfree.policies

/-! ## Two moves -/

/-- A store that holds an account's folders and nothing that refers to them. -/
def foldersOnly (names : List String) (h : names.Nodup) : Store where
  folders := ⟨names.map (fun name => ⟨[], name.toList, some ['/'], none⟩), by
    rw [pairwise_map]
    refine h.imp ?_
    intro a b hne hclash
    exact hne (String.toList_injective (Prod.ext_iff.mp hclash.1).2)⟩
  refs := fun _ => ⟨[], List.Pairwise.nil⟩
  hits := []
  rules := []
  policies := []

/-- `W/W` at the top: its subfolder gets the name it had itself. -/
def nested : Store := foldersOnly ["W/W", "W/W/W"] (by decide)

/-- The new names are free there, and the move is a substitution. -/
theorem nested_substituted : ∃ s', reconcileFolderMove (fun _ _ => []) nested []
        ⟨"W/W", "W", ['/'], [("W/W", "W"), ("W/W/W", "W/W")]⟩ none = some s' ∧
      Substituted [] ⟨"W/W", "W", ['/'], [("W/W", "W"), ("W/W/W", "W/W")]⟩ nested s' :=
  have hplan : planFolderMove nested [] "W/W" none none =
      .ok ⟨"W/W", "W", ['/'], [("W/W", "W"), ("W/W/W", "W/W")]⟩ := by decide +kernel
  (move_substitutes_iff hplan rfl).mpr
    { folders := by decide +kernel
      rows := fun _ _ hr => absurd hr not_mem_nil
      refs := fun _ _ hr => absurd hr not_mem_nil
      rules := fun _ hr => absurd hr not_mem_nil
      policies := fun _ hr => absurd hr not_mem_nil }

/-- `Work` goes under `Projects`, where a `Projects/Work/2026` is cached and no `Projects/Work`. -/
def crowded : Store :=
  foldersOnly ["Work", "Work/2026", "Projects", "Projects/Work/2026"] (by decide)

/-- The plan is made, the server renames, and the local step fails. -/
theorem child_collides : ∃ plan, planFolderMove crowded [] "Work" (some "Projects") none = .ok plan ∧
      plan.delimiter.length = 1 ∧
      (reconcileFolderMove (fun _ _ => []) crowded [] plan (some "Projects")).isNone = true :=
  ⟨⟨"Work", "Projects/Work", ['/'], [("Work", "Projects/Work"), ("Work/2026", "Projects/Work/2026")]⟩,
    by decide +kernel, rfl, by decide +kernel⟩

end Oreneta.FolderMove

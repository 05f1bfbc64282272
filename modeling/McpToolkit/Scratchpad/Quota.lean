import Mathlib.Algebra.Order.BigOperators.Group.List
import McpToolkit.Scratchpad.Ownership

/-!
# McpToolkit.Scratchpad.Quota — usage and what is really there

`tables_used` and `rows_used` cover the tables and rows of a session's database together with what calls hold on
it: an ingest between its reservation and its transaction or its rollback, and a drop between `DROP TABLE` and its
note.  Both resources obey the same law, so they are treated as one (`Resource`).

While the deletion of a file is due nothing is said about its content; `accounted` lists what a run must avoid.
-/

namespace McpToolkit.Scratchpad

open List
open Lib
open Lib.Word (saturatingAdd u64Max)

variable {ι τ π : Type} [DecidableEq ι] [DecidableEq π]

inductive Resource
  | tables
  | rows
  deriving DecidableEq

namespace Resource

def limit (config : ScratchpadSessionConfig ι π) : Resource → ℕ
  | tables => config.maxTablesPerSession
  | rows => config.maxRowsPerSession

def used (entry : SessionEntry ι π) : Resource → ℕ
  | tables => entry.tablesUsed
  | rows => entry.rowsUsed

/-- What a database holds. -/
def present (database : List (Table τ)) : Resource → ℕ
  | tables => database.length
  | rows => (database.map Table.rows).sum

/-- What an ingest of so many rows takes. -/
def cost (count : ℕ) (mode : ScratchpadIngestMode) : Resource → ℕ
  | tables => if mode = .create then 1 else 0
  | rows => count

/-- What a task holds on an incarnation. -/
def held (r : Resource) (incarnation : ℕ) : Task ι τ π → ℕ
  | .persistIngestTable _ began _ _ count mode | .rollbackIngestCapacity _ began count mode =>
    if began = incarnation then r.cost count mode else 0
  | .noteTableDropped _ began count => if began = incarnation then r.cost count .create else 0
  | _ => 0

def heldAll (r : Resource) (incarnation : ℕ) (calls : List (Call ι τ π)) : ℕ :=
  (calls.map fun call => r.held incarnation call.task).sum

end Resource

namespace SessionState

variable [DecidableEq τ] in
/-- What a run must avoid for the usage to cover the databases: sections that are not tidy; a write to a file
whose deletion is due; a rollback or a note for a session that was replaced; a table that was dropped and made
again, smaller, between its count and its drop; and a sum that saturates. -/
def accounted (config : ScratchpadSessionConfig ι π) (s : SessionState ι τ π) (calls : List (Call ι τ π))
    (call : Call ι τ π) (input : SectionInput) : Bool :=
  s.tidy config call input &&
    match input, call.task with
    | .go _, .reserveIngestCapacity id _ rows _ =>
      ((s.pruned config).get id).all fun entry => decide (entry.rowsUsed + rows ≤ u64Max)
    | .go ok, .persistIngestTable _ _ path _ _ _ => !ok || !pending calls path
    | .go _, .rollbackIngestCapacity id incarnation _ _ => (s.pruned config).notReplaced id incarnation
    | .go ok, .dropTable _ _ path table rowsRemoved =>
      !ok || !pending calls path &&
        (s.files path).all fun t => decide (t.name = table → rowsRemoved ≤ t.rows)
    | .go _, .noteTableDropped id incarnation _ => (s.pruned config).notReplaced id incarnation
    | _, _ => true

end SessionState

/-- **Within the quota**: usage is within the limit, and covers what calls hold together with what is there. -/
structure Within (config : ScratchpadSessionConfig ι π) (s : SessionState ι τ π) (calls : List (Call ι τ π))
    (r : Resource) : Prop where
  limit : ∀ entry ∈ s.sessions, r.used entry ≤ r.limit config
  held : ∀ entry ∈ s.sessions, r.heldAll entry.incarnation calls ≤ r.used entry
  covered : ∀ entry ∈ s.sessions, pending calls entry.dbPath = false →
    r.present (s.files entry.dbPath) + r.heldAll entry.incarnation calls ≤ r.used entry

open SessionState Resource

section Lemmas

variable {config : ScratchpadSessionConfig ι π} {s s' : SessionState ι τ π} {task task' : Task ι τ π}
  {call call' : Call ι τ π} {calls rest : List (Call ι τ π)} {ok : Bool} {r : Resource} {gone : List π}

omit [DecidableEq ι] [DecidableEq π] in
@[simp] theorem heldAll_cons (incarnation : ℕ) :
    r.heldAll incarnation (call :: rest) = r.held incarnation call.task + r.heldAll incarnation rest := by
  simp [heldAll]

variable {count : ℕ} {tables : List (Table τ)} {incarnation : ℕ} {id : ι} {path : π} {entry : SessionEntry ι π}
  {mode : ScratchpadIngestMode} {calls' : List (Call ι τ π)} {old : SessionEntry ι π} {table : τ}
  {tables' : List (Table τ)} {name : τ}

section

omit [DecidableEq ι] [DecidableEq π]

theorem heldAll_perm (h : calls.Perm calls') (incarnation : ℕ) :
    r.heldAll incarnation calls = r.heldAll incarnation calls' :=
  (h.map _).sum_eq

theorem subject_of_held (h : r.held incarnation task ≠ 0) : ∃ id, task.subject = some (id, incarnation) := by
  cases task <;> simp only [held, ne_eq, not_true_eq_false] at h
  all_goals
    split_ifs at h with heq
    · exact ⟨_, by rw [Task.subject, heq]⟩
    · exact absurd rfl h

theorem heldAll_eq_zero
    (h : ∀ call ∈ calls, ∀ id, call.task.subject ≠ some (id, incarnation)) : r.heldAll incarnation calls = 0 := by
  refine sum_eq_zero ?_
  intro amount hamount
  obtain ⟨call, hcall, rfl⟩ := mem_map.mp hamount
  by_contra hne
  obtain ⟨id, hsubject⟩ := subject_of_held hne
  exact h call hcall id hsubject

theorem used_giveBack (now count : ℕ) (mode : ScratchpadIngestMode) (entry : SessionEntry ι π) :
    r.used (entry.giveBack now count mode) = r.used entry - r.cost count mode := by
  cases r with
  | tables => simp only [used, SessionEntry.giveBack, cost]; split_ifs <;> omega
  | rows => rfl

theorem used_reserve (now : ℕ) (mode : ScratchpadIngestMode) (hfit : entry.rowsUsed + count ≤ u64Max) :
    r.used (entry.reserve now count mode) = r.used entry + r.cost count mode := by
  cases r with
  | tables => simp only [used, SessionEntry.reserve, cost]; split_ifs <;> omega
  | rows => simp only [used, SessionEntry.reserve, cost, saturatingAdd]; omega

end

/-! ### Sections under the lock -/

/-- A session of the state before, whose usage goes with what the call holds on it. -/
def Balanced (config : ScratchpadSessionConfig ι π) (r : Resource) (task task' : Task ι τ π)
    (old entry : SessionEntry ι π) : Prop :=
  Same old entry ∧ r.used entry ≤ r.limit config ∧
    r.used old + r.held old.incarnation task' ≤ r.used entry + r.held old.incarnation task

omit [DecidableEq ι] in
theorem pending_of_gone (h : pending (⟨gone, task'⟩ :: rest) path = false) :
    pending (⟨[], task⟩ :: rest) path = false ∧ path ∉ gone := by
  simp only [pending, any_cons, Bool.or_eq_false_iff] at h ⊢
  simpa using h.symm

omit [DecidableEq ι] in
theorem Within.locked (h : Within config s (⟨[], task⟩ :: rest) r)
    (hbase : Base config s (⟨[], task⟩ :: rest)) (hfits : Base.Fits config s task') (hfiles : s'.files = s.files)
    (hentries : ∀ entry ∈ s'.sessions, (∃ old ∈ s.sessions, Balanced config r task task' old entry) ∨
      s.incarnations ≤ entry.incarnation ∧ r.used entry ≤ r.limit config ∧
        (s.files entry.dbPath ≠ [] → pending (⟨gone, task'⟩ :: rest) entry.dbPath = true)) :
    Within config s' (⟨gone, task'⟩ :: rest) r := by
  -- nothing is held on an incarnation that is new
  have hnew : ∀ entry : SessionEntry ι π, s.incarnations ≤ entry.incarnation →
      r.heldAll entry.incarnation (⟨gone, task'⟩ :: rest) = 0 := by
    intro entry hlate
    refine heldAll_eq_zero ?_
    intro call hcall id hsubject
    have hearly : entry.incarnation < s.incarnations := by
      rcases mem_cons.mp hcall with rfl | hcall
      · exact (hfits.subject id _ hsubject).1
      · exact (hbase.subjects call (mem_cons_of_mem _ hcall) id _ hsubject).1
    omega
  constructor
  · intro entry hentry
    obtain ⟨old, -, -, hlimit, -⟩ | ⟨-, hlimit, -⟩ := hentries entry hentry <;> exact hlimit
  · intro entry hentry
    obtain ⟨old, hold, ⟨-, -, hinc⟩, -, hbalance⟩ | ⟨hlate, -, -⟩ := hentries entry hentry
    · have hheld := h.held old hold
      rw [heldAll_cons] at hheld ⊢
      rw [hinc]
      dsimp only at hheld ⊢
      omega
    · rw [hnew entry hlate]
      exact Nat.zero_le _
  · intro entry hentry hpending
    rw [hfiles]
    obtain ⟨old, hold, ⟨-, hpath, hinc⟩, -, hbalance⟩ | ⟨hlate, -, hempty⟩ := hentries entry hentry
    · rw [hpath] at hpending ⊢
      have hcovered := h.covered old hold (pending_of_gone hpending).1
      rw [heldAll_cons] at hcovered ⊢
      rw [hinc]
      dsimp only at hcovered ⊢
      omega
    · have hnil : s.files entry.dbPath = [] := by
        by_contra hne
        rw [hempty hne] at hpending
        cases hpending
      rw [hnew entry hlate, hnil]
      cases r <;> simp [present]

omit [DecidableEq π] in
theorem get_of_mem (hids : Distinct s.sessions) (h : entry ∈ s.sessions) : s.get entry.id = some entry := by
  cases hget : s.get entry.id with
  | none => exact absurd rfl (get_eq_none hget entry h)
  | some other =>
    obtain ⟨hother, hid⟩ := get_eq_some hget
    rw [hids.eq hother h hid]

omit [DecidableEq π] in
theorem incarnation_of_notReplaced (hsound : Sound config s) (h : (s.pruned config).notReplaced id incarnation = true)
    (hold : old ∈ (s.pruned config).sessions) (hid : old.id = id) : old.incarnation = incarnation := by
  have hget := get_of_mem ((evolves_pruned config s).sound hsound).ids hold
  rw [hid] at hget
  simpa [notReplaced, hget] using h

omit [DecidableEq ι] in
theorem Within.balanced (h : Within config s calls r) (hold : old ∈ s.sessions)
    (hsame : Same old entry) (hused : r.used entry = r.used old)
    (hheld : r.held old.incarnation task' ≤ r.held old.incarnation task) : Balanced config r task task' old entry := by
  refine ⟨hsame, hused ▸ h.limit old hold, ?_⟩
  omega

omit [DecidableEq ι] in
theorem Within.balanced_giveBack (h : Within config s calls r) {now : ℕ} (hold : old ∈ s.sessions)
    (hheld : r.held old.incarnation task' + r.cost count mode ≤ r.held old.incarnation task) :
    Balanced config r task task' old (old.giveBack now count mode) := by
  have hlimit := h.limit old hold
  have hused := used_giveBack (r := r) now count mode old
  exact ⟨⟨rfl, rfl, rfl⟩, by omega, by omega⟩

omit [DecidableEq π] in
theorem balanced_update {f : SessionEntry ι π → SessionEntry ι π}
    (hentry : entry ∈ ((s.pruned config).update id f).sessions)
    (hf : ∀ old ∈ (s.pruned config).sessions, old.id = id → Balanced config r task task' old (f old))
    (hother : ∀ old ∈ (s.pruned config).sessions, old.id ≠ id → Balanced config r task task' old old) :
    ∃ old ∈ s.sessions, Balanced config r task task' old entry := by
  obtain ⟨old, hold, rfl⟩ := mem_update.mp hentry
  refine ⟨old, (mem_pruned.mp hold).1, ?_⟩
  split_ifs with hid
  · exact hf old hold hid
  · exact hother old hold hid

/-- `session_entry_mut` and an update of the entry. -/
theorem balanced_ensured (hinj : Function.Injective config.dbPath)
    (hbase : Base config s (⟨[], task⟩ :: rest)) {f : SessionEntry ι π → SessionEntry ι π}
    (hsome : (s.pruned config).sessionEntryMut config id = some s')
    (hf : ∀ old ∈ (s.pruned config).sessions, old.id = id → Balanced config r task task' old (f old))
    (hother : ∀ old ∈ (s.pruned config).sessions, old.id ≠ id → Balanced config r task task' old old)
    (hzero : ∀ entry : SessionEntry ι π, Same entry (f entry) ∧ (r.used entry = 0 → r.used (f entry) = 0)) :
    ∀ entry ∈ (s'.update id f).sessions, (∃ old ∈ s.sessions, Balanced config r task task' old entry) ∨
      s.incarnations ≤ entry.incarnation ∧ r.used entry ≤ r.limit config ∧ (s.files entry.dbPath ≠ [] →
          pending (⟨s.removedPaths config, task'⟩ :: rest) entry.dbPath = true) := by
  intro entry hentry
  obtain ⟨-, rfl⟩ | ⟨hnone, rfl⟩ := sessionEntryMut_eq_some hsome
  · exact .inl (balanced_update hentry hf hother)
  · obtain ⟨old, hold, rfl⟩ := mem_update.mp hentry
    obtain hold | rfl := mem_create.mp hold
    · exact .inl (balanced_update (mem_update.mpr ⟨old, hold, rfl⟩) hf hother)
    · right
      rw [if_pos rfl]
      obtain ⟨⟨-, hpath, hinc⟩, hused⟩ := hzero ⟨id, config.dbPath id, (s.pruned config).clock, 0, 0,
        (s.pruned config).incarnations⟩
      have hnothing := hused (by cases r <;> rfl)
      refine ⟨le_of_eq hinc.symm, by omega, ?_⟩
      rw [hpath]
      exact hbase.pending_of_created hinj hnone

/-- The reservation of an ingest is within the limits, and the call holds it. -/
theorem Within.balanced_reserve (h : Within config s (⟨[], task⟩ :: rest) r) (hsound : Sound config s)
    (hget : (s.pruned config).get id = some entry) (hfit : entry.rowsUsed + count ≤ u64Max)
    (htables : ¬ (mode = .create ∧ config.maxTablesPerSession ≤ entry.tablesUsed))
    (hrows : saturatingAdd entry.rowsUsed count ≤ config.maxRowsPerSession) {new : SessionEntry ι π}
    (hnew : new ∈ ((s.pruned config).update id (SessionEntry.reserve s.clock count mode)).sessions) :
    ∃ old ∈ s.sessions, Balanced config r task
      (.persistIngestTable id entry.incarnation entry.dbPath table count mode) old new := by
  obtain ⟨hentry, hid⟩ := get_eq_some hget
  have hmem := (mem_pruned.mp hentry).1
  refine balanced_update hnew ?_ ?_
  · intro old hold hid'
    obtain rfl := ((evolves_pruned config s).sound hsound).ids.eq hold hentry (hid'.trans hid.symm)
    have hused := used_reserve (r := r) s.clock mode hfit
    refine ⟨⟨rfl, rfl, rfl⟩, ?_, ?_⟩
    · have hlimit := h.limit old hmem
      cases r with
      | tables =>
        simp only [used, SessionEntry.reserve, Resource.limit] at hlimit ⊢
        split_ifs with hmode
        · have := not_and.mp htables hmode
          omega
        · exact hlimit
      | rows => exact hrows
    · have hheld : r.held old.incarnation (Task.persistIngestTable id old.incarnation old.dbPath table count mode :
          Task ι τ π) = r.cost count mode := if_pos rfl
      omega
  · intro old hold hne
    have hold' := (mem_pruned.mp hold).1
    refine h.balanced hold' ⟨rfl, rfl, rfl⟩ rfl ?_
    have hother : entry.incarnation ≠ old.incarnation := by
      intro hinc
      exact hne ((hsound.unique old hold' entry hmem hinc.symm).trans hid)
    rw [Resource.held, if_neg hother]
    exact Nat.zero_le _

variable [DecidableEq τ] in
/-- What a section under the lock does to the usage. -/
theorem Within.entries_go (h : Within config s (⟨[], task⟩ :: rest) r) (hinj : Function.Injective config.dbPath)
    (hbase : Base config s (⟨[], task⟩ :: rest))
    (hacc : s.accounted config (⟨[], task⟩ :: rest) ⟨[], task⟩ (.go ok) = true)
    (hgoes : Goes config s ok task s' call) (hquiet : ¬ (ok = true ∧ task.writes = true)) :
    ∀ entry ∈ s'.sessions, (∃ old ∈ s.sessions, Balanced config r task call.task old entry) ∨
      s.incarnations ≤ entry.incarnation ∧ r.used entry ≤ r.limit config ∧
        (s.files entry.dbPath ≠ [] → pending (call :: rest) entry.dbPath = true) := by
  have hacc := (Bool.and_eq_true_iff.mp hacc).2
  -- sessions that stay as they are while the call holds nothing more
  have hkept : ∀ {next : Task ι τ π}, (∀ inc, r.held inc next ≤ r.held inc task) →
      ∀ old ∈ s.sessions, Balanced config r task next old old :=
    fun hheld old hold => h.balanced hold ⟨rfl, rfl, rfl⟩ rfl (hheld _)
  have hstays : ∀ {next : Task ι τ π}, (∀ inc, r.held inc next ≤ r.held inc task) →
      ∀ old ∈ (s.pruned config).sessions, Balanced config r task next old old :=
    fun hheld old hold => hkept hheld old (mem_pruned.mp hold).1
  have htouched : ∀ {next : Task ι τ π}, (∀ inc, r.held inc next ≤ r.held inc task) →
      ∀ old ∈ (s.pruned config).sessions, ∀ now, Balanced config r task next old { old with lastTouched := now } :=
    fun hheld old hold now => h.balanced (mem_pruned.mp hold).1 ⟨rfl, rfl, rfl⟩ (by cases r <;> rfl) (hheld _)
  have hfree {held : ℕ → ℕ} : ∀ inc, 0 ≤ held inc := fun _ => Nat.zero_le _
  intro entry hentry
  cases hgoes with
  | ensureFailed | unknown | cleaned | refused | absent | noteFailed =>
    exact .inl ⟨entry, (mem_pruned.mp hentry).1, hstays hfree entry hentry⟩
  | released =>
    have hpruned := mem_of_mem_filter hentry
    exact .inl ⟨entry, (mem_pruned.mp hpruned).1, hstays hfree entry hpruned⟩
  | informed | found =>
    exact .inl (balanced_update hentry (fun old hold _ => htouched hfree old hold _)
      fun old hold _ => hstays hfree old hold)
  | ensured hsome =>
    refine balanced_ensured hinj hbase hsome (fun old hold _ => htouched hfree old hold _)
      (fun old hold _ => hstays hfree old hold) ?_ entry hentry
    intro old
    exact ⟨⟨rfl, rfl, rfl⟩, by cases r <;> exact id⟩
  | reserved hget htables hrows =>
    refine .inl (h.balanced_reserve hbase.sound hget ?_ htables hrows hentry)
    simpa [hget] using hacc
  | notPersisted => exact .inl ⟨entry, hentry, hkept (fun _ => Nat.le_refl _) entry hentry⟩
  | looked next hnext =>
    refine .inl ⟨entry, hentry, hkept ?_ entry hentry⟩
    obtain rfl | rfl | rfl := hnext <;> exact hfree
  | counted | notCounted | notDropped =>
    exact .inl ⟨entry, hentry, hkept hfree entry hentry⟩
  | rolledBack =>
    refine .inl (balanced_update hentry ?_ fun old hold _ => hstays hfree old hold)
    intro old hold hid
    refine h.balanced_giveBack (mem_pruned.mp hold).1 ?_
    have hinc := incarnation_of_notReplaced hbase.sound hacc hold hid
    simp [Resource.held, hinc]
  | noted hsome =>
    refine balanced_ensured hinj hbase hsome ?_ (fun old hold _ => hstays hfree old hold) ?_
      entry hentry
    · intro old hold hid
      refine h.balanced_giveBack (mem_pruned.mp hold).1 ?_
      have hinc := incarnation_of_notReplaced hbase.sound hacc hold hid
      simp [Resource.held, hinc]
    · intro old
      refine ⟨⟨rfl, rfl, rfl⟩, ?_⟩
      intro hzero
      rw [used_giveBack, hzero, Nat.zero_sub]
  | persisted | dropped => exact absurd ⟨rfl, rfl⟩ hquiet

/-! ### Databases -/

theorem present_append (tables tables' : List (Table τ)) :
    r.present (tables ++ tables') = r.present tables + r.present tables' := by
  cases r <;> simp [present]

theorem present_perm (h : tables.Perm tables') : r.present tables = r.present tables' := by
  cases r with
  | tables => exact h.length_eq
  | rows => exact (h.map _).sum_eq

theorem le_present_of_mem {table : Table τ} (h : table ∈ tables)
    (hcount : count ≤ table.rows) : r.cost count .create ≤ r.present tables := by
  cases r with
  | tables => exact length_pos_of_mem h
  | rows => exact hcount.trans (single_le_sum (by simp) _ (mem_map_of_mem h))

/-- Every table of a database has a name of its own. -/
def Named (s : SessionState ι τ π) : Prop := ∀ path, ((s.files path).map Table.name).Nodup

variable [DecidableEq τ]

theorem rows_append (hnames : (tables.map Table.name).Nodup) (name : τ) (count incarnation : ℕ) :
    ((tables.map fun t => if t.name = name then
      { t with rows := t.rows + count, writers := t.writers ++ [incarnation] } else t).map Table.rows).sum
        ≤ (tables.map Table.rows).sum + count := by
  induction tables with
  | nil => simp
  | cons table tables ih =>
    obtain ⟨hfresh, hnames⟩ := nodup_cons.mp hnames
    have ih := ih hnames
    simp only [map_cons, sum_cons]
    split_ifs with hname
    · -- no other table has the name
      have hrest : (tables.map fun t => if t.name = name then
          { t with rows := t.rows + count, writers := t.writers ++ [incarnation] } else t) = tables.map id := by
        refine map_congr_left ?_
        intro other hother
        refine if_neg ?_
        intro hother'
        exact hfresh (hname.trans hother'.symm ▸ mem_map_of_mem hother)
      rw [hrest, List.map_id]
      dsimp only
      omega
    · omega

theorem present_ingested (hnames : (tables.map Table.name).Nodup)
    (h : ingested tables incarnation name count mode = some tables') :
    r.present tables' ≤ r.present tables + r.cost count mode := by
  cases mode with
  | create =>
    obtain ⟨-, ⟨⟩⟩ := Option.ite_none_left_eq_some.mp h
    cases r <;> simp [present, cost]
  | append =>
    obtain ⟨-, ⟨⟩⟩ := Option.ite_none_right_eq_some.mp h
    cases r with
    | tables => simp [present]
    | rows => exact rows_append hnames name count incarnation

theorem present_dropped (hfound : (tables.any fun t => decide (t.name = name)) = true)
    (hcount : (tables.all fun t => decide (t.name = name → count ≤ t.rows)) = true) :
    r.present (tables.filter fun t => decide (t.name ≠ name)) + r.cost count .create ≤ r.present tables := by
  obtain ⟨table, htable, hname⟩ := any_eq_true.mp hfound
  have hrows := all_eq_true.mp hcount table htable
  rw [decide_eq_true_eq] at hname hrows
  have hsplit := filter_append_perm (fun t : Table τ => decide (t.name ≠ name)) tables
  rw [← present_perm hsplit, present_append]
  refine Nat.add_le_add_left (le_present_of_mem (mem_filter.mpr ⟨htable, ?_⟩) (hrows hname)) _
  simp [hname]

theorem names_ingested (hnames : (tables.map Table.name).Nodup)
    (h : ingested tables incarnation name count mode = some tables') : (tables'.map Table.name).Nodup := by
  cases mode with
  | create =>
    obtain ⟨hfound, ⟨⟩⟩ := Option.ite_none_left_eq_some.mp h
    rw [map_append, nodup_append]
    refine ⟨hnames, nodup_singleton _, ?_⟩
    rintro old hold new hnew rfl
    obtain ⟨table, htable, rfl⟩ := mem_map.mp hold
    refine hfound (any_eq_true.mpr ⟨table, htable, ?_⟩)
    simpa using hnew
  | append =>
    obtain ⟨-, ⟨⟩⟩ := Option.ite_none_right_eq_some.mp h
    rw [map_map]
    refine (map_congr_left ?_) ▸ hnames
    intro table _
    simp only [Function.comp_apply]
    split_ifs <;> rfl

omit [DecidableEq ι] [DecidableEq τ] in
theorem Named.write (h : Named s) (htables : (tables.map Table.name).Nodup) : Named (s.write path tables) := by
  intro other
  by_cases hother : other = path
  · rw [hother, files_write_self]
    exact htables
  · rw [files_write_of_ne hother]
    exact h other

theorem Named.go (h : Named s) (hsound : Sound config s) (htidy : s.tidy config ⟨[], task⟩ (.go ok) = true)
    (hgoes : Goes config s ok task s' call) : Named s' := by
  obtain hev | ⟨hok, hwrites⟩ := hgoes.evolves hsound htidy
  · intro path
    rw [hev.files]
    exact h path
  · cases hgoes with
    | persisted htables => exact h.write (names_ingested (h _) htables)
    | dropped => exact h.write ((h _).sublist (filter_sublist.map _))
    | notPersisted | notDropped => cases hok
    | _ => cases hwrites

/-! ### Sections on a database -/

section

variable (h : Within config s (⟨[], task⟩ :: rest) r)
include h

omit [DecidableEq ι] [DecidableEq τ] in
theorem Within.written (hpending : pending (⟨[], task⟩ :: rest) path = false)
    (hown : ∀ entry ∈ s.sessions, entry.dbPath = path →
      r.present tables + r.held entry.incarnation task' ≤ r.present (s.files path) + r.held entry.incarnation task)
    (hother : ∀ entry ∈ s.sessions, entry.dbPath ≠ path →
      r.held entry.incarnation task' ≤ r.held entry.incarnation task) :
    Within config (s.write path tables) (⟨[], task'⟩ :: rest) r := by
  constructor
  · exact h.limit
  · intro entry hentry
    have hheld := h.held entry hentry
    rw [heldAll_cons] at hheld ⊢
    dsimp only at hheld ⊢
    by_cases hpath : entry.dbPath = path
    · have hcovered := h.covered entry hentry (hpath ▸ hpending)
      rw [heldAll_cons, hpath] at hcovered
      have := hown entry hentry hpath
      dsimp only at hcovered
      omega
    · have := hother entry hentry hpath
      omega
  · intro entry hentry hpending'
    have hcovered := h.covered entry hentry (pending_of_gone hpending').1
    rw [heldAll_cons] at hcovered ⊢
    dsimp only at hcovered ⊢
    by_cases hpath : entry.dbPath = path
    · rw [hpath] at hcovered ⊢
      rw [files_write_self]
      have := hown entry hentry hpath
      omega
    · rw [files_write_of_ne hpath]
      have := hother entry hentry hpath
      omega

theorem Within.persisted (hnamed : Named s)
    (hinj : Function.Injective config.dbPath) (hbase : Base config s (⟨[], task⟩ :: rest))
    (htask : task = .persistIngestTable id incarnation path table count mode)
    (hlive : s.stillLive id incarnation = true) (hpending : pending (⟨[], task⟩ :: rest) path = false)
    (htables : ingested (s.files path) incarnation table count mode = some tables) :
    Within config (s.write path tables) (⟨[], .returned⟩ :: rest) r := by
  subst htask
  obtain ⟨owner, howner, -, hinc, hpath⟩ := hbase.live_of_persisted rfl hlive
  refine h.written hpending ?_ fun _ _ _ => Nat.zero_le _
  intro entry hentry hsame
  have hown : entry = owner := by
    rw [← hpath, hbase.sound.paths entry hentry, hbase.sound.paths owner howner] at hsame
    exact hbase.sound.ids.eq hentry howner (hinj hsame)
  have hheld : r.held entry.incarnation (Task.persistIngestTable id incarnation path table count mode : Task ι τ π) =
      r.cost count mode := if_pos (by rw [hown, hinc])
  rw [hheld]
  exact present_ingested (hnamed path) htables

omit [DecidableEq ι] in
theorem Within.dropped (hbase : Base config s (⟨[], task⟩ :: rest))
    (htask : task = .dropTable id incarnation path table count) (hpending : pending (⟨[], task⟩ :: rest) path = false)
    (hfound : ((s.files path).any fun t => decide (t.name = table)) = true)
    (hcount : ((s.files path).all fun t => decide (t.name = table → count ≤ t.rows)) = true) :
    Within config (s.write path ((s.files path).filter fun t => decide (t.name ≠ table)))
      (⟨[], .noteTableDropped id incarnation count⟩ :: rest) r := by
  subst htask
  refine h.written hpending ?_ ?_
  · intro entry hentry _
    have hpresent := present_dropped (r := r) hfound hcount
    have hheld : r.held entry.incarnation (Task.noteTableDropped id incarnation count : Task ι τ π) ≤
        r.cost count .create := by
      simp only [Resource.held]
      split_ifs <;> omega
    omega
  · intro entry hentry hother
    -- the note is about the session of the file
    refine Nat.le_of_eq (if_neg ?_)
    intro hinc
    refine hother ?_
    have hid := (hbase.subjects _ mem_cons_self id incarnation rfl).2 entry hentry hinc.symm
    rw [hbase.sound.paths entry hentry, hid, hbase.targets _ mem_cons_self id path rfl]

end

omit [DecidableEq ι] [DecidableEq τ] in
theorem Within.removed (h : Within config s (call :: rest) r) {j : ℕ} (hpath : call.paths[j]? = some path) :
    Within config (s.write path []) ({ call with paths := call.paths.eraseIdx j } :: rest) r := by
  refine ⟨h.limit, h.held, ?_⟩
  intro entry hentry hpending
  have hheld : r.heldAll entry.incarnation (call :: rest) ≤ r.used entry := h.held entry hentry
  show r.present ((s.write path []).files entry.dbPath) + r.heldAll entry.incarnation (call :: rest) ≤ r.used entry
  by_cases hsame : entry.dbPath = path
  · rw [hsame, files_write_self]
    cases r <;> simpa [present] using hheld
  · rw [files_write_of_ne hsame]
    refine h.covered entry hentry ?_
    simp only [pending, any_cons, Bool.or_eq_false_iff, contains_eq_mem, decide_eq_false_iff_not]
      at hpending ⊢
    exact ⟨fun hmem => hpending.1 (Base.mem_eraseIdx_of_ne hpath hmem hsame), hpending.2⟩

theorem Within.go (h : Within config s (⟨[], task⟩ :: rest) r) (hnamed : Named s)
    (hinj : Function.Injective config.dbPath) (hbase : Base config s (⟨[], task⟩ :: rest))
    (hacc : s.accounted config (⟨[], task⟩ :: rest) ⟨[], task⟩ (.go ok) = true)
    (hgoes : Goes config s ok task s' call) : Within config s' (call :: rest) r := by
  have hfits := hbase.fits_go hgoes
  obtain ⟨htidy, hwrite⟩ := Bool.and_eq_true_iff.mp hacc
  by_cases hquiet : ok = true ∧ task.writes = true
  · obtain ⟨hok, hwrites⟩ := hquiet
    cases hgoes with
    | persisted htables =>
      exact h.persisted hnamed hinj hbase rfl (by simpa [tidy] using htidy) (by simpa using hwrite) htables
    | dropped hfound =>
      simp only [Bool.not_true, Bool.false_or, Bool.and_eq_true, Bool.not_eq_true'] at hwrite
      exact h.dropped hbase rfl hwrite.1 hfound hwrite.2
    | notPersisted | notDropped => cases hok
    | _ => cases hwrites
  · obtain hev | hwrites := hgoes.evolves hbase.sound htidy
    · exact h.locked hbase hfits hev.files (h.entries_go hinj hbase hacc hgoes hquiet)
    · exact absurd hwrites hquiet

/-! ### Runs -/

omit [DecidableEq ι] [DecidableEq τ] in
theorem Within.perm (hperm : calls.Perm calls') (h : Within config s calls r) : Within config s calls' r where
  limit := h.limit
  held := by
    intro entry hentry
    rw [← heldAll_perm hperm]
    exact h.held entry hentry
  covered := by
    intro entry hentry hpending
    rw [← pending_perm hperm] at hpending
    rw [← heldAll_perm hperm]
    exact h.covered entry hentry hpending

omit [DecidableEq ι] [DecidableEq τ] in
theorem Within.entered (h : Within config s calls r) (hsubject : task.subject = none) :
    Within config s (⟨[], task⟩ :: calls) r := by
  have hheld : ∀ incarnation, r.heldAll incarnation (⟨[], task⟩ :: calls) = r.heldAll incarnation calls := by
    intro incarnation
    rw [heldAll_cons, Nat.add_eq_right]
    by_contra hne
    obtain ⟨id, hsome⟩ := subject_of_held hne
    rw [hsubject] at hsome
    cases hsome
  constructor
  · exact h.limit
  · intro entry hentry
    rw [hheld]
    exact h.held entry hentry
  · intro entry hentry hpending
    rw [hheld]
    exact h.covered entry hentry (by simpa [pending] using hpending)

theorem accounted_perm {input : SectionInput} (hperm : calls.Perm calls')
    (h : s.accounted config calls call input = true) : s.accounted config calls' call input = true := by
  unfold accounted at h ⊢
  simpa only [pending_perm hperm] using h

theorem within_advance {input : SectionInput} (hinj : Function.Injective config.dbPath)
    (hbase : Base config s (call :: rest)) (hacc : s.accounted config (call :: rest) call input = true)
    (hadv : s.advance config call input = some (s', call')) (h : Named s ∧ ∀ r, Within config s (call :: rest) r) :
    Named s' ∧ ∀ r, Within config s' (call' :: rest) r := by
  have htidy := (Bool.and_eq_true_iff.mp hacc).1
  cases input with
  | remove j ok =>
    obtain ⟨path, hpath, heq⟩ := Option.map_eq_some_iff.mp hadv
    obtain rfl : ok = true := htidy
    cases heq
    exact ⟨h.1.write nodup_nil, fun r => (h.2 r).removed hpath⟩
  | go ok =>
    obtain ⟨task, rfl, hgoes⟩ := goes_of_advance hadv
    exact ⟨h.1.go hbase.sound htidy hgoes, fun r => (h.2 r).go h.1 hinj hbase hacc hgoes⟩

theorem within_of_run {clock : ℕ} {t : Pool (SessionState ι τ π) (Call ι τ π)} (hinj : Function.Injective config.dbPath)
    (h : (manager τ config).Run (fun s calls call input => s.accounted config calls call input = true)
      (start ι τ π clock) t) : Named t.shared ∧ ∀ r, Within config t.shared t.calls r := by
  have hbase : ∀ t, (manager τ config).Run (fun s calls call input => s.accounted config calls call input = true)
      (start ι τ π clock) t → Base config t.shared t.calls :=
    fun t h => base_of_run (h.mono fun hacc => (Bool.and_eq_true_iff.mp hacc).1)
  refine Machine.Run.induct (J := fun s calls => Base config s calls)
    (I := fun s calls => Named s ∧ ∀ r, Within config s calls r) hbase Base.perm accounted_perm ?_ ?_ ?_ ?_ ?_ h
  · rintro s calls calls' hperm ⟨hnamed, hwithin⟩
    exact ⟨hnamed, fun r => (hwithin r).perm hperm⟩
  · rintro s elapsed s' calls hstep - ⟨hnamed, hwithin⟩
    obtain rfl := Option.some.inj hstep
    exact ⟨hnamed, fun r => ⟨(hwithin r).limit, (hwithin r).held, (hwithin r).covered⟩⟩
  · rintro s calls operation - ⟨hnamed, hwithin⟩
    exact ⟨hnamed, fun r => (hwithin r).entered (by cases operation <;> rfl)⟩
  · rintro s call input s' call' rest hstep hacc hbase hwithin
    exact within_advance hinj hbase hacc hstep hwithin
  · refine ⟨fun _ => nodup_nil, fun r => ?_⟩
    constructor <;> intro entry hentry <;> cases hentry

end Lemmas

/-- No operation is in flight. -/
def Idle (calls : List (Call ι τ π)) : Prop := ∀ call ∈ calls, call.paths = [] ∧ call.task = .returned

instance [DecidableEq τ] (calls : List (Call ι τ π)) : Decidable (Idle calls) :=
  inferInstanceAs (Decidable (∀ call ∈ calls, call.paths = [] ∧ call.task = .returned))

/-- What is in the database of a live session is counted, and what is counted is within the limits. -/
def QuotaKept (config : ScratchpadSessionConfig ι π) (s : SessionState ι τ π) : Prop :=
  ∀ entry ∈ s.sessions,
    ((s.files entry.dbPath).map Table.rows).sum ≤ entry.rowsUsed ∧ entry.rowsUsed ≤ config.maxRowsPerSession ∧
      (s.files entry.dbPath).length ≤ entry.tablesUsed ∧ entry.tablesUsed ≤ config.maxTablesPerSession

instance (config : ScratchpadSessionConfig ι π) (s : SessionState ι τ π) : Decidable (QuotaKept config s) :=
  inferInstanceAs (Decidable (∀ entry ∈ s.sessions, _ ∧ _ ∧ _ ∧ _))

omit [DecidableEq ι] in
theorem pending_of_idle {calls : List (Call ι τ π)} (h : Idle calls) (path : π) : pending calls path = false := by
  rw [← Bool.not_eq_true, mem_pending]
  rintro ⟨call, hcall, hmem⟩
  rw [(h call hcall).1] at hmem
  cases hmem

variable [DecidableEq τ] in
/-- **Quota accounting.**  In every run whose sections are accounted for, whenever no operation is in flight the
tables and rows of a live session are covered by its usage, and that is within the limits. -/
theorem quota_kept (config : ScratchpadSessionConfig ι π) (hinj : Function.Injective config.dbPath) (clock : ℕ)
    (t : Pool (SessionState ι τ π) (Call ι τ π))
    (h : (manager τ config).Run (fun s calls call input => s.accounted config calls call input = true)
      (start ι τ π clock) t) (hidle : Idle t.calls) : QuotaKept config t.shared := by
  obtain ⟨-, hwithin⟩ := within_of_run hinj h
  have hpresent : ∀ r : Resource, ∀ entry ∈ t.shared.sessions,
      r.present (t.shared.files entry.dbPath) ≤ r.used entry := by
    intro r entry hentry
    have hcovered := (hwithin r).covered entry hentry (pending_of_idle hidle _)
    omega
  intro entry hentry
  exact ⟨hpresent .rows entry hentry, (hwithin .rows).limit entry hentry, hpresent .tables entry hentry,
    (hwithin .tables).limit entry hentry⟩

/-- A session gets a table of five rows, a second ingest fails and is rolled back, more rows are appended, and
another table comes and goes. -/
def busySession : List (Event ℕ (Operation ℕ ℕ) SectionInput) :=
  [.enter (.openSession 0), .advance 0 (.go true),
    .enter (.ingestRows 0 7 5 .create), .advance 1 (.go true), .advance 1 (.go true),
    .enter (.ingestRows 0 8 2 .create), .enter (.ingestRows 0 7 3 .append), .advance 2 (.go true),
    .advance 3 (.go true), .advance 2 (.go false), .advance 3 (.go true), .advance 2 (.go true),
    .enter (.ingestRows 0 9 4 .create), .advance 4 (.go true), .advance 4 (.go true),
    .enter (.dropTable 0 9 false), .advance 5 (.go true), .advance 5 (.go true), .advance 5 (.go true),
    .advance 5 (.go true), .advance 5 (.go true)]

theorem quota_kept_busySession : ∃ t, (manager ℕ smallConfig).Run
    (fun s calls call input => s.accounted smallConfig calls call input = true) (start ℕ ℕ ℕ 0) t ∧
      t.shared.sessions = [⟨0, 0, 0, 1, 8, 0⟩] ∧ Idle t.calls ∧ QuotaKept smallConfig t.shared := by
  obtain ⟨t, hrun, hsessions, hidle⟩ := (manager ℕ smallConfig).exists_run_of_exec (start ℕ ℕ ℕ 0)
    busySession (SessionState.accounted smallConfig)
    (p := fun t => t.shared.sessions = [⟨0, 0, 0, 1, 8, 0⟩] ∧ Idle t.calls) (by decide)
  exact ⟨t, hrun, hsessions, hidle, quota_kept smallConfig Function.injective_id 0 t hrun hidle⟩

/-- An ingest into a session that has expired prunes it and returns early, so that its file stays; the session
that is opened next holds a table and five rows, and has used none. -/
theorem quota_not_kept : ∃ t, (manager ℕ smallConfig).Reaches (start ℕ ℕ ℕ 0) t ∧ Idle t.calls ∧
    ¬ QuotaKept smallConfig t.shared :=
  Machine.exists_reaches_of_exec _ _
    [.enter (.openSession 0), .advance 0 (.go true),
      .enter (.ingestRows 0 7 5 .create), .advance 1 (.go true), .advance 1 (.go true),
      .env 10, .enter (.ingestRows 0 7 5 .append), .advance 2 (.go true),
      .enter (.openSession 0), .advance 3 (.go true)] (by decide)

end McpToolkit.Scratchpad

import McpToolkit.Scratchpad.Ownership

/-!
# McpToolkit.Scratchpad.Cleanup — deletions and new incarnations

Files are deleted after the lock is released, and all incarnations of a session share one path.  A deletion
is safe as long as no session is created at a path that some call is still about to delete; a session that was
just pruned is such a session for the very call that pruned it.
-/

namespace McpToolkit.Scratchpad

open List
open Lib

variable {ι τ π : Type} [DecidableEq ι] [DecidableEq π]

/-- No file that a call is about to delete belongs to a live session. -/
def DeletionsSafe (s : SessionState ι τ π) (calls : List (Call ι τ π)) : Prop :=
  ∀ call ∈ calls, ∀ path ∈ call.paths, ∀ entry ∈ s.sessions, entry.dbPath ≠ path

/-- Every table of a live session was written by this incarnation of it alone. -/
def NothingInherited (s : SessionState ι τ π) : Prop :=
  ∀ entry ∈ s.sessions, ∀ table ∈ s.files entry.dbPath, ∀ writer ∈ table.writers, writer = entry.incarnation

instance (s : SessionState ι τ π) (calls : List (Call ι τ π)) : Decidable (DeletionsSafe s calls) :=
  inferInstanceAs (Decidable (∀ call ∈ calls, ∀ path ∈ call.paths, ∀ entry ∈ s.sessions, entry.dbPath ≠ path))

instance (s : SessionState ι τ π) : Decidable (NothingInherited s) :=
  inferInstanceAs (Decidable (∀ entry ∈ s.sessions, ∀ table ∈ s.files entry.dbPath, ∀ writer ∈ table.writers,
    writer = entry.incarnation))

namespace SessionState

variable {config : ScratchpadSessionConfig ι π} {s s' : SessionState ι τ π} {task : Task ι τ π}
  {call : Call ι τ π} {rest : List (Call ι τ π)} {ok : Bool}

/-- The section makes a new entry for the session. -/
def creates (config : ScratchpadSessionConfig ι π) (s : SessionState ι τ π) (id : ι) : Bool :=
  ((s.pruned config).get id).isNone && ((s.pruned config).sessionEntryMut config id).isSome

/-- A section that creates a session does so when no deletion of its file is due. -/
def orderly (config : ScratchpadSessionConfig ι π) (s : SessionState ι τ π) (calls : List (Call ι τ π))
    (call : Call ι τ π) (input : SectionInput) : Bool :=
  s.tidy config call input &&
    match input, call.task with
    | .go _, .ensureSession id | .go _, .noteTableDropped id _ _ =>
      !s.creates config id ||
        !(pending calls (config.dbPath id) || (s.removedPaths config).contains (config.dbPath id))
    | _, _ => true

/-- The session whose entry the task makes if there is none. -/
def ensures : Task ι τ π → Option ι
  | .ensureSession id | .noteTableDropped id _ _ => some id
  | _ => none

/-- Where the sessions after a section come from: a session that the section keeps does not share its file with
one that it removes, or the session is new. -/
def Survives (config : ScratchpadSessionConfig ι π) (s : SessionState ι τ π) (task : Task ι τ π) (gone : List π)
    (entry : SessionEntry ι π) : Prop :=
  (∃ old ∈ s.sessions, Same old entry ∧ old.dbPath ∉ gone) ∨
    gone = s.removedPaths config ∧ ∃ id, ensures task = some id ∧ s.creates config id = true ∧
      entry.dbPath = config.dbPath id

/-! ### Survivors -/

variable {entry : SessionEntry ι π} {id : ι}

section

variable (hinj : Function.Injective config.dbPath) (hsound : Sound config s)
include hinj hsound

omit [DecidableEq ι] [DecidableEq π] in
theorem not_mem_removedPaths (h : entry ∈ (s.pruned config).sessions) : entry.dbPath ∉ s.removedPaths config := by
  intro hmem
  obtain ⟨hentry, hlive⟩ := mem_pruned.mp h
  obtain ⟨other, hother, hexpired, hpath⟩ := mem_removedPaths.mp hmem
  rw [hsound.paths other hother, hsound.paths entry hentry] at hpath
  obtain rfl := hsound.ids.eq hother hentry (hinj hpath)
  rw [hlive] at hexpired
  cases hexpired

section

omit [DecidableEq π]

theorem survives_pruned {old : SessionEntry ι π} (hold : old ∈ (s.pruned config).sessions) (hsame : Same old entry) :
    Survives config s task (s.removedPaths config) entry :=
  .inl ⟨old, (mem_pruned.mp hold).1, hsame, not_mem_removedPaths hinj hsound hold⟩

theorem survives_update {f : SessionEntry ι π → SessionEntry ι π}
    (h : entry ∈ ((s.pruned config).update id f).sessions) (hf : ∀ entry, Same entry (f entry)) :
    Survives config s task (s.removedPaths config) entry := by
  obtain ⟨old, hold, rfl⟩ := mem_update.mp h
  refine survives_pruned hinj hsound hold ?_
  split_ifs
  · exact hf old
  · exact ⟨rfl, rfl, rfl⟩

theorem survives_ensured (htask : ensures task = some id)
    (hsome : (s.pruned config).sessionEntryMut config id = some s') {f : SessionEntry ι π → SessionEntry ι π}
    (h : entry ∈ (s'.update id f).sessions) (hf : ∀ entry, Same entry (f entry)) :
    Survives config s task (s.removedPaths config) entry := by
  obtain ⟨-, rfl⟩ | ⟨hnone, rfl⟩ := sessionEntryMut_eq_some hsome
  · exact survives_update hinj hsound h hf
  · obtain ⟨old, hold, rfl⟩ := mem_update.mp h
    have hsame : Same old (if old.id = id then f old else old) := by
      split_ifs
      · exact hf old
      · exact ⟨rfl, rfl, rfl⟩
    obtain hold | rfl := mem_create.mp hold
    · exact survives_pruned hinj hsound hold hsame
    · exact .inr ⟨rfl, id, htask, by simp [creates, hnone, hsome], hsame.2.1⟩

theorem survives_released (h : entry ∈ ((s.pruned config).remove id).sessions) : Survives config s task
      (s.removedPaths config ++ (((s.pruned config).get id).map SessionEntry.dbPath).toList) entry := by
  obtain ⟨hentry, hid⟩ := mem_filter.mp h
  refine .inl ⟨entry, (mem_pruned.mp hentry).1, ⟨rfl, rfl, rfl⟩, ?_⟩
  intro hmem
  rcases mem_append.mp hmem with hmem | hmem
  · exact not_mem_removedPaths hinj hsound hentry hmem
  · obtain ⟨released, hget, hpath⟩ : ∃ released, (s.pruned config).get id = some released ∧
        released.dbPath = entry.dbPath := by simpa using hmem
    obtain ⟨hreleased, hid'⟩ := get_eq_some hget
    have hs := (evolves_pruned config s).sound hsound
    rw [hs.paths released hreleased, hs.paths entry hentry] at hpath
    have hne : entry.id ≠ id := by simpa using hid
    exact hne ((hinj hpath).symm.trans hid')

end

end

variable [DecidableEq τ]

theorem Goes.survives (h : Goes config s ok task s' call) (hinj : Function.Injective config.dbPath)
    (hsound : Sound config s) (htidy : s.tidy config ⟨[], task⟩ (.go ok) = true) :
    ∀ entry ∈ s'.sessions, Survives config s task call.paths entry := by
  intro entry hentry
  have hsame : Survives config s task [] entry ∨ entry ∉ s.sessions := by
    by_cases hmem : entry ∈ s.sessions
    · exact .inl (.inl ⟨entry, hmem, ⟨rfl, rfl, rfl⟩, not_mem_nil⟩)
    · exact .inr hmem
  cases h with
  | ensureFailed hnone | noteFailed hnone | unknown hnone =>
    have hempty : s.removedPaths config = [] := by simpa [tidy, hnone] using htidy
    rw [pruned_eq_self hempty] at hentry
    exact hsame.resolve_right (not_not_intro hentry)
  | ensured hsome | noted hsome => exact survives_ensured hinj hsound rfl hsome hentry fun _ => ⟨rfl, rfl, rfl⟩
  | informed | found | reserved | rolledBack => exact survives_update hinj hsound hentry fun _ => ⟨rfl, rfl, rfl⟩
  | cleaned | refused | absent => exact survives_pruned hinj hsound hentry ⟨rfl, rfl, rfl⟩
  | released => exact survives_released hinj hsound hentry
  | notPersisted | looked | counted | notCounted | notDropped | persisted | dropped =>
    exact hsame.resolve_right (not_not_intro hentry)

theorem writers_ingested {tables tables' : List (Table τ)} {incarnation rows : ℕ} {name : τ}
    {mode : ScratchpadIngestMode} (h : ingested tables incarnation name rows mode = some tables') :
    ∀ table ∈ tables', ∀ writer ∈ table.writers, writer = incarnation ∨ ∃ old ∈ tables, writer ∈ old.writers := by
  intro table htable writer hwriter
  unfold ingested at h
  cases mode with
  | create =>
    dsimp only at h
    split_ifs at h
    obtain rfl := Option.some.inj h
    rcases mem_append.mp htable with htable | htable
    · exact .inr ⟨table, htable, hwriter⟩
    · obtain rfl := mem_singleton.mp htable
      exact .inl (mem_singleton.mp hwriter)
  | append =>
    dsimp only at h
    split_ifs at h
    obtain rfl := Option.some.inj h
    obtain ⟨old, hold, rfl⟩ := mem_map.mp htable
    split_ifs at hwriter
    · rcases mem_append.mp hwriter with hwriter | hwriter
      · exact .inr ⟨old, hold, hwriter⟩
      · exact .inl (mem_singleton.mp hwriter)
    · exact .inr ⟨old, hold, hwriter⟩

end SessionState

open SessionState

section Runs

variable {config : ScratchpadSessionConfig ι π} {s s' : SessionState ι τ π} {task : Task ι τ π}
  {call call' : Call ι τ π} {calls rest : List (Call ι τ π)} {ok : Bool} {input : SectionInput}

variable {path : π} [DecidableEq τ]

theorem nothingInherited_persisted (hinj : Function.Injective config.dbPath)
    (hbase : Base config s (call :: rest)) {id : ι} {incarnation rows : ℕ} {name : τ}
    {mode : ScratchpadIngestMode} {tables : List (Table τ)} (hfile : call.task.file = some (id, path))
    (hlive : s.stillLive id incarnation = true)
    (htables : ingested (s.files path) incarnation name rows mode = some tables) (h : NothingInherited s) :
    NothingInherited (s.write path tables) := by
  obtain ⟨owner, howner, -, hinc, hpath⟩ := hbase.live_of_persisted hfile hlive
  intro entry hentry table htable writer hwriter
  by_cases hsame : entry.dbPath = path
  · have hown : entry = owner := by
      rw [← hpath, hbase.sound.paths entry hentry, hbase.sound.paths owner howner] at hsame
      exact hbase.sound.ids.eq hentry howner (hinj hsame)
    rw [hsame, files_write_self] at htable
    obtain rfl | ⟨old, hold, hmem⟩ := writers_ingested htables table htable writer hwriter
    · rw [hown, hinc]
    · exact h entry hentry old (hsame ▸ hold) writer hmem
  · rw [files_write_of_ne hsame] at htable
    exact h entry hentry table htable writer hwriter

omit [DecidableEq ι] [DecidableEq τ] in
theorem nothingInherited_subset {tables : List (Table τ)} (hsub : tables ⊆ s.files path)
    (h : NothingInherited s) : NothingInherited (s.write path tables) := by
  intro entry hentry table htable writer hwriter
  refine h entry hentry table ?_ writer hwriter
  by_cases hsame : entry.dbPath = path
  · rw [hsame, files_write_self] at htable
    exact hsame ▸ hsub htable
  · rwa [files_write_of_ne hsame] at htable

section

variable (hinj : Function.Injective config.dbPath) (hbase : Base config s (⟨[], task⟩ :: rest))
  (horder : s.orderly config (⟨[], task⟩ :: rest) ⟨[], task⟩ (.go ok) = true)
include hinj hbase horder

omit [DecidableEq τ] in
/-- What a section that creates a session finds: its file is not due for deletion, and is empty. -/
theorem unclaimed_of_orderly {id : ι} (htask : ensures task = some id) (hcreates : s.creates config id = true) :
    (∀ call ∈ rest, config.dbPath id ∉ call.paths) ∧ config.dbPath id ∉ s.removedPaths config ∧
      s.files (config.dbPath id) = [] := by
  have hclear : pending (⟨[], task⟩ :: rest) (config.dbPath id) = false ∧
      config.dbPath id ∉ s.removedPaths config := by
    have h := (Bool.and_eq_true_iff.mp horder).2
    cases task <;> simp only [ensures, Option.some.injEq, reduceCtorEq] at htask <;> subst htask <;>
      simpa [hcreates] using h
  have hpending : ¬ ∃ call ∈ ⟨[], task⟩ :: rest, config.dbPath id ∈ call.paths := by
    rw [← mem_pending, hclear.1]
    exact Bool.false_ne_true
  refine ⟨fun call hcall hmem => hpending ⟨call, mem_cons_of_mem _ hcall, hmem⟩, hclear.2, ?_⟩
  by_contra hfile
  have hnone : (s.pruned config).get id = none := by
    simp only [creates, Bool.and_eq_true, Option.isNone_iff_eq_none] at hcreates
    exact hcreates.1
  have hdue : pending (⟨s.removedPaths config, task⟩ :: rest) (config.dbPath id) = true :=
    hbase.pending_of_created hinj hnone hfile
  obtain ⟨owner, howner, hmem⟩ := mem_pending.mp hdue
  rcases mem_cons.mp howner with rfl | howner
  · exact hclear.2 hmem
  · exact hpending ⟨owner, mem_cons_of_mem _ howner, hmem⟩

theorem deletionsSafe_go (hgoes : Goes config s ok task s' call) (h : DeletionsSafe s (⟨[], task⟩ :: rest)) :
    DeletionsSafe s' (call :: rest) := by
  have htidy := (Bool.and_eq_true_iff.mp horder).1
  intro owner howner path hpath entry hentry heq
  obtain ⟨old, hold, hsame, hgone⟩ | ⟨hgone, id, htask, hcreates, hdb⟩ :=
    hgoes.survives hinj hbase.sound htidy entry hentry
  · rw [hsame.2.1] at heq
    rcases mem_cons.mp howner with rfl | howner
    · exact hgone (heq ▸ hpath)
    · exact h owner (mem_cons_of_mem _ howner) path hpath old hold heq
  · obtain ⟨hrest, hremoved, -⟩ := unclaimed_of_orderly hinj hbase horder htask hcreates
    rw [hdb] at heq
    rcases mem_cons.mp howner with rfl | howner
    · rw [hgone, ← heq] at hpath
      exact hremoved hpath
    · exact hrest owner howner (heq ▸ hpath)

theorem nothingInherited_go (hgoes : Goes config s ok task s' call) (h : NothingInherited s) : NothingInherited s' := by
  have htidy := (Bool.and_eq_true_iff.mp horder).1
  obtain hev | ⟨hok, hwrites⟩ := hgoes.evolves hbase.sound htidy
  · intro entry hentry table htable writer hwriter
    rw [hev.files] at htable
    obtain ⟨old, hold, hsame, -⟩ | ⟨-, id, htask, hcreates, hdb⟩ :=
      hgoes.survives hinj hbase.sound htidy entry hentry
    · rw [hsame.2.1] at htable
      rw [hsame.2.2]
      exact h old hold table htable writer hwriter
    · obtain ⟨-, -, hempty⟩ := unclaimed_of_orderly hinj hbase horder htask hcreates
      rw [hdb, hempty] at htable
      simp at htable
  · cases hgoes with
    | persisted htables =>
      exact nothingInherited_persisted hinj hbase rfl (by simpa [tidy] using htidy) htables h
    | dropped => exact nothingInherited_subset (filter_sublist.subset) h
    | notPersisted | notDropped => cases hok
    | _ => cases hwrites

end

omit [DecidableEq ι] [DecidableEq τ] in
theorem deletionsSafe_removed {j : ℕ} (h : DeletionsSafe s (call :: rest)) :
    DeletionsSafe (s.write path []) ({ call with paths := call.paths.eraseIdx j } :: rest) := by
  intro owner howner other hother
  rcases mem_cons.mp howner with rfl | howner
  · exact h call mem_cons_self other (mem_of_mem_eraseIdx hother)
  · exact h owner (mem_cons_of_mem _ howner) other hother

theorem safe_advance (hinj : Function.Injective config.dbPath) (hbase : Base config s (call :: rest))
    (horder : s.orderly config (call :: rest) call input = true) (hadv : s.advance config call input = some (s', call'))
    (h : DeletionsSafe s (call :: rest) ∧ NothingInherited s) :
    DeletionsSafe s' (call' :: rest) ∧ NothingInherited s' := by
  cases input with
  | remove j ok =>
    obtain ⟨path, hpath, heq⟩ := Option.map_eq_some_iff.mp hadv
    obtain rfl : ok = true := (Bool.and_eq_true_iff.mp horder).1
    cases heq
    exact ⟨deletionsSafe_removed h.1, nothingInherited_subset (nil_subset _) h.2⟩
  | go ok =>
    obtain ⟨task, rfl, hgoes⟩ := goes_of_advance hadv
    exact ⟨deletionsSafe_go hinj hbase horder hgoes h.1, nothingInherited_go hinj hbase horder hgoes h.2⟩

omit [DecidableEq τ] in
theorem orderly_perm {calls' : List (Call ι τ π)} (hperm : calls.Perm calls')
    (h : s.orderly config calls call input = true) : s.orderly config calls' call input = true := by
  unfold orderly at h ⊢
  simpa only [pending_perm hperm] using h

end Runs

variable [DecidableEq τ] in
/-- **Cleanup and new incarnations.**  In every run whose sections are orderly no deletion hits the file of a
live session, and a session finds no table of an earlier incarnation. -/
theorem cleanup_safe (config : ScratchpadSessionConfig ι π) (hinj : Function.Injective config.dbPath) (clock : ℕ)
    (t : Pool (SessionState ι τ π) (Call ι τ π))
    (h : (manager τ config).Run (fun s calls call input => s.orderly config calls call input = true)
      (start ι τ π clock) t) : DeletionsSafe t.shared t.calls ∧ NothingInherited t.shared := by
  have hbase : ∀ t, (manager τ config).Run (fun s calls call input => s.orderly config calls call input = true)
      (start ι τ π clock) t → Base config t.shared t.calls :=
    fun t h => base_of_run (h.mono fun horder => (Bool.and_eq_true_iff.mp horder).1)
  refine Machine.Run.induct (J := fun s calls => Base config s calls)
    (I := fun s calls => DeletionsSafe s calls ∧ NothingInherited s) hbase Base.perm orderly_perm ?_ ?_ ?_ ?_ ?_ h
  · rintro s calls calls' hperm ⟨hsafe, hclean⟩
    exact ⟨fun call hcall => hsafe call (hperm.mem_iff.mpr hcall), hclean⟩
  · rintro s elapsed s' calls hstep - hsafe
    obtain rfl := Option.some.inj hstep
    exact hsafe
  · rintro s calls operation - ⟨hsafe, hclean⟩
    refine ⟨?_, hclean⟩
    intro call hcall path hpath
    rcases mem_cons.mp hcall with rfl | hcall
    · cases hpath
    · exact hsafe call hcall path hpath
  · rintro s call input s' call' rest hstep horder hbase hsafe
    exact safe_advance hinj hbase horder hstep hsafe
  · constructor
    · intro call hcall
      cases hcall
    · intro entry hentry
      cases hentry

/-- A session gets a table, expires, is cleaned up, and is opened again. -/
def reopened : List (Event ℕ (Operation ℕ ℕ) SectionInput) :=
  [.enter (.openSession 0), .advance 0 (.go true),
    .enter (.ingestRows 0 7 5 .create), .advance 1 (.go true), .advance 1 (.go true),
    .env 10, .enter .cleanupExpired, .advance 2 (.go true), .advance 2 (.remove 0 true),
    .enter (.openSession 0), .advance 3 (.go true)]

theorem cleanup_safe_reopened : ∃ t, (manager ℕ smallConfig).Run
    (fun s calls call input => s.orderly smallConfig calls call input = true) (start ℕ ℕ ℕ 0) t ∧
      t.shared.sessions = [⟨0, 0, 10, 0, 0, 1⟩] ∧ DeletionsSafe t.shared t.calls ∧ NothingInherited t.shared := by
  obtain ⟨t, hrun, hsessions⟩ := (manager ℕ smallConfig).exists_run_of_exec (start ℕ ℕ ℕ 0) reopened
    (SessionState.orderly smallConfig) (p := fun t => t.shared.sessions = [⟨0, 0, 10, 0, 0, 1⟩]) (by decide)
  exact ⟨t, hrun, hsessions, cleanup_safe smallConfig Function.injective_id 0 t hrun⟩

/-- An ingest into an expired session prunes it and returns early: its file is forgotten, and the next
incarnation finds the table.  Opening an expired session makes the new entry and then deletes its file. -/
theorem cleanup_not_safe : (∃ t, (manager ℕ smallConfig).Reaches (start ℕ ℕ ℕ 0) t ∧ ¬ NothingInherited t.shared) ∧
      ∃ t, (manager ℕ smallConfig).Reaches (start ℕ ℕ ℕ 0) t ∧ ¬ DeletionsSafe t.shared t.calls := by
  constructor
  · exact Machine.exists_reaches_of_exec _ _
      [.enter (.openSession 0), .advance 0 (.go true),
        .enter (.ingestRows 0 7 5 .create), .advance 1 (.go true), .advance 1 (.go true),
        .env 10, .enter (.ingestRows 0 7 5 .append), .advance 2 (.go true),
        .enter (.openSession 0), .advance 3 (.go true)] (by decide)
  · exact Machine.exists_reaches_of_exec _ _
      [.enter (.openSession 0), .advance 0 (.go true), .env 10,
        .enter (.openSession 0), .advance 1 (.go true)] (by decide)

end McpToolkit.Scratchpad

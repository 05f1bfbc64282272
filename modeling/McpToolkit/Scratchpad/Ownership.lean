import Mathlib.Data.List.Nodup
import McpToolkit.Scratchpad.Sessions

/-!
# McpToolkit.Scratchpad.Ownership — whose file is it

What the sections of the manager do to the sessions, and which of them keep the files in order: a file with
tables belongs to a live session, or some call is about to delete it (`Base.orphan`).

`tidy` says what that takes: files are deleted when asked to, a call that returns early has pruned nothing
(the paths it pruned are forgotten), and an ingest writes only while the session it reserved in is live.
-/

namespace McpToolkit.Scratchpad

open List
open Lib
open Lib.Word (saturatingAdd)

variable {ι τ π : Type} [DecidableEq ι] [DecidableEq π]

/-- Some call is about to delete the file. -/
def pending (calls : List (Call ι τ π)) (path : π) : Bool := calls.any fun call => call.paths.contains path

omit [DecidableEq ι] in
theorem mem_pending {calls : List (Call ι τ π)} {path : π} :
    pending calls path = true ↔ ∃ call ∈ calls, path ∈ call.paths := by
  simp [pending]

omit [DecidableEq ι] in
theorem pending_perm {calls calls' : List (Call ι τ π)} (h : calls.Perm calls') (path : π) :
    pending calls path = pending calls' path := by
  rw [Bool.eq_iff_iff, mem_pending, mem_pending]
  simp only [h.mem_iff]

/-- The session that a call began with, and the file it works on. -/
def Task.subject : Task ι τ π → Option (ι × ℕ)
  | .persistIngestTable id incarnation _ _ _ _ | .rollbackIngestCapacity id incarnation _ _
  | .tableExists id incarnation _ _ _ | .tableRowCount id incarnation _ _
  | .dropTable id incarnation _ _ _ | .noteTableDropped id incarnation _ => some (id, incarnation)
  | _ => none

def Task.file : Task ι τ π → Option (ι × π)
  | .persistIngestTable id _ path _ _ _ | .tableExists id _ path _ _ | .tableRowCount id _ path _
  | .dropTable id _ path _ _ => some (id, path)
  | _ => none

/-- The task writes to a database, if it works. -/
def Task.writes : Task ι τ π → Bool
  | .persistIngestTable _ _ _ _ _ _ | .dropTable _ _ _ _ _ => true
  | _ => false

namespace SessionState

variable {config : ScratchpadSessionConfig ι π} {s s' s'' : SessionState ι τ π} {id : ι}

def stillLive (s : SessionState ι τ π) (id : ι) (incarnation : ℕ) : Bool :=
  (s.get id).any fun entry => entry.incarnation == incarnation

def notReplaced (s : SessionState ι τ π) (id : ι) (incarnation : ℕ) : Bool :=
  (s.get id).all fun entry => entry.incarnation == incarnation

/-- What keeps the files in order. -/
def tidy (config : ScratchpadSessionConfig ι π) (s : SessionState ι τ π) (call : Call ι τ π) :
    SectionInput → Bool
  | .remove _ ok => ok
  | .go ok =>
    match call.task with
    | .ensureSession id | .noteTableDropped id _ _ =>
      ((s.pruned config).sessionEntryMut config id).isSome || (s.removedPaths config).isEmpty
    | .reserveIngestCapacity id _ _ _ =>
      ((s.pruned config).get id).isSome || (s.removedPaths config).isEmpty
    | .persistIngestTable id incarnation _ _ _ _ => !ok || s.stillLive id incarnation
    | _ => true

variable {entry : SessionEntry ι π} {path : π}

omit [DecidableEq ι] in
theorem files_write_self {tables : List (Table τ)} : (s.write path tables).files path = tables :=
  Function.update_self _ _ _

omit [DecidableEq ι] in
theorem files_write_of_ne {other : π} {tables : List (Table τ)} (h : other ≠ path) :
    (s.write path tables).files other = s.files other :=
  Function.update_of_ne h _ _

/-! ### Sessions -/

omit [DecidableEq π] in
theorem get_eq_some (h : s.get id = some entry) : entry ∈ s.sessions ∧ entry.id = id :=
  ⟨mem_of_find?_eq_some h, by simpa using find?_some h⟩

omit [DecidableEq π] in
theorem get_eq_none (h : s.get id = none) : ∀ entry ∈ s.sessions, entry.id ≠ id := by
  intro entry hentry
  simpa using find?_eq_none.mp h entry hentry

/-- The sessions have different identifiers. -/
def Distinct (sessions : List (SessionEntry ι π)) : Prop := sessions.Pairwise fun e e' => e.id ≠ e'.id

section

omit [DecidableEq ι] [DecidableEq π]

theorem Distinct.eq {sessions : List (SessionEntry ι π)} (h : Distinct sessions) {e e' : SessionEntry ι π}
    (he : e ∈ sessions) (he' : e' ∈ sessions) (hid : e.id = e'.id) : e = e' :=
  inj_on_of_nodup_map (pairwise_map.mpr h) he he' hid

theorem mem_pruned : entry ∈ (s.pruned config).sessions ↔
      entry ∈ s.sessions ∧ entry.expired config.sessionTtl s.clock = false := by
  simp [pruned]

theorem mem_removedPaths : path ∈ s.removedPaths config ↔
      ∃ entry ∈ s.sessions, entry.expired config.sessionTtl s.clock = true ∧ entry.dbPath = path := by
  simp [removedPaths, and_assoc]

theorem pruned_eq_self (h : s.removedPaths config = []) : s.pruned config = s := by
  have hnone : ∀ entry ∈ s.sessions, entry.expired config.sessionTtl s.clock = false := by
    intro entry hentry
    refine Bool.eq_false_iff.mpr ?_
    intro hexpired
    have hmem := mem_removedPaths.mpr ⟨entry, hentry, hexpired, rfl⟩
    rw [h] at hmem
    simp at hmem
  have hfilter : (s.sessions.filter fun entry => !entry.expired config.sessionTtl s.clock) = s.sessions :=
    filter_eq_self.mpr fun entry hentry => by rw [hnone entry hentry]; rfl
  rw [pruned, hfilter]

end

/-- Identifiers, paths and incarnations of the sessions. -/
structure Sound (config : ScratchpadSessionConfig ι π) (s : SessionState ι τ π) : Prop where
  ids : Distinct s.sessions
  paths : ∀ entry ∈ s.sessions, entry.dbPath = config.dbPath entry.id
  fresh : ∀ entry ∈ s.sessions, entry.incarnation < s.incarnations
  unique : ∀ e ∈ s.sessions, ∀ e' ∈ s.sessions, e.incarnation = e'.incarnation → e.id = e'.id

omit [DecidableEq ι] [DecidableEq π] in
theorem Sound.sublist (h : Sound config s) {sessions : List (SessionEntry ι π)}
    (hsub : sessions.Sublist s.sessions) : Sound config { s with sessions := sessions } where
  ids := h.ids.sublist hsub
  paths := fun entry hentry => h.paths entry (hsub.subset hentry)
  fresh := fun entry hentry => h.fresh entry (hsub.subset hentry)
  unique := fun e he e' he' => h.unique e (hsub.subset he) e' (hsub.subset he')

omit [DecidableEq ι] in
theorem Sound.write (h : Sound config s) (path : π) (tables : List (Table τ)) : Sound config (s.write path tables) :=
  ⟨h.ids, h.paths, h.fresh, h.unique⟩

/-- `entry` is the session `old`, whatever its usage. -/
def Same (old entry : SessionEntry ι π) : Prop :=
  entry.id = old.id ∧ entry.dbPath = old.dbPath ∧ entry.incarnation = old.incarnation

/-- What a section does to the sessions, apart from their usage: it keeps some, may add a new one, and
accounts for the files of those that it removed in `gone`. -/
structure Evolves (config : ScratchpadSessionConfig ι π) (s s' : SessionState ι τ π) (gone : List π) : Prop where
  files : s'.files = s.files
  clock : s'.clock = s.clock
  later : s.incarnations ≤ s'.incarnations
  sound : Sound config s → Sound config s'
  origin : ∀ entry ∈ s'.sessions, (∃ old ∈ s.sessions, Same old entry) ∨ s.incarnations ≤ entry.incarnation
  kept : ∀ old ∈ s.sessions, (∃ entry ∈ s'.sessions, entry.dbPath = old.dbPath) ∨ old.dbPath ∈ gone

section

omit [DecidableEq ι] [DecidableEq π]

theorem Evolves.refl : Evolves config s s [] :=
  ⟨rfl, rfl, le_rfl, id, fun entry h => .inl ⟨entry, h, rfl, rfl, rfl⟩, fun old h => .inl ⟨old, h, rfl⟩⟩

theorem Evolves.trans {gone gone' : List π} (h : Evolves config s s' gone) (h' : Evolves config s' s'' gone') :
    Evolves config s s'' (gone ++ gone') where
  files := h'.files.trans h.files
  clock := h'.clock.trans h.clock
  later := h.later.trans h'.later
  sound := fun hsound => h'.sound (h.sound hsound)
  origin := by
    intro entry hentry
    obtain ⟨middle, hmiddle, hid, hpath, hinc⟩ | hnew := h'.origin entry hentry
    · obtain ⟨old, hold, hid', hpath', hinc'⟩ | hnew := h.origin middle hmiddle
      · exact .inl ⟨old, hold, hid.trans hid', hpath.trans hpath', hinc.trans hinc'⟩
      · exact .inr (hinc ▸ hnew)
    · exact .inr (h.later.trans hnew)
  kept := by
    intro old hold
    obtain ⟨middle, hmiddle, hpath⟩ | hgone := h.kept old hold
    · obtain ⟨entry, hentry, hpath'⟩ | hgone := h'.kept middle hmiddle
      · exact .inl ⟨entry, hentry, hpath'.trans hpath⟩
      · exact .inr (mem_append_right _ (hpath ▸ hgone))
    · exact .inr (mem_append_left _ hgone)

theorem Evolves.andThen {gone : List π} (h : Evolves config s s' gone) (h' : Evolves config s' s'' []) :
    Evolves config s s'' gone := append_nil gone ▸ h.trans h'

theorem evolves_pruned (config : ScratchpadSessionConfig ι π) (s : SessionState ι τ π) :
    Evolves config s (s.pruned config) (s.removedPaths config) where
  files := rfl
  clock := rfl
  later := le_rfl
  sound := fun h => h.sublist filter_sublist
  origin := fun entry h => .inl ⟨entry, (mem_pruned.mp h).1, rfl, rfl, rfl⟩
  kept := by
    intro old hold
    cases hexpired : old.expired config.sessionTtl s.clock with
    | false => exact .inl ⟨old, mem_pruned.mpr ⟨hold, hexpired⟩, rfl⟩
    | true => exact .inr (mem_removedPaths.mpr ⟨old, hold, hexpired, rfl⟩)

end

omit [DecidableEq π] in
theorem mem_update {f : SessionEntry ι π → SessionEntry ι π} : entry ∈ (s.update id f).sessions ↔
      ∃ old ∈ s.sessions, (if old.id = id then f old else old) = entry := mem_map

omit [DecidableEq π] in
theorem evolves_update {f : SessionEntry ι π → SessionEntry ι π} (hf : ∀ entry, Same entry (f entry)) :
    Evolves config s (s.update id f) [] := by
  have hsame : ∀ old : SessionEntry ι π, Same old (if old.id = id then f old else old) := by
    intro old
    split_ifs
    · exact hf old
    · exact ⟨rfl, rfl, rfl⟩
  constructor
  case files | clock => rfl
  case later => exact le_rfl
  case sound =>
    intro h
    constructor
    · refine pairwise_map.mpr (h.ids.imp ?_)
      intro e e' hne
      rw [(hsame e).1, (hsame e').1]
      exact hne
    · intro entry hentry
      obtain ⟨old, hold, rfl⟩ := mem_update.mp hentry
      rw [(hsame old).1, (hsame old).2.1]
      exact h.paths old hold
    · intro entry hentry
      obtain ⟨old, hold, rfl⟩ := mem_update.mp hentry
      rw [(hsame old).2.2]
      exact h.fresh old hold
    · intro e he e' he' hinc
      obtain ⟨old, hold, rfl⟩ := mem_update.mp he
      obtain ⟨old', hold', rfl⟩ := mem_update.mp he'
      rw [(hsame old).2.2, (hsame old').2.2] at hinc
      rw [(hsame old).1, (hsame old').1]
      exact h.unique old hold old' hold' hinc
  case origin =>
    intro entry hentry
    obtain ⟨old, hold, rfl⟩ := mem_update.mp hentry
    exact .inl ⟨old, hold, hsame old⟩
  case kept =>
    intro old hold
    exact .inl ⟨_, mem_update.mpr ⟨old, hold, rfl⟩, (hsame old).2.1⟩

omit [DecidableEq ι] [DecidableEq π] in
theorem mem_create : entry ∈ (s.create config id).sessions ↔
      entry ∈ s.sessions ∨ entry = ⟨id, config.dbPath id, s.clock, 0, 0, s.incarnations⟩ := by
  simp [create]

section

omit [DecidableEq π]

theorem evolves_create (h : s.get id = none) : Evolves config s (s.create config id) [] where
  files := rfl
  clock := rfl
  later := Nat.le_succ _
  sound := by
    intro hs
    constructor
    · refine pairwise_append.mpr ⟨hs.ids, pairwise_singleton _ _, ?_⟩
      intro entry hentry new hnew
      obtain rfl := mem_singleton.mp hnew
      exact get_eq_none h entry hentry
    · intro entry hentry
      obtain hold | rfl := mem_create.mp hentry
      · exact hs.paths entry hold
      · rfl
    · intro entry hentry
      obtain hold | rfl := mem_create.mp hentry
      · exact Nat.lt_succ_of_lt (hs.fresh entry hold)
      · exact Nat.lt_succ_self _
    · intro e he e' he' hinc
      obtain hold | rfl := mem_create.mp he <;> obtain hold' | rfl := mem_create.mp he'
      · exact hs.unique e hold e' hold' hinc
      · exact absurd hinc (hs.fresh e hold).ne
      · exact absurd hinc.symm (hs.fresh e' hold').ne
      · rfl
  origin := by
    intro entry hentry
    obtain hold | rfl := mem_create.mp hentry
    · exact .inl ⟨entry, hold, rfl, rfl, rfl⟩
    · exact .inr le_rfl
  kept := fun old hold => .inl ⟨old, mem_append_left _ hold, rfl⟩

theorem sessionEntryMut_eq_some (h : s.sessionEntryMut config id = some s') :
    (∃ entry, s.get id = some entry) ∧ s' = s ∨ s.get id = none ∧ s' = s.create config id := by
  unfold sessionEntryMut at h
  split_ifs at h with hfound
  · exact .inl ⟨Option.isSome_iff_exists.mp hfound, (Option.some.inj h).symm⟩
  · exact .inr ⟨Option.not_isSome_iff_eq_none.mp hfound, (Option.some.inj h).symm⟩

theorem evolves_sessionEntryMut (h : s.sessionEntryMut config id = some s') : Evolves config s s' [] := by
  obtain ⟨-, rfl⟩ | ⟨hnone, rfl⟩ := sessionEntryMut_eq_some h
  · exact .refl
  · exact evolves_create hnone

theorem evolves_remove (hids : Distinct s.sessions) :
    Evolves config s (s.remove id) ((s.get id).map SessionEntry.dbPath).toList where
  files := rfl
  clock := rfl
  later := le_rfl
  sound := fun h => h.sublist filter_sublist
  origin := fun entry h => .inl ⟨entry, mem_of_mem_filter h, rfl, rfl, rfl⟩
  kept := by
    intro old hold
    by_cases hid : old.id = id
    · cases hget : s.get id with
      | none => exact absurd hid (get_eq_none hget old hold)
      | some entry =>
        obtain ⟨hentry, hid'⟩ := get_eq_some hget
        obtain rfl := hids.eq hentry hold (hid'.trans hid.symm)
        exact .inr (by simp)
    · exact .inl ⟨old, mem_filter.mpr ⟨hold, by simpa using hid⟩, rfl⟩

end

variable [DecidableEq τ]

/-- Every section of a call without a file to delete. -/
inductive Goes (config : ScratchpadSessionConfig ι π) (s : SessionState ι τ π) :
    Bool → Task ι τ π → SessionState ι τ π → Call ι τ π → Prop
  | ensureFailed {ok : Bool} {id : ι} : (s.pruned config).sessionEntryMut config id = none →
      Goes config s ok (.ensureSession id) (s.pruned config) ⟨[], .returned⟩
  | ensured {ok : Bool} {id : ι} {s' : SessionState ι τ π} :
      (s.pruned config).sessionEntryMut config id = some s' →
      Goes config s ok (.ensureSession id) (s'.touch id) ⟨s.removedPaths config, .returned⟩
  | informed {ok : Bool} {id : ι} :
      Goes config s ok (.sessionInfo id) ((s.pruned config).touch id) ⟨s.removedPaths config, .returned⟩
  | cleaned {ok : Bool} :
      Goes config s ok .cleanupExpired (s.pruned config) ⟨s.removedPaths config, .returned⟩
  | released {ok : Bool} {id : ι} :
      Goes config s ok (.releaseSession id) ((s.pruned config).remove id)
        ⟨s.removedPaths config ++ (((s.pruned config).get id).map SessionEntry.dbPath).toList, .returned⟩
  | unknown {ok : Bool} {id : ι} {table : τ} {rows : ℕ} {mode : ScratchpadIngestMode} :
      (s.pruned config).get id = none →
      Goes config s ok (.reserveIngestCapacity id table rows mode) (s.pruned config) ⟨[], .returned⟩
  | refused {ok : Bool} {id : ι} {table : τ} {rows : ℕ} {mode : ScratchpadIngestMode} :
      Goes config s ok (.reserveIngestCapacity id table rows mode) (s.pruned config)
        ⟨s.removedPaths config, .returned⟩
  | reserved {ok : Bool} {id : ι} {table : τ} {rows : ℕ} {mode : ScratchpadIngestMode}
      {entry : SessionEntry ι π} : (s.pruned config).get id = some entry →
      ¬ (mode = .create ∧ config.maxTablesPerSession ≤ entry.tablesUsed) →
      saturatingAdd entry.rowsUsed rows ≤ config.maxRowsPerSession →
      Goes config s ok (.reserveIngestCapacity id table rows mode)
        ((s.pruned config).update id (SessionEntry.reserve s.clock rows mode))
        ⟨s.removedPaths config, .persistIngestTable id entry.incarnation entry.dbPath table rows mode⟩
  | persisted {id : ι} {incarnation : ℕ} {path : π} {table : τ} {rows : ℕ} {mode : ScratchpadIngestMode}
      {tables : List (Table τ)} : ingested (s.files path) incarnation table rows mode = some tables →
      Goes config s true (.persistIngestTable id incarnation path table rows mode) (s.write path tables)
        ⟨[], .returned⟩
  | notPersisted {id : ι} {incarnation : ℕ} {path : π} {table : τ} {rows : ℕ} {mode : ScratchpadIngestMode} :
      Goes config s false (.persistIngestTable id incarnation path table rows mode) s
        ⟨[], .rollbackIngestCapacity id incarnation rows mode⟩
  | rolledBack {ok : Bool} {id : ι} {incarnation rows : ℕ} {mode : ScratchpadIngestMode} :
      Goes config s ok (.rollbackIngestCapacity id incarnation rows mode)
        ((s.pruned config).update id (SessionEntry.giveBack s.clock rows mode))
        ⟨s.removedPaths config, .returned⟩
  | absent {ok : Bool} {id : ι} {table : τ} {ifExists : Bool} :
      Goes config s ok (.existingSessionDbPath id table ifExists) (s.pruned config)
        ⟨s.removedPaths config, .returned⟩
  | found {ok : Bool} {id : ι} {table : τ} {ifExists : Bool} {entry : SessionEntry ι π} :
      (s.pruned config).get id = some entry →
      Goes config s ok (.existingSessionDbPath id table ifExists) ((s.pruned config).touch id)
        ⟨s.removedPaths config, .tableExists id entry.incarnation entry.dbPath table ifExists⟩
  | looked {ok : Bool} {id : ι} {incarnation : ℕ} {path : π} {table : τ} {ifExists : Bool} (next : Task ι τ π) :
      next = .tableRowCount id incarnation path table ∨ next = .sessionInfo id ∨ next = .returned →
      Goes config s ok (.tableExists id incarnation path table ifExists) s ⟨[], next⟩
  | counted {id : ι} {incarnation : ℕ} {path : π} {table : τ} {t : Table τ} :
      ((s.files path).find? fun t => decide (t.name = table)) = some t →
      Goes config s true (.tableRowCount id incarnation path table) s
        ⟨[], .dropTable id incarnation path table t.rows⟩
  | notCounted {ok : Bool} {id : ι} {incarnation : ℕ} {path : π} {table : τ} :
      Goes config s ok (.tableRowCount id incarnation path table) s ⟨[], .returned⟩
  | dropped {id : ι} {incarnation : ℕ} {path : π} {table : τ} {rowsRemoved : ℕ} :
      ((s.files path).any fun t => decide (t.name = table)) = true →
      Goes config s true (.dropTable id incarnation path table rowsRemoved)
        (s.write path ((s.files path).filter fun t => decide (t.name ≠ table)))
        ⟨[], .noteTableDropped id incarnation rowsRemoved⟩
  | notDropped {id : ι} {incarnation : ℕ} {path : π} {table : τ} {rowsRemoved : ℕ} :
      Goes config s false (.dropTable id incarnation path table rowsRemoved) s ⟨[], .returned⟩
  | noteFailed {ok : Bool} {id : ι} {incarnation rowsRemoved : ℕ} :
      (s.pruned config).sessionEntryMut config id = none →
      Goes config s ok (.noteTableDropped id incarnation rowsRemoved) (s.pruned config) ⟨[], .returned⟩
  | noted {ok : Bool} {id : ι} {incarnation rowsRemoved : ℕ} {s' : SessionState ι τ π} :
      (s.pruned config).sessionEntryMut config id = some s' →
      Goes config s ok (.noteTableDropped id incarnation rowsRemoved)
        (s'.update id (SessionEntry.giveBack s.clock rowsRemoved .create)) ⟨s.removedPaths config, .returned⟩

theorem goes_reserve (config : ScratchpadSessionConfig ι π) (s : SessionState ι τ π) (ok : Bool) (id : ι)
    (table : τ) (rows : ℕ) (mode : ScratchpadIngestMode) : Goes config s ok (.reserveIngestCapacity id table rows mode)
      (s.reserveIngestCapacity config id table rows mode).1 (s.reserveIngestCapacity config id table rows mode).2 := by
  unfold reserveIngestCapacity
  split
  case h_1 hget => exact .unknown hget
  case h_2 entry hget =>
    split_ifs with htables hrows
    · exact .refused
    · exact .refused
    · exact .reserved hget htables (not_lt.mp hrows)

theorem goes_of_go {ok : Bool} {task : Task ι τ π} {call : Call ι τ π}
    (h : s.go config ok task = some (s', call)) : Goes config s ok task s' call := by
  cases task with
  | ensureSession id =>
    unfold go at h
    dsimp only at h
    split at h
    case h_1 hnone => cases h; exact .ensureFailed hnone
    case h_2 hsome => cases h; exact .ensured hsome
  | sessionInfo id => cases h; exact .informed
  | cleanupExpired => cases h; exact .cleaned
  | releaseSession id => cases h; exact .released
  | reserveIngestCapacity id table rows mode =>
    have hpair := Option.some.inj h
    have hgoes := goes_reserve config s ok id table rows mode
    rw [hpair] at hgoes
    exact hgoes
  | persistIngestTable id incarnation path table rows mode =>
    unfold go at h
    split_ifs at h with hok
    · obtain ⟨tables, htables, heq⟩ := Option.map_eq_some_iff.mp h
      cases heq
      subst hok
      exact .persisted htables
    · cases h
      rw [Bool.not_eq_true] at hok
      subst hok
      exact .notPersisted
  | rollbackIngestCapacity id incarnation rows mode => cases h; exact .rolledBack
  | existingSessionDbPath id table ifExists =>
    unfold go at h
    dsimp only at h
    split at h
    case h_1 => cases h; exact .absent
    case h_2 hget => cases h; exact .found hget
  | tableExists id incarnation path table ifExists =>
    cases h
    refine .looked _ ?_
    split_ifs <;> simp
  | tableRowCount id incarnation path table =>
    unfold go at h
    dsimp only at h
    split at h
    case h_1 => cases h; exact .notCounted
    case h_2 t ht =>
      cases h
      split_ifs with hok
      · subst hok; exact .counted ht
      · exact .notCounted
  | dropTable id incarnation path table rowsRemoved =>
    unfold go at h
    dsimp only at h
    split_ifs at h with hok hfound
    · cases h; subst hok; exact .dropped hfound
    · cases h
      rw [Bool.not_eq_true] at hok
      subst hok
      exact .notDropped
  | noteTableDropped id incarnation rowsRemoved =>
    unfold go at h
    dsimp only at h
    split at h
    case h_1 hnone => cases h; exact .noteFailed hnone
    case h_2 hsome => cases h; exact .noted hsome
  | returned => cases h

theorem goes_of_advance {ok : Bool} {call call' : Call ι τ π} (h : s.advance config call (.go ok) = some (s', call')) :
    ∃ task, call = ⟨[], task⟩ ∧ Goes config s ok task s' call' := by
  obtain ⟨hempty, h⟩ := Option.ite_none_right_eq_some.mp h
  exact ⟨call.task, by rw [← isEmpty_iff.mp hempty], goes_of_go h⟩

theorem Goes.evolves {ok : Bool} {task : Task ι τ π} {call : Call ι τ π} (h : Goes config s ok task s' call)
    (hsound : Sound config s) (htidy : s.tidy config ⟨[], task⟩ (.go ok) = true) :
    Evolves config s s' call.paths ∨ ok = true ∧ task.writes = true := by
  have hpruned := evolves_pruned config s
  cases h with
  | ensureFailed hnone | noteFailed hnone | unknown hnone =>
    have hempty : s.removedPaths config = [] := by simpa [tidy, hnone] using htidy
    rw [pruned_eq_self hempty]
    exact .inl .refl
  | ensured hsome | noted hsome =>
    exact .inl ((hpruned.andThen (evolves_sessionEntryMut hsome)).andThen (evolves_update fun _ => ⟨rfl, rfl, rfl⟩))
  | informed | found | reserved | rolledBack => exact .inl (hpruned.andThen (evolves_update fun _ => ⟨rfl, rfl, rfl⟩))
  | cleaned | refused | absent => exact .inl hpruned
  | released => exact .inl (hpruned.trans (evolves_remove (hpruned.sound hsound).ids))
  | notPersisted | looked | counted | notCounted | notDropped => exact .inl .refl
  | persisted | dropped => exact .inr ⟨rfl, rfl⟩

end SessionState

/-! ### The invariant -/

/-- Calls and files are in order. -/
structure Base (config : ScratchpadSessionConfig ι π) (s : SessionState ι τ π) (calls : List (Call ι τ π)) :
    Prop where
  sound : SessionState.Sound config s
  subjects : ∀ call ∈ calls, ∀ id incarnation, call.task.subject = some (id, incarnation) →
    incarnation < s.incarnations ∧ ∀ entry ∈ s.sessions, entry.incarnation = incarnation → entry.id = id
  targets : ∀ call ∈ calls, ∀ id path, call.task.file = some (id, path) → path = config.dbPath id
  orphan : ∀ path, s.files path ≠ [] →
    (∃ entry ∈ s.sessions, entry.dbPath = path) ∨ ∃ call ∈ calls, path ∈ call.paths

namespace Base

open SessionState

variable {config : ScratchpadSessionConfig ι π} {s s' : SessionState ι τ π} {calls rest : List (Call ι τ π)}
  {call : Call ι τ π} {task task' : Task ι τ π} {gone : List π}

omit [DecidableEq ι] [DecidableEq π] in
theorem perm {calls' : List (Call ι τ π)} (hperm : calls.Perm calls') (h : Base config s calls) :
    Base config s calls' where
  sound := h.sound
  subjects := fun call hcall => h.subjects call (hperm.mem_iff.mpr hcall)
  targets := fun call hcall => h.targets call (hperm.mem_iff.mpr hcall)
  orphan := by
    intro path hfile
    obtain hlive | ⟨call, hcall, hpath⟩ := h.orphan path hfile
    · exact .inl hlive
    · exact .inr ⟨call, hperm.mem_iff.mp hcall, hpath⟩

/-- What the new task of a call must be about. -/
structure Fits (config : ScratchpadSessionConfig ι π) (s : SessionState ι τ π) (task : Task ι τ π) : Prop where
  subject : ∀ id incarnation, task.subject = some (id, incarnation) →
    incarnation < s.incarnations ∧ ∀ entry ∈ s.sessions, entry.incarnation = incarnation → entry.id = id
  file : ∀ id path, task.file = some (id, path) → path = config.dbPath id

section

omit [DecidableEq ι] [DecidableEq π]

theorem fits_of_none (hsubject : task.subject = none) (hfile : task.file = none) : Fits config s task where
  subject := by
    intro id incarnation h
    rw [hsubject] at h
    cases h
  file := by
    intro id path h
    rw [hfile] at h
    cases h

theorem fits_self (h : Base config s (call :: rest)) : Fits config s call.task :=
  ⟨h.subjects call mem_cons_self, h.targets call mem_cons_self⟩

theorem Fits.next (h : Fits config s task)
    (hsubject : ∀ id incarnation, task'.subject = some (id, incarnation) → task.subject = some (id, incarnation))
    (hfile : ∀ id path, task'.file = some (id, path) → task.file = some (id, path)) : Fits config s task' :=
  ⟨fun id incarnation hs => h.subject id incarnation (hsubject id incarnation hs),
    fun id path hf => h.file id path (hfile id path hf)⟩

end

variable {id : ι} {path : π} {incarnation : ℕ}

section

omit [DecidableEq π]

theorem subject_evolves (hev : Evolves config s s' gone)
    (h : incarnation < s.incarnations ∧ ∀ entry ∈ s.sessions, entry.incarnation = incarnation → entry.id = id) :
    incarnation < s'.incarnations ∧ ∀ entry ∈ s'.sessions, entry.incarnation = incarnation → entry.id = id := by
  refine ⟨lt_of_lt_of_le h.1 hev.later, ?_⟩
  intro entry hentry hinc
  obtain ⟨old, hold, hid, -, hinc'⟩ | hnew := hev.origin entry hentry
  · rw [hid]
    exact h.2 old hold (hinc'.symm.trans hinc)
  · omega

theorem Fits.evolves (h : Fits config s task) (hev : Evolves config s s' gone) : Fits config s' task :=
  ⟨fun id incarnation hs => subject_evolves hev (h.subject id incarnation hs), h.file⟩

theorem locked (h : Base config s (⟨[], task⟩ :: rest)) (hev : Evolves config s s' gone)
    (hfits : Fits config s' task') : Base config s' (⟨gone, task'⟩ :: rest) where
  sound := hev.sound h.sound
  subjects := by
    intro call hcall id incarnation hsubject
    rcases mem_cons.mp hcall with rfl | hcall
    · exact hfits.subject id incarnation hsubject
    · exact subject_evolves hev (h.subjects call (mem_cons_of_mem _ hcall) id incarnation hsubject)
  targets := by
    intro call hcall
    rcases mem_cons.mp hcall with rfl | hcall
    · exact hfits.file
    · exact h.targets call (mem_cons_of_mem _ hcall)
  orphan := by
    intro path hfile
    rw [hev.files] at hfile
    obtain ⟨old, hold, rfl⟩ | ⟨call, hcall, hpath⟩ := h.orphan path hfile
    · obtain hlive | hgone := hev.kept old hold
      · exact .inl hlive
      · exact .inr ⟨_, mem_cons_self, hgone⟩
    · rcases mem_cons.mp hcall with rfl | hcall
      · simp at hpath
      · exact .inr ⟨call, mem_cons_of_mem _ hcall, hpath⟩

end

theorem written (h : Base config s (⟨[], task⟩ :: rest)) {tables : List (Table τ)}
    (hlive : tables = [] ∨ s.files path ≠ [] ∨ ∃ entry ∈ s.sessions, entry.dbPath = path)
    (hfits : Fits config s task') : Base config (s.write path tables) (⟨[], task'⟩ :: rest) where
  sound := h.sound.write _ _
  subjects := (h.locked .refl hfits).subjects
  targets := (h.locked .refl hfits).targets
  orphan := by
    intro other hfile
    by_cases hother : other = path
    · subst hother
      have hne : tables ≠ [] := by rwa [files_write_self] at hfile
      obtain hnil | hfile | hlive := hlive
      · exact absurd hnil hne
      · exact (h.locked .refl hfits).orphan other hfile
      · exact .inl hlive
    · rw [files_write_of_ne hother] at hfile
      exact (h.locked .refl hfits).orphan other hfile

omit [DecidableEq π] in
theorem mem_eraseIdx_of_ne {paths : List π} {other : π} {j : ℕ} (hpath : paths[j]? = some path)
    (hmem : other ∈ paths) (hne : other ≠ path) : other ∈ paths.eraseIdx j := by
  obtain ⟨hj, rfl⟩ := List.getElem?_eq_some_iff.mp hpath
  obtain ⟨k, hk, rfl⟩ := mem_iff_getElem.mp hmem
  refine mem_eraseIdx_iff_getElem.mpr ⟨k, hk, ?_, rfl⟩
  rintro rfl
  exact hne rfl

omit [DecidableEq ι] in
theorem removed (h : Base config s (call :: rest)) {j : ℕ} (hpath : call.paths[j]? = some path) :
    Base config (s.write path []) ({ call with paths := call.paths.eraseIdx j } :: rest) where
  sound := h.sound.write _ _
  subjects := by
    intro other hother
    rcases mem_cons.mp hother with rfl | hother
    · exact h.subjects call mem_cons_self
    · exact h.subjects other (mem_cons_of_mem _ hother)
  targets := by
    intro other hother
    rcases mem_cons.mp hother with rfl | hother
    · exact h.targets call mem_cons_self
    · exact h.targets other (mem_cons_of_mem _ hother)
  orphan := by
    intro other hfile
    have hother : other ≠ path := by
      rintro rfl
      exact hfile files_write_self
    rw [files_write_of_ne hother] at hfile
    obtain hlive | ⟨owner, howner, hmem⟩ := h.orphan other hfile
    · exact .inl hlive
    · rcases mem_cons.mp howner with rfl | howner
      · exact .inr ⟨_, mem_cons_self, mem_eraseIdx_of_ne hpath hmem hother⟩
      · exact .inr ⟨owner, mem_cons_of_mem _ howner, hmem⟩

omit [DecidableEq π] in
theorem fits_of_get (h : Sound config s) {entry : SessionEntry ι π} (hget : (s.pruned config).get id = some entry)
    (hsubject : ∀ other incarnation, task.subject = some (other, incarnation) →
      other = id ∧ incarnation = entry.incarnation)
    (hfile : ∀ other path, task.file = some (other, path) → other = id ∧ path = entry.dbPath) : Fits config s task := by
  obtain ⟨hentry, rfl⟩ := get_eq_some hget
  have hmem := (mem_pruned.mp hentry).1
  constructor
  · intro other incarnation hs
    obtain ⟨rfl, rfl⟩ := hsubject other incarnation hs
    exact ⟨h.fresh entry hmem, fun e he hinc => h.unique e he entry hmem hinc⟩
  · intro other path hf
    obtain ⟨rfl, rfl⟩ := hfile other path hf
    exact h.paths entry hmem

variable [DecidableEq τ] in
theorem fits_go {ok : Bool} (h : Base config s (⟨[], task⟩ :: rest)) (hgoes : Goes config s ok task s' call) :
    Fits config s call.task := by
  have hself : Fits config s task := h.fits_self
  cases hgoes with
  | reserved hget | found hget =>
    refine fits_of_get h.sound hget ?_ ?_
    · rintro other incarnation ⟨⟩
      exact ⟨rfl, rfl⟩
    · rintro other path ⟨⟩
      exact ⟨rfl, rfl⟩
  | looked next hnext =>
    obtain rfl | rfl | rfl := hnext
    · exact hself.next (fun _ _ hs => hs) (fun _ _ hf => hf)
    · exact fits_of_none rfl rfl
    · exact fits_of_none rfl rfl
  | counted => exact hself.next (fun _ _ hs => hs) (fun _ _ hf => hf)
  | notPersisted | dropped => exact hself.next (fun _ _ hs => hs) (fun _ _ hf => by cases hf)
  | _ => exact fits_of_none rfl rfl

omit [DecidableEq π] in
theorem stillLive_iff :
    s.stillLive id incarnation = true ↔ ∃ entry, s.get id = some entry ∧ entry.incarnation = incarnation := by
  simp [stillLive, Option.any_eq_true]

omit [DecidableEq π] in
theorem live_of_persisted (h : Base config s (call :: rest))
    (hfile : call.task.file = some (id, path)) (hlive : s.stillLive id incarnation = true) :
    ∃ entry ∈ s.sessions, entry.id = id ∧ entry.incarnation = incarnation ∧ entry.dbPath = path := by
  obtain ⟨entry, hget, hinc⟩ := stillLive_iff.mp hlive
  obtain ⟨hentry, hid⟩ := get_eq_some hget
  refine ⟨entry, hentry, hid, hinc, ?_⟩
  rw [h.sound.paths entry hentry, hid, h.targets call mem_cons_self id path hfile]

/-- The file of a session that is created is empty, or due for deletion. -/
theorem pending_of_created (h : Base config s (⟨[], task⟩ :: rest)) (hinj : Function.Injective config.dbPath)
    (hnone : (s.pruned config).get id = none) (hfile : s.files (config.dbPath id) ≠ []) :
    pending (⟨s.removedPaths config, task'⟩ :: rest) (config.dbPath id) = true := by
  refine mem_pending.mpr ?_
  obtain ⟨entry, hentry, hpath⟩ | ⟨owner, howner, hmem⟩ := h.orphan _ hfile
  · -- a session at the path that is not live was pruned
    refine ⟨_, mem_cons_self, mem_removedPaths.mpr ⟨entry, hentry, ?_, hpath⟩⟩
    by_contra hlive
    rw [h.sound.paths entry hentry] at hpath
    exact get_eq_none hnone entry (mem_pruned.mpr ⟨hentry, by simpa using hlive⟩) (hinj hpath)
  · rcases mem_cons.mp howner with rfl | howner
    · simp at hmem
    · exact ⟨owner, mem_cons_of_mem _ howner, hmem⟩

omit [DecidableEq ι] [DecidableEq π] in
theorem entered (h : Base config s calls) (hsubject : task.subject = none) (hfile : task.file = none) :
    Base config s (⟨[], task⟩ :: calls) where
  sound := h.sound
  subjects := by
    intro call hcall
    rcases mem_cons.mp hcall with rfl | hcall
    · exact (fits_of_none hsubject hfile : Fits config s task).subject
    · exact h.subjects call hcall
  targets := by
    intro call hcall
    rcases mem_cons.mp hcall with rfl | hcall
    · exact (fits_of_none hsubject hfile : Fits config s task).file
    · exact h.targets call hcall
  orphan := by
    intro path hpath
    obtain hlive | ⟨call, hcall, hmem⟩ := h.orphan path hpath
    · exact .inl hlive
    · exact .inr ⟨call, mem_cons_of_mem _ hcall, hmem⟩

variable [DecidableEq τ] in
theorem go {ok : Bool} (h : Base config s (⟨[], task⟩ :: rest)) (hgoes : Goes config s ok task s' call)
    (htidy : s.tidy config ⟨[], task⟩ (.go ok) = true) : Base config s' (call :: rest) := by
  have hfits := h.fits_go hgoes
  obtain hev | ⟨hok, hwrites⟩ := hgoes.evolves h.sound htidy
  · exact h.locked hev (hfits.evolves hev)
  · cases hgoes with
    | persisted =>
      obtain ⟨entry, hentry, -, -, hpath⟩ := h.live_of_persisted rfl (by simpa [tidy] using htidy)
      exact h.written (.inr (.inr ⟨entry, hentry, hpath⟩)) hfits
    | dropped hfound =>
      refine h.written (.inr (.inl ?_)) hfits
      intro hnil
      simp [hnil] at hfound
    | notPersisted | notDropped => cases hok
    | _ => cases hwrites

variable [DecidableEq τ] in
theorem advance {input : SectionInput} (h : Base config s (call :: rest))
    (htidy : s.tidy config call input = true) {call' : Call ι τ π}
    (hadv : s.advance config call input = some (s', call')) : Base config s' (call' :: rest) := by
  cases input with
  | remove j ok =>
    obtain ⟨path, hpath, heq⟩ := Option.map_eq_some_iff.mp hadv
    obtain rfl : ok = true := htidy
    cases heq
    exact h.removed hpath
  | go ok =>
    obtain ⟨task, rfl, hgoes⟩ := goes_of_advance hadv
    exact h.go hgoes htidy

end Base

omit [DecidableEq ι] [DecidableEq π] in
theorem base_start (config : ScratchpadSessionConfig ι π) (clock : ℕ) :
    Base config (start ι τ π clock).shared (start ι τ π clock).calls := by
  constructor
  · constructor <;> simp [start, SessionState.Distinct]
  all_goals simp [start]

variable [DecidableEq τ] in
/-- **The files are in order** in every run whose sections are tidy. -/
theorem base_of_run {config : ScratchpadSessionConfig ι π} {clock : ℕ} {t : Pool (SessionState ι τ π) (Call ι τ π)}
    (h : (manager τ config).Run (fun s _ call input => s.tidy config call input = true) (start ι τ π clock) t) :
    Base config t.shared t.calls := by
  refine Machine.Run.induct (J := fun _ _ => True) (I := fun s calls => Base config s calls)
    (fun _ _ => trivial) (fun _ _ => trivial) (fun _ h => h) Base.perm ?_ ?_ ?_ (base_start config clock) h
  · rintro s elapsed s' calls hstep - hbase
    obtain rfl := Option.some.inj hstep
    exact ⟨⟨hbase.sound.ids, hbase.sound.paths, hbase.sound.fresh, hbase.sound.unique⟩, hbase.subjects,
      hbase.targets, hbase.orphan⟩
  · rintro s calls operation - hbase
    have hnone : (operation.task : Task ι τ π).subject = none ∧ (operation.task : Task ι τ π).file = none := by
      cases operation <;> exact ⟨rfl, rfl⟩
    exact hbase.entered hnone.1 hnone.2
  · rintro s call input s' call' rest hstep htidy - hbase
    exact hbase.advance htidy hstep

end McpToolkit.Scratchpad

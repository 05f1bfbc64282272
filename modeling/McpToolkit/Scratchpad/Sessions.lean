import McpToolkit.Lib.Pool
import McpToolkit.Lib.Word

/-!
# McpToolkit.Scratchpad.Sessions — the session manager of the scratchpad

`ScratchpadSessionManager` of `scratchpad.rs`, section by section.  A section is what runs under the state
lock, one operation on a database, or the deletion of one file; between two sections any other call may
move.  A call first deletes the files whose paths it carries and then goes on with its task.

* Session identifiers, table names and paths are arbitrary types; `dbPath` is the path that
  `session_db_path` computes for a session.
* A database is the list of its tables with their numbers of rows; a file that does not exist is an empty
  database.  A whole ingest transaction is one operation.
* Every entry carries the number of its incarnation, and every call the incarnation it began with.  A table
  keeps the incarnations that wrote to it.  The source has none of these numbers.
-/

namespace McpToolkit.Scratchpad

open Lib
open Lib.Word (saturatingAdd)

structure ScratchpadSessionConfig (ι π : Type) where
  sessionTtl : ℕ
  maxSessions : ℕ
  maxTablesPerSession : ℕ
  maxRowsPerSession : ℕ
  dbPath : ι → π

structure SessionEntry (ι π : Type) where
  id : ι
  dbPath : π
  lastTouched : ℕ
  tablesUsed : ℕ
  rowsUsed : ℕ
  incarnation : ℕ
  deriving DecidableEq

structure Table (τ : Type) where
  name : τ
  rows : ℕ
  writers : List ℕ
  deriving DecidableEq

inductive ScratchpadIngestMode
  | create
  | append
  deriving DecidableEq

/-- What a call still has to do, once its files are deleted. -/
inductive Task (ι τ π : Type)
  | ensureSession (id : ι)
  /-- `session_info`, and every other call that prunes and touches one session -/
  | sessionInfo (id : ι)
  | cleanupExpired
  | releaseSession (id : ι)
  | reserveIngestCapacity (id : ι) (table : τ) (rows : ℕ) (mode : ScratchpadIngestMode)
  | persistIngestTable (id : ι) (incarnation : ℕ) (path : π) (table : τ) (rows : ℕ) (mode : ScratchpadIngestMode)
  | rollbackIngestCapacity (id : ι) (incarnation : ℕ) (rows : ℕ) (mode : ScratchpadIngestMode)
  | existingSessionDbPath (id : ι) (table : τ) (ifExists : Bool)
  | tableExists (id : ι) (incarnation : ℕ) (path : π) (table : τ) (ifExists : Bool)
  | tableRowCount (id : ι) (incarnation : ℕ) (path : π) (table : τ)
  | dropTable (id : ι) (incarnation : ℕ) (path : π) (table : τ) (rowsRemoved : ℕ)
  | noteTableDropped (id : ι) (incarnation : ℕ) (rowsRemoved : ℕ)
  | returned
  deriving DecidableEq

structure Call (ι τ π : Type) where
  paths : List π
  task : Task ι τ π
  deriving DecidableEq

/-- The operations of the manager. -/
inductive Operation (ι τ : Type)
  | openSession (id : ι)
  | sessionInfo (id : ι)
  | cleanupExpired
  | releaseSession (id : ι)
  | ingestRows (id : ι) (table : τ) (rows : ℕ) (mode : ScratchpadIngestMode)
  | dropTable (id : ι) (table : τ) (ifExists : Bool)
  deriving DecidableEq

/-- What the next section of a call receives: which file it deletes and whether that works, or whether the
database operation works. -/
inductive SectionInput
  | remove (path : ℕ) (ok : Bool)
  | go (ok : Bool)
  deriving DecidableEq

/-- The state lock protects `sessions`; `files` is the file system. -/
structure SessionState (ι τ π : Type) where
  clock : ℕ
  sessions : List (SessionEntry ι π)
  files : π → List (Table τ)
  incarnations : ℕ

variable {ι τ π : Type} [DecidableEq ι] [DecidableEq τ] [DecidableEq π]

def SessionEntry.expired (ttl now : ℕ) (entry : SessionEntry ι π) : Bool :=
  decide (ttl ≤ now - entry.lastTouched)

/-- The usage that an ingest takes, and gives back when it fails. -/
def SessionEntry.reserve (now : ℕ) (rows : ℕ) (mode : ScratchpadIngestMode) (entry : SessionEntry ι π) :
    SessionEntry ι π :=
  { entry with
    tablesUsed := if mode = .create then entry.tablesUsed + 1 else entry.tablesUsed
    rowsUsed := saturatingAdd entry.rowsUsed rows
    lastTouched := now }

def SessionEntry.giveBack (now : ℕ) (rows : ℕ) (mode : ScratchpadIngestMode) (entry : SessionEntry ι π) :
    SessionEntry ι π :=
  { entry with
    tablesUsed := if mode = .create then entry.tablesUsed - 1 else entry.tablesUsed
    rowsUsed := entry.rowsUsed - rows
    lastTouched := now }

namespace SessionState

/-- `prune_expired_locked`: what it leaves. -/
def pruned (config : ScratchpadSessionConfig ι π) (s : SessionState ι τ π) : SessionState ι τ π :=
  { s with sessions := s.sessions.filter fun entry => !entry.expired config.sessionTtl s.clock }

/-- `prune_expired_locked`: the paths it returns. -/
def removedPaths (config : ScratchpadSessionConfig ι π) (s : SessionState ι τ π) : List π :=
  (s.sessions.filter fun entry => entry.expired config.sessionTtl s.clock).map SessionEntry.dbPath

def get (s : SessionState ι τ π) (id : ι) : Option (SessionEntry ι π) :=
  s.sessions.find? fun entry => decide (entry.id = id)

def update (s : SessionState ι τ π) (id : ι) (f : SessionEntry ι π → SessionEntry ι π) : SessionState ι τ π :=
  { s with sessions := s.sessions.map fun entry => if entry.id = id then f entry else entry }

def touch (s : SessionState ι τ π) (id : ι) : SessionState ι τ π :=
  s.update id fun entry => { entry with lastTouched := s.clock }

def remove (s : SessionState ι τ π) (id : ι) : SessionState ι τ π :=
  { s with sessions := s.sessions.filter fun entry => decide (entry.id ≠ id) }

def create (config : ScratchpadSessionConfig ι π) (s : SessionState ι τ π) (id : ι) : SessionState ι τ π :=
  { s with
    sessions := s.sessions ++ [⟨id, config.dbPath id, s.clock, 0, 0, s.incarnations⟩]
    incarnations := s.incarnations + 1 }

/-- `session_entry_mut`; none is the error at the limit of sessions. -/
def sessionEntryMut (config : ScratchpadSessionConfig ι π) (s : SessionState ι τ π) (id : ι) :
    Option (SessionState ι τ π) :=
  if (s.get id).isSome then some s
  else if config.maxSessions ≤ s.sessions.length then none
  else some (s.create config id)

def write (s : SessionState ι τ π) (path : π) (tables : List (Table τ)) : SessionState ι τ π :=
  { s with files := Function.update s.files path tables }

/-- The transaction of an ingest, if it can commit. -/
def ingested (tables : List (Table τ)) (incarnation : ℕ) (table : τ) (rows : ℕ) (mode : ScratchpadIngestMode) :
    Option (List (Table τ)) :=
  let found := tables.any fun t => decide (t.name = table)
  match mode with
  | .create => if found then none else some (tables ++ [⟨table, rows, [incarnation]⟩])
  | .append =>
    if found then
      some (tables.map fun t =>
        if t.name = table then { t with rows := t.rows + rows, writers := t.writers ++ [incarnation] } else t)
    else none

def reserveIngestCapacity (config : ScratchpadSessionConfig ι π) (s : SessionState ι τ π) (id : ι) (table : τ)
    (rows : ℕ) (mode : ScratchpadIngestMode) : SessionState ι τ π × Call ι τ π :=
  match (s.pruned config).get id with
  -- the removed paths are dropped with the error
  | none => (s.pruned config, ⟨[], .returned⟩)
  | some entry =>
    if mode = .create ∧ config.maxTablesPerSession ≤ entry.tablesUsed then
      (s.pruned config, ⟨s.removedPaths config, .returned⟩)
    else if config.maxRowsPerSession < saturatingAdd entry.rowsUsed rows then
      (s.pruned config, ⟨s.removedPaths config, .returned⟩)
    else
      ((s.pruned config).update id (SessionEntry.reserve s.clock rows mode),
        ⟨s.removedPaths config, .persistIngestTable id entry.incarnation entry.dbPath table rows mode⟩)

/-- The next section of a call that has no file to delete. -/
def go (config : ScratchpadSessionConfig ι π) (s : SessionState ι τ π) (ok : Bool) :
    Task ι τ π → Option (SessionState ι τ π × Call ι τ π)
  | .ensureSession id =>
    match (s.pruned config).sessionEntryMut config id with
    | none => some (s.pruned config, ⟨[], .returned⟩)
    | some s' => some (s'.touch id, ⟨s.removedPaths config, .returned⟩)
  | .sessionInfo id => some ((s.pruned config).touch id, ⟨s.removedPaths config, .returned⟩)
  | .cleanupExpired => some (s.pruned config, ⟨s.removedPaths config, .returned⟩)
  | .releaseSession id =>
    let removed := ((s.pruned config).get id).map SessionEntry.dbPath
    some ((s.pruned config).remove id, ⟨s.removedPaths config ++ removed.toList, .returned⟩)
  | .reserveIngestCapacity id table rows mode => some (s.reserveIngestCapacity config id table rows mode)
  | .persistIngestTable id incarnation path table rows mode =>
    if ok then
      (ingested (s.files path) incarnation table rows mode).map fun tables => (s.write path tables, ⟨[], .returned⟩)
    else some (s, ⟨[], .rollbackIngestCapacity id incarnation rows mode⟩)
  | .rollbackIngestCapacity id _ rows mode =>
    some ((s.pruned config).update id (SessionEntry.giveBack s.clock rows mode),
      ⟨s.removedPaths config, .returned⟩)
  | .existingSessionDbPath id table ifExists =>
    match (s.pruned config).get id with
    | none => some (s.pruned config, ⟨s.removedPaths config, .returned⟩)
    | some entry =>
      some ((s.pruned config).touch id,
        ⟨s.removedPaths config, .tableExists id entry.incarnation entry.dbPath table ifExists⟩)
  | .tableExists id incarnation path table ifExists =>
    let found := (s.files path).any fun t => decide (t.name = table)
    let next := if found then .tableRowCount id incarnation path table
      else if ifExists then .sessionInfo id else .returned
    some (s, ⟨[], if ok then next else .returned⟩)
  | .tableRowCount id incarnation path table =>
    match (s.files path).find? fun t => decide (t.name = table) with
    | none => some (s, ⟨[], .returned⟩)
    | some t => some (s, ⟨[], if ok then .dropTable id incarnation path table t.rows else .returned⟩)
  | .dropTable id incarnation path table rowsRemoved =>
    if ok then
      if (s.files path).any fun t => decide (t.name = table) then
        some (s.write path ((s.files path).filter fun t => decide (t.name ≠ table)),
          ⟨[], .noteTableDropped id incarnation rowsRemoved⟩)
      else none
    else some (s, ⟨[], .returned⟩)
  | .noteTableDropped id _ rowsRemoved =>
    match (s.pruned config).sessionEntryMut config id with
    | none => some (s.pruned config, ⟨[], .returned⟩)
    | some s' =>
      some (s'.update id (SessionEntry.giveBack s.clock rowsRemoved .create),
        ⟨s.removedPaths config, .returned⟩)
  | .returned => none

/-- One section of a call. -/
def advance (config : ScratchpadSessionConfig ι π) (s : SessionState ι τ π) (call : Call ι τ π) :
    SectionInput → Option (SessionState ι τ π × Call ι τ π)
  | .remove j ok =>
    call.paths[j]?.map fun path =>
      (if ok then s.write path [] else s, { call with paths := call.paths.eraseIdx j })
  | .go ok => if call.paths.isEmpty then s.go config ok call.task else none

end SessionState

def Operation.task : Operation ι τ → Task ι τ π
  | .openSession id => .ensureSession id
  | .sessionInfo id => .sessionInfo id
  | .cleanupExpired => .cleanupExpired
  | .releaseSession id => .releaseSession id
  | .ingestRows id table rows mode => .reserveIngestCapacity id table rows mode
  | .dropTable id table ifExists => .existingSessionDbPath id table ifExists

/-- The manager as a pool of calls; the world outside only lets time pass. -/
def manager (τ : Type) [DecidableEq τ] (config : ScratchpadSessionConfig ι π) :
    Machine (SessionState ι τ π) (Call ι τ π) ℕ (Operation ι τ) SectionInput where
  env s elapsed := some { s with clock := s.clock + elapsed }
  enter operation := ⟨[], operation.task⟩
  advance := SessionState.advance config

/-- A new manager: no session, and no file under its namespace. -/
def start (ι τ π : Type) (clock : ℕ) : Pool (SessionState ι τ π) (Call ι τ π) :=
  ⟨⟨clock, [], fun _ => [], 0⟩, []⟩

/-- Three sessions, two tables and a hundred rows for each, ten time units to live, and a path of its own for
every identifier. -/
def smallConfig : ScratchpadSessionConfig ℕ ℕ := ⟨10, 3, 2, 100, id⟩

end McpToolkit.Scratchpad

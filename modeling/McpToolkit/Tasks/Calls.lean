import McpToolkit.Lib.Pool
import McpToolkit.Tasks.Scan

/-!
# McpToolkit.Tasks.Calls — the calls of the task authority, section by section

The program counters of `spawn_for_principal`, `shutdown`/`force_close`, the three principal-bound
accesses, `wait` and `observation_loop`, and what one section of each does.  A section is what runs
under one lock or with one atomic access; between two sections any other call, RMCP or a running
task may move.  `TaskAuthority.machine` puts them together as a `Machine`.

The lifecycle guard is held over the state section of a publication (and of a scan), so the closed
bit cannot change in between and both are one section here.
-/

namespace McpToolkit.Tasks

open Lib

/-- What a call returned. -/
inductive Outcome where
  | task (id : TaskId)
  | snapshot (s : AuthorizedTaskSnapshot)
  | unit
  | timeout
  | stopped
  | err (e : TaskAuthorityError)
  deriving DecidableEq

structure SpawnArgs where
  principal : TaskPrincipal
  ttl : Option Duration
  deriving DecidableEq

/-- `spawn_for_principal`. -/
inductive SpawnPc where
  | ensureOpen (a : SpawnArgs)
  | runtime (a : SpawnArgs)
  | reserveOpen (a : SpawnArgs)
  | reserve (a : SpawnArgs)
  | recheckOpen (a : SpawnArgs)
  | materialise (a : SpawnArgs)
  | panicked (leftover : Option TaskId)
  | convert (a : SpawnArgs) (id : TaskId)
  | closedCheck (a : SpawnArgs) (id : TaskId)
  | readInitial (a : SpawnArgs) (id : TaskId)
  | absentCheck (a : SpawnArgs) (id : TaskId)
  | release (id : TaskId)
  | bind (a : SpawnArgs) (id : TaskId) (initial : DetailedTask)
  | publish (a : SpawnArgs) (id : TaskId) (initial : DetailedTask) (readAt : Instant)
  | startObserver (id : TaskId)
  deriving DecidableEq

/-- `close_and_drain`. -/
inductive ClosePc where
  | setClosed
  | shutdown
  | drain
  | hint (remaining : Finset TaskId)
  | hintDone (id : TaskId) (remaining : Finset TaskId)
  deriving DecidableEq

inductive Access where
  | get
  | update
  | cancel
  deriving DecidableEq

/-- `get_task_for_principal`, `update_task_for_principal` and `cancel_task_for_principal`, with
`observe_current`, `observe_or_close` and `remove_binding` inlined. -/
inductive AccessPc where
  | ensureOpen (principal : TaskPrincipal) (id : TaskId)
  | lookup (principal : TaskPrincipal) (id : TaskId)
  | request (id : TaskId)
  | hint (id : TaskId)
  | hintDone (id : TaskId)
  | generation (id : TaskId)
  | read (id : TaskId) (gen : ℕ)
  | observe (id : TaskId) (gen : ℕ) (task : DetailedTask)
  | touch (id : TaskId) (gen : ℕ) (s : AuthorizedTaskSnapshot)
  | lease (id : TaskId) (gen : ℕ) (s : AuthorizedTaskSnapshot)
  | notifyDone (id : TaskId) (s : AuthorizedTaskSnapshot)
  | remove (id : TaskId)
  | removeHint (id : TaskId)
  | removeDone (id : TaskId)
  | closedCheck
  deriving DecidableEq

structure WaitArgs where
  principal : TaskPrincipal
  id : TaskId
  afterRevision : Option ℕ
  condition : TaskWaitCondition
  deriving DecidableEq

/-- `wait`, with `observe_wait_initial` and `wait_observation_snapshot` inlined.  `seen` is the
notification count a `Notified` future was created at. -/
inductive WaitPc where
  | ensureOpen
  | lookup
  | register
  | recentRead
  | cleanRead
  | cachedSnapshot
  | hint
  | notifyObserver (target : ℕ)
  | enable (target : ℕ)
  | checkLease (target seen : ℕ)
  | leaseGone
  | observedSnapshot
  | checkClosed (target seen : ℕ)
  | parkInitial (target seen : ℕ)
  | initial (s : AuthorizedTaskSnapshot)
  | subscribe (baseline : ℕ)
  | check (baseline seen : ℕ)
  | closedCheck (baseline seen : ℕ)
  | park (baseline seen : ℕ)
  | release (r : Outcome)
  deriving DecidableEq

/-- `observation_loop`. -/
inductive ObserverPc where
  | unstarted
  | scan
  | idle (deadline : Option Instant)
  | admission (sel : Selected)
  | sleep (wakeAt : Instant)
  | recent (sel : Selected)
  | clean (sel : Selected) (lastRead : Option Instant)
  | coalesce (sel : Selected) (lastRead : Instant)
  | read (sel : Selected)
  | touch (sel : Selected) (result : Option DetailedTask)
  | observe (sel : Selected) (task : DetailedTask)
  | generation (sel : Selected) (task : DetailedTask)
  | settle (sel : Selected) (task : DetailedTask) (signal : ℕ) (now : Instant)
  | lease (sel : Selected) (task : DetailedTask) (signal : ℕ) (now : Instant)
  | notifyDone (sel : Selected)
  | evict (sel : Selected)
  | evictHint (sel : Selected)
  | evictDone (sel : Selected)
  deriving DecidableEq

inductive Pc where
  | spawn (p : SpawnPc)
  | closing (p : ClosePc) (r : Outcome)
  | access (k : Access) (p : AccessPc)
  | wait (a : WaitArgs) (p : WaitPc)
  | observer (p : ObserverPc)
  | returned (r : Outcome)
  deriving DecidableEq

inductive RuntimeProbe where
  | ready
  | noRuntime
  | noTimer
  deriving DecidableEq

/-- What a section receives from outside: the answer of the runtime or of `TaskManager::spawn`,
the next binding of a drained map, the reason an `await` ended. -/
inductive Input where
  | go
  | runtime (r : RuntimeProbe)
  | spawned (id : TaskId) (task : DetailedTask)
  | panicked (leftover : Option (TaskId × DetailedTask))
  | pick (id : TaskId)
  | woken
  | deadline
  | stop
  deriving DecidableEq

def Pc.forceClose (e : TaskAuthorityError) : Pc := .closing .setClosed (.err e)

/-! ### Sections -/

def SpawnPc.advance (cfg : TaskAuthorityConfig) (sh : Shared) : SpawnPc → Input →
    Option (Shared × Pc)
  | .ensureOpen a, .go =>
    some (sh, if sh.closed then .returned (.err .closed) else .spawn (.runtime a))
  | .runtime a, .runtime r =>
    match r with
    | .ready => some (sh, .spawn (.reserveOpen a))
    | .noRuntime => some (sh, .returned (.err .runtimeUnavailable))
    | .noTimer => some (sh, .returned (.err .runtimeTimerUnavailable))
  | .reserveOpen a, .go =>
    some (sh, if sh.closed then .returned (.err .closed) else .spawn (.reserve a))
  | .reserve a, .go =>
    if cfg.maxRetainedTasks ≤ sh.state.retained then
      some (sh, .returned (.err .capacityReached))
    else some (sh.setState sh.state.reserve, .spawn (.recheckOpen a))
  | .recheckOpen a, .go =>
    -- a reservation made just before a shutdown is not given back
    some (sh, if sh.closed then .returned (.err .closed) else .spawn (.materialise a))
  | .materialise a, .spawned id task =>
    if sh.CanMaterialise id task then some (sh.materialise id task, .spawn (.convert a id))
    else none
  | .materialise _, .panicked none => some (sh, .spawn (.panicked none))
  | .materialise _, .panicked (some (id, task)) =>
    if sh.CanMaterialise id task then
      some (sh.materialise id task, .spawn (.panicked (some id)))
    else none
  | .panicked _, .go => some ({ sh with closed := true }, .closing .shutdown (.err .stateUnavailable))
  | .convert a id, .go =>
    some (sh.setState (sh.state.convert id ⟨a.ttl, sh.clock, a.ttl.map (sh.clock + ·), 0⟩),
      .spawn (.closedCheck a id))
  | .closedCheck a id, .go =>
    some (sh, if sh.closed then .forceClose .closed else .spawn (.readInitial a id))
  | .readInitial a id, .go =>
    match sh.rmcp.records.lookup id with
    | some task => some (sh, .spawn (.bind a id task))
    | none => some (sh, .spawn (.absentCheck a id))
  | .absentCheck _ id, .go =>
    some (sh, if sh.closed then .forceClose .closed else .spawn (.release id))
  | .release id, .go => some (sh.setState (sh.state.release id), .returned (.err .rmcp))
  | .bind a id initial, .go => some (sh, .spawn (.publish a id initial sh.clock))
  | .publish a id initial readAt, .go =>
    if sh.closed then some (sh, .forceClose .closed)
    else if id ∈ sh.state.bindings then some (sh, .forceClose .stateUnavailable)
    else
      some ((sh.setCell id ⟨a.principal, 1, initial, some readAt, 0⟩).setState
        (sh.state.publish id a.principal), .spawn (.startObserver id))
  | .startObserver id, .go =>
    some ({ sh with observerStarted := true, observerNotify := true }, .returned (.task id))
  | _, _ => none

def ClosePc.advance (sh : Shared) (r : Outcome) : ClosePc → Input → Option (Shared × Pc)
  | .setClosed, .go => some ({ sh with closed := true }, .closing .shutdown r)
  | .shutdown, .go => some ({ sh.shutdownRmcp with observerStop := true }, .closing .drain r)
  | .drain, .go => some (sh.setState .empty, .closing (.hint sh.state.bindings) r)
  | .hint remaining, .pick id =>
    if id ∈ remaining then some (sh.bump id, .closing (.hintDone id (remaining.erase id)) r)
    else none
  | .hintDone id remaining, .go => some (sh.notifyDone id, .closing (.hint remaining) r)
  | .hint remaining, .go => if remaining = ∅ then some (sh, .returned r) else none
  | _, _ => none

def AccessPc.advance (sh : Shared) (k : Access) : AccessPc → Input → Option (Shared × Pc)
  | .ensureOpen principal id, .go =>
    some (sh, if sh.closed then .returned (.err .closed) else .access k (.lookup principal id))
  | .lookup principal id, .go =>
    if id ∈ sh.state.bindings ∧ (sh.cells id).principal = principal then
      some (sh, .access k (if k = .get then .generation id else .request id))
    else some (sh, .returned (.err .taskNotFound))
  | .request id, .go =>
    some (sh, .access k (if id ∈ sh.rmcp.records then .hint id else .remove id))
  | .hint id, .go => some (sh.bump id, .access k (.hintDone id))
  | .hintDone id, .go => some (sh.notifyDone id, .access k (.generation id))
  | .generation id, .go => some (sh, .access k (.read id (sh.signals id).generation))
  | .read id gen, .go =>
    match sh.rmcp.records.lookup id with
    | some task => some (sh, .access k (.observe id gen task))
    | none => some (sh, .access k (.remove id))
  | .observe id gen task, .go =>
    some (sh.observe id task, .access k (.touch id gen ⟨task, ((sh.observe id task).cells id).revision⟩))
  | .touch id gen s, .go => some (sh.touch id, .access k (.lease id gen s))
  | .lease id gen s, .go => some (sh.leaseAfterRead id s.task gen, .access k (.notifyDone id s))
  | .notifyDone id s, .go =>
    some (sh.notifyDone id, .returned (if k = .get then .snapshot s else .unit))
  | .remove id, .go =>
    some (sh.setState (sh.state.removeBinding id),
      .access k (if id ∈ sh.state.bindings then .removeHint id else .closedCheck))
  | .removeHint id, .go => some (sh.bump id, .access k (.removeDone id))
  | .removeDone id, .go => some (sh.notifyDone id, .access k .closedCheck)
  | .closedCheck, .go =>
    some (sh, .returned (.err (if sh.closed then .closed else .taskNotFound)))
  | _, _ => none

/-- `wait_condition_ready`. -/
def waitConditionReady (condition : TaskWaitCondition) (baseline : ℕ)
    (s : AuthorizedTaskSnapshot) : Bool :=
  match condition with
  | .revisionChange => baseline < s.revision
  | .terminal => s.task.isTerminal

def WaitPc.advance (cfg : TaskAuthorityConfig) (sh : Shared) (a : WaitArgs) : WaitPc → Input →
    Option (Shared × Pc)
  | .ensureOpen, .go =>
    some (sh, if sh.closed then .returned (.err .closed) else .wait a .lookup)
  | .lookup, .go =>
    if a.id ∈ sh.state.bindings ∧ (sh.cells a.id).principal = a.principal then
      some (sh, .wait a .register)
    else some (sh, .returned (.err .taskNotFound))
  | .register, .go =>
    if cfg.maxWaiters ≤ sh.state.activeWaiters then
      some (sh, .returned (.err .waiterCapacityReached))
    else
      some (sh.setState { sh.state with activeWaiters := sh.state.activeWaiters + 1 },
        .wait a .recentRead)
  | .recentRead, .go =>
    some (sh, .wait a (if (sh.recentRead a.id).isSome then .cleanRead else .hint))
  | .cleanRead, .go => some (sh, .wait a (if sh.cleanRead a.id then .cachedSnapshot else .hint))
  | .cachedSnapshot, .go => some (sh, .wait a (.initial (sh.snapshot a.id)))
  | .hint, .go =>
    some (sh.bump a.id, .wait a (.notifyObserver ((sh.bump a.id).signals a.id).generation))
  | .notifyObserver target, .go => some ({ sh with observerNotify := true }, .wait a (.enable target))
  | .enable target, .go =>
    some (sh, .wait a (.checkLease target (sh.cells a.id).observationDone))
  | .checkLease target seen, .go =>
    match sh.state.leases.lookup a.id with
    | none => some (sh, .wait a .leaseGone)
    | some lease =>
      some (sh, .wait a
        (if target ≤ lease.observedSignalGeneration then .observedSnapshot
          else .checkClosed target seen))
  | .leaseGone, .go =>
    some (sh, .wait a (.release (.err (if sh.closed then .closed else .taskNotFound))))
  | .observedSnapshot, .go => some (sh, .wait a (.initial (sh.snapshot a.id)))
  | .checkClosed target seen, .go =>
    some (sh, .wait a (if sh.closed then .release (.err .closed) else .parkInitial target seen))
  | .parkInitial target seen, .woken =>
    if (sh.cells a.id).observationDone = seen then none else some (sh, .wait a (.enable target))
  | .parkInitial _ _, .deadline => some (sh, .wait a (.release .timeout))
  | .initial s, .go =>
    let baseline := a.afterRevision.getD s.revision
    some (sh, .wait a
      (if waitConditionReady a.condition baseline s then .release (.snapshot s)
        else .subscribe baseline))
  | .subscribe baseline, .go =>
    some (sh, .wait a (.check baseline (sh.signals a.id).waiters))
  | .check baseline seen, .go =>
    some (sh, .wait a
      (if waitConditionReady a.condition baseline (sh.snapshot a.id) then
        .release (.snapshot (sh.snapshot a.id))
        else .closedCheck baseline seen))
  | .closedCheck baseline seen, .go =>
    some (sh, .wait a (if sh.closed then .release (.err .closed) else .park baseline seen))
  | .park baseline seen, .woken =>
    if (sh.signals a.id).waiters = seen then none else some (sh, .wait a (.subscribe baseline))
  | .park _ _, .deadline => some (sh, .wait a (.release .timeout))
  | .release r, .go =>
    some (sh.setState { sh.state with activeWaiters := sh.state.activeWaiters - 1 }, .returned r)
  | _, _ => none

/-- Reads older than the window are forgotten. -/
def Shared.prunedWindow (sh : Shared) : List Instant :=
  sh.fallbackWindow.dropWhile fun t => t + windowSpan ≤ sh.clock

def ObserverPc.advance (cfg : TaskAuthorityConfig) (sh : Shared) : ObserverPc → Input →
    Option (Shared × Pc)
  | .unstarted, .go => if sh.observerStarted then some (sh, .observer .scan) else none
  | .scan, .go =>
    if sh.closed then some (sh, .returned .stopped)
    else
      some (sh.setState sh.scan.1, .observer
        (match sh.scan.2 with
          | some sel => .admission sel
          | none => .idle sh.earliest))
  | .idle _, .woken =>
    if sh.observerNotify then some ({ sh with observerNotify := false }, .observer .scan) else none
  | .idle (some deadline), .deadline =>
    if deadline ≤ sh.clock then some (sh, .observer .scan) else none
  | .idle _, .stop =>
    if sh.observerStop then some ({ sh with observerStop := false }, .returned .stopped) else none
  | .admission sel, .go =>
    let window := sh.prunedWindow
    if window.length < cfg.fallbackReadsPerSecond then
      some ({ sh with fallbackWindow := window ++ [sh.clock] }, .observer (.recent sel))
    else
      -- a pruned window that is full has a front less than a second old
      some ({ sh with fallbackWindow := window },
        .observer (.sleep (window.head?.getD sh.clock + windowSpan)))
  | .sleep wakeAt, .deadline => if wakeAt ≤ sh.clock then some (sh, .observer .scan) else none
  | .sleep _, .stop =>
    if sh.observerStop then some ({ sh with observerStop := false }, .returned .stopped) else none
  | .recent sel, .go => some (sh, .observer (.clean sel (sh.recentRead sel.id)))
  | .clean sel lastRead, .go =>
    some (sh, .observer
      (match lastRead with
        | some last => if sh.cleanRead sel.id then .coalesce sel last else .read sel
        | none => .read sel))
  | .coalesce sel last, .go => some (sh.setState (sh.coalesce sel.id last), .observer .scan)
  | .read sel, .go => some (sh, .observer (.touch sel (sh.rmcp.records.lookup sel.id)))
  | .touch sel result, .go =>
    some (sh.touch sel.id, .observer
      (match result with
        | some task => .observe sel task
        | none => .evict sel))
  | .observe sel task, .go => some (sh.observe sel.id task, .observer (.generation sel task))
  | .generation sel task, .go =>
    some (sh, .observer (.settle sel task (sh.signals sel.id).generation sh.clock))
  | .settle sel task signal now, .go =>
    some (if task.isTerminal then sh.setSettlement sel.id false else sh,
      .observer (.lease sel task signal now))
  | .lease sel task signal now, .go =>
    some (sh.setState (sh.observerLease sel.id task sel.generation signal now),
      .observer (.notifyDone sel))
  | .notifyDone sel, .go => some (sh.notifyDone sel.id, .observer .scan)
  | .evict sel, .go => some (sh.setState (sh.observerEvict sel.id), .observer (.evictHint sel))
  | .evictHint sel, .go => some (sh.bump sel.id, .observer (.evictDone sel))
  | .evictDone sel, .go => some (sh.notifyDone sel.id, .observer .scan)
  | _, _ => none

def Pc.advance (cfg : TaskAuthorityConfig) (sh : Shared) (pc : Pc) (inp : Input) :
    Option (Shared × Pc) :=
  match pc with
  | .spawn p => p.advance cfg sh inp
  | .closing p r => p.advance sh r inp
  | .access k p => p.advance sh k inp
  | .wait a p => p.advance cfg sh a inp
  | .observer p => p.advance cfg sh inp
  | .returned _ => none

/-! ### RMCP, the running tasks and the clock -/

inductive Move where
  | tick (d : Duration)
  | taskHint (id : TaskId)
  | progress (id : TaskId) (task : DetailedTask)
  | dropStore (id : TaskId)
  | dropBump (id : TaskId)
  | settle (id : TaskId) (task : DetailedTask)
  | evict (id : TaskId)
  deriving DecidableEq

/-- A terminal status is final, and RMCP publishes it after the drop hint of the task. -/
def Move.apply (sh : Shared) : Move → Option Shared
  | .tick d => some { sh with clock := sh.clock + d }
  | .taskHint id => if id ∈ sh.rmcp.issued then some (sh.bump id) else none
  | .progress id task =>
    match sh.rmcp.records.lookup id with
    | some t => if t.isTerminal ∨ task.isTerminal then none else some (sh.setRecord id task)
    | none => none
  | .dropStore id =>
    if id ∈ sh.rmcp.issued ∧ sh.rmcp.drop id = .running then
      some ((sh.setDrop id .stored).setSettlement id true)
    else none
  | .dropBump id =>
    if sh.rmcp.drop id = .stored then some ((sh.setDrop id .hinted).bump id) else none
  | .settle id task =>
    match sh.rmcp.records.lookup id with
    | some t =>
      if t.isTerminal = false ∧ task.isTerminal ∧ sh.rmcp.drop id = .hinted then
        some (sh.setRecord id task)
      else none
    | none => none
  | .evict id => if id ∈ sh.rmcp.records then some (sh.dropRecord id) else none

inductive Call where
  | spawn (a : SpawnArgs)
  | shutdown
  | access (k : Access) (principal : TaskPrincipal) (id : TaskId)
  | wait (a : WaitArgs)
  deriving DecidableEq

def Call.enter : Call → Pc
  | .spawn a => .spawn (.ensureOpen a)
  | .shutdown => .closing .setClosed .unit
  | .access k principal id => .access k (.ensureOpen principal id)
  | .wait a => .wait a .ensureOpen

def TaskAuthority.machine (cfg : TaskAuthorityConfig) : Machine Shared Pc Move Call Input where
  env := Move.apply
  enter := Call.enter
  advance := Pc.advance cfg

/-- The first `n` sections of a spawn that nothing disturbs, as call `i`. -/
def spawnEvents (i : ℕ) (a : SpawnArgs) (id : TaskId) (task : DetailedTask) (n : ℕ) :
    List (Event Move Call Input) :=
  let sections : List Input :=
    [.go, .runtime .ready, .go, .go, .go, .spawned id task, .go, .go, .go, .go, .go, .go]
  .enter (.spawn a) :: (sections.take n).map (Event.advance i)

/-- A new authority; its observation loop is spawned by the first publication. -/
def TaskAuthority.new : Pool Shared Pc := ⟨Shared.init, [.observer .unstarted]⟩

end McpToolkit.Tasks

import Mathlib.Data.Finmap
import Mathlib.Data.Finset.Max
import McpToolkit.Lib.Text

/-!
# McpToolkit.Tasks.State — the memory of the task authority

The data of `authority.rs` and the sections that run under one lock (or one atomic access), as
functions on it.

* `AuthorityState` is the value of the `state` mutex.  A published binding is an `Arc`; RMCP never
  issues a task id twice, so the id names the binding object, `bindings` is the set of published
  ids and the object itself lives in `Shared.cells` (a waiter keeps it after it is unpublished).
  A missing observer queue and an empty one behave alike, hence `observerTasks` is total.
* A `Notify` is its count of `notify_waiters` calls: a `Notified` future remembers the count at its
  creation and is ready once the count has moved.  `notify_one` stores one permit.
* `Rmcp` is what the authority sees of RMCP's `TaskManager`: the retained records, the ids issued so
  far, and how far the drop hint of each task has come.
* Instants and durations are natural numbers of nanoseconds.  A `u64` of milliseconds added to an
  instant stays within the platform's `i64` seconds, so `checked_add` always succeeds.
* The locks are never poisoned: nothing that runs under them can panic.
-/

namespace McpToolkit.Tasks

open Finmap
open Lib

abbrev TaskId := String
abbrev Instant := ℕ
abbrev Duration := ℕ

/-- `SETTLEMENT_RECHECK`: 250 ms. -/
def settlementRecheck : Duration := 250000000

/-- The sliding window of the fallback reads: 1 s. -/
def windowSpan : Duration := 1000000000

inductive TaskAuthorityError where
  | invalidPrincipal
  | taskNotFound
  | runtimeUnavailable
  | runtimeTimerUnavailable
  | closed
  | capacityReached
  | waiterCapacityReached
  | rmcp
  | stateUnavailable
  deriving DecidableEq

def validPrincipal (value : String) : Bool :=
  !(value.isEmpty || Text.trim value.toList != value.toList || decide (256 < value.length))

/-- An exact principal identifier: never empty, never padded, at most 256 scalar values. -/
structure TaskPrincipal where
  value : String
  valid : validPrincipal value = true
  deriving DecidableEq

def TaskPrincipal.new (value : String) : Except TaskAuthorityError TaskPrincipal :=
  if h : validPrincipal value = true then .ok ⟨value, h⟩ else .error .invalidPrincipal

instance : Inhabited TaskPrincipal := ⟨⟨"-", by decide⟩⟩

inductive TaskStatus where
  | working
  | inputRequired
  | completed
  | cancelled
  | failed
  deriving DecidableEq

def TaskStatus.isTerminal : TaskStatus → Bool
  | .working | .inputRequired => false
  | .completed | .cancelled | .failed => true

/-- An RMCP snapshot: its status, and `detail` for everything else it carries. -/
structure DetailedTask where
  status : TaskStatus
  detail : String
  deriving DecidableEq

abbrev DetailedTask.isTerminal (t : DetailedTask) : Bool := t.status.isTerminal

inductive TaskWaitCondition where
  | revisionChange
  | terminal
  deriving DecidableEq

structure AuthorizedTaskSnapshot where
  task : DetailedTask
  revision : ℕ
  deriving DecidableEq

structure TaskSignal where
  waiters : ℕ
  generation : ℕ
  settlementPending : Bool
  deriving DecidableEq

structure TaskBinding where
  principal : TaskPrincipal
  revision : ℕ
  task : DetailedTask
  lastReadAt : Option Instant
  observationDone : ℕ
  deriving DecidableEq

instance : Inhabited TaskBinding := ⟨⟨default, 0, ⟨.working, ""⟩, none, 0⟩⟩

structure LeaseInfo where
  ttl : Option Duration
  createdAt : Instant
  nextProbeAt : Option Instant
  observedSignalGeneration : ℕ
  deriving DecidableEq

structure AuthorityState where
  bindings : Finset TaskId
  leases : Finmap (fun _ : TaskId => LeaseInfo)
  reservedLeases : ℕ
  activeWaiters : ℕ
  observerPrincipals : List TaskPrincipal
  observerTasks : TaskPrincipal → List TaskId

structure TaskAuthorityConfig where
  maxRetainedTasks : ℕ
  maxWaiters : ℕ
  fallbackReadsPerSecond : ℕ
  retained_pos : 0 < maxRetainedTasks
  waiters_pos : 0 < maxWaiters
  reads_pos : 0 < fallbackReadsPerSecond

/-- How far `NotifyOnDrop::drop` of a task has come: `hint(true)` stores the settlement flag, then
advances the generation. -/
inductive DropPhase where
  | running
  | stored
  | hinted
  deriving DecidableEq

structure Rmcp where
  records : Finmap (fun _ : TaskId => DetailedTask)
  issued : Finset TaskId
  drop : TaskId → DropPhase

structure Shared where
  closed : Bool
  state : AuthorityState
  rmcp : Rmcp
  signals : TaskId → TaskSignal
  cells : TaskId → TaskBinding
  clock : Instant
  fallbackWindow : List Instant
  observerStarted : Bool
  observerNotify : Bool
  observerStop : Bool

/-- `AuthorityState::default()`, also what a drain leaves behind. -/
def AuthorityState.empty : AuthorityState where
  bindings := ∅
  leases := ∅
  reservedLeases := 0
  activeWaiters := 0
  observerPrincipals := []
  observerTasks := fun _ => []

def Shared.init : Shared where
  closed := false
  state := .empty
  rmcp := ⟨∅, ∅, fun _ => .running⟩
  signals := fun _ => ⟨0, 0, false⟩
  cells := fun _ => default
  clock := 0
  fallbackWindow := []
  observerStarted := false
  observerNotify := false
  observerStop := false

/-! ### Sections of the `state` mutex -/

namespace AuthorityState

variable (st : AuthorityState)

def retained : ℕ := st.leases.keys.card + st.reservedLeases

def reserve : AuthorityState := { st with reservedLeases := st.reservedLeases + 1 }

/-- The reservation becomes a lease (`saturating_sub` is the subtraction of `ℕ`). -/
def convert (id : TaskId) (lease : LeaseInfo) : AuthorityState :=
  { st with
    reservedLeases := st.reservedLeases - 1
    leases := st.leases.insert id lease }

def release (id : TaskId) : AuthorityState := { st with leases := st.leases.erase id }

@[simps! leases reservedLeases]
def publish (id : TaskId) (principal : TaskPrincipal) : AuthorityState :=
  { st with
    observerTasks :=
      Function.update st.observerTasks principal (st.observerTasks principal ++ [id])
    observerPrincipals :=
      if st.observerTasks principal = [] then st.observerPrincipals ++ [principal]
      else st.observerPrincipals
    bindings := insert id st.bindings }

@[simps! bindings leases reservedLeases]
def removeBinding (id : TaskId) : AuthorityState :=
  { st with leases := st.leases.erase id, bindings := st.bindings.erase id }

/-- `leases.get_mut(id)` and an update in place. -/
def modifyLease (id : TaskId) (f : LeaseInfo → LeaseInfo) : AuthorityState :=
  match st.leases.lookup id with
  | none => st
  | some lease => { st with leases := st.leases.insert id (f lease) }

section Facts

variable {st} {id : TaskId} {f : LeaseInfo → LeaseInfo}

theorem mem_modifyLease {x : TaskId} : x ∈ (st.modifyLease id f).leases ↔ x ∈ st.leases := by
  unfold modifyLease
  cases h : st.leases.lookup id with
  | none => rfl
  | some lease =>
    simp only [mem_insert, or_iff_right_iff_imp]
    rintro rfl
    exact mem_of_lookup_eq_some h

@[simp] theorem modifyLease_keys : (st.modifyLease id f).leases.keys = st.leases.keys := by
  ext x
  rw [mem_keys, mem_keys, mem_modifyLease]

theorem modifyLease_lookup (x : TaskId) : (st.modifyLease id f).leases.lookup x =
    if x = id then (st.leases.lookup id).map f else st.leases.lookup x := by
  unfold modifyLease
  by_cases hx : x = id
  · subst hx
    cases h : st.leases.lookup x with
    | none => simp [h]
    | some lease => simp
  · rw [if_neg hx]
    cases h : st.leases.lookup id with
    | none => rfl
    | some lease => exact lookup_insert_of_ne _ hx

@[simp] theorem modifyLease_bindings : (st.modifyLease id f).bindings = st.bindings := by
  unfold modifyLease; split <;> rfl

@[simp] theorem modifyLease_reservedLeases : (st.modifyLease id f).reservedLeases = st.reservedLeases := by
  unfold modifyLease; split <;> rfl

@[simp] theorem modifyLease_observerTasks : (st.modifyLease id f).observerTasks = st.observerTasks := by
  unfold modifyLease; split <;> rfl

@[simp] theorem modifyLease_observerPrincipals : (st.modifyLease id f).observerPrincipals = st.observerPrincipals := by
  unfold modifyLease; split <;> rfl

end Facts

end AuthorityState

/-- `rotate_observer_task_to_back` and `rotate_observer_principal_to_back`. -/
def rotateToBack {α : Type} [DecidableEq α] (queue : List α) (x : α) : List α :=
  if x ∈ queue then queue.erase x ++ [x] else queue

theorem rotateToBack_perm {α : Type} [DecidableEq α] (queue : List α) (x : α) : (rotateToBack queue x).Perm queue := by
  unfold rotateToBack
  split_ifs with hx
  · exact (List.perm_append_singleton x _).trans (List.perm_cons_erase hx).symm
  · exact List.Perm.refl _

@[simps! bindings leases reservedLeases]
def AuthorityState.rotateObserver (st : AuthorityState) (principal : TaskPrincipal)
    (id : TaskId) : AuthorityState :=
  { st with
    observerTasks :=
      Function.update st.observerTasks principal (rotateToBack (st.observerTasks principal) id)
    observerPrincipals := rotateToBack st.observerPrincipals principal }

namespace AuthorityState

variable {st : AuthorityState} {principal : TaskPrincipal} {id : TaskId}

theorem rotateObserver_tasks_perm (p : TaskPrincipal) :
    ((st.rotateObserver principal id).observerTasks p).Perm (st.observerTasks p) := by
  simp only [rotateObserver]
  by_cases hp : p = principal
  · subst hp
    rw [Function.update_self]
    exact rotateToBack_perm _ _
  · rw [Function.update_of_ne hp]

theorem rotateObserver_principals_perm :
    (st.rotateObserver principal id).observerPrincipals.Perm st.observerPrincipals :=
  rotateToBack_perm _ _

end AuthorityState

/-! ### Signals and binding objects -/

namespace Shared

variable (sh : Shared)

@[simps! state closed rmcp signals cells]
def setState (st : AuthorityState) : Shared := { sh with state := st }

@[simps! closed state rmcp cells]
def setSignal (id : TaskId) (sig : TaskSignal) : Shared :=
  { sh with signals := Function.update sh.signals id sig }

@[simps! state closed rmcp signals]
def setCell (id : TaskId) (b : TaskBinding) : Shared :=
  { sh with cells := Function.update sh.cells id b }

/-- The generation step of `TaskSignal::hint`: `fetch_add`, wake the waiters, wake the observer. -/
@[simps! closed state rmcp cells]
def bump (id : TaskId) : Shared :=
  let sig := sh.signals id
  { sh.setSignal id
      { sig with generation := (sig.generation + 1) % 2 ^ 64, waiters := sig.waiters + 1 } with
    observerNotify := true }

@[simps! closed state rmcp cells]
def setSettlement (id : TaskId) (pending : Bool) : Shared :=
  sh.setSignal id { sh.signals id with settlementPending := pending }

/-- `observation_done.notify_waiters()`. -/
@[simps! closed state rmcp signals]
def notifyDone (id : TaskId) : Shared :=
  sh.setCell id { sh.cells id with observationDone := (sh.cells id).observationDone + 1 }

@[simps! closed state rmcp signals]
def touch (id : TaskId) : Shared :=
  sh.setCell id { sh.cells id with lastReadAt := some sh.clock }

/-- `TaskBinding::observe`: the cache takes the snapshot whatever its age. -/
def observe (id : TaskId) (task : DetailedTask) : Shared :=
  if (sh.cells id).task = task then sh
  else
    (sh.setCell id { sh.cells id with
      revision := min ((sh.cells id).revision + 1) (2 ^ 64 - 1)
      task := task }).setSignal id
        { sh.signals id with waiters := (sh.signals id).waiters + 1 }

def snapshot (id : TaskId) : AuthorizedTaskSnapshot := ⟨(sh.cells id).task, (sh.cells id).revision⟩

section Facts

variable {sh} {id : TaskId} {task : DetailedTask}

@[simp] theorem observe_closed : (sh.observe id task).closed = sh.closed := by
  unfold observe; split <;> rfl

@[simp] theorem observe_state : (sh.observe id task).state = sh.state := by
  unfold observe; split <;> rfl

@[simp] theorem observe_rmcp : (sh.observe id task).rmcp = sh.rmcp := by
  unfold observe; split <;> rfl

end Facts

/-! ### RMCP -/

@[simps! closed state signals cells]
def materialise (id : TaskId) (task : DetailedTask) : Shared :=
  { sh with rmcp := { sh.rmcp with
      records := sh.rmcp.records.insert id task
      issued := insert id sh.rmcp.issued } }

/-- `TaskManager::spawn` issues an id it never issued before, for a task that is not over. -/
def CanMaterialise (id : TaskId) (task : DetailedTask) : Prop :=
  id ∉ sh.rmcp.issued ∧ task.isTerminal = false

instance (id : TaskId) (task : DetailedTask) : Decidable (sh.CanMaterialise id task) :=
  inferInstanceAs (Decidable (_ ∧ _))

def setRecord (id : TaskId) (task : DetailedTask) : Shared :=
  { sh with rmcp := { sh.rmcp with records := sh.rmcp.records.insert id task } }

def dropRecord (id : TaskId) : Shared :=
  { sh with rmcp := { sh.rmcp with records := sh.rmcp.records.erase id } }

/-- `TaskManager::shutdown`. -/
@[simps! closed state signals cells]
def shutdownRmcp : Shared := { sh with rmcp := { sh.rmcp with records := ∅ } }

def setDrop (id : TaskId) (p : DropPhase) : Shared :=
  { sh with rmcp := { sh.rmcp with drop := Function.update sh.rmcp.drop id p } }

/-! ### Lease updates after a read -/

/-- The lease section of `observe_or_close`.  Without a lease even the settlement flag stays. -/
def leaseAfterRead (id : TaskId) (task : DetailedTask) (generation : ℕ) : Shared :=
  let updated := sh.setState (sh.state.modifyLease id fun lease =>
    { lease with
      observedSignalGeneration := generation
      nextProbeAt :=
        if task.isTerminal then lease.ttl.map (sh.clock + ·)
        else if (sh.signals id).settlementPending then some (sh.clock + settlementRecheck)
        else lease.nextProbeAt })
  if task.isTerminal && decide (id ∈ sh.state.leases) then updated.setSettlement id false
  else updated

/-- The lease section of the observer after a successful read: `scanned` is the generation of the
scan, `signal` the one loaded after the read, `now` the instant taken with it. -/
def observerLease (id : TaskId) (task : DetailedTask) (scanned signal : ℕ) (now : Instant) :
    AuthorityState :=
  (sh.state.modifyLease id fun lease =>
    { lease with
      observedSignalGeneration :=
        if signal = scanned then signal else lease.observedSignalGeneration
      nextProbeAt :=
        if task.isTerminal then lease.ttl.map (now + ·)
        else if (sh.signals id).settlementPending then some (now + settlementRecheck)
        else lease.ttl.map (lease.createdAt + ·) }).rotateObserver (sh.cells id).principal id

/-- The observer found the record evicted. -/
@[simps! bindings leases reservedLeases]
def observerEvict (id : TaskId) : AuthorityState :=
  (sh.state.removeBinding id).rotateObserver (sh.cells id).principal id

/-- The observer skips a read that another caller just made. -/
def coalesce (id : TaskId) (lastRead : Instant) : AuthorityState :=
  sh.state.modifyLease id fun lease =>
    { lease with nextProbeAt :=
        lease.ttl.map fun ttl => max (lease.createdAt + ttl) (lastRead + settlementRecheck) }

/-- Nothing happened to the task since the lease was last brought up to date. -/
def cleanRead (id : TaskId) : Bool :=
  match sh.state.leases.lookup id with
  | none => false
  | some lease =>
    lease.observedSignalGeneration == (sh.signals id).generation &&
      !(sh.signals id).settlementPending

def recentRead (id : TaskId) : Option Instant :=
  (sh.cells id).lastReadAt.filter fun last => sh.clock < last + settlementRecheck

section Facts

variable {sh} {id : TaskId} {task : DetailedTask} {gen : ℕ}

@[simp] theorem leaseAfterRead_closed : (sh.leaseAfterRead id task gen).closed = sh.closed := by
  unfold leaseAfterRead; dsimp only; split <;> rfl

@[simp] theorem leaseAfterRead_rmcp : (sh.leaseAfterRead id task gen).rmcp = sh.rmcp := by
  unfold leaseAfterRead; dsimp only; split <;> rfl

@[simp] theorem leaseAfterRead_cells : (sh.leaseAfterRead id task gen).cells = sh.cells := by
  unfold leaseAfterRead; dsimp only; split <;> rfl

variable {scanned signal : ℕ} {now : Instant}

@[simp] theorem observerLease_bindings :
    (sh.observerLease id task scanned signal now).bindings = sh.state.bindings := by
  simp [observerLease]

@[simp] theorem observerLease_keys :
    (sh.observerLease id task scanned signal now).leases.keys = sh.state.leases.keys := by
  simp [observerLease]

@[simp] theorem observerLease_reservedLeases :
    (sh.observerLease id task scanned signal now).reservedLeases = sh.state.reservedLeases := by
  simp [observerLease]

theorem observerLease_tasks_perm (p : TaskPrincipal) :
    ((sh.observerLease id task scanned signal now).observerTasks p).Perm (sh.state.observerTasks p) := by
  refine (AuthorityState.rotateObserver_tasks_perm p).trans ?_
  rw [AuthorityState.modifyLease_observerTasks]

theorem observerLease_principals_perm : (sh.observerLease id task scanned signal now).observerPrincipals.Perm
      sh.state.observerPrincipals := by
  refine AuthorityState.rotateObserver_principals_perm.trans ?_
  rw [AuthorityState.modifyLease_observerPrincipals]

theorem leaseAfterRead_state : (sh.leaseAfterRead id task gen).state = sh.state.modifyLease id fun lease => { lease with
        observedSignalGeneration := gen
        nextProbeAt :=
          if task.isTerminal then lease.ttl.map (sh.clock + ·)
          else if (sh.signals id).settlementPending then some (sh.clock + settlementRecheck)
          else lease.nextProbeAt } := by
  unfold leaseAfterRead; dsimp only; split <;> rfl

end Facts

end Shared

end McpToolkit.Tasks

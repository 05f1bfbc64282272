import McpToolkit.Lib.Ordered
import McpToolkit.Lib.System
import McpToolkit.Process.Supervisor

/-!
# McpToolkit.Process.Registry — the children of one manager

`ProcessManager` of `supervisor.rs`: its registry, the calls of `spawn` and `shutdown`, and all supervisors.
Only the call that holds the registry lock can be inside its section, so `inside` is the place of that one
call; a call that waits for the lock has not started.  The reads and sends of the watch channels are steps of
their own, and the supervisors run between them, except that `retire_completed` waits for the lock.

Children are numbered in the order of their creation.  `returned` lists the children whose spawn has returned.
A report keeps, next to what `shutdown` returns, what the call did: the children it had to reach when it took
the lock (`due`), those it sent a cancel to, and the statuses it read.
-/

namespace McpToolkit.Process

open List
open Lib

inductive ProcessGroupPolicy
  | required
  | allowDirectChildFallback
  deriving DecidableEq

/-- `resolve_scope`, on what the group setup returned. -/
def resolveScope (policy : ProcessGroupPolicy) (setup : Option ProcessGroupError) :
    Except ProcessGroupError SignalScope :=
  match setup with
  | none => .ok .processGroup
  | some .unsupportedPlatform =>
    if policy = .allowDirectChildFallback then .ok .directChild else .error .unsupportedPlatform
  | some error => .error error

structure ManagerConfig where
  grace : ℕ
  policy : ProcessGroupPolicy
  deriving DecidableEq

structure ManagedChild where
  context : SupervisorContext
  task : Supervised

structure ShutdownReport where
  pending : List ProcessStatus
  due : List ℕ
  sent : List ℕ
  read : List (ℕ × ProcessStatus)
  deriving DecidableEq

/-- The place of the call that holds the registry lock. -/
inductive LockedSection
  /-- `spawn`, before the child is created -/
  | configure
  /-- `spawn`, about to look at the status of the new child -/
  | check (child : ℕ)
  | publish (child : ℕ) (exited : Bool)
  | leave (child : ℕ)
  /-- `shutdown`, with the entries it has not visited -/
  | sending (report : ShutdownReport) (todo : List (ℕ × ℕ))
  | reading (report : ShutdownReport) (child : ℕ) (todo : List (ℕ × ℕ))
  deriving DecidableEq

structure Manager where
  clock : ℕ
  nextId : ℕ
  children : List ManagedChild
  entries : List (ℕ × ℕ)
  inside : Option LockedSection
  returned : List ℕ
  reports : List ShutdownReport

inductive ManagerEvent
  | tick (elapsed : ℕ)
  /-- a handle cancels, or is dropped -/
  | request (child : ℕ)
  | own (child : ℕ) (event : SupervisorEvent)
  /-- a call of `spawn` or of `shutdown` takes the lock -/
  | spawn
  | shutdown
  /-- what the group setup and the operating system answer to a spawn -/
  | created (setup : Option ProcessGroupError) (osPid : Option ℕ)
  /-- the call inside goes on -/
  | proceed
  deriving DecidableEq

/-- A `u64` counter that wraps. -/
def processId (counter : ℕ) : ℕ := counter % 2 ^ 64

namespace Manager

def start (clock : ℕ) : Manager := ⟨clock, 1, [], [], none, [], []⟩

def setTask (s : Manager) (k : ℕ) (child : ManagedChild) (task : Supervised) : Manager :=
  { s with children := s.children.set k { child with task := task } }

/-- `retire_completed` for the child with this identifier. -/
def retireCompleted (s : Manager) (id : ℕ) : List (ℕ × ℕ) :=
  match s.entries.find? fun entry => entry.1 == id with
  | none => s.entries
  | some entry =>
    if s.children[entry.2]?.any fun child => child.task.status.isExited then
      s.entries.filter fun entry => entry.1 != id
    else s.entries

def own (s : Manager) (k : ℕ) (event : SupervisorEvent) : Option Manager :=
  s.children[k]?.bind fun child =>
    (child.task.advance child.context s.clock event).bind fun task =>
      if child.task.pc = .retire then
        if s.inside = none then
          some { s.setTask k child task with entries := s.retireCompleted child.context.id }
        else none
      else some (s.setTask k child task)

/-- The children that a shutdown has to reach: their spawn has returned and they have not exited. -/
def due (s : Manager) : List ℕ :=
  s.returned.filter fun k => s.children[k]?.any fun child => !child.task.status.isExited

/-- The call that holds the lock takes its next step. -/
def proceed (s : Manager) : LockedSection → Option Manager
  | .configure => none
  | .check k =>
    s.children[k]?.map fun child => { s with inside := some (.publish k child.task.status.isExited) }
  | .publish k exited =>
    s.children[k]?.map fun child =>
      { s with
        entries := if exited then s.entries else Ordered.insert (fun id => id) child.context.id k s.entries
        inside := some (.leave k) }
  | .leave k => some { s with inside := none, returned := s.returned ++ [k] }
  | .sending report [] => some { s with inside := none, reports := s.reports ++ [report] }
  | .sending report ((_, k) :: todo) =>
    s.children[k]?.map fun child =>
      { s.setTask k child child.task.cancel with
        inside := some (.reading { report with sent := report.sent ++ [k] } k todo) }
  | .reading report k todo =>
    s.children[k]?.map fun child =>
      let status := child.task.status
      { s with
        inside := some (.sending
          { report with
            pending := if status.isExited then report.pending else report.pending ++ [status]
            read := report.read ++ [(k, status)] } todo) }

/-- The rest of a `spawn` up to the start of the supervisor; on an error the call returns. -/
def create (config : ManagerConfig) (s : Manager) (setup : Option ProcessGroupError) (osPid : Option ℕ) :
    Manager :=
  match resolveScope config.policy setup, osPid with
  | .ok scope, some pid =>
    let context : SupervisorContext := ⟨processId s.nextId, some pid, scope, config.grace, rfl⟩
    { s with
      nextId := s.nextId + 1
      children := s.children ++ [⟨context, .start context⟩]
      inside := some (.check s.children.length) }
  | _, _ => { s with inside := none }

def step (config : ManagerConfig) (s : Manager) : ManagerEvent → Option Manager
  | .tick elapsed => some { s with clock := s.clock + elapsed }
  | .request k =>
    if k ∈ s.returned then s.children[k]?.map fun child => s.setTask k child child.task.cancel else none
  | .own k event => s.own k event
  | .spawn => if s.inside = none then some { s with inside := some .configure } else none
  | .shutdown =>
    if s.inside = none then some { s with inside := some (.sending ⟨[], s.due, [], []⟩ s.entries) } else none
  | .created setup osPid =>
    if s.inside = some .configure then some (s.create config setup osPid) else none
  | .proceed => s.inside.bind s.proceed

end Manager

def managing (config : ManagerConfig) : System Manager ManagerEvent := ⟨Manager.step config⟩

/-- The task of the supervisor is over. -/
def SupervisorPc.over : SupervisorPc → Bool
  | .finished | .panicked => true
  | _ => false

/-- The shutdown sent the child a cancel, and reports it unless it read that the child has exited. -/
def ShutdownReport.Reached (report : ShutdownReport) (k : ℕ) : Prop :=
  k ∈ report.sent ∧
    ∃ status, (k, status) ∈ report.read ∧ (status.isExited = false → status ∈ report.pending)

namespace Manager

/-- **Completeness of the registry** in one state. -/
structure Complete (s : Manager) : Prop where
  reached : ∀ report ∈ s.reports, ∀ k ∈ report.due, report.Reached k
  emptied : (∀ child ∈ s.children, child.task.pc.over = true) → s.entries = []

/-- An entry that a step removes is of a child whose exit is published. -/
def RemovedAfterExit (s t : Manager) : Prop :=
  ∀ entry ∈ s.entries, entry ∉ t.entries →
    ∃ child, s.children[entry.2]? = some child ∧ child.task.status.isExited = true

/-- No deadline overflows, and the counter of the identifiers has not wrapped. -/
def InRange (s : Manager) : ManagerEvent → Prop
  | .own k _ => s.children[k]?.all (fun child => child.context.inRange child.task.pc) = true
  | .created _ _ => s.nextId < 2 ^ 64
  | _ => True

instance (s : Manager) : (e : ManagerEvent) → Decidable (InRange s e)
  | .own _ _ => inferInstanceAs (Decidable (_ = true))
  | .created _ _ => inferInstanceAs (Decidable (s.nextId < 2 ^ 64))
  | .tick _ | .request _ | .spawn | .shutdown | .proceed => .isTrue trivial

/-- Every step, with what it found and what it left. -/
inductive Steps (config : ManagerConfig) (s : Manager) : ManagerEvent → Manager → Prop
  | tick {elapsed : ℕ} : Steps config s (.tick elapsed) { s with clock := s.clock + elapsed }
  | request {k : ℕ} {child : ManagedChild} : s.children[k]? = some child →
      Steps config s (.request k) (s.setTask k child child.task.cancel)
  | own {k : ℕ} {event : SupervisorEvent} {child : ManagedChild} {task : Supervised} :
      s.children[k]? = some child → child.task.Advances child.context s.clock event task →
      child.task.pc ≠ .retire → Steps config s (.own k event) (s.setTask k child task)
  | retired {k : ℕ} {event : SupervisorEvent} {child : ManagedChild} {task : Supervised} :
      s.children[k]? = some child → child.task.Advances child.context s.clock event task →
      child.task.pc = .retire → s.inside = none →
      Steps config s (.own k event)
        { s.setTask k child task with entries := s.retireCompleted child.context.id }
  | spawn : s.inside = none → Steps config s .spawn { s with inside := some .configure }
  | shutdown : s.inside = none →
      Steps config s .shutdown { s with inside := some (.sending ⟨[], s.due, [], []⟩ s.entries) }
  | created {setup : Option ProcessGroupError} {osPid : Option ℕ} (context : SupervisorContext) :
      s.inside = some .configure → context.id = processId s.nextId →
      Steps config s (.created setup osPid)
        { s with
          nextId := s.nextId + 1
          children := s.children ++ [⟨context, .start context⟩]
          inside := some (.check s.children.length) }
  | failed {setup : Option ProcessGroupError} {osPid : Option ℕ} : s.inside = some .configure →
      Steps config s (.created setup osPid) { s with inside := none }
  | checked {k : ℕ} {child : ManagedChild} : s.inside = some (.check k) → s.children[k]? = some child →
      Steps config s .proceed { s with inside := some (.publish k child.task.status.isExited) }
  | skipped {k : ℕ} {child : ManagedChild} : s.inside = some (.publish k true) →
      s.children[k]? = some child →
      Steps config s .proceed { s with inside := some (.leave k) }
  | published {k : ℕ} {child : ManagedChild} : s.inside = some (.publish k false) →
      s.children[k]? = some child →
      Steps config s .proceed
        { s with
          entries := Ordered.insert (fun id => id) child.context.id k s.entries
          inside := some (.leave k) }
  | left {k : ℕ} : s.inside = some (.leave k) →
      Steps config s .proceed { s with inside := none, returned := s.returned ++ [k] }
  | sent {report : ShutdownReport} {id k : ℕ} {todo : List (ℕ × ℕ)} {child : ManagedChild} :
      s.inside = some (.sending report ((id, k) :: todo)) → s.children[k]? = some child →
      Steps config s .proceed
        { s.setTask k child child.task.cancel with
          inside := some (.reading { report with sent := report.sent ++ [k] } k todo) }
  | read {report : ShutdownReport} {k : ℕ} {todo : List (ℕ × ℕ)} {child : ManagedChild} :
      s.inside = some (.reading report k todo) → s.children[k]? = some child →
      Steps config s .proceed
        { s with
          inside := some (.sending
            { report with
              pending :=
                if child.task.status.isExited then report.pending else report.pending ++ [child.task.status]
              read := report.read ++ [(k, child.task.status)] } todo) }
  | reported {report : ShutdownReport} : s.inside = some (.sending report []) →
      Steps config s .proceed { s with inside := none, reports := s.reports ++ [report] }

variable {config : ManagerConfig} {s t : Manager} {e : ManagerEvent}

theorem steps_of_own {k : ℕ} {event : SupervisorEvent} (h : s.own k event = some t) :
    Steps config s (.own k event) t := by
  obtain ⟨child, hchild, h⟩ := Option.bind_eq_some_iff.mp h
  obtain ⟨task, htask, h⟩ := Option.bind_eq_some_iff.mp h
  have hadv := Supervised.advances_of_advance htask
  split_ifs at h with hpc hinside
  · cases h; exact .retired hchild hadv hpc hinside
  · cases h; exact .own hchild hadv hpc

theorem steps_of_created {setup : Option ProcessGroupError} {osPid : Option ℕ} (hinside : s.inside = some .configure) :
    Steps config s (.created setup osPid) (s.create config setup osPid) := by
  unfold create
  split
  · exact .created _ hinside rfl
  · exact .failed hinside

theorem steps_of_proceed {place : LockedSection} (hinside : s.inside = some place)
    (h : s.proceed place = some t) : Steps config s .proceed t := by
  unfold proceed at h
  split at h
  case h_1 => cases h
  case h_2 => obtain ⟨child, hchild, rfl⟩ := Option.map_eq_some_iff.mp h; exact .checked hinside hchild
  case h_3 =>
    obtain ⟨child, hchild, rfl⟩ := Option.map_eq_some_iff.mp h
    split_ifs with hexited
    · exact .skipped (hexited ▸ hinside) hchild
    · exact .published (Bool.eq_false_iff.mpr hexited ▸ hinside) hchild
  case h_4 => cases h; exact .left hinside
  case h_5 => cases h; exact .reported hinside
  case h_6 => obtain ⟨child, hchild, rfl⟩ := Option.map_eq_some_iff.mp h; exact .sent hinside hchild
  case h_7 => obtain ⟨child, hchild, rfl⟩ := Option.map_eq_some_iff.mp h; exact .read hinside hchild

theorem steps_of_step (h : (managing config).step s e = some t) : Steps config s e t := by
  cases e with
  | tick elapsed => cases h; exact .tick
  | request k =>
    obtain ⟨-, h⟩ := Option.ite_none_right_eq_some.mp h
    obtain ⟨child, hchild, rfl⟩ := Option.map_eq_some_iff.mp h
    exact .request hchild
  | own k event => exact steps_of_own h
  | spawn =>
    obtain ⟨hinside, ⟨⟩⟩ := Option.ite_none_right_eq_some.mp h
    exact .spawn hinside
  | shutdown =>
    obtain ⟨hinside, ⟨⟩⟩ := Option.ite_none_right_eq_some.mp h
    exact .shutdown hinside
  | created setup osPid =>
    obtain ⟨hinside, ⟨⟩⟩ := Option.ite_none_right_eq_some.mp h
    exact steps_of_created hinside
  | proceed =>
    obtain ⟨place, hinside, h⟩ := Option.bind_eq_some_iff.mp h
    exact steps_of_proceed hinside h

/-! ### The invariant -/

/-- The shutdown has reached every child it has to, or will visit it. -/
def Covers (report : ShutdownReport) (todo : List (ℕ × ℕ)) : Prop :=
  ∀ k ∈ report.due, report.Reached k ∨ ∃ id, (id, k) ∈ todo

/-- What the call inside can rely on. -/
def InsideOk (children : List ManagedChild) (entries : List (ℕ × ℕ)) : Option LockedSection → Prop
  | none | some .configure => True
  | some (.check k) => ∀ entry ∈ entries, entry.2 ≠ k
  -- the lock keeps the new child from being retired
  | some (.publish k exited) => (∀ entry ∈ entries, entry.2 ≠ k) ∧
      ∀ child, children[k]? = some child →
        if exited then child.task.status.isExited = true else child.task.pc ≠ .finished
  | some (.leave k) => k < children.length ∧ ∀ child, children[k]? = some child →
      child.task.status.isExited = false → (k + 1, k) ∈ entries
  | some (.sending report todo) => Covers report todo
  | some (.reading report k todo) =>
      k ∈ report.sent ∧ ∀ d ∈ report.due, report.Reached d ∨ d = k ∨ ∃ id, (id, d) ∈ todo

structure Inv (s : Manager) : Prop where
  counter : s.nextId = s.children.length + 1
  ids : ∀ (k : ℕ) (child : ManagedChild), s.children[k]? = some child → child.context.id = k + 1
  exited : ∀ (k : ℕ) (child : ManagedChild), s.children[k]? = some child →
    child.task.status.isExited = child.task.pc.ended
  alive : ∀ (k : ℕ) (child : ManagedChild), s.children[k]? = some child → child.task.pc ≠ .panicked
  entries : ∀ entry ∈ s.entries, entry.1 = entry.2 + 1 ∧ entry.2 < s.children.length
  working : ∀ entry ∈ s.entries, ∀ child : ManagedChild, s.children[entry.2]? = some child →
    child.task.pc ≠ .finished
  returned : ∀ k ∈ s.returned, k < s.children.length
  registered : ∀ k ∈ s.returned, ∀ child : ManagedChild, s.children[k]? = some child →
    child.task.status.isExited = false → (k + 1, k) ∈ s.entries
  inside : InsideOk s.children s.entries s.inside
  reports : ∀ report ∈ s.reports, Covers report []

theorem inv_start (clock : ℕ) : Inv (start clock) := by
  constructor <;> simp [start, InsideOk]

/-- How a task may change without the registry taking part. -/
structure Goes (before after : Supervised) : Prop where
  exited : after.status.isExited = after.pc.ended
  alive : after.pc ≠ .panicked
  working : before.pc ≠ .finished → after.pc ≠ .finished
  published : before.status.isExited = true → after.status.isExited = true

section Tasks

variable {k : ℕ} {child : ManagedChild} {task : Supervised}

theorem InsideOk.mono {children children' : List ManagedChild} {entries : List (ℕ × ℕ)}
    {inside : Option LockedSection} (h : InsideOk children entries inside)
    (hlength : children'.length = children.length) (hgo : ∀ {j : ℕ} {after : ManagedChild}, children'[j]? = some after →
      ∃ before, children[j]? = some before ∧ after.context = before.context ∧ Goes before.task after.task) :
    InsideOk children' entries inside := by
  rcases inside with _ | place
  · trivial
  cases place with
  | publish j exited =>
    refine ⟨h.1, ?_⟩
    intro after hafter
    obtain ⟨before, hbefore, -, hgoes⟩ := hgo hafter
    have hold := h.2 before hbefore
    cases exited with
    | true => exact hgoes.published hold
    | false => exact hgoes.working hold
  | leave j =>
    refine ⟨hlength ▸ h.1, ?_⟩
    intro after hafter hexited
    obtain ⟨before, hbefore, -, hgoes⟩ := hgo hafter
    refine h.2 before hbefore (Bool.eq_false_iff.mpr ?_)
    intro hpublished
    rw [hgoes.published hpublished] at hexited
    cases hexited
  | _ => exact h

section

variable (h : Inv s) (hchild : s.children[k]? = some child)
include h hchild

theorem Inv.goes_refl : Goes child.task child.task :=
  ⟨h.exited k child hchild, h.alive k child hchild, id, id⟩

theorem Inv.goes_cancel : Goes child.task child.task.cancel :=
  ⟨h.exited k child hchild, h.alive k child hchild, id, id⟩

theorem Inv.goes_own {event : SupervisorEvent}
    (hadv : child.task.Advances child.context s.clock event task) (hpc : child.task.pc ≠ .retire)
    (hrange : InRange s (.own k event)) : Goes child.task task where
  exited := hadv.exited (h.exited k child hchild)
  alive := by
    have hin : s.children[k]?.all (fun child => child.context.inRange child.task.pc) = true := hrange
    rw [hchild] at hin
    exact hadv.panicked_iff.mpr hin
  working := fun _ => hadv.not_finished hpc
  published := by
    intro hexited
    rw [h.exited k child hchild] at hexited
    rw [(hadv.ended_imp hexited).2, h.exited k child hchild, hexited]

theorem Inv.child_setTask (hgo : Goes child.task task) {j : ℕ} {after : ManagedChild}
    (hj : (s.setTask k child task).children[j]? = some after) :
    ∃ before, s.children[j]? = some before ∧ after.context = before.context ∧ Goes before.task after.task := by
  rcases of_getElem?_set hj with hold | ⟨rfl, rfl⟩
  · exact ⟨after, hold, rfl, h.goes_refl hold⟩
  · exact ⟨child, hchild, rfl, hgo⟩

theorem Inv.setTask (hgo : Goes child.task task) : Inv (s.setTask k child task) := by
  have hlength : (s.setTask k child task).children.length = s.children.length := length_set
  constructor
  case counter => rw [hlength]; exact h.counter
  case ids =>
    intro j after hafter
    obtain ⟨before, hbefore, hcontext, -⟩ := h.child_setTask hchild hgo hafter
    rw [hcontext, h.ids j before hbefore]
  case exited =>
    intro j after hafter
    obtain ⟨before, -, -, hgoes⟩ := h.child_setTask hchild hgo hafter
    exact hgoes.exited
  case alive =>
    intro j after hafter
    obtain ⟨before, -, -, hgoes⟩ := h.child_setTask hchild hgo hafter
    exact hgoes.alive
  case entries => rw [hlength]; exact h.entries
  case working =>
    intro entry hentry after hafter
    obtain ⟨before, hbefore, -, hgoes⟩ := h.child_setTask hchild hgo hafter
    exact hgoes.working (h.working entry hentry before hbefore)
  case returned => rw [hlength]; exact h.returned
  case registered =>
    intro j hj after hafter hexited
    obtain ⟨before, hbefore, -, hgoes⟩ := h.child_setTask hchild hgo hafter
    refine h.registered j hj before hbefore (Bool.eq_false_iff.mpr ?_)
    intro hpublished
    rw [hgoes.published hpublished] at hexited
    cases hexited
  case inside => exact h.inside.mono hlength (h.child_setTask hchild hgo)
  case reports => exact h.reports

theorem Inv.retireCompleted_eq (hexited : child.task.status.isExited = true) :
    s.retireCompleted child.context.id = s.entries.filter fun entry => entry.1 != k + 1 := by
  rw [h.ids k child hchild]
  unfold retireCompleted
  cases hfind : s.entries.find? fun entry => entry.1 == k + 1 with
  | none =>
    refine (filter_eq_self.mpr ?_).symm
    intro entry hentry
    simpa using find?_eq_none.mp hfind entry hentry
  | some entry =>
    have hkey : entry.1 = k + 1 := by simpa using find?_some hfind
    have hnumber := (h.entries entry (mem_of_find?_eq_some hfind)).1
    obtain rfl : entry.2 = k := by omega
    simp [hchild, hexited]

theorem Inv.retired {event : SupervisorEvent}
    (hadv : child.task.Advances child.context s.clock event task) (hpc : child.task.pc = .retire)
    (hinside : s.inside = none) :
    Inv { s.setTask k child task with entries := s.retireCompleted child.context.id } := by
  have hexited : child.task.status.isExited = true := by rw [h.exited k child hchild, hpc]; rfl
  have htask : task.status.isExited = true := by
    rw [(hadv.ended_imp (by rw [hpc]; rfl)).2, hexited]
  have hlength : (s.setTask k child task).children.length = s.children.length := length_set
  -- a child other than `k` is as it was
  have hold : ∀ {j : ℕ} {after : ManagedChild}, (s.setTask k child task).children[j]? = some after →
      s.children[j]? = some after ∨ j = k ∧ after = { child with task := task } := by
    intro j after hafter
    exact (of_getElem?_set hafter).imp id fun ⟨hj, heq⟩ => ⟨hj.symm, heq.symm⟩
  rw [h.retireCompleted_eq hchild hexited]
  constructor
  case counter => exact hlength ▸ h.counter
  case ids =>
    intro j after hafter
    obtain hsame | ⟨rfl, rfl⟩ := hold hafter
    · exact h.ids j after hsame
    · exact h.ids _ child hchild
  case exited =>
    intro j after hafter
    obtain hsame | ⟨rfl, rfl⟩ := hold hafter
    · exact h.exited j after hsame
    · exact hadv.exited (h.exited _ child hchild)
  case alive =>
    intro j after hafter
    obtain hsame | ⟨rfl, rfl⟩ := hold hafter
    · exact h.alive j after hsame
    · have hended := (hadv.ended_imp (by rw [hpc]; rfl)).1
      intro hpanicked
      rw [show task.pc = .panicked from hpanicked] at hended
      cases hended
  case entries =>
    intro entry hentry
    have := h.entries entry (mem_of_mem_filter hentry)
    exact ⟨this.1, hlength ▸ this.2⟩
  case working =>
    intro entry hentry after hafter
    obtain ⟨hentry, hne⟩ := mem_filter.mp hentry
    obtain hsame | ⟨hk, -⟩ := hold hafter
    · exact h.working entry hentry after hsame
    · rw [(h.entries entry hentry).1, hk] at hne
      simp at hne
  case returned => exact fun j hj => hlength ▸ h.returned j hj
  case registered =>
    intro j hj after hafter hnot
    obtain hsame | ⟨rfl, rfl⟩ := hold hafter
    · refine mem_filter.mpr ⟨h.registered j hj after hsame hnot, ?_⟩
      have hne : j ≠ k := by
        rintro rfl
        rw [hchild] at hsame
        obtain rfl := Option.some.inj hsame
        rw [hexited] at hnot
        cases hnot
      simpa using hne
    · rw [show task.status.isExited = false from hnot] at htask
      cases htask
  case inside => rw [show (s.setTask k child task).inside = none from hinside]; trivial
  case reports => exact h.reports

end

theorem Inv.created (h : Inv s) (context : SupervisorContext) (hid : context.id = processId s.nextId)
    (hrange : s.nextId < 2 ^ 64) : Inv { s with
      nextId := s.nextId + 1
      children := s.children ++ [⟨context, .start context⟩]
      inside := some (.check s.children.length) } := by
  have hnew : context.id = s.children.length + 1 := by
    rw [hid, processId, Nat.mod_eq_of_lt hrange, h.counter]
  have hlength : (s.children ++ [(⟨context, .start context⟩ : ManagedChild)]).length = s.children.length + 1 := by
    simp
  constructor
  case counter => simp [h.counter]
  case ids =>
    intro j after hafter
    obtain hsame | ⟨rfl, rfl⟩ := of_getElem?_concat hafter
    · exact h.ids j after hsame
    · exact hnew
  case exited =>
    intro j after hafter
    obtain hsame | ⟨rfl, rfl⟩ := of_getElem?_concat hafter
    · exact h.exited j after hsame
    · rfl
  case alive =>
    intro j after hafter
    obtain hsame | ⟨rfl, rfl⟩ := of_getElem?_concat hafter
    · exact h.alive j after hsame
    · simp [Supervised.start]
  case entries =>
    intro entry hentry
    have := h.entries entry hentry
    exact ⟨this.1, by simp only [hlength]; omega⟩
  case working =>
    intro entry hentry after hafter
    obtain hsame | ⟨-, rfl⟩ := of_getElem?_concat hafter
    · exact h.working entry hentry after hsame
    · simp [Supervised.start]
  case returned =>
    intro j hj
    have := h.returned j hj
    simp only [hlength]
    omega
  case registered =>
    intro j hj after hafter hnot
    obtain hsame | ⟨rfl, -⟩ := of_getElem?_concat hafter
    · exact h.registered j hj after hsame hnot
    · exact absurd (h.returned _ hj) (Nat.lt_irrefl _)
  case inside =>
    intro entry hentry
    have := (h.entries entry hentry).2
    omega
  case reports => exact h.reports

end Tasks

section Calls

variable {k id : ℕ} {child : ManagedChild} {report : ShutdownReport} {todo : List (ℕ × ℕ)}

section

variable (h : Inv s)
include h

theorem Inv.move {place : Option LockedSection} (hplace : InsideOk s.children s.entries place) :
    Inv { s with inside := place } :=
  { h with inside := hplace }

theorem Inv.covers_due : Covers ⟨[], s.due, [], []⟩ s.entries := by
  intro k hk
  obtain ⟨hreturned, hany⟩ := mem_filter.mp hk
  obtain ⟨child, hchild, hnot⟩ := Option.any_eq_true _ _ |>.mp hany
  exact .inr ⟨k + 1, h.registered k hreturned child hchild (by simpa using hnot)⟩

/-- The status that the call found is the one at its look: an exit published since then does no harm, as
the supervisor cannot retire before the call leaves. -/
theorem Inv.checked (hinside : s.inside = some (.check k)) (hchild : s.children[k]? = some child) :
    Inv { s with inside := some (.publish k child.task.status.isExited) } := by
  have hok := h.inside
  rw [hinside] at hok
  refine h.move ⟨hok, ?_⟩
  intro other hother
  rw [hchild] at hother
  obtain rfl := Option.some.inj hother
  split_ifs with hexited
  · exact hexited
  · intro hpc
    exact hexited (by rw [h.exited k child hchild, hpc]; rfl)

theorem Inv.skipped (hinside : s.inside = some (.publish k true))
    (hchild : s.children[k]? = some child) : Inv { s with inside := some (.leave k) } := by
  have hok := h.inside
  rw [hinside] at hok
  refine h.move ⟨(List.getElem?_eq_some_iff.mp hchild).1, ?_⟩
  intro other hother hnot
  have hexited := hok.2 other hother
  rw [if_pos rfl, hnot] at hexited
  cases hexited

theorem Inv.mem_published (hinside : s.inside = some (.publish k false))
    (hchild : s.children[k]? = some child) (entry : ℕ × ℕ) :
    entry ∈ Ordered.insert (fun id => id) child.context.id k s.entries ↔ entry = (k + 1, k) ∨ entry ∈ s.entries := by
  have hok := h.inside
  rw [hinside] at hok
  have hfresh : ∀ entry ∈ s.entries, entry.1 ≠ k + 1 := by
    intro entry hentry hkey
    have := (h.entries entry hentry).1
    exact hok.1 entry hentry (by omega)
  rw [h.ids k child hchild, (Ordered.insert_perm hfresh).mem_iff, mem_cons]

theorem Inv.published (hinside : s.inside = some (.publish k false)) (hchild : s.children[k]? = some child) :
    Inv { s with
      entries := Ordered.insert (fun id => id) child.context.id k s.entries
      inside := some (.leave k) } := by
  have hmem := h.mem_published hinside hchild
  have hok := h.inside
  rw [hinside] at hok
  have hlt := (List.getElem?_eq_some_iff.mp hchild).1
  exact { h with
    entries := by
      intro entry hentry
      obtain rfl | hentry := (hmem entry).mp hentry
      · exact ⟨rfl, hlt⟩
      · exact h.entries entry hentry
    working := by
      intro entry hentry other hother
      obtain rfl | hentry := (hmem entry).mp hentry
      · exact hok.2 other hother
      · exact h.working entry hentry other hother
    registered := by
      intro j hj other hother hnot
      exact (hmem _).mpr (.inr (h.registered j hj other hother hnot))
    inside := ⟨hlt, fun _ _ _ => (hmem _).mpr (.inl rfl)⟩ }

theorem Inv.left (hinside : s.inside = some (.leave k)) :
    Inv { s with inside := none, returned := s.returned ++ [k] } := by
  have hok := h.inside
  rw [hinside] at hok
  exact { h with
    inside := trivial
    returned := by
      intro j hj
      rcases mem_append.mp hj with hj | hj
      · exact h.returned j hj
      · obtain rfl := mem_singleton.mp hj
        exact hok.1
    registered := by
      intro j hj
      rcases mem_append.mp hj with hj | hj
      · exact h.registered j hj
      · obtain rfl := mem_singleton.mp hj
        exact hok.2 }

theorem Inv.sent (hinside : s.inside = some (.sending report ((id, k) :: todo)))
    (hchild : s.children[k]? = some child) : Inv { s.setTask k child child.task.cancel with
      inside := some (.reading { report with sent := report.sent ++ [k] } k todo) } := by
  have hok := h.inside
  rw [hinside] at hok
  refine (h.setTask hchild (h.goes_cancel hchild)).move ⟨by simp, ?_⟩
  intro d hd
  obtain ⟨hsent, hread⟩ | ⟨other, hmem⟩ := hok d hd
  · exact .inl ⟨mem_append_left _ hsent, hread⟩
  · rcases mem_cons.mp hmem with heq | hmem
    · exact .inr (.inl (Prod.mk.inj heq).2)
    · exact .inr (.inr ⟨other, hmem⟩)

theorem Inv.read (hinside : s.inside = some (.reading report k todo)) (status : ProcessStatus) : Inv { s with
      inside := some (.sending
        { report with
          pending := if status.isExited then report.pending else report.pending ++ [status]
          read := report.read ++ [(k, status)] } todo) } := by
  have hok := h.inside
  rw [hinside] at hok
  refine h.move ?_
  intro d hd
  obtain ⟨hsent, earlier, hread, hpending⟩ | rfl | htodo := hok.2 d hd
  · refine .inl ⟨hsent, earlier, mem_append_left _ hread, ?_⟩
    intro hnot
    split_ifs
    · exact hpending hnot
    · exact mem_append_left _ (hpending hnot)
  · refine .inl ⟨hok.1, status, by simp, ?_⟩
    intro hnot
    simp [hnot]
  · exact .inr htodo

theorem Inv.reported (hinside : s.inside = some (.sending report [])) :
    Inv { s with inside := none, reports := s.reports ++ [report] } := by
  have hok := h.inside
  rw [hinside] at hok
  exact { h with
    inside := trivial
    reports := by
      intro other hother
      rcases mem_append.mp hother with hother | hother
      · exact h.reports other hother
      · obtain rfl := mem_singleton.mp hother
        exact hok }

end

end Calls

theorem Inv.step (h : Inv s) (hrange : InRange s e) (hstep : (managing config).step s e = some t) : Inv t := by
  cases steps_of_step hstep with
  | tick => exact { h with }
  | request hchild => exact h.setTask hchild (h.goes_cancel hchild)
  | own hchild hadv hpc => exact h.setTask hchild (h.goes_own hchild hadv hpc hrange)
  | retired hchild hadv hpc hinside => exact h.retired hchild hadv hpc hinside
  | spawn => exact h.move trivial
  | shutdown => exact h.move h.covers_due
  | created context _ hid => exact h.created context hid hrange
  | failed => exact h.move trivial
  | checked hinside hchild => exact h.checked hinside hchild
  | skipped hinside hchild => exact h.skipped hinside hchild
  | published hinside hchild => exact h.published hinside hchild
  | left hinside => exact h.left hinside
  | sent hinside hchild => exact h.sent hinside hchild
  | read hinside => exact h.read hinside _
  | reported hinside => exact h.reported hinside

theorem Inv.complete (h : Inv s) : Complete s where
  reached := by
    intro report hreport k hk
    obtain hreached | ⟨id, hmem⟩ := h.reports report hreport k hk
    · exact hreached
    · simp at hmem
  emptied := by
    intro hover
    refine eq_nil_iff_forall_not_mem.mpr ?_
    intro entry hentry
    obtain ⟨child, hchild⟩ : ∃ child, s.children[entry.2]? = some child :=
      ⟨_, getElem?_eq_getElem (h.entries entry hentry).2⟩
    have hpc := hover child (mem_of_getElem? hchild)
    have halive := h.alive _ child hchild
    have hworking := h.working entry hentry child hchild
    unfold SupervisorPc.over at hpc
    split at hpc <;> simp_all

theorem Inv.removedAfterExit (h : Inv s) (hstep : (managing config).step s e = some t) : RemovedAfterExit s t := by
  intro entry hentry hgone
  cases steps_of_step hstep with
  | @retired k _ child _ hchild _ hpc _ =>
    have hexited : child.task.status.isExited = true := by rw [h.exited k child hchild, hpc]; rfl
    have hkey : entry.1 = k + 1 := by
      by_contra hne
      apply hgone
      rw [h.retireCompleted_eq hchild hexited]
      exact mem_filter.mpr ⟨hentry, by simpa using hne⟩
    have hnumber := (h.entries entry hentry).1
    obtain rfl : entry.2 = k := by omega
    exact ⟨child, hchild, hexited⟩
  | published hinside hchild =>
    exact absurd ((h.mem_published hinside hchild entry).mpr (.inr hentry)) hgone
  | _ => exact absurd hentry hgone

end Manager

open Manager in
/-- **Completeness of the registry.** -/
theorem registry_complete (config : ManagerConfig) (clock : ℕ) (events : List ManagerEvent)
    (hrange : ∀ x ∈ (managing config).steps (start clock) events, InRange x.1 x.2) :
    (∀ s ∈ (managing config).trace (start clock) events, Complete s) ∧
      ∀ x ∈ (managing config).steps (start clock) events, ∀ t, (managing config).step x.1 x.2 = some t →
        RemovedAfterExit x.1 t := by
  have hinv : ∀ s ∈ (managing config).trace (start clock) events, Inv s :=
    System.forall_trace_of_steps (fun hstep h hrange => h.step hrange hstep) (inv_start clock) hrange
  constructor
  · intro s hs
    exact (hinv s hs).complete
  · intro x hx t hstep
    exact (hinv x.1 (System.mem_trace_of_mem_steps hx)).removedAfterExit hstep

/-- Two children, of which the first exits before its entry is looked at; then a shutdown, after which the
second is killed and reaped. -/
def twoChildren : List ManagerEvent :=
  [.spawn, .created none (some 4321), .own 0 (.waitOk 0), .proceed, .proceed, .proceed, .own 0 .proceed,
    .spawn, .created none (some 4322), .proceed, .proceed, .proceed,
    .shutdown, .proceed, .own 1 .cancelled, .proceed, .proceed,
    .own 1 .proceed, .own 1 (.signalled none), .own 1 .proceed, .tick 20000000, .own 1 .proceed,
    .own 1 (.signalled none), .own 1 (.waitOk 9), .own 1 .proceed]

theorem registry_complete_twoChildren :
    (∀ s ∈ (managing ⟨20000000, .required⟩).trace (.start 0) twoChildren, s.Complete) ∧
      ∀ x ∈ (managing ⟨20000000, .required⟩).steps (.start 0) twoChildren, ∀ t,
        (managing ⟨20000000, .required⟩).step x.1 x.2 = some t → x.1.RemovedAfterExit t :=
  registry_complete ⟨20000000, .required⟩ 0 twoChildren (by decide)

/-- With a grace of `Duration::MAX` the handle is dropped, and the supervisor is gone right after TERM. -/
def droppedHandle : List ManagerEvent :=
  [.spawn, .created none (some 4321), .proceed, .proceed, .proceed, .request 0,
    .own 0 .cancelled, .own 0 .proceed, .own 0 (.signalled none), .own 0 .proceed]

/-- All supervisors are over, and the registry keeps the child. -/
theorem not_registry_complete_droppedHandle :
    ¬ ∀ s ∈ (managing ⟨18446744073709551615999999999, .required⟩).trace (.start 0) droppedHandle, s.Complete := by
  intro h
  have hempty : ∀ s ∈ (managing ⟨18446744073709551615999999999, .required⟩).trace (.start 0) droppedHandle,
      (∀ child ∈ s.children, child.task.pc.over = true) → s.entries = [] :=
    fun s hs => (h s hs).emptied
  exact absurd hempty (by decide)

end McpToolkit.Process

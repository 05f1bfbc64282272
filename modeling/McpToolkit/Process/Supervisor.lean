import Mathlib.Algebra.Group.Nat.Defs
import Mathlib.Data.Nat.Basic

/-!
# McpToolkit.Process.Supervisor — the task that owns one child

`supervise` of `supervisor.rs`, as the steps between its waits.  `advance` is one step of the task: what
`Child::wait`, the timers and the signal calls return comes with the event, and the step is refused where
the task does not poll that source.  Instants and durations are numbers of nanoseconds, timers are
exact, and a poll of a `select!` reads the clock once.

A supervisor runs three loops in a row: it observes the child until cleanup is requested, then until the
deadline of the grace window, then until the child is reaped.
-/

namespace McpToolkit.Process

inductive SignalScope
  | processGroup
  | directChild
  deriving DecidableEq

inductive ProcessSignal
  | terminate
  | kill
  | stop
  | continue
  deriving DecidableEq

inductive ProcessGroupError
  | unsupportedPlatform
  | invalidPid (pid : ℕ)
  | syscallFailed (name : String) (code : ℤ)
  deriving DecidableEq

def esrch : ℤ := 3

/-- `ProcessGroupError::is_process_missing` on Unix. -/
def ProcessGroupError.isProcessMissing : ProcessGroupError → Bool
  | .syscallFailed _ code => code == esrch
  | _ => false

/-- What the supervisor reads of an `io::Error`; the kind by its number. -/
structure IoError where
  kind : ℕ
  rawOsError : Option ℤ
  message : String
  deriving DecidableEq

structure SignalFailure where
  signal : ProcessSignal
  scope : SignalScope
  error : ProcessGroupError
  deriving DecidableEq

structure WaitFailure where
  scope : SignalScope
  kind : ℕ
  code : Option ℤ
  message : String
  deriving DecidableEq

inductive ProcessFailure
  | signal (failure : SignalFailure)
  | wait (failure : WaitFailure)
  deriving DecidableEq

inductive ProcessStatus
  | running (id : ℕ) (scope : SignalScope)
  | pendingCleanup (id : ℕ) (scope : SignalScope) (failures : List ProcessFailure)
  | exited (id : ℕ) (scope : SignalScope) (status : ℤ) (failures : List ProcessFailure)
  deriving DecidableEq

namespace ProcessStatus

def id : ProcessStatus → ℕ
  | running id _ | pendingCleanup id _ _ | exited id _ _ _ => id

def isExited : ProcessStatus → Bool
  | exited _ _ _ _ => true
  | _ => false

/-- The failures that a status carries. -/
def failures : ProcessStatus → List ProcessFailure
  | running _ _ => []
  | pendingCleanup _ _ failures | exited _ _ _ failures => failures

end ProcessStatus

def ProcessFailure.isWait : ProcessFailure → Bool
  | .wait _ => true
  | .signal _ => false

def ProcessFailure.isSignal (signal : ProcessSignal) : ProcessFailure → Bool
  | .wait _ => false
  | .signal failure => failure.signal == signal

/-! ### The helpers -/

def waitErrorRetryBackoff : ℕ := 10000000
def postKillWaitRetryInitial : ℕ := 100000000
def postKillWaitRetryMax : ℕ := 1000000000

def nextPostKillWaitRetryDelay (current : ℕ) : ℕ := min (current * 2) postKillWaitRetryMax

def waitFailure (error : IoError) (scope : SignalScope) : WaitFailure :=
  ⟨scope, error.kind, error.rawOsError, error.message⟩

def recordWaitFailure (failures : List ProcessFailure) (error : IoError) (scope : SignalScope) :
    List ProcessFailure :=
  (failures.filter fun failure => !failure.isWait) ++ [.wait (waitFailure error scope)]

/-- `record_signal`, on what the signal call returned. -/
def recordSignal (failures : List ProcessFailure) (scope : SignalScope) (signal : ProcessSignal)
    (result : Option ProcessGroupError) : List ProcessFailure :=
  match result with
  | none => failures
  | some error =>
    if error.isProcessMissing then failures else failures ++ [.signal ⟨signal, scope, error⟩]

/-- The failure pushed when `Child::start_kill` fails: unlike `record_signal`, whatever the code. -/
def recordStartKill (failures : List ProcessFailure) (scope : SignalScope) (result : Option IoError) :
    List ProcessFailure :=
  match result with
  | none => failures
  | some error =>
    failures ++ [.signal ⟨.kill, scope, .syscallFailed "Child::start_kill" (error.rawOsError.getD (-1))⟩]

section Recorded

variable {failures : List ProcessFailure} {scope : SignalScope} {signal : ProcessSignal}

theorem countP_isWait_recordWaitFailure (error : IoError) :
    (recordWaitFailure failures error scope).countP ProcessFailure.isWait = 1 := by
  have hnone : (failures.filter fun failure => !failure.isWait).countP ProcessFailure.isWait = 0 := by
    simp [List.countP_filter]
  rw [recordWaitFailure, List.countP_append, hnone]
  rfl

theorem countP_isSignal_recordWaitFailure (error : IoError) :
    (recordWaitFailure failures error scope).countP (ProcessFailure.isSignal signal) =
      failures.countP (ProcessFailure.isSignal signal) := by
  have hkeep : ∀ failure : ProcessFailure,
      (failure.isSignal signal && !failure.isWait) = failure.isSignal signal := by
    intro failure
    cases failure <;> simp [ProcessFailure.isSignal, ProcessFailure.isWait]
  rw [recordWaitFailure, List.countP_append, List.countP_filter]
  simp only [hkeep]
  rfl

theorem recordSignal_eq (result : Option ProcessGroupError) : recordSignal failures scope signal result = failures ∨
      ∃ error, recordSignal failures scope signal result = failures ++ [.signal ⟨signal, scope, error⟩] := by
  unfold recordSignal
  cases result with
  | none => exact .inl rfl
  | some error =>
    dsimp only
    split_ifs
    · exact .inl rfl
    · exact .inr ⟨error, rfl⟩

theorem recordStartKill_eq (result : Option IoError) : recordStartKill failures scope result = failures ∨
      ∃ error, recordStartKill failures scope result = failures ++ [.signal ⟨.kill, scope, error⟩] := by
  cases result with
  | none => exact .inl rfl
  | some error => exact .inr ⟨_, rfl⟩

end Recorded

/-- The largest `Instant` of a Unix platform: seconds are a signed word of 64 bits. -/
def instantMax : ℕ := (2 ^ 63 - 1) * 1000000000 + 999999999

structure GraceWindow where
  deadline : ℕ
  killStarted : Bool
  deriving DecidableEq

inductive GraceAction
  | observeUntil (deadline : ℕ)
  | attemptKill
  | complete
  deriving DecidableEq

namespace GraceWindow

/-- `GraceWindow::from_term_attempt`; adding a duration to an instant panics out of range. -/
def fromTermAttempt (attempt : ℕ) (grace : ℕ) : Option GraceWindow :=
  if attempt + grace ≤ instantMax then some ⟨attempt + grace, false⟩ else none

def nextAction (window : GraceWindow) (now : ℕ) : GraceAction × GraceWindow :=
  if window.killStarted then (.complete, window)
  else if window.deadline ≤ now then (.attemptKill, { window with killStarted := true })
  else (.observeUntil window.deadline, window)

def retryDelay (window : GraceWindow) (now : ℕ) : ℕ :=
  if window.deadline ≤ now then 0 else min waitErrorRetryBackoff (window.deadline - now)

end GraceWindow

/-! ### The task -/

/-- `SupervisorContext`.  `Child::id` is known until the child has been waited for, so it is known right
after the spawn. -/
structure SupervisorContext where
  id : ℕ
  osPid : Option ℕ
  scope : SignalScope
  grace : ℕ
  osPid_isSome : osPid.isSome = true

inductive SupervisorPc
  /-- the `select!` of the first loop -/
  | observe
  /-- `wait_after_initial_error`, asleep until `wake` -/
  | initialError (wake : ℕ)
  | termAttempt
  | sendTerm (attempt : ℕ)
  | openWindow (attempt : ℕ)
  | nextAction (window : GraceWindow)
  /-- the `select!` of the second loop -/
  | observeUntil (window : GraceWindow)
  | retryDelay (window : GraceWindow)
  | graceSleep (window : GraceWindow) (wake : ℕ)
  | sendKill
  | reap (retryDelay : ℕ)
  | reapSleep (retryDelay : ℕ) (wake : ℕ)
  | retire
  | finished
  | panicked
  deriving DecidableEq

/-- Where the supervisor adds the grace to the instant of its TERM, the sum is an instant. -/
def SupervisorContext.inRange (context : SupervisorContext) : SupervisorPc → Bool
  | .openWindow attempt => decide (attempt + context.grace ≤ instantMax)
  | _ => true

/-- `Exited` is published. -/
def SupervisorPc.ended : SupervisorPc → Bool
  | .retire | .finished => true
  | _ => false

/-- A supervised child: its task, and the two watch channels.  `unseen` says that a value was sent on the
cancel channel since its receiver last looked. -/
structure Supervised where
  pc : SupervisorPc
  failures : List ProcessFailure
  status : ProcessStatus
  unseen : Bool
  deriving DecidableEq

inductive SupervisorEvent
  | waitOk (exit : ℤ)
  | waitErr (error : IoError)
  | cancelled
  | elapsed
  | signalled (result : Option ProcessGroupError)
  | startKilled (result : Option IoError)
  | proceed
  deriving DecidableEq

namespace Supervised

def start (context : SupervisorContext) : Supervised :=
  ⟨.observe, [], .running context.id context.scope, false⟩

/-- `cancel.send(true)`, by the handle, by its drop or by a shutdown. -/
@[simp] def cancel (s : Supervised) : Supervised := { s with unseen := true }

@[simp] def publishPending (context : SupervisorContext) (s : Supervised) : Supervised :=
  { s with status := .pendingCleanup context.id context.scope s.failures }

@[simp] def publishExited (context : SupervisorContext) (exit : ℤ) (s : Supervised) : Supervised :=
  { s with status := .exited context.id context.scope exit s.failures, pc := .retire }

/-- `record_wait_failure` and `publish_pending` after it. -/
@[simp] def waitFailed (context : SupervisorContext) (error : IoError) (s : Supervised) : Supervised :=
  { s with failures := recordWaitFailure s.failures error context.scope }.publishPending context

/-- The `changed` branch of the first two selects. -/
def beginCleanup (s : Supervised) : Option Supervised :=
  if s.unseen then some { s with unseen := false, pc := .termAttempt } else none

def advance (context : SupervisorContext) (now : ℕ) (s : Supervised) (event : SupervisorEvent) :
    Option Supervised :=
  match s.pc, event with
  | .observe, .waitOk exit => some (s.publishExited context exit)
  | .observe, .waitErr error =>
    some { s.waitFailed context error with pc := .initialError (now + waitErrorRetryBackoff) }
  | .observe, .cancelled => s.beginCleanup
  | .initialError _, .cancelled => s.beginCleanup
  | .initialError wake, .elapsed => if wake ≤ now then some { s with pc := .observe } else none
  | .termAttempt, .proceed => some { s with pc := .sendTerm now }
  | .sendTerm attempt, .signalled result =>
    if context.osPid.isSome then
      some { s with
        failures := recordSignal s.failures context.scope .terminate result
        pc := .openWindow attempt }
    else none
  | .sendTerm attempt, .proceed =>
    if context.osPid.isSome then none else some { s with pc := .openWindow attempt }
  | .openWindow attempt, .proceed =>
    match GraceWindow.fromTermAttempt attempt context.grace with
    | none => some { s with pc := .panicked }
    | some window => some { s.publishPending context with pc := .nextAction window }
  | .nextAction window, .proceed =>
    match window.nextAction now with
    | (.observeUntil _, window) => some { s with pc := .observeUntil window }
    | (.attemptKill, _) | (.complete, _) => some { s with pc := .sendKill }
  -- the select is biased towards its timer, which is never early but may be late: until it fires the child is polled
  | .observeUntil window, .elapsed =>
    if window.deadline ≤ now then some { s with pc := .sendKill } else none
  | .observeUntil _, .waitOk exit => some (s.publishExited context exit)
  | .observeUntil window, .waitErr error => some { s.waitFailed context error with pc := .retryDelay window }
  | .retryDelay window, .proceed =>
    let delay := window.retryDelay now
    if delay = 0 then some { s with pc := .nextAction window }
    else some { s with pc := .graceSleep window (now + delay) }
  | .graceSleep window wake, .elapsed =>
    if wake ≤ now then some { s with pc := .nextAction window } else none
  | .sendKill, .startKilled result =>
    if context.osPid.isSome ∧ context.scope = .directChild then
      some { { s with failures := recordStartKill s.failures context.scope result }.publishPending context with
        pc := .reap postKillWaitRetryInitial }
    else none
  | .sendKill, .signalled result =>
    if context.osPid.isSome ∧ context.scope ≠ .directChild then
      some { { s with failures := recordSignal s.failures context.scope .kill result }.publishPending context with
        pc := .reap postKillWaitRetryInitial }
    else none
  | .sendKill, .proceed =>
    if context.osPid.isSome then none
    else some { s.publishPending context with pc := .reap postKillWaitRetryInitial }
  | .reap _, .waitOk exit => some (s.publishExited context exit)
  | .reap retryDelay, .waitErr error =>
    some { s.waitFailed context error with pc := .reapSleep retryDelay (now + retryDelay) }
  | .reapSleep retryDelay wake, .elapsed =>
    if wake ≤ now then some { s with pc := .reap (nextPostKillWaitRetryDelay retryDelay) } else none
  | .retire, .proceed => some { s with pc := .finished }
  | _, _ => none

/-- Every step of the task, with what it found and what it left. -/
inductive Advances (context : SupervisorContext) (now : ℕ) (s : Supervised) :
    SupervisorEvent → Supervised → Prop
  | exitObserved {exit : ℤ} : s.pc = .observe → Advances context now s (.waitOk exit) (s.publishExited context exit)
  | initialErr {error : IoError} : s.pc = .observe →
      Advances context now s (.waitErr error)
        { s.waitFailed context error with pc := .initialError (now + waitErrorRetryBackoff) }
  | cleanup : s.pc = .observe → s.unseen = true →
      Advances context now s .cancelled { s with unseen := false, pc := .termAttempt }
  | cleanupAfterErr {wake : ℕ} : s.pc = .initialError wake → s.unseen = true →
      Advances context now s .cancelled { s with unseen := false, pc := .termAttempt }
  | retried {wake : ℕ} : s.pc = .initialError wake → wake ≤ now →
      Advances context now s .elapsed { s with pc := .observe }
  | attempted : s.pc = .termAttempt → Advances context now s .proceed { s with pc := .sendTerm now }
  | termed {attempt : ℕ} {result : Option ProcessGroupError} : s.pc = .sendTerm attempt →
      Advances context now s (.signalled result)
        { s with
          failures := recordSignal s.failures context.scope .terminate result
          pc := .openWindow attempt }
  | panicked {attempt : ℕ} : s.pc = .openWindow attempt → instantMax < attempt + context.grace →
      Advances context now s .proceed { s with pc := .panicked }
  | opened {attempt : ℕ} : s.pc = .openWindow attempt → attempt + context.grace ≤ instantMax →
      Advances context now s .proceed
        { s.publishPending context with pc := .nextAction ⟨attempt + context.grace, false⟩ }
  | observing {window : GraceWindow} : s.pc = .nextAction window → window.killStarted = false →
      now < window.deadline → Advances context now s .proceed { s with pc := .observeUntil window }
  | due {window : GraceWindow} : s.pc = .nextAction window →
      (window.killStarted = true ∨ window.deadline ≤ now) →
      Advances context now s .proceed { s with pc := .sendKill }
  | ended {window : GraceWindow} : s.pc = .observeUntil window → window.deadline ≤ now →
      Advances context now s .elapsed { s with pc := .sendKill }
  | exitGraced {window : GraceWindow} {exit : ℤ} : s.pc = .observeUntil window →
      Advances context now s (.waitOk exit) (s.publishExited context exit)
  | gracedErr {window : GraceWindow} {error : IoError} : s.pc = .observeUntil window →
      Advances context now s (.waitErr error) { s.waitFailed context error with pc := .retryDelay window }
  | undelayed {window : GraceWindow} : s.pc = .retryDelay window → window.retryDelay now = 0 →
      Advances context now s .proceed { s with pc := .nextAction window }
  | delayed {window : GraceWindow} : s.pc = .retryDelay window → window.retryDelay now ≠ 0 →
      Advances context now s .proceed { s with pc := .graceSleep window (now + window.retryDelay now) }
  | woken {window : GraceWindow} {wake : ℕ} : s.pc = .graceSleep window wake → wake ≤ now →
      Advances context now s .elapsed { s with pc := .nextAction window }
  | startKilled {result : Option IoError} : s.pc = .sendKill → context.scope = .directChild →
      Advances context now s (.startKilled result)
        { { s with failures := recordStartKill s.failures context.scope result }.publishPending context with
          pc := .reap postKillWaitRetryInitial }
  | killed {result : Option ProcessGroupError} : s.pc = .sendKill → context.scope ≠ .directChild →
      Advances context now s (.signalled result)
        { { s with failures := recordSignal s.failures context.scope .kill result }.publishPending context with
          pc := .reap postKillWaitRetryInitial }
  | exitReaped {delay : ℕ} {exit : ℤ} : s.pc = .reap delay →
      Advances context now s (.waitOk exit) (s.publishExited context exit)
  | reapErr {delay : ℕ} {error : IoError} : s.pc = .reap delay →
      Advances context now s (.waitErr error)
        { s.waitFailed context error with pc := .reapSleep delay (now + delay) }
  | reapWoken {delay : ℕ} {wake : ℕ} : s.pc = .reapSleep delay wake → wake ≤ now →
      Advances context now s .elapsed { s with pc := .reap (nextPostKillWaitRetryDelay delay) }
  | retired : s.pc = .retire → Advances context now s .proceed { s with pc := .finished }

variable {context : SupervisorContext} {now : ℕ} {s t : Supervised} {event : SupervisorEvent}

theorem beginCleanup_eq_some (h : s.beginCleanup = some t) :
    s.unseen = true ∧ { s with unseen := false, pc := .termAttempt } = t := by
  unfold beginCleanup at h
  split_ifs at h with hunseen
  exact ⟨hunseen, Option.some.inj h⟩

theorem advances_of_advance (h : s.advance context now event = some t) : Advances context now s event t := by
  have hpid := context.osPid_isSome
  unfold advance at h
  split at h
  case h_1 hpc => cases h; exact .exitObserved hpc
  case h_2 hpc => cases h; exact .initialErr hpc
  case h_3 hpc =>
    obtain ⟨hunseen, rfl⟩ := beginCleanup_eq_some h
    exact .cleanup hpc hunseen
  case h_4 hpc =>
    obtain ⟨hunseen, rfl⟩ := beginCleanup_eq_some h
    exact .cleanupAfterErr hpc hunseen
  case h_5 hpc => split_ifs at h with hwake; cases h; exact .retried hpc hwake
  case h_6 hpc => cases h; exact .attempted hpc
  case h_7 hpc => rw [if_pos hpid] at h; cases h; exact .termed hpc
  case h_8 hpc => rw [if_pos hpid] at h; cases h
  case h_9 hpc =>
    unfold GraceWindow.fromTermAttempt at h
    split_ifs at h with hrange
    · cases h; exact .opened hpc hrange
    · cases h; exact .panicked hpc (not_le.mp hrange)
  case h_10 hpc =>
    unfold GraceWindow.nextAction at h
    split_ifs at h with hstarted hdue
    · cases h; exact .due hpc (.inl hstarted)
    · cases h; exact .due hpc (.inr hdue)
    · cases h; exact .observing hpc (Bool.not_eq_true _ ▸ hstarted) (not_le.mp hdue)
  case h_11 hpc => split_ifs at h with hdue; cases h; exact .ended hpc hdue
  case h_12 hpc => cases h; exact .exitGraced hpc
  case h_13 hpc => cases h; exact .gracedErr hpc
  case h_14 hpc =>
    dsimp only at h
    split_ifs at h with hdelay
    · cases h; exact .undelayed hpc hdelay
    · cases h; exact .delayed hpc hdelay
  case h_15 hpc => split_ifs at h with hwake; cases h; exact .woken hpc hwake
  case h_16 hpc => split_ifs at h with hscope; cases h; exact .startKilled hpc hscope.2
  case h_17 hpc => split_ifs at h with hscope; cases h; exact .killed hpc hscope.2
  case h_18 hpc => rw [if_pos hpid] at h; cases h
  case h_19 hpc => cases h; exact .exitReaped hpc
  case h_20 hpc => cases h; exact .reapErr hpc
  case h_21 hpc => split_ifs at h with hwake; cases h; exact .reapWoken hpc hwake
  case h_22 hpc => cases h; exact .retired hpc
  case h_23 => cases h

section

variable (h : s.Advances context now event t)
include h

theorem Advances.advance_eq : s.advance context now event = some t := by
  have hpid := context.osPid_isSome
  cases h with
  | panicked hpc hrange => simp [advance, hpc, GraceWindow.fromTermAttempt, not_le.mpr hrange]
  | observing hpc hstarted hbefore => simp [advance, hpc, GraceWindow.nextAction, hstarted, not_le.mpr hbefore]
  | @due window => cases hstarted : window.killStarted <;> simp_all [advance, GraceWindow.nextAction]
  | _ => simp_all [advance, beginCleanup, GraceWindow.fromTermAttempt]

theorem Advances.exited (hs : s.status.isExited = s.pc.ended) : t.status.isExited = t.pc.ended := by
  cases h <;> simp_all [SupervisorPc.ended, ProcessStatus.isExited]

theorem Advances.panicked_iff : t.pc ≠ .panicked ↔ context.inRange s.pc = true := by
  cases h <;> simp_all [SupervisorContext.inRange]

theorem Advances.ended_imp (hs : s.pc.ended = true) : t.pc.ended = true ∧ t.status = s.status := by
  cases h <;> simp_all [SupervisorPc.ended]

theorem Advances.not_finished (hs : s.pc ≠ .retire) : t.pc ≠ .finished := by
  cases h <;> simp_all

end

end Supervised

end McpToolkit.Process

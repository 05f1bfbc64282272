import McpToolkit.Tasks.Waiters

/-!
# McpToolkit.Tasks.Settlement — terminal tasks get observed

RMCP publishes the terminal status of a task after its drop hint.  The hint leaves the settlement
flag behind, and the flag is cleared only by a caller that has written a terminal snapshot to the
cache.  Nothing keeps that snapshot there: `TaskBinding::observe` takes any snapshot, also one that
was read before the cached one.  `freshRead` is the guard that excludes this, for tasks without a
ttl (a task with a ttl always has a next probe).
-/

namespace McpToolkit.Tasks

open List Finmap Shared AuthorityState TaskAuthority
open Lib

namespace Shared

/-- The task has a lease and no ttl: no probe is due to it by its age. -/
def perpetual (sh : Shared) (id : TaskId) : Bool :=
  (sh.state.leases.lookup id).any fun lease => lease.ttl.isNone

/-- A snapshot of a running task over the cached snapshot of a finished one. -/
def staleRead (sh : Shared) (id : TaskId) (task : DetailedTask) : Bool :=
  !task.isTerminal && (sh.cells id).task.isTerminal && sh.perpetual id

end Shared

/-- The section does not write a stale snapshot. -/
def freshRead (sh : Shared) (_ : List Pc) (pc : Pc) (_ : Input) : Bool :=
  match pc with
  | .access _ (.observe id _ task) => !sh.staleRead id task
  | .observer (.observe sel task) => !sh.staleRead sel.id task
  | _ => true

namespace Pc

/-- A terminal read of the task that the call has not written to the cache yet. -/
def holdsTerminalRead (id : TaskId) : Pc → Bool
  | .access _ (.observe x _ task) => decide (x = id) && task.isTerminal
  | .observer (.touch sel (some task)) | .observer (.observe sel task) =>
    decide (sel.id = id) && task.isTerminal
  | _ => false

/-- A read that the call has written to the cache, before it settles the lease. -/
def applied : Pc → Option (TaskId × DetailedTask)
  | .access _ (.touch id _ s) | .access _ (.lease id _ s) => some (id, s.task)
  | .observer (.generation sel task) | .observer (.settle sel task _ _) => some (sel.id, task)
  | _ => none

theorem accessed_of_applied {pc : Pc} {id : TaskId} {task : DetailedTask}
    (h : pc.applied = some (id, task)) : pc.accessed = some id := by
  unfold applied at h
  split at h <;> cases h <;> rfl

end Pc

/-- Something will make the authority read the task again. -/
def Shared.Obligation (sh : Shared) (calls : List Pc) (id : TaskId) : Prop :=
  ∃ lease, sh.state.leases.lookup id = some lease ∧
    ((sh.signals id).generation ≠ lease.observedSignalGeneration ∨
      (sh.signals id).settlementPending = true ∨ lease.nextProbeAt.isSome = true ∨
      ∃ pc ∈ calls, pc.holdsTerminalRead id = true)

structure Settling (sh : Shared) (calls : List Pc) : Prop where
  unissued : ∀ id, id ∉ sh.rmcp.issued → sh.rmcp.drop id = .running
  records : ∀ id task, sh.rmcp.records.lookup id = some task → task.isTerminal = true →
    sh.rmcp.drop id ≠ .running
  held : ∀ pc ∈ calls, ∀ id, pc.held = some id → sh.rmcp.drop id ≠ .running →
    (sh.signals id).settlementPending = true
  cached : sh.closed = false → ∀ id ∈ sh.state.bindings, sh.perpetual id = true →
    sh.rmcp.drop id ≠ .running →
    (sh.signals id).settlementPending = true ∨ (sh.cells id).task.isTerminal = true
  applied : sh.closed = false → ∀ pc ∈ calls, ∀ id task, pc.applied = some (id, task) →
    task.isTerminal = true → id ∈ sh.state.bindings → sh.perpetual id = true →
    (sh.cells id).task.isTerminal = true

theorem Settling.obligation {sh : Shared} {calls : List Pc} (hs : Settling sh calls)
    (hl : Leased sh calls) (ho : sh.closed = false) {id : TaskId} {task : DetailedTask}
    (hid : id ∈ sh.state.bindings) (hrec : sh.rmcp.records.lookup id = some task)
    (hterm : task.isTerminal = true) (hcache : (sh.cells id).task.isTerminal = false) : sh.Obligation calls id := by
  obtain ⟨lease, hlook⟩ := mem_iff.mp (hl.bindings ho id hid)
  refine ⟨lease, hlook, ?_⟩
  cases httl : lease.ttl with
  | some ttl => exact .inr (.inr (.inl (hl.probes id lease hlook (by rw [httl]; rfl))))
  | none =>
    have hperp : sh.perpetual id = true := by simp [perpetual, hlook, httl]
    rcases hs.cached ho id hid hperp (hs.records id task hrec hterm) with h | h
    · exact .inr (.inl h)
    · rw [hcache] at h; cases h

namespace Shared

variable {sh sh' : Shared} {id x : TaskId} {task : DetailedTask}

theorem observe_task : ((sh.observe id task).cells id).task = task := by
  unfold observe
  split
  · assumption
  · simp [setSignal, setCell]

theorem observe_cells_of_ne (hx : x ≠ id) : (sh.observe id task).cells x = sh.cells x := by
  unfold observe
  split
  · rfl
  · simp [setSignal, setCell, Function.update_of_ne hx]

@[simp] theorem observe_pending :
    ((sh.observe id task).signals x).settlementPending = (sh.signals x).settlementPending := by
  unfold observe
  split
  · rfl
  · by_cases hx : x = id
    · subst hx; simp [setSignal]
    · simp [setSignal, Function.update_of_ne hx]

@[simp] theorem bump_pending : ((sh.bump id).signals x).settlementPending = (sh.signals x).settlementPending := by
  by_cases hx : x = id
  · subst hx; simp [bump, setSignal]
  · simp [bump, setSignal, Function.update_of_ne hx]

theorem setSettlement_pending {b : Bool} : ((sh.setSettlement id b).signals x).settlementPending =
    if x = id then b else (sh.signals x).settlementPending := by
  by_cases hx : x = id
  · subst hx; simp [setSettlement, setSignal]
  · simp [setSettlement, setSignal, hx]

theorem leaseAfterRead_pending {gen : ℕ} (h : (sh.signals x).settlementPending = true) :
    ((sh.leaseAfterRead id task gen).signals x).settlementPending = true ∨ x = id ∧ task.isTerminal = true := by
  unfold leaseAfterRead
  by_cases hc : (task.isTerminal && decide (id ∈ sh.state.leases)) = true
  · rw [if_pos hc, setSettlement_pending]
    by_cases hx : x = id
    · exact .inr ⟨hx, (Bool.and_eq_true_iff.mp hc).1⟩
    · rw [if_neg hx]; exact .inl h
  · rw [if_neg hc]; exact .inl h

@[simp] theorem notifyDone_task : ((sh.notifyDone id).cells x).task = (sh.cells x).task := by
  by_cases hx : x = id
  · subst hx; simp [notifyDone, setCell]
  · simp [notifyDone, setCell, Function.update_of_ne hx]

@[simp] theorem touch_task : ((sh.touch id).cells x).task = (sh.cells x).task := by
  by_cases hx : x = id
  · subst hx; simp [touch, setCell]
  · simp [touch, setCell, Function.update_of_ne hx]

theorem observe_terminal (h : sh.staleRead id task = false) (hp : sh.perpetual x = true)
    (hx : (sh.cells x).task.isTerminal = true) : ((sh.observe id task).cells x).task.isTerminal = true := by
  by_cases hxid : x = id
  · subst hxid
    rw [observe_task]
    simpa [staleRead, hp, hx] using h
  · rwa [observe_cells_of_ne hxid]

theorem perpetual_of_refreshes (hlook : ∀ id l', sh'.state.leases.lookup id = some l' →
      ∃ l, sh.state.leases.lookup id = some l ∧ l.Refreshes l')
    (h : sh'.perpetual id = true) : sh.perpetual id = true := by
  unfold perpetual at h ⊢
  cases hl' : sh'.state.leases.lookup id with
  | none => rw [hl'] at h; cases h
  | some l' =>
    obtain ⟨l, hl, hr⟩ := hlook id l' hl'
    rw [hl'] at h
    rw [hl]
    simpa [hr.ttl] using h

end Shared

/-- What every section but those of a spawn does to the settlement of a task: it clears the flag
only after its own terminal write, and overwrites no finished task that has no ttl. -/
structure Respects (sh : Shared) (pc : Pc) (sh' : Shared) (pc' : Pc) : Prop where
  issued : sh'.rmcp.issued = sh.rmcp.issued
  drop : sh'.rmcp.drop = sh.rmcp.drop
  records : ∀ id task, sh'.rmcp.records.lookup id = some task →
    sh.rmcp.records.lookup id = some task
  held : ∀ id, pc'.held = some id → pc.held = some id
  pending : ∀ id, (sh.signals id).settlementPending = true →
    (sh'.signals id).settlementPending = true ∨
      ∃ task, pc.applied = some (id, task) ∧ task.isTerminal = true
  closed : sh'.closed = false → sh.closed = false
  bindings : sh'.state.bindings ⊆ sh.state.bindings
  perpetual : ∀ id ∈ sh'.state.bindings, sh'.perpetual id = true → sh.perpetual id = true
  cells : ∀ id, sh.perpetual id = true → (sh.cells id).task.isTerminal = true →
    (sh'.cells id).task.isTerminal = true
  applied : ∀ id task, pc'.applied = some (id, task) → task.isTerminal = true →
    pc.applied = some (id, task) ∨ (sh'.cells id).task.isTerminal = true

namespace Settling

variable {sh sh' : Shared} {pc pc' : Pc} {rest : List Pc}

variable {l : List Pc} {id : TaskId}

theorem perm {l' : List Pc} (h : l.Perm l') (hs : Settling sh l) : Settling sh l' where
  unissued := hs.unissued
  records := hs.records
  held pc hpc := hs.held pc (h.mem_iff.mpr hpc)
  cached := hs.cached
  applied ho pc hpc := hs.applied ho pc (h.mem_iff.mpr hpc)

theorem respects (hs : Settling sh (pc :: rest)) (hg : Grounded sh (pc :: rest))
    (h : Respects sh pc sh' pc') : Settling sh' (pc' :: rest) := by
  have hheld : ∀ x ∈ pc :: rest, ∀ id, x.held = some id → sh'.rmcp.drop id ≠ .running →
      (sh'.signals id).settlementPending = true := by
    intro x hx id hid hd
    rw [h.drop] at hd
    rcases h.pending id (hs.held x hx id hid hd) with hp | ⟨task, hap, -⟩
    · exact hp
    · exact absurd (mem_filterMap.mpr ⟨x, hx, hid⟩)
        (hg.accessed pc mem_cons_self id (Pc.accessed_of_applied hap)).2
  have hcell : sh'.closed = false → ∀ x ∈ pc :: rest, ∀ id task, x.applied = some (id, task) →
      task.isTerminal = true → id ∈ sh'.state.bindings → sh'.perpetual id = true →
      (sh'.cells id).task.isTerminal = true := by
    intro ho x hx id task hap ht hid hp
    have hp := h.perpetual id hid hp
    exact h.cells id hp (hs.applied (h.closed ho) x hx id task hap ht (h.bindings hid) hp)
  refine ⟨?_, ?_, ?_, ?_, ?_⟩
  · rw [h.issued, h.drop]; exact hs.unissued
  · rw [h.drop]; exact fun id task hl => hs.records id task (h.records id task hl)
  · intro x hx id hid
    rcases mem_cons.mp hx with rfl | hx
    · exact hheld pc mem_cons_self id (h.held id hid)
    · exact hheld x (mem_cons_of_mem _ hx) id hid
  · intro ho id hid hp hd
    rw [h.drop] at hd
    have hp' := h.perpetual id hid hp
    rcases hs.cached (h.closed ho) id (h.bindings hid) hp' hd with hpend | hc
    · rcases h.pending id hpend with hpend | ⟨task, hap, ht⟩
      · exact .inl hpend
      · exact .inr (hcell ho pc mem_cons_self id task hap ht hid hp)
    · exact .inr (h.cells id hp' hc)
  · intro ho x hx id task hap ht hid hp
    rcases mem_cons.mp hx with rfl | hx
    · rcases h.applied id task hap ht with hap | hc
      · exact hcell ho pc mem_cons_self id task hap ht hid hp
      · exact hc
    · exact hcell ho x (mem_cons_of_mem _ hx) id task hap ht hid hp

theorem cons (hs : Settling sh rest) (hheld : pc.held = none) (hap : pc.applied = none) : Settling sh (pc :: rest) := by
  refine ⟨hs.unissued, hs.records, ?_, hs.cached, fun ho => ?_⟩ <;> rw [forall_mem_cons]
  · exact ⟨by simp [hheld], hs.held⟩
  · exact ⟨by simp [hap], hs.applied ho⟩

theorem materialise {task : DetailedTask} (hs : Settling sh (pc :: rest))
    (hcan : sh.CanMaterialise id task) (hheld : pc'.held = some id) (hap : pc'.applied = none) :
    Settling (sh.materialise id task) (pc' :: rest) := by
  refine ⟨?_, ?_, ?_, hs.cached, fun ho => ?_⟩
  · exact fun x hx => hs.unissued x fun h => hx (Finset.mem_insert_of_mem h)
  · intro x t hx ht
    simp only [Shared.materialise] at hx
    by_cases hxid : x = id
    · subst hxid
      rw [lookup_insert] at hx
      obtain rfl := Option.some.inj hx
      rw [hcan.2] at ht; cases ht
    · rw [lookup_insert_of_ne _ hxid] at hx
      exact hs.records x t hx ht
  · rw [forall_mem_cons]
    refine ⟨fun x hx hd => ?_, fun y hy => hs.held y (mem_cons_of_mem _ hy)⟩
    obtain rfl : id = x := Option.some.inj (hheld.symm.trans hx)
    exact absurd (hs.unissued id hcan.1) hd
  · rw [forall_mem_cons]
    exact ⟨by simp [hap], fun y hy => hs.applied ho y (mem_cons_of_mem _ hy)⟩

theorem publish {a : SpawnArgs} {initial : DetailedTask} {readAt : Instant}
    {b : TaskBinding} (hs : Settling sh (.spawn (.publish a id initial readAt) :: rest))
    (hg : Grounded sh (.spawn (.publish a id initial readAt) :: rest)) :
    Settling ((sh.setCell id b).setState (sh.state.publish id a.principal)) (.spawn (.startObserver id) :: rest) := by
  have hcell : ∀ {x}, x ≠ id →
      ((sh.setCell id b).setState (sh.state.publish id a.principal)).cells x = sh.cells x := by
    intro x hx
    simp [setCell, Function.update_of_ne hx]
  refine ⟨hs.unissued, hs.records, ?_, ?_, ?_⟩
  · rw [forall_mem_cons]
    exact ⟨fun _ hx => (by cases hx), fun y hy => hs.held y (mem_cons_of_mem _ hy)⟩
  · intro ho x hx hp hd
    by_cases hxid : x = id
    · subst hxid
      exact .inl (hs.held _ mem_cons_self x rfl hd)
    · rw [hcell hxid]
      exact hs.cached ho x ((Finset.mem_insert.mp hx).resolve_left hxid) hp hd
  · intro ho
    rw [forall_mem_cons]
    refine ⟨fun _ _ hx => (by cases hx), fun y hy x task hap ht hx hp => ?_⟩
    have hxid : x ≠ id := by
      rintro rfl
      refine (hg.accessed y (mem_cons_of_mem _ hy) x (Pc.accessed_of_applied hap)).2 ?_
      exact mem_filterMap.mpr ⟨_, mem_cons_self, rfl⟩
    rw [hcell hxid]
    exact hs.applied ho y (mem_cons_of_mem _ hy) x task hap ht
      ((Finset.mem_insert.mp hx).resolve_left hxid) hp

section

variable (hs : Settling sh l)
include hs

theorem of_same (hi : sh'.rmcp.issued = sh.rmcp.issued)
    (hd : sh'.rmcp.drop = sh.rmcp.drop) (hst : sh'.state = sh.state) (hcl : sh'.closed = sh.closed)
    (hce : sh'.cells = sh.cells) (hp : ∀ id, (sh'.signals id).settlementPending = (sh.signals id).settlementPending)
    (hr : ∀ id task, sh'.rmcp.records.lookup id = some task → task.isTerminal = true →
      sh.rmcp.drop id ≠ .running) : Settling sh' l := by
  refine ⟨?_, ?_, ?_, ?_, ?_⟩
  · rw [hi, hd]; exact hs.unissued
  · rw [hd]; exact hr
  · simp only [hd, hp]; exact hs.held
  · simp only [hd, hp, hst, hcl, hce, perpetual]; exact hs.cached
  · simp only [hst, hcl, hce, perpetual]; exact hs.applied

theorem records_insert {task : DetailedTask}
    (hd : task.isTerminal = true → sh.rmcp.drop id ≠ .running) (x : TaskId) (t : DetailedTask)
    (hx : (sh.rmcp.records.insert id task).lookup x = some t) (ht : t.isTerminal = true) :
    sh.rmcp.drop x ≠ .running := by
  by_cases hxid : x = id
  · subst hxid
    rw [lookup_insert] at hx
    obtain rfl := Option.some.inj hx
    exact hd ht
  · rw [lookup_insert_of_ne _ hxid] at hx
    exact hs.records x t hx ht

theorem dropStore (hid : id ∈ sh.rmcp.issued) : Settling ((sh.setDrop id .stored).setSettlement id true) l := by
  have hdrop : ∀ x, x ≠ id → ((sh.setDrop id .stored).setSettlement id true).rmcp.drop x =
      sh.rmcp.drop x := by
    intro x hx
    simp [setDrop, Function.update_of_ne hx]
  have hpend : ∀ x, (((sh.setDrop id .stored).setSettlement id true).signals x).settlementPending =
      if x = id then true else (sh.signals x).settlementPending :=
    fun x => setSettlement_pending
  refine ⟨?_, ?_, ?_, ?_, hs.applied⟩
  · intro x hx
    rw [hdrop x fun h => hx (h ▸ hid)]
    exact hs.unissued x hx
  · intro x t hx ht
    by_cases hxid : x = id
    · subst hxid
      simp [setDrop]
    · rw [hdrop x hxid]
      exact hs.records x t hx ht
  · intro pc hpc x hx hdx
    rw [hpend]
    split_ifs with hxid
    · rfl
    · rw [hdrop x hxid] at hdx
      exact hs.held pc hpc x hx hdx
  · intro ho x hx hp hdx
    rw [hpend]
    split_ifs with hxid
    · exact .inl rfl
    · rw [hdrop x hxid] at hdx
      exact hs.cached ho x hx hp hdx

theorem dropBump (hd : sh.rmcp.drop id = .stored) : Settling ((sh.setDrop id .hinted).bump id) l := by
  have hdrop : ∀ x, ((sh.setDrop id .hinted).bump id).rmcp.drop x = .running ↔
      sh.rmcp.drop x = .running := by
    intro x
    by_cases hxid : x = id
    · subst hxid
      simp [setDrop, hd]
    · simp [setDrop, Function.update_of_ne hxid]
  have hpend : ∀ x, (((sh.setDrop id .hinted).bump id).signals x).settlementPending =
      (sh.signals x).settlementPending := fun x => bump_pending
  refine ⟨?_, ?_, ?_, ?_, hs.applied⟩
  · exact fun x hx => (hdrop x).mpr (hs.unissued x hx)
  · exact fun x t hx ht h => hs.records x t hx ht ((hdrop x).mp h)
  · exact fun pc hpc x hx hdx => (hpend x).trans (hs.held pc hpc x hx (mt (hdrop x).mpr hdx))
  · intro ho x hx hp hdx
    rw [hpend]
    exact hs.cached ho x hx hp (mt (hdrop x).mpr hdx)

theorem move (h : Move.Step sh sh') : Settling sh' l := by
  cases h with
  | tick d => exact hs.of_same rfl rfl rfl rfl rfl (fun _ => rfl) hs.records
  | taskHint id hid => exact hs.of_same rfl rfl rfl rfl rfl (fun _ => bump_pending) hs.records
  | progress id t task hl ht hn =>
    refine hs.of_same rfl rfl rfl rfl rfl (fun _ => rfl) (hs.records_insert fun h => ?_)
    rw [hn] at h
    cases h
  | settle id t task hl ht hn hd =>
    refine hs.of_same rfl rfl rfl rfl rfl (fun _ => rfl) (hs.records_insert fun _ => ?_)
    rw [hd]
    decide
  | evict id hid =>
    refine hs.of_same rfl rfl rfl rfl rfl (fun _ => rfl) fun x t hx => hs.records x t ?_
    simp only [dropRecord] at hx
    by_cases hxid : x = id
    · subst hxid
      rw [lookup_erase] at hx; cases hx
    · rwa [lookup_erase_ne hxid] at hx
  | dropStore id hid hd => exact hs.dropStore hid
  | dropBump id hd => exact hs.dropBump hd

end

end Settling

section Sections

variable {cfg : TaskAuthorityConfig} {sh sh' : Shared} {pc' : Pc} {rest : List Pc}

theorem SpawnPc.Step.settling {p : SpawnPc} (h : SpawnPc.Step cfg sh p sh' pc')
    (hg : Grounded sh (.spawn p :: rest)) (hs : Settling sh (.spawn p :: rest)) : Settling sh' (pc' :: rest) := by
  cases h with
  | materialise a id task hcan | panickedWith a id task hcan => exact hs.materialise hcan rfl rfl
  | publish a id initial readAt ho hn => exact hs.publish hg
  | convert a id =>
    have hunpub := (hg.held _ mem_cons_self id rfl).2.1
    refine hs.respects hg ?_
    constructor
    case perpetual =>
      intro x hx hp
      have hne : x ≠ id := fun h => hunpub (h ▸ hx)
      simpa [perpetual, AuthorityState.convert, lookup_insert_of_ne _ hne] using hp
    all_goals simp_all [Pc.held, SpawnPc.held, Pc.applied, AuthorityState.convert]
  | release id =>
    refine hs.respects hg ?_
    constructor
    case perpetual =>
      intro x hx hp
      by_cases hne : x = id
      · subst hne
        simp [perpetual, AuthorityState.release] at hp
      · simpa [perpetual, AuthorityState.release, lookup_erase_ne hne] using hp
    all_goals simp_all [Pc.held, SpawnPc.held, Pc.applied, AuthorityState.release]
  | _ =>
    refine hs.respects hg ?_
    constructor <;>
      simp_all [Pc.held, SpawnPc.held, Pc.applied, Pc.forceClose, perpetual, AuthorityState.reserve]

theorem ClosePc.Step.respects {r : Outcome} {p : ClosePc} (h : ClosePc.Step sh r p sh' pc') :
    Respects sh (.closing p r) sh' pc' := by
  cases h <;> constructor <;>
    simp_all [Pc.held, Pc.applied, perpetual, empty, shutdownRmcp]

theorem AccessPc.Step.respects {k : Access} {p : AccessPc} {inp : Input} {l : List Pc}
    (h : AccessPc.Step sh k p sh' pc') (hG : freshRead sh l (.access k p) inp = true) :
    Respects sh (.access k p) sh' pc' := by
  cases h with
  | observe id gen task =>
    have hfresh : sh.staleRead id task = false := by simpa [freshRead] using hG
    constructor
    case cells => exact fun x => observe_terminal hfresh
    all_goals simp_all [Pc.held, Pc.applied, perpetual, observe_task]
  | lease id gen s =>
    constructor
    case perpetual =>
      exact fun x _ => perpetual_of_refreshes fun _ _ => leaseAfterRead_refreshes
    case pending =>
      intro x hx
      refine (leaseAfterRead_pending hx).imp_right ?_
      rintro ⟨rfl, ht⟩
      exact ⟨s.task, rfl, ht⟩
    all_goals simp_all [Pc.held, Pc.applied, leaseAfterRead_state]
  | remove id hid =>
    constructor
    case perpetual =>
      intro x hx hp
      have hne : x ≠ id := (Finset.mem_erase.mp hx).1
      simpa [perpetual, removeBinding, lookup_erase_ne hne] using hp
    all_goals simp_all [Pc.held, Pc.applied, removeBinding, Finset.erase_subset]
  | removeUnpublished id hid =>
    constructor
    case perpetual =>
      intro x hx hp
      have hne : x ≠ id := (Finset.mem_erase.mp hx).1
      simpa [perpetual, removeBinding, lookup_erase_ne hne] using hp
    all_goals simp_all [Pc.held, Pc.applied, removeBinding]
  | _ =>
    constructor <;> simp_all [Pc.held, Pc.applied, perpetual]

theorem WaitPc.Step.respects {a : WaitArgs} {p : WaitPc} (h : WaitPc.Step cfg sh a p sh' pc') :
    Respects sh (.wait a p) sh' pc' := by
  cases h <;> constructor <;> simp_all [Pc.held, Pc.applied, perpetual]

theorem ObserverPc.Step.respects {p : ObserverPc} {inp : Input} {l : List Pc}
    (h : ObserverPc.Step cfg sh p sh' pc') (hG : freshRead sh l (.observer p) inp = true) :
    Respects sh (.observer p) sh' pc' := by
  cases h with
  | observe sel task =>
    have hfresh : sh.staleRead sel.id task = false := by simpa [freshRead] using hG
    constructor
    case cells => exact fun x => observe_terminal hfresh
    all_goals simp_all [Pc.held, Pc.applied, perpetual, observe_task]
  | settle sel task signal now ht =>
    constructor
    case pending =>
      intro x hx
      rw [setSettlement_pending]
      split_ifs with hxid
      · subst hxid
        exact .inr ⟨task, rfl, ht⟩
      · exact .inl hx
    all_goals simp_all [Pc.held, Pc.applied, perpetual]
  | coalesce sel last =>
    constructor
    case perpetual =>
      exact fun x _ => perpetual_of_refreshes fun _ _ => coalesce_refreshes
    all_goals simp_all [Pc.held, Pc.applied, Shared.coalesce]
  | lease sel task signal now =>
    constructor
    case perpetual =>
      exact fun x _ => perpetual_of_refreshes fun _ _ => observerLease_refreshes
    all_goals simp_all [Pc.held, Pc.applied]
  | evict sel =>
    constructor
    case perpetual =>
      intro x hx hp
      have hne : x ≠ sel.id := (Finset.mem_erase.mp hx).1
      simpa [perpetual, lookup_erase_ne hne] using hp
    all_goals simp_all [Pc.held, Pc.applied, Finset.erase_subset]
  | _ =>
    constructor <;> simp_all [Pc.held, Pc.applied, perpetual]

end Sections

theorem settling_inductive (cfg : TaskAuthorityConfig) :
    Inductive cfg (fun sh l pc inp => freshRead sh l pc inp = true) Grounded Settling where
  init := by
    constructor <;> simp [init, Pc.applied]
  perm := Settling.perm
  env hm _ hs := hs.move hm
  enter c _ hs := by cases c <;> exact hs.cons rfl rfl
  spawn h hg hs := h.settling hg hs
  closing h hg hs := hs.respects hg h.respects
  access h hG hg hs := hs.respects hg (h.respects hG)
  wait h hg hs := hs.respects hg h.respects
  observer h hG hg hs := hs.respects hg (h.respects hG)

theorem settling {cfg : TaskAuthorityConfig} {s : Pool Shared Pc}
    (h : (machine cfg).Run (fun sh l pc inp => freshRead sh l pc inp = true)
      new s) : Settling s.shared s.calls :=
  (settling_inductive cfg).holds (fun _ h => h) Grounded.perm (fun _ => grounded) h

/-- **No settlement is lost**, in every run in which no section writes a stale snapshot: a published
task that is over in RMCP and not in the cache of an open authority is going to be read again, and
so is every such task a `Terminal` waiter is parked on without a notification. -/
theorem settlement_observed (cfg : TaskAuthorityConfig) (s : Pool Shared Pc)
    (h : (machine cfg).Run (fun sh l pc inp => freshRead sh l pc inp = true)
      new s) (ho : s.shared.closed = false) :
    (∀ id ∈ s.shared.state.bindings, ∀ task, s.shared.rmcp.records.lookup id = some task →
      task.isTerminal = true → (s.shared.cells id).task.isTerminal = false → s.shared.Obligation s.calls id) ∧
    (∀ a baseline seen, .wait a (.park baseline seen) ∈ s.calls → a.condition = .terminal →
      (s.shared.signals a.id).waiters = seen → a.id ∈ s.shared.state.bindings →
      ∀ task, s.shared.rmcp.records.lookup a.id = some task → task.isTerminal = true →
      s.shared.Obligation s.calls a.id) := by
  have hs := settling h
  refine ⟨fun id hid task hrec ht hc => hs.obligation (leased h) ho hid hrec ht hc, ?_⟩
  intro a baseline seen hp hcond hw hid task hrec ht
  have hun := (subscribed h).unanswered a _ hp baseline seen rfl hw
  rw [hcond] at hun
  exact hs.obligation (leased h) ho hid hrec ht hun

/-- The task finishes while a waiter is parked on it; the drop hint is still unread. -/
theorem settlement_observed_of_finish : ∃ s, (machine ⟨1, 1, 1, by decide, by decide, by decide⟩).Run
        (fun sh l pc inp => freshRead sh l pc inp = true) new s ∧ s.shared.Obligation s.calls "t" := by
  obtain ⟨s, hs, hp⟩ := (machine ⟨1, 1, 1, by decide, by decide, by decide⟩).exists_run_of_exec
    new (parkEvents ⟨default, "t", none, .terminal⟩ ++ [.env (.dropStore "t"), .env (.dropBump "t"),
      .env (.settle "t" ⟨.completed, ""⟩)]) freshRead
    (p := fun s => s.shared.closed = false ∧ "t" ∈ s.shared.state.bindings ∧
      s.shared.rmcp.records.lookup "t" = some ⟨.completed, ""⟩ ∧
      (s.shared.cells "t").task.isTerminal = false)
    (by decide)
  exact ⟨s, hs, (settlement_observed _ s hs hp.1).1 "t" hp.2.1 _ hp.2.2.1 rfl hp.2.2.2⟩

/-- Two gets of a task without a ttl.  The first reads the drop hint and the task still working;
RMCP publishes the result; the second reads it, caches it and clears the settlement flag; the first
then writes its old snapshot over it.  A waiter for the result finds the cache up to date and parks,
and nothing in the lease, the signal or a running call leads to another read. -/
theorem settlement_lost : ∃ s, (machine ⟨1, 1, 1, by decide, by decide, by decide⟩).Reaches
        new s ∧ s.shared.closed = false ∧ "t" ∈ s.shared.state.bindings ∧
      s.shared.rmcp.records.lookup "t" = some ⟨.completed, ""⟩ ∧ (s.shared.cells "t").task.isTerminal = false ∧
      Pc.wait ⟨default, "t", none, .terminal⟩ (.park 3 3) ∈ s.calls ∧
      (s.shared.signals "t").waiters = 3 ∧ ¬ s.shared.Obligation s.calls "t" := by
  obtain ⟨s, hs, hp⟩ := (machine ⟨1, 1, 1, by decide, by decide, by decide⟩).exists_reaches_of_exec
    new (spawnEvents 1 ⟨default, none⟩ "t" ⟨.working, ""⟩ 12 ++
      [.env (.dropStore "t"), .env (.dropBump "t"), .enter (.access .get default "t")] ++
      (List.replicate 4 Input.go).map (Event.advance 2) ++
      [.env (.settle "t" ⟨.completed, ""⟩), .enter (.access .get default "t")] ++
      (List.replicate 8 Input.go).map (Event.advance 3) ++
      (List.replicate 4 Input.go).map (Event.advance 2) ++
      .enter (.wait ⟨default, "t", none, .terminal⟩) ::
      (List.replicate 10 Input.go).map (Event.advance 4))
    (p := fun s => s.shared.closed = false ∧ "t" ∈ s.shared.state.bindings ∧
      s.shared.rmcp.records.lookup "t" = some ⟨.completed, ""⟩ ∧
      (s.shared.cells "t").task.isTerminal = false ∧
      Pc.wait ⟨default, "t", none, .terminal⟩ (.park 3 3) ∈ s.calls ∧
      (s.shared.signals "t").waiters = 3 ∧
      s.shared.state.leases.lookup "t" = some ⟨none, 0, none, 1⟩ ∧
      s.shared.signals "t" = ⟨3, 1, false⟩ ∧ ∀ pc ∈ s.calls, pc.holdsTerminalRead "t" = false)
    (by decide)
  obtain ⟨h1, h2, h3, h4, h5, h6, hlease, hsig, hread⟩ := hp
  refine ⟨s, hs, h1, h2, h3, h4, h5, h6, ?_⟩
  rintro ⟨lease, hlook, hob⟩
  obtain rfl := Option.some.inj (hlease.symm.trans hlook)
  rw [hsig] at hob
  rcases hob with h | h | h | ⟨pc, hpc, h⟩
  · exact h rfl
  · cases h
  · cases h
  · rw [hread pc hpc] at h; cases h

end McpToolkit.Tasks

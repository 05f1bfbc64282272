import McpToolkit.Tasks.Steps

/-!
# McpToolkit.Tasks.Grounded — where the task ids of the calls come from

RMCP never issues an id twice.  From this: an id that a spawn materialised and has not published is
its own (`Pc.held`), an id that an access, a waiter or the observer took from a published binding
(`Pc.accessed`) is nobody's held id, and a record that a call found absent (`Pc.gone`) stays absent.
`Quiet` collects what all sections but the materialisation and the publication of a spawn have in
common.
-/

namespace McpToolkit.Tasks

open List Finmap Shared
open Lib

/-! ### The ids of a program counter -/

def SpawnPc.held : SpawnPc → Option TaskId
  | .panicked leftover => leftover
  | .convert _ id | .closedCheck _ id | .readInitial _ id | .absentCheck _ id | .release id
  | .bind _ id _ | .publish _ id _ _ => some id
  | .ensureOpen _ | .runtime _ | .reserveOpen _ | .reserve _ | .recheckOpen _ | .materialise _
  | .startObserver _ => none

def AccessPc.accessed : AccessPc → Option TaskId
  | .ensureOpen _ _ | .lookup _ _ | .closedCheck => none
  | .request id | .hint id | .hintDone id | .generation id | .read id _ | .observe id _ _
  | .touch id _ _ | .lease id _ _ | .notifyDone id _ | .remove id | .removeHint id
  | .removeDone id => some id

def WaitPc.accessed (a : WaitArgs) : WaitPc → Option TaskId
  | .ensureOpen | .lookup | .release _ => none
  | .register | .recentRead | .cleanRead | .cachedSnapshot | .hint | .notifyObserver _ | .enable _
  | .checkLease _ _ | .leaseGone | .observedSnapshot | .checkClosed _ _ | .parkInitial _ _
  | .initial _ | .subscribe _ | .check _ _ | .closedCheck _ _ | .park _ _ => some a.id

def ObserverPc.accessed : ObserverPc → Option TaskId
  | .unstarted | .scan | .idle _ | .sleep _ => none
  | .admission sel | .recent sel | .clean sel _ | .coalesce sel _ | .read sel | .touch sel _
  | .observe sel _ | .generation sel _ | .settle sel _ _ _ | .lease sel _ _ _ | .notifyDone sel
  | .evict sel | .evictHint sel | .evictDone sel => some sel.id

namespace Pc

/-- The id a spawn materialised and has not published. -/
def held : Pc → Option TaskId
  | .spawn p => p.held
  | .closing _ _ | .access _ _ | .wait _ _ | .observer _ | .returned _ => none

/-- The id of the binding a call works on. -/
def accessed : Pc → Option TaskId
  | .access _ p => p.accessed
  | .wait a p => p.accessed a
  | .observer p => p.accessed
  | .spawn _ | .closing _ _ | .returned _ => none

/-- The id whose record the call found absent, until it has cleaned up. -/
def gone : Pc → Option TaskId
  | .spawn (.absentCheck _ id) | .spawn (.release id) | .access _ (.remove id) => some id
  | .observer (.touch sel none) | .observer (.evict sel) => some sel.id
  | _ => none

/-- The call has set the closed bit and is still tearing down. -/
def hasClosed : Pc → Bool
  | .closing .shutdown _ | .closing .drain _ | .closing (.hint _) _ | .closing (.hintDone _ _) _ =>
    true
  | _ => false

end Pc

structure Grounded (sh : Shared) (calls : List Pc) : Prop where
  bindings : ∀ id ∈ sh.state.bindings, id ∈ sh.rmcp.issued
  queued : ∀ p, ∀ id ∈ sh.state.observerTasks p, id ∈ sh.rmcp.issued
  records : ∀ id ∈ sh.rmcp.records, id ∈ sh.rmcp.issued
  held : ∀ pc ∈ calls, ∀ id, pc.held = some id →
    id ∈ sh.rmcp.issued ∧ id ∉ sh.state.bindings ∧ ∀ p, id ∉ sh.state.observerTasks p
  nodup : (calls.filterMap Pc.held).Nodup
  accessed : ∀ pc ∈ calls, ∀ id, pc.accessed = some id →
    id ∈ sh.rmcp.issued ∧ id ∉ calls.filterMap Pc.held
  gone : ∀ pc ∈ calls, ∀ id, pc.gone = some id → id ∈ sh.rmcp.issued ∧ id ∉ sh.rmcp.records
  closing : ∀ pc ∈ calls, pc.hasClosed = true → sh.closed = true

/-- A section that issues no id and publishes nothing. -/
structure Quiet (sh : Shared) (pc : Pc) (sh' : Shared) (pc' : Pc) : Prop where
  issued : sh'.rmcp.issued = sh.rmcp.issued
  bindings : sh'.state.bindings ⊆ sh.state.bindings
  tasks : ∀ p, sh'.state.observerTasks p ⊆ sh.state.observerTasks p
  records : ∀ id ∈ sh'.rmcp.records, id ∈ sh.rmcp.records
  closed : sh.closed = true → sh'.closed = true
  held : ∀ id, pc'.held = some id → pc.held = some id
  accessed : ∀ id, pc'.accessed = some id → pc.accessed = some id ∨ id ∈ sh.state.bindings
  gone : ∀ id, pc'.gone = some id → pc.gone = some id ∨
    (pc.held = some id ∨ pc.accessed = some id) ∧ id ∉ sh.rmcp.records
  hasClosed : pc'.hasClosed = true → pc.hasClosed = true ∨ sh'.closed = true

namespace Grounded

theorem perm {sh : Shared} {l l' : List Pc} (h : l.Perm l') (hg : Grounded sh l) : Grounded sh l' where
  bindings := hg.bindings
  queued := hg.queued
  records := hg.records
  held pc hpc := hg.held pc (h.mem_iff.mpr hpc)
  nodup := (h.filterMap Pc.held).nodup_iff.mp hg.nodup
  accessed pc hpc id hid := by
    obtain ⟨h1, h2⟩ := hg.accessed pc (h.mem_iff.mpr hpc) id hid
    exact ⟨h1, fun hmem => h2 ((h.filterMap Pc.held).mem_iff.mpr hmem)⟩
  gone pc hpc := hg.gone pc (h.mem_iff.mpr hpc)
  closing pc hpc := hg.closing pc (h.mem_iff.mpr hpc)

variable {sh sh' : Shared} {pc pc' : Pc} {rest : List Pc}

theorem cons (hg : Grounded sh rest) (hheld : pc.held = none) (hacc : pc.accessed = none)
    (hgone : pc.gone = none) (hcl : pc.hasClosed = false) : Grounded sh (pc :: rest) := by
  have hfm : (pc :: rest).filterMap Pc.held = rest.filterMap Pc.held :=
    filterMap_cons_none hheld
  refine ⟨hg.bindings, hg.queued, hg.records, ?_, hfm ▸ hg.nodup, ?_, ?_, ?_⟩ <;>
    rw [forall_mem_cons]
  · exact ⟨by simp [hheld], hg.held⟩
  · rw [hfm]; exact ⟨by simp [hacc], hg.accessed⟩
  · exact ⟨by simp [hgone], hg.gone⟩
  · exact ⟨by simp [hcl], hg.closing⟩

section

variable (hg : Grounded sh (pc :: rest))
include hg

theorem quiet (q : Quiet sh pc sh' pc') : Grounded sh' (pc' :: rest) := by
  have hsub : ∀ id, id ∈ (pc' :: rest).filterMap Pc.held → id ∈ (pc :: rest).filterMap Pc.held := by
    intro id hid
    obtain ⟨x, hx, hxid⟩ := mem_filterMap.mp hid
    rcases mem_cons.mp hx with rfl | hx
    · exact mem_filterMap.mpr ⟨pc, mem_cons_self, q.held id hxid⟩
    · exact mem_filterMap.mpr ⟨x, mem_cons_of_mem _ hx, hxid⟩
  have hheld : ∀ x ∈ pc :: rest, ∀ id, x.held = some id →
      id ∈ sh'.rmcp.issued ∧ id ∉ sh'.state.bindings ∧ ∀ p, id ∉ sh'.state.observerTasks p := by
    intro x hx id hid
    obtain ⟨h1, h2, h3⟩ := hg.held x hx id hid
    exact ⟨q.issued ▸ h1, fun h => h2 (q.bindings h), fun p h => h3 p (q.tasks p h)⟩
  have hgone : ∀ x ∈ pc :: rest, ∀ id, x.gone = some id →
      id ∈ sh'.rmcp.issued ∧ id ∉ sh'.rmcp.records := by
    intro x hx id hid
    obtain ⟨h1, h2⟩ := hg.gone x hx id hid
    exact ⟨q.issued ▸ h1, fun h => h2 (q.records id h)⟩
  refine ⟨?_, ?_, ?_, ?_, ?_, ?_, ?_, ?_⟩
  · exact fun id hid => q.issued ▸ hg.bindings id (q.bindings hid)
  · exact fun p id hid => q.issued ▸ hg.queued p id (q.tasks p hid)
  · exact fun id hid => q.issued ▸ hg.records id (q.records id hid)
  · intro x hx id hid
    rcases mem_cons.mp hx with rfl | hx
    · exact hheld pc mem_cons_self id (q.held id hid)
    · exact hheld x (mem_cons_of_mem _ hx) id hid
  · refine hg.nodup.sublist ?_
    cases hpc' : pc'.held with
    | none =>
      rw [filterMap_cons_none hpc']
      exact (sublist_cons_self pc rest).filterMap _
    | some id =>
      rw [filterMap_cons_some hpc', filterMap_cons_some (q.held id hpc')]
  · intro x hx id hid
    have key : id ∈ sh.rmcp.issued ∧ id ∉ (pc :: rest).filterMap Pc.held := by
      rcases mem_cons.mp hx with rfl | hx
      · rcases q.accessed id hid with h | h
        · exact hg.accessed pc mem_cons_self id h
        · refine ⟨hg.bindings id h, fun hmem => ?_⟩
          obtain ⟨y, hy, hyid⟩ := mem_filterMap.mp hmem
          exact (hg.held y hy id hyid).2.1 h
      · exact hg.accessed x (mem_cons_of_mem _ hx) id hid
    exact ⟨q.issued ▸ key.1, fun hmem => key.2 (hsub id hmem)⟩
  · intro x hx id hid
    rcases mem_cons.mp hx with rfl | hx
    · rcases q.gone id hid with h | ⟨h, habs⟩
      · exact hgone pc mem_cons_self id h
      · have hiss : id ∈ sh.rmcp.issued := by
          rcases h with h | h
          · exact (hg.held pc mem_cons_self id h).1
          · exact (hg.accessed pc mem_cons_self id h).1
        exact ⟨q.issued ▸ hiss, fun hr => habs (q.records id hr)⟩
    · exact hgone x (mem_cons_of_mem _ hx) id hid
  · intro x hx hxc
    rcases mem_cons.mp hx with rfl | hx
    · rcases q.hasClosed hxc with h | h
      · exact q.closed (hg.closing pc mem_cons_self h)
      · exact h
    · exact q.closed (hg.closing x (mem_cons_of_mem _ hx) hxc)

/-- Materialisation: a fresh id is held by the spawn that got it. -/
theorem materialise {id : TaskId} {task : DetailedTask}
    (hcan : sh.CanMaterialise id task) (hpc : pc.held = none) (hheld : pc'.held = some id)
    (hacc : pc'.accessed = none) (hgone : pc'.gone = none) (hcl : pc'.hasClosed = false) :
    Grounded (sh.materialise id task) (pc' :: rest) := by
  have hfresh := hcan.1
  have hiss : ∀ {x}, x ∈ sh.rmcp.issued → x ∈ (sh.materialise id task).rmcp.issued :=
    fun hx => Finset.mem_insert_of_mem hx
  have hrest : ∀ {x : Pc}, x ∈ rest → x ∈ pc :: rest := mem_cons_of_mem _
  have hfm : (pc :: rest).filterMap Pc.held = rest.filterMap Pc.held :=
    filterMap_cons_none hpc
  have hnotin : id ∉ rest.filterMap Pc.held := by
    intro hmem
    obtain ⟨y, hy, hyid⟩ := mem_filterMap.mp hmem
    exact hfresh (hg.held y (hrest hy) id hyid).1
  refine ⟨?_, ?_, ?_, ?_, ?_, ?_, ?_, ?_⟩
  · exact fun x hx => hiss (hg.bindings x hx)
  · exact fun p x hx => hiss (hg.queued p x hx)
  · intro x hx
    rcases mem_insert.mp hx with rfl | hx
    · exact Finset.mem_insert_self _ _
    · exact hiss (hg.records x hx)
  · intro y hy x hyx
    rcases mem_cons.mp hy with rfl | hy
    · obtain rfl : id = x := Option.some.inj (hheld.symm.trans hyx)
      exact ⟨Finset.mem_insert_self _ _, fun h => hfresh (hg.bindings id h),
        fun p h => hfresh (hg.queued p id h)⟩
    · obtain ⟨h1, h2, h3⟩ := hg.held y (hrest hy) x hyx
      exact ⟨hiss h1, h2, h3⟩
  · rw [filterMap_cons_some hheld]
    exact nodup_cons.mpr ⟨hnotin, hfm ▸ hg.nodup⟩
  · intro y hy x hyx
    rcases mem_cons.mp hy with rfl | hy
    · rw [hacc] at hyx; cases hyx
    · obtain ⟨h1, h2⟩ := hg.accessed y (hrest hy) x hyx
      refine ⟨hiss h1, fun hmem => ?_⟩
      rw [filterMap_cons_some hheld] at hmem
      rcases mem_cons.mp hmem with rfl | hmem
      · exact hfresh h1
      · exact h2 (hfm ▸ hmem)
  · intro y hy x hyx
    rcases mem_cons.mp hy with rfl | hy
    · rw [hgone] at hyx; cases hyx
    · obtain ⟨h1, h2⟩ := hg.gone y (hrest hy) x hyx
      refine ⟨hiss h1, fun hmem => ?_⟩
      rcases mem_insert.mp hmem with rfl | hmem
      · exact hfresh h1
      · exact h2 hmem
  · intro y hy hyc
    rcases mem_cons.mp hy with rfl | hy
    · rw [hcl] at hyc; cases hyc
    · exact hg.closing y (hrest hy) hyc

/-- Publication: the held id becomes a binding. -/
theorem publish {id : TaskId} {principal : TaskPrincipal} {b : TaskBinding}
    (hpc : pc.held = some id) (hheld : pc'.held = none)
    (hacc : pc'.accessed = none) (hgone : pc'.gone = none) (hcl : pc'.hasClosed = false) :
    Grounded ((sh.setCell id b).setState (sh.state.publish id principal)) (pc' :: rest) := by
  have hself := hg.held pc mem_cons_self id hpc
  have hrest : ∀ {x : Pc}, x ∈ rest → x ∈ pc :: rest := mem_cons_of_mem _
  have hfm : (pc' :: rest).filterMap Pc.held = rest.filterMap Pc.held :=
    filterMap_cons_none hheld
  have hnd := hg.nodup
  rw [filterMap_cons_some hpc, nodup_cons] at hnd
  have hqueue : ∀ p x, x ∈ (sh.state.publish id principal).observerTasks p →
      x = id ∨ x ∈ sh.state.observerTasks p := by
    intro p x hx
    simp only [AuthorityState.publish] at hx
    by_cases hp : p = principal
    · subst hp
      simpa [or_comm] using hx
    · rw [Function.update_of_ne hp] at hx
      exact .inr hx
  refine ⟨?_, ?_, hg.records, ?_, ?_, ?_, ?_, ?_⟩
  · intro x hx
    rcases Finset.mem_insert.mp hx with rfl | hx
    · exact hself.1
    · exact hg.bindings x hx
  · intro p x hx
    rcases hqueue p x hx with rfl | hx
    · exact hself.1
    · exact hg.queued p x hx
  · intro y hy x hyx
    rcases mem_cons.mp hy with rfl | hy
    · rw [hheld] at hyx; cases hyx
    · obtain ⟨h1, h2, h3⟩ := hg.held y (hrest hy) x hyx
      have hne : x ≠ id := by
        rintro rfl
        exact hnd.1 (mem_filterMap.mpr ⟨y, hy, hyx⟩)
      refine ⟨h1, fun hmem => ?_, fun p hmem => ?_⟩
      · rcases Finset.mem_insert.mp hmem with rfl | hmem
        · exact hne rfl
        · exact h2 hmem
      · rcases hqueue p x hmem with rfl | hmem
        · exact hne rfl
        · exact h3 p hmem
  · rw [hfm]; exact hnd.2
  · intro y hy x hyx
    rcases mem_cons.mp hy with rfl | hy
    · rw [hacc] at hyx; cases hyx
    · obtain ⟨h1, h2⟩ := hg.accessed y (hrest hy) x hyx
      refine ⟨h1, fun hmem => h2 ?_⟩
      rw [hfm] at hmem
      rw [filterMap_cons_some hpc]
      exact mem_cons_of_mem _ hmem
  · intro y hy x hyx
    rcases mem_cons.mp hy with rfl | hy
    · rw [hgone] at hyx; cases hyx
    · exact hg.gone y (hrest hy) x hyx
  · intro y hy hyc
    rcases mem_cons.mp hy with rfl | hy
    · rw [hcl] at hyc; cases hyc
    · exact hg.closing y (hrest hy) hyc

end

theorem move {l : List Pc} (hg : Grounded sh l) (h : Move.Step sh sh') : Grounded sh' l := by
  obtain ⟨hi, hst, hc, -, hr⟩ := h.frame
  refine ⟨?_, ?_, ?_, ?_, hg.nodup, ?_, ?_, ?_⟩
  · rw [hi, hst]; exact hg.bindings
  · rw [hi, hst]; exact hg.queued
  · rw [hi]; exact fun id hid => hg.records id (hr id hid)
  · rw [hi, hst]; exact hg.held
  · rw [hi]; exact hg.accessed
  · intro pc hpc id hid
    rw [hi]
    exact ⟨(hg.gone pc hpc id hid).1, fun h => (hg.gone pc hpc id hid).2 (hr id h)⟩
  · rw [hc]; exact hg.closing

end Grounded

/-! ### Which sections are quiet -/

section Quiet

variable {cfg : TaskAuthorityConfig} {sh sh' : Shared} {pc' : Pc}

theorem SpawnPc.Step.quiet {p : SpawnPc} (h : SpawnPc.Step cfg sh p sh' pc') :
    (∃ a id task, p = .materialise a ∧ sh.CanMaterialise id task ∧ sh' = sh.materialise id task ∧
      (pc' = .spawn (.convert a id) ∨ pc' = .spawn (.panicked (some id)))) ∨
    (∃ a id initial readAt, p = .publish a id initial readAt ∧ sh.closed = false ∧
      id ∉ sh.state.bindings ∧ sh' = (sh.setCell id ⟨a.principal, 1, initial, some readAt, 0⟩).setState
        (sh.state.publish id a.principal) ∧ pc' = .spawn (.startObserver id)) ∨ Quiet sh (.spawn p) sh' pc' := by
  cases h with
  | materialise a id task hcan => exact .inl ⟨a, id, task, rfl, hcan, rfl, .inl rfl⟩
  | panickedWith a id task hcan => exact .inl ⟨a, id, task, rfl, hcan, rfl, .inr rfl⟩
  | publish a id initial readAt ho hn => exact .inr (.inl ⟨a, id, initial, readAt, rfl, ho, hn, rfl, rfl⟩)
  | _ =>
    refine .inr (.inr ?_)
    constructor <;>
      simp_all [Pc.held, SpawnPc.held, Pc.accessed, Pc.gone, Pc.hasClosed, Pc.forceClose,
        AuthorityState.reserve, AuthorityState.convert, AuthorityState.release,
        lookup_eq_none]

theorem ClosePc.Step.quiet {r : Outcome} {p : ClosePc} (h : ClosePc.Step sh r p sh' pc') :
    Quiet sh (.closing p r) sh' pc' := by
  cases h <;> constructor <;>
    simp_all [Pc.held, Pc.accessed, Pc.gone, Pc.hasClosed, AuthorityState.empty,
      shutdownRmcp, notMem_empty]

theorem AccessPc.Step.quiet {k : Access} {p : AccessPc} (h : AccessPc.Step sh k p sh' pc') :
    Quiet sh (.access k p) sh' pc' := by
  cases h <;> constructor <;>
    simp_all [Pc.held, Pc.accessed, AccessPc.accessed, Pc.gone, Pc.hasClosed,
      leaseAfterRead_state, AuthorityState.removeBinding, Finset.erase_subset]

theorem WaitPc.Step.quiet {a : WaitArgs} {p : WaitPc} (h : WaitPc.Step cfg sh a p sh' pc') :
    Quiet sh (.wait a p) sh' pc' := by
  cases h <;> constructor <;>
    simp_all [Pc.held, Pc.accessed, WaitPc.accessed, Pc.gone, Pc.hasClosed]

theorem ObserverPc.Step.quiet {p : ObserverPc} (h : ObserverPc.Step cfg sh p sh' pc') :
    Quiet sh (.observer p) sh' pc' := by
  cases h with
  | selected sel ho hsel =>
    have hmem := (scan_selected hsel).1
    constructor <;>
      simp_all [Pc.held, Pc.accessed, ObserverPc.accessed, Pc.gone, Pc.hasClosed, scan_tasks_subset]
  | nothing ho hsel =>
    constructor <;>
      simp_all [Pc.held, Pc.accessed, ObserverPc.accessed, Pc.gone, Pc.hasClosed, scan_tasks_subset]
  | read sel =>
    cases hl : sh.rmcp.records.lookup sel.id <;> constructor <;>
      simp_all [Pc.held, Pc.accessed, ObserverPc.accessed, Pc.gone, Pc.hasClosed, lookup_eq_none]
  | lease sel task signal now =>
    have hsub : ∀ p, (sh.observerLease sel.id task sel.generation signal now).observerTasks p ⊆
        sh.state.observerTasks p := fun p => (observerLease_tasks_perm p).subset
    constructor <;>
      simp_all [Pc.held, Pc.accessed, ObserverPc.accessed, Pc.gone, Pc.hasClosed]
  | evict sel =>
    have hsub : ∀ p, (sh.observerEvict sel.id).observerTasks p ⊆ sh.state.observerTasks p :=
      fun p => (AuthorityState.rotateObserver_tasks_perm p).subset
    constructor <;>
      simp_all [Pc.held, Pc.accessed, ObserverPc.accessed, Pc.gone, Pc.hasClosed, Finset.erase_subset]
  | _ =>
    constructor <;>
      simp_all [Pc.held, Pc.accessed, ObserverPc.accessed, Pc.gone, Pc.hasClosed, Shared.coalesce]

end Quiet

theorem grounded_inductive (cfg : TaskAuthorityConfig) : Inductive cfg noGuard (fun _ _ => True) Grounded where
  init := by
    constructor
    case nodup => exact nodup_nil
    all_goals simp [init, AuthorityState.empty, Pc.held, Pc.accessed, ObserverPc.accessed,
      Pc.gone, Pc.hasClosed, notMem_empty]
  perm := Grounded.perm
  env hm _ hg := hg.move hm
  enter c _ hg := by
    cases c <;> exact hg.cons rfl rfl rfl rfl
  spawn h _ hg := by
    rcases h.quiet with ⟨a, id, task, rfl, hcan, rfl, rfl | rfl⟩ |
      ⟨a, id, initial, readAt, rfl, ho, hn, rfl, rfl⟩ | hq
    · exact hg.materialise hcan rfl rfl rfl rfl rfl
    · exact hg.materialise hcan rfl rfl rfl rfl rfl
    · exact hg.publish rfl rfl rfl rfl rfl
    · exact hg.quiet hq
  closing h _ hg := hg.quiet h.quiet
  access h _ _ hg := hg.quiet h.quiet
  wait h _ hg := hg.quiet h.quiet
  observer h _ _ hg := hg.quiet h.quiet

theorem grounded {cfg : TaskAuthorityConfig} {G : Machine.Guard Shared Pc Input}
    {s : Pool Shared Pc} (h : (TaskAuthority.machine cfg).Run G TaskAuthority.new s) : Grounded s.shared s.calls :=
  (grounded_inductive cfg).holds (fun _ h => h) (fun _ h => h) (fun _ _ => trivial) h.reaches

end McpToolkit.Tasks

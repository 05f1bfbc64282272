import McpToolkit.Tasks.State

/-!
# McpToolkit.Tasks.Scan — the fair scan of the observation loop

One pass of `observation_loop` under the state lock.  Principals take turns; the whole bucket of a
principal is inspected, ids whose binding is gone are dropped on the way, the first due task is
selected and its principal stays in front.  `scanTasks` and `scanPrincipals` are the two bounded
`for` loops, with `pop_front` and `push_back` on lists.
-/

namespace McpToolkit.Tasks

open List

/-- A task the scan found due, with the signal generation it was scanned at. -/
structure Selected where
  id : TaskId
  generation : ℕ
  deriving DecidableEq

structure Queues where
  principals : List TaskPrincipal
  tasks : TaskPrincipal → List TaskId

namespace Shared

variable (sh : Shared)

def due (id : TaskId) : Bool :=
  match sh.state.leases.lookup id with
  | none => false
  | some lease =>
    (sh.signals id).generation != lease.observedSignalGeneration ||
      lease.nextProbeAt.any (fun deadline => deadline ≤ sh.clock) ||
      ((sh.signals id).settlementPending &&
        lease.nextProbeAt.all (fun deadline => deadline ≤ sh.clock))

def scanTasks : ℕ → List TaskId → Option Selected → List TaskId × Option Selected
  | 0, queue, selected => (queue, selected)
  | _ + 1, [], selected => ([], selected)
  | n + 1, id :: queue, selected =>
    if id ∈ sh.state.bindings then
      scanTasks n (queue ++ [id])
        (if sh.due id && selected.isNone then some ⟨id, (sh.signals id).generation⟩ else selected)
    else scanTasks n queue selected

def scanPrincipals : ℕ → Queues → Queues × Option Selected
  | 0, q => (q, none)
  | _ + 1, ⟨[], tasks⟩ => (⟨[], tasks⟩, none)
  | n + 1, ⟨principal :: principals, tasks⟩ =>
    if (tasks principal).length = 0 then
      scanPrincipals n ⟨principals, Function.update tasks principal []⟩
    else
      let bucket := sh.scanTasks (tasks principal).length (tasks principal) none
      let tasks := Function.update tasks principal bucket.1
      if bucket.2.isSome then (⟨principal :: principals, tasks⟩, bucket.2)
      else if bucket.1 = [] then scanPrincipals n ⟨principals, tasks⟩
      else scanPrincipals n ⟨principals ++ [principal], tasks⟩

def scan : AuthorityState × Option Selected :=
  let r := sh.scanPrincipals sh.state.observerPrincipals.length
    ⟨sh.state.observerPrincipals, sh.state.observerTasks⟩
  ({ sh.state with observerPrincipals := r.1.principals, observerTasks := r.1.tasks }, r.2)

@[simp] theorem scan_bindings : sh.scan.1.bindings = sh.state.bindings := rfl
@[simp] theorem scan_leases : sh.scan.1.leases = sh.state.leases := rfl
@[simp] theorem scan_reservedLeases : sh.scan.1.reservedLeases = sh.state.reservedLeases := rfl

/-- The nearest probe of any lease. -/
def earliest : Option Instant :=
  (sh.state.leases.keys.biUnion fun id =>
    ((sh.state.leases.lookup id).bind LeaseInfo.nextProbeAt).toFinset).min

/-! ### What a scan does -/

/-- The published ids of a bucket, in order. -/
def live (queue : List TaskId) : List TaskId := queue.filter (· ∈ sh.state.bindings)

def firstDue (queue : List TaskId) : Option Selected :=
  (sh.live queue).find? sh.due |>.map fun id => ⟨id, (sh.signals id).generation⟩

variable {sh}

theorem mem_live {queue : List TaskId} {id : TaskId} : id ∈ sh.live queue ↔ id ∈ queue ∧ id ∈ sh.state.bindings := by
  simp [live]

theorem scanTasks_append (sh : Shared) : ∀ (queue tail : List TaskId) (selected : Option Selected),
    sh.scanTasks queue.length (queue ++ tail) selected =
      (tail ++ sh.live queue, selected.or (sh.firstDue queue))
  | [], tail, selected => by simp [scanTasks, live, firstDue]
  | id :: queue, tail, selected => by
    simp only [length_cons, cons_append, scanTasks]
    by_cases hid : id ∈ sh.state.bindings
    · have hlive : sh.live (id :: queue) = id :: sh.live queue := by simp [live, hid]
      rw [if_pos hid, append_assoc, scanTasks_append sh queue (tail ++ [id]), hlive]
      refine Prod.ext (by simp) ?_
      unfold firstDue
      rw [hlive, find?_cons]
      cases hdue : sh.due id <;> cases selected <;> simp
    · have hlive : sh.live (id :: queue) = sh.live queue := by simp [live, hid]
      rw [if_neg hid, scanTasks_append sh queue tail selected]
      simp [firstDue, hlive]

theorem scanTasks_eq (queue : List TaskId) :
    sh.scanTasks queue.length queue none = (sh.live queue, sh.firstDue queue) := by
  simpa using scanTasks_append sh queue [] none

theorem firstDue_some {queue : List TaskId} {sel : Selected} (h : sh.firstDue queue = some sel) :
    sel.id ∈ sh.live queue ∧ sh.due sel.id = true ∧ sel.generation = (sh.signals sel.id).generation := by
  simp only [firstDue, Option.map_eq_some_iff] at h
  obtain ⟨id, hfind, rfl⟩ := h
  exact ⟨mem_of_find?_eq_some hfind, find?_some hfind, rfl⟩

/-- **The loop rule of a scan**: a property of the queues that survives dropping an empty bucket,
keeping the bucket with a due task in front, dropping a bucket without published ids and moving a
bucket to the back, holds of the queues a scan leaves. -/
theorem scanPrincipals_induct (sh : Shared) {P : Queues → Prop}
    (hempty : ∀ p ps tasks, tasks p = [] → P ⟨p :: ps, tasks⟩ → P ⟨ps, Function.update tasks p []⟩)
    (hfront : ∀ p ps tasks, sh.live (tasks p) ≠ [] → P ⟨p :: ps, tasks⟩ →
      P ⟨p :: ps, Function.update tasks p (sh.live (tasks p))⟩)
    (hdrop : ∀ p ps tasks, sh.live (tasks p) = [] → P ⟨p :: ps, tasks⟩ → P ⟨ps, Function.update tasks p []⟩)
    (hback : ∀ p ps tasks, sh.live (tasks p) ≠ [] → P ⟨p :: ps, tasks⟩ →
      P ⟨ps ++ [p], Function.update tasks p (sh.live (tasks p))⟩) :
    ∀ (n : ℕ) (q : Queues), P q → P (sh.scanPrincipals n q).1 ∧
      ∀ sel, (sh.scanPrincipals n q).2 = some sel → sel.id ∈ sh.state.bindings ∧
        sh.due sel.id = true ∧ sel.generation = (sh.signals sel.id).generation
  | 0, q, h => ⟨h, by simp [scanPrincipals]⟩
  | _ + 1, ⟨[], tasks⟩, h => ⟨h, by simp [scanPrincipals]⟩
  | n + 1, ⟨p :: ps, tasks⟩, h => by
    have ih := scanPrincipals_induct sh hempty hfront hdrop hback n
    rw [scanPrincipals, scanTasks_eq]
    by_cases hlen : (tasks p).length = 0
    · rw [if_pos hlen]
      exact ih _ (hempty p ps tasks (length_eq_zero_iff.mp hlen) h)
    · rw [if_neg hlen]
      dsimp only
      cases hsel : sh.firstDue (tasks p) with
      | some sel =>
        obtain ⟨hmem, hdue, hgen⟩ := firstDue_some hsel
        refine ⟨hfront p ps tasks (ne_nil_of_mem hmem) h, ?_⟩
        rintro sel' hsel'
        obtain rfl : sel = sel' := by simpa using hsel'
        exact ⟨(mem_live.mp hmem).2, hdue, hgen⟩
      | none =>
        by_cases hlive : sh.live (tasks p) = []
        · simp only [hlive]
          exact ih _ (hdrop p ps tasks hlive h)
        · simp only [hlive]
          exact ih _ (hback p ps tasks hlive h)

theorem scan_selected {sel : Selected} (h : sh.scan.2 = some sel) :
    sel.id ∈ sh.state.bindings ∧ sh.due sel.id = true ∧ sel.generation = (sh.signals sel.id).generation :=
  (scanPrincipals_induct sh (P := fun _ => True) (fun _ _ _ _ _ => trivial)
    (fun _ _ _ _ _ => trivial) (fun _ _ _ _ _ => trivial) (fun _ _ _ _ _ => trivial) _ _
    trivial).2 sel h

theorem scan_tasks_subset (p : TaskPrincipal) : sh.scan.1.observerTasks p ⊆ sh.state.observerTasks p := by
  have hupd : ∀ (tasks : TaskPrincipal → List TaskId) (q : TaskPrincipal) (l : List TaskId),
      l ⊆ tasks q → tasks p ⊆ sh.state.observerTasks p →
      Function.update tasks q l p ⊆ sh.state.observerTasks p := by
    intro tasks q l hl hp
    by_cases hq : p = q
    · subst hq
      rw [Function.update_self]
      exact fun id hid => hp (hl hid)
    · rwa [Function.update_of_ne hq]
  have hlive : ∀ l, sh.live l ⊆ l := fun l id hid => (mem_live.mp hid).1
  refine (scanPrincipals_induct sh
    (P := fun q => q.tasks p ⊆ sh.state.observerTasks p) ?_ ?_ ?_ ?_ _ _ ?_).1
  · exact fun q ps tasks _ h => hupd tasks q [] (nil_subset _) h
  · exact fun q ps tasks _ h => hupd tasks q _ (hlive _) h
  · exact fun q ps tasks _ h => hupd tasks q [] (nil_subset _) h
  · exact fun q ps tasks _ h => hupd tasks q _ (hlive _) h
  · exact fun id hid => hid

end Shared

end McpToolkit.Tasks

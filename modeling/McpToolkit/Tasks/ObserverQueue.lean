import McpToolkit.Tasks.Grounded

/-!
# McpToolkit.Tasks.ObserverQueue — every live task is scheduled exactly once

The observation loop finds its work in two queues: the principals in turn, and for each principal
its task ids.  Publications push, scans drop stale ids and move buckets, reads rotate, removals
leave the id behind for a later scan.  `WellQueued` is what all of them keep.
The cell of a task keeps its owner from the publication on: `Owned`, for the waiters on it.
-/

namespace McpToolkit.Tasks

open List Shared TaskAuthority Function
open Lib

structure WellQueued (published : Finset TaskId) (owner : TaskId → TaskPrincipal) (q : Queues) :
    Prop where
  queued : ∀ id ∈ published, id ∈ q.tasks (owner id)
  only : ∀ id ∈ published, ∀ p, p ≠ owner id → id ∉ q.tasks p
  distinct : ∀ p, (q.tasks p).Nodup
  nodup : q.principals.Nodup
  nonempty : ∀ p, p ∈ q.principals ↔ q.tasks p ≠ []

def AuthorityState.queues (st : AuthorityState) : Queues := ⟨st.observerPrincipals, st.observerTasks⟩

namespace WellQueued

variable {published published' : Finset TaskId} {owner owner' : TaskId → TaskPrincipal}
  {q q' : Queues}

theorem empty : WellQueued ∅ owner ⟨[], fun _ => []⟩ where
  queued _ h := absurd h (Finset.notMem_empty _)
  only _ h := absurd h (Finset.notMem_empty _)
  distinct _ := nodup_nil
  nodup := nodup_nil
  nonempty p := by simp

theorem perm (h : WellQueued published owner q) (hsub : published' ⊆ published)
    (howner : ∀ id ∈ published', owner' id = owner id) (hps : q'.principals.Perm q.principals)
    (htasks : ∀ p, (q'.tasks p).Perm (q.tasks p)) : WellQueued published' owner' q' where
  queued id hid := by rw [howner id hid, (htasks _).mem_iff]; exact h.queued id (hsub hid)
  only id hid p hp hmem := by
    rw [howner id hid] at hp
    exact h.only id (hsub hid) p hp ((htasks p).mem_iff.mp hmem)
  distinct p := (htasks p).nodup_iff.mpr (h.distinct p)
  nodup := hps.nodup_iff.mpr h.nodup
  nonempty p := by
    rw [hps.mem_iff, h.nonempty p, ne_eq, ne_eq, ← length_eq_zero_iff, ← length_eq_zero_iff, (htasks p).length_eq]

theorem shrink {p : TaskPrincipal} {bucket : List TaskId} (h : WellQueued published owner q)
    (hsub : bucket.Sublist (q.tasks p)) (hkept : ∀ id ∈ published, id ∈ q.tasks p → id ∈ bucket)
    (hempty : bucket = [] ↔ q.tasks p = []) :
    WellQueued published owner ⟨q.principals, Function.update q.tasks p bucket⟩ where
  queued id hid := by
    by_cases hp : owner id = p
    · subst hp
      simp only [update_self]
      exact hkept id hid (h.queued id hid)
    · simp only [update_of_ne hp]
      exact h.queued id hid
  only id hid r hr hmem := by
    refine h.only id hid r hr ?_
    by_cases hrp : r = p
    · subst hrp
      simp only [update_self] at hmem
      exact hsub.subset hmem
    · simpa only [update_of_ne hrp] using hmem
  distinct r := by
    by_cases hrp : r = p
    · subst hrp
      simpa only [update_self] using (h.distinct r).sublist hsub
    · simpa only [update_of_ne hrp] using h.distinct r
  nodup := h.nodup
  nonempty r := by
    rw [h.nonempty r]
    by_cases hrp : r = p
    · subst hrp
      simp only [update_self, ne_eq, hempty]
    · simp only [update_of_ne hrp]

theorem drop {p : TaskPrincipal} {ps : List TaskPrincipal} {tasks : TaskPrincipal → List TaskId}
    (h : WellQueued published owner ⟨p :: ps, tasks⟩) (hnone : ∀ id ∈ tasks p, id ∉ published) :
    WellQueued published owner ⟨ps, Function.update tasks p []⟩ where
  queued id hid := by
    have hp : owner id ≠ p := by
      rintro rfl
      exact hnone id (h.queued id hid) hid
    simp only [update_of_ne hp]
    exact h.queued id hid
  only id hid r hr hmem := by
    by_cases hrp : r = p
    · subst hrp
      simp at hmem
    · exact h.only id hid r hr (by simpa only [update_of_ne hrp] using hmem)
  distinct r := by
    by_cases hrp : r = p
    · subst hrp
      simp
    · simpa only [update_of_ne hrp] using h.distinct r
  nodup := (nodup_cons.mp h.nodup).2
  nonempty r := by
    by_cases hrp : r = p
    · subst hrp
      simpa using (nodup_cons.mp h.nodup).1
    · have := h.nonempty r
      simp only [mem_cons, hrp, false_or] at this
      simpa only [update_of_ne hrp] using this

/-- A fresh id joins the bucket of its principal. -/
theorem publish {id : TaskId} {principal : TaskPrincipal} (h : WellQueued published owner q)
    (hfresh : ∀ p, id ∉ q.tasks p) (hself : owner' id = principal)
    (howner : ∀ x ∈ published, x ≠ id → owner' x = owner x) : WellQueued (insert id published) owner'
      ⟨if q.tasks principal = [] then q.principals ++ [principal] else q.principals,
        Function.update q.tasks principal (q.tasks principal ++ [id])⟩ where
  queued x hx := by
    by_cases hxid : x = id
    · subst hxid
      rw [hself]
      simp
    · have hx := (Finset.mem_insert.mp hx).resolve_left hxid
      rw [howner x hx hxid]
      by_cases hp : owner x = principal
      · simp only [hp, update_self]
        exact mem_append_left _ (hp ▸ h.queued x hx)
      · simp only [update_of_ne hp]
        exact h.queued x hx
  only x hx p hp hmem := by
    by_cases hxid : x = id
    · subst hxid
      rw [hself] at hp
      simp only [update_of_ne hp] at hmem
      exact hfresh p hmem
    · have hx := (Finset.mem_insert.mp hx).resolve_left hxid
      rw [howner x hx hxid] at hp
      refine h.only x hx p hp ?_
      by_cases hpp : p = principal
      · subst hpp
        simpa [hxid] using hmem
      · simpa only [update_of_ne hpp] using hmem
  distinct p := by
    by_cases hpp : p = principal
    · subst hpp
      simp only [update_self]
      refine nodup_append.mpr ⟨h.distinct p, nodup_singleton _, ?_⟩
      rintro x hx y hy rfl
      exact hfresh p (mem_singleton.mp hy ▸ hx)
    · simpa only [update_of_ne hpp] using h.distinct p
  nodup := by
    dsimp only
    split_ifs with hemp
    · refine nodup_append.mpr ⟨h.nodup, nodup_singleton _, ?_⟩
      intro a ha b hb hab
      obtain rfl := mem_singleton.mp hb
      exact (h.nonempty _).mp (hab ▸ ha) hemp
    · exact h.nodup
  nonempty p := by
    dsimp only
    by_cases hpp : p = principal
    · subst hpp
      split_ifs with hemp
      · simp
      · simpa using (h.nonempty p).mpr hemp
    · rw [update_of_ne hpp, ← h.nonempty p]
      split_ifs with hemp
      · simp [hpp]
      · rfl

theorem count_eq_one (h : WellQueued published owner q) {id : TaskId} (hid : id ∈ published) :
    (q.tasks (owner id)).count id = 1 :=
  count_eq_one_of_mem (h.distinct _) (h.queued id hid)

end WellQueued

/-! ### Scans -/

theorem Shared.scan_wellQueued {sh : Shared} {owner : TaskId → TaskPrincipal}
    (h : WellQueued sh.state.bindings owner sh.state.queues) : WellQueued sh.state.bindings owner sh.scan.1.queues := by
  have hnil : ∀ {l : List TaskId}, sh.live l ≠ [] → (sh.live l = [] ↔ l = []) := by
    intro l hl
    refine ⟨fun h => absurd h hl, ?_⟩
    rintro rfl
    rfl
  have hback : ∀ (p : TaskPrincipal) (ps : List TaskPrincipal) (tasks : TaskPrincipal → List TaskId),
      sh.live (tasks p) ≠ [] → WellQueued sh.state.bindings owner ⟨p :: ps, tasks⟩ →
      WellQueued sh.state.bindings owner
        ⟨p :: ps, Function.update tasks p (sh.live (tasks p))⟩ :=
    fun p ps tasks hne hq => hq.shrink filter_sublist (fun _ hid hmem => mem_live.mpr ⟨hmem, hid⟩) (hnil hne)
  refine (sh.scanPrincipals_induct ?_ hback ?_ ?_ _ _ h).1
  · intro p ps tasks hemp hq
    exact absurd hemp ((hq.nonempty p).mp mem_cons_self)
  · intro p ps tasks hnone hq
    refine hq.drop fun id hid hpub => ?_
    have : id ∈ sh.live (tasks p) := mem_live.mpr ⟨hid, hpub⟩
    rw [hnone] at this
    cases this
  · intro p ps tasks hne hq
    exact (hback p ps tasks hne hq).perm subset_rfl (fun _ _ => rfl)
      (perm_append_singleton p ps) (fun _ => List.Perm.refl _)

/-! ### Sections -/

/-- The queues of the authority are in order. -/
def Shared.Scheduled (sh : Shared) : Prop :=
  WellQueued sh.state.bindings (fun id => (sh.cells id).principal) sh.state.queues

theorem Shared.Scheduled.perm {sh sh' : Shared} (h : sh.Scheduled) (hsub : sh'.state.bindings ⊆ sh.state.bindings)
    (hcells : ∀ id, (sh'.cells id).principal = (sh.cells id).principal)
    (hps : sh'.state.observerPrincipals.Perm sh.state.observerPrincipals)
    (htasks : ∀ p, (sh'.state.observerTasks p).Perm (sh.state.observerTasks p)) : sh'.Scheduled :=
  WellQueued.perm h hsub (fun id _ => hcells id) hps htasks

section Sections

variable {cfg : TaskAuthorityConfig} {sh sh' : Shared} {pc' : Pc} {rest : List Pc}

variable {id x : TaskId}

theorem Shared.setCell_principal {b : TaskBinding} (h : b.principal = (sh.cells id).principal) :
    ((sh.setCell id b).cells x).principal = (sh.cells x).principal := by
  by_cases hx : x = id
  · subst hx
    simpa [setCell] using h
  · simp [setCell, update_of_ne hx]

@[simp] theorem Shared.notifyDone_principal : ((sh.notifyDone id).cells x).principal = (sh.cells x).principal :=
  setCell_principal rfl

@[simp] theorem Shared.touch_principal : ((sh.touch id).cells x).principal = (sh.cells x).principal :=
  setCell_principal rfl

@[simp] theorem Shared.observe_principal {task : DetailedTask} :
    ((sh.observe id task).cells x).principal = (sh.cells x).principal := by
  unfold observe
  split
  · rfl
  · exact setCell_principal rfl

theorem SpawnPc.Step.scheduled {p : SpawnPc} (h : SpawnPc.Step cfg sh p sh' pc')
    (hg : Grounded sh (.spawn p :: rest)) (hq : sh.Scheduled) : sh'.Scheduled := by
  cases h with
  | publish a id initial readAt ho hn =>
    have hfresh := (hg.held _ mem_cons_self id rfl).2.2
    refine WellQueued.publish hq hfresh (by simp [setCell]) fun x _ hx => ?_
    simp [setCell, update_of_ne hx]
  | _ => exact hq

theorem ClosePc.Step.scheduled {r : Outcome} {p : ClosePc} (h : ClosePc.Step sh r p sh' pc')
    (hq : sh.Scheduled) : sh'.Scheduled := by
  cases h with
  | drain => exact WellQueued.empty
  | hintDone id remaining => exact hq.perm subset_rfl (by simp) (.refl _) fun _ => .refl _
  | _ => exact hq

theorem AccessPc.Step.scheduled {k : Access} {p : AccessPc} (h : AccessPc.Step sh k p sh' pc')
    (hq : sh.Scheduled) : sh'.Scheduled := by
  refine hq.perm ?_ ?_ ?_ ?_ <;> cases h <;>
    simp [leaseAfterRead_state, AuthorityState.removeBinding, Finset.erase_subset]

theorem WaitPc.Step.scheduled {a : WaitArgs} {p : WaitPc} (h : WaitPc.Step cfg sh a p sh' pc')
    (hq : sh.Scheduled) : sh'.Scheduled := by
  cases h <;> exact hq

theorem ObserverPc.Step.scheduled {p : ObserverPc} (h : ObserverPc.Step cfg sh p sh' pc')
    (hq : sh.Scheduled) : sh'.Scheduled := by
  cases h with
  | selected sel ho hsel | nothing ho hsel => exact scan_wellQueued hq
  | lease sel task signal now =>
    exact hq.perm (by simp) (fun _ => rfl) observerLease_principals_perm
      observerLease_tasks_perm
  | evict sel =>
    exact hq.perm (Finset.erase_subset _ _) (fun _ => rfl) AuthorityState.rotateObserver_principals_perm
      AuthorityState.rotateObserver_tasks_perm
  | _ => refine hq.perm ?_ ?_ ?_ ?_ <;> simp [Shared.coalesce]

end Sections

theorem scheduled_inductive (cfg : TaskAuthorityConfig) :
    Inductive cfg noGuard Grounded (fun sh _ => sh.Scheduled) where
  init := WellQueued.empty
  perm _ hq := hq
  env hm _ hq := by
    obtain ⟨-, hst, -, hcells, -⟩ := hm.frame
    unfold Shared.Scheduled
    rw [hst, hcells]
    exact hq
  enter _ _ hq := hq
  spawn h hg hq := h.scheduled hg hq
  closing h _ hq := h.scheduled hq
  access h _ _ hq := h.scheduled hq
  wait h _ hq := h.scheduled hq
  observer h _ _ hq := h.scheduled hq

theorem scheduled {cfg : TaskAuthorityConfig} {s : Pool Shared Pc}
    (h : (machine cfg).Reaches new s) : s.shared.Scheduled :=
  (scheduled_inductive cfg).holds (fun _ h => h) Grounded.perm (fun _ => grounded) h

/-- **The observer queues**, between any two sections of any run: a published id stands exactly
once in the queue of its principal and in no other queue, no principal stands twice in the
rotation, and the principals in rotation are those with a task queued. -/
theorem observer_queues_in_order (cfg : TaskAuthorityConfig) (s : Pool Shared Pc)
    (h : (machine cfg).Reaches new s) : (∀ id ∈ s.shared.state.bindings,
      (s.shared.state.observerTasks (s.shared.cells id).principal).count id = 1 ∧
      ∀ p, p ≠ (s.shared.cells id).principal → id ∉ s.shared.state.observerTasks p) ∧
    s.shared.state.observerPrincipals.Nodup ∧
    ∀ p, p ∈ s.shared.state.observerPrincipals ↔ s.shared.state.observerTasks p ≠ [] := by
  have hq := scheduled h
  exact ⟨fun id hid => ⟨hq.count_eq_one hid, hq.only id hid⟩, hq.nodup, hq.nonempty⟩

/-- Two tasks of one principal, the second published after the first was scanned. -/
theorem observer_queues_in_order_of_two :
    ∃ s, (machine ⟨2, 1, 1, by decide, by decide, by decide⟩).Reaches
        new s ∧ s.shared.state.bindings = {"t", "u"} ∧ (∀ id ∈ s.shared.state.bindings,
        (s.shared.state.observerTasks (s.shared.cells id).principal).count id = 1 ∧
        ∀ p, p ≠ (s.shared.cells id).principal → id ∉ s.shared.state.observerTasks p) ∧
      s.shared.state.observerPrincipals.Nodup ∧
      ∀ p, p ∈ s.shared.state.observerPrincipals ↔ s.shared.state.observerTasks p ≠ [] := by
  obtain ⟨s, hs, hp⟩ := (machine ⟨2, 1, 1, by decide, by decide, by decide⟩).exists_reaches_of_exec
    new (spawnEvents 1 ⟨default, some 0⟩ "t" ⟨.working, ""⟩ 12 ++
      .advance 0 .go :: .advance 0 .go ::
      spawnEvents 2 ⟨default, none⟩ "u" ⟨.working, ""⟩ 12)
    (p := fun s => s.shared.state.bindings = {"t", "u"})
    (by decide)
  exact ⟨s, hs, hp, observer_queues_in_order _ s hs⟩

/-! ### The owner of a task -/

/-- Every waiter that was admitted waits on a task of its own principal. -/
def Owned (sh : Shared) (calls : List Pc) : Prop :=
  ∀ a p, Pc.wait a p ∈ calls → p.accessed a = some a.id → (sh.cells a.id).principal = a.principal

theorem owned_inductive (cfg : TaskAuthorityConfig) : Inductive cfg noGuard Grounded Owned where
  init := by simp [Owned]
  perm h ho a p hw := ho a p (h.mem_iff.mpr hw)
  env hm _ ho := by
    rw [Owned, hm.frame.2.2.2.1]
    exact ho
  enter c _ ho a p hw hp := by
    rcases mem_cons.mp hw with hc | hw
    · cases c <;> cases hc
      cases hp
    · exact ho a p hw hp
  spawn h hg ho := by
    cases h with
    | publish a id initial readAt =>
      intro b p hw hp
      have hrest := (mem_cons.mp hw).resolve_left Pc.noConfusion
      have hmem := mem_cons_of_mem (Pc.spawn (.publish a id initial readAt)) hrest
      -- the id of a spawn is nobody else's
      have hne : b.id ≠ id := fun he => (hg.accessed _ hmem _ hp).2 (he ▸ mem_cons_self)
      simpa [setCell, update_of_ne hne] using ho b p hmem hp
    | _ => simpa [Owned, Pc.forceClose] using ho
  closing h _ ho := by cases h <;> simpa [Owned] using ho
  access h _ _ ho := by cases h <;> simpa [Owned] using ho
  wait h _ ho b p hw hp := by
    rcases mem_cons.mp hw with hpc | hrest
    · cases h <;> cases hpc <;> first | exact ho _ _ mem_cons_self rfl | assumption | cases hp
    · cases h <;> exact ho b p (mem_cons_of_mem _ hrest) hp
  observer h _ _ ho := by cases h <;> simpa [Owned, coalesce] using ho

/-- **The owner of a task**: whatever runs beside it, removals and a shutdown included, a waiter that was admitted is
of the principal that published the task, so no two principals ever wait on one task. -/
theorem waiters_of_owner (cfg : TaskAuthorityConfig) (s : Pool Shared Pc)
    (h : (machine cfg).Reaches new s) : Owned s.shared s.calls :=
  (owned_inductive cfg).holds (fun _ h => h) Grounded.perm (fun _ => grounded) h

theorem waiters_of_owner_of_one :
    ∃ s, (machine ⟨1, 1, 1, by decide, by decide, by decide⟩).Reaches new s ∧
      Pc.wait ⟨default, "t", none, .terminal⟩ .register ∈ s.calls ∧ Owned s.shared s.calls := by
  obtain ⟨s, hs, hp⟩ := (machine ⟨1, 1, 1, by decide, by decide, by decide⟩).exists_reaches_of_exec
    new (spawnEvents 1 ⟨default, none⟩ "t" ⟨.working, ""⟩ 12 ++
      [.enter (.wait ⟨default, "t", none, .terminal⟩), .advance 2 .go, .advance 2 .go])
    (p := fun s => Pc.wait ⟨default, "t", none, .terminal⟩ .register ∈ s.calls)
    (by decide)
  exact ⟨s, hs, hp, waiters_of_owner _ s hs⟩

end McpToolkit.Tasks

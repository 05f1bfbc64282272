import McpToolkit.Tasks.Grounded

/-!
# McpToolkit.Tasks.Leases — leases, bindings and probes

While the authority is open a published task has a lease, and a lease belongs to a published task
or to a spawn that has not finished.  Updates change a lease in place, keep its ttl, and never
leave a task that has a ttl without a next probe.
-/

namespace McpToolkit.Tasks

open List Finmap Shared AuthorityState
open Lib

/-- `l'` is `l` after an update: same ttl, and a task with a ttl keeps a probe. -/
structure LeaseInfo.Refreshes (l l' : LeaseInfo) : Prop where
  ttl : l'.ttl = l.ttl
  probe : (l.ttl.isSome = true → l.nextProbeAt.isSome = true) →
    l.ttl.isSome = true → l'.nextProbeAt.isSome = true

theorem LeaseInfo.Refreshes.refl (l : LeaseInfo) : l.Refreshes l := ⟨rfl, fun h => h⟩

theorem AuthorityState.modifyLease_refreshes {st : AuthorityState} {id : TaskId}
    {f : LeaseInfo → LeaseInfo} {x : TaskId} {l' : LeaseInfo}
    (h : (st.modifyLease id f).leases.lookup x = some l') (hf : ∀ l : LeaseInfo, l.Refreshes (f l)) :
    ∃ l, st.leases.lookup x = some l ∧ l.Refreshes l' := by
  rw [modifyLease_lookup] at h
  by_cases hx : x = id
  · subst hx
    rw [if_pos rfl, Option.map_eq_some_iff] at h
    obtain ⟨l, hl, rfl⟩ := h
    exact ⟨l, hl, hf l⟩
  · rw [if_neg hx] at h
    exact ⟨l', h, .refl l'⟩

namespace Shared

variable {sh : Shared} {id : TaskId} {task : DetailedTask}

variable {x : TaskId} {l' : LeaseInfo}

theorem leaseAfterRead_refreshes {gen : ℕ} (h : (sh.leaseAfterRead id task gen).state.leases.lookup x = some l') :
    ∃ l, sh.state.leases.lookup x = some l ∧ l.Refreshes l' := by
  rw [leaseAfterRead_state] at h
  refine modifyLease_refreshes h fun l => ⟨rfl, fun hp ht => ?_⟩
  split_ifs
  · simpa using ht
  · rfl
  · exact hp ht

theorem observerLease_refreshes {scanned signal : ℕ} {now : Instant}
    (h : (sh.observerLease id task scanned signal now).leases.lookup x = some l') :
    ∃ l, sh.state.leases.lookup x = some l ∧ l.Refreshes l' := by
  refine modifyLease_refreshes h fun l => ⟨rfl, fun _ ht => ?_⟩
  dsimp only
  split_ifs
  · simpa using ht
  · rfl
  · simpa using ht

theorem coalesce_refreshes {last : Instant} (h : (sh.coalesce id last).leases.lookup x = some l') :
    ∃ l, sh.state.leases.lookup x = some l ∧ l.Refreshes l' := by
  exact modifyLease_refreshes h fun l => ⟨rfl, fun _ ht => by simpa using ht⟩

end Shared

/-- The id that the call leased and is about to publish. -/
def Pc.leaseHeld : Pc → Option TaskId
  | .spawn (.closedCheck _ id) | .spawn (.readInitial _ id) | .spawn (.bind _ id _)
  | .spawn (.publish _ id _ _) => some id
  | _ => none

theorem Pc.held_of_leaseHeld {pc : Pc} {id : TaskId} (h : pc.leaseHeld = some id) : pc.held = some id := by
  unfold leaseHeld at h
  split at h <;> first | exact h | cases h

structure Leased (sh : Shared) (calls : List Pc) : Prop where
  probes : ∀ id l, sh.state.leases.lookup id = some l → l.ttl.isSome = true →
    l.nextProbeAt.isSome = true
  bindings : sh.closed = false → ∀ id ∈ sh.state.bindings, id ∈ sh.state.leases
  held : sh.closed = false → ∀ pc ∈ calls, ∀ id, pc.leaseHeld = some id → id ∈ sh.state.leases
  owned : sh.closed = false → ∀ id ∈ sh.state.leases,
    id ∈ sh.state.bindings ∨ id ∈ calls.filterMap Pc.held

namespace Leased

variable {sh sh' : Shared} {pc pc' : Pc} {rest : List Pc}

theorem perm {l l' : List Pc} (h : l.Perm l') (hl : Leased sh l) : Leased sh l' where
  probes := hl.probes
  bindings := hl.bindings
  held ho pc hpc := hl.held ho pc (h.mem_iff.mpr hpc)
  owned ho id hid := (hl.owned ho id hid).imp_right (h.filterMap Pc.held).mem_iff.mp

variable {id : TaskId}

theorem published {l : List Pc} (hl : Leased sh l) (hg : Grounded sh l) (ho : sh.closed = false)
    {pc : Pc} (hpc : pc ∈ l) (hacc : pc.accessed = some id) (hid : id ∈ sh.state.leases) : id ∈ sh.state.bindings :=
  (hl.owned ho id hid).resolve_right (hg.accessed pc hpc id hacc).2

/-- A section that updates leases in place. -/
theorem update (hl : Leased sh (pc :: rest)) (hlook : ∀ id l', sh'.state.leases.lookup id = some l' →
      ∃ l, sh.state.leases.lookup id = some l ∧ l.Refreshes l')
    (hopen : sh'.closed = false → sh.closed = false ∧ sh'.state.bindings = sh.state.bindings ∧
      sh'.state.leases.keys = sh.state.leases.keys ∧ (∀ id, pc'.leaseHeld = some id → pc.leaseHeld = some id) ∧
      ∀ id, pc.held = some id → pc'.held = some id) : Leased sh' (pc' :: rest) := by
  have hkeys : sh'.state.leases.keys = sh.state.leases.keys →
      ∀ id, id ∈ sh'.state.leases ↔ id ∈ sh.state.leases := by
    intro hk id
    rw [← Finmap.mem_keys, ← Finmap.mem_keys, hk]
  refine ⟨?_, ?_, ?_, ?_⟩
  · intro id l' hl' ht
    obtain ⟨l, hll, hr⟩ := hlook id l' hl'
    exact hr.probe (hl.probes id l hll) (hr.ttl ▸ ht)
  · intro ho id hid
    obtain ⟨ho', hb, hk, -⟩ := hopen ho
    exact (hkeys hk id).mpr (hl.bindings ho' id (hb ▸ hid))
  · intro ho x hx id hid
    obtain ⟨ho', -, hk, hh, -⟩ := hopen ho
    rcases mem_cons.mp hx with rfl | hx
    · exact (hkeys hk id).mpr (hl.held ho' pc mem_cons_self id (hh id hid))
    · exact (hkeys hk id).mpr (hl.held ho' x (mem_cons_of_mem _ hx) id hid)
  · intro ho id hid
    obtain ⟨ho', hb, hk, -, hh⟩ := hopen ho
    rw [hb]
    refine (hl.owned ho' id ((hkeys hk id).mp hid)).imp_right fun hmem => ?_
    obtain ⟨x, hx, hxid⟩ := mem_filterMap.mp hmem
    rcases mem_cons.mp hx with rfl | hx
    · exact mem_filterMap.mpr ⟨pc', mem_cons_self, hh id hxid⟩
    · exact mem_filterMap.mpr ⟨x, mem_cons_of_mem _ hx, hxid⟩

/-- A section of a caller that removes a binding it took from the published ones. -/
theorem remove (hl : Leased sh (pc :: rest)) (hg : Grounded sh (pc :: rest))
    (hacc : pc.accessed = some id) (hpc : pc.held = none) (hpc' : pc'.held = none)
    (hle : sh'.state.leases = sh.state.leases.erase id)
    (hb : sh'.state.bindings = sh.state.bindings.erase id) (hc : sh'.closed = sh.closed) :
    Leased sh' (pc' :: rest) := by
  have hfm : (pc :: rest).filterMap Pc.held = rest.filterMap Pc.held :=
    filterMap_cons_none hpc
  have hfm' : (pc' :: rest).filterMap Pc.held = rest.filterMap Pc.held :=
    filterMap_cons_none hpc'
  have hnot : id ∉ rest.filterMap Pc.held := hfm ▸ (hg.accessed pc mem_cons_self id hacc).2
  refine ⟨?_, ?_, ?_, ?_⟩
  · intro x l hx
    refine hl.probes x l ?_
    rw [hle] at hx
    by_cases hxid : x = id
    · subst hxid
      rw [lookup_erase] at hx
      cases hx
    · rwa [lookup_erase_ne hxid] at hx
  · intro ho x hx
    rw [hb] at hx
    obtain ⟨hne, hx⟩ := Finset.mem_erase.mp hx
    rw [hle]
    exact mem_erase.mpr ⟨hne, hl.bindings (hc ▸ ho) x hx⟩
  · intro ho x hx y hy
    rw [hle]
    rcases mem_cons.mp hx with rfl | hx
    · rw [Pc.held_of_leaseHeld hy] at hpc'
      cases hpc'
    · refine mem_erase.mpr ⟨?_, hl.held (hc ▸ ho) x (mem_cons_of_mem _ hx) y hy⟩
      rintro rfl
      exact hnot (mem_filterMap.mpr ⟨x, hx, Pc.held_of_leaseHeld hy⟩)
  · intro ho x hx
    rw [hle] at hx
    obtain ⟨hne, hx⟩ := mem_erase.mp hx
    rw [hb, hfm']
    exact (hl.owned (hc ▸ ho) x hx).imp (fun h => Finset.mem_erase.mpr ⟨hne, h⟩) fun h => hfm ▸ h

theorem convert {a : SpawnArgs} (hl : Leased sh (.spawn (.convert a id) :: rest)) :
    Leased (sh.setState (sh.state.convert id ⟨a.ttl, sh.clock, a.ttl.map (sh.clock + ·), 0⟩))
      (.spawn (.closedCheck a id) :: rest) := by
  refine ⟨?_, ?_, ?_, ?_⟩
  · intro x l hx ht
    simp only [setState_state, AuthorityState.convert] at hx
    by_cases hxid : x = id
    · subst hxid
      rw [lookup_insert] at hx
      obtain rfl := Option.some.inj hx
      simpa using ht
    · rw [lookup_insert_of_ne _ hxid] at hx
      exact hl.probes x l hx ht
  · exact fun ho x hx => mem_insert.mpr (.inr (hl.bindings ho x hx))
  · intro ho x hx y hy
    rcases mem_cons.mp hx with rfl | hx
    · obtain rfl := Option.some.inj hy
      exact mem_insert.mpr (.inl rfl)
    · exact mem_insert.mpr (.inr (hl.held ho x (mem_cons_of_mem _ hx) y hy))
  · intro ho x hx
    rcases mem_insert.mp hx with rfl | hx
    · exact .inr mem_cons_self
    · exact hl.owned ho x hx

theorem release (hl : Leased sh (.spawn (.release id) :: rest))
    (hg : Grounded sh (.spawn (.release id) :: rest)) {r : Outcome} :
    Leased (sh.setState (sh.state.release id)) (.returned r :: rest) := by
  have hnd : (id :: rest.filterMap Pc.held).Nodup := hg.nodup
  rw [nodup_cons] at hnd
  have hunpub := (hg.held _ mem_cons_self id rfl).2.1
  refine ⟨?_, ?_, ?_, ?_⟩
  · intro x l hx
    refine hl.probes x l ?_
    simp only [setState_state, AuthorityState.release] at hx
    by_cases hxid : x = id
    · subst hxid
      rw [lookup_erase] at hx
      cases hx
    · rwa [lookup_erase_ne hxid] at hx
  · exact fun ho x hx => mem_erase.mpr ⟨fun h => hunpub (h ▸ hx), hl.bindings ho x hx⟩
  · intro ho x hx y hy
    rcases mem_cons.mp hx with rfl | hx
    · cases hy
    · refine mem_erase.mpr ⟨?_, hl.held ho x (mem_cons_of_mem _ hx) y hy⟩
      rintro rfl
      exact hnd.1 (mem_filterMap.mpr ⟨x, hx, Pc.held_of_leaseHeld hy⟩)
  · intro ho x hx
    obtain ⟨hne, hx⟩ := mem_erase.mp hx
    refine (hl.owned ho x hx).imp_right fun hmem => ?_
    exact (mem_cons.mp hmem).resolve_left hne

theorem publish {a : SpawnArgs} {initial : DetailedTask} {readAt : Instant}
    {b : TaskBinding} (hl : Leased sh (.spawn (.publish a id initial readAt) :: rest)) :
    Leased ((sh.setCell id b).setState (sh.state.publish id a.principal)) (.spawn (.startObserver id) :: rest) := by
  refine ⟨hl.probes, ?_, ?_, ?_⟩
  · intro ho x hx
    rcases Finset.mem_insert.mp hx with rfl | hx
    · exact hl.held ho _ mem_cons_self x rfl
    · exact hl.bindings ho x hx
  · intro ho x hx y hy
    rcases mem_cons.mp hx with rfl | hx
    · cases hy
    · exact hl.held ho x (mem_cons_of_mem _ hx) y hy
  · intro ho x hx
    rcases hl.owned ho x hx with hx | hx
    · exact .inl (Finset.mem_insert_of_mem hx)
    · rcases mem_cons.mp hx with rfl | hx
      · exact .inl (Finset.mem_insert_self _ _)
      · exact .inr hx

end Leased

section Sections

variable {cfg : TaskAuthorityConfig} {sh sh' : Shared} {pc' : Pc} {rest : List Pc}

theorem lookup_refreshes {m : Finmap fun _ : TaskId => LeaseInfo} (id : TaskId) (l : LeaseInfo)
    (h : m.lookup id = some l) : ∃ l₀, m.lookup id = some l₀ ∧ l₀.Refreshes l :=
  ⟨l, h, .refl l⟩

theorem SpawnPc.Step.leased {p : SpawnPc} (h : SpawnPc.Step cfg sh p sh' pc')
    (hg : Grounded sh (.spawn p :: rest)) (hl : Leased sh (.spawn p :: rest)) : Leased sh' (pc' :: rest) := by
  cases h with
  | convert a id => exact hl.convert
  | release id => exact hl.release hg
  | publish a id initial readAt ho hn => exact hl.publish
  | publishTaken a id initial readAt ho hin =>
    exact absurd hin (hg.held _ mem_cons_self id rfl).2.1
  | materialise a id task hcan =>
    exact hl.update lookup_refreshes fun ho => ⟨ho, rfl, rfl, by simp [Pc.leaseHeld], by simp [Pc.held, SpawnPc.held]⟩
  | _ =>
    refine hl.update lookup_refreshes fun ho => ?_
    simp_all [Pc.leaseHeld, Pc.held, SpawnPc.held, AuthorityState.reserve]

theorem ClosePc.Step.leased {r : Outcome} {p : ClosePc} (h : ClosePc.Step sh r p sh' pc')
    (hg : Grounded sh (.closing p r :: rest)) (hl : Leased sh (.closing p r :: rest)) : Leased sh' (pc' :: rest) := by
  cases h with
  | drain =>
    have hcl : sh.closed = true := hg.closing _ mem_cons_self rfl
    refine hl.update ?_ fun ho => ?_
    · intro id l' hl'
      simp [empty] at hl'
    · rw [setState_closed, hcl] at ho
      cases ho
  | _ =>
    refine hl.update lookup_refreshes fun ho => ?_
    simp_all [Pc.leaseHeld, Pc.held]

theorem AccessPc.Step.leased {k : Access} {p : AccessPc} (h : AccessPc.Step sh k p sh' pc')
    (hg : Grounded sh (.access k p :: rest)) (hl : Leased sh (.access k p :: rest)) : Leased sh' (pc' :: rest) := by
  cases h with
  | remove id hid | removeUnpublished id hid => exact hl.remove hg rfl rfl rfl rfl rfl rfl
  | lease id gen s =>
    refine hl.update (fun _ _ => leaseAfterRead_refreshes) fun ho => ?_
    simp_all [Pc.leaseHeld, Pc.held, leaseAfterRead_state]
  | observe id gen task =>
    refine hl.update (fun _ _ hl' => ?_) fun ho => ?_
    · rw [observe_state] at hl'
      exact lookup_refreshes _ _ hl'
    · simp_all [Pc.leaseHeld, Pc.held]
  | _ =>
    refine hl.update lookup_refreshes fun ho => ?_
    simp_all [Pc.leaseHeld, Pc.held]

theorem WaitPc.Step.leased {a : WaitArgs} {p : WaitPc} (h : WaitPc.Step cfg sh a p sh' pc')
    (hl : Leased sh (.wait a p :: rest)) : Leased sh' (pc' :: rest) := by
  cases h <;>
  · refine hl.update lookup_refreshes fun ho => ?_
    simp_all [Pc.leaseHeld, Pc.held]

theorem ObserverPc.Step.leased {p : ObserverPc} (h : ObserverPc.Step cfg sh p sh' pc')
    (hg : Grounded sh (.observer p :: rest)) (hl : Leased sh (.observer p :: rest)) : Leased sh' (pc' :: rest) := by
  cases h with
  | evict sel => exact hl.remove hg rfl rfl rfl rfl rfl rfl
  | coalesce sel last =>
    refine hl.update (fun _ _ => coalesce_refreshes) fun ho => ?_
    simp_all [Pc.leaseHeld, Pc.held, Shared.coalesce]
  | lease sel task signal now =>
    refine hl.update (fun _ _ => observerLease_refreshes) fun ho => ?_
    simp_all [Pc.leaseHeld, Pc.held]
  | observe sel task =>
    refine hl.update (fun _ _ hl' => ?_) fun ho => ?_
    · rw [observe_state] at hl'
      exact lookup_refreshes _ _ hl'
    · simp_all [Pc.leaseHeld, Pc.held]
  | _ =>
    refine hl.update lookup_refreshes fun ho => ?_
    simp_all [Pc.leaseHeld, Pc.held]

end Sections

theorem leased_inductive (cfg : TaskAuthorityConfig) : Inductive cfg noGuard Grounded Leased where
  init := by
    constructor <;> simp [init, empty, Pc.leaseHeld, notMem_empty]
  perm := Leased.perm
  env hm _ hl := by
    obtain ⟨-, hst, hcl, -, -⟩ := hm.frame
    refine ⟨?_, ?_, ?_, ?_⟩
    · rw [hst]; exact hl.probes
    · rw [hst, hcl]; exact hl.bindings
    · rw [hst, hcl]; exact hl.held
    · rw [hst, hcl]; exact hl.owned
  enter c _ hl := by
    refine ⟨hl.probes, hl.bindings, fun ho => ?_, fun ho id hid => ?_⟩
    · rw [forall_mem_cons]
      exact ⟨by cases c <;> simp [Call.enter, Pc.leaseHeld], hl.held ho⟩
    · have hnone : c.enter.held = none := by cases c <;> rfl
      rw [filterMap_cons_none hnone]
      exact hl.owned ho id hid
  spawn h hg hl := h.leased hg hl
  closing h hg hl := h.leased hg hl
  access h _ hg hl := h.leased hg hl
  wait h _ hl := h.leased hl
  observer h _ hg hl := h.leased hg hl

theorem leased {cfg : TaskAuthorityConfig} {G : Machine.Guard Shared Pc Input}
    {s : Pool Shared Pc} (h : (TaskAuthority.machine cfg).Run G TaskAuthority.new s) : Leased s.shared s.calls :=
  (leased_inductive cfg).holds (fun _ h => h) Grounded.perm (fun _ => grounded) h.reaches

end McpToolkit.Tasks

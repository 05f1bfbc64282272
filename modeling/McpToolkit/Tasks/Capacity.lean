import McpToolkit.Lib.Index
import McpToolkit.Tasks.Grounded

/-!
# McpToolkit.Tasks.Capacity — the retained-task limit

`leases.len() + reserved_leases` never exceeds `max_retained_tasks`, whatever the interleaving of
spawns, accesses, the observer and shutdown, and no RMCP record of the authority escapes the limit.

While the authority is open every call between its reservation and its lease is counted in
`reserved_leases`.  A drain zeroes the counter under the calls that hold a reservation, and the
`saturating_sub` of their conversion hides it; what bounds the leases then is the number of calls
that passed the second open check before the bit was set (`Capacity.converting`), none of which can
be added once the authority is closed.
-/

namespace McpToolkit.Tasks

open List Finmap AuthorityState TaskAuthority
open Lib

namespace Pc

/-- The call has reserved and not yet converted. -/
def holdsReservation : Pc → Bool
  | .spawn (.recheckOpen _) | .spawn (.materialise _) | .spawn (.panicked _)
  | .spawn (.convert _ _) => true
  | _ => false

/-- The call has passed both open checks and will turn its reservation into a lease. -/
def willConvert : Pc → Bool
  | .spawn (.materialise _) | .spawn (.convert _ _) => true
  | _ => false

def willMaterialise : Pc → Bool
  | .spawn (.materialise _) => true
  | _ => false

/-- The record that the reservation of the call stands for. -/
def reservedFor : Pc → Option TaskId
  | .spawn (.convert _ id) => some id
  | .spawn (.panicked leftover) => leftover
  | _ => none

theorem idle_of_not_holds {pc : Pc} (h : pc.holdsReservation = false) :
    pc.willConvert = false ∧ pc.willMaterialise = false ∧ pc.reservedFor = none := by
  unfold holdsReservation at h
  split at h
  · cases h
  · cases h
  · cases h
  · cases h
  · refine ⟨?_, ?_, ?_⟩
    · unfold willConvert; split <;> simp_all
    · unfold willMaterialise; split <;> simp_all
    · unfold reservedFor; split <;> simp_all

end Pc

theorem reserved_count_le : ∀ calls : List Pc,
    calls.countP Pc.willMaterialise + (calls.filterMap Pc.reservedFor).length ≤
      calls.countP Pc.holdsReservation
  | [] => by simp
  | pc :: calls => by
    have ih := reserved_count_le calls
    rw [countP_cons, countP_cons, filterMap_cons]
    cases hpc : pc.holdsReservation with
    | false =>
      obtain ⟨-, hm, hr⟩ := Pc.idle_of_not_holds hpc
      simpa [hm, hr] using ih
    | true =>
      cases pc with
      | spawn p =>
        cases p with
        | panicked leftover => cases leftover <;> simp [Pc.willMaterialise, Pc.reservedFor] <;> omega
        | _ => simp_all [Pc.willMaterialise, Pc.reservedFor, Pc.holdsReservation] <;> omega
      | _ => simp [Pc.holdsReservation] at hpc

structure Capacity (cfg : TaskAuthorityConfig) (sh : Shared) (calls : List Pc) : Prop where
  bound : sh.state.retained ≤ cfg.maxRetainedTasks
  converting : sh.state.leases.keys.card + calls.countP Pc.willConvert ≤ cfg.maxRetainedTasks
  reserved : sh.closed = false → calls.countP Pc.holdsReservation ≤ sh.state.reservedLeases
  covered : sh.closed = false → ∀ id ∈ sh.rmcp.records,
    id ∈ sh.state.leases ∨ ∃ pc ∈ calls, pc.reservedFor = some id
  records : sh.rmcp.records.keys.card + calls.countP Pc.willMaterialise ≤ cfg.maxRetainedTasks

namespace Capacity

variable {cfg : TaskAuthorityConfig} {sh sh' : Shared} {pc pc' : Pc} {rest : List Pc}

theorem perm {l l' : List Pc} (h : l.Perm l') (hc : Capacity cfg sh l) : Capacity cfg sh l' where
  bound := hc.bound
  converting := h.countP_eq _ ▸ hc.converting
  reserved ho := h.countP_eq _ ▸ hc.reserved ho
  covered ho id hid := (hc.covered ho id hid).imp_right fun ⟨pc, hpc, hr⟩ =>
    ⟨pc, h.mem_iff.mp hpc, hr⟩
  records := h.countP_eq _ ▸ hc.records

theorem records_le {l : List Pc} (hc : Capacity cfg sh l) (ho : sh.closed = false) :
    sh.rmcp.records.keys.card ≤ sh.state.leases.keys.card + (l.filterMap Pc.reservedFor).length := by
  have hsub : sh.rmcp.records.keys ⊆
      sh.state.leases.keys ∪ (l.filterMap Pc.reservedFor).toFinset := by
    intro id hid
    rcases hc.covered ho id (mem_keys.mp hid) with h | ⟨pc, hpc, hr⟩
    · exact Finset.mem_union_left _ (mem_keys.mpr h)
    · exact Finset.mem_union_right _
        (mem_toFinset.mpr (mem_filterMap.mpr ⟨pc, hpc, hr⟩))
  calc sh.rmcp.records.keys.card
      ≤ (sh.state.leases.keys ∪ (l.filterMap Pc.reservedFor).toFinset).card :=
        Finset.card_le_card hsub
    _ ≤ sh.state.leases.keys.card + (l.filterMap Pc.reservedFor).toFinset.card :=
        Finset.card_union_le _ _
    _ ≤ _ := Nat.add_le_add_left (toFinset_card_le _) _

theorem covered_rest {id : TaskId} (hpc : pc.reservedFor = none)
    (h : ∃ x ∈ pc :: rest, x.reservedFor = some id) : ∃ x ∈ pc' :: rest, x.reservedFor = some id := by
  obtain ⟨x, hx, hxr⟩ := h
  rcases mem_cons.mp hx with rfl | hx
  · rw [hpc] at hxr; cases hxr
  · exact ⟨x, mem_cons_of_mem _ hx, hxr⟩

/-- A section after which the call holds no reservation; it gives one up only when closed. -/
theorem frame (hc : Capacity cfg sh (pc :: rest)) (hpc' : pc'.holdsReservation = false)
    (hkeys : sh'.state.leases.keys ⊆ sh.state.leases.keys) (hres : sh'.state.reservedLeases ≤ sh.state.reservedLeases)
    (hrec : ∀ id ∈ sh'.rmcp.records, id ∈ sh.rmcp.records)
    (hopen : sh'.closed = false → sh.closed = false ∧ pc.holdsReservation = false ∧
      sh'.state.reservedLeases = sh.state.reservedLeases ∧
      ∀ id ∈ sh'.rmcp.records, id ∈ sh.state.leases → id ∈ sh'.state.leases) : Capacity cfg sh' (pc' :: rest) := by
  obtain ⟨hconv', hmat', hfor'⟩ := Pc.idle_of_not_holds hpc'
  have hcard := Finset.card_le_card hkeys
  have hrcard : sh'.rmcp.records.keys.card ≤ sh.rmcp.records.keys.card :=
    Finset.card_le_card fun id hid => mem_keys.mpr (hrec id (mem_keys.mp hid))
  have hbound := hc.bound
  have hconv := hc.converting
  have hrecs := hc.records
  rw [countP_cons] at hconv hrecs
  refine ⟨?_, ?_, ?_, ?_, ?_⟩
  · unfold retained at hbound ⊢
    omega
  · rw [countP_cons_of_neg (by simp [hconv'])]
    omega
  · intro ho
    obtain ⟨ho', hpc, hre, -⟩ := hopen ho
    have := hc.reserved ho'
    rw [countP_cons_of_neg (by simp [hpc])] at this
    rw [countP_cons_of_neg (by simp [hpc']), hre]
    exact this
  · intro ho id hid
    obtain ⟨ho', hpc, -, hl⟩ := hopen ho
    exact (hc.covered ho' id (hrec id hid)).imp (hl id hid)
      (covered_rest (Pc.idle_of_not_holds hpc).2.2)
  · rw [countP_cons_of_neg (by simp [hmat'])]
    omega

variable {a : SpawnArgs}

theorem reserve (hc : Capacity cfg sh (.spawn (.reserve a) :: rest))
    (hroom : sh.state.retained < cfg.maxRetainedTasks) :
    Capacity cfg (sh.setState sh.state.reserve) (.spawn (.recheckOpen a) :: rest) where
  bound := hroom
  converting := hc.converting
  reserved ho := by
    rw [countP_cons_of_pos rfl]
    exact Nat.add_le_add_right (hc.reserved ho) 1
  covered ho id hid := (hc.covered ho id hid).imp_right (covered_rest rfl)
  records := hc.records

/-- **The second open check**: as the authority is open, the reservation of the call is still
counted, so there is room for its record and for its lease whatever happens next. -/
theorem recheckOpened (hc : Capacity cfg sh (.spawn (.recheckOpen a) :: rest))
    (ho : sh.closed = false) : Capacity cfg sh (.spawn (.materialise a) :: rest) := by
  have hres := hc.reserved ho
  rw [countP_cons_of_pos rfl] at hres
  have hconv : rest.countP Pc.willConvert ≤ rest.countP Pc.holdsReservation :=
    countP_mono_left fun pc _ h => by
      by_contra hn
      rw [(Pc.idle_of_not_holds (Bool.not_eq_true _ ▸ hn)).1] at h
      cases h
  have hcount := reserved_count_le rest
  have hrecs : sh.rmcp.records.keys.card ≤
      sh.state.leases.keys.card + (rest.filterMap Pc.reservedFor).length := hc.records_le ho
  have hbound : sh.state.leases.keys.card + sh.state.reservedLeases ≤ _ := hc.bound
  refine ⟨hc.bound, ?_, fun _ => ?_, ?_, ?_⟩
  · rw [countP_cons_of_pos rfl]
    omega
  · rw [countP_cons_of_pos rfl]
    exact hres
  · exact fun _ id hid => (hc.covered ho id hid).imp_right (covered_rest rfl)
  · rw [countP_cons_of_pos rfl]
    omega

theorem materialised (hc : Capacity cfg sh (.spawn (.materialise a) :: rest))
    (hst : sh'.state = sh.state) (hcl : sh'.closed = sh.closed)
    (hholds : pc'.holdsReservation = true) (hmat : pc'.willMaterialise = false)
    (hrec : ∀ id ∈ sh'.rmcp.records, id ∈ sh.rmcp.records ∨ pc'.reservedFor = some id)
    (hcard : sh'.rmcp.records.keys.card ≤ sh.rmcp.records.keys.card + 1) : Capacity cfg sh' (pc' :: rest) := by
  have hconv := hc.converting
  have hrecs := hc.records
  rw [countP_cons_of_pos rfl] at hconv hrecs
  refine ⟨hst ▸ hc.bound, ?_, ?_, ?_, ?_⟩
  · rw [countP_cons, hst]
    split <;> omega
  · intro ho
    have hres := hc.reserved (hcl ▸ ho)
    rw [countP_cons_of_pos rfl] at hres
    rw [countP_cons_of_pos hholds, hst]
    exact hres
  · intro ho id hid
    rcases hrec id hid with hid | hid
    · rw [hst]
      exact (hc.covered (hcl ▸ ho) id hid).imp_right (covered_rest rfl)
    · exact .inr ⟨pc', mem_cons_self, hid⟩
  · rw [countP_cons_of_neg (by simp [hmat])]
    omega

theorem convert {id : TaskId} (lease : LeaseInfo) (hc : Capacity cfg sh (.spawn (.convert a id) :: rest)) :
    Capacity cfg (sh.setState (sh.state.convert id lease)) (.spawn (.closedCheck a id) :: rest) := by
  have hcard : (sh.state.leases.insert id lease).keys.card ≤ sh.state.leases.keys.card + 1 := by
    rw [Index.keys_insert]
    exact Finset.card_insert_le _ _
  have hbound : sh.state.leases.keys.card + sh.state.reservedLeases ≤ _ := hc.bound
  have hconv := hc.converting
  rw [countP_cons_of_pos rfl] at hconv
  refine ⟨?_, ?_, ?_, ?_, hc.records⟩
  · show (sh.state.leases.insert id lease).keys.card + (sh.state.reservedLeases - 1) ≤ _
    omega
  · show (sh.state.leases.insert id lease).keys.card + rest.countP Pc.willConvert ≤ _
    omega
  · intro ho
    have hres := hc.reserved ho
    rw [countP_cons_of_pos rfl] at hres
    show rest.countP Pc.holdsReservation ≤ sh.state.reservedLeases - 1
    omega
  · intro ho x hx
    show x ∈ sh.state.leases.insert id lease ∨ _
    rcases hc.covered ho x hx with h | ⟨y, hy, hyr⟩
    · exact .inl (mem_insert.mpr (.inr h))
    · rcases mem_cons.mp hy with rfl | hy
      · obtain rfl := Option.some.inj hyr
        exact .inl (mem_insert.mpr (.inl rfl))
      · exact .inr ⟨y, mem_cons_of_mem _ hy, hyr⟩

end Capacity

section Sections

variable {cfg : TaskAuthorityConfig} {sh sh' : Shared} {pc' : Pc} {rest : List Pc}

theorem Capacity.materialise {a : SpawnArgs} {id : TaskId} {task : DetailedTask}
    (hc : Capacity cfg sh (.spawn (.materialise a) :: rest))
    (hholds : pc'.holdsReservation = true) (hmat : pc'.willMaterialise = false)
    (hfor : pc'.reservedFor = some id) : Capacity cfg (sh.materialise id task) (pc' :: rest) := by
  refine hc.materialised rfl rfl hholds hmat ?_ ?_
  · intro x hx
    rcases mem_insert.mp hx with rfl | hx
    · exact .inr hfor
    · exact .inl hx
  · show (sh.rmcp.records.insert id task).keys.card ≤ _
    rw [Index.keys_insert]
    exact Finset.card_insert_le _ _

theorem erase_keys_subset {β : TaskId → Type} (m : Finmap β) (id : TaskId) : (m.erase id).keys ⊆ m.keys := by
  rw [keys_erase]
  exact Finset.erase_subset _ _

theorem mem_erase_of_retained {id x : TaskId} (habs : id ∉ sh.rmcp.records)
    (hx : x ∈ sh.rmcp.records) (hl : x ∈ sh.state.leases) : x ∈ sh.state.leases.erase id :=
  mem_erase.mpr ⟨fun h => habs (h ▸ hx), hl⟩

theorem SpawnPc.Step.capacity {p : SpawnPc} (h : SpawnPc.Step cfg sh p sh' pc')
    (hg : Grounded sh (.spawn p :: rest)) (hc : Capacity cfg sh (.spawn p :: rest)) :
    Capacity cfg sh' (pc' :: rest) := by
  cases h with
  | reserve a hroom => exact hc.reserve hroom
  | recheckOpened a ho => exact hc.recheckOpened ho
  | materialise a id task hcan | panickedWith a id task hcan =>
    exact hc.materialise rfl rfl rfl
  | panicked a => exact hc.materialised rfl rfl rfl rfl (fun id => .inl) (Nat.le_succ _)
  | convert a id => exact hc.convert _
  | release id =>
    have habs := (hg.gone _ mem_cons_self id rfl).2
    exact hc.frame rfl (erase_keys_subset _ _) le_rfl (fun _ h => h) fun ho =>
      ⟨ho, rfl, rfl, fun x => mem_erase_of_retained habs⟩
  | _ => exact hc.frame rfl subset_rfl le_rfl (fun _ h => h) fun ho => by simp_all [Pc.holdsReservation]

theorem ClosePc.Step.capacity {r : Outcome} {p : ClosePc} (h : ClosePc.Step sh r p sh' pc')
    (hg : Grounded sh (.closing p r :: rest)) (hc : Capacity cfg sh (.closing p r :: rest)) :
    Capacity cfg sh' (pc' :: rest) := by
  cases h with
  | drain =>
    have hcl : sh.closed = true := hg.closing _ mem_cons_self rfl
    refine hc.frame rfl (Finset.empty_subset _) (Nat.zero_le _) (fun _ h => h) fun ho => ?_
    rw [Shared.setState_closed, hcl] at ho
    cases ho
  | shutdown =>
    exact hc.frame rfl subset_rfl le_rfl (fun _ h => absurd h notMem_empty) fun ho =>
      ⟨ho, rfl, rfl, fun _ _ h => h⟩
  | setClosed => exact hc.frame rfl subset_rfl le_rfl (fun _ h => h) fun ho => by cases ho
  | _ => exact hc.frame rfl subset_rfl le_rfl (fun _ h => h) fun ho => ⟨ho, rfl, rfl, fun _ _ h => h⟩

theorem AccessPc.Step.capacity {k : Access} {p : AccessPc} (h : AccessPc.Step sh k p sh' pc')
    (hg : Grounded sh (.access k p :: rest)) (hc : Capacity cfg sh (.access k p :: rest)) :
    Capacity cfg sh' (pc' :: rest) := by
  cases h with
  | remove id hid | removeUnpublished id hid =>
    have habs := (hg.gone _ mem_cons_self id rfl).2
    exact hc.frame rfl (erase_keys_subset _ _) le_rfl (fun _ h => h) fun ho =>
      ⟨ho, rfl, rfl, fun x => mem_erase_of_retained habs⟩
  | lease id gen s =>
    refine hc.frame rfl ?_ ?_ ?_ fun ho => ⟨?_, rfl, ?_, ?_⟩ <;>
      simp_all [Shared.leaseAfterRead_state, mem_modifyLease]
  | _ =>
    refine hc.frame rfl ?_ ?_ ?_ fun ho => ⟨?_, rfl, ?_, ?_⟩ <;> simp_all

theorem WaitPc.Step.capacity {a : WaitArgs} {p : WaitPc} (h : WaitPc.Step cfg sh a p sh' pc')
    (hc : Capacity cfg sh (.wait a p :: rest)) : Capacity cfg sh' (pc' :: rest) := by
  cases h <;>
    exact hc.frame rfl subset_rfl le_rfl (fun _ h => h) fun ho => ⟨ho, rfl, rfl, fun _ _ h => h⟩

theorem ObserverPc.Step.capacity {p : ObserverPc} (h : ObserverPc.Step cfg sh p sh' pc')
    (hg : Grounded sh (.observer p :: rest)) (hc : Capacity cfg sh (.observer p :: rest)) :
    Capacity cfg sh' (pc' :: rest) := by
  cases h with
  | evict sel =>
    have habs := (hg.gone _ mem_cons_self sel.id rfl).2
    exact hc.frame rfl (erase_keys_subset _ _) le_rfl (fun _ h => h) fun ho =>
      ⟨ho, rfl, rfl, fun x => mem_erase_of_retained habs⟩
  | coalesce sel last =>
    refine hc.frame rfl ?_ ?_ ?_ fun ho => ⟨?_, rfl, ?_, ?_⟩ <;>
      simp_all [Shared.coalesce, mem_modifyLease]
  | lease sel task signal now =>
    refine hc.frame rfl ?_ ?_ ?_ fun ho => ⟨?_, rfl, ?_, ?_⟩ <;>
      simp_all [Shared.observerLease, mem_modifyLease]
  | _ =>
    refine hc.frame rfl ?_ ?_ ?_ fun ho => ⟨?_, rfl, ?_, ?_⟩ <;> simp_all

end Sections

theorem capacity_inductive (cfg : TaskAuthorityConfig) : Inductive cfg noGuard Grounded (Capacity cfg) where
  init := by
    refine ⟨Nat.zero_le _, Nat.zero_le _, fun _ => Nat.zero_le _, fun _ id hid => ?_, Nat.zero_le _⟩
    exact absurd hid notMem_empty
  perm := Capacity.perm
  env hm _ hc := by
    obtain ⟨-, hst, hcl, -, hr⟩ := hm.frame
    refine ⟨hst ▸ hc.bound, hst ▸ hc.converting, ?_, ?_, ?_⟩
    · rw [hst, hcl]; exact hc.reserved
    · rw [hst, hcl]; exact fun ho id hid => hc.covered ho id (hr id hid)
    · refine le_trans (Nat.add_le_add_right (Finset.card_le_card fun id hid => ?_) _) hc.records
      exact mem_keys.mpr (hr id (mem_keys.mp hid))
  enter c _ hc := by
    refine ⟨hc.bound, ?_, fun ho => ?_, fun ho id hid => ?_, ?_⟩
    · cases c <;> exact hc.converting
    · cases c <;> exact hc.reserved ho
    · exact (hc.covered ho id hid).imp_right fun ⟨x, hx, hxr⟩ =>
        ⟨x, mem_cons_of_mem _ hx, hxr⟩
    · cases c <;> exact hc.records
  spawn h hg hc := h.capacity hg hc
  closing h hg hc := h.capacity hg hc
  access h _ hg hc := h.capacity hg hc
  wait h _ hc := h.capacity hc
  observer h _ hg hc := h.capacity hg hc

theorem capacity {cfg : TaskAuthorityConfig} {s : Pool Shared Pc}
    (h : (machine cfg).Reaches new s) : Capacity cfg s.shared s.calls :=
  (capacity_inductive cfg).holds (fun _ h => h) Grounded.perm (fun _ => grounded) h

/-- **Retained-task capacity**, over every interleaving: leases and reservations stay within the
limit; while the authority is open each retained record is leased or stands under the reservation
of a running spawn, and those reservations are all counted; the records themselves stay within the
limit, open or closed. -/
theorem retained_within_capacity (cfg : TaskAuthorityConfig) (s : Pool Shared Pc)
    (h : (machine cfg).Reaches new s) : s.shared.state.retained ≤ cfg.maxRetainedTasks ∧
    (s.shared.closed = false → (∀ id ∈ s.shared.rmcp.records,
        id ∈ s.shared.state.leases ∨ ∃ pc ∈ s.calls, pc.reservedFor = some id) ∧
      s.calls.countP Pc.holdsReservation ≤ s.shared.state.reservedLeases) ∧
    s.shared.rmcp.records.keys.card ≤ cfg.maxRetainedTasks := by
  have hc := capacity h
  refine ⟨hc.bound, fun ho => ⟨hc.covered ho, hc.reserved ho⟩, ?_⟩
  exact le_trans (Nat.le_add_right _ _) hc.records

/-- One task at a time: a spawn has just materialised its record. -/
theorem retained_within_capacity_of_spawn :
    ∃ s, (machine ⟨1, 1, 1, by decide, by decide, by decide⟩).Reaches new s ∧
      ("t" ∈ s.shared.rmcp.records ∧ s.shared.closed = false ∧ s.shared.state.leases.keys = ∅) ∧
      (s.shared.state.retained ≤ 1 ∧ (s.shared.closed = false → (∀ id ∈ s.shared.rmcp.records,
            id ∈ s.shared.state.leases ∨ ∃ pc ∈ s.calls, pc.reservedFor = some id) ∧
          s.calls.countP Pc.holdsReservation ≤ s.shared.state.reservedLeases) ∧
        s.shared.rmcp.records.keys.card ≤ 1) := by
  obtain ⟨s, hs, hp⟩ := (machine ⟨1, 1, 1, by decide, by decide, by decide⟩).exists_reaches_of_exec
    new (spawnEvents 1 ⟨default, none⟩ "t" ⟨.working, ""⟩ 6)
    (p := fun s => "t" ∈ s.shared.rmcp.records ∧ s.shared.closed = false ∧
      s.shared.state.leases.keys = ∅)
    (by decide)
  exact ⟨s, hs, hp, retained_within_capacity _ s hs⟩

end McpToolkit.Tasks

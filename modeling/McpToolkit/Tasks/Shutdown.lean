import McpToolkit.Tasks.Grounded

/-!
# McpToolkit.Tasks.Shutdown — closing while spawns are in flight

Setting the closed bit is the linearisation point of a shutdown.  A spawn that passed its open
checks before that point may still insert a record and a lease after the drain; whichever exit it
takes, it sees the bit and tears down again.  `Teardown` says who is going to remove what is left:
every record and lease of a closed authority is held by a running spawn, or some call is still to
run `TaskManager::shutdown` and the drain.
-/

namespace McpToolkit.Tasks

open List Finmap AuthorityState TaskAuthority
open Lib

namespace Pc

/-- The call is still to run `TaskManager::shutdown`. -/
def willShutdown : Pc → Bool
  | .closing .setClosed _ | .closing .shutdown _ => true
  | _ => false

/-- The call is still to drain the authority state. -/
def willDrain : Pc → Bool
  | .closing .setClosed _ | .closing .shutdown _ | .closing .drain _ => true
  | _ => false

/-- The call has returned.  The observation loop belongs to the authority, not to a caller. -/
def settled : Pc → Bool
  | .returned _ | .observer _ => true
  | _ => false

theorem willDrain_of_willShutdown {pc : Pc} (h : pc.willShutdown = true) : pc.willDrain = true := by
  unfold willShutdown at h
  split at h
  · rfl
  · rfl
  · cases h

theorem settled_idle {pc : Pc} (h : pc.settled = true) : pc.held = none ∧ pc.willDrain = false := by
  cases pc with
  | returned r => exact ⟨rfl, rfl⟩
  | observer p => exact ⟨rfl, rfl⟩
  | _ => cases h

end Pc

structure Teardown (sh : Shared) (calls : List Pc) : Prop where
  published : sh.closed = true →
    (sh.state.bindings = ∅ ∧ sh.state.observerPrincipals = [] ∧ ∀ p, sh.state.observerTasks p = []) ∨
      ∃ pc ∈ calls, pc.willDrain = true
  leases : sh.closed = true → ∀ id ∈ sh.state.leases,
    (∃ pc ∈ calls, pc.willDrain = true) ∨ ∃ pc ∈ calls, pc.held = some id
  records : sh.closed = true → ∀ id ∈ sh.rmcp.records,
    (∃ pc ∈ calls, pc.willShutdown = true) ∨ ∃ pc ∈ calls, pc.held = some id

/-- A section that leaves no more behind than it found, or takes charge of it. -/
structure Tidy (sh : Shared) (pc : Pc) (sh' : Shared) (pc' : Pc) : Prop where
  closed : sh.closed = true
  bindings : sh'.state.bindings ⊆ sh.state.bindings
  principals : sh'.state.observerPrincipals ⊆ sh.state.observerPrincipals
  tasks : ∀ p, sh'.state.observerTasks p ⊆ sh.state.observerTasks p
  leases : ∀ id ∈ sh'.state.leases, id ∈ sh.state.leases ∨ pc'.held = some id
  records : ∀ id ∈ sh'.rmcp.records, id ∈ sh.rmcp.records ∨ pc'.held = some id
  willDrain : pc.willDrain = true → pc'.willDrain = true
  willShutdown : pc.willShutdown = true → pc'.willShutdown = true
  held : ∀ id, pc.held = some id → pc'.held = some id ∨ pc'.willShutdown = true ∨
    id ∉ sh'.state.leases ∧ id ∉ sh'.rmcp.records

namespace Teardown

variable {sh sh' : Shared} {pc pc' : Pc} {rest : List Pc}

theorem perm {l l' : List Pc} (h : l.Perm l') (ht : Teardown sh l) : Teardown sh l' := by
  have hex : ∀ {P : Pc → Prop}, (∃ pc ∈ l, P pc) → ∃ pc ∈ l', P pc :=
    fun ⟨pc, hpc, hP⟩ => ⟨pc, h.mem_iff.mp hpc, hP⟩
  exact ⟨fun hc => (ht.published hc).imp_right hex, fun hc id hid => (ht.leases hc id hid).imp hex hex,
    fun hc id hid => (ht.records hc id hid).imp hex hex⟩

theorem cons (ht : Teardown sh rest) : Teardown sh (pc :: rest) := by
  have hex : ∀ {P : Pc → Prop}, (∃ x ∈ rest, P x) → ∃ x ∈ pc :: rest, P x :=
    fun ⟨x, hx, hP⟩ => ⟨x, mem_cons_of_mem _ hx, hP⟩
  exact ⟨fun hc => (ht.published hc).imp_right hex, fun hc id hid => (ht.leases hc id hid).imp hex hex,
    fun hc id hid => (ht.records hc id hid).imp hex hex⟩

theorem of_willShutdown (h : pc'.willShutdown = true) : Teardown sh' (pc' :: rest) where
  published _ := .inr ⟨pc', mem_cons_self, Pc.willDrain_of_willShutdown h⟩
  leases _ _ _ := .inl ⟨pc', mem_cons_self, Pc.willDrain_of_willShutdown h⟩
  records _ _ _ := .inl ⟨pc', mem_cons_self, h⟩

private theorem carry {P : Pc → Prop} (h : P pc → P pc') (hex : ∃ x ∈ pc :: rest, P x) : ∃ x ∈ pc' :: rest, P x := by
  obtain ⟨x, hx, hP⟩ := hex
  rcases mem_cons.mp hx with rfl | hx
  · exact ⟨pc', mem_cons_self, h hP⟩
  · exact ⟨x, mem_cons_of_mem _ hx, hP⟩

theorem tidy (ht : Teardown sh (pc :: rest)) (h : sh'.closed = true → Tidy sh pc sh' pc') :
    Teardown sh' (pc' :: rest) := by
  have hheld : ∀ (hc : sh'.closed = true) (id : TaskId), (∃ x ∈ pc :: rest, x.held = some id) →
      pc'.willShutdown = true ∨ (∃ x ∈ pc' :: rest, x.held = some id) ∨
        id ∉ sh'.state.leases ∧ id ∉ sh'.rmcp.records := by
    rintro hc id ⟨x, hx, hid⟩
    rcases mem_cons.mp hx with rfl | hx
    · rcases (h hc).held id hid with h1 | h1 | h1
      · exact .inr (.inl ⟨pc', mem_cons_self, h1⟩)
      · exact .inl h1
      · exact .inr (.inr h1)
    · exact .inr (.inl ⟨x, mem_cons_of_mem _ hx, hid⟩)
  refine ⟨fun hc => ?_, fun hc id hid => ?_, fun hc id hid => ?_⟩
  · obtain td := h hc
    rcases ht.published td.closed with ⟨h1, h2, h3⟩ | hex
    · refine .inl ⟨?_, ?_, fun p => ?_⟩
      · exact Finset.subset_empty.mp (h1 ▸ td.bindings)
      · exact subset_nil.mp (h2 ▸ td.principals)
      · exact subset_nil.mp (h3 p ▸ td.tasks p)
    · exact .inr (carry td.willDrain hex)
  · have td := h hc
    rcases td.leases id hid with hl | hl
    · rcases ht.leases td.closed id hl with hex | hex
      · exact .inl (carry td.willDrain hex)
      · rcases hheld hc id hex with h1 | h1 | h1
        · exact .inl ⟨pc', mem_cons_self, Pc.willDrain_of_willShutdown h1⟩
        · exact .inr h1
        · exact absurd hid h1.1
    · exact .inr ⟨pc', mem_cons_self, hl⟩
  · have td := h hc
    rcases td.records id hid with hr | hr
    · rcases ht.records td.closed id hr with hex | hex
      · exact .inl (carry td.willShutdown hex)
      · rcases hheld hc id hex with h1 | h1 | h1
        · exact .inl ⟨pc', mem_cons_self, h1⟩
        · exact .inr h1
        · exact absurd hid h1.2
    · exact .inr ⟨pc', mem_cons_self, hr⟩

end Teardown

section Sections

variable {cfg : TaskAuthorityConfig} {sh sh' : Shared} {pc' : Pc} {rest : List Pc}

theorem mem_insert_or_held {β : Type} {m : Finmap fun _ : TaskId => β} {id x : TaskId} {v : β}
    (h : x ∈ m.insert id v) : x ∈ m ∨ some id = some x := by
  rcases mem_insert.mp h with rfl | h
  · exact .inr rfl
  · exact .inl h

theorem SpawnPc.Step.teardown {p : SpawnPc} (h : SpawnPc.Step cfg sh p sh' pc')
    (hg : Grounded sh (.spawn p :: rest)) (ht : Teardown sh (.spawn p :: rest)) : Teardown sh' (pc' :: rest) := by
  cases h with
  | panicClose leftover => exact .of_willShutdown rfl
  | release id =>
    have habs := (hg.gone _ mem_cons_self id rfl).2
    refine ht.tidy fun hc => ?_
    constructor <;> simp_all [Pc.held, SpawnPc.held, Pc.willDrain, Pc.willShutdown, AuthorityState.release]
  | materialise a id task hcan | panickedWith a id task hcan =>
    refine ht.tidy fun hc => ?_
    constructor
    case records => exact fun x => mem_insert_or_held
    all_goals simp_all [Pc.held, SpawnPc.held, Pc.willDrain, Pc.willShutdown]
  | convert a id =>
    refine ht.tidy fun hc => ?_
    constructor
    case leases => exact fun x => mem_insert_or_held
    all_goals simp_all [Pc.held, SpawnPc.held, Pc.willDrain, Pc.willShutdown, AuthorityState.convert]
  | _ =>
    refine ht.tidy fun hc => ?_
    constructor <;> simp_all [Pc.held, SpawnPc.held, Pc.willDrain, Pc.willShutdown, Pc.forceClose,
      AuthorityState.reserve]

theorem ClosePc.Step.teardown {r : Outcome} {p : ClosePc} (h : ClosePc.Step sh r p sh' pc')
    (ht : Teardown sh (.closing p r :: rest)) : Teardown sh' (pc' :: rest) := by
  cases h with
  | setClosed => exact .of_willShutdown rfl
  | shutdown =>
    have hd : ∃ pc ∈ Pc.closing .drain r :: rest, pc.willDrain = true :=
      ⟨_, mem_cons_self, rfl⟩
    exact ⟨fun _ => .inr hd, fun _ _ _ => .inl hd, fun _ _ hid => absurd hid notMem_empty⟩
  | drain =>
    refine ⟨fun _ => .inl ⟨rfl, rfl, fun _ => rfl⟩, fun _ _ hid => absurd hid notMem_empty, ?_⟩
    intro hc id hid
    refine (ht.records hc id hid).imp ?_ ?_ <;>
    · rintro ⟨x, hx, hP⟩
      rcases mem_cons.mp hx with rfl | hx
      · cases hP
      · exact ⟨x, mem_cons_of_mem _ hx, hP⟩
  | _ =>
    refine ht.tidy fun hc => ?_
    constructor <;> simp_all [Pc.held, Pc.willDrain, Pc.willShutdown]

theorem AccessPc.Step.teardown {k : Access} {p : AccessPc} (h : AccessPc.Step sh k p sh' pc')
    (ht : Teardown sh (.access k p :: rest)) : Teardown sh' (pc' :: rest) := by
  refine ht.tidy fun hc => ?_
  cases h <;> constructor <;>
    simp_all [Pc.held, Pc.willDrain, Pc.willShutdown, Shared.leaseAfterRead_state,
      mem_modifyLease, removeBinding, Finset.erase_subset]

theorem WaitPc.Step.teardown {a : WaitArgs} {p : WaitPc} (h : WaitPc.Step cfg sh a p sh' pc')
    (ht : Teardown sh (.wait a p :: rest)) : Teardown sh' (pc' :: rest) := by
  refine ht.tidy fun hc => ?_
  cases h <;> constructor <;> simp_all [Pc.held, Pc.willDrain, Pc.willShutdown]

theorem ObserverPc.Step.teardown {p : ObserverPc} (h : ObserverPc.Step cfg sh p sh' pc')
    (ht : Teardown sh (.observer p :: rest)) : Teardown sh' (pc' :: rest) := by
  refine ht.tidy fun hc => ?_
  cases h with
  | lease sel task signal now =>
    constructor
    case principals => exact Shared.observerLease_principals_perm.subset
    case tasks => exact fun p => (Shared.observerLease_tasks_perm p).subset
    all_goals simp_all [Pc.held, Pc.willDrain, Pc.willShutdown, Shared.observerLease,
      mem_modifyLease]
  | evict sel =>
    constructor
    case principals => exact rotateObserver_principals_perm.subset
    case tasks => exact fun p => (rotateObserver_tasks_perm p).subset
    all_goals simp_all [Pc.held, Pc.willDrain, Pc.willShutdown, Finset.erase_subset]
  | _ =>
    constructor <;>
      simp_all [Pc.held, Pc.willDrain, Pc.willShutdown, Shared.coalesce, mem_modifyLease]

end Sections

theorem teardown_inductive (cfg : TaskAuthorityConfig) : Inductive cfg noGuard Grounded Teardown where
  init := by
    constructor <;>
      simp [Shared.init]
  perm := Teardown.perm
  env hm _ ht := by
    obtain ⟨-, hst, hcl, -, hr⟩ := hm.frame
    refine ⟨?_, ?_, ?_⟩
    · rw [hst, hcl]; exact ht.published
    · rw [hst, hcl]; exact ht.leases
    · rw [hcl]; exact fun hc id hid => ht.records hc id (hr id hid)
  enter c _ ht := ht.cons
  spawn h hg ht := h.teardown hg ht
  closing h _ ht := h.teardown ht
  access h _ _ ht := h.teardown ht
  wait h _ ht := h.teardown ht
  observer h _ _ ht := h.teardown ht

theorem teardown {cfg : TaskAuthorityConfig} {s : Pool Shared Pc}
    (h : (machine cfg).Reaches new s) : Teardown s.shared s.calls :=
  (teardown_inductive cfg).holds (fun _ h => h) Grounded.perm (fun _ => grounded) h

/-! ### The closed bit -/

section Closed

variable {cfg : TaskAuthorityConfig} {sh sh' : Shared} {pc pc' : Pc} {inp : Input}

theorem Pc.advance_closed (h : pc.advance cfg sh inp = some (sh', pc')) (hc : sh.closed = true) :
    sh'.closed = true ∧ sh'.state.bindings ⊆ sh.state.bindings := by
  have hquiet : ∀ q : Quiet sh pc sh' pc',
      sh'.closed = true ∧ sh'.state.bindings ⊆ sh.state.bindings :=
    fun q => ⟨q.closed hc, q.bindings⟩
  cases pc with
  | spawn p =>
    rcases (SpawnPc.step_of_advance h).quiet with ⟨a, id, task, -, -, rfl, -⟩ |
      ⟨a, id, initial, readAt, -, ho, -⟩ | hq
    · exact ⟨hc, subset_rfl⟩
    · rw [hc] at ho; cases ho
    · exact hquiet hq
  | closing p r => exact hquiet (ClosePc.step_of_advance h).quiet
  | access k p => exact hquiet (AccessPc.step_of_advance h).quiet
  | wait a p => exact hquiet (WaitPc.step_of_advance h).quiet
  | observer p => exact hquiet (ObserverPc.step_of_advance h).quiet
  | returned r => cases h

theorem closed_of_reaches {s t : Pool Shared Pc} (h : (machine cfg).Reaches s t)
    (hc : s.shared.closed = true) : t.shared.closed = true ∧ t.shared.state.bindings ⊆ s.shared.state.bindings := by
  refine Machine.Run.induct (J := fun _ _ => True) (I := fun (sh : Shared) _ =>
    sh.closed = true ∧ sh.state.bindings ⊆ s.shared.state.bindings) (fun _ _ => trivial)
    (fun _ _ => trivial) (fun _ h => h) (fun _ h => h) ?_ (fun _ _ h => h) ?_
    ⟨hc, subset_rfl⟩ h
  · intro sh e sh' l hm _ hI
    obtain ⟨-, hst, hcl, -⟩ := (Move.step_of_apply hm).frame
    rwa [hst, hcl]
  · intro sh pc inp sh' pc' rest hadv _ _ hI
    obtain ⟨h1, h2⟩ := Pc.advance_closed hadv hI.1
    exact ⟨h1, h2.trans hI.2⟩

/-- The id that the call has published, or is bound to report as spawned. -/
def Outcome.spawned : Outcome → Option TaskId
  | .task id => some id
  | _ => none

def Pc.published : Pc → Option TaskId
  | .spawn (.startObserver id) => some id
  | .closing _ r | .wait _ (.release r) | .returned r => r.spawned
  | _ => none

theorem Pc.advance_published {id : TaskId} (h : pc.advance cfg sh inp = some (sh', pc'))
    (hid : pc'.published = some id) : pc.published = some id ∨
      sh.closed = false ∧ id ∉ sh.state.bindings ∧ id ∈ sh'.state.bindings := by
  cases pc with
  | spawn p =>
    cases SpawnPc.step_of_advance h with
    | publish a id' initial readAt ho hn =>
      obtain rfl := Option.some.inj hid
      exact .inr ⟨ho, hn, Finset.mem_insert_self _ _⟩
    | startObserver id' => exact .inl hid
    | _ => cases hid
  | closing p r => cases ClosePc.step_of_advance h <;> exact .inl hid
  | access k p =>
    cases p with
    | notifyDone id' s =>
      cases inp <;> cases h
      split at hid <;> cases hid
    | _ => cases AccessPc.step_of_advance h <;> cases hid
  | wait a p =>
    cases WaitPc.step_of_advance h with
    | release r => exact .inl hid
    | _ => cases hid
  | observer p => cases ObserverPc.step_of_advance h <;> cases hid
  | returned r => cases h

/-- Call `i` published `id` in a section of its own that ran while the authority was open. -/
def PublishedWhileOpen (cfg : TaskAuthorityConfig) (s : Pool Shared Pc) (i : ℕ) (id : TaskId) :
    Prop :=
  ∃ t u inp, (machine cfg).Reaches new t ∧
    (machine cfg).step t (.advance i inp) = some u ∧
    (machine cfg).Reaches u s ∧ t.shared.closed = false ∧
    id ∉ t.shared.state.bindings ∧ id ∈ u.shared.state.bindings

theorem published_while_open {s : Pool Shared Pc} {i : ℕ} {id : TaskId}
    (h : (machine cfg).Reaches new s) :
    ∀ pc, s.calls[i]? = some pc → pc.published = some id → PublishedWhileOpen cfg s i id := by
  induction h with
  | refl =>
    intro pc hpc hid
    obtain rfl : Pc.observer .unstarted = pc := by
      have := mem_of_getElem? hpc
      simpa [new, eq_comm] using this
    cases hid
  | @snoc t u e ht hm hst ih =>
    have hstep : (machine cfg).Reaches t u := .snoc e .refl hm hst
    have later : PublishedWhileOpen cfg t i id → PublishedWhileOpen cfg u i id :=
      fun ⟨v, w, inp, h1, h2, h3, h4⟩ => ⟨v, w, inp, h1, h2, h3.trans hstep, h4⟩
    intro pc hpc hid
    cases e with
    | env m =>
      simp only [Machine.step, Option.map_eq_some_iff] at hst
      obtain ⟨sh', -, rfl⟩ := hst
      exact later (ih pc hpc hid)
    | enter c =>
      obtain rfl := Option.some.inj hst
      by_cases hi : i < t.calls.length
      · exact later (ih pc (getElem?_append_left hi ▸ hpc) hid)
      · have hc := mem_of_getElem? (getElem?_append_right (not_lt.mp hi) ▸ hpc)
        obtain rfl := mem_singleton.mp hc
        cases c <;> cases hid
    | advance j inp =>
      have hrun := hst
      simp only [Machine.step] at hst
      cases hj : t.calls[j]? with
      | none => rw [hj] at hst; cases hst
      | some pcj =>
        rw [hj] at hst
        simp only [Option.map_eq_some_iff] at hst
        obtain ⟨⟨sh', pc'⟩, hadv, rfl⟩ := hst
        by_cases hji : j = i
        · subst hji
          have hlt : j < t.calls.length := (List.getElem?_eq_some_iff.mp hj).1
          obtain rfl : pc' = pc := by simpa [getElem?_set_self hlt] using hpc
          rcases Pc.advance_published hadv hid with hold | ⟨ho, hn, hin⟩
          · exact later (ih pcj hj hold)
          · exact ⟨t, _, inp, ht, hrun, .refl, ho, hn, hin⟩
        · rw [getElem?_set_ne hji] at hpc
          exact later (ih pc hpc hid)

theorem bindings_empty_of_drain {s u t : Pool Shared Pc} {i : ℕ} {r : Outcome}
    (h : (machine cfg).Reaches new s) (hpc : s.calls[i]? = some (.closing .drain r))
    (hst : (machine cfg).step s (.advance i .go) = some u)
    (hu : (machine cfg).Reaches u t) : t.shared.state.bindings = ∅ := by
  have hc : s.shared.closed = true := (grounded h).closing _ (mem_of_getElem? hpc) rfl
  rw [Machine.step, hpc] at hst
  obtain rfl := Option.some.inj hst
  exact Finset.subset_empty.mp (closed_of_reaches hu hc).2

end Closed

/-- Nothing is left of the authority's tasks. -/
structure Drained (sh : Shared) : Prop where
  bindings : sh.state.bindings = ∅
  leases : sh.state.leases = ∅
  principals : sh.state.observerPrincipals = []
  tasks : ∀ p, sh.state.observerTasks p = []
  records : sh.rmcp.records = ∅

theorem Teardown.drained {sh : Shared} {calls : List Pc} (ht : Teardown sh calls)
    (hc : sh.closed = true) (hq : ∀ pc ∈ calls, pc.settled = true) : Drained sh := by
  have hdrain : ¬ ∃ pc ∈ calls, pc.willDrain = true := by
    rintro ⟨pc, hpc, h⟩
    rw [(Pc.settled_idle (hq pc hpc)).2] at h
    cases h
  have hshut : ¬ ∃ pc ∈ calls, pc.willShutdown = true :=
    fun ⟨pc, hpc, h⟩ => hdrain ⟨pc, hpc, Pc.willDrain_of_willShutdown h⟩
  have hheld : ∀ id, ¬ ∃ pc ∈ calls, pc.held = some id := by
    rintro id ⟨pc, hpc, h⟩
    rw [(Pc.settled_idle (hq pc hpc)).1] at h
    cases h
  have hnone : ∀ {β : Type} {m : Finmap fun _ : TaskId => β}, (∀ id, id ∉ m) → m = ∅ := by
    intro β m hm
    refine ext_lookup fun id => ?_
    rw [lookup_eq_none.mpr (hm id), lookup_empty]
  obtain ⟨hb, hp, hts⟩ := (ht.published hc).resolve_right hdrain
  refine ⟨hb, hnone fun id hid => ?_, hp, hts, hnone fun id hid => ?_⟩
  · exact (ht.leases hc id hid).elim hdrain (hheld id)
  · exact (ht.records hc id hid).elim hshut (hheld id)

/-- **Shutdown linearises at the closed bit**, over every interleaving: the bit stays set and
nothing is published under it; a spawn that returned a task published it while open; a drain
removes the published bindings for good; and once every caller has returned from a closed
authority nothing is left of its tasks, in its own state or in RMCP. -/
theorem shutdown_linearises (cfg : TaskAuthorityConfig) (s : Pool Shared Pc)
    (h : (machine cfg).Reaches new s) :
    (s.shared.closed = true → ∀ t, (machine cfg).Reaches s t →
      t.shared.closed = true ∧ t.shared.state.bindings ⊆ s.shared.state.bindings) ∧
    (∀ i id, s.calls[i]? = some (.returned (.task id)) → PublishedWhileOpen cfg s i id) ∧
    (∀ i r u t, s.calls[i]? = some (.closing .drain r) → (machine cfg).step s (.advance i .go) = some u →
      (machine cfg).Reaches u t → t.shared.state.bindings = ∅) ∧
    (s.shared.closed = true → (∀ pc ∈ s.calls, pc.settled = true) → Drained s.shared) := by
  refine ⟨?_, ?_, ?_, ?_⟩
  · exact fun hc t ht => closed_of_reaches ht hc
  · exact fun i id hpc => published_while_open h _ hpc rfl
  · exact fun i r u t hpc hst hu => bindings_empty_of_drain h hpc hst hu
  · exact (teardown h).drained

/-- A spawn that returned its task, and the shutdown after it. -/
theorem shutdown_linearises_after_spawn :
    ∃ s, (machine ⟨1, 1, 1, by decide, by decide, by decide⟩).Reaches new s ∧
      PublishedWhileOpen ⟨1, 1, 1, by decide, by decide, by decide⟩ s 1 "t" ∧ Drained s.shared := by
  obtain ⟨s, hs, hp⟩ := (machine ⟨1, 1, 1, by decide, by decide, by decide⟩).exists_reaches_of_exec
    new (spawnEvents 1 ⟨default, none⟩ "t" ⟨.working, ""⟩ 12 ++ .enter .shutdown ::
      [Input.go, .go, .go, .pick "t", .go, .go].map (Event.advance 2))
    (p := fun s => s.calls[1]? = some (.returned (.task "t")) ∧ s.shared.closed = true ∧
      ∀ pc ∈ s.calls, pc.settled = true)
    (by decide)
  obtain ⟨-, h2, -, h4⟩ := shutdown_linearises _ s hs
  exact ⟨s, hs, h2 1 "t" hp.1, h4 hp.2.1 hp.2.2⟩

end McpToolkit.Tasks

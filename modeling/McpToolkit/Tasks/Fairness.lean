import McpToolkit.Lib.RoundRobin
import McpToolkit.Tasks.ObserverQueue

/-!
# McpToolkit.Tasks.Fairness — the observation loop serves everybody in turn

The queues of the authority with the turn that the loop is in are a `RoundRobin.State` (`Shared.rotation`), and every
event of the authority is one of its steps (`step_of_effect`).  What is due is therefore overtaken only by what stands
ahead of it.

Between the scan and the read, and between the read and the rotation, the loop holds no lock, so the queues do not show
the turn it is in: a task that was chosen is read even if one ahead of it has become due since, and a principal that was
read for is still in front until it is moved.  `observer_fair` says what holds in every state, these included.
-/

namespace McpToolkit.Tasks

open List AuthorityState Shared TaskAuthority Function
open Lib
open Lib.RoundRobin (Look Turn Waiting ahead groupsAhead_subperm membersAhead_subperm
  nodup_of_subperm)

/-! ### The loop among the calls -/

def Pc.loop : Pc → Option ObserverPc
  | .observer p => some p
  | .spawn _ | .closing _ _ | .access _ _ | .wait _ _ | .returned _ => none

/-- Where the observation loop stands. -/
def loopOf (calls : List Pc) : Option ObserverPc := (calls.filterMap Pc.loop).head?

def OneLoop (calls : List Pc) : Prop := (calls.filterMap Pc.loop).length ≤ 1

section Loop

variable {cfg : TaskAuthorityConfig} {sh sh' : Shared} {pc pc' : Pc} {calls calls' rest : List Pc} {inp : Input}

theorem loopOf_perm (h : calls.Perm calls') (hone : OneLoop calls) : loopOf calls = loopOf calls' := by
  have hperm := h.filterMap Pc.loop
  unfold OneLoop at hone
  unfold loopOf
  generalize calls.filterMap Pc.loop = l at hperm hone
  match l with
  | [] => rw [nil_perm.mp hperm]
  | [p] => rw [singleton_perm.mp hperm]
  | _ :: _ :: _ => simp at hone

theorem loopOf_cons_of_none (h : pc.loop = none) : loopOf (pc :: rest) = loopOf rest := by
  rw [loopOf, filterMap_cons_none h, loopOf]

theorem OneLoop.perm (h : calls.Perm calls') (hone : OneLoop calls) : OneLoop calls' := by
  rwa [OneLoop, ← (h.filterMap Pc.loop).length_eq]

theorem OneLoop.cons_of_none (h : pc.loop = none) : OneLoop (pc :: rest) ↔ OneLoop rest := by
  rw [OneLoop, filterMap_cons_none h, OneLoop]

theorem OneLoop.observer {p : ObserverPc} (h : OneLoop (.observer p :: rest)) : rest.filterMap Pc.loop = [] := by
  have hloop : (Pc.observer p :: rest).filterMap Pc.loop = p :: rest.filterMap Pc.loop := rfl
  rw [OneLoop, hloop, length_cons] at h
  exact length_eq_zero_iff.mp (by omega)

theorem loop_of_advance (h : Pc.advance cfg sh pc inp = some (sh', pc')) (hpc : pc.loop = none) : pc'.loop = none := by
  cases pc with
  | spawn p => cases SpawnPc.step_of_advance h <;> rfl
  | closing p r => cases ClosePc.step_of_advance h <;> rfl
  | access k p => cases AccessPc.step_of_advance h <;> rfl
  | wait a p => cases WaitPc.step_of_advance h <;> rfl
  | observer p => cases hpc
  | returned r => cases h

theorem oneLoop {s : Pool Shared Pc} (h : (machine cfg).Reaches new s) :
    OneLoop s.calls := by
  refine Machine.Run.induct (J := fun _ _ => True) (I := fun _ calls => OneLoop calls) (fun _ _ => trivial)
    (fun _ _ => trivial) (fun _ _ => trivial) OneLoop.perm (fun _ _ hone => hone) ?_ ?_ ?_ h
  · intro sh l c _ hone
    refine (OneLoop.cons_of_none ?_).mpr hone
    cases c <;> rfl
  · intro sh pc inp sh' pc' rest hadv _ _ hone
    cases hpc : pc.loop with
    | none => exact (OneLoop.cons_of_none (loop_of_advance hadv hpc)).mpr ((OneLoop.cons_of_none hpc).mp hone)
    | some p =>
      have hrest : rest.filterMap Pc.loop = [] := by
        cases pc <;> cases hpc
        exact hone.observer
      have hlength : ((pc' :: rest).filterMap Pc.loop).length ≤ 1 := by
        cases hpc' : pc'.loop <;> simp [hpc', hrest]
      exact hlength
  · exact Nat.le_refl 1

end Loop

/-! ### Turns -/

/-- What the loop has chosen and not read yet, or read and not moved to the back yet. -/
def ObserverPc.turn (sh : Shared) : ObserverPc → Turn TaskPrincipal TaskId
  | .admission sel | .recent sel | .clean sel _ | .read sel => .chosen (sh.cells sel.id).principal sel.id
  | .touch sel _ | .observe sel _ | .generation sel _ | .settle sel _ _ _ | .lease sel _ _ _ | .evict sel =>
    .served (sh.cells sel.id).principal sel.id
  | .unstarted | .scan | .idle _ | .sleep _ | .coalesce _ _ | .notifyDone _ | .evictHint _ | .evictDone _ => .idle

def loopTurn (sh : Shared) (loop : Option ObserverPc) : Turn TaskPrincipal TaskId := loop.elim .idle (·.turn sh)

/-- The queues and the turn of the loop. -/
def Shared.rotation (sh : Shared) (loop : Option ObserverPc) : RoundRobin.State TaskPrincipal TaskId :=
  ⟨sh.state.observerPrincipals, sh.state.observerTasks, loopTurn sh loop⟩

/-- The RMCP read of the loop, and for whom it is. -/
def ObserverPc.reads (sh : Shared) : ObserverPc → Option (TaskPrincipal × TaskId)
  | .read sel => some ((sh.cells sel.id).principal, sel.id)
  | _ => none

def TaskAuthority.readOf (s : Pool Shared Pc) : Event Move Call Input → Option (TaskPrincipal × TaskId)
  | .advance i _ => (s.calls[i]?).bind fun pc => pc.loop.bind (ObserverPc.reads s.shared)
  | .env _ | .enter _ => none

/-- What an event does to the queues and to the loop. -/
inductive Effect (cfg : TaskAuthorityConfig) (sh : Shared) (loop : Option ObserverPc) :
    Option (TaskPrincipal × TaskId) → Shared → Option ObserverPc → Prop
  | other (sh') : sh'.state.queues = sh.state.queues → (∀ id, (sh'.cells id).principal = (sh.cells id).principal) →
      (sh.closed = true → sh'.closed = true) → Effect cfg sh loop none sh' loop
  | publish (sh' id p) : sh.closed = false → id ∉ sh.state.bindings → (∀ q ∈ loop, q.accessed ≠ some id) →
      sh'.state.queues = (sh.state.publish id p).queues →
      (∀ x, x ≠ id → (sh'.cells x).principal = (sh.cells x).principal) → Effect cfg sh loop none sh' loop
  | drain (sh') : sh'.closed = true → sh'.state.queues = ⟨[], fun _ => []⟩ →
      (∀ id, (sh'.cells id).principal = (sh.cells id).principal) → Effect cfg sh loop none sh' loop
  | turn (p sh' pc') : loop = some p → ObserverPc.Step cfg sh p sh' pc' → Effect cfg sh loop (p.reads sh) sh' pc'.loop

section Effects

variable {cfg : TaskAuthorityConfig} {sh sh' : Shared} {pc' : Pc} {loop : Option ObserverPc} {rest : List Pc}

theorem SpawnPc.Step.effect {p : SpawnPc} (h : SpawnPc.Step cfg sh p sh' pc') (hg : Grounded sh (.spawn p :: rest))
    (hloop : ∀ q ∈ loop, Pc.observer q ∈ rest) : Effect cfg sh loop none sh' loop := by
  cases h with
  | publish a id initial readAt ho hn =>
    refine .publish _ id a.principal ho hn (fun q hq hacc => ?_) rfl fun x hx => ?_
    · -- the id of a spawn is nobody else's
      have hheld : id ∈ (Pc.spawn (.publish a id initial readAt) :: rest).filterMap Pc.held :=
        mem_filterMap.mpr ⟨_, mem_cons_self, rfl⟩
      exact (hg.accessed _ (mem_cons_of_mem _ (hloop q hq)) id hacc).2 hheld
    · simp [setCell, update_of_ne hx]
  | panicClose leftover => exact .other _ rfl (fun _ => rfl) fun _ => rfl
  | _ => exact .other _ rfl (fun _ => rfl) fun h => h

theorem ClosePc.Step.effect {r : Outcome} {p : ClosePc} (h : ClosePc.Step sh r p sh' pc')
    (hg : Grounded sh (.closing p r :: rest)) : Effect cfg sh loop none sh' loop := by
  cases h with
  | setClosed => exact .other _ rfl (fun _ => rfl) fun _ => rfl
  | drain => exact .drain _ (hg.closing _ mem_cons_self rfl) rfl fun _ => rfl
  | hintDone id remaining => exact .other _ rfl (fun _ => notifyDone_principal) fun h => h
  | _ => exact .other _ rfl (fun _ => rfl) fun h => h

theorem AccessPc.Step.effect {k : Access} {p : AccessPc} (h : AccessPc.Step sh k p sh' pc') :
    Effect cfg sh loop none sh' loop := by
  have hqueues : sh'.state.queues = sh.state.queues := by
    cases h <;> simp [queues, leaseAfterRead_state, removeBinding]
  refine .other _ hqueues ?_ ?_ <;> cases h <;> simp

theorem WaitPc.Step.effect {a : WaitArgs} {p : WaitPc} (h : WaitPc.Step cfg sh a p sh' pc') :
    Effect cfg sh loop none sh' loop := by
  cases h <;> exact .other _ rfl (fun _ => rfl) fun h => h

theorem Move.Step.effect (h : Move.Step sh sh') : Effect cfg sh loop none sh' loop := by
  obtain ⟨-, hstate, hclosed, hcells, -⟩ := h.frame
  refine .other _ (by rw [hstate]) (fun id => by rw [hcells]) fun hc => ?_
  rw [hclosed]
  exact hc

end Effects

theorem mem_of_loopOf {calls : List Pc} {q : ObserverPc} (h : loopOf calls = some q) : Pc.observer q ∈ calls := by
  obtain ⟨pc, hpc, hloop⟩ := mem_filterMap.mp (mem_of_head? h)
  cases pc <;> cases hloop
  exact hpc

/-- **One event**, in a state that is reached. -/
theorem effect_of_step {cfg : TaskAuthorityConfig} {s s' : Pool Shared Pc} {e : Event Move Call Input}
    (hs : (machine cfg).Reaches new s) (h : (machine cfg).step s e = some s') :
    Effect cfg s.shared (loopOf s.calls) (readOf s e) s'.shared (loopOf s'.calls) := by
  have hone := oneLoop hs
  have hone' := oneLoop (hs.step h)
  cases Machine.advances_of_step h with
  | env m sh' hm => exact (Move.step_of_apply hm).effect
  | enter c =>
    have hone' : OneLoop (s.calls ++ [c.enter]) := hone'
    have hloop : loopOf (s.calls ++ [c.enter]) = loopOf s.calls := by
      rw [loopOf_perm (perm_append_singleton _ _) hone', loopOf_cons_of_none (by cases c <;> rfl)]
    show Effect cfg s.shared (loopOf s.calls) none s.shared (loopOf (s.calls ++ [c.enter]))
    rw [hloop]
    exact .other _ rfl (fun _ => rfl) fun h => h
  | advance i inp pc sh' pc' rest calls hpc hadv hl hset =>
    have hg := (grounded hs).perm hl
    have hread : readOf s (.advance i inp) = pc.loop.bind (ObserverPc.reads s.shared) := by
      rw [readOf, hpc, Option.bind_some]
    have honeRest := hone.perm hl
    rw [hread, loopOf_perm hl hone, loopOf_perm hset hone']
    cases hloop : pc.loop with
    | none =>
      rw [loopOf_cons_of_none hloop, loopOf_cons_of_none (loop_of_advance hadv hloop)]
      cases pc with
      | spawn p => exact (SpawnPc.step_of_advance hadv).effect hg fun q => mem_of_loopOf
      | closing p r => exact (ClosePc.step_of_advance hadv).effect hg
      | access k p => exact (AccessPc.step_of_advance hadv).effect
      | wait a p => exact (WaitPc.step_of_advance hadv).effect
      | observer p => cases hloop
      | returned r => cases hadv
    | some p =>
      cases pc with
      | observer p =>
        cases hloop
        have hrest : loopOf (pc' :: rest) = pc'.loop := by
          rw [loopOf, filterMap_cons, honeRest.observer]
          cases pc'.loop <;> rfl
        rw [hrest]
        exact .turn p sh' pc' rfl (ObserverPc.step_of_advance hadv)
      | _ => cases hloop

/-! ### Scans -/

section Scans

variable {sh : Shared}

/-- Whether the binding of an id is published. -/
def Shared.published (sh : Shared) (id : TaskId) : Bool := id ∈ sh.state.bindings

/-- **A scan looks at one principal after the other.** -/
theorem Shared.scanPrincipals_looks (sh : Shared) : ∀ (n : ℕ) (q : Queues), ∃ turn,
    Relation.ReflTransGen (Look sh.published sh.due) ⟨q.principals, q.tasks, .idle⟩
      ⟨(sh.scanPrincipals n q).1.principals, (sh.scanPrincipals n q).1.tasks, turn⟩ ∧
    ((sh.scanPrincipals n q).2 = none → turn = .idle) ∧
    ∀ sel, (sh.scanPrincipals n q).2 = some sel → ∃ p ps, (sh.scanPrincipals n q).1.principals = p :: ps ∧
      sel.id ∈ (sh.scanPrincipals n q).1.tasks p ∧ turn = .chosen p sel.id := by
  intro n
  induction n with
  | zero => exact fun q => ⟨.idle, .refl, fun _ => rfl, fun _ h => absurd h.symm (Option.some_ne_none _)⟩
  | succ n ih =>
    rintro ⟨_ | ⟨p, ps⟩, tasks⟩
    · exact ⟨.idle, .refl, fun _ => rfl, fun _ h => absurd h.symm (Option.some_ne_none _)⟩
    rw [scanPrincipals, scanTasks_eq]
    by_cases hlen : (tasks p).length = 0
    · rw [if_pos hlen]
      obtain ⟨turn, hlooks, hturn⟩ := ih ⟨ps, Function.update tasks p []⟩
      refine ⟨turn, .head (.leave p ps tasks ?_) hlooks, hturn⟩
      rw [length_eq_zero_iff.mp hlen, filter_nil]
    · rw [if_neg hlen]
      cases hsel : sh.firstDue (tasks p) with
      | some sel =>
        obtain ⟨id, hfind, rfl⟩ := Option.map_eq_some_iff.mp hsel
        have hmem : id ∈ sh.live (tasks p) := mem_of_find?_eq_some hfind
        refine ⟨.chosen p id, .single (.choose p ps tasks id hfind), fun h => absurd h (Option.some_ne_none _), ?_⟩
        rintro _ ⟨⟩
        refine ⟨p, ps, rfl, ?_, rfl⟩
        show id ∈ Function.update tasks p (sh.live (tasks p)) p
        rw [update_self]
        exact hmem
      | none =>
        have hfind : (sh.live (tasks p)).find? sh.due = none := Option.map_eq_none_iff.mp hsel
        by_cases hlive : sh.live (tasks p) = []
        · simp only [hlive]
          obtain ⟨turn, hlooks, hturn⟩ := ih ⟨ps, Function.update tasks p []⟩
          exact ⟨turn, .head (.leave p ps tasks hlive) hlooks, hturn⟩
        · simp only [hlive]
          obtain ⟨turn, hlooks, hturn⟩ := ih ⟨ps ++ [p], Function.update tasks p (sh.live (tasks p))⟩
          exact ⟨turn, .head (.pass p ps tasks hfind) hlooks, hturn⟩

/-- The state of the rotation after a scan with the given turn. -/
def Shared.scanned (sh : Shared) (turn : Turn TaskPrincipal TaskId) : RoundRobin.State TaskPrincipal TaskId :=
  ⟨sh.scan.1.observerPrincipals, sh.scan.1.observerTasks, turn⟩

theorem Shared.scan_nothing (h : sh.scan.2 = none) : Relation.ReflTransGen (Look sh.published sh.due)
      ⟨sh.state.observerPrincipals, sh.state.observerTasks, .idle⟩ (sh.scanned .idle) := by
  obtain ⟨turn, hlooks, hidle, -⟩ := sh.scanPrincipals_looks sh.state.observerPrincipals.length sh.state.queues
  obtain rfl := hidle h
  exact hlooks

theorem Shared.scan_chooses {sel : Selected} (h : sh.scan.2 = some sel) (hq : sh.Scheduled) :
    Relation.ReflTransGen (Look sh.published sh.due) ⟨sh.state.observerPrincipals, sh.state.observerTasks, .idle⟩
      (sh.scanned (.chosen (sh.cells sel.id).principal sel.id)) ∧
    sh.scan.1.observerPrincipals.head? = some (sh.cells sel.id).principal := by
  obtain ⟨turn, hlooks, -, hsome⟩ := sh.scanPrincipals_looks sh.state.observerPrincipals.length sh.state.queues
  obtain ⟨p, ps, hfront, hmem, rfl⟩ := hsome sel h
  have howner : p = (sh.cells sel.id).principal := by
    by_contra hne
    exact (scan_wellQueued hq).only sel.id (scan_selected h).1 p hne hmem
  subst howner
  refine ⟨hlooks, ?_⟩
  show (sh.scanPrincipals _ _).1.principals.head? = _
  exact congrArg List.head? hfront

end Scans

/-! ### The authority takes the steps of a rotation -/

section Rotation

variable {cfg : TaskAuthorityConfig} {sh sh' : Shared} {loop loop' : Option ObserverPc}
  {out : Option (TaskPrincipal × TaskId)}

variable {p : ObserverPc}

theorem ObserverPc.turn_congr
    (h : ∀ id, p.accessed = some id → (sh'.cells id).principal = (sh.cells id).principal) : p.turn sh' = p.turn sh := by
  cases p <;> simp only [ObserverPc.turn] <;> rw [h _ rfl]

theorem loopTurn_congr
    (h : ∀ q ∈ loop, ∀ id, q.accessed = some id → (sh'.cells id).principal = (sh.cells id).principal) :
    loopTurn sh' loop = loopTurn sh loop := by
  cases loop with
  | none => rfl
  | some p => exact ObserverPc.turn_congr (h p rfl)

theorem rotation_congr (hqueues : sh'.state.queues = sh.state.queues)
    (hturn : loopTurn sh' loop' = loopTurn sh loop) : sh'.rotation loop' = sh.rotation loop := by
  have hprincipals := congrArg Queues.principals hqueues
  have htasks := congrArg Queues.tasks hqueues
  simp only [queues] at hprincipals htasks
  rw [Shared.rotation, Shared.rotation, hprincipals, htasks, hturn]

/-- The principal of what was chosen is in front, unless the queues were drained. -/
def Shared.Front (sh : Shared) (loop : Option ObserverPc) : Prop :=
  ∀ p id, loopTurn sh loop = .chosen p id →
    sh.state.observerPrincipals.head? = some p ∨ sh.closed = true ∧ sh.state.observerPrincipals = []

theorem stay (hqueues : sh'.state.queues = sh.state.queues) (hturn : loopTurn sh' loop' = loopTurn sh loop) :
    RoundRobin.Step sh.published sh.due (sh.rotation loop) none (sh'.rotation loop') := by
  rw [rotation_congr hqueues hturn]
  exact .scan .refl

theorem rotate {sel : Selected} {st : AuthorityState} (hp : p.turn sh = .served (sh.cells sel.id).principal sel.id)
    (hst : st.queues = (sh.state.rotateObserver (sh.cells sel.id).principal sel.id).queues)
    (hloop : loopTurn (sh.setState st) loop' = .idle) :
    RoundRobin.Step sh.published sh.due (sh.rotation (some p)) none ((sh.setState st).rotation loop') := by
  have hrotated : (sh.setState st).rotation loop' =
      ⟨RoundRobin.toBack sh.state.observerPrincipals (sh.cells sel.id).principal,
        Function.update sh.state.observerTasks (sh.cells sel.id).principal
          (RoundRobin.toBack (sh.state.observerTasks (sh.cells sel.id).principal) sel.id), .idle⟩ := by
    have hprincipals := congrArg Queues.principals hst
    have htasks := congrArg Queues.tasks hst
    simp only [queues] at hprincipals htasks
    rw [Shared.rotation, hloop, setState_state, hprincipals, htasks]
    rfl
  rw [hrotated]
  have hserved : sh.rotation (some p) =
      ⟨sh.state.observerPrincipals, sh.state.observerTasks, .served (sh.cells sel.id).principal sel.id⟩ := by
    rw [← hp]
    rfl
  rw [hserved]
  exact .rotate _ _ _ _

theorem ObserverPc.Step.rotates {pc' : Pc} (h : ObserverPc.Step cfg sh p sh' pc') (hq : sh.Scheduled)
    (hfront : sh.Front (some p)) (hne : sh.state.observerPrincipals ≠ []) :
    RoundRobin.Step sh.published sh.due (sh.rotation (some p)) (p.reads sh) (sh'.rotation pc'.loop) := by
  cases h with
  | selected sel ho hsel => exact .scan (scan_chooses hsel hq).1
  | nothing ho hsel => exact .scan (scan_nothing hsel)
  | delay sel hw => exact .skip _ _ _ _
  | clean sel last hc => exact .skip _ _ _ _
  | coalesce sel last =>
    refine stay ?_ rfl
    simp [queues, Shared.coalesce]
  | read sel =>
    have hhead := (hfront _ _ rfl).resolve_right fun h => hne h.2
    obtain ⟨ps, hps⟩ := head?_eq_some_iff.mp hhead
    unfold Shared.rotation
    rw [hps]
    exact .serve _ ps _ _
  | touch sel task =>
    exact stay rfl (ObserverPc.turn_congr (p := .observe sel task) fun id _ => touch_principal)
  | touchAbsent sel => exact stay rfl (ObserverPc.turn_congr (p := .evict sel) fun id _ => touch_principal)
  | observe sel task =>
    refine stay (by simp [queues]) ?_
    exact ObserverPc.turn_congr (p := .generation sel task) fun id _ => observe_principal
  | lease sel task signal now =>
    refine rotate rfl ?_ rfl
    simp [queues, observerLease, rotateObserver]
  | evict sel => exact rotate rfl rfl rfl
  | _ => exact stay rfl rfl

/-- **The authority takes the steps of a rotation**, as long as there is something in the queues. -/
theorem step_of_effect (h : Effect cfg sh loop out sh' loop') (hq : sh.Scheduled) (hfront : sh.Front loop)
    (hne : sh.state.observerPrincipals ≠ []) :
    RoundRobin.Step sh.published sh.due (sh.rotation loop) out (sh'.rotation loop') := by
  cases h with
  | other sh' hqueues hcells => exact stay hqueues (loopTurn_congr fun q _ id _ => hcells id)
  | publish sh' id p ho hid hloop hqueues hcells =>
    have hturn : loopTurn sh' loop = loopTurn sh loop :=
      loopTurn_congr fun q hq x hx => hcells x fun heq => hloop q hq (heq ▸ hx)
    have hjoined : sh'.rotation loop =
        ⟨sh.state.observerPrincipals ++ (if sh.state.observerTasks p = [] then [p] else []),
          fun k => sh.state.observerTasks k ++ (if k = p then [id] else []), loopTurn sh loop⟩ := by
      have hprincipals := congrArg Queues.principals hqueues
      have htasks := congrArg Queues.tasks hqueues
      simp only [queues, publish] at hprincipals htasks
      rw [Shared.rotation, hprincipals, htasks]
      congr 1
      · split_ifs
        · rfl
        · rw [append_nil]
      · funext k
        by_cases hk : k = p
        · subst hk
          rw [update_self, if_pos rfl]
        · rw [update_of_ne hk, if_neg hk, append_nil]
    rw [hjoined]
    exact .join (sh.rotation loop) _ _
  | drain sh' hc hqueues hcells =>
    have hcleared : sh'.rotation loop = ⟨[], fun _ => [], loopTurn sh loop⟩ := by
      have hprincipals := congrArg Queues.principals hqueues
      have htasks := congrArg Queues.tasks hqueues
      simp only [queues] at hprincipals htasks
      rw [Shared.rotation, loopTurn_congr fun q _ id _ => hcells id, hprincipals, htasks]
    rw [hcleared]
    exact .clear (sh.rotation loop)
  | turn p sh' pc' hp hstep =>
    subst hp
    exact hstep.rotates hq hfront hne

/-! ### What was chosen stays in front -/

theorem Shared.Front.congr (h : sh.Front loop) (hturn : loopTurn sh' loop' = loopTurn sh loop)
    (hprincipals : sh'.state.observerPrincipals = sh.state.observerPrincipals)
    (hclosed : sh.closed = true → sh'.closed = true) : sh'.Front loop' := by
  intro p id hchosen
  rw [hprincipals]
  rw [hturn] at hchosen
  exact (h p id hchosen).imp_right fun hdrained => ⟨hclosed hdrained.1, hdrained.2⟩

theorem Shared.Front.of_idle (h : ∀ p id, loopTurn sh loop ≠ .chosen p id) : sh.Front loop :=
  fun p id hchosen => absurd hchosen (h p id)

theorem ObserverPc.Step.front {pc' : Pc} (h : ObserverPc.Step cfg sh p sh' pc') (hq : sh.Scheduled)
    (hfront : sh.Front (some p)) : sh'.Front pc'.loop := by
  cases h with
  | selected sel ho hsel =>
    rintro _ _ ⟨⟩
    exact .inl (scan_chooses hsel hq).2
  | admission sel hw | recent sel | dirty sel lastRead => exact hfront.congr rfl rfl fun h => h
  | _ => exact .of_idle nofun

theorem Effect.front (h : Effect cfg sh loop out sh' loop') (hq : sh.Scheduled) (hfront : sh.Front loop) :
    sh'.Front loop' := by
  cases h with
  | other sh' hqueues hcells hclosed =>
    exact hfront.congr (loopTurn_congr fun q _ id _ => hcells id) (congrArg Queues.principals hqueues) hclosed
  | publish sh' id p ho hid hloop hqueues hcells =>
    intro p' id' hchosen
    have hturn : loopTurn sh' loop = loopTurn sh loop :=
      loopTurn_congr fun q hq x hx => hcells x fun heq => hloop q hq (heq ▸ hx)
    rw [hturn] at hchosen
    have hhead := (hfront p' id' hchosen).resolve_right fun h => by rw [ho] at h; exact absurd h.1 (by decide)
    have hprincipals : sh'.state.observerPrincipals = (sh.state.publish id p).observerPrincipals :=
      congrArg Queues.principals hqueues
    refine .inl ?_
    rw [hprincipals, AuthorityState.publish]
    split_ifs
    · rw [head?_append, hhead]
      rfl
    · exact hhead
  | drain sh' hc hqueues hcells => exact fun p id _ => .inr ⟨hc, congrArg Queues.principals hqueues⟩
  | turn p sh' pc' hp hstep =>
    subst hp
    exact hstep.front hq hfront

end Rotation

theorem front {cfg : TaskAuthorityConfig} {s : Pool Shared Pc}
    (h : (machine cfg).Reaches new s) : s.shared.Front (loopOf s.calls) := by
  induction h with
  | refl => exact .of_idle nofun
  | snoc e hs _ hstep ih => exact (effect_of_step hs hstep).front (scheduled hs) ih

/-! ### Fairness -/

/-- The RMCP reads of the loop in a run. -/
def TaskAuthority.reads (cfg : TaskAuthorityConfig) (s : Pool Shared Pc) (es : List (Event Move Call Input)) :
    List (TaskPrincipal × TaskId) :=
  ((machine cfg).system.steps s es).filterMap fun x => readOf x.1 x.2

/-- Whenever an event happens the task is published and due. -/
def TaskAuthority.StaysDue (cfg : TaskAuthorityConfig) (s : Pool Shared Pc) (t : TaskId)
    (es : List (Event Move Call Input)) : Prop :=
  ∀ x ∈ (machine cfg).system.steps s es, t ∈ x.1.shared.state.bindings ∧ x.1.shared.due t = true

def Shared.principalsAhead (sh : Shared) (t : TaskId) : List TaskPrincipal :=
  ahead sh.state.observerPrincipals (sh.cells t).principal

def Shared.tasksAhead (sh : Shared) (t : TaskId) : List TaskId :=
  ahead (sh.state.observerTasks (sh.cells t).principal) t

/-- A task behind `t`, of the same principal, that the loop has chosen and not read yet. -/
def Shared.chosenBehind (sh : Shared) (loop : Option ObserverPc) (t : TaskId) : List TaskId :=
  (sh.rotation loop).chosenBehind (sh.cells t).principal t

section Fair

variable {cfg : TaskAuthorityConfig} {sh sh' : Shared} {loop loop' : Option ObserverPc}
  {out : Option (TaskPrincipal × TaskId)} {t : TaskId} {s s' : Pool Shared Pc} {e : Event Move Call Input}

theorem Effect.principal (h : Effect cfg sh loop out sh' loop') (ht : t ∈ sh.state.bindings) :
    (sh'.cells t).principal = (sh.cells t).principal := by
  cases h with
  | other sh' hqueues hcells => exact hcells t
  | publish sh' id p ho hid hloop hqueues hcells =>
    refine hcells t ?_
    rintro rfl
    exact hid ht
  | drain sh' hc hqueues hcells => exact hcells t
  | turn p sh' pc' hp hstep => cases hstep <;> simp

theorem waiting (hq : sh.Scheduled) (ht : t ∈ sh.state.bindings) (hdue : sh.due t = true) :
    Waiting sh.published sh.due (sh.cells t).principal t (sh.rotation loop) := by
  have hmem : t ∈ sh.state.observerTasks (sh.cells t).principal := hq.queued t ht
  exact ⟨(hq.nonempty _).mpr (ne_nil_of_mem hmem), hmem, decide_eq_true ht, hdue⟩

section

variable (hs : (machine cfg).Reaches new s)
include hs

theorem step_waiting (h : (machine cfg).step s e = some s') (ht : t ∈ s.shared.state.bindings)
    (hdue : s.shared.due t = true) :
    RoundRobin.Step s.shared.published s.shared.due (s.shared.rotation (loopOf s.calls)) (readOf s e)
      (s'.shared.rotation (loopOf s'.calls)) ∧
    Waiting s.shared.published s.shared.due (s.shared.cells t).principal t (s.shared.rotation (loopOf s.calls)) ∧
    (s'.shared.cells t).principal = (s.shared.cells t).principal := by
  have heffect := effect_of_step hs h
  have hwait : Waiting s.shared.published s.shared.due (s.shared.cells t).principal t
      (s.shared.rotation (loopOf s.calls)) := waiting (scheduled hs) ht hdue
  exact ⟨step_of_effect heffect (scheduled hs) (front hs) (ne_nil_of_mem hwait.group), hwait, heffect.principal ht⟩

/-- The principals read for, before the principal of `t` is. -/
theorem reads_principals {es : List (Event Move Call Input)} (hdue : TaskAuthority.StaysDue cfg s t es)
    (hturn : ∀ id, loopTurn s.shared (loopOf s.calls) ≠ .served (s.shared.cells t).principal id)
    (hreads : ∀ r ∈ reads cfg s es, r.1 ≠ (s.shared.cells t).principal) :
    ((reads cfg s es).map Prod.fst).Subperm (s.shared.principalsAhead t) := by
  unfold principalsAhead
  generalize hp : (s.shared.cells t).principal = p at hturn hreads
  have hspent := System.spent_steps
    (J := fun x => (machine cfg).Reaches new x ∧ (x.shared.cells t).principal = p ∧
      ∀ id, loopTurn x.shared (loopOf x.calls) ≠ .served p id)
    (G := fun x e => (t ∈ x.shared.state.bindings ∧ x.shared.due t = true) ∧ ∀ r ∈ readOf x e, r.1 ≠ p)
    (f := fun x e => (readOf x e).map Prod.fst)
    (b := fun x => (x.shared.rotation (loopOf x.calls)).groupsAhead p) ?_ ⟨hs, hp, hturn⟩
    fun x hx => ⟨hdue x hx, fun r hr => hreads r (mem_filterMap.mpr ⟨x, hx, hr⟩)⟩
  · rw [← map_filterMap] at hspent
    exact hspent.trans (groupsAhead_subperm _ p)
  · rintro x e y hstep ⟨hx, hxp, hxturn⟩ ⟨⟨ht, hxdue⟩, hread⟩
    obtain ⟨hround, hwait, hprincipal⟩ := step_waiting hx hstep ht hxdue
    rw [hxp] at hwait hprincipal
    obtain ⟨hspend, hturn'⟩ := hround.spend_groups hwait hxturn hread
    exact ⟨hspend, hx.step hstep, hprincipal, hturn'⟩

/-- The tasks read for the principal of `t`, before `t` is. -/
theorem reads_tasks {es : List (Event Move Call Input)} (hdue : TaskAuthority.StaysDue cfg s t es)
    (hturn : loopTurn s.shared (loopOf s.calls) ≠ .served (s.shared.cells t).principal t)
    (hreads : ∀ r ∈ reads cfg s es, r.2 ≠ t) :
    (((reads cfg s es).filter fun r => r.1 = (s.shared.cells t).principal).map Prod.snd).Subperm
      (s.shared.tasksAhead t ++ s.shared.chosenBehind (loopOf s.calls) t) := by
  unfold tasksAhead chosenBehind
  generalize hp : (s.shared.cells t).principal = p at hturn
  have hspent := System.spent_steps
    (J := fun x => (machine cfg).Reaches new x ∧ (x.shared.cells t).principal = p ∧
      loopTurn x.shared (loopOf x.calls) ≠ .served p t)
    (G := fun x e => (t ∈ x.shared.state.bindings ∧ x.shared.due t = true) ∧ ∀ r ∈ readOf x e, r.2 ≠ t)
    (f := fun x e => ((readOf x e).filter fun r => r.1 = p).map Prod.snd)
    (b := fun x => (x.shared.rotation (loopOf x.calls)).membersAhead p t) ?_ ⟨hs, hp, hturn⟩
    fun x hx => ⟨hdue x hx, fun r hr => hreads r (mem_filterMap.mpr ⟨x, hx, hr⟩)⟩
  · rw [← map_filterMap, ← filter_filterMap] at hspent
    exact hspent.trans (membersAhead_subperm _ p t)
  · rintro x e y hstep ⟨hx, hxp, hxturn⟩ ⟨⟨ht, hxdue⟩, hread⟩
    obtain ⟨hround, hwait, hprincipal⟩ := step_waiting hx hstep ht hxdue
    rw [hxp] at hwait hprincipal
    have hother : ∀ r ∈ readOf x e, r ≠ (p, t) := by
      rintro _ hr rfl
      exact hread _ hr rfl
    obtain ⟨hspend, hturn'⟩ := hround.spend_members hwait hxturn hother
    exact ⟨hspend, hx.step hstep, hprincipal, hturn'⟩

end

/-- **Observer fairness.**  From any state that is reached and for a task `t` that stays due: until the loop reads for
the principal of `t`, it reads only for principals ahead of it, each at most once; until it reads `t`, it reads only
tasks of the principal that are ahead of `t`, each at most once, and one it had chosen before.  The queues do not count
while what they have in front was read and is still to be moved to the back. -/
theorem observer_fair (cfg : TaskAuthorityConfig) {s : Pool Shared Pc}
    (h : (machine cfg).Reaches new s) {t : TaskId} {es : List (Event Move Call Input)}
    (hdue : TaskAuthority.StaysDue cfg s t es) :
    ((∀ id, loopTurn s.shared (loopOf s.calls) ≠ .served (s.shared.cells t).principal id) →
      (∀ r ∈ reads cfg s es, r.1 ≠ (s.shared.cells t).principal) →
      ((reads cfg s es).map Prod.fst).Nodup ∧
        ((reads cfg s es).map Prod.fst).Subperm (s.shared.principalsAhead t)) ∧
    (loopTurn s.shared (loopOf s.calls) ≠ .served (s.shared.cells t).principal t →
      (∀ r ∈ reads cfg s es, r.2 ≠ t) →
      (((reads cfg s es).filter fun r => r.1 = (s.shared.cells t).principal).map Prod.snd).Nodup ∧
        (((reads cfg s es).filter fun r => r.1 = (s.shared.cells t).principal).map Prod.snd).Subperm
          (s.shared.tasksAhead t ++ s.shared.chosenBehind (loopOf s.calls) t) ∧
        (s.shared.chosenBehind (loopOf s.calls) t).length ≤ 1) := by
  have hq := scheduled h
  constructor
  · intro hturn hreads
    have hsub := reads_principals h hdue hturn hreads
    exact ⟨nodup_of_subperm hsub (hq.nodup.sublist (takeWhile_sublist _)), hsub⟩
  · intro hturn hreads
    have hsub := reads_tasks h hdue hturn hreads
    obtain ⟨hnodup, hone⟩ := RoundRobin.State.chosenBehind_nodup (s.shared.rotation (loopOf s.calls)) (t := t)
      (hq.distinct (s.shared.cells t).principal)
    exact ⟨nodup_of_subperm hsub hnodup, hsub, hone⟩

end Fair

/-! ### Two principals -/

instance (cfg : TaskAuthorityConfig) (s : Pool Shared Pc) (t : TaskId) (es : List (Event Move Call Input)) :
    Decidable (TaskAuthority.StaysDue cfg s t es) := List.decidableBAll _ _

def twoReads : TaskAuthorityConfig := ⟨2, 1, 2, by decide, by decide, by decide⟩

def firstPrincipal : TaskPrincipal := ⟨"a", by decide⟩
def secondPrincipal : TaskPrincipal := ⟨"b", by decide⟩

/-- The next `n` sections of the loop. -/
def loopEvents (n : ℕ) : List (Event Move Call Input) := List.replicate n (.advance 0 .go)

/-- Tasks `t` and `u` are published for the two principals, and the loop is about to scan. -/
def publishEvents (p q : TaskPrincipal) : List (Event Move Call Input) :=
  spawnEvents 1 ⟨p, none⟩ "t" ⟨.working, ""⟩ 12 ++ spawnEvents 2 ⟨q, none⟩ "u" ⟨.working, ""⟩ 12 ++ loopEvents 1

/-- The second principal waits for one read, for the first one. -/
theorem observer_fair_twoPrincipals : ∃ s, (machine twoReads).Reaches new s ∧
      TaskAuthority.StaysDue twoReads s "u" (loopEvents 5) ∧
      reads twoReads s (loopEvents 5) = [(firstPrincipal, "t")] ∧
      ((reads twoReads s (loopEvents 5)).map Prod.fst).Subperm (s.shared.principalsAhead "u") := by
  obtain ⟨s, hs, hdue, hreads, hturn, howner⟩ := (machine twoReads).exists_reaches_of_exec
    new (publishEvents firstPrincipal secondPrincipal ++ [.env (.taskHint "t"), .env (.taskHint "u")])
    (p := fun s => TaskAuthority.StaysDue twoReads s "u" (loopEvents 5) ∧
      reads twoReads s (loopEvents 5) = [(firstPrincipal, "t")] ∧
      loopTurn s.shared (loopOf s.calls) = .idle ∧ (s.shared.cells "u").principal = secondPrincipal)
    (by decide)
  refine ⟨s, hs, hdue, hreads, ((observer_fair twoReads hs hdue).1 ?_ ?_).2⟩
  · rw [hturn]
    exact nofun
  · rw [hreads, howner]
    decide

/-- The bounds by the queues of the state alone. -/
def TaskAuthority.PrincipalsFair (cfg : TaskAuthorityConfig) : Prop :=
  ∀ s, (machine cfg).Reaches new s → s.shared.closed = false →
    ∀ t ∈ s.shared.state.bindings, ∀ es, TaskAuthority.StaysDue cfg s t es →
      (∀ r ∈ reads cfg s es, r.1 ≠ (s.shared.cells t).principal) →
      (reads cfg s es).length ≤ (s.shared.principalsAhead t).length

def TaskAuthority.TasksFair (cfg : TaskAuthorityConfig) : Prop :=
  ∀ s, (machine cfg).Reaches new s → s.shared.closed = false →
    ∀ t ∈ s.shared.state.bindings, ∀ es, TaskAuthority.StaysDue cfg s t es →
      (∀ r ∈ reads cfg s es, r.2 ≠ t) →
      ((reads cfg s es).filter fun r => r.1 = (s.shared.cells t).principal).length ≤
        (s.shared.tasksAhead t).length

/-- The principal of `t` was read for and is still in front; it becomes due again before it is moved behind the other
one, which is then read first. -/
theorem not_principalsFair : ¬ TaskAuthority.PrincipalsFair twoReads := by
  intro hfair
  obtain ⟨s, hs, hopen, ht, hdue, hreads, hmore⟩ := (machine twoReads).exists_reaches_of_exec
    new (publishEvents firstPrincipal secondPrincipal ++ [.env (.taskHint "t"), .env (.taskHint "u")] ++
      loopEvents 5 ++ [.env (.taskHint "t")])
    (p := fun s => s.shared.closed = false ∧ "t" ∈ s.shared.state.bindings ∧
      TaskAuthority.StaysDue twoReads s "t" (loopEvents 11) ∧
      (∀ r ∈ reads twoReads s (loopEvents 11), r.1 ≠ (s.shared.cells "t").principal) ∧
      (s.shared.principalsAhead "t").length < (reads twoReads s (loopEvents 11)).length)
    (by decide)
  exact absurd (hfair s hs hopen "t" ht _ hdue hreads) (Nat.not_le.mpr hmore)

theorem not_tasksFair : ¬ TaskAuthority.TasksFair twoReads := by
  intro hfair
  obtain ⟨s, hs, hopen, ht, hdue, hreads, hmore⟩ := (machine twoReads).exists_reaches_of_exec
    new (publishEvents firstPrincipal firstPrincipal ++ [.env (.taskHint "u")] ++ loopEvents 1 ++
      [.env (.taskHint "t")])
    (p := fun s => s.shared.closed = false ∧ "t" ∈ s.shared.state.bindings ∧
      TaskAuthority.StaysDue twoReads s "t" (loopEvents 4) ∧
      (∀ r ∈ reads twoReads s (loopEvents 4), r.2 ≠ "t") ∧
      (s.shared.tasksAhead "t").length <
        ((reads twoReads s (loopEvents 4)).filter fun r => r.1 = (s.shared.cells "t").principal).length)
    (by decide)
  exact absurd (hfair s hs hopen "t" ht _ hdue hreads) (Nat.not_le.mpr hmore)

/-- **Neither bound holds** in every state. -/
theorem observer_overtaken : ¬ TaskAuthority.PrincipalsFair twoReads ∧ ¬ TaskAuthority.TasksFair twoReads :=
  ⟨not_principalsFair, not_tasksFair⟩

end McpToolkit.Tasks

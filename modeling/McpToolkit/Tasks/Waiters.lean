import McpToolkit.Tasks.Leases

/-!
# McpToolkit.Tasks.Waiters — what a parked waiter waits for

`wait` has two loops.  The loop of `wait_observation_snapshot` checks the lease of its task each
time round and answers `TaskNotFound` once it is gone.  The main loop of `wait` checks only the
cached snapshot and the closed bit.

`Subscribed` holds of every run: a waiter that is about to park without a wake-up pending has seen
a snapshot that does not answer it, and that snapshot is still the cached one.  `Attended` needs
that no binding is removed under a waiter of the main loop.
-/

namespace McpToolkit.Tasks

open List Shared TaskAuthority
open Lib

/-! ### Snapshots change only together with a notification -/

/-- Between `sh` and `sh'` the cached snapshot changed only if the waiters were notified. -/
structure Shared.Notifies (sh sh' : Shared) (id : TaskId) : Prop where
  le : (sh.signals id).waiters ≤ (sh'.signals id).waiters
  snapshot : (sh'.signals id).waiters = (sh.signals id).waiters → sh'.snapshot id = sh.snapshot id

namespace Shared

variable {sh : Shared} {id x : TaskId} {task : DetailedTask}

theorem Notifies.of_eq {sh' : Shared} (hs : (sh'.signals x).waiters = (sh.signals x).waiters)
    (hc : sh'.snapshot x = sh.snapshot x) : sh.Notifies sh' x :=
  ⟨hs.ge, fun _ => hc⟩

theorem Notifies.congr {sh₀ sh' : Shared} (h : sh₀.Notifies sh' x)
    (hs : sh₀.signals = sh.signals) (hc : sh₀.cells = sh.cells) : sh.Notifies sh' x := by
  have hsnap : sh₀.snapshot x = sh.snapshot x := by simp only [Shared.snapshot, hc]
  exact ⟨hs ▸ h.le, fun heq => hsnap ▸ h.snapshot (hs ▸ heq)⟩

theorem bump_waiters : ((sh.bump id).signals id).waiters = (sh.signals id).waiters + 1 := by
  simp [bump, setSignal]

theorem bump_notifies : sh.Notifies (sh.bump id) x := by
  by_cases hx : x = id
  · subst hx
    have hw : ((sh.bump x).signals x).waiters = (sh.signals x).waiters + 1 := bump_waiters
    exact ⟨by omega, fun h => by omega⟩
  · exact .of_eq (by simp [bump, setSignal, Function.update_of_ne hx]) rfl

theorem observe_notifies : sh.Notifies (sh.observe id task) x := by
  unfold observe
  split
  · exact .of_eq rfl rfl
  · by_cases hx : x = id
    · subst hx
      refine ⟨?_, fun h => ?_⟩
      · simp [setSignal]
      · simp [setSignal] at h
    · refine .of_eq ?_ ?_
      · simp [setSignal, Function.update_of_ne hx]
      · simp [snapshot, setSignal, setCell, Function.update_of_ne hx]

theorem setCell_notifies {b : TaskBinding} (ht : b.task = (sh.cells id).task)
    (hr : b.revision = (sh.cells id).revision) : sh.Notifies (sh.setCell id b) x := by
  refine .of_eq rfl ?_
  by_cases hx : x = id
  · subst hx
    simp [snapshot, setCell, ht, hr]
  · simp [snapshot, setCell, Function.update_of_ne hx]

theorem setSettlement_notifies {b : Bool} : sh.Notifies (sh.setSettlement id b) x := by
  refine .of_eq ?_ rfl
  by_cases hx : x = id
  · subst hx
    simp [setSettlement, setSignal]
  · simp [setSettlement, setSignal, Function.update_of_ne hx]

theorem leaseAfterRead_notifies {gen : ℕ} : sh.Notifies (sh.leaseAfterRead id task gen) x := by
  unfold leaseAfterRead
  dsimp only
  split
  · exact setSettlement_notifies.congr rfl rfl
  · exact .of_eq rfl rfl

end Shared

section Notifies

variable {cfg : TaskAuthorityConfig} {sh sh' : Shared} {pc' : Pc} {x : TaskId}

theorem Move.Step.notifies (h : Move.Step sh sh') : sh.Notifies sh' x := by
  cases h with
  | taskHint id => exact bump_notifies
  | dropStore id => exact setSettlement_notifies.congr rfl rfl
  | dropBump id => exact bump_notifies.congr rfl rfl
  | _ => exact .of_eq rfl rfl

theorem SpawnPc.Step.notifies {p : SpawnPc} (h : SpawnPc.Step cfg sh p sh' pc')
    (hx : p.held ≠ some x) : sh.Notifies sh' x := by
  cases h with
  | publish a id initial readAt =>
    have hne : x ≠ id := fun h => hx (h ▸ rfl)
    exact .of_eq rfl (by simp [Shared.snapshot, setCell, Function.update_of_ne hne])
  | _ => exact .of_eq rfl rfl

theorem ClosePc.Step.notifies {r : Outcome} {p : ClosePc} (h : ClosePc.Step sh r p sh' pc') : sh.Notifies sh' x := by
  cases h with
  | hint remaining id => exact bump_notifies
  | hintDone id remaining => exact setCell_notifies rfl rfl
  | _ => exact .of_eq rfl rfl

theorem AccessPc.Step.notifies {k : Access} {p : AccessPc} (h : AccessPc.Step sh k p sh' pc') : sh.Notifies sh' x := by
  cases h with
  | hint id | removeHint id => exact bump_notifies
  | observe id gen task => exact observe_notifies
  | lease id gen s => exact leaseAfterRead_notifies
  | hintDone id | touch id gen s | notifyDone id s r | removeDone id => exact setCell_notifies rfl rfl
  | _ => exact .of_eq rfl rfl

theorem WaitPc.Step.notifies {a : WaitArgs} {p : WaitPc} (h : WaitPc.Step cfg sh a p sh' pc') : sh.Notifies sh' x := by
  cases h with
  | hint target => exact bump_notifies
  | _ => exact .of_eq rfl rfl

theorem ObserverPc.Step.notifies {p : ObserverPc} (h : ObserverPc.Step cfg sh p sh' pc') : sh.Notifies sh' x := by
  cases h with
  | observe sel task => exact observe_notifies
  | settle sel task signal now => exact setSettlement_notifies
  | evictHint sel => exact bump_notifies
  | touch sel task | touchAbsent sel | notifyDone sel | evictDone sel => exact setCell_notifies rfl rfl
  | _ => exact .of_eq rfl rfl

end Notifies

/-! ### Subscriptions -/

/-- The notification count that the main loop subscribed at. -/
def WaitPc.seen : WaitPc → Option ℕ
  | .check _ seen | .closedCheck _ seen | .park _ seen => some seen
  | _ => none

/-- The baseline and the count of a waiter whose snapshot check failed. -/
def WaitPc.unanswered : WaitPc → Option (ℕ × ℕ)
  | .closedCheck baseline seen | .park baseline seen => some (baseline, seen)
  | _ => none

structure Subscribed (sh : Shared) (calls : List Pc) : Prop where
  seen : ∀ a p, Pc.wait a p ∈ calls → ∀ n, p.seen = some n → n ≤ (sh.signals a.id).waiters
  unanswered : ∀ a p, Pc.wait a p ∈ calls → ∀ baseline n, p.unanswered = some (baseline, n) →
    (sh.signals a.id).waiters = n → waitConditionReady a.condition baseline (sh.snapshot a.id) = false

namespace Subscribed

variable {sh sh' : Shared} {pc pc' : Pc} {rest : List Pc}

theorem perm {l l' : List Pc} (h : l.Perm l') (hs : Subscribed sh l) : Subscribed sh l' where
  seen a p hp := hs.seen a p (h.mem_iff.mpr hp)
  unanswered a p hp := hs.unanswered a p (h.mem_iff.mpr hp)

theorem mono {l : List Pc} (hs : Subscribed sh l)
    (hn : ∀ a p, Pc.wait a p ∈ l → p.seen.isSome = true → sh.Notifies sh' a.id) : Subscribed sh' l where
  seen a p hp n hpn := by
    have hnot := hn a p hp (by rw [hpn]; rfl)
    exact (hs.seen a p hp n hpn).trans hnot.le
  unanswered a p hp baseline n hpn heq := by
    have hseen : p.seen = some n := by cases p <;> cases hpn <;> rfl
    have hnot := hn a p hp (by rw [hseen]; rfl)
    have hle := hs.seen a p hp n hseen
    have hsame : (sh.signals a.id).waiters = n := le_antisymm (heq ▸ hnot.le) hle
    rw [hnot.snapshot (heq.trans hsame.symm)]
    exact hs.unanswered a p hp baseline n hpn hsame

theorem tail (hs : Subscribed sh (pc :: rest)) : Subscribed sh rest where
  seen a p hp := hs.seen a p (mem_cons_of_mem _ hp)
  unanswered a p hp := hs.unanswered a p (mem_cons_of_mem _ hp)

theorem cons (hs : Subscribed sh rest) (hpc : ∀ a p, pc = .wait a p → p.seen = none) : Subscribed sh (pc :: rest) where
  seen a p hp n hpn := by
    rcases mem_cons.mp hp with rfl | hp
    · rw [hpc a p rfl] at hpn; cases hpn
    · exact hs.seen a p hp n hpn
  unanswered a p hp baseline n hpn := by
    rcases mem_cons.mp hp with rfl | hp
    · have hnone := hpc a p rfl
      cases p <;> cases hpn <;> cases hnone
    · exact hs.unanswered a p hp baseline n hpn

end Subscribed

variable {cfg : TaskAuthorityConfig}

theorem WaitPc.Step.subscribed {sh sh' : Shared} {a : WaitArgs}
    {p : WaitPc} {pc' : Pc} {rest : List Pc} (h : WaitPc.Step cfg sh a p sh' pc')
    (hs : Subscribed sh (.wait a p :: rest)) : Subscribed sh' (pc' :: rest) := by
  have hrest : Subscribed sh' rest := hs.tail.mono fun _ _ _ _ => h.notifies
  have hself := hs.seen a p mem_cons_self
  have hun := hs.unanswered a p mem_cons_self
  cases h with
  | subscribe baseline =>
    refine ⟨fun b q hq n hqn => ?_, fun b q hq c n hqn => ?_⟩
    · rcases mem_cons.mp hq with hq | hq
      · cases hq; cases hqn; exact le_rfl
      · exact hrest.seen b q hq n hqn
    · rcases mem_cons.mp hq with hq | hq
      · cases hq; cases hqn
      · exact hrest.unanswered b q hq c n hqn
  | pending baseline seen hnot =>
    refine ⟨fun b q hq n hqn => ?_, fun b q hq c n hqn => ?_⟩
    · rcases mem_cons.mp hq with hq | hq
      · cases hq; exact hself n hqn
      · exact hrest.seen b q hq n hqn
    · rcases mem_cons.mp hq with hq | hq
      · cases hq; cases hqn; exact fun _ => hnot
      · exact hrest.unanswered b q hq c n hqn
  | park baseline seen ho =>
    refine ⟨fun b q hq n hqn => ?_, fun b q hq c n hqn => ?_⟩
    · rcases mem_cons.mp hq with hq | hq
      · cases hq; exact hself n hqn
      · exact hrest.seen b q hq n hqn
    · rcases mem_cons.mp hq with hq | hq
      · cases hq; exact hun c n hqn
      · exact hrest.unanswered b q hq c n hqn
  | _ =>
    refine hrest.cons fun b q hq => ?_
    cases hq <;> rfl

theorem subscribed_inductive (cfg : TaskAuthorityConfig) : Inductive cfg noGuard Grounded Subscribed where
  init := by constructor <;> simp
  perm := Subscribed.perm
  env hm _ hs := hs.mono fun _ _ _ _ => hm.notifies
  enter c _ hs := hs.cons fun a p hc => by cases c <;> cases hc; rfl
  spawn h hg hs := by
    refine Subscribed.cons (hs.tail.mono fun a p hp hseen => h.notifies fun hheld => ?_) ?_
    · have hacc : (Pc.wait a p).accessed = some a.id := by cases p <;> first | rfl | cases hseen
      exact (hg.accessed _ (mem_cons_of_mem _ hp) _ hacc).2
        (mem_filterMap.mpr ⟨_, mem_cons_self, hheld⟩)
    · rintro a p rfl; cases h
  closing h _ hs := by
    refine (hs.tail.mono fun _ _ _ _ => h.notifies).cons ?_
    rintro a p rfl; cases h
  access h _ _ hs := by
    refine (hs.tail.mono fun _ _ _ _ => h.notifies).cons ?_
    rintro a p rfl; cases h
  wait h _ hs := h.subscribed hs
  observer h _ _ hs := by
    refine (hs.tail.mono fun _ _ _ _ => h.notifies).cons ?_
    rintro a p rfl; cases h

theorem subscribed {G : Machine.Guard Shared Pc Input}
    {s : Pool Shared Pc} (h : (machine cfg).Run G new s) : Subscribed s.shared s.calls :=
  (subscribed_inductive cfg).holds (fun _ h => h) Grounded.perm (fun _ => grounded) h.reaches

/-! ### The main loop and removals -/

/-- Past its last look at the lease: only snapshots, the closed bit and notifications follow. -/
def WaitPc.inLoop : WaitPc → Bool
  | .cachedSnapshot | .observedSnapshot | .initial _ | .subscribe _ | .check _ _
  | .closedCheck _ _ | .park _ _ => true
  | _ => false

def Pc.loopsOn (id : TaskId) : Pc → Bool
  | .wait a p => decide (a.id = id) && p.inLoop
  | _ => false

/-- The call has removed the binding and is about to notify its waiters. -/
def Pc.willHint (id : TaskId) : Pc → Bool
  | .closing (.hint remaining) _ | .closing (.hintDone _ remaining) _ => decide (id ∈ remaining)
  | .access _ (.removeHint x) => decide (x = id)
  | .observer (.evictHint sel) => decide (sel.id = id)
  | _ => false

/-- The section does not remove a published binding of an open authority while a waiter is in its
main loop on it. -/
def sparesWaited (sh : Shared) (calls : List Pc) (pc : Pc) (_ : Input) : Bool :=
  match pc with
  | .access _ (.remove id) =>
    sh.closed || decide (id ∉ sh.state.bindings) || calls.all fun c => !c.loopsOn id
  | .observer (.evict sel) =>
    sh.closed || decide (sel.id ∉ sh.state.bindings) || calls.all fun c => !c.loopsOn sel.id
  | _ => true

structure Attended (sh : Shared) (calls : List Pc) : Prop where
  looping : ∀ id, ∀ pc ∈ calls, pc.loopsOn id = true → sh.closed = true ∨ id ∈ sh.state.bindings
  parked : ∀ a baseline n, Pc.wait a (.park baseline n) ∈ calls →
    a.id ∈ sh.state.bindings ∨ (sh.signals a.id).waiters ≠ n ∨ ∃ pc ∈ calls, pc.willHint a.id = true

/-- A section that removes a binding takes on the notification, and nobody loops on the binding
unless the authority is closed. -/
structure Announces (sh : Shared) (pc : Pc) (sh' : Shared) (pc' : Pc) (rest : List Pc) : Prop where
  closed : sh.closed = true → sh'.closed = true
  waiters : ∀ id, (sh.signals id).waiters ≤ (sh'.signals id).waiters
  bindings : ∀ id ∈ sh.state.bindings, id ∈ sh'.state.bindings ∨ pc'.willHint id = true ∧
    (sh'.closed = true ∨ ∀ c ∈ rest, c.loopsOn id = false)
  hints : ∀ id, pc.willHint id = true → pc'.willHint id = true ∨
    (sh.signals id).waiters < (sh'.signals id).waiters

namespace Attended

variable {sh sh' : Shared} {pc pc' : Pc} {rest : List Pc}

theorem perm {l l' : List Pc} (h : l.Perm l') (ha : Attended sh l) : Attended sh l' where
  looping id pc hpc := ha.looping id pc (h.mem_iff.mpr hpc)
  parked a baseline n hp := (ha.parked a baseline n (h.mem_iff.mpr hp)).imp_right
    (Or.imp_right fun ⟨pc, hpc, hh⟩ => ⟨pc, h.mem_iff.mp hpc, hh⟩)

/-- The other calls of an announcing section. -/
theorem announce (ha : Attended sh (pc :: rest)) (hs : Subscribed sh (pc :: rest)) (han : Announces sh pc sh' pc' rest)
    (hself : ∀ id, pc'.loopsOn id = true → sh'.closed = true ∨ id ∈ sh'.state.bindings)
    (hpark : ∀ a baseline n, pc' = .wait a (.park baseline n) → a.id ∈ sh'.state.bindings) :
    Attended sh' (pc' :: rest) where
  looping id c hc hl := by
    rcases mem_cons.mp hc with rfl | hc
    · exact hself id hl
    · rcases ha.looping id c (mem_cons_of_mem _ hc) hl with hcl | hid
      · exact .inl (han.closed hcl)
      · rcases han.bindings id hid with hid | ⟨-, hcl | hno⟩
        · exact .inr hid
        · exact .inl hcl
        · rw [hno c hc] at hl; cases hl
  parked a baseline n hp := by
    rcases mem_cons.mp hp with hp | hp
    · exact .inl (hpark a baseline n hp.symm)
    · have hseen := hs.seen a _ (mem_cons_of_mem _ hp) n rfl
      have hmono := han.waiters a.id
      rcases ha.parked a baseline n (mem_cons_of_mem _ hp) with hid | hne | ⟨c, hc, hh⟩
      · rcases han.bindings a.id hid with hid | ⟨hh, -⟩
        · exact .inl hid
        · exact .inr (.inr ⟨pc', mem_cons_self, hh⟩)
      · exact .inr (.inl (by omega))
      · rcases mem_cons.mp hc with rfl | hc
        · rcases han.hints a.id hh with hh | hlt
          · exact .inr (.inr ⟨pc', mem_cons_self, hh⟩)
          · exact .inr (.inl (by omega))
        · exact .inr (.inr ⟨c, mem_cons_of_mem _ hc, hh⟩)

end Attended

section Sections

variable {cfg : TaskAuthorityConfig} {sh sh' : Shared} {pc' : Pc} {rest : List Pc}

theorem SpawnPc.Step.announces {p : SpawnPc} (h : SpawnPc.Step cfg sh p sh' pc') :
    Announces sh (.spawn p) sh' pc' rest where
  closed hc := by cases h <;> first | exact hc | rfl
  waiters id := by cases h <;> exact le_rfl
  bindings id hid := by
    cases h with
    | publish a x initial readAt ho hn => exact .inl (Finset.mem_insert_of_mem hid)
    | _ => exact .inl hid
  hints id hh := by cases hh

theorem ClosePc.Step.announces {r : Outcome} {p : ClosePc} (h : ClosePc.Step sh r p sh' pc')
    (hg : Grounded sh (.closing p r :: rest)) : Announces sh (.closing p r) sh' pc' rest where
  closed := h.quiet.closed
  waiters id := h.notifies.le
  bindings id hid := by
    cases h with
    | drain => exact .inr ⟨decide_eq_true hid, .inl (hg.closing _ mem_cons_self rfl)⟩
    | _ => exact .inl hid
  hints id hh := by
    cases h with
    | hint remaining x hx =>
      have hid : id ∈ remaining := of_decide_eq_true hh
      by_cases hidx : id = x
      · subst hidx
        exact .inr (bump_waiters ▸ Nat.lt_succ_self _)
      · exact .inl (decide_eq_true (Finset.mem_erase.mpr ⟨hidx, hid⟩))
    | hintDone x remaining => exact .inl hh
    | finish => simp [Pc.willHint] at hh
    | _ => cases hh

theorem not_loopsOn_of_spares {id : TaskId} {pc : Pc} (h : (sh.closed || decide (id ∉ sh.state.bindings) ||
      (pc :: rest).all fun c => !c.loopsOn id) = true) (hid : id ∈ sh.state.bindings) :
    sh.closed = true ∨ ∀ c ∈ rest, c.loopsOn id = false := by
  simp only [Bool.or_eq_true, decide_eq_true_eq, all_eq_true, Bool.not_eq_true'] at h
  rcases h with (h | h) | h
  · exact .inl h
  · exact absurd hid h
  · exact .inr fun c hc => h c (mem_cons_of_mem _ hc)

theorem AccessPc.Step.announces {k : Access} {p : AccessPc} {inp : Input} (h : AccessPc.Step sh k p sh' pc')
    (hG : sparesWaited sh (.access k p :: rest) (.access k p) inp = true) :
    Announces sh (.access k p) sh' pc' rest where
  closed := h.quiet.closed
  waiters id := h.notifies.le
  bindings id hid := by
    cases h with
    | remove x hx =>
      by_cases hne : id = x
      · subst hne
        have hno : sh.closed = true ∨ ∀ c ∈ rest, c.loopsOn id = false := not_loopsOn_of_spares hG hx
        exact .inr ⟨decide_eq_true rfl, hno⟩
      · exact .inl (Finset.mem_erase.mpr ⟨hne, hid⟩)
    | removeUnpublished x hx =>
      exact .inl (Finset.mem_erase.mpr ⟨fun h => hx (h ▸ hid), hid⟩)
    | _ => simp_all [leaseAfterRead_state]
  hints id hh := by
    cases h with
    | removeHint x =>
      obtain rfl : x = id := of_decide_eq_true hh
      exact .inr (bump_waiters ▸ Nat.lt_succ_self _)
    | _ => cases hh

theorem ObserverPc.Step.announces {p : ObserverPc} {inp : Input} (h : ObserverPc.Step cfg sh p sh' pc')
    (hG : sparesWaited sh (.observer p :: rest) (.observer p) inp = true) :
    Announces sh (.observer p) sh' pc' rest where
  closed := h.quiet.closed
  waiters id := h.notifies.le
  bindings id hid := by
    cases h with
    | evict sel =>
      by_cases hne : id = sel.id
      · subst hne
        have hno : sh.closed = true ∨ ∀ c ∈ rest, c.loopsOn sel.id = false :=
          not_loopsOn_of_spares hG hid
        exact .inr ⟨decide_eq_true rfl, hno⟩
      · exact .inl (Finset.mem_erase.mpr ⟨hne, hid⟩)
    | _ => simp_all [Shared.coalesce]
  hints id hh := by
    cases h with
    | evictHint sel =>
      obtain rfl : sel.id = id := of_decide_eq_true hh
      exact .inr (bump_waiters ▸ Nat.lt_succ_self _)
    | _ => cases hh

theorem WaitPc.Step.announces {a : WaitArgs} {p : WaitPc} (h : WaitPc.Step cfg sh a p sh' pc') :
    Announces sh (.wait a p) sh' pc' rest where
  closed := h.quiet.closed
  waiters id := h.notifies.le
  bindings id hid := by cases h <;> exact .inl hid
  hints id hh := by cases hh

theorem WaitPc.Step.attended {a : WaitArgs} {p : WaitPc} (h : WaitPc.Step cfg sh a p sh' pc')
    (hg : Grounded sh (.wait a p :: rest)) (hl : Leased sh (.wait a p :: rest))
    (hs : Subscribed sh (.wait a p :: rest)) (ha : Attended sh (.wait a p :: rest)) : Attended sh' (pc' :: rest) := by
  have hself := ha.looping a.id _ mem_cons_self
  have hlease : p.accessed a = some a.id → a.id ∈ sh.state.leases →
      sh.closed = true ∨ a.id ∈ sh.state.bindings := by
    intro hacc hid
    cases ho : sh.closed with
    | true => exact .inl rfl
    | false => exact .inr (hl.published hg ho mem_cons_self hacc hid)
  refine ha.announce hs h.announces ?_ ?_
  · intro id hloop
    have hid : pc'.loopsOn id = true → pc'.loopsOn a.id = true ∧ id = a.id := by
      cases h <;> simp +contextual [Pc.loopsOn, WaitPc.inLoop, eq_comm]
    obtain ⟨-, rfl⟩ := hid hloop
    cases h with
    | cleanRead hclean =>
      refine hlease rfl ?_
      unfold Shared.cleanRead at hclean
      split at hclean
      · cases hclean
      · exact Finmap.mem_of_lookup_eq_some ‹_›
    | leaseFresh target seen hmem => exact hlease rfl hmem
    | _ => simp_all [Pc.loopsOn, WaitPc.inLoop]
  · intro b baseline n hpark
    cases h <;> cases hpark
    exact (hself (by simp [Pc.loopsOn, WaitPc.inLoop])).resolve_left (by simp_all)

end Sections

theorem attended_inductive (cfg : TaskAuthorityConfig) :
    Inductive cfg (fun sh l pc inp => sparesWaited sh l pc inp = true)
      (fun sh l => Grounded sh l ∧ Leased sh l ∧ Subscribed sh l) Attended where
  init := by constructor <;> simp [Pc.loopsOn]
  perm := Attended.perm
  env hm hJ ha := by
    obtain ⟨-, hst, hcl, -, -⟩ := hm.frame
    refine ⟨?_, fun a baseline n hp => ?_⟩
    · rw [hst, hcl]; exact ha.looping
    · rw [hst]
      refine (ha.parked a baseline n hp).imp_right (Or.imp_left fun hne => ?_)
      have hle := (hm.notifies (x := a.id)).le
      have hseen := hJ.2.2.seen a _ hp n rfl
      omega
  enter c hJ ha := by
    have hloop : ∀ id, c.enter.loopsOn id = false := by
      intro id; cases c <;> simp [Call.enter, Pc.loopsOn, WaitPc.inLoop]
    refine ⟨fun id pc hpc hl => ?_, fun a baseline n hp => ?_⟩
    · rcases mem_cons.mp hpc with rfl | hpc
      · rw [hloop id] at hl; cases hl
      · exact ha.looping id pc hpc hl
    · rcases mem_cons.mp hp with hp | hp
      · cases c <;> cases hp
      · refine (ha.parked a baseline n hp).imp_right (Or.imp_right ?_)
        rintro ⟨pc, hpc, hh⟩
        exact ⟨pc, mem_cons_of_mem _ hpc, hh⟩
  spawn h hJ ha := by
    refine ha.announce hJ.2.2 h.announces (fun id hl => ?_) (fun a b n hp => ?_)
    · cases h <;> cases hl
    · subst hp; cases h
  closing h hJ ha := by
    refine ha.announce hJ.2.2 (h.announces hJ.1) (fun id hl => ?_) (fun a b n hp => ?_)
    · cases h <;> cases hl
    · subst hp; cases h
  access h hG hJ ha := by
    refine ha.announce hJ.2.2 (h.announces hG) (fun id hl => ?_) (fun a b n hp => ?_)
    · cases h <;> cases hl
    · subst hp; cases h
  wait h hJ ha := h.attended hJ.1 hJ.2.1 hJ.2.2 ha
  observer h hG hJ ha := by
    refine ha.announce hJ.2.2 (h.announces hG) (fun id hl => ?_) (fun a b n hp => ?_)
    · cases h <;> cases hl
    · subst hp; cases h

theorem attended {s : Pool Shared Pc}
    (h : (machine cfg).Run (fun sh l pc inp => sparesWaited sh l pc inp = true)
      new s) : Attended s.shared s.calls := by
  refine (attended_inductive cfg).holds ?_ ?_ ?_ h
  · intro sh l l' pc inp hp hG
    have hall : ∀ id, (l'.all fun c => !c.loopsOn id) = l.all fun c => !c.loopsOn id :=
      fun id => (hp.all_eq).symm
    unfold sparesWaited at hG ⊢
    simpa only [hall] using hG
  · exact fun hp hJ => ⟨hJ.1.perm hp, hJ.2.1.perm hp, hJ.2.2.perm hp⟩
  · exact fun s hs => ⟨grounded hs, leased hs, subscribed hs⟩

/-- **A parked waiter waits on a published binding**, in every run in which no binding of an open
authority is removed under a waiter of the main loop: a waiter parked with no notification
delivered or due has its binding published.  A waiter whose binding is gone from an open authority
is still in front of its lease check, and that check leads it to `TaskNotFound`. -/
theorem parked_waiter_published (cfg : TaskAuthorityConfig) (s : Pool Shared Pc)
    (h : (machine cfg).Run (fun sh l pc inp => sparesWaited sh l pc inp = true) new s) :
    (∀ a baseline seen, .wait a (.park baseline seen) ∈ s.calls →
      (s.shared.signals a.id).waiters = seen → (∀ pc ∈ s.calls, pc.willHint a.id = false) →
      a.id ∈ s.shared.state.bindings) ∧
    (s.shared.closed = false → ∀ a p, .wait a p ∈ s.calls → a.id ∉ s.shared.state.bindings → p.inLoop = false ∧
      (∀ target seen, p = .checkLease target seen →
        p.advance cfg s.shared a .go = some (s.shared, .wait a .leaseGone)) ∧ (p = .leaseGone →
        p.advance cfg s.shared a .go = some (s.shared, .wait a (.release (.err .taskNotFound))))) := by
  have ha := attended h
  refine ⟨fun a baseline seen hp hw hno => ?_, fun ho a p hp hid => ⟨?_, ?_, ?_⟩⟩
  · rcases ha.parked a baseline seen hp with hb | hne | ⟨pc, hpc, hh⟩
    · exact hb
    · exact absurd hw hne
    · rw [hno pc hpc] at hh; cases hh
  · by_contra hloop
    rcases ha.looping a.id _ hp (by simpa [Pc.loopsOn] using hloop) with hc | hb
    · rw [ho] at hc; cases hc
    · exact hid hb
  · rintro target seen rfl
    have hlease : a.id ∉ s.shared.state.leases :=
      fun hl => hid ((leased h).published (grounded h) ho hp rfl hl)
    simp [WaitPc.advance, Finmap.lookup_eq_none.mpr hlease]
  · rintro rfl
    simp [WaitPc.advance, ho]

/-- A spawn and a waiter that parks on its task. -/
def parkEvents (a : WaitArgs) : List (Event Move Call Input) :=
  spawnEvents 1 ⟨a.principal, none⟩ a.id ⟨.working, ""⟩ 12 ++
    .enter (.wait a) :: (List.replicate 10 Input.go).map (Event.advance 2)

theorem parked_waiter_published_of_spawn : ∃ s, (machine ⟨1, 1, 1, by decide, by decide, by decide⟩).Run
        (fun sh l pc inp => sparesWaited sh l pc inp = true) new s ∧
      Pc.wait ⟨default, "t", none, .terminal⟩ (.park 1 0) ∈ s.calls ∧ "t" ∈ s.shared.state.bindings := by
  obtain ⟨s, hs, hp⟩ := (machine ⟨1, 1, 1, by decide, by decide, by decide⟩).exists_run_of_exec
    new (parkEvents ⟨default, "t", none, .terminal⟩) sparesWaited
    (p := fun s => Pc.wait ⟨default, "t", none, .terminal⟩ (.park 1 0) ∈ s.calls ∧
      (s.shared.signals "t").waiters = 0 ∧ ∀ pc ∈ s.calls, pc.willHint "t" = false)
    (by decide)
  exact ⟨s, hs, hp.1, (parked_waiter_published _ s hs).1 _ 1 0 hp.1 hp.2.1 hp.2.2⟩

/-- RMCP evicts the task, a get removes its binding and wakes the waiter, and the waiter finds the
same cached snapshot and parks again: the authority is open, the binding is gone, and nobody is
left to notify the waiter. -/
theorem waiter_parks_on_removed_binding :
    ∃ s, (machine ⟨1, 1, 1, by decide, by decide, by decide⟩).Reaches new s ∧
      Pc.wait ⟨default, "t", none, .terminal⟩ (.park 1 1) ∈ s.calls ∧
      (s.shared.signals "t").waiters = 1 ∧ (∀ pc ∈ s.calls, pc.willHint "t" = false) ∧
      s.shared.closed = false ∧ "t" ∉ s.shared.state.bindings ∧ Pc.returned (.err .taskNotFound) ∈ s.calls :=
  Machine.exists_reaches_of_exec _ _
    (parkEvents ⟨default, "t", none, .terminal⟩ ++
      [.env (.evict "t"), .enter (.access .get default "t")] ++
      (List.replicate 8 Input.go).map (Event.advance 3) ++
      [Input.woken, .go, .go, .go].map (Event.advance 2)) (by decide)

end McpToolkit.Tasks

import McpToolkit.Lib.System
import McpToolkit.Lib.Table

/-!
# McpToolkit.Policy.CapabilityGuard — cached capability checks

`capability_guard.rs`.  Instants and durations are numbers of nanoseconds.  A call works under the
mutex, so the calls of all threads are one sequence; it reads the clock up to three times.

A run numbers the calls of `begin_refresh`: the validation that follows a call is its flight, and the
caller that completes a refresh knows which flight it is, though the guard is not told.  The run also
keeps which flights were overtaken by an invalidation of their capability, and which capabilities
were renewed since their last invalidation: the last success reported for them came from
`record_success`, or from a flight that began after it, and not from a flight that was overtaken.
-/

namespace McpToolkit.Policy

open Finmap
open Lib

def inflightRefreshTtl : ℕ := 5000000000

inductive CapabilityRefreshState
  | freshSuccess
  | startRefresh
  | refreshInFlight
  deriving DecidableEq

structure GuardState (K : Type) where
  verified : Finmap fun _ : K => ℕ
  inFlight : Finmap fun _ : K => ℕ

structure CapabilityGuard (K : Type) where
  ttl : ℕ
  maxEntries : ℕ
  state : GuardState K

/-- What a call reads from the clock: when it prunes the two maps, and when it stores an entry. -/
structure Readings where
  verified : ℕ
  inFlight : ℕ
  stored : ℕ
  deriving DecidableEq

section Guard

variable {K : Type}

def pruneExpired (map : Finmap fun _ : K => ℕ) (ttl now : ℕ) : Finmap fun _ : K => ℕ :=
  if ttl = 0 then ∅ else Table.retain (fun _ recordedAt => now - recordedAt ≤ ttl) map

def CapabilityGuard.new (ttl maxEntries : ℕ) : CapabilityGuard K := ⟨ttl, max maxEntries 1, ⟨∅, ∅⟩⟩

/-- The two prunings that most calls start with. -/
def CapabilityGuard.prune (guard : CapabilityGuard K) (clock : Readings) : CapabilityGuard K :=
  { guard with
    state := ⟨pruneExpired guard.state.verified guard.ttl clock.verified,
      pruneExpired guard.state.inFlight inflightRefreshTtl clock.inFlight⟩ }

variable [DecidableEq K]

def recordVerified (verified : Finmap fun _ : K => ℕ) (capability : K) (maxEntries now : ℕ) :
    Finmap fun _ : K => ℕ :=
  if capability ∉ verified ∧ maxEntries ≤ verified.keys.card then verified
  else verified.insert capability now

namespace CapabilityGuard

def hasFreshSuccess (guard : CapabilityGuard K) (capability : K) (clock : Readings) :
    Bool × CapabilityGuard K :=
  let guard := guard.prune clock
  (decide (capability ∈ guard.state.verified), guard)

def beginRefresh (guard : CapabilityGuard K) (capability : K) (clock : Readings) :
    CapabilityRefreshState × CapabilityGuard K :=
  let guard := guard.prune clock
  if capability ∈ guard.state.verified then (.freshSuccess, guard)
  else if capability ∈ guard.state.inFlight then (.refreshInFlight, guard)
  else
    (.startRefresh,
      { guard with
        state := { guard.state with inFlight := guard.state.inFlight.insert capability clock.stored } })

def completeRefresh (guard : CapabilityGuard K) (capability : K) (verifiedSuccess : Bool)
    (clock : Readings) : CapabilityGuard K :=
  let guard := guard.prune clock
  let inFlight := guard.state.inFlight.erase capability
  if verifiedSuccess then
    { guard with
      state := ⟨recordVerified guard.state.verified capability guard.maxEntries clock.stored, inFlight⟩ }
  else { guard with state := { guard.state with inFlight } }

def invalidate (guard : CapabilityGuard K) (capability : K) : CapabilityGuard K :=
  { guard with state := { guard.state with verified := guard.state.verified.erase capability } }

/-- This call leaves the refreshes in flight as they are. -/
def recordSuccess (guard : CapabilityGuard K) (capability : K) (clock : Readings) : CapabilityGuard K :=
  let verified := pruneExpired guard.state.verified guard.ttl clock.verified
  { guard with
    state := { guard.state with
      verified := recordVerified verified capability guard.maxEntries clock.stored } }

end CapabilityGuard

end Guard

/-! ### Runs -/

inductive GuardCall (K : Type)
  | hasFreshSuccess (capability : K) (clock : Readings)
  | beginRefresh (capability : K) (clock : Readings)
  /-- The validation that began with this call of `begin_refresh` is over. -/
  | completeRefresh (flight : ℕ) (verifiedSuccess : Bool) (clock : Readings)
  | invalidate (capability : K)
  | recordSuccess (capability : K) (clock : Readings)
  deriving DecidableEq

/-- A validation, and whether its capability was invalidated since it began. -/
structure Flight (K : Type) where
  capability : K
  overtaken : Bool
  deriving DecidableEq

structure GuardRun (K : Type) where
  guard : CapabilityGuard K
  flights : List (Flight K)
  renewed : Finset K
  clock : ℕ

def GuardRun.start (K : Type) (ttl maxEntries : ℕ) : GuardRun K := ⟨.new ttl maxEntries, [], ∅, 0⟩

/-- The readings of one call come after those of the calls before it, and in their order. -/
def GuardRun.Ticks {K : Type} (run : GuardRun K) (clock : Readings) : Prop :=
  run.clock ≤ clock.verified ∧ clock.verified ≤ clock.inFlight ∧ clock.inFlight ≤ clock.stored

instance {K : Type} (run : GuardRun K) (clock : Readings) : Decidable (run.Ticks clock) :=
  inferInstanceAs (Decidable (_ ∧ _ ∧ _))

theorem GuardRun.Ticks.le_stored {K : Type} {run : GuardRun K} {clock : Readings} (h : run.Ticks clock) :
    run.clock ≤ clock.stored :=
  h.1.trans (h.2.1.trans h.2.2)

section Runs

variable {K : Type} [DecidableEq K]

def Flight.overtake (capability : K) (flight : Flight K) : Flight K :=
  if flight.capability = capability then { flight with overtaken := true } else flight

def guardCalls (K : Type) [DecidableEq K] : System (GuardRun K) (GuardCall K) where
  step run call :=
    match call with
    | .hasFreshSuccess capability clock =>
      if run.Ticks clock then
        some { run with guard := (run.guard.hasFreshSuccess capability clock).2, clock := clock.stored }
      else none
    | .beginRefresh capability clock =>
      if run.Ticks clock then
        some { run with
          guard := (run.guard.beginRefresh capability clock).2
          flights := run.flights ++ [⟨capability, false⟩]
          clock := clock.stored }
      else none
    | .completeRefresh flight verifiedSuccess clock =>
      match run.flights[flight]? with
      | none => none
      | some flight =>
        if run.Ticks clock then
          some { run with
            guard := run.guard.completeRefresh flight.capability verifiedSuccess clock
            renewed :=
              if verifiedSuccess = false then run.renewed
              else if flight.overtaken then run.renewed.erase flight.capability
              else insert flight.capability run.renewed
            clock := clock.stored }
        else none
    | .invalidate capability =>
      some { run with
        guard := run.guard.invalidate capability
        flights := run.flights.map (Flight.overtake capability)
        renewed := run.renewed.erase capability }
    | .recordSuccess capability clock =>
      if run.Ticks clock then
        some { run with
          guard := run.guard.recordSuccess capability clock
          renewed := insert capability run.renewed
          clock := clock.stored }
      else none

/-- From here on, a capability that was not renewed since its last invalidation counts as fresh for
no call: neither before it is validated anew, nor by the result of a flight that was overtaken. -/
def InvalidationFinal (run : GuardRun K) : Prop :=
  ∀ capability ∉ run.renewed, ∀ clock, run.Ticks clock →
    (run.guard.hasFreshSuccess capability clock).1 = false ∧
      (run.guard.beginRefresh capability clock).1 ≠ .freshSuccess

/-! ### What counts as fresh -/

variable {capability : K} {guard : CapabilityGuard K} {clock : Readings} {now : ℕ} {run : GuardRun K}
  {guard' : CapabilityGuard K}

theorem lookup_pruneExpired {map : Finmap fun _ : K => ℕ} {ttl since : ℕ} :
    (pruneExpired map ttl now).lookup capability = some since ↔
      ttl ≠ 0 ∧ map.lookup capability = some since ∧ now - since ≤ ttl := by
  unfold pruneExpired
  by_cases hzero : ttl = 0
  · rw [if_pos hzero]
    exact iff_of_false (by simp) fun h => h.1 hzero
  · rw [if_neg hzero, Table.lookup_retain_eq_some, decide_eq_true_iff]
    exact (and_iff_right hzero).symm

/-- The capability has an entry that a pruning at this instant leaves. -/
def Live (guard : CapabilityGuard K) (now : ℕ) (capability : K) : Prop :=
  capability ∈ pruneExpired guard.state.verified guard.ttl now

theorem live_iff : Live guard now capability ↔
      ∃ since, guard.ttl ≠ 0 ∧ guard.state.verified.lookup capability = some since ∧ now - since ≤ guard.ttl := by
  rw [Live, mem_iff]
  exact exists_congr fun since => lookup_pruneExpired

theorem Live.anti {later : ℕ} (hle : now ≤ later) (h : Live guard later capability) : Live guard now capability := by
  obtain ⟨since, hzero, hlook, hage⟩ := live_iff.mp h
  exact live_iff.mpr ⟨since, hzero, hlook, by omega⟩

theorem hasFreshSuccess_eq_true :
    (guard.hasFreshSuccess capability clock).1 = true ↔ Live guard clock.verified capability :=
  decide_eq_true_iff

theorem beginRefresh_eq_freshSuccess :
    (guard.beginRefresh capability clock).1 = .freshSuccess ↔ Live guard clock.verified capability := by
  unfold CapabilityGuard.beginRefresh
  by_cases hfresh : capability ∈ (guard.prune clock).state.verified
  · rw [if_pos hfresh]
    exact iff_of_true rfl hfresh
  · rw [if_neg hfresh]
    refine iff_of_false ?_ hfresh
    split_ifs <;> simp

theorem invalidationFinal_iff :
    InvalidationFinal run ↔ ∀ capability, Live run.guard run.clock capability → capability ∈ run.renewed := by
  constructor
  · intro h capability hlive
    by_contra hnew
    have hasked := (h capability hnew ⟨run.clock, run.clock, run.clock⟩ ⟨le_rfl, le_rfl, le_rfl⟩).1
    have hfresh : (run.guard.hasFreshSuccess capability ⟨run.clock, run.clock, run.clock⟩).1 = true :=
      hasFreshSuccess_eq_true.mpr hlive
    exact absurd (hfresh.symm.trans hasked) (by simp)
  · intro h capability hnew clock hticks
    have hold : ¬Live run.guard clock.verified capability := fun hlive => hnew (h _ (hlive.anti hticks.1))
    exact ⟨Bool.eq_false_iff.mpr fun hfresh => hold (hasFreshSuccess_eq_true.mp hfresh),
      fun hfresh => hold (beginRefresh_eq_freshSuccess.mp hfresh)⟩

/-! ### One call -/

/-- A validation result can be stored: entries live for some time, and the capability has an entry or
there is room for one. -/
def Recordable (guard : CapabilityGuard K) (capability : K) (now : ℕ) : Prop :=
  guard.ttl ≠ 0 ∧
    (Live guard now capability ∨
      (pruneExpired guard.state.verified guard.ttl now).keys.card < guard.maxEntries)

/-- A call keeps the law: it does not complete, with success and a result that can be stored, a
flight that was overtaken. -/
def KeepsFinality (run : GuardRun K) : GuardCall K → Prop
  | .completeRefresh i verifiedSuccess clock =>
    ∀ flight ∈ run.flights[i]?, verifiedSuccess = true → flight.overtaken = true →
      ¬Recordable run.guard flight.capability clock.verified
  | _ => True

theorem Live.of_lookup {now' : ℕ}
    (h : Live guard' now' capability) (httl : guard'.ttl = guard.ttl) (hclock : now ≤ now')
    (hlook : ∀ since, guard'.state.verified.lookup capability = some since →
      guard.state.verified.lookup capability = some since) : Live guard now capability := by
  obtain ⟨since, hzero, hsince, hage⟩ := live_iff.mp h
  rw [httl] at hzero hage
  exact live_iff.mpr ⟨since, hzero, hlook since hsince, by omega⟩

theorem lookup_of_lookup_prune {since : ℕ} (h : (guard.prune clock).state.verified.lookup capability = some since) :
    guard.state.verified.lookup capability = some since :=
  (lookup_pruneExpired.mp h).2.1

theorem beginRefresh_verified (guard : CapabilityGuard K) (capability : K) (clock : Readings) :
    (guard.beginRefresh capability clock).2.ttl = guard.ttl ∧
      (guard.beginRefresh capability clock).2.state.verified = (guard.prune clock).state.verified := by
  unfold CapabilityGuard.beginRefresh
  dsimp only
  split_ifs <;> exact ⟨rfl, rfl⟩

theorem lookup_recordVerified_ne {verified : Finmap fun _ : K => ℕ} {other : K}
    {maxEntries : ℕ} (h : other ≠ capability) :
    (recordVerified verified capability maxEntries now).lookup other = verified.lookup other := by
  unfold recordVerified
  split_ifs
  · rfl
  · exact lookup_insert_of_ne _ h

theorem live_record_other {other : K} (h : Live guard' clock.stored other) (hne : other ≠ capability)
    (hclock : now ≤ clock.stored) (httl : guard'.ttl = guard.ttl)
    (hverified : guard'.state.verified = recordVerified (guard.prune clock).state.verified capability
      guard.maxEntries clock.stored) : Live guard now other := by
  refine h.of_lookup httl hclock fun since hsince => ?_
  rw [hverified, lookup_recordVerified_ne hne] at hsince
  exact lookup_of_lookup_prune hsince

theorem live_record_iff (httl : guard'.ttl = guard.ttl)
    (hverified : guard'.state.verified = recordVerified (guard.prune clock).state.verified capability
      guard.maxEntries clock.stored) :
    Live guard' clock.stored capability ↔ Recordable guard capability clock.verified := by
  rw [live_iff, httl, hverified]
  unfold recordVerified Recordable
  by_cases hskip : capability ∉ (guard.prune clock).state.verified ∧
      guard.maxEntries ≤ (guard.prune clock).state.verified.keys.card
  · rw [if_pos hskip]
    refine iff_of_false ?_ ?_
    · rintro ⟨since, -, hlook, -⟩
      exact hskip.1 (mem_iff.mpr ⟨since, hlook⟩)
    · rintro ⟨-, hlive | hroom⟩
      · exact hskip.1 hlive
      · exact absurd hroom (not_lt.mpr hskip.2)
  · rw [if_neg hskip]
    have hroom : Live guard clock.verified capability ∨
        (pruneExpired guard.state.verified guard.ttl clock.verified).keys.card < guard.maxEntries := by
      by_contra hnone
      rw [not_or] at hnone
      exact hskip ⟨hnone.1, not_lt.mp hnone.2⟩
    constructor
    · rintro ⟨-, hzero, -⟩
      exact ⟨hzero, hroom⟩
    · rintro ⟨hzero, -⟩
      exact ⟨clock.stored, hzero, lookup_insert _, by omega⟩

theorem live_of_pruned
    (hticks : run.Ticks clock) (h : Live guard clock.stored capability) (httl : guard.ttl = run.guard.ttl)
    (hverified : guard.state.verified = (run.guard.prune clock).state.verified) :
    Live run.guard run.clock capability := by
  refine h.of_lookup httl hticks.le_stored fun since hsince => ?_
  rw [hverified] at hsince
  exact lookup_of_lookup_prune hsince

theorem renewed_completeRefresh_iff {flight : Flight K}
    (hticks : run.Ticks clock) (h : ∀ capability, Live run.guard run.clock capability → capability ∈ run.renewed) :
    (∀ capability, Live (run.guard.completeRefresh flight.capability true clock) clock.stored capability →
        capability ∈ if flight.overtaken then run.renewed.erase flight.capability
          else insert flight.capability run.renewed) ↔
      (flight.overtaken = true → ¬Recordable run.guard flight.capability clock.verified) := by
  have hlive : Live (run.guard.completeRefresh flight.capability true clock) clock.stored
      flight.capability ↔ Recordable run.guard flight.capability clock.verified :=
    live_record_iff rfl rfl
  cases hover : flight.overtaken with
  | true =>
    constructor
    · intro hfinal _ hrecordable
      exact Finset.notMem_erase _ _ (hfinal flight.capability (hlive.mpr hrecordable))
    · intro hkeeps capability hcapability
      by_cases hne : capability = flight.capability
      · subst hne
        exact absurd (hlive.mp hcapability) (hkeeps rfl)
      · exact Finset.mem_erase.mpr
          ⟨hne, h capability (live_record_other hcapability hne hticks.le_stored rfl rfl)⟩
  | false =>
    refine iff_of_true (fun capability hcapability => ?_) fun hno => by cases hno
    by_cases hne : capability = flight.capability
    · exact Finset.mem_insert.mpr (.inl hne)
    · exact Finset.mem_insert_of_mem (h capability (live_record_other hcapability hne hticks.le_stored rfl rfl))

/-- **One call.**  From a state in which invalidation is final, a call leads to such a state exactly
if it keeps the law. -/
theorem invalidationFinal_step_iff {run' : GuardRun K} {call : GuardCall K}
    (hstep : (guardCalls K).step run call = some run') (h : InvalidationFinal run) :
    InvalidationFinal run' ↔ KeepsFinality run call := by
  rw [invalidationFinal_iff] at h ⊢
  cases call with
  | hasFreshSuccess capability clock =>
    obtain ⟨hticks, ⟨⟩⟩ := Option.ite_none_right_eq_some.mp hstep
    exact iff_of_true (fun other hlive => h other (live_of_pruned hticks hlive rfl rfl)) trivial
  | beginRefresh capability clock =>
    obtain ⟨hticks, ⟨⟩⟩ := Option.ite_none_right_eq_some.mp hstep
    obtain ⟨httl, hverified⟩ := beginRefresh_verified run.guard capability clock
    exact iff_of_true (fun other hlive => h other (live_of_pruned hticks hlive httl hverified)) trivial
  | invalidate capability =>
    obtain rfl := Option.some.inj hstep
    refine iff_of_true (fun other hlive => ?_) trivial
    have hne : other ≠ capability := by
      rintro rfl
      obtain ⟨since, -, hlook, -⟩ := live_iff.mp hlive
      exact absurd ((lookup_erase _ _).symm.trans hlook) (by simp)
    refine Finset.mem_erase.mpr ⟨hne, h other ?_⟩
    refine hlive.of_lookup rfl le_rfl fun since hsince => ?_
    exact (lookup_erase_ne hne).symm.trans hsince
  | recordSuccess capability clock =>
    obtain ⟨hticks, ⟨⟩⟩ := Option.ite_none_right_eq_some.mp hstep
    refine iff_of_true (fun other hlive => ?_) trivial
    by_cases hne : other = capability
    · exact Finset.mem_insert.mpr (.inl hne)
    · exact Finset.mem_insert_of_mem (h other (live_record_other hlive hne hticks.le_stored rfl rfl))
  | completeRefresh i verifiedSuccess clock =>
    dsimp only [guardCalls] at hstep
    cases hflight : run.flights[i]? with
    | none => rw [hflight] at hstep; cases hstep
    | some flight =>
      rw [hflight] at hstep
      obtain ⟨hticks, ⟨⟩⟩ := Option.ite_none_right_eq_some.mp hstep
      dsimp only [KeepsFinality]
      rw [hflight]
      cases verifiedSuccess with
      | false =>
        refine iff_of_true (fun other hlive => h other ?_) fun _ _ hfail => by cases hfail
        exact live_of_pruned hticks hlive rfl rfl
      | true =>
        refine (renewed_completeRefresh_iff hticks h).trans ?_
        simp

/-! ### Whole runs -/

/-- **Invalidation is final, exactly if no overtaken flight is stored.**  In every run, with any
number of callers and any advances of the clock. -/
theorem invalidation_final_iff (ttl maxEntries : ℕ) (calls : List (GuardCall K)) :
    (∀ run ∈ (guardCalls K).trace (.start K ttl maxEntries) calls, InvalidationFinal run) ↔
      ∀ x ∈ (guardCalls K).steps (.start K ttl maxEntries) calls, KeepsFinality x.1 x.2 := by
  have hstart : InvalidationFinal (GuardRun.start K ttl maxEntries) := by
    refine invalidationFinal_iff.mpr fun capability hlive => ?_
    obtain ⟨since, -, hlook, -⟩ := live_iff.mp hlive
    exact absurd ((lookup_empty capability).symm.trans hlook) (by simp)
  refine System.forall_trace_iff (J := fun _ => True) (fun _ _ => trivial) ?_ trivial hstart
  intro run call run' hstep _ h
  exact invalidationFinal_step_iff hstep h

end Runs

/-- A refresh is in flight when its capability is invalidated, and then completes with success. -/
def overtakenCalls : List (GuardCall String) :=
  [.beginRefresh "hypopg" ⟨1, 1, 1⟩, .invalidate "hypopg", .completeRefresh 0 true ⟨2, 2, 2⟩]

theorem invalidation_not_final : ¬∀ run ∈ (guardCalls String).trace (.start String 60000000000 16) overtakenCalls,
      InvalidationFinal run := by
  intro h
  have hreinstated : ∃ run ∈ (guardCalls String).trace (.start String 60000000000 16) overtakenCalls,
      "hypopg" ∉ run.renewed ∧ run.Ticks ⟨3, 3, 3⟩ ∧
        (run.guard.hasFreshSuccess "hypopg" ⟨3, 3, 3⟩).1 = true := by decide
  obtain ⟨run, hrun, hnew, hticks, hfresh⟩ := hreinstated
  have hstale := (h run hrun "hypopg" hnew ⟨3, 3, 3⟩ hticks).1
  exact absurd (hfresh.symm.trans hstale) (by simp)

end McpToolkit.Policy

import McpToolkit.Policy.CapabilityGuard

/-!
# McpToolkit.Policy.SingleFlight — who holds a refresh

Runs of `begin_refresh` and `complete_refresh` by any callers.  The run keeps, for each caller and capability, since when
the caller holds a `StartRefresh` answer that it has not completed.  A flight keeps the gate closed as long as the guard
has an entry for it, or the capability counts as fresh until the flight has run out (`gateClosed_iff`).  The guard is not
told who completes a refresh, so a completion takes the entry away that another caller's flight relies on; it does no
harm exactly if what is left counts as fresh for long enough (`single_flight_iff`).
-/

namespace McpToolkit.Policy

open Finmap Function
open Lib

structure FlightRun (C K : Type) where
  guard : CapabilityGuard K
  held : C × K → Option ℕ
  clock : ℕ

inductive RefreshCall (C K : Type)
  | beginRefresh (caller : C) (capability : K) (clock : Readings)
  | completeRefresh (caller : C) (capability : K) (verifiedSuccess : Bool) (clock : Readings)
  deriving DecidableEq

def FlightRun.start (C K : Type) (ttl maxEntries : ℕ) : FlightRun C K := ⟨.new ttl maxEntries, fun _ => none, 0⟩

/-- Readings of a call that comes after the instant `now`. -/
def Readings.After (clock : Readings) (now : ℕ) : Prop :=
  now ≤ clock.verified ∧ clock.verified ≤ clock.inFlight ∧ clock.inFlight ≤ clock.stored

instance (clock : Readings) (now : ℕ) : Decidable (clock.After now) := inferInstanceAs (Decidable (_ ∧ _ ∧ _))

section Flights

variable {C K : Type} [DecidableEq C] [DecidableEq K]

def refreshCalls (C K : Type) [DecidableEq C] [DecidableEq K] : System (FlightRun C K) (RefreshCall C K) where
  step run call :=
    match call with
    | .beginRefresh caller capability clock =>
      if clock.After run.clock then
        some {
          guard := (run.guard.beginRefresh capability clock).2
          held := if (run.guard.beginRefresh capability clock).1 = .startRefresh then
            Function.update run.held (caller, capability) (some clock.stored) else run.held
          clock := clock.stored }
      else none
    | .completeRefresh caller capability verifiedSuccess clock =>
      if clock.After run.clock then
        some {
          guard := run.guard.completeRefresh capability verifiedSuccess clock
          held := Function.update run.held (caller, capability) none
          clock := clock.stored }
      else none

/-- The caller holds an answer that it got at most `INFLIGHT_REFRESH_TTL` ago and has not completed. -/
def FlightRun.Flying (run : FlightRun C K) (now : ℕ) (caller : C) (capability : K) : Prop :=
  ∃ since ∈ run.held (caller, capability), now ≤ since + inflightRefreshTtl

/-- From here to the next call, no two callers hold one capability. -/
def SingleFlight (run : FlightRun C K) : Prop :=
  ∀ now, run.clock ≤ now → ∀ capability caller caller', run.Flying now caller capability →
    run.Flying now caller' capability → caller = caller'

/-- While a caller holds a capability, `begin_refresh` does not give it to another one. -/
def GateClosed (run : FlightRun C K) : Prop :=
  ∀ caller capability clock, clock.After run.clock → run.Flying clock.stored caller capability →
    (run.guard.beginRefresh capability clock).1 ≠ .startRefresh

/-! ### What keeps the gate closed -/

/-- The capability counts as fresh until then. -/
def FreshUntil (guard : CapabilityGuard K) (capability : K) (stop : ℕ) : Prop :=
  guard.ttl ≠ 0 ∧ ∃ since ∈ guard.state.verified.lookup capability, stop ≤ since + guard.ttl

/-- The guard has an entry for the flight, or none is needed. -/
def Covered (guard : CapabilityGuard K) (capability : K) (since : ℕ) : Prop :=
  (∃ entry ∈ guard.state.inFlight.lookup capability, since ≤ entry) ∨
    FreshUntil guard capability (since + inflightRefreshTtl)

variable {capability : K} {clock : Readings} {guard : CapabilityGuard K} {run : FlightRun C K} {stop : ℕ}

theorem beginRefresh_eq_startRefresh : (guard.beginRefresh capability clock).1 = .startRefresh ↔
      capability ∉ (guard.prune clock).state.verified ∧ capability ∉ (guard.prune clock).state.inFlight := by
  unfold CapabilityGuard.beginRefresh
  dsimp only
  split_ifs with hverified hflight
  · simp [hverified]
  · simp [hflight]
  · simp [hverified, hflight]

theorem mem_prune_verified :
    capability ∈ (guard.prune clock).state.verified ↔ FreshUntil guard capability clock.verified := by
  rw [mem_iff]
  constructor
  · rintro ⟨since, hsince⟩
    obtain ⟨hzero, hlook, hage⟩ := lookup_pruneExpired.mp hsince
    exact ⟨hzero, since, hlook, by omega⟩
  · rintro ⟨hzero, since, hlook, hage⟩
    exact ⟨since, lookup_pruneExpired.mpr ⟨hzero, hlook, by omega⟩⟩

theorem mem_prune_inFlight : capability ∈ (guard.prune clock).state.inFlight ↔
      ∃ entry ∈ guard.state.inFlight.lookup capability, clock.inFlight ≤ entry + inflightRefreshTtl := by
  rw [mem_iff]
  constructor
  · rintro ⟨entry, hentry⟩
    obtain ⟨-, hlook, hage⟩ := lookup_pruneExpired.mp hentry
    exact ⟨entry, hlook, by omega⟩
  · rintro ⟨entry, hlook, hage⟩
    exact ⟨entry, lookup_pruneExpired.mpr ⟨by decide, hlook, by omega⟩⟩

theorem FreshUntil.mono {stop' : ℕ}
    (h : FreshUntil guard capability stop) (hle : stop' ≤ stop) : FreshUntil guard capability stop' := by
  obtain ⟨hzero, since, hlook, hage⟩ := h
  exact ⟨hzero, since, hlook, hle.trans hage⟩

omit [DecidableEq C] in
theorem gateClosed_iff : GateClosed run ↔ ∀ caller capability, ∀ since ∈ run.held (caller, capability),
      run.clock ≤ since + inflightRefreshTtl → Covered run.guard capability since := by
  constructor
  · intro h caller capability since hheld hclock
    -- the last instant at which the flight is on
    have hlast := h caller capability ⟨since + inflightRefreshTtl, since + inflightRefreshTtl, since + inflightRefreshTtl⟩
      ⟨hclock, le_refl _, le_refl _⟩ ⟨since, hheld, le_refl _⟩
    rw [Ne, beginRefresh_eq_startRefresh, not_and_or, not_not, not_not, mem_prune_verified, mem_prune_inFlight] at hlast
    rcases hlast with hfresh | ⟨entry, hentry, hage⟩
    · exact .inr hfresh
    · exact .inl ⟨entry, hentry, Nat.le_of_add_le_add_right hage⟩
  · rintro h caller capability clock ⟨hv, hi, hs⟩ ⟨since, hheld, hage⟩
    rw [Ne, beginRefresh_eq_startRefresh, not_and_or, not_not, not_not, mem_prune_verified, mem_prune_inFlight]
    rcases h caller capability since hheld (by omega) with ⟨entry, hentry, hle⟩ | hfresh
    · exact .inr ⟨entry, hentry, by omega⟩
    · exact .inl (hfresh.mono (by omega))

/-! ### One call -/

/-- After the completion the capability counts as fresh until `stop`. -/
def StaysFresh (guard : CapabilityGuard K) (capability : K) (verifiedSuccess : Bool) (clock : Readings) (stop : ℕ) :
    Prop :=
  if verifiedSuccess then Recordable guard capability clock.verified ∧ stop ≤ clock.stored + guard.ttl
  else FreshUntil guard capability stop

/-- A completion finds no flight of the capability by another caller, or the capability stays fresh until that flight
has run out. -/
def KeepsGate (run : FlightRun C K) : RefreshCall C K → Prop
  | .beginRefresh _ _ _ => True
  | .completeRefresh caller capability verifiedSuccess clock =>
    ∀ other, other ≠ caller → ∀ since ∈ run.held (other, capability), clock.stored ≤ since + inflightRefreshTtl →
      StaysFresh run.guard capability verifiedSuccess clock (since + inflightRefreshTtl)

theorem freshUntil_prune_iff (hstop : clock.verified ≤ stop) :
    FreshUntil (guard.prune clock) capability stop ↔ FreshUntil guard capability stop := by
  refine and_congr_right fun hzero => exists_congr fun since => ?_
  show (pruneExpired guard.state.verified guard.ttl clock.verified).lookup capability = some since ∧ _ ↔
    guard.state.verified.lookup capability = some since ∧ _
  rw [lookup_pruneExpired]
  constructor
  · rintro ⟨⟨-, hlook, -⟩, hage⟩
    exact ⟨hlook, hage⟩
  · rintro ⟨hlook, hage⟩
    exact ⟨⟨hzero, hlook, by omega⟩, hage⟩

theorem lookup_recordVerified_self {verified : Finmap fun _ : K => ℕ} {maxEntries now since : ℕ} :
    (recordVerified verified capability maxEntries now).lookup capability = some since ↔
      (capability ∈ verified ∨ verified.keys.card < maxEntries) ∧ since = now := by
  unfold recordVerified
  split_ifs with hfull
  · rw [lookup_eq_none.mpr hfull.1]
    refine iff_of_false (by simp) ?_
    rintro ⟨hmem | hroom, -⟩
    · exact hfull.1 hmem
    · exact absurd hfull.2 (Nat.not_le.mpr hroom)
  · rw [lookup_insert, Option.some.injEq, eq_comm]
    refine (and_iff_right ?_).symm
    rw [not_and_or, not_not, Nat.not_le] at hfull
    exact hfull

theorem freshUntil_completeRefresh_iff {verifiedSuccess : Bool} (hstop : clock.verified ≤ stop) :
    FreshUntil (guard.completeRefresh capability verifiedSuccess clock) capability stop ↔
      StaysFresh guard capability verifiedSuccess clock stop := by
  cases verifiedSuccess with
  | false =>
    show FreshUntil (guard.prune clock) capability stop ↔ FreshUntil guard capability stop
    exact freshUntil_prune_iff hstop
  | true =>
    show guard.ttl ≠ 0 ∧ (∃ since ∈ (recordVerified (guard.prune clock).state.verified capability guard.maxEntries
      clock.stored).lookup capability, stop ≤ since + guard.ttl) ↔
      (guard.ttl ≠ 0 ∧ (capability ∈ (guard.prune clock).state.verified ∨ _)) ∧ stop ≤ clock.stored + guard.ttl
    simp only [Option.mem_def, lookup_recordVerified_self]
    constructor
    · rintro ⟨hzero, since, ⟨hroom, rfl⟩, hage⟩
      exact ⟨⟨hzero, hroom⟩, hage⟩
    · rintro ⟨⟨hzero, hroom⟩, hage⟩
      exact ⟨hzero, clock.stored, ⟨hroom, rfl⟩, hage⟩

theorem Covered.prune {guard' : CapabilityGuard K} {since : ℕ}
    (h : Covered guard capability since) (hverified : clock.verified ≤ since + inflightRefreshTtl)
    (hflight : clock.inFlight ≤ since + inflightRefreshTtl) (httl : guard'.ttl = guard.ttl)
    (hfresh : guard'.state.verified.lookup capability = (guard.prune clock).state.verified.lookup capability)
    (hentry : ∀ entry ∈ (guard.prune clock).state.inFlight.lookup capability,
      guard'.state.inFlight.lookup capability = some entry) : Covered guard' capability since := by
  rcases h with ⟨entry, hlook, hle⟩ | hfreshUntil
  · refine .inl ⟨entry, hentry entry (lookup_pruneExpired.mpr ⟨by decide, hlook, ?_⟩), hle⟩
    omega
  · have hpruned : FreshUntil (guard.prune clock) capability (since + inflightRefreshTtl) :=
      (freshUntil_prune_iff hverified).mpr hfreshUntil
    obtain ⟨hzero, recorded, hlook, hage⟩ := hpruned
    refine .inr ⟨httl ▸ hzero, recorded, hfresh.trans hlook, ?_⟩
    rw [httl]
    exact hage

theorem beginRefresh_cases (guard : CapabilityGuard K) (capability : K) (clock : Readings) :
    ((guard.beginRefresh capability clock).1 ≠ .startRefresh ∧
        (guard.beginRefresh capability clock).2 = guard.prune clock) ∨
      (guard.beginRefresh capability clock).1 = .startRefresh ∧
        capability ∉ (guard.prune clock).state.inFlight ∧ (guard.beginRefresh capability clock).2 =
          { guard.prune clock with state := ⟨(guard.prune clock).state.verified,
              (guard.prune clock).state.inFlight.insert capability clock.stored⟩ } := by
  unfold CapabilityGuard.beginRefresh
  dsimp only
  split_ifs with hverified hflight
  · exact .inl ⟨by simp, rfl⟩
  · exact .inl ⟨by simp, rfl⟩
  · exact .inr ⟨rfl, hflight, rfl⟩

omit [DecidableEq C] [DecidableEq K] in
theorem singleFlight_iff : SingleFlight run ↔ ∀ capability caller caller', run.Flying run.clock caller capability →
      run.Flying run.clock caller' capability → caller = caller' := by
  constructor
  · intro h
    exact h run.clock (le_refl _)
  · rintro h now hnow capability caller caller' ⟨since, hheld, hage⟩ ⟨since', hheld', hage'⟩
    exact h capability caller caller' ⟨since, hheld, hnow.trans hage⟩ ⟨since', hheld', hnow.trans hage'⟩

/-- **A beginning** keeps the gate closed, and a single flight. -/
theorem single_beginRefresh {run' : FlightRun C K} {caller : C} (hsingle : SingleFlight run) (hgate : GateClosed run)
    (hstep : (refreshCalls C K).step run (.beginRefresh caller capability clock) = some run') :
    SingleFlight run' ∧ GateClosed run' := by
  obtain ⟨⟨hv, hi, hs⟩, ⟨⟩⟩ := Option.ite_none_right_eq_some.mp hstep
  rw [singleFlight_iff] at hsingle ⊢
  rw [gateClosed_iff] at hgate ⊢
  dsimp only [FlightRun.Flying]
  rcases beginRefresh_cases run.guard capability clock with ⟨hanswer, hguard⟩ | ⟨hanswer, hfree, hguard⟩
  · rw [if_neg hanswer, hguard]
    constructor
    · rintro other a b ⟨since, hheld, hage⟩ ⟨since', hheld', hage'⟩
      exact hsingle other a b ⟨since, hheld, by omega⟩ ⟨since', hheld', by omega⟩
    · intro a other since hheld hage
      exact (hgate a other since hheld (by omega)).prune (by omega) (by omega) rfl rfl fun entry h => h
  · rw [if_pos hanswer, hguard]
    -- nobody else's flight of the capability is on
    have hnone : ∀ a, ∀ since ∈ run.held (a, capability), ¬ clock.stored ≤ since + inflightRefreshTtl := by
      intro a since hheld hage
      exact gateClosed_iff.mpr hgate a capability clock ⟨hv, hi, hs⟩ ⟨since, hheld, hage⟩ hanswer
    have hheld_of : ∀ {a other since}, since ∈ Function.update run.held (caller, capability) (some clock.stored) (a, other) →
        clock.stored ≤ since + inflightRefreshTtl →
        a = caller ∧ other = capability ∧ since = clock.stored ∨ other ≠ capability ∧ since ∈ run.held (a, other) := by
      intro a other since hheld hage
      by_cases hsame : (a, other) = (caller, capability)
      · rw [hsame, update_self] at hheld
        obtain ⟨rfl, rfl⟩ := Prod.mk.inj hsame
        exact .inl ⟨rfl, rfl, (Option.some.inj hheld).symm⟩
      · rw [update_of_ne hsame] at hheld
        refine .inr ⟨?_, hheld⟩
        rintro rfl
        exact hnone a since hheld hage
    constructor
    · rintro other a b ⟨since, hheld, hage⟩ ⟨since', hheld', hage'⟩
      rcases hheld_of hheld hage with ⟨rfl, rfl, -⟩ | ⟨hne, hold⟩
      · rcases hheld_of hheld' hage' with ⟨rfl, -⟩ | ⟨hne, -⟩
        · rfl
        · exact absurd rfl hne
      · rcases hheld_of hheld' hage' with ⟨-, heq, -⟩ | ⟨-, hold'⟩
        · exact absurd heq hne
        · exact hsingle other a b ⟨since, hold, by omega⟩ ⟨since', hold', by omega⟩
    · intro a other since hheld hage
      rcases hheld_of hheld hage with ⟨rfl, rfl, rfl⟩ | ⟨hne, hold⟩
      · exact .inl ⟨clock.stored, lookup_insert _, le_refl _⟩
      · refine (hgate a other since hold (by omega)).prune (by omega) (by omega) rfl rfl fun entry h => ?_
        exact (lookup_insert_of_ne _ hne).trans h

/-- **A completion** keeps a single flight, and the gate closed exactly if it leaves the flights of the other callers
covered. -/
theorem single_completeRefresh_iff {run' : FlightRun C K} {caller : C} {verifiedSuccess : Bool}
    (hsingle : SingleFlight run) (hgate : GateClosed run)
    (hstep : (refreshCalls C K).step run (.completeRefresh caller capability verifiedSuccess clock) = some run') :
    (SingleFlight run' ∧ GateClosed run') ↔
      KeepsGate run (.completeRefresh caller capability verifiedSuccess clock) := by
  obtain ⟨⟨hv, hi, hs⟩, ⟨⟩⟩ := Option.ite_none_right_eq_some.mp hstep
  rw [gateClosed_iff] at hgate
  have hheld_of : ∀ {a other since}, since ∈ Function.update run.held (caller, capability) none (a, other) ↔
      (a, other) ≠ (caller, capability) ∧ since ∈ run.held (a, other) := by
    intro a other since
    by_cases hsame : (a, other) = (caller, capability)
    · rw [hsame]
      simp
    · rw [update_of_ne hsame]
      exact (and_iff_right hsame).symm
  have hsingle' : SingleFlight ⟨run.guard.completeRefresh capability verifiedSuccess clock,
      Function.update run.held (caller, capability) none, clock.stored⟩ := by
    rw [singleFlight_iff] at hsingle ⊢
    rintro other a b ⟨since, hheld, hage⟩ ⟨since', hheld', hage'⟩
    dsimp only at hage hage'
    exact hsingle other a b ⟨since, (hheld_of.mp hheld).2, by omega⟩ ⟨since', (hheld_of.mp hheld').2, by omega⟩
  rw [and_iff_right hsingle', gateClosed_iff]
  -- the entry of the capability is gone
  have hgone : (run.guard.completeRefresh capability verifiedSuccess clock).state.inFlight =
      (run.guard.prune clock).state.inFlight.erase capability := by
    cases verifiedSuccess <;> rfl
  have hverified : ∀ other, other ≠ capability →
      (run.guard.completeRefresh capability verifiedSuccess clock).state.verified.lookup other =
        (run.guard.prune clock).state.verified.lookup other := by
    intro other hne
    cases verifiedSuccess with
    | false => rfl
    | true => exact lookup_recordVerified_ne hne
  have httl : (run.guard.completeRefresh capability verifiedSuccess clock).ttl = run.guard.ttl := by
    cases verifiedSuccess <;> rfl
  constructor
  · intro h other hne since hheld hage
    rcases h other capability since (hheld_of.mpr ⟨fun hsame => hne (Prod.mk.inj hsame).1, hheld⟩) hage with
      ⟨entry, hentry, -⟩ | hfresh
    · rw [hgone, lookup_erase] at hentry
      cases hentry
    · exact (freshUntil_completeRefresh_iff (by omega)).mp hfresh
  · intro h a other since hheld hage
    dsimp only at hage
    obtain ⟨hne, hold⟩ := hheld_of.mp hheld
    by_cases hother : other = capability
    · subst hother
      have hcaller : a ≠ caller := fun hsame => hne (by rw [hsame])
      exact .inr ((freshUntil_completeRefresh_iff (by omega)).mpr (h a hcaller since hold hage))
    · refine (hgate a other since hold (by omega)).prune (by omega) (by omega) httl (hverified other hother)
        fun entry hentry => ?_
      rw [hgone, lookup_erase_ne hother]
      exact hentry

/-- **Refreshes are single flights, exactly if completions leave the flights of others covered.**  In every run, with any
number of callers and any advances of the clock. -/
theorem single_flight_iff (ttl maxEntries : ℕ) (calls : List (RefreshCall C K)) :
    (∀ run ∈ (refreshCalls C K).trace (.start C K ttl maxEntries) calls, SingleFlight run ∧ GateClosed run) ↔
      ∀ x ∈ (refreshCalls C K).steps (.start C K ttl maxEntries) calls, KeepsGate x.1 x.2 := by
  have hstart : SingleFlight (FlightRun.start C K ttl maxEntries) ∧ GateClosed (FlightRun.start C K ttl maxEntries) := by
    constructor
    · rintro now - capability caller caller' ⟨since, hheld, -⟩
      cases hheld
    · rintro caller capability clock - ⟨since, hheld, -⟩
      cases hheld
  refine System.forall_trace_iff (J := fun _ => True) (fun _ _ => trivial) ?_ trivial hstart
  rintro run call run' hstep - ⟨hsingle, hgate⟩
  cases call with
  | beginRefresh caller capability clock => exact iff_of_true (single_beginRefresh hsingle hgate hstep) trivial
  | completeRefresh caller capability verifiedSuccess clock =>
    exact single_completeRefresh_iff hsingle hgate hstep

end Flights

/-- The first flight runs out, a second one begins, the first caller gives up, and a third one begins. -/
def lateCompletion : List (RefreshCall ℕ String) :=
  [.beginRefresh 1 "hypopg" ⟨0, 0, 0⟩, .beginRefresh 2 "hypopg" ⟨6000000000, 6000000000, 6000000000⟩,
    .completeRefresh 1 "hypopg" false ⟨7000000000, 7000000000, 7000000000⟩,
    .beginRefresh 3 "hypopg" ⟨8000000000, 8000000000, 8000000000⟩]

theorem not_single_flight :
    ¬∀ run ∈ (refreshCalls ℕ String).trace (.start ℕ String 60000000000 16) lateCompletion, SingleFlight run := by
  intro h
  have hboth : ∃ run ∈ (refreshCalls ℕ String).trace (.start ℕ String 60000000000 16) lateCompletion,
      run.clock = 8000000000 ∧ run.held (2, "hypopg") = some 6000000000 ∧
        run.held (3, "hypopg") = some 8000000000 := by decide
  obtain ⟨run, hrun, hclock, hsecond, hthird⟩ := hboth
  have heq := h run hrun 8000000000 hclock.le "hypopg" 2 3 ⟨_, hsecond, by decide⟩ ⟨_, hthird, by decide⟩
  exact absurd heq (by decide)

end McpToolkit.Policy

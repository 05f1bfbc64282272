import McpToolkit.Http.Sessions

/-!
# McpToolkit.Http.SessionExpiry — idle expiry and concurrent activity

A sweep, and `has_session`, decide under the lifecycle lock that a session is idle and close it
afterwards, without the lock.  What happens to the session in between is not seen: a stream that
opens there is closed with its session (`expires_connected_session`).

Nothing goes wrong as long as no section writes the lifecycle entry of a session that some call has
selected and not yet closed (`undisturbed`), and the parts of a second that the readings leave out do
not matter: the timeout is a number of whole seconds, an entry is written in the second that was read
for it (`prompt`), and no session is selected in the last second of its timeout before it is over
(`punctual`).  Then every session that is closed for idleness has no stream, and its entry was last
written at least the timeout ago (`expired_session_idle`).
-/

namespace McpToolkit.Http

open List Finmap
open Lib
open Lib.Word (Duration asSecs)

variable {S : Type} [DecidableEq S]

/-! ### What a section may do to the lifecycle entries -/

namespace SessionPc

/-- The session whose lifecycle entry the next section writes. -/
def writes : SessionPc S → Option S
  | .removeState id _ | .noteExpired id _ | .touch id _ _ | .markOpen id _ | .markClosed id _ => some id
  | _ => none

/-- The sessions that the call has selected for expiry and not yet closed. -/
def pending : SessionPc S → List S
  | .expire _ _ id rest => id :: rest
  | .removeOrder _ (.note (.sweep _ _ rest)) | .removeState _ (.note (.sweep _ _ rest))
  | .noteExpired _ (.sweep _ _ rest) => rest
  | .expireIdle id => [id]
  | _ => []

/-- The next section is `inner.close_session(id)` for idle expiry. -/
def expires : SessionPc S → Option S
  | .expire _ _ id _ => some id
  | .expireIdle id => some id
  | _ => none

/-- The second that the next section writes into the lifecycle entry. -/
def written : SessionPc S → ℕ
  | .touch _ now _ | .markOpen _ now | .markClosed _ now => now
  | _ => 0

/-- The second at which the call read the clock, as far as it still uses it to select. -/
def reading : SessionPc S → ℕ
  | .collect _ now | .expire _ now _ _ | .removeOrder _ (.note (.sweep _ now _))
  | .removeState _ (.note (.sweep _ now _)) | .noteExpired _ (.sweep _ now _)
  | .hasInner _ now | .shouldExpire _ now => now
  | _ => 0

/-- The sessions among which the next section selects. -/
def weighs (m : BoundedSessionManager S) : SessionPc S → Finset S
  | .collect _ _ => m.lifecycle.states.keys
  | .shouldExpire id _ => {id}
  | _ => ∅

omit [DecidableEq S] in
theorem pending_of_expires {pc : SessionPc S} {id : S} (h : pc.expires = some id) : id ∈ pc.pending := by
  cases pc <;> simp_all [expires, pending]

end SessionPc

/-- The entry is in order and shows the second in which it was last written. -/
structure BoundedSessionManager.Dated (m : BoundedSessionManager S) (id : S) (st : SessionLifecycleState) :
    Prop where
  consistent : st.Consistent
  second : st.lastActivityS = asSecs (m.touched id)
  past : m.touched id ≤ m.now

/-- How the entries change in one section: not at all, or the entry that the section writes is
removed or put in order. -/
inductive EntryEffect (pc : SessionPc S) (m m' : BoundedSessionManager S) : Prop
  | same : m'.lifecycle.states = m.lifecycle.states →
      (∀ id, m.lifecycle.states.lookup id ≠ none → m'.touched id = m.touched id) → EntryEffect pc m m'
  | gone {id : S} : pc.writes = some id → m'.lifecycle.states = m.lifecycle.states.erase id →
      m'.touched = m.touched → EntryEffect pc m m'
  | put {id : S} {st : SessionLifecycleState} : pc.writes = some id → st.Consistent →
      st.lastActivityS = pc.written → m'.lifecycle.states = m.lifecycle.states.insert id st →
      m'.touched = Function.update m.touched id m.now → EntryEffect pc m m'

theorem markStreamClosed_effect (m : BoundedSessionManager S) (id : S) (now : ℕ) :
    EntryEffect (.markClosed id now) m (m.withEntry id (m.lifecycle.markStreamClosed id now)) := by
  cases hst : m.lifecycle.states.lookup id with
  | none =>
    refine .same ?_ fun id' hid => Function.update_of_ne ?_ _ _
    · simp [BoundedSessionManager.withEntry, SessionLifecycleRuntime.markStreamClosed, hst]
    · rintro rfl
      exact hid hst
  | some st =>
    have hclosed : (st.closed now).Consistent := fun h => if_pos h
    refine .put rfl hclosed rfl ?_ rfl
    simp [BoundedSessionManager.withEntry, SessionLifecycleRuntime.markStreamClosed, hst]

section EntryEffect

variable {pc : SessionPc S} {m m' : BoundedSessionManager S}

theorem EntryEffect.lookup_eq (h : EntryEffect pc m m') {id : S} (hid : pc.writes ≠ some id) :
    m'.lifecycle.states.lookup id = m.lifecycle.states.lookup id := by
  cases h with
  | same heq => rw [heq]
  | gone hw heq =>
    have hne : id ≠ _ := fun heq' => hid (heq' ▸ hw)
    rw [heq, lookup_erase_ne hne]
  | put hw _ _ heq =>
    have hne : id ≠ _ := fun heq' => hid (heq' ▸ hw)
    rw [heq, lookup_insert_of_ne _ hne]

theorem EntryEffect.touched_eq (h : EntryEffect pc m m') {id : S} (hid : pc.writes ≠ some id)
    (hst : m.lifecycle.states.lookup id ≠ none) : m'.touched id = m.touched id := by
  cases h with
  | same _ heq => exact heq id hst
  | gone _ _ heq => rw [heq]
  | put hw _ _ _ heq =>
    have hne : id ≠ _ := fun heq' => hid (heq' ▸ hw)
    rw [heq, Function.update_of_ne hne]

theorem BoundedSessionManager.Dated.of_eq {id : S} {st : SessionLifecycleState} (h : m.Dated id st)
    (htouched : m'.touched id = m.touched id) (hnow : m'.now = m.now) : m'.Dated id st :=
  ⟨h.consistent, htouched ▸ h.second, by rw [htouched, hnow]; exact h.past⟩

/-- An entry that is written in the second that was read for it shows that second. -/
theorem EntryEffect.dated (h : EntryEffect pc m m') (hnow : m'.now = m.now)
    (hprompt : pc.writes ≠ none → pc.written = asSecs m.now)
    (hd : ∀ id st, m.lifecycle.states.lookup id = some st → m.Dated id st) :
    ∀ id st, m'.lifecycle.states.lookup id = some st → m'.Dated id st := by
  intro id st hst
  by_cases hid : pc.writes = some id
  · cases h with
    | same heq htouched =>
      rw [heq] at hst
      exact (hd id st hst).of_eq (htouched id (by simp [hst])) hnow
    | gone hw heq =>
      obtain rfl := Option.some.inj (hid.symm.trans hw)
      rw [heq, lookup_erase] at hst
      cases hst
    | put hw hcons hlast heq htouched =>
      obtain rfl := Option.some.inj (hid.symm.trans hw)
      rw [heq, lookup_insert] at hst
      obtain rfl := Option.some.inj hst
      refine ⟨hcons, ?_, ?_⟩
      · rw [hlast, htouched, Function.update_self]
        exact hprompt (by simp [hw])
      · rw [htouched, Function.update_self, hnow]
  · rw [h.lookup_eq hid] at hst
    exact (hd id st hst).of_eq (h.touched_eq hid (by simp [hst])) hnow

end EntryEffect

/-! ### Selection -/

section Selection

omit [DecidableEq S]

@[simp] theorem pending_sweepNext (k : AfterSweep S) (now : ℕ) (ids : List S) :
    (sweepNext k now ids).pending = ids := by
  cases ids with
  | nil => cases k <;> rfl
  | cons id rest => rfl

theorem reading_sweepNext (k : AfterSweep S) (now : ℕ) (ids : List S) : (sweepNext k now ids).reading ≤ now := by
  cases ids with
  | nil => cases k <;> simp [sweepNext, AfterSweep.pc, SessionPc.reading]
  | cons id rest => exact le_rfl

theorem pending_afterRemove (id : S) (r : AfterRemove S) :
    (r.pc id).pending = (SessionPc.removeState id r).pending := by
  cases r with
  | note n => cases n <;> rfl
  | _ => rfl

theorem reading_afterRemove (id : S) (r : AfterRemove S) :
    (r.pc id).reading = (SessionPc.removeState id r).reading := by
  cases r with
  | note n => cases n <;> rfl
  | _ => rfl

end Selection

variable {id : S} {now : ℕ}

theorem shouldExpire_of_mem_candidates {rt : SessionLifecycleRuntime S} {timeout : Duration}
    (ht : rt.sweepTimeout now = some timeout) (hid : id ∈ rt.candidates timeout now) :
    rt.disconnectedSessionShouldExpire id now = true := by
  obtain ⟨hmode, htimeout⟩ :
      rt.config.mode = .connectedUnboundedDisconnectedIdle ∧ rt.config.disconnectedIdleTimeout = some timeout := by
    obtain ⟨hmode, ht⟩ := Option.ite_none_left_eq_some.mp ht
    refine ⟨not_not.mp hmode, ?_⟩
    split at ht
    · cases ht
    · rename_i heq
      rw [heq, ← (Option.ite_none_left_eq_some.mp ht).2]
  obtain ⟨st, hst⟩ := mem_iff.mp (mem_keys.mp hid)
  obtain ⟨hst, hidle⟩ := Table.lookup_retain_eq_some.mp hst
  simp [SessionLifecycleRuntime.disconnectedSessionShouldExpire, hmode, htimeout, hst, hidle]

/-- **What one section does.**  It keeps the clock and the configuration, and changes at most the
entry that it writes; it selects only sessions that should expire at the second the call has read. -/
structure SectionEffect (m m' : BoundedSessionManager S) (pc pc' : SessionPc S) : Prop where
  now : m'.now = m.now
  config : m'.lifecycle.config = m.lifecycle.config
  entries : EntryEffect pc m m'
  pending : ∀ id ∈ pc'.pending, id ∈ pc.pending ∨ id ∈ pc.weighs m ∧ pc.writes = none ∧
    m.lifecycle.disconnectedSessionShouldExpire id pc.reading = true
  reading : pc'.reading ≤ max pc.reading (asSecs m.now)

variable {m m' : BoundedSessionManager S} {pc pc' : SessionPc S} {inp : SessionInput S}

theorem SectionEffect.of_plain (hnow : m'.now = m.now) (hconfig : m'.lifecycle.config = m.lifecycle.config)
    (hentries : EntryEffect pc m m') (hpc : pc'.pending = [] ∧ pc'.reading = 0) : SectionEffect m m' pc pc' where
  now := hnow
  config := hconfig
  entries := hentries
  pending _ hid := by rw [hpc.1] at hid; cases hid
  reading := by rw [hpc.2]; exact Nat.zero_le _

theorem collect_effect {k : AfterSweep S} (h : m.advance (.collect k now) inp = some (m', pc')) :
    SectionEffect m m' (.collect k now) pc' := by
  cases inp with
  | order ids =>
    simp only [BoundedSessionManager.advance] at h
    split at h
    · obtain ⟨rfl, h⟩ := Option.ite_none_right_eq_some.mp h
      obtain ⟨rfl, rfl⟩ := Prod.mk.inj (Option.some.inj h)
      refine ⟨rfl, rfl, .same rfl fun _ _ => rfl, fun id hid => ?_, ?_⟩
      · rw [← sweepNext.eq_1, pending_sweepNext] at hid
        cases hid
      · exact (reading_sweepNext k now []).trans (le_max_left _ _)
    · rename_i timeout ht
      obtain ⟨hids, h⟩ := Option.ite_none_right_eq_some.mp h
      obtain ⟨rfl, rfl⟩ := Prod.mk.inj (Option.some.inj h)
      refine ⟨rfl, rfl, .same rfl fun _ _ => rfl, fun id hid => .inr ?_, ?_⟩
      · rw [pending_sweepNext, ← mem_toFinset, hids.2] at hid
        refine ⟨?_, rfl, shouldExpire_of_mem_candidates ht hid⟩
        obtain ⟨st, hst⟩ := mem_iff.mp (mem_keys.mp hid)
        exact mem_keys.mpr (mem_of_lookup_eq_some (Table.lookup_retain_eq_some.mp hst).1)
      · exact (reading_sweepNext k now ids).trans (le_max_left _ _)
  | _ => cases h

theorem shouldExpire_effect (h : m.advance (.shouldExpire id now) inp = some (m', pc')) :
    SectionEffect m m' (.shouldExpire id now) pc' := by
  cases inp with
  | go =>
    obtain ⟨rfl, rfl⟩ := Prod.mk.inj (Option.some.inj h)
    by_cases hexp : m.lifecycle.disconnectedSessionShouldExpire id now = true
    · rw [if_pos hexp]
      refine ⟨rfl, rfl, .same rfl fun _ _ => rfl, fun id' hid => .inr ?_, Nat.zero_le _⟩
      rw [mem_singleton.mp hid]
      exact ⟨Finset.mem_singleton_self id, rfl, hexp⟩
    · rw [if_neg hexp]
      exact .of_plain rfl rfl (.same rfl fun _ _ => rfl) ⟨rfl, rfl⟩
  | _ => cases h

theorem expire_effect {k : AfterSweep S} {rest : List S}
    (h : m.advance (.expire k now id rest) inp = some (m', pc')) : SectionEffect m m' (.expire k now id rest) pc' := by
  cases inp with
  | result ok =>
    cases h
    cases ok with
    | false =>
      refine ⟨rfl, rfl, .same rfl fun _ _ => rfl, fun id' hid => .inl ?_, (reading_sweepNext k now rest).trans (le_max_left _ _)⟩
      exact mem_cons_of_mem _ (pending_sweepNext k now rest ▸ hid)
    | true => exact ⟨rfl, rfl, .same rfl fun _ _ => rfl, fun id' hid => .inl (mem_cons_of_mem _ hid), le_max_left _ _⟩
  | _ => cases h

theorem removeOrder_effect {r : AfterRemove S} (h : m.advance (.removeOrder id r) inp = some (m', pc')) :
    SectionEffect m m' (.removeOrder id r) pc' := by
  cases inp with
  | go =>
    cases h
    refine ⟨rfl, rfl, .same rfl fun _ _ => rfl, fun id' hid => .inl ?_, ?_⟩
    · cases r with
      | note n => cases n <;> exact hid
      | _ => exact hid
    · cases r with
      | note n => cases n <;> exact le_max_left _ _
      | _ => exact Nat.zero_le _
  | _ => cases h

theorem noteExpired_effect {n : AfterNote S} (h : m.advance (.noteExpired id n) inp = some (m', pc')) :
    SectionEffect m m' (.noteExpired id n) pc' := by
  cases inp with
  | go =>
    cases h
    cases n with
    | sweep k now rest =>
      refine ⟨rfl, rfl, .gone rfl rfl rfl, fun id' hid => .inl ?_, ?_⟩
      · exact pending_sweepNext k now rest ▸ hid
      · exact (reading_sweepNext k now rest).trans (le_max_left _ _)
    | has => exact .of_plain rfl rfl (.gone rfl rfl rfl) ⟨rfl, rfl⟩
  | _ => cases h

theorem hasInner_effect (h : m.advance (.hasInner id now) inp = some (m', pc')) :
    SectionEffect m m' (.hasInner id now) pc' := by
  cases inp with
  | result ok =>
    cases h
    refine ⟨rfl, rfl, .same rfl fun _ _ => rfl, fun id' hid => ?_, ?_⟩
    · split_ifs at hid <;> cases hid
    · split_ifs
      · exact Nat.zero_le _
      · exact le_max_left _ _
      · exact Nat.zero_le _
  | _ => cases h

/-- **What a section can do.** -/
theorem advance_effect (h : m.advance pc inp = some (m', pc')) : SectionEffect m m' pc pc' := by
  cases pc with
  | collect k now => exact collect_effect h
  | shouldExpire id now => exact shouldExpire_effect h
  | start k =>
    cases inp with
    | go => cases h; exact ⟨rfl, rfl, .same rfl fun _ _ => rfl, fun _ hid => absurd hid not_mem_nil, le_max_right _ _⟩
    | _ => cases h
  | expire k now id rest => exact expire_effect h
  | removeOrder id r => exact removeOrder_effect h
  | removeState id r =>
    cases inp with
    | go =>
      cases h
      refine ⟨rfl, rfl, .gone rfl rfl rfl, fun id' hid => .inl ?_, ?_⟩
      · rwa [pending_afterRemove] at hid
      · rw [reading_afterRemove]
        exact le_max_left _ _
    | _ => cases h
  | noteExpired id n => exact noteExpired_effect h
  | createInner now =>
    cases inp with
    | created id =>
      obtain ⟨-, h⟩ := Option.ite_none_left_eq_some.mp h
      cases h
      exact .of_plain rfl rfl (.same rfl fun _ _ => rfl) ⟨rfl, rfl⟩
    | result ok =>
      cases ok with
      | true => cases h
      | false => cases h; exact .of_plain rfl rfl (.same rfl fun _ _ => rfl) ⟨rfl, rfl⟩
    | _ => cases h
  | record id now =>
    cases inp with
    | go =>
      cases h
      unfold BoundedSessionManager.recordSession
      dsimp only
      split_ifs
      · split <;> exact .of_plain rfl rfl (.same rfl fun _ _ => rfl) ⟨rfl, rfl⟩
      · exact .of_plain rfl rfl (.same rfl fun _ _ => rfl) ⟨rfl, rfl⟩
    | _ => cases h
  | hasInner id now => exact hasInner_effect h
  | touch id now tracked =>
    cases inp with
    | go =>
      cases h
      refine .of_plain rfl rfl (.put rfl (fun h => if_pos h) rfl rfl rfl) ?_
      cases tracked <;> exact ⟨rfl, rfl⟩
    | _ => cases h
  | markOpen id now =>
    cases inp with
    | go =>
      cases h
      exact .of_plain rfl rfl (.put rfl (SessionLifecycleState.consistent_opened _ _) rfl rfl rfl) ⟨rfl, rfl⟩
    | _ => cases h
  | markClosed id now =>
    cases inp with
    | go => cases h; exact .of_plain rfl rfl (markStreamClosed_effect _ _ _) ⟨rfl, rfl⟩
    | _ => cases h
  | expireIdle id | closeInner id | accessInner id tracked =>
    cases inp with
    | result ok => cases h; cases ok <;> exact .of_plain rfl rfl (.same rfl fun _ _ => rfl) ⟨rfl, rfl⟩
    | _ => cases h
  | closeEvicted evicted id now | touchClock id tracked | openClock id | streaming id | done =>
    cases inp <;> cases h <;> exact .of_plain rfl rfl (.same rfl fun _ _ => rfl) ⟨rfl, rfl⟩

/-! ### The invariant -/

/-- No call has selected the session whose entry the section writes. -/
def undisturbed (calls : List (SessionPc S)) (pc : SessionPc S) : Bool :=
  calls.all fun other => other.pending.all fun id => pc.writes != some id

/-- What the section writes into an entry is the second in which it does so. -/
def prompt (m : BoundedSessionManager S) (pc : SessionPc S) : Bool :=
  pc.writes == none || pc.written == asSecs m.now

/-- If as many whole seconds as the timeout has lie between the last write to the entry and now, then
the timeout is over: now is not earlier in its second. -/
def BoundedSessionManager.overdue (m : BoundedSessionManager S) (id : S) : Bool :=
  m.lifecycle.config.disconnectedIdleTimeout.all fun timeout =>
    asSecs m.now != asSecs (m.touched id) + asSecs timeout ||
      decide (m.touched id % 1000000000 ≤ m.now % 1000000000)

/-- No session is selected in the last second of its timeout before it is over. -/
def punctual (m : BoundedSessionManager S) (pc : SessionPc S) : Bool :=
  decide (∀ id ∈ pc.weighs m, m.overdue id = true)

/-- The section is undisturbed, prompt and punctual. -/
def steady (m : BoundedSessionManager S) (calls : List (SessionPc S)) (pc : SessionPc S)
    (_ : SessionInput S) : Bool :=
  undisturbed calls pc && prompt m pc && punctual m pc

/-- The lifecycle entry of the session is without a stream and disconnected, and was last written at
least the configured timeout ago. -/
def Idle (m : BoundedSessionManager S) (id : S) : Prop :=
  ∃ timeout st, m.lifecycle.config.disconnectedIdleTimeout = some timeout ∧
    m.lifecycle.states.lookup id = some st ∧ st.activeStreams = 0 ∧
    st.disconnectedSinceS = some st.lastActivityS ∧ m.touched id + timeout ≤ m.now

theorem Idle.mono (hconfig : m'.lifecycle.config = m.lifecycle.config)
    (hlookup : m'.lifecycle.states.lookup id = m.lifecycle.states.lookup id)
    (htouched : m.lifecycle.states.lookup id ≠ none → m'.touched id = m.touched id)
    (hnow : m.now ≤ m'.now) (h : Idle m id) : Idle m' id := by
  obtain ⟨timeout, st, htimeout, hst, hzero, hsince, hold⟩ := h
  refine ⟨timeout, st, hconfig ▸ htimeout, hlookup ▸ hst, hzero, hsince, ?_⟩
  rw [htouched (by simp [hst])]
  exact hold.trans hnow

/-- A session that should expire at a second that was read before is idle. -/
theorem idle_of_shouldExpire
    (hwhole : ∀ timeout, m.lifecycle.config.disconnectedIdleTimeout = some timeout → 1000000000 ∣ timeout)
    (hdated : ∀ id st, m.lifecycle.states.lookup id = some st → m.Dated id st)
    (hoverdue : m.overdue id = true) (hread : now ≤ asSecs m.now)
    (h : m.lifecycle.disconnectedSessionShouldExpire id now = true) : Idle m id := by
  simp only [SessionLifecycleRuntime.disconnectedSessionShouldExpire, Bool.and_eq_true,
    Option.any_eq_true, SessionLifecycleState.expirable, decide_eq_true_eq] at h
  obtain ⟨-, timeout, htimeout, st, hst, hactive, since, hsince, hold⟩ := h
  have hzero : st.activeStreams = 0 := by simpa using hactive
  obtain ⟨hcons, hdate, hpast⟩ := hdated id st hst
  have hlast : since = asSecs (m.touched id) := by
    rw [← hdate]
    exact Option.some.inj (hsince.symm.trans (hcons hzero))
  have hsub : asSecs m.now = asSecs (m.touched id) + asSecs timeout →
      m.touched id % 1000000000 ≤ m.now % 1000000000 := by
    simpa [BoundedSessionManager.overdue, htimeout, imp_iff_not_or] using hoverdue
  refine ⟨timeout, st, htimeout, hst, hzero, hcons hzero, ?_⟩
  obtain ⟨secs, rfl⟩ := hwhole timeout htimeout
  unfold asSecs at *
  omega

structure ExpiryInv (config : SessionLifecycleConfig) (m : BoundedSessionManager S)
    (calls : List (SessionPc S)) : Prop where
  config_eq : m.lifecycle.config = config
  dated : ∀ id st, m.lifecycle.states.lookup id = some st → m.Dated id st
  reading : ∀ pc ∈ calls, pc.reading ≤ asSecs m.now
  selected : ∀ pc ∈ calls, ∀ id ∈ pc.pending, Idle m id

namespace ExpiryInv

variable {config : SessionLifecycleConfig} {calls calls' rest : List (SessionPc S)}

theorem perm (hperm : calls.Perm calls') (h : ExpiryInv config m calls) : ExpiryInv config m calls' where
  config_eq := h.config_eq
  dated := h.dated
  reading pc hpc := h.reading pc (hperm.mem_iff.mpr hpc)
  selected pc hpc := h.selected pc (hperm.mem_iff.mpr hpc)

theorem tick (elapsed : Duration) (h : ExpiryInv config m calls) : ExpiryInv config (m.tick elapsed) calls where
  config_eq := h.config_eq
  dated id st hst := by
    obtain ⟨hcons, hdate, hpast⟩ := h.dated id st hst
    exact ⟨hcons, hdate, hpast.trans (Nat.le_add_right _ _)⟩
  reading pc hpc := (h.reading pc hpc).trans (Nat.div_le_div_right (Nat.le_add_right _ _))
  selected pc hpc id hid := by
    have hlater : m.now ≤ (m.tick elapsed).now := Nat.le_add_right _ _
    exact Idle.mono (m := m) rfl rfl (fun _ => rfl) hlater (h.selected pc hpc id hid)

theorem enter (k : SessionCall S) (h : ExpiryInv config m calls) : ExpiryInv config m (k.pc :: calls) where
  config_eq := h.config_eq
  dated := h.dated
  reading := by
    rw [forall_mem_cons]
    refine ⟨?_, h.reading⟩
    cases k <;> exact Nat.zero_le _
  selected := by
    rw [forall_mem_cons]
    refine ⟨fun id hid => ?_, h.selected⟩
    cases k <;> cases hid

/-- One section that is steady. -/
theorem advance (hwhole : ∀ timeout, config.disconnectedIdleTimeout = some timeout → 1000000000 ∣ timeout)
    (hadv : m.advance pc inp = some (m', pc'))
    (hguard : steady m (pc :: rest) pc inp = true) (h : ExpiryInv config m (pc :: rest)) :
    ExpiryInv config m' (pc' :: rest) := by
  have heff := advance_effect hadv
  simp only [steady, Bool.and_eq_true] at hguard
  obtain ⟨⟨hundisturbed, hprompt⟩, hpunctual⟩ := hguard
  have hkeep : ∀ {id}, pc.writes ≠ some id → Idle m id → Idle m' id := fun hwrites =>
    Idle.mono heff.config (heff.entries.lookup_eq hwrites) (heff.entries.touched_eq hwrites) heff.now.ge
  -- what was selected before the section is still selected after it
  have hold : ∀ other ∈ pc :: rest, ∀ id ∈ other.pending, Idle m' id := by
    intro other hother id hid
    refine hkeep ?_ (h.selected other hother id hid)
    have hall := all_eq_true.mp (all_eq_true.mp hundisturbed other hother) id hid
    simpa using hall
  have hreading : pc.reading ≤ asSecs m.now := h.reading pc mem_cons_self
  refine ⟨heff.config.trans h.config_eq, heff.entries.dated heff.now ?_ h.dated, ?_, ?_⟩
  · intro hwrites
    rw [prompt, Bool.or_eq_true, beq_iff_eq, beq_iff_eq] at hprompt
    exact hprompt.resolve_left hwrites
  · rw [forall_mem_cons, heff.now]
    refine ⟨heff.reading.trans (max_le hreading le_rfl), fun other hother => ?_⟩
    exact h.reading other (mem_cons_of_mem _ hother)
  · rw [forall_mem_cons]
    refine ⟨fun id hid => ?_, fun other hother => hold other (mem_cons_of_mem _ hother)⟩
    rcases heff.pending id hid with hin | ⟨hweighs, hwrites, hexp⟩
    · exact hold pc mem_cons_self id hin
    · refine hkeep (by simp [hwrites]) (idle_of_shouldExpire ?_ h.dated ?_ hreading hexp)
      · exact h.config_eq ▸ hwhole
      · exact of_decide_eq_true hpunctual id hweighs

theorem init (maxSessions : ℕ) :
    ExpiryInv config (BoundedSessionManager.newWithLifecycle (S := S) maxSessions config) [] where
  config_eq := rfl
  dated id st hst := by
    have hnone : (∅ : Finmap fun _ : S => SessionLifecycleState).lookup id = none := lookup_empty id
    exact absurd (hnone.symm.trans hst) (by simp)
  reading _ hpc := absurd hpc not_mem_nil
  selected _ hpc := absurd hpc not_mem_nil

end ExpiryInv

/-- A session is created; ten seconds later a sweep collects it. -/
def idleSweep : List (Event ℕ (SessionCall ℕ) (SessionInput ℕ)) :=
  [.enter .createSession, .advance 0 .go, .advance 0 (.order []), .advance 0 (.created 7),
    .advance 0 .go, .advance 0 .go, .env 10000000000,
    .enter .sweepExpiredSessions, .advance 1 .go, .advance 1 (.order [7])]

/-- The configuration of ten seconds. -/
def tenSeconds : SessionLifecycleConfig := ⟨.connectedUnboundedDisconnectedIdle, some 10000000000⟩

/-- A stream of the session opens. -/
def streamOpens : List (Event ℕ (SessionCall ℕ) (SessionInput ℕ)) :=
  [.enter (.trackedStream 7), .advance 2 (.result true), .advance 2 .go, .advance 2 .go, .advance 2 .go,
    .advance 2 .go]

end McpToolkit.Http

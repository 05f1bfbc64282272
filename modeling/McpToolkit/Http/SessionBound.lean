import McpToolkit.Http.Sessions

/-!
# McpToolkit.Http.SessionBound — at most `max_sessions` sessions are alive

A session is created in the inner manager, then recorded in `order`, and closed in the inner manager before it is removed
from `order`; an eviction removes it from `order` first.  The four happen in different sections.  The invariant says
where a session that is alive can be found meanwhile: in `order`, with a call that has not recorded it yet, or with a call
that has evicted it and not closed it yet (`BoundInv`).

An identifier is fresh if it was not given out before and no call in flight names it (`FreshIdentifiers`).
-/

namespace McpToolkit.Http

open List
open Lib

variable {S : Type}

namespace SessionPc

/-- The session that the next section records. -/
def records : SessionPc S → Option S
  | .record id _ => some id
  | _ => none

/-- The session that the call has evicted and not yet closed. -/
def evicts : SessionPc S → Option S
  | .closeEvicted evicted _ _ => some evicted
  | _ => none

/-- The session that the next section removes from the order. -/
def forgets : SessionPc S → Option S
  | .removeOrder id _ => some id
  | _ => none

/-- The call runs.  A stream that is open is not a running call. -/
def inFlight : SessionPc S → Bool
  | .done | .streaming _ => false
  | _ => true

end SessionPc

/-! ### The sessions that a call names -/

def AfterSweep.names : AfterSweep S → List S
  | .stop | .create => []
  | .has id => [id]

def AfterNote.names : AfterNote S → List S
  | .sweep k _ rest => k.names ++ rest
  | .has => []

def AfterRemove.names : AfterRemove S → List S
  | .stop => []
  | .touch created _ => [created]
  | .note n => n.names

def SessionPc.names : SessionPc S → List S
  | .start k | .collect k _ => k.names
  | .expire k _ id rest => id :: k.names ++ rest
  | .removeOrder id r | .removeState id r => id :: r.names
  | .noteExpired id n => id :: n.names
  | .createInner _ | .done => []
  | .closeEvicted evicted id _ => [evicted, id]
  | .record id _ | .hasInner id _ | .shouldExpire id _ | .expireIdle id | .closeInner id | .accessInner id _
  | .touchClock id _ | .touch id _ _ | .openClock id | .markOpen id _ | .streaming id | .markClosed id _ => [id]

/-- The inner manager creates a session under an identifier that no call in flight names. -/
def FreshIdentifiers (_ : BoundedSessionManager S) (calls : List (SessionPc S)) (_ : SessionPc S) :
    SessionInput S → Prop
  | .created id => ∀ pc ∈ calls, id ∉ pc.names
  | .go | .result _ | .order _ => True

instance [DecidableEq S] (m : BoundedSessionManager S) (calls : List (SessionPc S)) (pc : SessionPc S)
    (inp : SessionInput S) : Decidable (FreshIdentifiers m calls pc inp) :=
  match inp with
  | .created id => inferInstanceAs (Decidable (∀ pc ∈ calls, id ∉ pc.names))
  | .go | .result _ | .order _ => isTrue trivial

theorem SessionPc.mem_names_of_forgets {pc : SessionPc S} {id : S} (h : pc.forgets = some id) : id ∈ pc.names := by
  cases pc with
  | removeOrder id' r =>
    obtain rfl := Option.some.inj h
    exact mem_cons_self
  | _ => cases h

/-! ### What a section does to the sessions -/

/-- The call neither records a session next, nor has one evicted or to be removed from the order. -/
structure SessionPc.Plain (pc : SessionPc S) : Prop where
  records : pc.records = none
  evicts : pc.evicts = none
  forgets : pc.forgets = none

theorem plain_sweepNext (k : AfterSweep S) (now : ℕ) (ids : List S) : (sweepNext k now ids).Plain := by
  cases ids with
  | nil => cases k <;> exact ⟨rfl, rfl, rfl⟩
  | cons id rest => exact ⟨rfl, rfl, rfl⟩

theorem plain_afterNote (n : AfterNote S) : n.pc.Plain := by
  cases n with
  | sweep k now rest => exact plain_sweepNext k now rest
  | has => exact ⟨rfl, rfl, rfl⟩

theorem plain_afterRemove (id : S) (r : AfterRemove S) : (r.pc id).Plain := by
  cases r <;> exact ⟨rfl, rfl, rfl⟩

variable {m m' : BoundedSessionManager S} {pc pc' : SessionPc S} {inp : SessionInput S}

theorem recordSession_of_lt {id : S} (h : m.order.length < m.maxSessions) :
    m.recordSession id = ({ m with order := m.order ++ [id] }, none) := by
  unfold BoundedSessionManager.recordSession
  rw [if_neg]
  rw [length_append, length_singleton]
  omega

theorem recordSession_of_cons {id evicted : S} {rest : List S} (horder : m.order = evicted :: rest)
    (h : m.maxSessions ≤ m.order.length) : m.recordSession id = ({ m with order := rest ++ [id] }, some evicted) := by
  unfold BoundedSessionManager.recordSession
  rw [if_pos]
  · rw [horder, cons_append, tail_cons, head?_cons]
  · rw [length_append, length_singleton]
    omega

theorem room_or_front (m : BoundedSessionManager S) :
    m.order.length < m.maxSessions ∨ ∃ evicted rest, m.order = evicted :: rest ∧ m.maxSessions ≤ m.order.length := by
  by_cases hroom : m.order.length < m.maxSessions
  · exact .inl hroom
  · have hpos := m.maxSessions_pos
    cases horder : m.order with
    | nil =>
      rw [horder, length_nil] at hroom
      omega
    | cons evicted rest =>
      rw [horder] at hroom
      exact .inr ⟨evicted, rest, rfl, Nat.le_of_not_lt hroom⟩

variable [DecidableEq S]

/-- A section leaves the sessions alone, closes one, removes one from the order, creates one, or records one, with or
without an eviction. -/
inductive SessionEffect (m : BoundedSessionManager S) :
    SessionPc S → SessionInput S → BoundedSessionManager S → SessionPc S → Prop
  | none {m' : BoundedSessionManager S} {pc pc' : SessionPc S} {inp : SessionInput S} :
      m'.inner = m.inner → m'.order = m.order → m'.issued = m.issued →
      m'.maxSessions = m.maxSessions → pc.Plain → pc'.records = none → pc'.evicts = none →
      (∀ id, pc'.forgets = some id → id ∉ m.inner) → SessionEffect m pc inp m' pc'
  | close {pc pc' : SessionPc S} {inp : SessionInput S} (id) : pc.records = none → (∀ id', pc.evicts = some id' → id' = id) →
      pc'.records = none → pc'.evicts = none → (∀ id', pc'.forgets = some id' → id' = id) →
      SessionEffect m pc inp (m.closeInner id) pc'
  | remove (id r) {inp : SessionInput S} :
      SessionEffect m (.removeOrder id r) inp { m with order := m.order.erase id } (.removeState id r)
  | create (id now) : id ∉ m.issued → SessionEffect m (.createInner now) (.created id)
      { m with inner := insert id m.inner, issued := insert id m.issued } (.record id now)
  | record (id now) {inp : SessionInput S} : m.order.length < m.maxSessions →
      SessionEffect m (.record id now) inp { m with order := m.order ++ [id] } (.touch id now false)
  | displace (id now evicted rest) {inp : SessionInput S} : m.order = evicted :: rest → m.maxSessions ≤ m.order.length →
      SessionEffect m (.record id now) inp { m with order := rest ++ [id] } (.closeEvicted evicted id now)

theorem SessionEffect.of_plain (hinner : m'.inner = m.inner) (horder : m'.order = m.order)
    (hissued : m'.issued = m.issued) (hmax : m'.maxSessions = m.maxSessions) (hpc : pc.Plain) (hpc' : pc'.Plain) :
    SessionEffect m pc inp m' pc' := by
  refine .none hinner horder hissued hmax hpc hpc'.records hpc'.evicts fun id hid => ?_
  rw [hpc'.forgets] at hid
  cases hid

theorem SessionEffect.of_close {id : S} {r : AfterRemove S} {ok : Bool} (hpc : pc.Plain) (hpc' : pc'.Plain) :
    SessionEffect m pc inp (m.closeInner id) (if ok then .removeOrder id r else pc') := by
  refine .close id hpc.records ?_ ?_ ?_ ?_
  · intro id' hid
    rw [hpc.evicts] at hid
    cases hid
  · cases ok with
    | true => rfl
    | false => exact hpc'.records
  · cases ok with
    | true => rfl
    | false => exact hpc'.evicts
  · intro id' hid
    cases ok with
    | true => exact (Option.some.inj hid).symm
    | false =>
      have hnone : pc'.forgets = some id' := hid
      rw [hpc'.forgets] at hnone
      cases hnone

theorem hasInner_sessions {id : S} {now : ℕ} (h : m.advance (.hasInner id now) inp = some (m', pc')) :
    SessionEffect m (.hasInner id now) inp m' pc' := by
  cases inp with
  | result ok =>
    obtain ⟨rfl, rfl⟩ := Prod.mk.inj (Option.some.inj h)
    by_cases hmem : id ∈ m.inner
    · rw [if_pos hmem]
      cases ok <;> exact .of_plain rfl rfl rfl rfl ⟨rfl, rfl, rfl⟩ ⟨rfl, rfl, rfl⟩
    · rw [if_neg hmem]
      cases ok with
      | false => exact .of_plain rfl rfl rfl rfl ⟨rfl, rfl, rfl⟩ ⟨rfl, rfl, rfl⟩
      | true =>
        refine .none rfl rfl rfl rfl ⟨rfl, rfl, rfl⟩ rfl rfl fun id' hid => ?_
        exact Option.some.inj hid ▸ hmem
  | _ => cases h

theorem collect_sessions {k : AfterSweep S} {now : ℕ} (h : m.advance (.collect k now) inp = some (m', pc')) :
    SessionEffect m (.collect k now) inp m' pc' := by
  cases inp with
  | order ids =>
    simp only [BoundedSessionManager.advance] at h
    split at h
    · obtain ⟨-, h⟩ := Option.ite_none_right_eq_some.mp h
      obtain ⟨rfl, rfl⟩ := Prod.mk.inj (Option.some.inj h)
      exact .of_plain rfl rfl rfl rfl ⟨rfl, rfl, rfl⟩ (plain_sweepNext k now [])
    · obtain ⟨-, h⟩ := Option.ite_none_right_eq_some.mp h
      obtain ⟨rfl, rfl⟩ := Prod.mk.inj (Option.some.inj h)
      exact .of_plain rfl rfl rfl rfl ⟨rfl, rfl, rfl⟩ (plain_sweepNext k now ids)
  | _ => cases h

theorem record_sessions {id : S} {now : ℕ} (h : m.advance (.record id now) inp = some (m', pc')) :
    SessionEffect m (.record id now) inp m' pc' := by
  cases inp with
  | go =>
    obtain ⟨rfl, rfl⟩ := Prod.mk.inj (Option.some.inj h)
    rcases room_or_front m with hroom | ⟨evicted, rest, horder, hfull⟩
    · rw [recordSession_of_lt hroom]
      exact .record id now hroom
    · rw [recordSession_of_cons horder hfull]
      exact .displace id now evicted rest horder hfull
  | _ => cases h

/-- **What a section can do to the sessions.** -/
theorem advance_sessions (h : m.advance pc inp = some (m', pc')) : SessionEffect m pc inp m' pc' := by
  cases pc with
  | collect k now => exact collect_sessions h
  | hasInner id now => exact hasInner_sessions h
  | record id now => exact record_sessions h
  | expire k now id rest =>
    cases inp with
    | result ok => cases h; exact .of_close ⟨rfl, rfl, rfl⟩ (plain_sweepNext k now rest)
    | _ => cases h
  | expireIdle id | closeInner id =>
    cases inp with
    | result ok => cases h; exact .of_close ⟨rfl, rfl, rfl⟩ ⟨rfl, rfl, rfl⟩
    | _ => cases h
  | closeEvicted evicted id now =>
    cases inp with
    | result ok =>
      cases h
      exact .close evicted rfl (fun _ hid => (Option.some.inj hid).symm) rfl rfl
        fun _ hid => (Option.some.inj hid).symm
    | _ => cases h
  | removeOrder id r =>
    cases inp with
    | go => cases h; exact .remove id r
    | _ => cases h
  | createInner now =>
    cases inp with
    | created id =>
      obtain ⟨hnew, h⟩ := Option.ite_none_left_eq_some.mp h
      cases h
      exact .create id now hnew
    | result ok =>
      cases ok with
      | true => cases h
      | false => cases h; exact .of_plain rfl rfl rfl rfl ⟨rfl, rfl, rfl⟩ ⟨rfl, rfl, rfl⟩
    | _ => cases h
  | removeState id r =>
    cases inp with
    | go => cases h; exact .of_plain rfl rfl rfl rfl ⟨rfl, rfl, rfl⟩ (plain_afterRemove id r)
    | _ => cases h
  | noteExpired id n =>
    cases inp with
    | go => cases h; exact .of_plain rfl rfl rfl rfl ⟨rfl, rfl, rfl⟩ (plain_afterNote n)
    | _ => cases h
  | shouldExpire id now =>
    cases inp with
    | go =>
      obtain ⟨rfl, rfl⟩ := Prod.mk.inj (Option.some.inj h)
      split <;> exact .of_plain rfl rfl rfl rfl ⟨rfl, rfl, rfl⟩ ⟨rfl, rfl, rfl⟩
    | _ => cases h
  | accessInner id tracked =>
    cases inp with
    | result ok => cases h; cases ok <;> exact .of_plain rfl rfl rfl rfl ⟨rfl, rfl, rfl⟩ ⟨rfl, rfl, rfl⟩
    | _ => cases h
  | touch id now tracked =>
    cases inp with
    | go => cases h; cases tracked <;> exact .of_plain rfl rfl rfl rfl ⟨rfl, rfl, rfl⟩ ⟨rfl, rfl, rfl⟩
    | _ => cases h
  | start k | touchClock id tracked | openClock id | markOpen id now | streaming id | markClosed id now | done =>
    cases inp <;> cases h <;> exact .of_plain rfl rfl rfl rfl ⟨rfl, rfl, rfl⟩ ⟨rfl, rfl, rfl⟩

/-! ### The limit -/

/-- The order keeps the limit, whatever identifiers are given out. -/
structure Limited (limit : ℕ) (m : BoundedSessionManager S) : Prop where
  limit_eq : m.maxSessions = limit
  length_le : m.order.length ≤ limit

theorem Limited.advance {limit : ℕ} (heff : SessionEffect m pc inp m' pc') (h : Limited limit m) :
    Limited limit m' := by
  obtain ⟨hlimit, hlength⟩ := h
  cases heff with
  | none hinner horder hissued hmax =>
    refine ⟨hmax.trans hlimit, ?_⟩
    rwa [horder]
  | close id | create id now => exact ⟨hlimit, hlength⟩
  | remove id r => exact ⟨hlimit, length_erase_le.trans hlength⟩
  | record id now hroom =>
    refine ⟨hlimit, ?_⟩
    rw [length_append, ← hlimit]
    exact hroom
  | displace id now evicted order horder =>
    refine ⟨hlimit, ?_⟩
    rw [horder] at hlength
    rw [length_append]
    exact hlength

theorem limited_step {limit : ℕ} {s t : Pool (BoundedSessionManager S) (SessionPc S)}
    {e : Event ℕ (SessionCall S) (SessionInput S)} (hstep : (sessions S).system.step s e = some t)
    (h : Limited limit s.shared) : Limited limit t.shared := by
  cases Machine.advances_of_step hstep with
  | env seconds m' henv =>
    obtain rfl := Option.some.inj henv
    exact ⟨h.limit_eq, h.length_le⟩
  | enter k => exact h
  | advance i inp pc m' pc' rest calls hpc hadv => exact h.advance (advance_sessions hadv)

theorem limited_new (maxSessions : ℕ) (config : SessionLifecycleConfig) :
    Limited (max maxSessions 1) (BoundedSessionManager.newWithLifecycle (S := S) maxSessions config) :=
  ⟨rfl, Nat.zero_le _⟩

/-! ### The invariant -/

/-- The sessions that were created and are not recorded yet. -/
def recording (calls : List (SessionPc S)) : List S := calls.filterMap SessionPc.records

/-- The sessions that were evicted and are not closed yet. -/
def evicting (calls : List (SessionPc S)) : List S := calls.filterMap SessionPc.evicts

/-- The order is what is left of the log of all recordings, and every session that is alive is accounted for. -/
structure BoundInv (log : List S) (m : BoundedSessionManager S) (calls : List (SessionPc S)) : Prop where
  ordered : m.order.Sublist log
  nodup : (log ++ recording calls).Nodup
  issued : ∀ id ∈ log ++ recording calls, id ∈ m.issued
  alive : ∀ id ∈ m.inner, id ∈ m.order ∨ id ∈ recording calls ∨ id ∈ evicting calls
  gone : ∀ pc ∈ calls, ∀ id, pc.forgets = some id → id ∉ m.inner

section Calls

omit [DecidableEq S]

variable {rest : List (SessionPc S)} {id : S}

theorem recording_cons (h : pc.records = none) : recording (pc :: rest) = recording rest :=
  filterMap_cons_none h

theorem evicting_cons (h : pc.evicts = none) : evicting (pc :: rest) = evicting rest :=
  filterMap_cons_none h

end Calls

namespace BoundInv

variable {log : List S} {calls calls' rest : List (SessionPc S)}

omit [DecidableEq S] in
theorem perm (hperm : calls.Perm calls') (h : BoundInv log m calls) : BoundInv log m calls' := by
  have hrecording : (recording calls).Perm (recording calls') := hperm.filterMap _
  have hevicting : (evicting calls).Perm (evicting calls') := hperm.filterMap _
  refine ⟨h.ordered, ?_, ?_, ?_, ?_⟩
  · exact (hrecording.append_left log).nodup_iff.mp h.nodup
  · intro id hid
    exact h.issued id ((hrecording.append_left log).mem_iff.mpr hid)
  · intro id hid
    rw [← hrecording.mem_iff, ← hevicting.mem_iff]
    exact h.alive id hid
  · intro pc hpc
    exact h.gone pc (hperm.mem_iff.mpr hpc)

omit [DecidableEq S] in
theorem enter (k : SessionCall S) (h : BoundInv log m calls) : BoundInv log m (k.pc :: calls) := by
  have hplain : k.pc.Plain := by cases k <;> exact ⟨rfl, rfl, rfl⟩
  refine ⟨h.ordered, ?_, ?_, ?_, ?_⟩
  · rw [recording_cons hplain.records]
    exact h.nodup
  · rw [recording_cons hplain.records]
    exact h.issued
  · rw [recording_cons hplain.records, evicting_cons hplain.evicts]
    exact h.alive
  · rw [forall_mem_cons]
    refine ⟨fun id hid => ?_, h.gone⟩
    rw [hplain.forgets] at hid
    cases hid

theorem close {id : S} (hrecords : pc.records = none) (hevicts : ∀ id', pc.evicts = some id' → id' = id)
    (hrecords' : pc'.records = none) (hevicts' : pc'.evicts = none)
    (hforgets' : ∀ id', pc'.forgets = some id' → id' = id) (h : BoundInv log m (pc :: rest)) :
    BoundInv log (m.closeInner id) (pc' :: rest) := by
  obtain ⟨hordered, hnodup, hissued, halive, hgone⟩ := h
  rw [recording_cons hrecords] at hnodup hissued halive
  rw [forall_mem_cons] at hgone
  refine ⟨hordered, ?_, ?_, ?_, ?_⟩
  · rw [recording_cons hrecords']
    exact hnodup
  · rw [recording_cons hrecords']
    exact hissued
  · intro other hother
    obtain ⟨hne, hother⟩ := Finset.mem_erase.mp hother
    rw [recording_cons hrecords', evicting_cons hevicts']
    rcases halive other hother with hmem | hmem | hmem
    · exact .inl hmem
    · exact .inr (.inl hmem)
    · -- the call that closes a session has evicted no other
      cases hev : pc.evicts with
      | none =>
        rw [evicting_cons hev] at hmem
        exact .inr (.inr hmem)
      | some id' =>
        rw [evicting, filterMap_cons_some hev] at hmem
        rcases mem_cons.mp hmem with rfl | hmem
        · exact absurd (hevicts _ hev) hne
        · exact .inr (.inr hmem)
  · rw [forall_mem_cons]
    constructor
    · intro other hother
      rw [hforgets' other hother]
      exact Finset.notMem_erase id m.inner
    · intro other hother id' hid hmem
      exact hgone.2 other hother id' hid (Finset.mem_of_mem_erase hmem)

theorem remove {id : S} {r : AfterRemove S} (h : BoundInv log m (.removeOrder id r :: rest)) :
    BoundInv log { m with order := m.order.erase id } (.removeState id r :: rest) := by
  obtain ⟨hordered, hnodup, hissued, halive, hgone⟩ := h
  rw [forall_mem_cons] at hgone
  refine ⟨?_, hnodup, hissued, ?_, ?_⟩
  · exact erase_sublist.trans hordered
  · intro other hother
    have hne : other ≠ id := by
      rintro rfl
      exact hgone.1 other rfl hother
    rcases halive other hother with hmem | hmem
    · exact .inl ((mem_erase_of_ne hne).mpr hmem)
    · exact .inr hmem
  · rw [forall_mem_cons]
    refine ⟨fun id' hid => ?_, hgone.2⟩
    cases hid

theorem create {id : S} {now : ℕ} (hnew : id ∉ m.issued) (hfresh : ∀ pc ∈ rest, id ∉ pc.names)
    (h : BoundInv log m (.createInner now :: rest)) :
    BoundInv log { m with inner := insert id m.inner, issued := insert id m.issued }
      (.record id now :: rest) := by
  obtain ⟨hordered, hnodup, hissued, halive, hgone⟩ := h
  have hnames : (log ++ recording (SessionPc.record id now :: rest)).Perm (id :: (log ++ recording rest)) :=
    perm_middle
  rw [forall_mem_cons] at hgone
  refine ⟨hordered, ?_, ?_, ?_, ?_⟩
  · refine hnames.nodup_iff.mpr (nodup_cons.mpr ⟨?_, hnodup⟩)
    exact fun hmem => hnew (hissued id hmem)
  · intro other hother
    rcases mem_cons.mp (hnames.mem_iff.mp hother) with rfl | hother
    · exact Finset.mem_insert_self _ _
    · exact Finset.mem_insert_of_mem (hissued other hother)
  · intro other hother
    rcases Finset.mem_insert.mp hother with rfl | hother
    · exact .inr (.inl mem_cons_self)
    · rcases halive other hother with hmem | hmem | hmem
      · exact .inl hmem
      · exact .inr (.inl (mem_cons_of_mem _ hmem))
      · exact .inr (.inr hmem)
  · rw [forall_mem_cons]
    refine ⟨nofun, fun other hother id' hid hmem => ?_⟩
    rcases Finset.mem_insert.mp hmem with rfl | hmem
    · exact hfresh other hother (SessionPc.mem_names_of_forgets hid)
    · exact hgone.2 other hother id' hid hmem

omit [DecidableEq S] in
/-- The session is recorded: the log and the order grow by it, and the order may lose its front. -/
theorem record {id : S} {now : ℕ} {order : List S} (hpc' : pc'.records = none) (hforgets' : pc'.forgets = none)
    (hsub : order.Sublist m.order) (hevicted : ∀ other ∈ m.order, other ∈ order ∨ pc'.evicts = some other)
    (h : BoundInv log m (.record id now :: rest)) :
    BoundInv (log ++ [id]) { m with order := order ++ [id] } (pc' :: rest) := by
  obtain ⟨hordered, hnodup, hissued, halive, hgone⟩ := h
  have hnames : log ++ [id] ++ recording (pc' :: rest) = log ++ recording (SessionPc.record id now :: rest) := by
    rw [recording_cons hpc', append_assoc]
    rfl
  have hkept : ∀ other ∈ evicting rest, other ∈ evicting (pc' :: rest) := by
    intro other hother
    obtain ⟨pc, hpc, hev⟩ := mem_filterMap.mp hother
    exact mem_filterMap.mpr ⟨pc, mem_cons_of_mem _ hpc, hev⟩
  rw [forall_mem_cons] at hgone
  refine ⟨(hsub.trans hordered).append_right [id], ?_, ?_, ?_, ?_⟩
  · rw [hnames]
    exact hnodup
  · rw [hnames]
    exact hissued
  · intro other hother
    rcases halive other hother with hmem | hmem | hmem
    · rcases hevicted other hmem with hmem | hev
      · exact .inl (mem_append_left _ hmem)
      · exact .inr (.inr (mem_filterMap.mpr ⟨pc', mem_cons_self, hev⟩))
    · rw [recording_cons hpc']
      rcases mem_cons.mp hmem with rfl | hmem
      · exact .inl (mem_append_right _ mem_cons_self)
      · exact .inr (.inl hmem)
    · exact .inr (.inr (hkept other hmem))
  · rw [forall_mem_cons]
    refine ⟨fun id' hid => ?_, hgone.2⟩
    rw [hforgets'] at hid
    cases hid

/-- One section. -/
theorem advance (heff : SessionEffect m pc inp m' pc') (hfresh : FreshIdentifiers m (pc :: rest) pc inp)
    (h : BoundInv log m (pc :: rest)) : BoundInv (log ++ pc.records.toList) m' (pc' :: rest) := by
  cases heff with
  | none hinner horder hissued hmax hpc hrecords' hevicts' hforgets' =>
    rw [hpc.records, Option.toList_none, append_nil]
    obtain ⟨hordered, hnodup, hissued', halive, hgone⟩ := h
    rw [recording_cons hpc.records] at hnodup hissued' halive
    rw [evicting_cons hpc.evicts] at halive
    rw [forall_mem_cons] at hgone
    refine ⟨?_, ?_, ?_, ?_, ?_⟩
    · rwa [horder]
    · rwa [recording_cons hrecords']
    · rwa [recording_cons hrecords', hissued]
    · rwa [recording_cons hrecords', evicting_cons hevicts', hinner, horder]
    · rw [forall_mem_cons, hinner]
      exact ⟨hforgets', hgone.2⟩
  | close id hrecords hevicts hrecords' hevicts' hforgets' =>
    rw [hrecords, Option.toList_none, append_nil]
    exact h.close hrecords hevicts hrecords' hevicts' hforgets'
  | remove id r =>
    show BoundInv (log ++ []) _ _
    rw [append_nil]
    exact h.remove
  | create id now hnew =>
    show BoundInv (log ++ []) _ _
    rw [append_nil]
    exact h.create hnew fun other hother => hfresh other (mem_cons_of_mem _ hother)
  | record id now hroom =>
    exact h.record rfl rfl (List.Sublist.refl _) fun other hother => .inl hother
  | displace id now evicted order horder hfull =>
    refine h.record rfl rfl ?_ ?_
    · rw [horder]
      exact sublist_cons_self evicted order
    · intro other hother
      rw [horder] at hother
      rcases mem_cons.mp hother with rfl | hother
      · exact .inr rfl
      · exact .inl hother

end BoundInv

/-! ### Runs -/

/-- The session that an event records. -/
def recordingOf (s : Pool (BoundedSessionManager S) (SessionPc S)) :
    Event ℕ (SessionCall S) (SessionInput S) → Option S
  | .advance i _ => s.calls[i]?.bind SessionPc.records
  | .env _ | .enter _ => none

/-- The sessions that a run records, oldest first. -/
def recordings (s : Pool (BoundedSessionManager S) (SessionPc S)) (es : List (Event ℕ (SessionCall S) (SessionInput S))) :
    List S :=
  ((sessions S).system.steps s es).filterMap fun x => recordingOf x.1 x.2

/-- No call is in flight. -/
def Quiet (calls : List (SessionPc S)) : Prop := ∀ pc ∈ calls, pc.inFlight = false

instance (calls : List (SessionPc S)) : Decidable (Quiet calls) :=
  inferInstanceAs (Decidable (∀ pc ∈ calls, pc.inFlight = false))

/-- The session is the oldest of those recorded in the log and still present: of the sessions recorded before it none is
in the order any more, and one that is still alive is being evicted by another call. -/
def Oldest (log : List S) (s : Pool (BoundedSessionManager S) (SessionPc S)) (evicted : S) : Prop :=
  evicted ∈ s.shared.order ∧ ∃ older newer, log = older ++ evicted :: newer ∧
    ∀ id ∈ older, id ∉ s.shared.order ∧ (id ∈ s.shared.inner → id ∈ evicting s.calls)

section Runs

variable {s t : Pool (BoundedSessionManager S) (SessionPc S)} {log : List S}

theorem boundInv_step {e : Event ℕ (SessionCall S) (SessionInput S)} (hstep : (sessions S).system.step s e = some t)
    (hfresh : Machine.Meets FreshIdentifiers s e) (h : BoundInv log s.shared s.calls) :
    BoundInv (log ++ (recordingOf s e).toList) t.shared t.calls := by
  cases Machine.advances_of_step hstep with
  | env seconds m' henv =>
    obtain rfl := Option.some.inj henv
    rw [recordingOf, Option.toList_none, append_nil]
    exact ⟨h.ordered, h.nodup, h.issued, h.alive, h.gone⟩
  | enter k =>
    rw [recordingOf, Option.toList_none, append_nil]
    exact (h.enter k).perm (perm_append_singleton _ _).symm
  | advance i inp pc m' pc' rest calls hpc hadv hcalls hcalls' =>
    rw [recordingOf, hpc]
    have hfresh' : FreshIdentifiers s.shared (pc :: rest) pc inp := by
      have hmeets := hfresh pc hpc
      cases inp with
      | created id => exact fun other hother => hmeets other (hcalls.mem_iff.mpr hother)
      | _ => trivial
    exact ((h.perm hcalls).advance (advance_sessions hadv) hfresh').perm hcalls'.symm

theorem boundInv_run (maxSessions : ℕ) (config : SessionLifecycleConfig)
    {es : List (Event ℕ (SessionCall S) (SessionInput S))}
    (hrun : (sessions S).system.run ⟨.newWithLifecycle maxSessions config, []⟩ es = some t)
    (hfresh : ∀ x ∈ (sessions S).system.steps ⟨.newWithLifecycle maxSessions config, []⟩ es,
      Machine.Meets FreshIdentifiers x.1 x.2) :
    BoundInv (recordings ⟨.newWithLifecycle maxSessions config, []⟩ es) t.shared t.calls := by
  have hinit : BoundInv (S := S) [] (.newWithLifecycle maxSessions config) [] := by
    refine ⟨List.Sublist.refl _, nodup_nil, ?_, ?_, ?_⟩
    · exact fun id hid => absurd hid not_mem_nil
    · exact fun id hid => absurd hid (Finset.notMem_empty id)
    · exact fun pc hpc => absurd hpc not_mem_nil
  have hinv := System.run_outputs (I := fun log s => BoundInv log s.shared s.calls)
    boundInv_step hinit hfresh hrun
  rwa [nil_append] at hinv

omit [DecidableEq S] in
theorem BoundInv.oldest (h : BoundInv log s.shared s.calls) {evicted : S} {rest : List S}
    (horder : s.shared.order = evicted :: rest) : Oldest log s evicted := by
  have hsub := h.ordered
  rw [horder, cons_sublist_iff] at hsub
  obtain ⟨before, newer, hlog, hevicted, hrest⟩ := hsub
  obtain ⟨older, between, rfl⟩ := append_of_mem hevicted
  rw [append_assoc] at hlog
  have hnodup := h.nodup
  rw [hlog, append_assoc] at hnodup
  have hapart := disjoint_of_nodup_append hnodup
  refine ⟨horder ▸ mem_cons_self, older, between ++ newer, hlog, fun id hid => ?_⟩
  have hgone : id ∉ s.shared.order := by
    intro hmem
    rw [horder] at hmem
    refine hapart hid (mem_append_left _ ?_)
    rcases mem_cons.mp hmem with rfl | hmem
    · exact mem_cons_self
    · exact mem_cons_of_mem _ (mem_append_right _ (hrest.subset hmem))
  refine ⟨hgone, fun halive => ?_⟩
  rcases h.alive id halive with hmem | hmem | hmem
  · exact absurd hmem hgone
  · exact absurd (mem_append_right _ hmem) (hapart hid)
  · exact hmem

omit [DecidableEq S] in
theorem BoundInv.mem_order (h : BoundInv log s.shared s.calls) (hquiet : Quiet s.calls) {id : S}
    (halive : id ∈ s.shared.inner) : id ∈ s.shared.order := by
  rcases h.alive id halive with hmem | hmem | hmem
  · exact hmem
  · obtain ⟨pc, hpc, hrecords⟩ := mem_filterMap.mp hmem
    have hdone := hquiet pc hpc
    cases pc <;> cases hrecords
    cases hdone
  · obtain ⟨pc, hpc, hevicts⟩ := mem_filterMap.mp hmem
    have hdone := hquiet pc hpc
    cases pc <;> cases hevicts
    cases hdone

/-- **The bound on sessions.**  After every interleaving of the calls the order has no duplicates and at most
`max_sessions` elements, and if no call is in flight every session that is alive is among them.  A session that is about
to be recorded evicts the oldest one. -/
theorem session_bound (maxSessions : ℕ) (config : SessionLifecycleConfig)
    {es : List (Event ℕ (SessionCall S) (SessionInput S))}
    (hrun : (sessions S).system.run ⟨.newWithLifecycle maxSessions config, []⟩ es = some t)
    (hfresh : ∀ x ∈ (sessions S).system.steps ⟨.newWithLifecycle maxSessions config, []⟩ es,
      Machine.Meets FreshIdentifiers x.1 x.2) : (Quiet t.calls → ∀ id ∈ t.shared.inner, id ∈ t.shared.order) ∧
    t.shared.order.Nodup ∧ t.shared.order.length ≤ max maxSessions 1 ∧
    ∀ id now evicted, .record id now ∈ t.calls → (t.shared.recordSession id).2 = some evicted →
      Oldest (recordings ⟨.newWithLifecycle maxSessions config, []⟩ es) t evicted := by
  have hinv := boundInv_run maxSessions config hrun hfresh
  have hlimited : Limited (max maxSessions 1) t.shared :=
    System.Reaches.induct (I := fun s => Limited (max maxSessions 1) s.shared) (limited_new maxSessions config)
      limited_step (System.reaches_of_run hrun)
  refine ⟨fun hquiet id hid => hinv.mem_order hquiet hid, ?_, hlimited.length_le, ?_⟩
  · exact (nodup_append.mp hinv.nodup).1.sublist hinv.ordered
  · intro id now evicted _ hevicted
    rcases room_or_front t.shared with hroom | ⟨front, rest, horder, hfull⟩
    · rw [recordSession_of_lt hroom] at hevicted
      cases hevicted
    · rw [recordSession_of_cons horder hfull] at hevicted
      obtain rfl := Option.some.inj hevicted
      exact hinv.oldest horder

end Runs

/-- One session was created; a second one is about to be recorded. -/
def secondCreation : List (Event ℕ (SessionCall ℕ) (SessionInput ℕ)) :=
  [.enter .createSession, .advance 0 .go, .advance 0 (.order []), .advance 0 (.created 7), .advance 0 .go, .advance 0 .go,
    .enter .createSession, .advance 1 .go, .advance 1 (.order []), .advance 1 (.created 8)]

/-- The second session is recorded, and the first is evicted and removed. -/
def firstEvicted : List (Event ℕ (SessionCall ℕ) (SessionInput ℕ)) :=
  [.advance 1 .go, .advance 1 (.result true), .advance 1 .go, .advance 1 .go, .advance 1 .go]

/-- A manager of one session. -/
def singleSession : Pool (BoundedSessionManager ℕ) (SessionPc ℕ) :=
  ⟨.newWithLifecycle 1 ⟨.legacyKeepAlive, none⟩, []⟩

theorem session_bound_displacing : ∃ s t, (sessions ℕ).system.run singleSession secondCreation = some s ∧
      Oldest (recordings singleSession secondCreation) s 7 ∧
      (sessions ℕ).system.run singleSession (secondCreation ++ firstEvicted) = some t ∧
      8 ∈ t.shared.inner ∧ ∀ id ∈ t.shared.inner, id ∈ t.shared.order := by
  obtain ⟨s, hs, hrecord⟩ := (Option.any_eq_true (fun s : Pool (BoundedSessionManager ℕ) (SessionPc ℕ) =>
    decide (.record 8 0 ∈ s.calls ∧ (s.shared.recordSession 8).2 = some 7)) _).mp
      (show ((sessions ℕ).system.run singleSession secondCreation).any _ = true by decide)
  obtain ⟨t, ht, hquiet⟩ := (Option.any_eq_true (fun t : Pool (BoundedSessionManager ℕ) (SessionPc ℕ) =>
    decide (Quiet t.calls ∧ 8 ∈ t.shared.inner)) _).mp
      (show ((sessions ℕ).system.run singleSession (secondCreation ++ firstEvicted)).any _ = true by decide)
  obtain ⟨hrecord, hevicted⟩ := of_decide_eq_true hrecord
  obtain ⟨hquiet, halive⟩ := of_decide_eq_true hquiet
  exact ⟨s, t, hs, (session_bound 1 _ hs (by decide)).2.2.2 8 0 7 hrecord hevicted, ht, halive,
    (session_bound 1 _ ht (by decide)).1 hquiet⟩

end McpToolkit.Http

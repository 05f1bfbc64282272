import McpToolkit.Http.SessionBound
import McpToolkit.Http.SessionExpiry

/-!
# McpToolkit.Http.LifecycleEntries — whose entries the lifecycle map holds

`remove_session` takes a session out of `order` and then its entry out of `lifecycle.states`.  But activity and streams
are noted after the inner manager has answered, in a later section, and the note inserts an entry if there is none.  A
note that comes after the removal leaves an entry that belongs to no session (`ghost_entries`); in keep-alive mode no
sweep collects it.

Every entry is accounted for, by the order or by a removal that is still to come, exactly as long as every note finds its
session accounted for (`no_ghost_entries`).
-/

namespace McpToolkit.Http

open List Finmap
open Lib

variable {S : Type}

namespace SessionPc

/-- The session whose entry the call is going to remove. -/
def removes : SessionPc S → Option S
  | .closeEvicted evicted _ _ => some evicted
  | .removeOrder id _ | .removeState id _ => some id
  | _ => none

/-- The session for which the next section inserts an entry if there is none. -/
def notes : SessionPc S → Option S
  | .touch id _ _ | .markOpen id _ => some id
  | _ => none

end SessionPc

/-- The session is recorded, or some call is going to remove its entry. -/
def Accounted (m : BoundedSessionManager S) (calls : List (SessionPc S)) (id : S) : Prop :=
  id ∈ m.order ∨ ∃ pc ∈ calls, pc.removes = some id

/-- Activity or a stream is noted for a session that is accounted for. -/
def NotedInTime (m : BoundedSessionManager S) (calls : List (SessionPc S)) (pc : SessionPc S) (_ : SessionInput S) :
    Prop :=
  ∀ id, pc.notes = some id → Accounted m calls id

/-- Every lifecycle entry is accounted for. -/
def EntriesAccounted (s : Pool (BoundedSessionManager S) (SessionPc S)) : Prop :=
  ∀ id ∈ s.shared.lifecycle.states, Accounted s.shared s.calls id

theorem Accounted.perm {m : BoundedSessionManager S} {calls calls' : List (SessionPc S)} {id : S}
    (hperm : calls.Perm calls') (h : Accounted m calls id) : Accounted m calls' id := by
  rcases h with hmem | ⟨pc, hpc, hremoves⟩
  · exact .inl hmem
  · exact .inr ⟨pc, hperm.mem_iff.mp hpc, hremoves⟩

variable [DecidableEq S]

instance (m : BoundedSessionManager S) (calls : List (SessionPc S)) (id : S) : Decidable (Accounted m calls id) :=
  inferInstanceAs (Decidable (id ∈ m.order ∨ ∃ pc ∈ calls, pc.removes = some id))

instance (m : BoundedSessionManager S) (calls : List (SessionPc S)) (pc : SessionPc S) (inp : SessionInput S) :
    Decidable (NotedInTime m calls pc inp) :=
  inferInstanceAs (Decidable (∀ id ∈ pc.notes, Accounted m calls id))

/-! ### What a section does to the entries -/

section Sections

variable {m m' : BoundedSessionManager S} {pc pc' : SessionPc S} {inp : SessionInput S} {id : S}

theorem mem_order_or_removes (heff : SessionEffect m pc inp m' pc') (h : id ∈ m.order) :
    id ∈ m'.order ∨ pc'.removes = some id := by
  cases heff with
  | none hinner horder => exact .inl (horder ▸ h)
  | close id' => exact .inl h
  | remove id' r =>
    by_cases heq : id = id'
    · exact .inr (heq ▸ rfl)
    · exact .inl ((mem_erase_of_ne heq).mpr h)
  | create id' now => exact .inl h
  | record id' now => exact .inl (mem_append_left _ h)
  | displace id' now evicted order horder =>
    rw [horder] at h
    rcases mem_cons.mp h with rfl | h
    · exact .inr rfl
    · exact .inl (mem_append_left _ h)

theorem removes_of_advance (h : m.advance pc inp = some (m', pc')) (hremoves : pc.removes = some id) :
    pc'.removes = some id ∨ id ∉ m'.lifecycle.states := by
  cases pc with
  | closeEvicted evicted id' now =>
    cases inp with
    | result ok => cases h; exact .inl hremoves
    | _ => cases h
  | removeOrder id' r =>
    cases inp with
    | go => cases h; exact .inl hremoves
    | _ => cases h
  | removeState id' r =>
    cases inp with
    | go =>
      cases h
      obtain rfl := Option.some.inj hremoves
      exact .inr (notMem_erase_self)
    | _ => cases h
  | _ => cases hremoves

theorem mem_states_of_markStreamClosed {rt : SessionLifecycleRuntime S} {id' : S} {now : ℕ}
    (h : id ∈ (rt.markStreamClosed id' now).states) : id ∈ rt.states := by
  unfold SessionLifecycleRuntime.markStreamClosed at h
  split at h
  · exact h
  · rename_i st hst
    rcases mem_insert.mp h with rfl | h
    · exact mem_of_lookup_eq_some hst
    · exact h

theorem mem_states_or_notes (h : m.advance pc inp = some (m', pc')) (hid : id ∈ m'.lifecycle.states) :
    id ∈ m.lifecycle.states ∨ pc.notes = some id := by
  cases hwrites : pc.writes with
  | none =>
    have heq : m'.lifecycle.states = m.lifecycle.states := by
      cases (advance_effect h).entries with
      | same heq => exact heq
      | gone hw | put hw => cases hwrites.symm.trans hw
    exact .inl (heq ▸ hid)
  | some id' =>
    cases pc with
    | removeState id' r | noteExpired id' n =>
      cases inp with
      | go => cases h; exact .inl (mem_erase.mp hid).2
      | _ => cases h
    | touch id' now tracked | markOpen id' now =>
      cases inp with
      | go =>
        cases h
        rcases mem_insert.mp hid with rfl | hid
        · exact .inr rfl
        · exact .inl hid
      | _ => cases h
    | markClosed id' now =>
      cases inp with
      | go => cases h; exact .inl (mem_states_of_markStreamClosed hid)
      | _ => cases h
    | _ => cases hwrites

theorem noted_of_advance (h : m.advance pc inp = some (m', pc')) (hnotes : pc.notes = some id) :
    id ∈ m'.lifecycle.states ∧ m'.order = m.order ∧ pc'.removes = none := by
  cases pc with
  | touch id' now tracked =>
    obtain rfl := Option.some.inj hnotes
    cases inp with
    | go =>
      cases h
      refine ⟨mem_insert.mpr (.inl rfl), rfl, ?_⟩
      cases tracked <;> rfl
    | _ => cases h
  | markOpen id' now =>
    obtain rfl := Option.some.inj hnotes
    cases inp with
    | go => cases h; exact ⟨mem_insert.mpr (.inl rfl), rfl, rfl⟩
    | _ => cases h
  | _ => cases hnotes

variable {rest : List (SessionPc S)}

theorem accounted_of_advance (hadv : m.advance pc inp = some (m', pc')) (h : Accounted m (pc :: rest) id)
    (hid : id ∈ m'.lifecycle.states) : Accounted m' (pc' :: rest) id := by
  rcases h with hmem | ⟨other, hother, hremoves⟩
  · rcases mem_order_or_removes (advance_sessions hadv) hmem with hmem | hremoves
    · exact .inl hmem
    · exact .inr ⟨pc', mem_cons_self, hremoves⟩
  · rcases mem_cons.mp hother with rfl | hother
    · rcases removes_of_advance hadv hremoves with hremoves | hgone
      · exact .inr ⟨pc', mem_cons_self, hremoves⟩
      · exact absurd hid hgone
    · exact .inr ⟨other, mem_cons_of_mem _ hother, hremoves⟩

theorem entriesAccounted_advance_iff (hadv : m.advance pc inp = some (m', pc')) (h : EntriesAccounted ⟨m, pc :: rest⟩) :
    EntriesAccounted ⟨m', pc' :: rest⟩ ↔ NotedInTime m (pc :: rest) pc inp := by
  constructor
  · intro h' id hnotes
    obtain ⟨hid, horder, hremoves'⟩ := noted_of_advance hadv hnotes
    rcases h' id hid with hmem | ⟨other, hother, hremoves⟩
    · exact .inl (horder ▸ hmem)
    · rcases mem_cons.mp hother with rfl | hother
      · cases hremoves'.symm.trans hremoves
      · exact .inr ⟨other, mem_cons_of_mem _ hother, hremoves⟩
  · intro htime id hid
    refine accounted_of_advance hadv ?_ hid
    rcases mem_states_or_notes hadv hid with hold | hnotes
    · exact h id hold
    · exact htime id hnotes

end Sections

/-! ### Runs -/

section Runs

variable {s t : Pool (BoundedSessionManager S) (SessionPc S)} {e : Event ℕ (SessionCall S) (SessionInput S)}

omit [DecidableEq S] in
theorem EntriesAccounted.perm {m : BoundedSessionManager S} {calls calls' : List (SessionPc S)}
    (hperm : calls.Perm calls') (h : EntriesAccounted ⟨m, calls⟩) : EntriesAccounted ⟨m, calls'⟩ :=
  fun id hid => (h id hid).perm hperm

theorem entriesAccounted_step_iff (hstep : (sessions S).system.step s e = some t) (h : EntriesAccounted s) :
    EntriesAccounted t ↔ Machine.Meets NotedInTime s e := by
  cases Machine.advances_of_step hstep with
  | env seconds m' henv =>
    obtain rfl := Option.some.inj henv
    exact iff_of_true h trivial
  | enter k =>
    refine iff_of_true (fun id hid => ?_) trivial
    rcases h id hid with hmem | ⟨pc, hpc, hremoves⟩
    · exact .inl hmem
    · exact .inr ⟨pc, mem_append_left _ hpc, hremoves⟩
  | advance i inp pc m' pc' rest calls hpc hadv hcalls hcalls' =>
    have hfront : EntriesAccounted ⟨s.shared, pc :: rest⟩ := EntriesAccounted.perm hcalls h
    have hiff := entriesAccounted_advance_iff hadv hfront
    constructor
    · intro h' other hother id hnotes
      obtain rfl := Option.some.inj (hpc.symm.trans hother)
      exact (hiff.mp (h'.perm hcalls') id hnotes).perm hcalls.symm
    · intro htime
      refine EntriesAccounted.perm hcalls'.symm (hiff.mpr fun id hnotes => ?_)
      exact (htime pc hpc id hnotes).perm hcalls

omit [DecidableEq S] in
theorem EntriesAccounted.mem_order (h : EntriesAccounted s) (hdone : ∀ pc ∈ s.calls, pc = .done) {id : S}
    (hid : id ∈ s.shared.lifecycle.states) : id ∈ s.shared.order := by
  rcases h id hid with hmem | ⟨pc, hpc, hremoves⟩
  · exact hmem
  · rw [hdone pc hpc] at hremoves
    cases hremoves

theorem entriesAccounted_trace_iff (maxSessions : ℕ) (config : SessionLifecycleConfig)
    (es : List (Event ℕ (SessionCall S) (SessionInput S))) :
    (∀ t ∈ (sessions S).system.trace ⟨.newWithLifecycle maxSessions config, []⟩ es, EntriesAccounted t) ↔
      ∀ x ∈ (sessions S).system.steps ⟨.newWithLifecycle maxSessions config, []⟩ es,
        Machine.Meets NotedInTime x.1 x.2 := by
  refine System.forall_trace_iff (J := fun _ => True) (fun _ _ => trivial) ?_ trivial
    (fun _ hid => absurd hid notMem_empty)
  intro s e t hstep _ h
  exact entriesAccounted_step_iff hstep h

/-- **No entry without a session**, in both modes: if activity and streams are noted in time, then in every state of the
run without a running call or an open stream every lifecycle entry belongs to a session of the order, and there are at
most `max_sessions` of them.  Noting in time is necessary for every entry to be accounted for in every state. -/
theorem no_ghost_entries (maxSessions : ℕ) (config : SessionLifecycleConfig)
    (es : List (Event ℕ (SessionCall S) (SessionInput S))) :
    ((∀ x ∈ (sessions S).system.steps ⟨.newWithLifecycle maxSessions config, []⟩ es,
      Machine.Meets NotedInTime x.1 x.2) →
      ∀ t ∈ (sessions S).system.trace ⟨.newWithLifecycle maxSessions config, []⟩ es, (∀ pc ∈ t.calls, pc = .done) →
        (∀ id ∈ t.shared.lifecycle.states, id ∈ t.shared.order) ∧
        t.shared.lifecycle.states.keys.card ≤ max maxSessions 1) ∧
    ((∀ t ∈ (sessions S).system.trace ⟨.newWithLifecycle maxSessions config, []⟩ es, EntriesAccounted t) ↔
      ∀ x ∈ (sessions S).system.steps ⟨.newWithLifecycle maxSessions config, []⟩ es,
        Machine.Meets NotedInTime x.1 x.2) := by
  have hiff := entriesAccounted_trace_iff maxSessions config es
  refine ⟨fun htime t ht hdone => ?_, hiff⟩
  have haccounted := hiff.mpr htime t ht
  have hlimited : Limited (max maxSessions 1) t.shared :=
    System.forall_trace (J := fun s => Limited (max maxSessions 1) s.shared) limited_step
      (limited_new maxSessions config) t ht
  refine ⟨fun id hid => haccounted.mem_order hdone hid, ?_⟩
  calc t.shared.lifecycle.states.keys.card
      ≤ t.shared.order.toFinset.card := by
        apply Finset.card_le_card
        intro id hid
        exact mem_toFinset.mpr (haccounted.mem_order hdone (mem_keys.mp hid))
    _ ≤ t.shared.order.length := t.shared.order.toFinset_card_le
    _ ≤ max maxSessions 1 := hlimited.length_le

end Runs

/-- A session is created, and a message for it is accepted and noted. -/
def notedAccess : List (Event ℕ (SessionCall ℕ) (SessionInput ℕ)) :=
  [.enter .createSession, .advance 0 .go, .advance 0 (.order []), .advance 0 (.created 7), .advance 0 .go, .advance 0 .go,
    .enter (.access 7), .advance 1 (.result true), .advance 1 .go, .advance 1 .go]

theorem no_ghost_entries_notedAccess :
    ∃ t ∈ (sessions ℕ).system.trace singleSession notedAccess, 7 ∈ t.shared.lifecycle.states ∧
      (∀ id ∈ t.shared.lifecycle.states, id ∈ t.shared.order) ∧ t.shared.lifecycle.states.keys.card ≤ 1 := by
  obtain ⟨t, ht, hdone, hid⟩ : ∃ t ∈ (sessions ℕ).system.trace singleSession notedAccess,
      (∀ pc ∈ t.calls, pc = .done) ∧ 7 ∈ t.shared.lifecycle.states.keys := by
    obtain ⟨t, ht, h⟩ := any_eq_true.mp (show ((sessions ℕ).system.trace singleSession notedAccess).any
      (fun t => decide ((∀ pc ∈ t.calls, pc = .done) ∧ 7 ∈ t.shared.lifecycle.states.keys)) = true by decide)
    exact ⟨t, ht, of_decide_eq_true h⟩
  exact ⟨t, ht, mem_keys.mp hid, (no_ghost_entries 1 _ notedAccess).1 (by decide) t ht hdone⟩

/-- A session is created.  A message for it is accepted, and the session is closed before the activity is noted. -/
def closedBeforeNote (id i : ℕ) : List (Event ℕ (SessionCall ℕ) (SessionInput ℕ)) :=
  [.enter .createSession, .advance i .go, .advance i (.order []), .advance i (.created id), .advance i .go, .advance i .go,
    .enter (.access id), .advance (i + 1) (.result true),
    .enter (.closeSession id), .advance (i + 2) (.result true), .advance (i + 2) .go, .advance (i + 2) .go,
    .advance (i + 1) .go, .advance (i + 1) .go]

/-- A manager of one session is left without a session and with two entries. -/
theorem ghost_entries :
    ∃ t, (sessions ℕ).system.run singleSession (closedBeforeNote 7 0 ++ closedBeforeNote 8 3) = some t ∧
      (∀ pc ∈ t.calls, pc = .done) ∧ t.shared.inner = ∅ ∧ t.shared.order = [] ∧ t.shared.maxSessions = 1 ∧
      t.shared.lifecycle.states.keys.card = 2 := by
  obtain ⟨t, ht, h⟩ := (Option.any_eq_true (fun t : Pool (BoundedSessionManager ℕ) (SessionPc ℕ) =>
    decide ((∀ pc ∈ t.calls, pc = .done) ∧ t.shared.inner = ∅ ∧ t.shared.order = [] ∧ t.shared.maxSessions = 1 ∧
      t.shared.lifecycle.states.keys.card = 2)) _).mp
      (show ((sessions ℕ).system.run singleSession (closedBeforeNote 7 0 ++ closedBeforeNote 8 3)).any _ = true by
        decide)
  exact ⟨t, ht, of_decide_eq_true h⟩

end McpToolkit.Http

import McpToolkit.Lib.Pool
import McpToolkit.Lib.Table
import McpToolkit.Lib.Word

/-!
# McpToolkit.Http.Sessions — the bounded session manager, section by section

`BoundedSessionManager` of `session.rs`, with the tracked streams of `RecordingSessionManager`.  A
section is what runs under one lock, one call of the inner session manager, or one reading of the
clock; between two sections any other call may move.

* The inner manager is known by the sessions it has (`inner`).  It creates sessions under new
  identifiers, `close_session` removes the session and then reports success or an error, and the
  other calls succeed or fail.
* Time is in nanoseconds since the epoch and does not go back; `current_epoch_seconds` reads its
  whole second.
* `touched` is when the lifecycle entry of a session was last written.  No section reads it.
* The sessions that a sweep collects come in the order in which the map is iterated, which is an
  input.
* A tracked stream is one call, from the request that creates it until it ends or is dropped.
-/

namespace McpToolkit.Http

open Lib
open Lib.Word (Duration asSecs u32Max u64Max)

/-! ### Lifecycle states -/

inductive SessionLifecycleMode where
  | legacyKeepAlive
  | connectedUnboundedDisconnectedIdle
  deriving DecidableEq

structure SessionLifecycleConfig where
  mode : SessionLifecycleMode
  disconnectedIdleTimeout : Option Duration
  deriving DecidableEq

structure SessionLifecycleState where
  activeStreams : ℕ
  lastActivityS : ℕ
  disconnectedSinceS : Option ℕ
  deriving DecidableEq

namespace SessionLifecycleState

/-- The entry that is inserted for a session without one. -/
def fresh (now : ℕ) : SessionLifecycleState := ⟨0, now, some now⟩

def touched (now : ℕ) (st : SessionLifecycleState) : SessionLifecycleState :=
  { st with
    lastActivityS := now
    disconnectedSinceS := if st.activeStreams = 0 then some now else st.disconnectedSinceS }

def opened (now : ℕ) (st : SessionLifecycleState) : SessionLifecycleState :=
  ⟨min (st.activeStreams + 1) u32Max, now, none⟩

def closed (now : ℕ) (st : SessionLifecycleState) : SessionLifecycleState :=
  ⟨st.activeStreams - 1, now, if st.activeStreams - 1 = 0 then some now else st.disconnectedSinceS⟩

/-- A session without a stream is disconnected since its last activity. -/
def Consistent (st : SessionLifecycleState) : Prop :=
  st.activeStreams = 0 → st.disconnectedSinceS = some st.lastActivityS

/-- The test of the sweep and of `disconnected_session_should_expire`. -/
def expirable (timeout : Duration) (now : ℕ) (st : SessionLifecycleState) : Bool :=
  !(0 < st.activeStreams) && st.disconnectedSinceS.any fun since => asSecs timeout ≤ now - since

theorem consistent_opened (now : ℕ) (st : SessionLifecycleState) : (st.opened now).Consistent := by
  intro h
  have hpos : 0 < min (st.activeStreams + 1) u32Max := lt_min (Nat.succ_pos _) (by decide)
  exact absurd h hpos.ne'

end SessionLifecycleState

structure SessionLifecycleRuntime (S : Type) where
  config : SessionLifecycleConfig
  states : Finmap fun _ : S => SessionLifecycleState
  expiredSessionsTotal : ℕ
  lastSweepS : ℕ

namespace SessionLifecycleRuntime

variable {S : Type} [DecidableEq S]

def new (config : SessionLifecycleConfig) : SessionLifecycleRuntime S := ⟨config, ∅, 0, 0⟩

def remove (rt : SessionLifecycleRuntime S) (id : S) : SessionLifecycleRuntime S :=
  { rt with states := rt.states.erase id }

def touchSessionActivity (rt : SessionLifecycleRuntime S) (id : S) (now : ℕ) :
    SessionLifecycleRuntime S :=
  { rt with states := rt.states.insert id (((rt.states.lookup id).getD (.fresh now)).touched now) }

def markStreamOpen (rt : SessionLifecycleRuntime S) (id : S) (now : ℕ) : SessionLifecycleRuntime S :=
  { rt with states := rt.states.insert id (((rt.states.lookup id).getD (.fresh now)).opened now) }

def markStreamClosed (rt : SessionLifecycleRuntime S) (id : S) (now : ℕ) :
    SessionLifecycleRuntime S :=
  { rt with
    states := match rt.states.lookup id with
      | none => rt.states
      | some st => rt.states.insert id (st.closed now) }

def disconnectedSessionShouldExpire (rt : SessionLifecycleRuntime S) (id : S) (now : ℕ) : Bool :=
  rt.config.mode = .connectedUnboundedDisconnectedIdle &&
    rt.config.disconnectedIdleTimeout.any fun timeout =>
      (rt.states.lookup id).any fun st => st.expirable timeout now

def noteSessionExpired (rt : SessionLifecycleRuntime S) (id : S) : SessionLifecycleRuntime S :=
  { rt.remove id with expiredSessionsTotal := min (rt.expiredSessionsTotal + 1) u64Max }

def defaultLifecycleSweepIntervalS : ℕ := 5

/-- The timeout, if the sweep goes past its three early returns. -/
def sweepTimeout (rt : SessionLifecycleRuntime S) (now : ℕ) : Option Duration :=
  if rt.config.mode ≠ .connectedUnboundedDisconnectedIdle then none
  else
    match rt.config.disconnectedIdleTimeout with
    | none => none
    | some timeout =>
      if now - rt.lastSweepS < defaultLifecycleSweepIntervalS then none else some timeout

/-- The sessions that a sweep collects. -/
def candidates (rt : SessionLifecycleRuntime S) (timeout : Duration) (now : ℕ) : Finset S :=
  (Table.retain (fun _ st => st.expirable timeout now) rt.states).keys

end SessionLifecycleRuntime

/-! ### The manager -/

structure BoundedSessionManager (S : Type) where
  inner : Finset S
  /-- The identifiers that the inner manager has given out. -/
  issued : Finset S
  maxSessions : ℕ
  maxSessions_pos : 0 < maxSessions
  order : List S
  lifecycle : SessionLifecycleRuntime S
  now : ℕ
  touched : S → ℕ

/-- `new_with_lifecycle`; the limit is at least one. -/
def BoundedSessionManager.newWithLifecycle {S : Type} [DecidableEq S] (maxSessions : ℕ)
    (config : SessionLifecycleConfig) : BoundedSessionManager S where
  inner := ∅
  issued := ∅
  maxSessions := max maxSessions 1
  maxSessions_pos := lt_of_lt_of_le Nat.zero_lt_one (le_max_right _ _)
  order := []
  lifecycle := .new config
  now := 0
  touched _ := 0

/-! ### Calls -/

inductive SessionCall (S : Type) where
  | sweepExpiredSessions
  | createSession
  | hasSession (id : S)
  | closeSession (id : S)
  /-- `initialize_session`, `accept_message`, or a stream that is not tracked. -/
  | access (id : S)
  /-- `create_stream`, `create_standalone_stream` or `resume` of the recording manager. -/
  | trackedStream (id : S)
  deriving DecidableEq

/-- What follows a sweep. -/
inductive AfterSweep (S : Type) where
  | stop
  | create
  | has (id : S)
  deriving DecidableEq

/-- What follows `note_session_expired`. -/
inductive AfterNote (S : Type) where
  | sweep (k : AfterSweep S) (now : ℕ) (rest : List S)
  | has
  deriving DecidableEq

/-- What follows `remove_session`. -/
inductive AfterRemove (S : Type) where
  | stop
  | touch (created : S) (now : ℕ)
  | note (n : AfterNote S)
  deriving DecidableEq

/-- Where a call stands. -/
inductive SessionPc (S : Type) where
  | start (k : AfterSweep S)
  | collect (k : AfterSweep S) (now : ℕ)
  | expire (k : AfterSweep S) (now : ℕ) (id : S) (rest : List S)
  | removeOrder (id : S) (r : AfterRemove S)
  | removeState (id : S) (r : AfterRemove S)
  | noteExpired (id : S) (n : AfterNote S)
  | createInner (now : ℕ)
  | record (id : S) (now : ℕ)
  | closeEvicted (evicted id : S) (now : ℕ)
  | hasInner (id : S) (now : ℕ)
  | shouldExpire (id : S) (now : ℕ)
  | expireIdle (id : S)
  | closeInner (id : S)
  | accessInner (id : S) (tracked : Bool)
  | touchClock (id : S) (tracked : Bool)
  | touch (id : S) (now : ℕ) (tracked : Bool)
  | openClock (id : S)
  | markOpen (id : S) (now : ℕ)
  | streaming (id : S)
  | markClosed (id : S) (now : ℕ)
  | done
  deriving DecidableEq

/-- What a section receives: nothing, the result of an inner call, a new identifier, or the order
in which the map is iterated. -/
inductive SessionInput (S : Type) where
  | go
  | result (ok : Bool)
  | created (id : S)
  | order (ids : List S)
  deriving DecidableEq

variable {S : Type}

def AfterSweep.pc (now : ℕ) : AfterSweep S → SessionPc S
  | .stop => .done
  | .create => .createInner now
  | .has id => .hasInner id now

/-- The loop over the collected sessions. -/
def sweepNext (k : AfterSweep S) (now : ℕ) : List S → SessionPc S
  | [] => k.pc now
  | id :: rest => .expire k now id rest

def AfterNote.pc : AfterNote S → SessionPc S
  | .sweep k now rest => sweepNext k now rest
  | .has => .done

def AfterRemove.pc (id : S) : AfterRemove S → SessionPc S
  | .stop => .done
  | .touch created now => .touch created now false
  | .note n => .noteExpired id n

def SessionCall.pc : SessionCall S → SessionPc S
  | .sweepExpiredSessions => .start .stop
  | .createSession => .start .create
  | .hasSession id => .start (.has id)
  | .closeSession id => .closeInner id
  | .access id => .accessInner id false
  | .trackedStream id => .accessInner id true

namespace BoundedSessionManager

variable [DecidableEq S]

def closeInner (m : BoundedSessionManager S) (id : S) : BoundedSessionManager S :=
  { m with inner := m.inner.erase id }

def withLifecycle (m : BoundedSessionManager S) (rt : SessionLifecycleRuntime S) :
    BoundedSessionManager S :=
  { m with lifecycle := rt }

/-- The entry of the session is written. -/
def withEntry (m : BoundedSessionManager S) (id : S) (rt : SessionLifecycleRuntime S) :
    BoundedSessionManager S :=
  { m with lifecycle := rt, touched := Function.update m.touched id m.now }

def currentEpochSeconds (m : BoundedSessionManager S) : ℕ := asSecs m.now

/-- `record_session`: the new order and the evicted session. -/
def recordSession (m : BoundedSessionManager S) (id : S) : BoundedSessionManager S × Option S :=
  let order := m.order ++ [id]
  if m.maxSessions < order.length then ({ m with order := order.tail }, order.head?)
  else ({ m with order := order }, none)

/-- One section of a call. -/
def advance (m : BoundedSessionManager S) :
    SessionPc S → SessionInput S → Option (BoundedSessionManager S × SessionPc S)
  | .start k, .go => some (m, .collect k m.currentEpochSeconds)
  | .collect k now, .order ids =>
    match m.lifecycle.sweepTimeout now with
    | none => if ids = [] then some (m, k.pc now) else none
    | some timeout =>
      if ids.Nodup ∧ ids.toFinset = m.lifecycle.candidates timeout now then
        some (m.withLifecycle { m.lifecycle with lastSweepS := now }, sweepNext k now ids)
      else none
  | .expire k now id rest, .result ok =>
    some (m.closeInner id,
      if ok then .removeOrder id (.note (.sweep k now rest)) else sweepNext k now rest)
  | .removeOrder id r, .go => some ({ m with order := m.order.erase id }, .removeState id r)
  | .removeState id r, .go => some (m.withLifecycle (m.lifecycle.remove id), r.pc id)
  | .noteExpired id n, .go => some (m.withLifecycle (m.lifecycle.noteSessionExpired id), n.pc)
  | .createInner now, .created id =>
    if id ∈ m.issued then none
    else some ({ m with inner := insert id m.inner, issued := insert id m.issued }, .record id now)
  | .createInner _, .result false => some (m, .done)
  | .record id now, .go =>
    some ((m.recordSession id).1, match (m.recordSession id).2 with
      | none => .touch id now false
      | some evicted => .closeEvicted evicted id now)
  | .closeEvicted evicted id now, .result _ =>
    some (m.closeInner evicted, .removeOrder evicted (.touch id now))
  | .hasInner id now, .result ok =>
    some (m, if !ok then .done
      else if id ∈ m.inner then .shouldExpire id now else .removeOrder id .stop)
  | .shouldExpire id now, .go =>
    some (m, if m.lifecycle.disconnectedSessionShouldExpire id now then .expireIdle id else .done)
  | .expireIdle id, .result ok =>
    some (m.closeInner id, if ok then .removeOrder id (.note .has) else .done)
  | .closeInner id, .result ok => some (m.closeInner id, if ok then .removeOrder id .stop else .done)
  | .accessInner id tracked, .result ok => some (m, if ok then .touchClock id tracked else .done)
  | .touchClock id tracked, .go => some (m, .touch id m.currentEpochSeconds tracked)
  | .touch id now tracked, .go =>
    some (m.withEntry id (m.lifecycle.touchSessionActivity id now),
      if tracked then .openClock id else .done)
  | .openClock id, .go => some (m, .markOpen id m.currentEpochSeconds)
  | .markOpen id now, .go => some (m.withEntry id (m.lifecycle.markStreamOpen id now), .streaming id)
  | .streaming id, .go => some (m, .markClosed id m.currentEpochSeconds)
  | .markClosed id now, .go => some (m.withEntry id (m.lifecycle.markStreamClosed id now), .done)
  | _, _ => none

/-- Time passes. -/
def tick (m : BoundedSessionManager S) (elapsed : Duration) : BoundedSessionManager S :=
  { m with now := m.now + elapsed }

end BoundedSessionManager

/-- The manager with all its calls. -/
def sessions (S : Type) [DecidableEq S] :
    Machine (BoundedSessionManager S) (SessionPc S) ℕ (SessionCall S) (SessionInput S) where
  env m elapsed := some (m.tick elapsed)
  enter k := k.pc
  advance m pc inp := m.advance pc inp

end McpToolkit.Http

import McpToolkit.Http.EventStore

/-!
# McpToolkit.Http.Replay — what a replay can return

The memory store keys its queues by a text made of the session and the request.  That text
determines both, whatever the session identifier contains (`streamId_injective`): behind the last
bar stand digits or a word, and neither has a bar.

A run of the store keeps the log of what was stored.  Every queue is a sublist of the log of its
stream (`Kept`), because events are appended at the end and all else only removes events.  So a
replay returns events of its own session and request that come after the given one, in the order in
which they were stored (`replay_isolated`).
-/

namespace McpToolkit.Http

open List Finmap
open Lib
open Lib.Decimal (decimal decimal_injective digitChar_toNat mem_decimal)
open Lib.Text (append_cons_inj_of_last)
open Lib.Word (Duration)

/-! ### Stream identifiers -/

theorem digitChar_ne_bar : ∀ d < 10, d.digitChar ≠ '|' := by decide

theorem bar_notMem_request (id : ℕ) : '|' ∉ "req:".toList ++ decimal Nat.digitChar id := by
  intro h
  rcases mem_append.mp h with h | h
  · revert h; decide
  · obtain ⟨d, hd, hc⟩ := mem_decimal h
    exact digitChar_ne_bar d hd hc

/-- **A stream identifier determines the session and the request.** -/
theorem streamId_injective {session session' : Text} {request request' : Option ℕ}
    (h : streamId session request = streamId session' request') : session = session' ∧ request = request' := by
  have hcommon : '|' ∉ "common".toList := by decide
  cases request with
  | none =>
    cases request' with
    | none => exact ⟨(append_cons_inj_of_last hcommon hcommon h).1, rfl⟩
    | some id' =>
      have heq := (append_cons_inj_of_last hcommon (bar_notMem_request id') h).2
      exact absurd (List.cons.inj heq).1 (by decide)
  | some id =>
    cases request' with
    | none =>
      have heq := (append_cons_inj_of_last (bar_notMem_request id) hcommon h).2
      exact absurd (List.cons.inj heq).1 (by decide)
    | some id' =>
      obtain ⟨hs, heq⟩ := append_cons_inj_of_last (bar_notMem_request id) (bar_notMem_request id') h
      have hid : id = id' := decimal_injective (fun c : Char => c.toNat - 48) digitChar_toNat
        (append_cancel_left heq)
      exact ⟨hs, congrArg some hid⟩

/-! ### Runs -/

/-- An event with the session and the request it was stored under. -/
structure EventRecord (M : Type) where
  session : Text
  request : Option ℕ
  event : StoredEvent M
  deriving DecidableEq

namespace EventRecord

variable {M : Type}

def stream (r : EventRecord M) : Text := streamId r.session r.request

/-- The record of a message that has an event identifier. -/
def of (session : Text) (message : ServerSseMessage M) (createdAt : ℤ) : Option (EventRecord M) := do
  let eventId ← message.eventId
  let parsed ← parseEventId eventId
  return ⟨session, parsed.httpRequestId, ⟨parsed.index, eventId, message.message, createdAt⟩⟩

theorem storedEvent_eq (session : Text) (message : ServerSseMessage M) (createdAt : ℤ) :
    storedEvent session message createdAt = (of session message createdAt).map fun r => (r.stream, r.event) := by
  rw [storedEvent, of]
  cases message.eventId with
  | none => rfl
  | some eventId => cases h : parseEventId eventId <;> simp [stream]

/-- Stored under the session, with the request and behind the index of the event `last`. -/
def follows (session last : Text) (r : EventRecord M) : Bool :=
  (parseEventId last).any fun parsed =>
    r.session == session && r.request == parsed.httpRequestId && parsed.index < r.event.seq

/-- The event as a replay returns it, if its message can be read back. -/
def replayed (codec : PayloadCodec M) (r : EventRecord M) : Option (Text × M) :=
  (r.event.message.bind fun m => codec.parse (codec.serialize m)).map fun m => (r.event.eventId, m)

end EventRecord

/-- The memory store and everything that was stored in it. -/
structure EventRun (M : Type) where
  memory : MemoryState M
  log : List (EventRecord M)

inductive EventCall (M : Type) where
  | store (session : Text) (message : ServerSseMessage M) (createdAt now : ℤ)
  | replay (session last : Text) (now : ℤ)

variable {M : Type}

/-- The event store as a system of calls. -/
def memoryEvents (codec : PayloadCodec M) (config : EventStoreConfig) :
    System (EventRun M) (EventCall M) where
  step run
    | .store session message createdAt now =>
      some ⟨storeMemory config run.memory session message createdAt now,
        run.log ++ (EventRecord.of session message createdAt).toList⟩
    | .replay session last now => some ⟨(replayMemory codec config run.memory session last now).2, run.log⟩

def EventRun.start : EventRun M := ⟨.empty, []⟩

/-! ### Queues and the log -/

/-- What was stored in a stream, in order. -/
def streamLog (log : List (EventRecord M)) (stream : Text) : List (StoredEvent M) :=
  (log.filter fun r => r.stream = stream).map EventRecord.event

theorem streamLog_append (log : List (EventRecord M)) (r : EventRecord M) (stream : Text) :
    streamLog (log ++ [r]) stream = streamLog log stream ++ if r.stream = stream then [r.event] else [] := by
  rw [streamLog, filter_append, map_append]
  by_cases h : r.stream = stream
  · rw [if_pos h, filter_cons_of_pos (by simpa using h)]
    rfl
  · rw [if_neg h, filter_cons_of_neg (by simpa using h)]
    rfl

/-- Every queue is a sublist of the log of its stream. -/
def Kept (st : MemoryState M) (log : List (EventRecord M)) : Prop :=
  ∀ stream queue, st.streams.lookup stream = some queue → queue.Sublist (streamLog log stream)

namespace MemoryState

theorem lookup_trimLoop (maxStreams : ℕ) {stream : Text} {queue : List (StoredEvent M)} :
    ∀ (order : List Text) (streams : Finmap fun _ : Text => List (StoredEvent M)),
      (trimLoop maxStreams streams order).streams.lookup stream = some queue →
        streams.lookup stream = some queue
  | [], _, h => h
  | evicted :: order, streams, h => by
    rw [trimLoop] at h
    split_ifs at h
    · have hrest := lookup_trimLoop maxStreams order _ h
      by_cases hev : stream = evicted
      · rw [hev, lookup_erase] at hrest
        cases hrest
      · rwa [lookup_erase_ne hev] at hrest
    · exact h

theorem sublist_pruneExpired {ttl : Option Duration} {now : ℤ} {st : MemoryState M} {stream : Text}
    {queue : List (StoredEvent M)} (h : (st.pruneExpired ttl now).streams.lookup stream = some queue) :
    ∃ whole, st.streams.lookup stream = some whole ∧ queue.Sublist whole := by
  cases ttl with
  | none => exact ⟨queue, h, List.Sublist.refl _⟩
  | some ttl =>
    rw [pruneExpired, Table.lookup_retainMut, Option.bind_eq_some_iff] at h
    obtain ⟨whole, hwhole, hfresh⟩ := h
    refine ⟨whole, hwhole, ?_⟩
    obtain ⟨-, hq⟩ := Option.ite_none_left_eq_some.mp hfresh
    rw [← Option.some.inj hq]
    exact filter_sublist

end MemoryState

open MemoryState

theorem Kept.pruneExpired {st : MemoryState M} {log : List (EventRecord M)} (h : Kept st log)
    (ttl : Option Duration) (now : ℤ) : Kept (st.pruneExpired ttl now) log := by
  intro stream queue hq
  obtain ⟨whole, hwhole, hsub⟩ := sublist_pruneExpired hq
  exact hsub.trans (h stream whole hwhole)

theorem Kept.storeEvent {st : MemoryState M} {log : List (EventRecord M)} (h : Kept st log)
    (config : EventStoreConfig) (r : EventRecord M) (now : ℤ) :
    Kept (st.storeEvent config r.stream r.event now) (log ++ [r]) := by
  refine Kept.pruneExpired ?_ _ _
  intro stream queue hq
  have hq := lookup_trimLoop _ _ _ hq
  rw [streamLog_append]
  by_cases hs : stream = r.stream
  · subst hs
    rw [lookup_insert, Option.some.injEq] at hq
    rw [if_pos rfl, ← hq]
    refine List.Sublist.append ?_ (List.Sublist.refl _)
    have hold : ((st.streams.lookup r.stream).getD []).Sublist (streamLog log r.stream) := by
      cases hl : st.streams.lookup r.stream with
      | none => exact nil_sublist _
      | some queue => exact h r.stream queue hl
    split_ifs
    · exact (tail_sublist _).trans hold
    · exact hold
  · rw [lookup_insert_of_ne _ hs] at hq
    rw [if_neg (Ne.symm hs), append_nil]
    exact h stream queue hq

theorem Kept.step {codec : PayloadCodec M} {config : EventStoreConfig} {run run' : EventRun M}
    {call : EventCall M} (hstep : (memoryEvents codec config).step run call = some run')
    (h : Kept run.memory run.log) : Kept run'.memory run'.log := by
  cases call with
  | store session message createdAt now =>
    obtain rfl := Option.some.inj hstep
    rw [storeMemory, EventRecord.storedEvent_eq]
    cases EventRecord.of session message createdAt with
    | none => rwa [Option.toList_none, append_nil]
    | some r => exact h.storeEvent config r now
  | replay session last now =>
    obtain rfl := Option.some.inj hstep
    unfold replayMemory
    cases parseEventId last with
    | none => exact h
    | some parsed =>
      unfold replayAfter
      dsimp only
      split <;> exact h.pruneExpired _ _

theorem kept_of_reaches {codec : PayloadCodec M} {config : EventStoreConfig} {t : EventRun M}
    (h : (memoryEvents codec config).Reaches .start t) : Kept t.memory t.log := by
  refine h.induct (I := fun run => Kept run.memory run.log) ?_ Kept.step
  intro stream queue hq
  have hnone : (∅ : Finmap fun _ : Text => List (StoredEvent M)).lookup stream = none :=
    lookup_empty stream
  exact absurd (hnone.symm.trans hq) (by simp)

/-! ### Replays -/

theorem readRows_map (codec : PayloadCodec M) (events : List (StoredEvent M)) :
    readRows codec (events.map (row codec)) =
      events.filterMap fun e => (e.message.bind fun m => codec.parse (codec.serialize m)).map
        fun m => (e.eventId, m) := by
  rw [readRows, filterMap_map]
  refine filterMap_congr fun e _ => ?_
  rw [Function.comp_apply, row]
  cases e.message <;> rfl

theorem follows_eq {session last : Text} {parsed : ParsedEventId}
    (hlast : parseEventId last = some parsed) (r : EventRecord M) : r.follows session last =
      (decide (parsed.index < r.event.seq) && decide (r.stream = streamId session parsed.httpRequestId)) := by
  have hstream : r.stream = streamId session parsed.httpRequestId ↔
      r.session = session ∧ r.request = parsed.httpRequestId := by
    refine ⟨streamId_injective, fun h => ?_⟩
    rw [EventRecord.stream, h.1, h.2]
  rw [EventRecord.follows, hlast, Option.any_some, Bool.eq_iff_iff, Bool.and_eq_true, Bool.and_eq_true,
    Bool.and_eq_true, beq_iff_eq, beq_iff_eq, decide_eq_true_eq, decide_eq_true_eq, hstream, and_comm]

theorem filterMap_follows (codec : PayloadCodec M) (log : List (EventRecord M)) {session last : Text}
    {parsed : ParsedEventId} (hlast : parseEventId last = some parsed) :
    (log.filter (EventRecord.follows session last)).filterMap (EventRecord.replayed codec) =
      readRows codec (((streamLog log (streamId session parsed.httpRequestId)).filter
        fun e => parsed.index < e.seq).map (row codec)) := by
  rw [readRows_map, streamLog, filter_map, filterMap_map, filter_filter, filter_congr fun r _ => follows_eq hlast r]
  rfl

/-- **Replay isolation and order.**  Streams of different sessions or requests have different
identifiers; and in every run, a replay returns only events that were stored under its session and
its request behind the given index, in the order in which they were stored. -/
theorem replay_isolated (codec : PayloadCodec M) (config : EventStoreConfig) {t : EventRun M}
    (hrun : (memoryEvents codec config).Reaches .start t) (session last : Text) (now : ℤ) :
    (∀ s s' request request', streamId s request = streamId s' request' → s = s' ∧ request = request') ∧
      (replayMemory codec config t.memory session last now).1.Sublist
        ((t.log.filter (EventRecord.follows session last)).filterMap (EventRecord.replayed codec)) := by
  refine ⟨fun _ _ _ _ => streamId_injective, ?_⟩
  have hkept := (kept_of_reaches hrun).pruneExpired config.ttl now
  unfold replayMemory
  cases hlast : parseEventId last with
  | none => exact nil_sublist _
  | some parsed =>
    rw [filterMap_follows codec t.log hlast]
    unfold replayAfter
    dsimp only
    split
    · exact nil_sublist _
    · rename_i queue hqueue
      exact (((hkept _ queue hqueue).filter _).map _).filterMap _

/-- A codec for numbers that writes them as texts of that length. -/
def lengthCodec : PayloadCodec ℕ where
  serialize n := List.replicate n 'x'
  parse text := some text.length
  encrypt _ text := text
  decrypt := some
  decrypt_encrypt _ _ := rfl

/-- Two sessions whose identifiers could be taken for one another's streams. -/
def sampleStores : List (EventCall ℕ) :=
  [.store "a".toList ⟨some "0/1".toList, some 3⟩ 0 0, .store "a|req:1".toList ⟨some "1".toList, some 4⟩ 0 0,
    .store "a".toList ⟨some "1/1".toList, some 5⟩ 0 0, .replay "a".toList "0/1".toList 0]

theorem replay_isolated_of_sampleStores :
    ∃ t, (memoryEvents lengthCodec ⟨2, 1, some 60⟩).Reaches .start t ∧ t.log.length = 3 ∧
      (replayMemory lengthCodec ⟨2, 1, some 60⟩ t.memory "a".toList "0/1".toList 0).1.Sublist
        ((t.log.filter (EventRecord.follows "a".toList "0/1".toList)).filterMap
          (EventRecord.replayed lengthCodec)) := by
  obtain ⟨t, hrun, hlog⟩ := (memoryEvents lengthCodec ⟨2, 1, some 60⟩).exists_reaches_of_run .start sampleStores
    (p := fun t => t.log.length = 3) (by decide)
  exact ⟨t, hrun, hlog, (replay_isolated lengthCodec ⟨2, 1, some 60⟩ hrun _ _ 0).2⟩

end McpToolkit.Http

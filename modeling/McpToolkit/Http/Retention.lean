import McpToolkit.Http.StoreHistory
import McpToolkit.Lib.Recency

/-!
# McpToolkit.Http.Retention — what the memory store keeps

Calls of `store_event` and `replay_after` in any order, with a clock that does not go back.  The streams of the map are
those of the order, within both bounds.  Whether an event is older than `ttl` the store decides by whole seconds and in
signed words.  A call after which the two bounds alone have taken events that are not older, and that returns none that is
older, is one for which both do not matter (`SecondsSuffice`): the seconds of `ttl` fit, where a `ttl` that is too long
puts the cutoff into the future and every event is too old, and the parts of a second that the readings and the cutoff
leave out do not change the answer.

Instants are in nanoseconds since the epoch.  `born` tells when an event was created; the store knows its second only.
-/

namespace McpToolkit.Http

open List Finmap MemoryState
open Lib
open Lib.Recency (Before touch nodup_touch mem_touch touch_sublist before_of_sublist)
open Lib.Word (Duration asI64 asI64_of_le asSecs i64Max u64Max wrapI64 wrapI64_of_mem)

variable {M : Type}

/-! ### Ages -/

section Ages

variable (born : StoredEvent M → ℕ)

/-- The event is not older than `ttl`. -/
def young (ttl : Option Duration) (instant : ℕ) (e : StoredEvent M) : Bool :=
  ttl.all fun ttl : Duration => instant ≤ born e + ttl

/-- The test of `prune_expired`. -/
def afterCutoff (ttl : Option Duration) (now : ℤ) (e : StoredEvent M) : Bool :=
  ttl.all fun ttl : Duration => wrapI64 (now - asI64 (asSecs ttl)) ≤ e.createdAt

/-- The cutoff can be computed in a signed word. -/
def TtlFits (ttl : Option Duration) (now : ℤ) : Prop := ∀ d ∈ ttl, (asSecs d : ℤ) ≤ 2 ^ 63 + now

/-- The parts of a second do not matter: in the last second in which the event is kept it is not older than `ttl`, and in
the second behind that it is. -/
def Aligned (ttl : Option Duration) (instant : ℕ) (e : StoredEvent M) : Prop :=
  ∀ d ∈ ttl, (asSecs instant = asSecs (born e) + asSecs d →
      instant % 1000000000 ≤ born e % 1000000000 + d % 1000000000) ∧
    (asSecs instant = asSecs (born e) + asSecs d + 1 →
      born e % 1000000000 + d % 1000000000 < instant % 1000000000 + 1000000000)

instance (ttl : Option Duration) (now : ℤ) : Decidable (TtlFits ttl now) :=
  inferInstanceAs (Decidable (∀ d ∈ ttl, (asSecs d : ℤ) ≤ 2 ^ 63 + now))

instance (ttl : Option Duration) (instant : ℕ) (e : StoredEvent M) : Decidable (Aligned born ttl instant e) :=
  inferInstanceAs (Decidable (∀ d ∈ ttl, (_ → _) ∧ (_ → _)))

theorem cutoff_eq {secs : ℕ} {now : ℤ} (hnow : 0 ≤ now) (hnow' : now ≤ i64Max) (hfits : (secs : ℤ) ≤ 2 ^ 63 + now) :
    wrapI64 (now - asI64 secs) = now - secs := by
  unfold i64Max at hnow'
  have hbmod : wrapI64 (now - asI64 secs) = wrapI64 (now - secs) := by
    by_cases hle : secs ≤ i64Max
    · rw [asI64_of_le hle]
    · have hsub : now - asI64 secs = now - secs + 2 ^ 64 := by
        rw [asI64, if_neg hle]
        omega
      have hturn := Int.add_bmod_right (now - secs) (2 ^ 64)
      rw [hsub]
      exact_mod_cast hturn
  rw [hbmod]
  exact wrapI64_of_mem (by omega) (by omega)

variable {born} {ttl : Option Duration} {instant : ℕ} {e : StoredEvent M}

/-- Where the seconds fit and suffice, `prune_expired` keeps what is not older than `ttl`. -/
theorem afterCutoff_eq_young (hmax : asSecs instant ≤ i64Max) (hdate : e.createdAt = asSecs (born e))
    (hfits : TtlFits ttl (asSecs instant)) (haligned : Aligned born ttl instant e) :
    afterCutoff ttl (asSecs instant) e = young born ttl instant e := by
  cases ttl with
  | none => rfl
  | some d =>
    obtain ⟨hlast, hnext⟩ := haligned d rfl
    have hcutoff := cutoff_eq (Int.natCast_nonneg _) (Int.ofNat_le.mpr hmax) (hfits d rfl)
    rw [afterCutoff, young, Option.all_some, Option.all_some, hcutoff, hdate, decide_eq_decide]
    unfold asSecs at *
    omega

end Ages

/-! ### Pruning and trimming -/

namespace MemoryState

variable {st : MemoryState M} {id : Text}

/-- The events of a stream. -/
def held (st : MemoryState M) (id : Text) : List (StoredEvent M) := (st.streams.lookup id).getD []

theorem held_pruneExpired (ttl : Option Duration) (now : ℤ) :
    (st.pruneExpired ttl now).held id = (st.held id).filter (afterCutoff ttl now) := by
  cases ttl with
  | none =>
    exact (filter_eq_self.mpr fun _ _ => rfl).symm
  | some d =>
    unfold held pruneExpired
    rw [Table.lookup_retainMut]
    cases st.streams.lookup id with
    | none => rfl
    | some queue =>
      have hfresh : freshQueue (wrapI64 (now - asI64 (asSecs d))) queue =
          if (queue.filter (afterCutoff (some d) now)).isEmpty then none
          else some (queue.filter (afterCutoff (some d) now)) := rfl
      rw [Option.bind_some, hfresh]
      split_ifs with hempty
      · exact (isEmpty_iff.mp hempty).symm
      · rfl

theorem order_trimLoop (maxStreams : ℕ) (order : List Text) (streams : Finmap fun _ : Text => List (StoredEvent M)) :
    (trimLoop maxStreams streams order).order = order.drop (order.length - maxStreams) := by
  induction order generalizing streams with
  | nil => rw [trimLoop, drop_nil]
  | cons evicted order ih =>
    rw [trimLoop, length_cons]
    split_ifs with hover
    · rw [ih, Nat.succ_sub (Nat.lt_succ_iff.mp hover), drop_succ_cons]
    · rw [Nat.sub_eq_zero_of_le (Nat.le_of_not_lt hover), drop_zero]

theorem lookup_trimLoop_eq (maxStreams : ℕ) (order : List Text)
    (streams : Finmap fun _ : Text => List (StoredEvent M)) : (trimLoop maxStreams streams order).streams.lookup id =
      if id ∈ order.take (order.length - maxStreams) then none else streams.lookup id := by
  induction order generalizing streams with
  | nil => simp [trimLoop]
  | cons evicted order ih =>
    rw [trimLoop, length_cons]
    by_cases hover : maxStreams < order.length + 1
    · rw [if_pos hover, ih, Nat.succ_sub (Nat.lt_succ_iff.mp hover), take_succ_cons]
      by_cases hid : id = evicted
      · rw [hid, lookup_erase, ite_self, if_pos mem_cons_self]
      · simp [hid]
    · rw [if_neg hover, Nat.sub_eq_zero_of_le (Nat.le_of_not_lt hover), take_zero, if_neg not_mem_nil]

theorem held_trimStreams (maxStreams : ℕ) : (st.trimStreams maxStreams).held id =
      if id ∈ st.order.take (st.order.length - maxStreams) then [] else st.held id := by
  rw [held, trimStreams, lookup_trimLoop_eq]
  split_ifs <;> rfl

/-- The state with the new event, before streams are trimmed and events expire. -/
def written (config : EventStoreConfig) (st : MemoryState M) (r : EventRecord M) : MemoryState M :=
  ⟨st.streams.insert r.stream ((if config.maxEvents ≤ (st.held r.stream).length then (st.held r.stream).tail
    else st.held r.stream) ++ [r.event]), touch st.order r.stream⟩

theorem storeEvent_eq (config : EventStoreConfig) (r : EventRecord M) (now : ℤ) :
    st.storeEvent config r.stream r.event now =
      ((st.written config r).trimStreams config.maxStreams).pruneExpired config.ttl now := rfl

/-- The events of a stream with the new one, the oldest dropped if there are too many. -/
def offered (config : EventStoreConfig) (st : MemoryState M) (r : EventRecord M) (id : Text) : List (StoredEvent M) :=
  if id = r.stream then newest config.maxEvents (st.held id ++ [r.event]) else st.held id

variable {config : EventStoreConfig} {r : EventRecord M}

theorem held_written (hk : 0 < config.maxEvents)
    (hlen : (st.held r.stream).length ≤ config.maxEvents) : (st.written config r).held id = st.offered config r id := by
  unfold offered
  by_cases hid : id = r.stream
  · have hall : newest config.maxEvents (st.held r.stream) = st.held r.stream := by
      rw [newest, Nat.sub_eq_zero_of_le hlen, drop_zero]
    rw [if_pos hid, hid, newest_concat hk, hall, held, written, lookup_insert, Option.getD_some]
  · rw [if_neg hid, held, written, lookup_insert_of_ne _ hid]
    rfl

theorem length_offered_le
    (hlen : (st.held id).length ≤ config.maxEvents) : (st.offered config r id).length ≤ config.maxEvents := by
  unfold offered
  split_ifs
  · rw [newest, length_drop]
    omega
  · exact hlen

theorem mem_of_mem_offered {e : StoredEvent M} (h : e ∈ st.offered config r id) : e ∈ st.held id ∨ e = r.event := by
  unfold offered at h
  split_ifs at h
  · rcases mem_append.mp (mem_of_mem_drop h) with h | h
    · exact .inl h
    · exact .inr (List.mem_singleton.mp h)
  · exact .inl h

/-! ### The two structures in step -/

/-- The map and the order name the same streams, and each has an event. -/
structure Tidy (st : MemoryState M) : Prop where
  nodup : st.order.Nodup
  mem_iff : ∀ id, id ∈ st.streams ↔ id ∈ st.order
  nonempty : ∀ id ∈ st.order, st.held id ≠ []

theorem mem_streams_iff : id ∈ st.streams ↔ ∃ queue, st.streams.lookup id = some queue := mem_iff

theorem Tidy.written (h : st.Tidy) (r : EventRecord M) : (st.written config r).Tidy where
  nodup := nodup_touch h.nodup
  mem_iff id := by
    rw [MemoryState.written, mem_insert, mem_touch, h.mem_iff]
  nonempty id hid := by
    rw [held, MemoryState.written]
    dsimp only
    by_cases heq : id = r.stream
    · rw [heq, lookup_insert]
      exact concat_ne_nil _ _
    · rw [lookup_insert_of_ne _ heq]
      exact h.nonempty id ((mem_touch.mp hid).resolve_left heq)

theorem Tidy.trimStreams (h : st.Tidy) (maxStreams : ℕ) : (st.trimStreams maxStreams).Tidy := by
  have happ := take_append_drop (st.order.length - maxStreams) st.order
  have hnodup := h.nodup
  rw [← happ] at hnodup
  have hapart := disjoint_of_nodup_append hnodup
  have hmem : ∀ id, id ∈ (st.trimStreams maxStreams).order ↔
      id ∈ st.order ∧ id ∉ st.order.take (st.order.length - maxStreams) := by
    intro id
    rw [MemoryState.trimStreams, order_trimLoop]
    constructor
    · intro hid
      exact ⟨mem_of_mem_drop hid, fun htake => hapart htake hid⟩
    · rintro ⟨hid, htake⟩
      rw [← happ, mem_append] at hid
      exact hid.resolve_left htake
  refine ⟨?_, ?_, ?_⟩
  · rw [MemoryState.trimStreams, order_trimLoop]
    exact h.nodup.sublist (drop_sublist _ _)
  · intro id
    rw [hmem, ← h.mem_iff, mem_streams_iff, mem_streams_iff, MemoryState.trimStreams, lookup_trimLoop_eq]
    split_ifs with htake
    · simp [htake]
    · simp [htake]
  · intro id hid
    obtain ⟨hid, htake⟩ := (hmem id).mp hid
    rw [held_trimStreams, if_neg htake]
    exact h.nonempty id hid

theorem length_order_trimStreams_le (maxStreams : ℕ) : (st.trimStreams maxStreams).order.length ≤ maxStreams := by
  rw [trimStreams, order_trimLoop, length_drop]
  omega

theorem order_pruneExpired_sublist (ttl : Option Duration) (now : ℤ) :
    (st.pruneExpired ttl now).order.Sublist st.order := by
  cases ttl with
  | none => exact List.Sublist.refl _
  | some d => exact filter_sublist

theorem ne_nil_of_freshQueue {cutoff : ℤ} {queue queue' : List (StoredEvent M)}
    (h : freshQueue cutoff queue = some queue') : queue' ≠ [] := by
  obtain ⟨hne, heq⟩ := Option.ite_none_left_eq_some.mp h
  rw [← Option.some.inj heq]
  exact fun hnil => hne (isEmpty_iff.mpr hnil)

theorem Tidy.pruneExpired (h : st.Tidy) (ttl : Option Duration) (now : ℤ) : (st.pruneExpired ttl now).Tidy := by
  cases ttl with
  | none => exact h
  | some d =>
    have hlookup : ∀ id, (st.pruneExpired (some d) now).streams.lookup id =
        (st.streams.lookup id).bind (freshQueue (wrapI64 (now - asI64 (asSecs d)))) := by
      intro id
      exact Table.lookup_retainMut
    have hiff : ∀ id, id ∈ (st.pruneExpired (some d) now).streams ↔ id ∈ (st.pruneExpired (some d) now).order := by
      intro id
      rw [mem_streams_iff, hlookup, MemoryState.pruneExpired, mem_filter, ← h.mem_iff, mem_streams_iff]
      cases st.streams.lookup id with
      | none => simp
      | some queue =>
        rw [← Option.isSome_iff_exists]
        simp
    refine ⟨h.nodup.sublist (order_pruneExpired_sublist _ now), hiff, fun id hid => ?_⟩
    obtain ⟨queue', hqueue'⟩ := mem_streams_iff.mp ((hiff id).mpr hid)
    rw [held, hqueue']
    rw [hlookup] at hqueue'
    obtain ⟨queue, -, hfresh⟩ := Option.bind_eq_some_iff.mp hqueue'
    exact ne_nil_of_freshQueue hfresh

end MemoryState

/-! ### Histories -/

namespace EventCall

def record : EventCall M → Option (EventRecord M)
  | .store session message createdAt _ => EventRecord.of session message createdAt
  | .replay _ _ _ => none

def now : EventCall M → ℤ
  | .store _ _ _ now | .replay _ _ now => now

/-- The event identifier can be read, so that the call comes to the store. -/
def reaches : EventCall M → Bool
  | .store session message createdAt _ => (EventRecord.of session message createdAt).isSome
  | .replay _ last _ => (parseEventId last).isSome

end EventCall

/-- A call, and the instant at which it reads the clock under the lock. -/
structure TimedCall (M : Type) where
  call : EventCall M
  instant : ℕ

/-- The clock does not go back: the call reads it under the lock, and a stored event has read it before. -/
def TimedCall.Follows (born : StoredEvent M → ℕ) (clock : ℕ) (c : TimedCall M) : Prop :=
  clock ≤ c.instant ∧ c.call.now = asSecs c.instant ∧ asSecs c.instant ≤ i64Max ∧
    ∀ r ∈ c.call.record, r.event.createdAt = asSecs (born r.event) ∧ born r.event ≤ c.instant

instance (born : StoredEvent M → ℕ) (clock : ℕ) (c : TimedCall M) : Decidable (c.Follows born clock) :=
  inferInstanceAs (Decidable (_ ∧ _ ∧ _ ∧ ∀ r ∈ c.call.record, _ ∧ _))

/-- The store, the streams in the order in which they were last written, and the last instant at which it read the
clock. -/
structure RetentionRun (M : Type) where
  memory : MemoryState M
  recency : List Text
  clock : ℕ

def RetentionRun.start : RetentionRun M := ⟨.empty, [], 0⟩

section Calls

variable (codec : PayloadCodec M) (config : EventStoreConfig) (born : StoredEvent M → ℕ)

def RetentionRun.after (run : RetentionRun M) (c : TimedCall M) : RetentionRun M :=
  ⟨match c.call with
    | .store session message createdAt now => storeMemory config run.memory session message createdAt now
    | .replay session last now => (replayMemory codec config run.memory session last now).2,
    c.call.record.elim run.recency fun r => touch run.recency r.stream, c.instant⟩

/-- Histories with a clock that does not go back. -/
def memoryHistories : System (RetentionRun M) (TimedCall M) :=
  ⟨fun run c => if c.Follows born run.clock then some (run.after codec config c) else none⟩

/-- The keys of the map are the elements of the order, within both bounds. -/
structure Bounded (st : MemoryState M) : Prop where
  nodup : st.order.Nodup
  keys : st.streams.keys = st.order.toFinset
  fewStreams : st.order.length ≤ config.maxStreams
  fewEvents : ∀ id, (st.held id).length ≤ config.maxEvents

/-- A replay returns messages of events that are not older than `ttl`. -/
def ReturnsYoung (run : RetentionRun M) (c : TimedCall M) : Prop :=
  match c.call with
  | .store _ _ _ _ => True
  | .replay session last now => ∀ x ∈ (replayMemory codec config run.memory session last now).1,
    ∃ id, ∃ e ∈ run.memory.held id, young born config.ttl c.instant e = true ∧
      x ∈ readRows codec [row codec e]

/-- The events of a stream that a call has to keep, as far as the bound on events goes. -/
def RetentionRun.offered (run : RetentionRun M) (call : EventCall M) (id : Text) : List (StoredEvent M) :=
  call.record.elim (run.memory.held id) fun r => run.memory.offered config r id

/-- The stream is lost to the bound on streams: as many streams as there may be were written after it. -/
def Displaced (run : RetentionRun M) (call : EventCall M) (after : RetentionRun M) (id : Text) : Prop :=
  ∃ r, call.record = some r ∧ ∃ newer : List Text, newer.Nodup ∧ newer.length = config.maxStreams ∧
    ∀ other ∈ newer, (other = r.stream ∨ other ∈ run.memory.order) ∧ Before after.recency id other

/-- Events that are not older than `ttl` are kept, apart from the two bounds. -/
def KeepsYoung (run : RetentionRun M) (c : TimedCall M) (after : RetentionRun M) : Prop :=
  ∀ id, ((run.offered config c.call id).filter (young born config.ttl c.instant)).Sublist (after.memory.held id) ∨
    Displaced config run c.call after id

/-- Whole seconds in signed words tell the call which of the events it has at hand are older than `ttl`. -/
def SecondsSuffice (run : RetentionRun M) (c : TimedCall M) : Prop :=
  c.call.reaches = true → ∀ id, ∀ e ∈ run.offered config c.call id,
    TtlFits config.ttl c.call.now ∧ Aligned born config.ttl c.instant e

/-- What a call does to the store: nothing, or it stores an event, or it lets events expire. -/
inductive MemoryEffect (st : MemoryState M) (call : EventCall M) : MemoryState M → Prop
  | none : call.reaches = false → call.record = none → MemoryEffect st call st
  | store (r : EventRecord M) : call.reaches = true → call.record = some r →
      MemoryEffect st call (st.storeEvent config r.stream r.event call.now)
  | expire : call.reaches = true → call.record = none → MemoryEffect st call (st.pruneExpired config.ttl call.now)

variable {codec config born} {run : RetentionRun M} {c : TimedCall M} {r : EventRecord M}

theorem replayAfter_snd (st : MemoryState M) (stream : Text) (last : ℕ) (now : ℤ) :
    (st.replayAfter codec config stream last now).2 = st.pruneExpired config.ttl now := by
  unfold replayAfter
  dsimp only
  split <;> rfl

/-- Every call has one of the three effects. -/
theorem memoryEffect : MemoryEffect config run.memory c.call (run.after codec config c).memory := by
  obtain ⟨call, instant⟩ := c
  cases call with
  | store session message createdAt now =>
    show MemoryEffect config run.memory _ (storeMemory config run.memory session message createdAt now)
    rw [storeMemory, EventRecord.storedEvent_eq]
    cases hrecord : EventRecord.of session message createdAt with
    | none => exact .none (by rw [EventCall.reaches, hrecord]; rfl) hrecord
    | some r => exact .store r (by rw [EventCall.reaches, hrecord]; rfl) hrecord
  | replay session last now =>
    show MemoryEffect config run.memory _ (replayMemory codec config run.memory session last now).2
    unfold replayMemory
    cases hlast : parseEventId last with
    | none => exact .none (by rw [EventCall.reaches, hlast]; rfl) rfl
    | some parsed =>
      rw [replayAfter_snd]
      exact .expire (by rw [EventCall.reaches, hlast]; rfl) rfl

/-! ### The invariant -/

variable (config born) in
structure RetentionInv (run : RetentionRun M) : Prop where
  tidy : run.memory.Tidy
  fewStreams : run.memory.order.length ≤ config.maxStreams
  fewEvents : ∀ id, (run.memory.held id).length ≤ config.maxEvents
  ordered : run.memory.order.Sublist run.recency
  recency : run.recency.Nodup
  dated : ∀ id, ∀ e ∈ run.memory.held id, e.createdAt = asSecs (born e)

/-- The streams that a store removes for their number. -/
def displacedStreams (config : EventStoreConfig) (st : MemoryState M) (r : EventRecord M) : List Text :=
  (touch st.order r.stream).take ((touch st.order r.stream).length - config.maxStreams)

theorem held_storeEvent (hk : 0 < config.maxEvents) {st : MemoryState M} {now : ℤ} {id : Text}
    (hlen : (st.held r.stream).length ≤ config.maxEvents) : (st.storeEvent config r.stream r.event now).held id =
      (if id ∈ displacedStreams config st r then [] else st.offered config r id).filter (afterCutoff config.ttl now) := by
  rw [storeEvent_eq, held_pruneExpired, held_trimStreams,
    held_written hk hlen]
  rfl

theorem order_storeEvent_sublist {st : MemoryState M} {now : ℤ} :
    (st.storeEvent config r.stream r.event now).order.Sublist (touch st.order r.stream) := by
  refine (order_pruneExpired_sublist _ _).trans ?_
  rw [trimStreams, order_trimLoop]
  exact drop_sublist _ _

namespace RetentionInv

theorem bounded (h : RetentionInv config born run) : Bounded config run.memory where
  nodup := h.tidy.nodup
  keys := by
    ext id
    rw [Finmap.mem_keys, mem_toFinset, h.tidy.mem_iff]
  fewStreams := h.fewStreams
  fewEvents := h.fewEvents

theorem start : RetentionInv config born RetentionRun.start := by
  have hheld : ∀ id, (empty : MemoryState M).held id = [] := by
    intro id
    rfl
  refine ⟨⟨nodup_nil, fun id => ?_, ?_⟩, Nat.zero_le _, fun id => ?_, List.Sublist.refl _, nodup_nil, ?_⟩
  · exact iff_of_false notMem_empty not_mem_nil
  · exact fun id hid => absurd hid not_mem_nil
  · exact (congrArg List.length (hheld id)).trans_le (Nat.zero_le _)
  · intro id e he
    cases he

/-- One call. -/
theorem after (hk : 0 < config.maxEvents) (hc : c.Follows born run.clock) (h : RetentionInv config born run) :
    RetentionInv config born (run.after codec config c) := by
  have hrecency : (run.after codec config c).recency =
      c.call.record.elim run.recency fun r => touch run.recency r.stream := rfl
  have heff : MemoryEffect config run.memory c.call (run.after codec config c).memory := memoryEffect
  generalize hafter : (run.after codec config c) = after at *
  obtain ⟨memory, recency, clock⟩ := after
  dsimp only at heff hrecency
  subst hrecency
  cases heff with
  | none _ hrecord =>
    rw [hrecord]
    exact ⟨h.tidy, h.fewStreams, h.fewEvents, h.ordered, h.recency, h.dated⟩
  | store r _ hrecord =>
    rw [hrecord]
    refine ⟨?_, ?_, fun id => ?_, ?_, nodup_touch h.recency, fun id e he => ?_⟩
    · exact ((h.tidy.written r).trimStreams _).pruneExpired _ _
    · exact (order_pruneExpired_sublist _ _).length_le.trans (length_order_trimStreams_le _)
    · rw [held_storeEvent hk (h.fewEvents r.stream)]
      refine (List.length_filter_le _ _).trans ?_
      split_ifs
      · exact Nat.zero_le _
      · exact length_offered_le (h.fewEvents id)
    · exact order_storeEvent_sublist.trans (touch_sublist h.ordered)
    · rw [held_storeEvent hk (h.fewEvents r.stream)] at he
      have he := mem_of_mem_filter he
      split_ifs at he
      · cases he
      · rcases mem_of_mem_offered he with he | rfl
        · exact h.dated id e he
        · exact (hc.2.2.2 r hrecord).1
  | expire _ hrecord =>
    rw [hrecord]
    refine ⟨h.tidy.pruneExpired _ _, ?_, fun id => ?_, ?_, h.recency, fun id e he => ?_⟩
    · exact (order_pruneExpired_sublist _ _).length_le.trans h.fewStreams
    · rw [held_pruneExpired]
      exact (List.length_filter_le _ _).trans (h.fewEvents id)
    · exact (order_pruneExpired_sublist _ _).trans h.ordered
    · rw [held_pruneExpired] at he
      exact h.dated id e (mem_of_mem_filter he)

theorem dated_offered (h : RetentionInv config born run) (hc : c.Follows born run.clock) {id : Text}
    {e : StoredEvent M} (he : e ∈ run.offered config c.call id) : e.createdAt = asSecs (born e) := by
  unfold RetentionRun.offered at he
  cases hrecord : c.call.record with
  | none =>
    rw [hrecord] at he
    exact h.dated id e he
  | some r =>
    rw [hrecord] at he
    rcases mem_of_mem_offered he with he | rfl
    · exact h.dated id e he
    · exact (hc.2.2.2 r hrecord).1

/-- Where whole seconds suffice, the test of the store is the right one for all events at hand. -/
theorem afterCutoff_eq (h : RetentionInv config born run) (hc : c.Follows born run.clock)
    (hs : SecondsSuffice config born run c) (hreaches : c.call.reaches = true) {id : Text} {e : StoredEvent M}
    (he : e ∈ run.offered config c.call id) :
    afterCutoff config.ttl c.call.now e = young born config.ttl c.instant e := by
  obtain ⟨hfits, haligned⟩ := hs hreaches id e he
  rw [hc.2.1] at hfits ⊢
  exact afterCutoff_eq_young hc.2.2.1 (h.dated_offered hc he) hfits haligned

end RetentionInv

/-! ### Replays -/

theorem mem_readRows {x : Text × M} {rows : List StoredRow} (h : x ∈ readRows codec rows) :
    ∃ row ∈ rows, x ∈ readRows codec [row] := by
  obtain ⟨row, hrow, hx⟩ := mem_filterMap.mp h
  exact ⟨row, hrow, mem_filterMap.mpr ⟨row, mem_singleton_self row, hx⟩⟩

theorem returnsYoung (h : RetentionInv config born run) (hc : c.Follows born run.clock)
    (hs : SecondsSuffice config born run c) : ReturnsYoung codec config born run c := by
  obtain ⟨call, instant⟩ := c
  cases call with
  | store => trivial
  | replay session last now =>
    intro x hx
    unfold replayMemory at hx
    cases hlast : parseEventId last with
    | none =>
      rw [hlast] at hx
      cases hx
    | some parsed =>
      rw [hlast] at hx
      obtain ⟨row, hrow, hx⟩ := mem_readRows hx
      have hqueue : ∃ e ∈ (run.memory.pruneExpired config.ttl now).held (streamId session parsed.httpRequestId),
          MemoryState.row codec e = row := by
        unfold replayAfter at hrow
        dsimp only at hrow
        unfold held
        cases hlookup : (run.memory.pruneExpired config.ttl now).streams.lookup
            (streamId session parsed.httpRequestId) with
        | none =>
          rw [hlookup] at hrow
          cases hrow
        | some queue =>
          rw [hlookup] at hrow
          obtain ⟨e, he, rfl⟩ := mem_map.mp hrow
          exact ⟨e, mem_of_mem_filter he, rfl⟩
      obtain ⟨e, he, rfl⟩ := hqueue
      rw [held_pruneExpired] at he
      obtain ⟨he, hkept⟩ := mem_filter.mp he
      refine ⟨_, e, he, ?_, hx⟩
      have hreaches : (EventCall.replay session last now : EventCall M).reaches = true := by
        rw [EventCall.reaches, hlast]
        rfl
      exact (h.afterCutoff_eq hc hs hreaches he).symm.trans hkept

/-! ### What is lost -/

section Lost

theorem recency_after (hrecord : c.call.record = some r) :
    (run.after codec config c).recency = touch run.recency r.stream := by
  show c.call.record.elim run.recency (fun r => touch run.recency r.stream) = touch run.recency r.stream
  rw [hrecord, Option.elim_some]

variable (h : RetentionInv config born run)
include h

theorem displaced_of_mem (hrecord : c.call.record = some r) {id : Text}
    (hid : id ∈ displacedStreams config run.memory r) : Displaced config run c.call (run.after codec config c) id := by
  have happ := take_append_drop ((touch run.memory.order r.stream).length - config.maxStreams)
    (touch run.memory.order r.stream)
  have hover : config.maxStreams ≤ (touch run.memory.order r.stream).length := by
    by_contra hroom
    rw [displacedStreams, Nat.sub_eq_zero_of_le (not_le.mp hroom).le] at hid
    cases hid
  refine ⟨r, hrecord, (touch run.memory.order r.stream).drop
    ((touch run.memory.order r.stream).length - config.maxStreams), ?_, ?_, fun other hother => ⟨?_, ?_⟩⟩
  · exact (nodup_touch h.tidy.nodup).sublist (drop_sublist _ _)
  · rw [length_drop]
    omega
  · exact mem_touch.mp (mem_of_mem_drop hother)
  · rw [recency_after hrecord]
    refine before_of_sublist (nodup_touch h.recency) ?_ hid hother
    rw [displacedStreams, happ]
    exact touch_sublist h.ordered

/-- What a call keeps of the events that it has to keep, if whole seconds suffice. -/
theorem keepsYoung (hc : c.Follows born run.clock) (hs : SecondsSuffice config born run c)
    (hk : 0 < config.maxEvents) : KeepsYoung config born run c (run.after codec config c) := by
  have heff : MemoryEffect config run.memory c.call (run.after codec config c).memory := memoryEffect
  have hyoung : c.call.reaches = true → ∀ id, (run.offered config c.call id).filter (young born config.ttl c.instant) =
      (run.offered config c.call id).filter (afterCutoff config.ttl c.call.now) :=
    fun hreaches id => filter_congr fun e he => (h.afterCutoff_eq hc hs hreaches he).symm
  intro id
  generalize hafter : (run.after codec config c).memory = memory at heff
  cases heff with
  | none _ hrecord =>
    left
    rw [RetentionRun.offered, hrecord]
    exact filter_sublist
  | store r hreaches hrecord =>
    rw [hyoung hreaches]
    by_cases hid : id ∈ displacedStreams config run.memory r
    · exact .inr (displaced_of_mem h hrecord hid)
    · left
      rw [RetentionRun.offered, hrecord, held_storeEvent hk (h.fewEvents r.stream), if_neg hid, Option.elim_some]
  | expire hreaches hrecord =>
    left
    rw [hyoung hreaches, RetentionRun.offered, hrecord, held_pruneExpired, Option.elim_none]

end Lost

end Calls

/-- The creation of events that carry its instant as their message. -/
def bornAsTold (e : StoredEvent ℕ) : ℕ := e.message.getD 0

/-- An event of the common stream of a session, created and stored at an instant. -/
def storeAt (session : Text) (instant : ℕ) : TimedCall ℕ :=
  ⟨.store session ⟨some ['0'], some instant⟩ (asSecs instant) (asSecs instant), instant⟩

/-- Two streams with room for one, and a replay when the second event is as old as it may be. -/
def displacedThenReplayed : List (TimedCall ℕ) :=
  [storeAt ['a'] 100200000000, storeAt ['b'] 110500000000, ⟨.replay ['b'] ['0'] 170, 170500000000⟩]

theorem mem_order_of_mem_held {config : EventStoreConfig} {st : MemoryState M} (h : Bounded config st) {id : Text}
    {e : StoredEvent M} (he : e ∈ st.held id) : id ∈ st.order := by
  rw [← mem_toFinset, ← h.keys, Finmap.mem_keys, ← lookup_isSome, Option.isSome_iff_ne_none]
  intro hnone
  rw [held, hnone] at he
  cases he

/-- The longest `ttl` there is. -/
def longestTtl : EventStoreConfig := ⟨1, 1, some (u64Max * 1000000000 + 999999999)⟩

/-- An event that is stored in the autumn of 2023. -/
def storedLate : TimedCall ℕ := storeAt ['a'] 1700000000000000000

end McpToolkit.Http

import McpToolkit.Http.Replay
import McpToolkit.Http.SqliteEvents

/-!
# McpToolkit.Http.StoreHistory — histories of both event stores

A history is a list of calls of `store_event`, made on a memory store and on a SQLite store.  It is
orderly when the indices of every stream count up from zero and the streams are not too many.  When
nothing expires, the memory store then has the newest `maxEvents` events of every stream
(`MemoryLog`).
-/

namespace McpToolkit.Http

open List MemoryState

variable {M : Type}

/-! ### Lists of numbered events -/

/-- The last `k` elements. -/
def newest {α : Type} (k : ℕ) (l : List α) : List α := l.drop (l.length - k)

theorem newest_concat {α : Type} {k : ℕ} (hk : 0 < k) (l : List α) (e : α) : newest k (l ++ [e]) =
      (if k ≤ (newest k l).length then (newest k l).tail else newest k l) ++ [e] := by
  have hlen : (newest k l).length = l.length - (l.length - k) := length_drop
  have hdrop : newest k (l ++ [e]) = l.drop (l.length + 1 - k) ++ [e] := by
    rw [newest, length_append, length_singleton, drop_append_of_le_length (by omega)]
  rw [hdrop]
  split_ifs with h
  · rw [newest, tail_drop]
    congr 2
    omega
  · congr 2
    omega

/-- The events are numbered from `a` on. -/
def NumberedFrom (a : ℕ) (l : List (StoredEvent M)) : Prop := l.map StoredEvent.seq = List.range' a l.length

namespace NumberedFrom

variable {a m k : ℕ} {l : List (StoredEvent M)} {e : StoredEvent M}

theorem seq_lt (h : NumberedFrom a l) (he : e ∈ l) : a ≤ e.seq ∧ e.seq < a + l.length := by
  have hmem : e.seq ∈ l.map StoredEvent.seq := mem_map_of_mem he
  rw [h, mem_range'_1] at hmem
  exact hmem

theorem filter_eq_drop (h : NumberedFrom a l) : (l.filter fun e => a + m ≤ e.seq) = l.drop m := by
  induction l generalizing a m with
  | nil => rw [filter_nil, drop_nil]
  | cons e l ih =>
    cases m with
    | zero =>
      refine filter_eq_self.mpr fun e' he' => ?_
      exact decide_eq_true (h.seq_lt he').1
    | succ m =>
      rw [NumberedFrom, map_cons, length_cons, range'_succ, List.cons.injEq] at h
      have hfirst : ¬a + (m + 1) ≤ e.seq := by rw [h.1]; omega
      have hnext := ih (m := m) h.2
      rw [filter_cons_of_neg (by simpa using hfirst), drop_succ_cons, ← hnext]
      rw [Nat.add_right_comm, Nat.add_assoc]

theorem filter_eq_newest (h : NumberedFrom 0 l) (k : ℕ) : (l.filter fun e => l.length - k ≤ e.seq) = newest k l := by
  have hdrop := h.filter_eq_drop (m := l.length - k)
  simp only [Nat.zero_add] at hdrop
  exact hdrop

theorem concat_iff : NumberedFrom 0 (l ++ [e]) ↔ NumberedFrom 0 l ∧ e.seq = l.length := by
  rw [NumberedFrom, map_append, length_append, length_singleton, range'_concat, Nat.zero_add, Nat.one_mul]
  constructor
  · intro h
    obtain ⟨hl, he⟩ := append_inj h (by simp)
    exact ⟨hl, (List.cons.inj he).1⟩
  · rintro ⟨hl, he⟩
    rw [hl, map_singleton, he]

theorem pairwise (h : NumberedFrom a l) : l.Pairwise fun e e' => e.seq ≤ e'.seq := by
  have hrange : (l.map StoredEvent.seq).Pairwise (· ≤ ·) := by
    rw [h]
    exact pairwise_le_range'
  exact pairwise_map.mp hrange

end NumberedFrom

/-! ### Histories -/

/-- One call of `store_event` on both stores, with what it reads from the clock and what it leaves
to the database. -/
structure StoreCall (M : Type) where
  session : Text
  message : ServerSseMessage M
  createdAt : ℤ
  now : ℤ
  nonce : ℕ
  rank : Text → ℕ

def StoreCall.record (c : StoreCall M) : Option (EventRecord M) :=
  EventRecord.of c.session c.message c.createdAt

def logOf (calls : List (StoreCall M)) : List (EventRecord M) := calls.filterMap StoreCall.record

theorem logOf_concat (calls : List (StoreCall M)) (c : StoreCall M) :
    logOf (calls ++ [c]) = logOf calls ++ c.record.toList := by
  rw [logOf, filterMap_append]
  cases h : c.record with
  | none => rw [filterMap_cons_none h]; rfl
  | some r => rw [filterMap_cons_some h]; rfl

section Stores

variable (codec : PayloadCodec M) (config : EventStoreConfig)

def memoryAfter (calls : List (StoreCall M)) : MemoryState M :=
  calls.foldl (fun st c => storeMemory config st c.session c.message c.createdAt c.now) .empty

def sqliteAfter (calls : List (StoreCall M)) : Database :=
  calls.foldl (fun db c => storeSqlite codec config db c.session c.message c.createdAt c.nonce c.rank c.now)
    .empty

theorem memoryAfter_concat (calls : List (StoreCall M)) (c : StoreCall M) :
    memoryAfter config (calls ++ [c]) =
      match c.record with
      | none => memoryAfter config calls
      | some r => (memoryAfter config calls).storeEvent config r.stream r.event c.now := by
  rw [memoryAfter, foldl_append, foldl_cons, storeMemory, EventRecord.storedEvent_eq]
  unfold StoreCall.record
  cases EventRecord.of c.session c.message c.createdAt <;> rfl

theorem sqliteAfter_concat (calls : List (StoreCall M)) (c : StoreCall M) :
    sqliteAfter codec config (calls ++ [c]) =
      match c.record with
      | none => sqliteAfter codec config calls
      | some r =>
        (sqliteAfter codec config calls).storeEventSync codec config r.stream r.event c.nonce c.rank c.now := by
  rw [sqliteAfter, foldl_append, foldl_cons, storeSqlite, EventRecord.storedEvent_eq]
  unfold StoreCall.record
  cases EventRecord.of c.session c.message c.createdAt <;> rfl

end Stores

/-- The streams that were written. -/
def streamsOf (log : List (EventRecord M)) : Finset Text := (log.map EventRecord.stream).toFinset

/-- The indices of every stream count up from zero, and there are no more streams than allowed. -/
structure Orderly (config : EventStoreConfig) (log : List (EventRecord M)) : Prop where
  numbered : ∀ stream, NumberedFrom 0 (streamLog log stream)
  few : (streamsOf log).card ≤ config.maxStreams

theorem streamsOf_concat (log : List (EventRecord M)) (r : EventRecord M) :
    streamsOf (log ++ [r]) = insert r.stream (streamsOf log) := by
  simp [streamsOf]

variable {config : EventStoreConfig}

theorem Orderly.init {log : List (EventRecord M)} {r : EventRecord M}
    (h : Orderly config (log ++ [r])) : Orderly config log where
  numbered stream := by
    have hnum := h.numbered stream
    rw [streamLog_append] at hnum
    split_ifs at hnum
    · exact (NumberedFrom.concat_iff.mp hnum).1
    · rwa [append_nil] at hnum
  few := by
    refine (Finset.card_le_card ?_).trans h.few
    rw [streamsOf_concat]
    exact Finset.subset_insert _ _

theorem Orderly.seq_eq {log : List (EventRecord M)} {r : EventRecord M}
    (h : Orderly config (log ++ [r])) : r.event.seq = (streamLog log r.stream).length := by
  have hnum := h.numbered r.stream
  rw [streamLog_append, if_pos rfl] at hnum
  exact (NumberedFrom.concat_iff.mp hnum).2

theorem history_induct {P : List (StoreCall M) → List (EventRecord M) → Prop} (nil : P [] [])
    (skip : ∀ calls c, c.record = none → P calls (logOf calls) → P (calls ++ [c]) (logOf calls))
    (store : ∀ calls c r, c.record = some r → Orderly config (logOf calls ++ [r]) →
      P calls (logOf calls) → P (calls ++ [c]) (logOf calls ++ [r]))
    {calls : List (StoreCall M)} (h : Orderly config (logOf calls)) : P calls (logOf calls) := by
  induction calls using List.reverseRecOn with
  | nil => exact nil
  | append_singleton calls c ih =>
    rw [logOf_concat] at h ⊢
    cases hc : c.record with
    | none =>
      rw [hc, Option.toList_none, append_nil] at h
      rw [Option.toList_none, append_nil]
      exact skip calls c hc (ih h)
    | some r =>
      rw [hc] at h
      exact store calls c r hc h (ih h.init)

/-! ### The memory store -/

/-- The memory store has the newest events of every stream that was written. -/
structure MemoryLog (config : EventStoreConfig) (st : MemoryState M) (log : List (EventRecord M)) :
    Prop where
  queue : ∀ stream, (st.streams.lookup stream).getD [] = newest config.maxEvents (streamLog log stream)
  nodup : st.order.Nodup
  order : st.order.toFinset = streamsOf log

namespace MemoryLog

variable {config : EventStoreConfig} {st : MemoryState M} {log : List (EventRecord M)}

theorem empty : MemoryLog config (.empty : MemoryState M) [] where
  queue stream := by
    rw [MemoryState.empty, newest, streamLog, filter_nil, map_nil, drop_nil]
    rfl
  nodup := nodup_nil
  order := rfl

theorem trimLoop_eq {maxStreams : ℕ} {order : List Text} (h : order.length ≤ maxStreams)
    (streams : Finmap fun _ : Text => List (StoredEvent M)) :
    trimLoop maxStreams streams order = ⟨streams, order⟩ := by
  cases order with
  | nil => rfl
  | cons id order => rw [trimLoop, if_neg (not_lt.mpr h)]

theorem storeEvent (h : MemoryLog config st log) (httl : config.ttl = none) (hk : 0 < config.maxEvents)
    {r : EventRecord M} (hnext : Orderly config (log ++ [r])) (now : ℤ) :
    MemoryLog config (st.storeEvent config r.stream r.event now) (log ++ [r]) := by
  have hmem : r.stream ∉ st.order.erase r.stream := h.nodup.not_mem_erase
  have hnodup : (touchStream st.order r.stream).Nodup := by
    rw [touchStream, ← concat_eq_append]
    exact (h.nodup.erase _).concat hmem
  have horder : (touchStream st.order r.stream).toFinset = streamsOf (log ++ [r]) := by
    rw [streamsOf_concat, ← h.order]
    ext stream
    by_cases hs : stream = r.stream
    · simp [touchStream, hs]
    · simp [touchStream, mem_erase_of_ne hs]
  have hlen : (touchStream st.order r.stream).length ≤ config.maxStreams := by
    rw [← toFinset_card_of_nodup hnodup, horder]
    exact hnext.few
  unfold MemoryState.storeEvent MemoryState.trimStreams
  dsimp only
  rw [trimLoop_eq hlen, httl]
  refine ⟨fun stream => ?_, hnodup, horder⟩
  dsimp only [pruneExpired]
  rw [streamLog_append]
  by_cases hs : stream = r.stream
  · subst hs
    rw [Finmap.lookup_insert, Option.getD_some, if_pos rfl, newest_concat hk, h.queue]
  · rw [Finmap.lookup_insert_of_ne _ hs, if_neg (Ne.symm hs), append_nil, h.queue]

end MemoryLog

theorem memoryLog_after (httl : config.ttl = none)
    (hk : 0 < config.maxEvents) {calls : List (StoreCall M)} (h : Orderly config (logOf calls)) :
    MemoryLog config (memoryAfter config calls) (logOf calls) := by
  refine history_induct (P := fun calls log => MemoryLog config (memoryAfter config calls) log)
    .empty (fun calls c hc ih => ?_) (fun calls c r hc hnext ih => ?_) h
  · rwa [memoryAfter_concat, hc]
  · rw [memoryAfter_concat, hc]
    exact ih.storeEvent httl hk hnext c.now

end McpToolkit.Http

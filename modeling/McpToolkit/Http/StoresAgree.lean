import McpToolkit.Http.StoreHistory

/-!
# McpToolkit.Http.StoresAgree — the SQLite store against the memory store

Both stores after an orderly history, when nothing expires.

* The SQLite store prunes by the newest index.  Its early return keeps the first event as long as
  the newest index is at most `maxEvents`, so it has one event too many when a stream has
  `maxEvents + 1` events; that event has index zero and is never replayed (`SqliteLog`).
* A stream limit that does not fit in a signed word becomes negative, and the SQLite store then
  deletes every stream after every event.
-/

namespace McpToolkit.Http

open List Database
open Lib.Word (asI64 asI64_of_le asI64_neg i64Max u64Max wrapI64 wrapI64_of_mem)

variable {M : Type}

/-! ### The SQLite store -/

theorem parseEventId_index_le {eventId : Text} {parsed : ParsedEventId}
    (h : parseEventId eventId = some parsed) : parsed.index ≤ i64Max := by
  unfold parseEventId at h
  obtain ⟨-, h⟩ := Option.ite_none_left_eq_some.mp h
  obtain ⟨index, -, h⟩ := Option.bind_eq_some_iff.mp h
  obtain ⟨hle, h⟩ := Option.ite_none_left_eq_some.mp h
  have hindex : parsed.index = index := by
    split at h
    · exact congrArg ParsedEventId.index (Option.some.inj h).symm
    · obtain ⟨-, h⟩ := Option.ite_none_left_eq_some.mp h
      obtain ⟨request, -, h⟩ := Option.bind_eq_some_iff.mp h
      exact congrArg ParsedEventId.index (Option.some.inj h).symm
  rw [hindex]
  exact not_lt.mp hle

theorem StoreCall.seq_le {c : StoreCall M} {r : EventRecord M} (h : c.record = some r) : r.event.seq ≤ i64Max := by
  obtain ⟨eventId, -, h⟩ := Option.bind_eq_some_iff.mp h
  obtain ⟨parsed, hparsed, h⟩ := Option.bind_eq_some_iff.mp h
  obtain rfl := Option.some.inj h
  exact parseEventId_index_le hparsed

/-- The row of an event. -/
def Writes (codec : PayloadCodec M) (e : StoredEvent M) (row : EventRow) : Prop :=
  row.seq = e.seq ∧ row.eventId = e.eventId ∧
    ∃ nonce, row.payload = e.message.map fun m => codec.encrypt nonce (codec.serialize m)

/-- What pruning by the newest index keeps: one event too many at `k + 1`. -/
def kept {α : Type} (k : ℕ) (l : List α) : List α := if l.length ≤ k + 1 then l else newest k l

namespace Database

variable (db : Database)

theorem ids_upsertStream (stream : Text) (lastSeen : ℤ) :
    (db.upsertStream stream lastSeen).streams.map StreamRow.streamId =
      if stream ∈ db.streams.map StreamRow.streamId then db.streams.map StreamRow.streamId
      else db.streams.map StreamRow.streamId ++ [stream] := by
  have hany : (db.streams.any fun row => row.streamId == stream) = true ↔
      stream ∈ db.streams.map StreamRow.streamId := by
    simp [any_eq_true]
  rw [upsertStream]
  by_cases h : stream ∈ db.streams.map StreamRow.streamId
  · rw [if_pos h, if_pos (hany.mpr h), map_map]
    refine map_congr_left fun row _ => ?_
    rw [Function.comp_apply]
    split_ifs with hrow
    · exact hrow.symm
    · rfl
  · rw [if_neg h, if_neg (fun hh => h (hany.mp hh)), map_append]
    rfl

theorem eventsOf_insertEvent {row : EventRow} (hnew : ∀ r ∈ db.eventsOf row.streamId, r.seq ≠ row.seq) (stream : Text) :
    (db.insertEvent row).eventsOf stream = db.eventsOf stream ++ if row.streamId = stream then [row] else [] := by
  have hany : (db.events.any fun r => r.streamId == row.streamId && r.seq == row.seq) = false := by
    rw [any_eq_false]
    intro r hr hkey
    simp only [Bool.and_eq_true, beq_iff_eq] at hkey
    exact hnew r (mem_filter.mpr ⟨hr, by simpa using hkey.1⟩) hkey.2
  rw [insertEvent, hany, if_neg Bool.false_ne_true, eventsOf, filter_append]
  by_cases h : row.streamId = stream
  · rw [if_pos h, filter_cons_of_pos (by simpa using h)]
    rfl
  · rw [if_neg h, filter_cons_of_neg (by simpa using h)]
    rfl

theorem streams_pruneStreamEvents (stream : Text) (k : ℕ) : (db.pruneStreamEvents stream k).streams = db.streams := by
  unfold pruneStreamEvents
  split
  · rfl
  · dsimp only
    split_ifs <;> rfl

theorem events_pruneStreamEvents (stream : Text) (k : ℕ) : (db.pruneStreamEvents stream k).events ⊆ db.events := by
  unfold pruneStreamEvents
  split
  · exact List.Subset.refl _
  · dsimp only
    split_ifs
    · exact List.Subset.refl _
    · exact filter_subset_self _

theorem eventsOf_pruneStreamEvents {written : Text} {k n : ℕ} (hk : k ≤ i64Max) (hn : n ≤ i64Max)
    (hmax : ((db.eventsOf written).map EventRow.seq).max? = some n) (stream : Text) :
    (db.pruneStreamEvents written k).eventsOf stream =
      if stream = written ∧ k < n then (db.eventsOf stream).filter fun row => n - k < row.seq
      else db.eventsOf stream := by
  have hcut : wrapI64 ((n : ℤ) - asI64 k) = (n : ℤ) - k := by
    rw [asI64_of_le hk]
    unfold i64Max at hk hn
    exact wrapI64_of_mem (by omega) (by omega)
  rw [pruneStreamEvents, hmax]
  dsimp only
  rw [hcut]
  by_cases hkn : k < n
  · rw [if_neg (by omega), eventsOf, filter_filter]
    split_ifs with hs
    · rw [eventsOf, filter_filter]
      exact filter_congr (by grind)
    · exact filter_congr (by grind)
  · rw [if_pos (by omega), if_neg fun h => hkn h.2]

theorem pruneStreams_eq {rank : Text → ℕ} {maxStreams : ℕ} (hmax : maxStreams ≤ i64Max)
    (h : db.streams.length ≤ maxStreams) : db.pruneStreams rank maxStreams = db := by
  rw [pruneStreams, asI64_of_le hmax]
  exact if_pos (by exact_mod_cast h)

end Database

variable {config : EventStoreConfig} {α : Type} {k : ℕ} {l : List (StoredEvent M)}

theorem kept_sublist (k : ℕ) (l : List α) : (kept k l).Sublist l := by
  rw [kept]
  split_ifs
  · exact List.Sublist.refl l
  · exact drop_sublist _ l

theorem kept_eq_newest {l : List α} (h : l.length ≠ k + 1) : kept k l = newest k l := by
  rw [kept]
  split_ifs with hlen
  · rw [newest, Nat.sub_eq_zero_of_le (by omega), drop_zero]
  · rfl

theorem length_kept_ne {l : List α} (h : l.length = k + 1) : (kept k l).length ≠ (newest k l).length := by
  rw [kept, if_pos h.le, newest, length_drop]
  omega

theorem NumberedFrom.filter_newest (h : NumberedFrom 0 l) {last : ℕ} (hlast : l.length ≤ last + k + 1) :
    ((newest k l).filter fun e => last < e.seq) = l.filter fun e => last < e.seq := by
  rw [← h.filter_eq_newest, filter_filter]
  exact filter_congr (by grind)

theorem NumberedFrom.filter_kept (h : NumberedFrom 0 l) (k last : ℕ) :
    ((kept k l).filter fun e => last < e.seq) = (newest k l).filter fun e => last < e.seq := by
  rw [kept]
  split_ifs with hlen
  · exact (h.filter_newest (by omega)).symm
  · rfl

theorem NumberedFrom.kept_concat {e : StoredEvent M} (h : NumberedFrom 0 (l ++ [e])) (k : ℕ) : kept k (l ++ [e]) =
      if k < l.length then (kept k l ++ [e]).filter fun e => l.length - k < e.seq else kept k l ++ [e] := by
  have hlen : (l ++ [e]).length = l.length + 1 := by simp
  have hl := (NumberedFrom.concat_iff.mp h).1
  split_ifs with hk
  · rw [filter_append, hl.filter_kept, hl.filter_newest (by omega), ← filter_append, kept,
      if_neg (by omega), ← h.filter_eq_newest]
    refine filter_congr fun e _ => ?_
    rw [decide_eq_decide]
    omega
  · rw [kept, kept, if_pos (by omega), if_pos (by omega)]

/-- The table of events has a row for every event that it keeps, in order. -/
def Rows (codec : PayloadCodec M) (config : EventStoreConfig) (db : Database)
    (log : List (EventRecord M)) : Prop :=
  ∀ stream, List.Forall₂ (Writes codec) (kept config.maxEvents (streamLog log stream)) (db.eventsOf stream)

/-- The SQLite store has the rows, and a stream for every stream that was written. -/
structure SqliteLog (codec : PayloadCodec M) (config : EventStoreConfig) (db : Database)
    (log : List (EventRecord M)) : Prop where
  rows : Rows codec config db log
  nodup : (db.streams.map StreamRow.streamId).Nodup
  ids : (db.streams.map StreamRow.streamId).toFinset = streamsOf log

namespace Writes

variable {codec : PayloadCodec M} {events : List (StoredEvent M)} {rows : List EventRow}

section

variable (h : List.Forall₂ (Writes codec) events rows)
include h

theorem map_seq : rows.map EventRow.seq = events.map StoredEvent.seq := by
  induction h with
  | nil => rfl
  | cons hw _ ih => rw [map_cons, map_cons, hw.1, ih]

theorem map_id : (rows.map fun row => (row.seq, row.eventId)) = events.map fun e => (e.seq, e.eventId) := by
  induction h with
  | nil => rfl
  | cons hw _ ih => rw [map_cons, map_cons, hw.1, hw.2.1, ih]

theorem filter (last : ℕ) : List.Forall₂ (Writes codec) (events.filter fun e => last < e.seq)
      (rows.filter fun row => last < row.seq) := by
  refine rel_filter (fun e row hw => ?_) h
  dsimp only
  rw [decide_eq_true_eq, decide_eq_true_eq, hw.1]

end

theorem readRow {e : StoredEvent M} {row : EventRow} (h : Writes codec e row) :
    readRow codec row = some (MemoryState.row codec e) := by
  obtain ⟨-, hid, nonce, hpayload⟩ := h
  rw [Database.readRow, MemoryState.row, hpayload, hid]
  cases e.message with
  | none => rfl
  | some m =>
    rw [Option.map_some]
    dsimp only
    rw [codec.decrypt_encrypt]
    rfl

theorem mapM_readRow (h : List.Forall₂ (Writes codec) events rows) :
    rows.mapM (Database.readRow codec) = some (events.map (MemoryState.row codec)) := by
  induction h with
  | nil => rfl
  | cons hw _ ih => rw [mapM_cons, hw.readRow, ih]; rfl

end Writes

namespace Rows

variable {codec : PayloadCodec M} {config : EventStoreConfig} {db : Database} {log : List (EventRecord M)}

section

variable (h : Rows codec config db log)
include h

theorem seq_lt {stream : Text} (hnum : NumberedFrom 0 (streamLog log stream)) :
    ∀ row ∈ db.eventsOf stream, row.seq < (streamLog log stream).length := by
  intro row hrow
  have hmem : row.seq ∈ (db.eventsOf stream).map EventRow.seq := mem_map_of_mem hrow
  rw [Writes.map_seq (h stream)] at hmem
  obtain ⟨e, he, hseq⟩ := mem_map.mp hmem
  have hlt := (hnum.seq_lt ((kept_sublist _ _).subset he)).2
  omega

theorem sorted {stream : Text} (hnum : NumberedFrom 0 (streamLog log stream)) :
    (db.eventsOf stream).Pairwise fun a b => a.seq ≤ b.seq := by
  have hsorted : ((db.eventsOf stream).map EventRow.seq).Pairwise (· ≤ ·) := by
    rw [Writes.map_seq (h stream), pairwise_map]
    exact hnum.pairwise.sublist (kept_sublist _ _)
  exact pairwise_map.mp hsorted

/-- The insertion and the pruning of one stream. -/
theorem insertEvent (hevents : config.maxEvents ≤ i64Max)
    {r : EventRecord M} (hseq : r.event.seq ≤ i64Max) (hnext : Orderly config (log ++ [r]))
    {row : EventRow} (hrow : Writes codec r.event row) (hstream : row.streamId = r.stream) :
    Rows codec config ((db.insertEvent row).pruneStreamEvents r.stream config.maxEvents) (log ++ [r]) := by
  intro stream
  have hlen : r.event.seq = (streamLog log r.stream).length := hnext.seq_eq
  have hlt := h.seq_lt (hnext.init.numbered r.stream)
  have hnew : ∀ x ∈ db.eventsOf row.streamId, x.seq ≠ row.seq := by
    intro x hx
    have hx := hlt x (hstream ▸ hx)
    rw [hrow.1]
    omega
  have hinsert := db.eventsOf_insertEvent hnew
  have hmax : (((db.insertEvent row).eventsOf r.stream).map EventRow.seq).max? = some r.event.seq := by
    rw [hinsert, if_pos hstream, map_append, max?_eq_some_iff]
    refine ⟨mem_append_right _ (by simp [hrow.1]), fun n hn => ?_⟩
    rcases mem_append.mp hn with hn | hn
    · obtain ⟨x, hx, rfl⟩ := mem_map.mp hn
      have hx := hlt x hx
      omega
    · rw [map_singleton, mem_singleton] at hn
      rw [hn, hrow.1]
  rw [eventsOf_pruneStreamEvents _ hevents hseq hmax, streamLog_append, hinsert, hstream]
  by_cases hs : stream = r.stream
  · subst hs
    have hnum := hnext.numbered r.stream
    rw [streamLog_append, if_pos rfl] at hnum
    have happend : List.Forall₂ (Writes codec)
        (kept config.maxEvents (streamLog log r.stream) ++ [r.event]) (db.eventsOf r.stream ++ [row]) :=
      rel_append (h r.stream) (.cons hrow .nil)
    rw [if_pos rfl, if_pos rfl, hnum.kept_concat, ← hlen]
    split_ifs with hk hk' hk'
    · exact Writes.filter happend _
    · exact absurd ⟨rfl, hk⟩ hk'
    · exact absurd hk'.2 hk
    · exact happend
  · rw [if_neg (Ne.symm hs), if_neg (Ne.symm hs), if_neg fun hh => hs hh.1, append_nil, append_nil]
    exact h stream

end

end Rows

namespace SqliteLog

variable {codec : PayloadCodec M} {config : EventStoreConfig} {db : Database} {log : List (EventRecord M)}

theorem empty : SqliteLog codec config .empty ([] : List (EventRecord M)) where
  rows _ := List.Forall₂.nil
  nodup := nodup_nil
  ids := rfl

theorem ids_upsertStream (h : SqliteLog codec config db log) (r : EventRecord M) (lastSeen : ℤ) :
    ((db.upsertStream r.stream lastSeen).streams.map StreamRow.streamId).Nodup ∧
      ((db.upsertStream r.stream lastSeen).streams.map StreamRow.streamId).toFinset = streamsOf (log ++ [r]) := by
  rw [db.ids_upsertStream, streamsOf_concat, ← h.ids]
  split_ifs with hmem
  · refine ⟨h.nodup, (Finset.insert_eq_of_mem ?_).symm⟩
    exact mem_toFinset.mpr hmem
  · refine ⟨?_, by ext stream; simp⟩
    rw [← concat_eq_append]
    exact h.nodup.concat hmem

theorem storeEventSync (h : SqliteLog codec config db log) (httl : config.ttl = none)
    (hevents : config.maxEvents ≤ i64Max) (hstreams : config.maxStreams ≤ i64Max) {r : EventRecord M}
    (hseq : r.event.seq ≤ i64Max) (hnext : Orderly config (log ++ [r])) (nonce : ℕ) (rank : Text → ℕ)
    (now : ℤ) : SqliteLog codec config (db.storeEventSync codec config r.stream r.event nonce rank now)
      (log ++ [r]) := by
  obtain ⟨hnodup, hids⟩ := h.ids_upsertStream r r.event.createdAt
  have hlen : (db.upsertStream r.stream r.event.createdAt).streams.length ≤ config.maxStreams := by
    rw [← length_map StreamRow.streamId, ← toFinset_card_of_nodup hnodup, hids]
    exact hnext.few
  have hrows : Rows codec config (db.upsertStream r.stream r.event.createdAt) log := h.rows
  unfold Database.storeEventSync
  dsimp only
  rw [httl, pruneExpired,
    pruneStreams_eq _ hstreams (by rw [streams_pruneStreamEvents]; exact hlen)]
  refine ⟨hrows.insertEvent hevents hseq hnext ⟨rfl, rfl, nonce, rfl⟩ rfl, ?_, ?_⟩
  · rw [streams_pruneStreamEvents]
    exact hnodup
  · rw [streams_pruneStreamEvents]
    exact hids

end SqliteLog

theorem sqliteLog_after (codec : PayloadCodec M) (httl : config.ttl = none)
    (hevents : config.maxEvents ≤ i64Max) (hstreams : config.maxStreams ≤ i64Max)
    {calls : List (StoreCall M)} (h : Orderly config (logOf calls)) :
    SqliteLog codec config (sqliteAfter codec config calls) (logOf calls) := by
  refine history_induct (P := fun calls log => SqliteLog codec config (sqliteAfter codec config calls) log)
    .empty (fun calls c hc ih => ?_) (fun calls c r hc hnext ih => ?_) h
  · rwa [sqliteAfter_concat, hc]
  · rw [sqliteAfter_concat, hc]
    exact ih.storeEventSync httl hevents hstreams (StoreCall.seq_le hc) hnext c.nonce c.rank c.now

/-! ### A stream limit that is negative as a signed word -/

theorem limit_wide {maxStreams : ℕ} (hwide : i64Max < maxStreams) (hword : maxStreams ≤ u64Max)
    (x : α) : limit (wrapI64 (1 - asI64 maxStreams)) [x] = [x] := by
  have hne : wrapI64 (1 - asI64 maxStreams) ≠ 0 := by
    rw [wrapI64, Ne, ← Int.dvd_iff_bmod_eq_zero, asI64, if_neg (not_le.mpr hwide)]
    unfold i64Max at hwide
    unfold u64Max at hword
    omega
  rw [limit]
  split_ifs with hneg
  · rfl
  · obtain ⟨n, hn⟩ : ∃ n, (wrapI64 (1 - asI64 maxStreams)).toNat = n + 1 :=
      Nat.exists_eq_succ_of_ne_zero (by omega)
    rw [hn, take_succ_cons, take_nil]

theorem storeEventSync_wide (codec : PayloadCodec M) (httl : config.ttl = none)
    (hwide : i64Max < config.maxStreams) (hword : config.maxStreams ≤ u64Max) (stream : Text)
    (event : StoredEvent M) (nonce : ℕ) (rank : Text → ℕ) (now : ℤ) :
    storeEventSync codec config .empty stream event nonce rank now = .empty := by
  unfold storeEventSync
  dsimp only
  rw [httl, pruneExpired]
  generalize hdb : pruneStreamEvents _ _ _ = db
  have hstreams : db.streams = [⟨stream, event.createdAt⟩] := by
    rw [← hdb, streams_pruneStreamEvents]
    rfl
  have hevents : ∀ row ∈ db.events, row.streamId = stream := by
    intro row hrow
    rw [← hdb] at hrow
    have hrow := events_pruneStreamEvents _ _ _ hrow
    rw [mem_singleton.mp hrow]
  have hneg : ¬(((1 : ℕ) : ℤ) ≤ asI64 config.maxStreams) := by
    have := asI64_neg hwide hword
    omega
  rw [pruneStreams, hstreams]
  dsimp only [length_singleton]
  rw [if_neg hneg, insertionSort_cons, insertionSort_nil, orderedInsert_nil]
  rw [Nat.cast_one, limit_wide hwide hword, map_singleton, foldl_cons, foldl_nil, deleteStream, hstreams]
  rw [empty, mk.injEq]
  refine ⟨?_, ?_⟩
  · rw [filter_cons_of_neg (by simp), filter_nil]
  · exact filter_eq_nil_iff.mpr fun row hrow => by simpa using hevents row hrow

theorem sqliteAfter_wide (codec : PayloadCodec M) (httl : config.ttl = none)
    (hwide : i64Max < config.maxStreams) (hword : config.maxStreams ≤ u64Max)
    {calls : List (StoreCall M)} (h : Orderly config (logOf calls)) : sqliteAfter codec config calls = .empty := by
  refine history_induct (P := fun calls _ => sqliteAfter codec config calls = .empty)
    rfl (fun calls c hc ih => ?_) (fun calls c r hc _ ih => ?_) h
  · rw [sqliteAfter_concat, hc, ih]
  · rw [sqliteAfter_concat, hc, ih]
    exact storeEventSync_wide codec httl hwide hword _ _ _ _ _

/-! ### Agreement -/

/-- Indices and identifiers of the events that the memory store has in a stream. -/
def memoryRetained (st : MemoryState M) (stream : Text) : List (ℕ × Text) :=
  ((st.streams.lookup stream).getD []).map fun e => (e.seq, e.eventId)

/-- Indices and identifiers of the rows that the SQLite store has in a stream. -/
def sqliteRetained (db : Database) (stream : Text) : List (ℕ × Text) :=
  (bySeq (db.eventsOf stream)).map fun row => (row.seq, row.eventId)

/-- The newest events of a stream, by the log. -/
def newestOf (config : EventStoreConfig) (log : List (EventRecord M)) (stream : Text) : List (ℕ × Text) :=
  (newest config.maxEvents (streamLog log stream)).map fun e => (e.seq, e.eventId)

section Agreement

variable (codec : PayloadCodec M) (config : EventStoreConfig) (calls : List (StoreCall M))

/-- Every replay returns the same from both stores. -/
def ReplaysAgree : Prop :=
  ∀ session last now,
    (replaySqlite codec config (sqliteAfter codec config calls) session last now).1 =
      some (replayMemory codec config (memoryAfter config calls) session last now).1

/-- Both stores have exactly the newest events of every stream. -/
def RetainNewest : Prop :=
  ∀ stream,
    memoryRetained (memoryAfter config calls) stream = newestOf config (logOf calls) stream ∧
      sqliteRetained (sqliteAfter codec config calls) stream = newestOf config (logOf calls) stream

end Agreement

section

variable {codec : PayloadCodec M} {config : EventStoreConfig} {calls : List (StoreCall M)}

section

variable (httl : config.ttl = none)
include httl

theorem replayAfter_eq (st : MemoryState M) (stream : Text) (last : ℕ) (now : ℤ) :
    (st.replayAfter codec config stream last now).1 =
      (((st.streams.lookup stream).getD []).filter fun e => last < e.seq).map (MemoryState.row codec) := by
  unfold MemoryState.replayAfter
  dsimp only
  rw [httl, MemoryState.pruneExpired]
  cases st.streams.lookup stream <;> rfl

variable (hk : 0 < config.maxEvents) (h : Orderly config (logOf calls))
include h

theorem sqliteRetained_eq (hevents : config.maxEvents ≤ i64Max) (hstreams : config.maxStreams ≤ i64Max)
    (stream : Text) : sqliteRetained (sqliteAfter codec config calls) stream =
      (kept config.maxEvents (streamLog (logOf calls) stream)).map fun e => (e.seq, e.eventId) := by
  have hsql := sqliteLog_after codec httl hevents hstreams h
  rw [sqliteRetained, bySeq, (hsql.rows.sorted (h.numbered stream)).insertionSort_eq,
    Writes.map_id (hsql.rows stream)]

include hk

theorem memoryRetained_eq (stream : Text) :
    memoryRetained (memoryAfter config calls) stream = newestOf config (logOf calls) stream := by
  rw [memoryRetained, (memoryLog_after httl hk h).queue, newestOf]

section

variable (hevents : config.maxEvents ≤ i64Max) (hstreams : config.maxStreams ≤ i64Max)
include hevents hstreams

theorem replaysAgree_of_le : ReplaysAgree codec config calls := by
  intro session last now
  have hmem := memoryLog_after httl hk h
  have hsql := sqliteLog_after codec httl hevents hstreams h
  unfold replaySqlite replayMemory
  cases parseEventId last with
  | none => rfl
  | some parsed =>
    have hnum := h.numbered (streamId session parsed.httpRequestId)
    dsimp only
    rw [replayAfter_eq httl, hmem.queue, ← hnum.filter_kept, replayEventsSync]
    rw [httl, pruneExpired, bySeq, ((hsql.rows.sorted hnum).filter _).insertionSort_eq,
      Writes.mapM_readRow (Writes.filter (hsql.rows _) parsed.index)]
    rfl

/-- SQLite does not prune a stream that is one event over its limit. -/
theorem retainNewest_iff : RetainNewest codec config calls ↔
      ∀ stream, (streamLog (logOf calls) stream).length ≠ config.maxEvents + 1 := by
  constructor
  · intro hretain stream hlen
    have hsql := (hretain stream).2
    rw [sqliteRetained_eq httl h hevents hstreams, newestOf] at hsql
    have hlengths := congrArg List.length hsql
    rw [length_map, length_map] at hlengths
    exact length_kept_ne hlen hlengths
  · intro hlen stream
    refine ⟨memoryRetained_eq httl hk h stream, ?_⟩
    rw [sqliteRetained_eq httl h hevents hstreams, kept_eq_newest (hlen stream), newestOf]

end

section

variable (hwide : i64Max < config.maxStreams) (hword : config.maxStreams ≤ u64Max)
include hwide hword

theorem not_retainNewest_wide {r : EventRecord M} (hr : r ∈ logOf calls) : ¬RetainNewest codec config calls := by
  intro hretain
  have hevent : r.event ∈ streamLog (logOf calls) r.stream :=
    mem_map_of_mem (mem_filter.mpr ⟨hr, decide_eq_true rfl⟩)
  have hpos : 0 < (streamLog (logOf calls) r.stream).length := length_pos_of_mem hevent
  have hsql := congrArg List.length (hretain r.stream).2
  rw [sqliteAfter_wide codec httl hwide hword h, newestOf, length_map, newest, length_drop] at hsql
  have hzero : (sqliteRetained .empty r.stream).length = 0 := rfl
  omega

theorem agree_of_logOf_nil (hnil : logOf calls = []) :
    ReplaysAgree codec config calls ∧ RetainNewest codec config calls := by
  have hqueue : ∀ stream, ((memoryAfter config calls).streams.lookup stream).getD [] = [] := by
    intro stream
    rw [(memoryLog_after httl hk h).queue, hnil]
    exact drop_nil
  have hempty := sqliteAfter_wide codec httl hwide hword h
  refine ⟨fun session last now => ?_, fun stream => ⟨memoryRetained_eq httl hk h stream, ?_⟩⟩
  · unfold replaySqlite replayMemory
    cases parseEventId last with
    | none => rfl
    | some parsed =>
      dsimp only
      rw [replayAfter_eq httl, hqueue, hempty, replayEventsSync, httl]
      rfl
  · have hnewest : newest config.maxEvents (streamLog (logOf calls) stream) = [] := by
      rw [hnil]
      exact drop_nil
    rw [hempty, newestOf, hnewest]
    rfl

end

end

end

/-- **When the two event stores agree.**  Nothing expires, the indices of every stream count up from
zero and there are no more streams than allowed.  Then both stores have exactly the newest
`maxEvents` events of every stream and replay the same, if and only if nothing was stored at all, or
the stream limit fits in a signed word and no stream has exactly one event more than `maxEvents`.
With a stream limit that fits, the replays agree in any case. -/
theorem eventStores_agree_iff (codec : PayloadCodec M) {config : EventStoreConfig}
    (httl : config.ttl = none) (hk : 0 < config.maxEvents) (hevents : config.maxEvents ≤ i64Max)
    (hword : config.maxStreams ≤ u64Max) {calls : List (StoreCall M)} (h : Orderly config (logOf calls)) :
    (ReplaysAgree codec config calls ∧ RetainNewest codec config calls ↔ logOf calls = [] ∨ config.maxStreams ≤ i64Max ∧
          ∀ stream, (streamLog (logOf calls) stream).length ≠ config.maxEvents + 1) ∧
      (config.maxStreams ≤ i64Max → ReplaysAgree codec config calls) := by
  refine ⟨?_, fun hstreams => replaysAgree_of_le httl hk h hevents hstreams⟩
  by_cases hstreams : config.maxStreams ≤ i64Max
  · rw [and_iff_right (replaysAgree_of_le httl hk h hevents hstreams),
      retainNewest_iff httl hk h hevents hstreams, and_iff_right hstreams]
    refine ⟨Or.inr, fun hh => hh.elim (fun hnil stream => ?_) id⟩
    rw [hnil]
    exact (Nat.succ_ne_zero _).symm
  · have hwide := not_le.mp hstreams
    constructor
    · rintro ⟨-, hretain⟩
      refine Or.inl (eq_nil_iff_forall_not_mem.mpr fun r hr => ?_)
      exact not_retainNewest_wide httl hk h hwide hword hr hretain
    · rintro (hnil | ⟨hle, -⟩)
      · exact agree_of_logOf_nil httl hk h hwide hword hnil
      · exact absurd hle hstreams

/-- A message to the common stream of session `s`. -/
def sampleStore (eventId : String) (message : ℕ) : StoreCall ℕ :=
  ⟨"s".toList, ⟨some eventId.toList, some message⟩, 0, 0, 0, fun _ => 0⟩

def twoStores : List (StoreCall ℕ) := [sampleStore "0" 5, sampleStore "1" 6]

def threeStores : List (StoreCall ℕ) := twoStores ++ [sampleStore "2" 7]

theorem streamLog_threeStores {stream : Text} (h : stream ≠ "s|common".toList) :
    streamLog (logOf threeStores) stream = [] := by
  have hstream : ∀ r ∈ logOf threeStores, r.stream = "s|common".toList := by decide
  rw [streamLog, map_eq_nil_iff, filter_eq_nil_iff]
  intro r hr heq
  exact h ((of_decide_eq_true heq).symm.trans (hstream r hr))

theorem orderly_threeStores (h : 1 ≤ config.maxStreams) : Orderly config (logOf threeStores) where
  numbered stream := by
    by_cases hs : stream = "s|common".toList
    · subst hs
      rw [NumberedFrom]
      decide
    · rw [streamLog_threeStores hs]
      rfl
  few := by
    have hcard : (streamsOf (logOf threeStores)).card = 1 := by decide
    rw [hcard]
    exact h

theorem orderly_twoStores (h : 1 ≤ config.maxStreams) : Orderly config (logOf twoStores) := by
  have hthree := orderly_threeStores h
  exact hthree.init

/-- With room for one event, the SQLite store has both events of a stream of two; and with the largest
stream limit it replays nothing where the memory store replays an event. -/
theorem eventStores_differ_twoStores :
    (Orderly ⟨1, 1, none⟩ (logOf twoStores) ∧ ¬RetainNewest lengthCodec ⟨1, 1, none⟩ twoStores) ∧
      Orderly ⟨u64Max, 1, none⟩ (logOf twoStores) ∧ ¬ReplaysAgree lengthCodec ⟨u64Max, 1, none⟩ twoStores := by
  refine ⟨⟨orderly_twoStores (by decide), fun h => ?_⟩, orderly_twoStores (by decide), fun h => ?_⟩
  · exact absurd (h "s|common".toList).2 (by decide)
  · exact absurd (h "s".toList "0".toList 0) (by decide)

theorem eventStores_agree_threeStores :
    Orderly ⟨1, 1, none⟩ (logOf threeStores) ∧ ReplaysAgree lengthCodec ⟨1, 1, none⟩ threeStores ∧
      RetainNewest lengthCodec ⟨1, 1, none⟩ threeStores := by
  have horderly : Orderly ⟨1, 1, none⟩ (logOf threeStores) := orderly_threeStores (by decide)
  refine ⟨horderly, ?_⟩
  refine (eventStores_agree_iff lengthCodec rfl (by decide) (by decide) (by decide) horderly).1.mpr ?_
  refine Or.inr ⟨by decide, fun stream => ?_⟩
  by_cases hs : stream = "s|common".toList
  · subst hs
    decide
  · rw [streamLog_threeStores hs]
    decide

end McpToolkit.Http

import McpToolkit.Http.StoresAgree
import McpToolkit.Lib.Recency

/-!
# McpToolkit.Http.SqliteStreams — the bookkeeping of streams in SQLite

`store_event_sync` writes two rows and prunes three times: the events of the stream by their index, events and streams by
their age, and streams by their number, where the smallest `last_seen` goes first.  The clock is any sequence of seconds.

What a call should leave (`Sound`): the stream and the event just written, at most `max_streams` streams, no event
without its stream, and of the streams those written last.  It does so exactly if the call is `WellTimed`: recency is kept
as the second of the last write, so a clock that goes back, or many writes in one second, may mislead it.
-/

namespace McpToolkit.Http

open List Database
open Lib
open Lib.Recency (Before touch nodup_touch mem_touch before_touch exists_before_all)
open Lib.Word (Duration asI64 asI64_of_le asI64_neg asSecs i64Max u64Max wrapI64)

namespace Database

variable {db : Database}

/-! ### The two tables after each statement -/

/-- A time that `prune_expired` takes to be too long ago. -/
def expired (ttl : Option Duration) (now t : ℤ) : Bool :=
  ttl.any fun ttl => 0 < wrapI64 (now - asI64 (asSecs ttl)) && t < wrapI64 (now - asI64 (asSecs ttl))

/-- An index that `prune_stream_events` takes to be too far behind the largest of the stream. -/
def outnumbered (maxEvents : ℕ) (seqs : List ℕ) (seq : ℕ) : Bool :=
  seqs.max?.any fun top : ℕ => 0 < wrapI64 (top - asI64 maxEvents) && seq ≤ wrapI64 (top - asI64 maxEvents)

theorem pruneExpired_eq (ttl : Option Duration) (now : ℤ) : db.pruneExpired ttl now =
      ⟨db.streams.filter fun row => !expired ttl now row.lastSeen,
        db.events.filter fun row => !expired ttl now row.createdAt⟩ := by
  cases ttl with
  | none => simp [pruneExpired, expired]
  | some ttl =>
    unfold pruneExpired expired
    dsimp only [Option.any_some]
    split_ifs with hcut
    · have hkeep : decide (0 < wrapI64 (now - asI64 (asSecs ttl))) = false := decide_eq_false (not_lt.mpr hcut)
      simp only [hkeep, Bool.false_and, Bool.not_false, filter_true]
    · have hkeep : decide (0 < wrapI64 (now - asI64 (asSecs ttl))) = true := decide_eq_true (not_le.mp hcut)
      simp only [hkeep, Bool.true_and]

theorem pruneStreamEvents_eq (stream : Text) (maxEvents : ℕ) : db.pruneStreamEvents stream maxEvents = { db with
        events := db.events.filter fun row =>
          !(row.streamId = stream && outnumbered maxEvents ((db.eventsOf stream).map EventRow.seq) row.seq) } := by
  unfold pruneStreamEvents outnumbered
  cases ((db.eventsOf stream).map EventRow.seq).max? with
  | none => simp
  | some top =>
    dsimp only [Option.any_some]
    split_ifs with hcut
    · have hkeep : decide (0 < wrapI64 (top - asI64 maxEvents)) = false := decide_eq_false (not_lt.mpr hcut)
      simp only [hkeep, Bool.false_and, Bool.and_false, Bool.not_false, filter_true]
    · have hkeep : decide (0 < wrapI64 (top - asI64 maxEvents)) = true := decide_eq_true (not_le.mp hcut)
      simp only [hkeep, Bool.true_and, Bool.decide_and]

theorem mem_upsertStream {stream : Text} {lastSeen : ℤ} {row : StreamRow} :
    row ∈ (db.upsertStream stream lastSeen).streams ↔
      row = ⟨stream, lastSeen⟩ ∨ row ∈ db.streams ∧ row.streamId ≠ stream := by
  unfold upsertStream
  split_ifs with hany
  · obtain ⟨old, hold, hid⟩ := any_eq_true.mp hany
    rw [mem_map]
    constructor
    · rintro ⟨row', hrow', rfl⟩
      split_ifs with heq
      · exact .inl rfl
      · exact .inr ⟨hrow', heq⟩
    · rintro (rfl | ⟨hrow, hne⟩)
      · exact ⟨old, hold, if_pos (beq_iff_eq.mp hid)⟩
      · exact ⟨row, hrow, if_neg hne⟩
  · rw [mem_append, mem_singleton, or_comm]
    refine or_congr_right ⟨fun hrow => ⟨hrow, fun heq => hany ?_⟩, fun h => h.1⟩
    exact any_eq_true.mpr ⟨row, hrow, beq_iff_eq.mpr heq⟩

theorem mem_insertEvent {row row' : EventRow} : row' ∈ (db.insertEvent row).events ↔ row' ∈ db.events ∨
      row' = row ∧ ∀ r ∈ db.events, r.streamId = row.streamId → r.seq ≠ row.seq := by
  unfold insertEvent
  split_ifs with hany
  · obtain ⟨old, hold, hkey⟩ := any_eq_true.mp hany
    rw [Bool.and_eq_true, beq_iff_eq, beq_iff_eq] at hkey
    constructor
    · exact .inl
    · rintro (h | ⟨-, hnew⟩)
      · exact h
      · exact absurd hkey.2 (hnew old hold hkey.1)
  · rw [mem_append, mem_singleton]
    refine or_congr_right ⟨fun h => ⟨h, fun r hr hid hseq => hany ?_⟩, fun h => h.1⟩
    exact any_eq_true.mpr ⟨r, hr, by rw [hid, hseq]; simp⟩

theorem nodup_upsertStream (stream : Text) (lastSeen : ℤ) (h : (db.streams.map StreamRow.streamId).Nodup) :
    ((db.upsertStream stream lastSeen).streams.map StreamRow.streamId).Nodup := by
  rw [ids_upsertStream]
  split_ifs with hmem
  · exact h
  · rw [← concat_eq_append]
    exact h.concat hmem

theorem length_upsertStream_le (stream : Text) (lastSeen : ℤ) :
    (db.upsertStream stream lastSeen).streams.length ≤ db.streams.length + 1 := by
  unfold upsertStream
  split_ifs
  · rw [length_map]
    exact Nat.le_succ _
  · rw [length_append, length_singleton]

/-! ### Pruning by number -/

instance (rank : Text → ℕ) : Std.Total (LessRecent rank) := by
  refine ⟨fun a b => ?_⟩
  unfold LessRecent
  omega

instance (rank : Text → ℕ) : IsTrans StreamRow (LessRecent rank) := by
  refine ⟨fun a b c hab hbc => ?_⟩
  unfold LessRecent at *
  omega

/-- What `prune_streams` does if at most one stream is too many: nothing, or it deletes a stream than which none is less
recent; with a limit that is negative as a signed word it deletes all. -/
inductive CapacityEffect (rank : Text → ℕ) (maxStreams : ℕ) (db : Database) : Database → Prop
  | room : maxStreams ≤ i64Max → db.streams.length ≤ maxStreams → CapacityEffect rank maxStreams db db
  | full (first : StreamRow) : maxStreams ≤ i64Max → db.streams.length = maxStreams + 1 → first ∈ db.streams →
      (∀ row ∈ db.streams, LessRecent rank first row) →
      CapacityEffect rank maxStreams db (db.deleteStream first.streamId)
  | wide (db' : Database) : i64Max < maxStreams → db'.streams = [] → CapacityEffect rank maxStreams db db'

theorem streams_foldl_deleteStream (ids : List Text) :
    (ids.foldl deleteStream db).streams = db.streams.filter fun row => row.streamId ∉ ids := by
  induction ids generalizing db with
  | nil => simp
  | cons id ids ih =>
    rw [foldl_cons, ih, deleteStream]
    simp [Bool.and_comm]

theorem deleteStreams_sublist (ids : List Text) :
    (ids.foldl deleteStream db).streams.Sublist db.streams ∧ (ids.foldl deleteStream db).events.Sublist db.events := by
  induction ids generalizing db with
  | nil => exact ⟨List.Sublist.refl _, List.Sublist.refl _⟩
  | cons id ids ih =>
    obtain ⟨hstreams, hevents⟩ := @ih (db.deleteStream id)
    exact ⟨hstreams.trans filter_sublist, hevents.trans filter_sublist⟩

theorem pruneStreams_sublist (db : Database) (rank : Text → ℕ) (maxStreams : ℕ) :
    (db.pruneStreams rank maxStreams).streams.Sublist db.streams ∧
      (db.pruneStreams rank maxStreams).events.Sublist db.events := by
  unfold pruneStreams
  dsimp only
  split_ifs
  · exact ⟨List.Sublist.refl _, List.Sublist.refl _⟩
  · exact deleteStreams_sublist _

theorem pruneStreams_effect {rank : Text → ℕ} {maxStreams : ℕ} (hword : maxStreams ≤ u64Max)
    (hlen : db.streams.length ≤ maxStreams + 1) (hnarrow : maxStreams ≤ i64Max ∨ db.streams.length ≤ 1) :
    CapacityEffect rank maxStreams db (db.pruneStreams rank maxStreams) := by
  by_cases hfits : maxStreams ≤ i64Max
  · by_cases hroom : db.streams.length ≤ maxStreams
    · rw [pruneStreams_eq _ hfits hroom]
      exact .room hfits hroom
    · have hover : db.streams.length = maxStreams + 1 := by omega
      have hsorted := List.pairwise_insertionSort (LessRecent rank) db.streams
      have hperm := perm_insertionSort (LessRecent rank) db.streams
      cases hsort : db.streams.insertionSort (LessRecent rank) with
      | nil =>
        rw [hsort] at hperm
        rw [hperm.length_eq.symm] at hover
        cases hover
      | cons first rest =>
        rw [hsort] at hsorted hperm
        have hone : wrapI64 ((db.streams.length : ℤ) - asI64 maxStreams) = 1 := by
          rw [asI64_of_le hfits, hover]
          push_cast
          rw [add_sub_cancel_left]
          rfl
        have heq : db.pruneStreams rank maxStreams = db.deleteStream first.streamId := by
          unfold pruneStreams
          dsimp only
          rw [hone, hsort, if_neg]
          · rfl
          · rw [asI64_of_le hfits]
            omega
        rw [heq]
        refine .full first hfits hover (hperm.mem_iff.mp mem_cons_self) fun row hrow => ?_
        rcases mem_cons.mp (hperm.mem_iff.mpr hrow) with rfl | hrow
        · exact .inr ⟨rfl, le_rfl⟩
        · exact (pairwise_cons.mp hsorted).1 row hrow
  · have hwide := not_le.mp hfits
    have hneg : ¬((db.streams.length : ℤ) ≤ asI64 maxStreams) := by
      have := asI64_neg hwide hword
      omega
    refine .wide _ hwide ?_
    unfold pruneStreams
    rw [if_neg hneg, streams_foldl_deleteStream]
    cases hstreams : db.streams with
    | nil => rfl
    | cons row rest =>
      rw [hstreams, length_cons] at hnarrow
      obtain rfl : rest = [] := eq_nil_of_length_eq_zero (by omega)
      rw [insertionSort_cons, insertionSort_nil, orderedInsert_nil, length_singleton, Nat.cast_one,
        limit_wide hwide hword]
      simp

/-- Every event belongs to a stream. -/
def Owned (db : Database) : Prop := ∀ event ∈ db.events, ∃ row ∈ db.streams, row.streamId = event.streamId

end Database

/-! ### One call -/

section Call

variable {M : Type} (codec : PayloadCodec M) (config : EventStoreConfig)

/-- The row that a call inserts. -/
def EventRecord.toRow (r : EventRecord M) (nonce : ℕ) : EventRow :=
  ⟨r.stream, r.event.seq, r.event.eventId, r.event.message.map fun m => codec.encrypt nonce (codec.serialize m),
    r.event.createdAt⟩

/-- The indices of a stream. -/
def Database.seqsOf (db : Database) (stream : Text) : List ℕ := (db.eventsOf stream).map EventRow.seq

/-- The streams when it comes to their number: with the one just written, and without those that have expired. -/
def presentStreams (db : Database) (r : EventRecord M) (now : ℤ) : List StreamRow :=
  (db.upsertStream r.stream r.event.createdAt).streams.filter fun row => !expired config.ttl now row.lastSeen

/-- The events when it comes to the number of streams. -/
def presentEvents (db : Database) (r : EventRecord M) (nonce : ℕ) (now : ℤ) : List EventRow :=
  let inserted := db.insertEvent (r.toRow codec nonce)
  (inserted.events.filter fun row => !(row.streamId = r.stream &&
    outnumbered config.maxEvents (inserted.seqsOf r.stream) row.seq)).filter fun row =>
      !expired config.ttl now row.createdAt

variable {codec config} {db : Database} {r : EventRecord M} {nonce : ℕ} {rank : Text → ℕ} {now : ℤ}

theorem storeEventSync_eq : db.storeEventSync codec config r.stream r.event nonce rank now =
      pruneStreams ⟨presentStreams config db r now, presentEvents codec config db r nonce now⟩ rank
        config.maxStreams := by
  unfold storeEventSync
  dsimp only
  rw [pruneStreamEvents_eq, pruneExpired_eq]
  rfl

theorem mem_presentStreams {row : StreamRow} : row ∈ presentStreams config db r now ↔
      (row = ⟨r.stream, r.event.createdAt⟩ ∨ row ∈ db.streams ∧ row.streamId ≠ r.stream) ∧
        expired config.ttl now row.lastSeen = false := by
  rw [presentStreams, mem_filter, mem_upsertStream, Bool.not_eq_true']

theorem mem_seqsOf_insertEvent {n : ℕ} :
    n ∈ (db.insertEvent (r.toRow codec nonce)).seqsOf r.stream ↔ n ∈ r.event.seq :: db.seqsOf r.stream := by
  simp only [seqsOf, eventsOf, mem_map, mem_filter, decide_eq_true_eq,
    mem_insertEvent, mem_cons]
  constructor
  · rintro ⟨row, ⟨hrow | ⟨rfl, -⟩, hid⟩, rfl⟩
    · exact .inr ⟨row, ⟨hrow, hid⟩, rfl⟩
    · exact .inl rfl
  · rintro (rfl | ⟨row, ⟨hrow, hid⟩, rfl⟩)
    · by_cases hold : ∃ row ∈ db.events, row.streamId = r.stream ∧ row.seq = r.event.seq
      · obtain ⟨row, hrow, hid, hseq⟩ := hold
        exact ⟨row, ⟨.inl hrow, hid⟩, hseq⟩
      · refine ⟨r.toRow codec nonce, ⟨.inr ⟨rfl, fun row hrow hid hseq => ?_⟩, rfl⟩, rfl⟩
        exact hold ⟨row, hrow, hid, hseq⟩
    · exact ⟨row, ⟨.inl hrow, hid⟩, rfl⟩

theorem max?_congr {l l' : List ℕ} (h : ∀ n, n ∈ l ↔ n ∈ l') : l.max? = l'.max? := by
  ext top
  rw [max?_eq_some_iff, max?_eq_some_iff, h]
  exact and_congr_right fun _ => forall_congr' fun n => by rw [h]

theorem mem_presentEvents {row : EventRow} : row ∈ presentEvents codec config db r nonce now ↔
      (row ∈ db.events ∨ row = r.toRow codec nonce ∧
        ∀ old ∈ db.events, old.streamId = r.stream → old.seq ≠ r.event.seq) ∧ ¬(row.streamId = r.stream ∧
        outnumbered config.maxEvents (r.event.seq :: db.seqsOf r.stream) row.seq = true) ∧
      expired config.ttl now row.createdAt = false := by
  have hmax : ((db.insertEvent (r.toRow codec nonce)).seqsOf r.stream).max? =
      (r.event.seq :: db.seqsOf r.stream).max? := max?_congr fun n => mem_seqsOf_insertEvent
  rw [presentEvents, mem_filter, mem_filter, mem_insertEvent, outnumbered, hmax, and_assoc]
  simp only [EventRecord.toRow, Bool.not_eq_true', Bool.and_eq_false_imp, decide_eq_true_eq, outnumbered,
    not_and, Bool.not_eq_true]

end Call

/-! ### Runs -/

/-- The database, and the streams in the order in which they were last written. -/
structure SqliteRun where
  db : Database
  recency : List Text
  deriving DecidableEq

def SqliteRun.start : SqliteRun := ⟨.empty, []⟩

section Runs

variable {M : Type} (codec : PayloadCodec M) (config : EventStoreConfig)

def SqliteRun.store (run : SqliteRun) (c : StoreCall M) : SqliteRun :=
  ⟨storeSqlite codec config run.db c.session c.message c.createdAt c.nonce c.rank c.now,
    c.record.elim run.recency fun r => touch run.recency r.stream⟩

/-- Any sequence of calls. -/
def sqliteStores : System SqliteRun (StoreCall M) := ⟨fun run c => some (run.store codec config c)⟩

/-- What a call should leave. -/
structure Sound (run : SqliteRun) (c : StoreCall M) (after : SqliteRun) : Prop where
  few : after.db.streams.length ≤ config.maxStreams
  owned : after.db.Owned
  stream : ∀ r, c.record = some r → ∃ row ∈ after.db.streams, row.streamId = r.stream
  event : ∀ r, c.record = some r → r.toRow codec c.nonce ∈ after.db.events
  /-- A stream that is removed for the number of streams was written before every stream that is left. -/
  oldest : ∀ r, c.record = some r → ∀ row ∈ presentStreams config run.db r c.now, row ∉ after.db.streams →
    ∀ left ∈ after.db.streams, Before after.recency row.streamId left.streamId

/-- The call can be told from those before it by the second at which it is made, and by its index. -/
structure WellTimed (run : SqliteRun) (c : StoreCall M) (r : EventRecord M) : Prop where
  fits : config.maxStreams ≤ i64Max
  /-- The index is new in its stream, or the row is there already. -/
  new : ∀ row ∈ run.db.events, row.streamId = r.stream → row.seq = r.event.seq → row = r.toRow codec c.nonce
  /-- The index is not too far behind the largest of the stream. -/
  ahead : outnumbered config.maxEvents (r.event.seq :: run.db.seqsOf r.stream) r.event.seq = false
  fresh : expired config.ttl c.now r.event.createdAt = false
  /-- No event of another stream outlasts its stream. -/
  lasting : ∀ row ∈ run.db.streams, row.streamId ≠ r.stream → expired config.ttl c.now row.lastSeen = true →
    ∀ event ∈ run.db.events, event.streamId = row.streamId → expired config.ttl c.now event.createdAt = true
  /-- If there are too many streams, the one written longest ago comes first in the order of `last_seen`. -/
  ranked : config.maxStreams < (presentStreams config run.db r c.now).length →
    ∀ first ∈ presentStreams config run.db r c.now,
      (∀ row ∈ presentStreams config run.db r c.now, row ≠ first →
        Before (touch run.recency r.stream) first.streamId row.streamId) →
      ∀ row ∈ presentStreams config run.db r c.now, row ≠ first → ¬Database.LessRecent c.rank row first

/-- What holds in every state that is reached by calls that leave what they should. -/
structure SqliteInv (run : SqliteRun) : Prop where
  nodup : (run.db.streams.map StreamRow.streamId).Nodup
  few : run.db.streams.length ≤ config.maxStreams
  narrow : config.maxStreams ≤ i64Max ∨ run.db.streams = []
  keys : ∀ a ∈ run.db.events, ∀ b ∈ run.db.events, a.streamId = b.streamId → a.seq = b.seq → a = b
  owned : run.db.Owned
  recency : run.recency.Nodup
  known : ∀ row ∈ run.db.streams, row.streamId ∈ run.recency

variable {codec config} {run : SqliteRun} {c : StoreCall M} {r : EventRecord M}

theorem store_of_none (h : c.record = none) : run.store codec config c = run := by
  have hdb : storeSqlite codec config run.db c.session c.message c.createdAt c.nonce c.rank c.now = run.db := by
    unfold StoreCall.record at h
    rw [storeSqlite, EventRecord.storedEvent_eq, h]
    rfl
  rw [SqliteRun.store, hdb, h]
  rfl

theorem store_of_some (h : c.record = some r) : run.store codec config c =
      ⟨pruneStreams ⟨presentStreams config run.db r c.now, presentEvents codec config run.db r c.nonce c.now⟩
        c.rank config.maxStreams, touch run.recency r.stream⟩ := by
  have hdb : storeSqlite codec config run.db c.session c.message c.createdAt c.nonce c.rank c.now =
      run.db.storeEventSync codec config r.stream r.event c.nonce c.rank c.now := by
    unfold StoreCall.record at h
    rw [storeSqlite, EventRecord.storedEvent_eq, h]
    rfl
  rw [SqliteRun.store, hdb, storeEventSync_eq, h]
  rfl

namespace SqliteInv

variable (hinv : SqliteInv config run)
include hinv

theorem nodup_present (r : EventRecord M) (now : ℤ) :
    ((presentStreams config run.db r now).map StreamRow.streamId).Nodup := by
  refine (nodup_upsertStream r.stream r.event.createdAt hinv.nodup).sublist ?_
  exact filter_sublist.map _

variable {now : ℤ}

theorem eq_of_streamId {a b : StreamRow} (ha : a ∈ presentStreams config run.db r now)
    (hb : b ∈ presentStreams config run.db r now) (h : a.streamId = b.streamId) : a = b :=
  inj_on_of_nodup_map (hinv.nodup_present r now) ha hb h

theorem known_present {row : StreamRow} (h : row ∈ presentStreams config run.db r now) :
    row.streamId ∈ touch run.recency r.stream := by
  rw [mem_touch]
  rcases (mem_presentStreams.mp h).1 with rfl | ⟨hrow, -⟩
  · exact .inl rfl
  · exact .inr (hinv.known row hrow)

theorem effect (codec : PayloadCodec M) (hword : config.maxStreams ≤ u64Max) (r : EventRecord M) (c : StoreCall M) :
    Database.CapacityEffect c.rank config.maxStreams
      ⟨presentStreams config run.db r c.now, presentEvents codec config run.db r c.nonce c.now⟩
      (pruneStreams ⟨presentStreams config run.db r c.now, presentEvents codec config run.db r c.nonce c.now⟩
        c.rank config.maxStreams) := by
  have hlen : (presentStreams config run.db r c.now).length ≤ run.db.streams.length + 1 :=
    (List.length_filter_le _ _).trans (length_upsertStream_le _ _)
  refine pruneStreams_effect hword (hlen.trans (Nat.succ_le_succ hinv.few)) ?_
  rcases hinv.narrow with hfits | hnil
  · exact .inl hfits
  · rw [hnil] at hlen
    exact .inr hlen

theorem not_first (hlen : 1 < (presentStreams config run.db r now).length) {first : StreamRow}
    (hfirst : first ∈ presentStreams config run.db r now)
    (holdest : ∀ row ∈ presentStreams config run.db r now, row ≠ first →
      Before (touch run.recency r.stream) first.streamId row.streamId) : first.streamId ≠ r.stream := by
  intro heq
  obtain ⟨other, hother, hne⟩ : ∃ other ∈ presentStreams config run.db r now, other ≠ first := by
    by_contra hall
    push Not at hall
    have hnodup := (hinv.nodup_present r now).of_map _
    have hone : (presentStreams config run.db r now).length ≤ [first].length :=
      (hnodup.subperm fun row hrow => mem_singleton.mpr (hall row hrow)).length_le
    rw [length_singleton] at hone
    omega
  have hstream : other.streamId ≠ r.stream := fun hh => hne (hinv.eq_of_streamId hother hfirst (hh.trans heq.symm))
  have hknown : other.streamId ∈ run.recency := by
    rcases mem_touch.mp (hinv.known_present hother) with hh | hh
    · exact absurd hh hstream
    · exact hh
  have hbefore := before_touch hinv.recency hknown hstream
  exact (holdest other hother hne).asymm (heq ▸ hbefore)

theorem exists_first (hne : presentStreams config run.db r now ≠ []) :
    ∃ first ∈ presentStreams config run.db r now, ∀ row ∈ presentStreams config run.db r now, row ≠ first →
      Before (touch run.recency r.stream) first.streamId row.streamId := by
  obtain ⟨id, hid, hmin⟩ := exists_before_all
    (s := (presentStreams config run.db r now).map StreamRow.streamId) (by simpa using hne)
    (by
      intro id hid
      obtain ⟨row, hrow, rfl⟩ := mem_map.mp hid
      exact hinv.known_present hrow)
  obtain ⟨first, hfirst, rfl⟩ := mem_map.mp hid
  refine ⟨first, hfirst, fun row hrow hne => hmin _ (mem_map_of_mem hrow) fun hh => hne ?_⟩
  exact hinv.eq_of_streamId hrow hfirst hh

end SqliteInv

/-! ### Calls that are well timed -/

namespace WellTimed

variable (h : WellTimed codec config run c r)
include h

theorem mem_streams : (⟨r.stream, r.event.createdAt⟩ : StreamRow) ∈ presentStreams config run.db r c.now :=
  mem_presentStreams.mpr ⟨.inl rfl, h.fresh⟩

theorem mem_events : r.toRow codec c.nonce ∈ presentEvents codec config run.db r c.nonce c.now := by
  refine mem_presentEvents.mpr ⟨?_, fun hh => ?_, h.fresh⟩
  · by_cases hold : ∃ row ∈ run.db.events, row.streamId = r.stream ∧ row.seq = r.event.seq
    · obtain ⟨row, hrow, hid, hseq⟩ := hold
      exact .inl (h.new row hrow hid hseq ▸ hrow)
    · exact .inr ⟨rfl, fun row hrow hid hseq => hold ⟨row, hrow, hid, hseq⟩⟩
  · exact Bool.false_ne_true (h.ahead.symm.trans hh.2)

theorem owned (hinv : SqliteInv config run) :
    Database.Owned ⟨presentStreams config run.db r c.now, presentEvents codec config run.db r c.nonce c.now⟩ := by
  intro event hevent
  obtain ⟨hmem, -, hfresh⟩ := mem_presentEvents.mp hevent
  by_cases hstream : event.streamId = r.stream
  · exact ⟨_, h.mem_streams, hstream.symm⟩
  · rcases hmem with hmem | ⟨rfl, -⟩
    · obtain ⟨row, hrow, hid⟩ := hinv.owned event hmem
      have hother : row.streamId ≠ r.stream := fun hh => hstream (hid.symm.trans hh)
      refine ⟨row, mem_presentStreams.mpr ⟨.inr ⟨hrow, hother⟩, ?_⟩, hid⟩
      rw [← Bool.not_eq_true]
      intro hexpired
      exact Bool.false_ne_true (hfresh.symm.trans (h.lasting row hrow hother hexpired event hmem hid.symm))
    · exact absurd rfl hstream

theorem first_oldest (hinv : SqliteInv config run)
    (hfull : (presentStreams config run.db r c.now).length = config.maxStreams + 1) {first : StreamRow}
    (hfirst : first ∈ presentStreams config run.db r c.now)
    (hmin : ∀ row ∈ presentStreams config run.db r c.now, Database.LessRecent c.rank first row) :
    ∀ row ∈ presentStreams config run.db r c.now, row ≠ first →
      Before (touch run.recency r.stream) first.streamId row.streamId := by
  obtain ⟨oldest, hmem, holdest⟩ := hinv.exists_first (ne_nil_of_mem hfirst)
  have heq : first = oldest := by
    by_contra hne
    exact h.ranked (by omega) oldest hmem holdest first hfirst hne (hmin oldest hmem)
  rw [heq]
  exact holdest

end WellTimed

variable {db : Database} {row : StreamRow} {event : EventRow}

theorem Database.mem_deleteStream {id : Text} :
    row ∈ (db.deleteStream id).streams ↔ row ∈ db.streams ∧ row.streamId ≠ id := by
  rw [deleteStream, mem_filter, decide_eq_true_eq]

theorem Database.mem_events_deleteStream {id : Text} :
    event ∈ (db.deleteStream id).events ↔ event ∈ db.events ∧ event.streamId ≠ id := by
  rw [deleteStream, mem_filter, decide_eq_true_eq]

theorem Database.length_deleteStream_lt (h : row ∈ db.streams) :
    (db.deleteStream row.streamId).streams.length < db.streams.length := by
  exact length_filter_lt_length_iff_exists.mpr ⟨row, h, by simp⟩

/-- A call that is well timed leaves what it should. -/
theorem sound_of_wellTimed (hpos : 1 ≤ config.maxStreams) (hword : config.maxStreams ≤ u64Max)
    (hinv : SqliteInv config run) (hc : c.record = some r) (h : WellTimed codec config run c r) :
    Sound codec config run c (run.store codec config c) := by
  have heff := hinv.effect codec hword r c
  have howned := h.owned hinv
  rw [store_of_some hc]
  generalize pruneStreams _ _ _ = after at heff ⊢
  cases heff with
  | wide _ hwide => exact absurd h.fits (not_le.mpr hwide)
  | room hfits hroom =>
    refine ⟨hroom, howned, ?_, ?_, ?_⟩
    · intro r' hr'
      obtain rfl := Option.some.inj (hc.symm.trans hr')
      exact ⟨_, h.mem_streams, rfl⟩
    · intro r' hr'
      obtain rfl := Option.some.inj (hc.symm.trans hr')
      exact h.mem_events
    · intro r' hr' row hrow hgone
      obtain rfl := Option.some.inj (hc.symm.trans hr')
      exact absurd hrow hgone
  | full first hfits hfull hfirst hmin =>
    have hfull : (presentStreams config run.db r c.now).length = config.maxStreams + 1 := hfull
    have holdest := h.first_oldest hinv hfull hfirst hmin
    have hlen : 1 < (presentStreams config run.db r c.now).length := by omega
    have hother : r.stream ≠ first.streamId := (hinv.not_first hlen hfirst holdest).symm
    refine ⟨?_, ?_, ?_, ?_, ?_⟩
    · exact Nat.lt_succ_iff.mp ((length_deleteStream_lt hfirst).trans_eq hfull)
    · intro event hevent
      obtain ⟨hevent, hne⟩ := mem_events_deleteStream.mp hevent
      obtain ⟨row, hrow, hid⟩ := howned event hevent
      exact ⟨row, mem_deleteStream.mpr ⟨hrow, fun hh => hne (hid.symm.trans hh)⟩, hid⟩
    · intro r' hr'
      obtain rfl := Option.some.inj (hc.symm.trans hr')
      exact ⟨_, mem_deleteStream.mpr ⟨h.mem_streams, hother⟩, rfl⟩
    · intro r' hr'
      obtain rfl := Option.some.inj (hc.symm.trans hr')
      exact mem_events_deleteStream.mpr ⟨h.mem_events, hother⟩
    · intro r' hr' row hrow hgone left hleft
      obtain rfl := Option.some.inj (hc.symm.trans hr')
      obtain ⟨hleft, hne⟩ := mem_deleteStream.mp hleft
      have hrowid : row.streamId = first.streamId := by
        by_contra hh
        exact hgone (mem_deleteStream.mpr ⟨hrow, hh⟩)
      rw [hrowid]
      exact holdest left hleft fun hh => hne (hh ▸ rfl)

theorem Database.CapacityEffect.mem_events {rank : Text → ℕ} {maxStreams : ℕ} {db' : Database}
    (heff : CapacityEffect rank maxStreams db db') (hfits : maxStreams ≤ i64Max)
    (hevent : event ∈ db.events) (hno : ∀ row ∈ db.streams, row.streamId ≠ event.streamId) : event ∈ db'.events := by
  cases heff with
  | room => exact hevent
  | full first _ _ hfirst => exact mem_events_deleteStream.mpr ⟨hevent, (hno first hfirst).symm⟩
  | wide _ hwide => exact absurd hfits (not_le.mpr hwide)

theorem lasting_of_owned (hinv : SqliteInv config run) {after : Database} (hfits : config.maxStreams ≤ i64Max)
    (heff : Database.CapacityEffect c.rank config.maxStreams
      ⟨presentStreams config run.db r c.now, presentEvents codec config run.db r c.nonce c.now⟩ after)
    (hsub : after.streams ⊆ presentStreams config run.db r c.now) (howned : after.Owned)
    (hrow : row ∈ run.db.streams) (hother : row.streamId ≠ r.stream)
    (hexpired : expired config.ttl c.now row.lastSeen = true) (hevent : event ∈ run.db.events)
    (hid : event.streamId = row.streamId) : expired config.ttl c.now event.createdAt = true := by
  have hno : ∀ left ∈ presentStreams config run.db r c.now, left.streamId ≠ event.streamId := by
    intro left hleft heq
    obtain ⟨hmem, hfresh⟩ := mem_presentStreams.mp hleft
    rcases hmem with rfl | ⟨hmem, -⟩
    · exact hother (hid.symm.trans heq.symm)
    · obtain rfl : left = row := inj_on_of_nodup_map hinv.nodup hmem hrow (heq.trans hid)
      exact Bool.false_ne_true (hfresh.symm.trans hexpired)
  by_contra hyoung
  have hpresent : event ∈ presentEvents codec config run.db r c.nonce c.now := by
    refine mem_presentEvents.mpr ⟨.inl hevent, fun hh => ?_, by simpa using hyoung⟩
    exact hother (hid.symm.trans hh.1)
  obtain ⟨left, hleft, heq⟩ := howned event (heff.mem_events hfits hpresent hno)
  exact hno left (hsub hleft) heq

/-- If the stream that is removed was written before all that are left, it is the one written longest ago. -/
theorem ranked_of_oldest (hinv : SqliteInv config run) (hrank : Function.Injective c.rank) {after : Database}
    (hfits : config.maxStreams ≤ i64Max) (heff : Database.CapacityEffect c.rank config.maxStreams
      ⟨presentStreams config run.db r c.now, presentEvents codec config run.db r c.nonce c.now⟩ after)
    (holdest : ∀ row ∈ presentStreams config run.db r c.now, row ∉ after.streams → ∀ left ∈ after.streams,
      Before (touch run.recency r.stream) row.streamId left.streamId)
    (hover : config.maxStreams < (presentStreams config run.db r c.now).length) {first : StreamRow}
    (hfirst : first ∈ presentStreams config run.db r c.now)
    (hbefore : ∀ row ∈ presentStreams config run.db r c.now, row ≠ first →
      Before (touch run.recency r.stream) first.streamId row.streamId)
    (hrow : row ∈ presentStreams config run.db r c.now) (hne : row ≠ first) : ¬Database.LessRecent c.rank row first := by
  cases heff with
  | room _ hroom => exact absurd hover (not_lt.mpr hroom)
  | wide _ hwide => exact absurd hfits (not_le.mpr hwide)
  | full removed _ _ hremoved hmin =>
    have heq : first = removed := by
      by_contra hh
      have hid : first.streamId ≠ removed.streamId := fun heq => hh (hinv.eq_of_streamId hfirst hremoved heq)
      refine (hbefore removed hremoved (Ne.symm hh)).asymm (holdest removed hremoved ?_ first ?_)
      · exact fun hgone => (mem_deleteStream.mp hgone).2 rfl
      · exact mem_deleteStream.mpr ⟨hfirst, hid⟩
    have hless : Database.LessRecent c.rank first row := heq ▸ hmin row hrow
    intro hless'
    unfold Database.LessRecent at hless hless'
    have htie : c.rank row.streamId = c.rank first.streamId := by omega
    exact hne (hinv.eq_of_streamId hrow hfirst (hrank htie))

/-- A call that leaves what it should is well timed, if ties are broken by a strict order. -/
theorem wellTimed_of_sound (hword : config.maxStreams ≤ u64Max) (hinv : SqliteInv config run) (hc : c.record = some r)
    (hrank : Function.Injective c.rank) (h : Sound codec config run c (run.store codec config c)) :
    WellTimed codec config run c r := by
  have heff := hinv.effect codec hword r c
  have hsub := pruneStreams_sublist ⟨presentStreams config run.db r c.now,
    presentEvents codec config run.db r c.nonce c.now⟩ c.rank config.maxStreams
  obtain ⟨-, howned, hstream, hevent, holdest⟩ := h
  obtain ⟨own, hown, -⟩ := hstream r hc
  have hevent := hevent r hc
  have holdest := holdest r hc
  rw [store_of_some hc] at howned hown hevent holdest
  generalize pruneStreams _ _ _ = after at heff hsub howned hown hevent holdest
  have hfits : config.maxStreams ≤ i64Max := by
    cases heff with
    | room hfits => exact hfits
    | full _ hfits => exact hfits
    | wide _ _ hnil =>
      rw [hnil] at hown
      cases hown
  -- the event went through both prunings of events
  obtain ⟨hmem, hahead, hfresh⟩ := mem_presentEvents.mp (hsub.2.subset hevent)
  refine ⟨hfits, ?_, ?_, hfresh, ?_, ?_⟩
  · intro row hrow hid hseq
    rcases hmem with hold | ⟨-, hnew⟩
    · exact hinv.keys row hrow _ hold hid hseq
    · exact absurd hseq (hnew row hrow hid)
  · rw [← Bool.not_eq_true]
    exact fun hh => hahead ⟨rfl, hh⟩
  · intro row hrow hother hexpired event hmem' hid
    exact lasting_of_owned hinv hfits heff hsub.1.subset howned hrow hother hexpired hmem' hid
  · intro hover first hfirst hbefore row hrow hne
    exact ranked_of_oldest hinv hrank hfits heff holdest hover hfirst hbefore hrow hne

theorem sqliteInv_store (hword : config.maxStreams ≤ u64Max) (hinv : SqliteInv config run)
    (h : Sound codec config run c (run.store codec config c)) : SqliteInv config (run.store codec config c) := by
  cases hc : c.record with
  | none =>
    rw [store_of_none hc]
    exact hinv
  | some r =>
    have heff := hinv.effect codec hword r c
    have hsub := pruneStreams_sublist ⟨presentStreams config run.db r c.now,
      presentEvents codec config run.db r c.nonce c.now⟩ c.rank config.maxStreams
    obtain ⟨hfew, howned, -, -, -⟩ := h
    rw [store_of_some hc] at hfew howned ⊢
    generalize pruneStreams _ _ _ = after at heff hsub hfew howned ⊢
    refine ⟨?_, hfew, ?_, ?_, howned, nodup_touch hinv.recency, ?_⟩
    · exact (hinv.nodup_present r c.now).sublist (hsub.1.map _)
    · cases heff with
      | room hfits => exact .inl hfits
      | full _ hfits => exact .inl hfits
      | wide _ _ hnil => exact .inr hnil
    · intro a ha b hb hid hseq
      have ha := (mem_presentEvents.mp (hsub.2.subset ha)).1
      have hb := (mem_presentEvents.mp (hsub.2.subset hb)).1
      rcases ha with ha | ⟨rfl, hnew⟩
      · rcases hb with hb | ⟨rfl, hnew⟩
        · exact hinv.keys a ha b hb hid hseq
        · exact absurd hseq (hnew a ha hid)
      · rcases hb with hb | ⟨rfl, -⟩
        · exact absurd hseq.symm (hnew b hb hid.symm)
        · rfl
    · intro row hrow
      exact hinv.known_present (hsub.1.subset hrow)

theorem sqliteInv_start : SqliteInv config .start where
  nodup := nodup_nil
  few := Nat.zero_le _
  narrow := .inr rfl
  keys _ h := absurd h not_mem_nil
  owned _ h := absurd h not_mem_nil
  recency := nodup_nil
  known _ h := absurd h not_mem_nil

theorem sound_of_none (hinv : SqliteInv config run) (hc : c.record = none) :
    Sound codec config run c (run.store codec config c) := by
  rw [store_of_none hc]
  refine ⟨hinv.few, hinv.owned, ?_, ?_, ?_⟩
  all_goals
    intro r hr
    rw [hc] at hr
    cases hr

/-- **The bookkeeping of streams.**  For any sequence of calls at any seconds: calls that are well timed leave the stream
and the event they write, at most `max_streams` streams, no event without a stream, and the streams written last.  Where
the database breaks ties by a strict order, only such calls do. -/
theorem sqlite_bookkeeping (codec : PayloadCodec M) (config : EventStoreConfig) (hpos : 1 ≤ config.maxStreams)
    (hword : config.maxStreams ≤ u64Max) (calls : List (StoreCall M)) :
    ((∀ x ∈ (sqliteStores codec config).steps .start calls, ∀ r ∈ x.2.record, WellTimed codec config x.1 x.2 r) →
      ∀ x ∈ (sqliteStores codec config).steps .start calls, Sound codec config x.1 x.2 (x.1.store codec config x.2)) ∧
    ((∀ x ∈ (sqliteStores codec config).steps .start calls, Function.Injective x.2.rank) →
      (∀ x ∈ (sqliteStores codec config).steps .start calls, Sound codec config x.1 x.2 (x.1.store codec config x.2)) →
      ∀ x ∈ (sqliteStores codec config).steps .start calls, ∀ r ∈ x.2.record, WellTimed codec config x.1 x.2 r) := by
  constructor
  · refine System.forall_steps (J := SqliteInv config) (P := fun run c => Sound codec config run c (run.store codec config c))
      (G := fun run c => ∀ r ∈ c.record, WellTimed codec config run c r) ?_ sqliteInv_start
    intro run c after hstep hinv htimed
    obtain rfl := Option.some.inj hstep
    have hsound : Sound codec config run c (run.store codec config c) := by
      cases hc : c.record with
      | none => exact sound_of_none hinv hc
      | some r => exact sound_of_wellTimed hpos hword hinv hc (htimed r hc)
    exact ⟨hsound, sqliteInv_store hword hinv hsound⟩
  · intro hrank hsound
    refine System.forall_steps (J := SqliteInv config)
      (P := fun run c => ∀ r ∈ c.record, WellTimed codec config run c r)
      (G := fun run c => Function.Injective c.rank ∧ Sound codec config run c (run.store codec config c)) ?_ sqliteInv_start
      fun x hx => ⟨hrank x hx, hsound x hx⟩
    intro run c after hstep hinv hgood
    obtain rfl := Option.some.inj hstep
    refine ⟨fun r hc => ?_, sqliteInv_store hword hinv hgood.2⟩
    exact wellTimed_of_sound hword hinv hc hgood.1 hgood.2

instance : Decidable (WellTimed codec config run c r) :=
  decidable_of_iff
    (config.maxStreams ≤ i64Max ∧
      (∀ row ∈ run.db.events, row.streamId = r.stream → row.seq = r.event.seq → row = r.toRow codec c.nonce) ∧
      outnumbered config.maxEvents (r.event.seq :: run.db.seqsOf r.stream) r.event.seq = false ∧
      expired config.ttl c.now r.event.createdAt = false ∧
      (∀ row ∈ run.db.streams, row.streamId ≠ r.stream → expired config.ttl c.now row.lastSeen = true →
        ∀ event ∈ run.db.events, event.streamId = row.streamId →
          expired config.ttl c.now event.createdAt = true) ∧
      (config.maxStreams < (presentStreams config run.db r c.now).length →
        ∀ first ∈ presentStreams config run.db r c.now,
          (∀ row ∈ presentStreams config run.db r c.now, row ≠ first →
            Before (touch run.recency r.stream) first.streamId row.streamId) →
          ∀ row ∈ presentStreams config run.db r c.now, row ≠ first → ¬Database.LessRecent c.rank row first))
    ⟨fun ⟨hfits, hnew, hahead, hfresh, hlasting, hranked⟩ => ⟨hfits, hnew, hahead, hfresh, hlasting, hranked⟩,
      fun h => ⟨h.fits, h.new, h.ahead, h.fresh, h.lasting, h.ranked⟩⟩

end Runs

/-- A message with index zero to the common stream of a session, at a second. -/
def messageAt (session : String) (second : ℤ) : StoreCall ℕ :=
  ⟨session.toList, ⟨some ['0'], some 5⟩, second, second, 0, fun _ => 0⟩

/-- The second stream displaces the first. -/
def displacingStores : List (StoreCall ℕ) := [messageAt "a" 100, messageAt "b" 101]

theorem sqlite_bookkeeping_displacingStores :
    ∃ x ∈ (sqliteStores lengthCodec ⟨1, 4, none⟩).steps .start displacingStores,
      x.1.db.streams = [⟨"a|common".toList, 100⟩] ∧
      Sound lengthCodec ⟨1, 4, none⟩ x.1 x.2 (x.1.store lengthCodec ⟨1, 4, none⟩ x.2) := by
  refine ⟨_, mem_cons_of_mem _ mem_cons_self, by decide, ?_⟩
  have htimed : ∀ x ∈ (sqliteStores lengthCodec ⟨1, 4, none⟩).steps .start displacingStores, ∀ r ∈ x.2.record,
      WellTimed lengthCodec ⟨1, 4, none⟩ x.1 x.2 r := by decide
  exact (sqlite_bookkeeping lengthCodec ⟨1, 4, none⟩ (by decide) (by decide) displacingStores).1 htimed _
    (mem_cons_of_mem _ mem_cons_self)

/-- The clock goes back between two writes. -/
def steppedBack : SqliteRun := SqliteRun.start.store lengthCodec ⟨1, 4, none⟩ (messageAt "a" 100)

/-- The clock went back between two writes of a stream, and on again. -/
def steppedBackTwice : SqliteRun :=
  (SqliteRun.start.store lengthCodec ⟨2, 4, some 60000000000⟩ (messageAt "a" 100)).store lengthCodec
    ⟨2, 4, some 60000000000⟩ ⟨['a'], ⟨some ['1'], some 5⟩, 50, 50, 0, fun _ => 0⟩

/-- A stream written at an earlier second than another one is removed at once.  And a stream whose last write has an
earlier second than an event of it expires before that event. -/
theorem clock_back_unsound : ((steppedBack, messageAt "b" 50) ∈
        (sqliteStores lengthCodec ⟨1, 4, none⟩).steps .start [messageAt "a" 100, messageAt "b" 50] ∧
      (steppedBack.store lengthCodec ⟨1, 4, none⟩ (messageAt "b" 50)).db.streams = [⟨"a|common".toList, 100⟩] ∧
      ¬Sound lengthCodec ⟨1, 4, none⟩ steppedBack (messageAt "b" 50)
        (steppedBack.store lengthCodec ⟨1, 4, none⟩ (messageAt "b" 50))) ∧
    ¬(steppedBackTwice.store lengthCodec ⟨2, 4, some 60000000000⟩ (messageAt "b" 120)).db.Owned := by
  have hstreams : (steppedBack.store lengthCodec ⟨1, 4, none⟩ (messageAt "b" 50)).db.streams =
      [⟨"a|common".toList, 100⟩] := by decide
  refine ⟨⟨mem_cons_of_mem _ mem_cons_self, hstreams, fun h => ?_⟩, fun h => ?_⟩
  · obtain ⟨row, hrow, hid⟩ := h.stream _ rfl
    rw [hstreams, mem_singleton] at hrow
    rw [hrow] at hid
    exact absurd hid (by decide)
  · have horphan : ∃ event ∈ (steppedBackTwice.store lengthCodec ⟨2, 4, some 60000000000⟩ (messageAt "b" 120)).db.events,
        ∀ row ∈ (steppedBackTwice.store lengthCodec ⟨2, 4, some 60000000000⟩ (messageAt "b" 120)).db.streams,
          row.streamId ≠ event.streamId := by decide
    obtain ⟨event, hevent, hno⟩ := horphan
    obtain ⟨row, hrow, hid⟩ := h event hevent
    exact hno row hrow hid

end McpToolkit.Http

import Mathlib.Data.List.Sort
import McpToolkit.Http.EventStore

/-!
# McpToolkit.Http.SqliteEvents — the event store in SQLite

`session_sqlite.rs`.  A table is the list of its rows in the order of insertion, a statement a
function on it, and a transaction is one function.  `ORDER BY` leaves the order of equal rows open:
`rank` says how the database breaks ties.  A negative `LIMIT` is none.
-/

namespace McpToolkit.Http

open Lib.Word (Duration asI64 asSecs wrapI64)

/-- A row of `mcp_events`. -/
structure EventRow where
  streamId : Text
  seq : ℕ
  eventId : Text
  payload : Option Text
  createdAt : ℤ
  deriving DecidableEq

/-- A row of `mcp_event_streams`. -/
structure StreamRow where
  streamId : Text
  lastSeen : ℤ
  deriving DecidableEq

structure Database where
  streams : List StreamRow
  events : List EventRow
  deriving DecidableEq

namespace Database

def empty : Database := ⟨[], []⟩

/-- `INSERT … ON CONFLICT(stream_id) DO UPDATE SET last_seen=excluded.last_seen`. -/
def upsertStream (db : Database) (streamId : Text) (lastSeen : ℤ) : Database :=
  { db with
    streams :=
      if db.streams.any fun row => row.streamId == streamId then
        db.streams.map fun row => if row.streamId = streamId then ⟨streamId, lastSeen⟩ else row
      else db.streams ++ [⟨streamId, lastSeen⟩] }

/-- `INSERT OR IGNORE`; the primary key is `(stream_id, seq)`. -/
def insertEvent (db : Database) (row : EventRow) : Database :=
  { db with
    events :=
      if db.events.any fun r => r.streamId == row.streamId && r.seq == row.seq then db.events
      else db.events ++ [row] }

/-- The rows of a stream. -/
def eventsOf (db : Database) (streamId : Text) : List EventRow :=
  db.events.filter fun row => row.streamId = streamId

def pruneStreamEvents (db : Database) (streamId : Text) (maxEvents : ℕ) : Database :=
  match ((db.eventsOf streamId).map EventRow.seq).max? with
  | none => db
  | some maxSeq =>
    let cutoff := wrapI64 (maxSeq - asI64 maxEvents)
    if cutoff ≤ 0 then db
    else { db with events := db.events.filter fun row => !(row.streamId = streamId ∧ (row.seq : ℤ) ≤ cutoff) }

def pruneExpired (db : Database) (ttl : Option Duration) (now : ℤ) : Database :=
  match ttl with
  | none => db
  | some ttl =>
    let cutoff := wrapI64 (now - asI64 (asSecs ttl))
    if cutoff ≤ 0 then db
    else
      ⟨db.streams.filter fun row => !(row.lastSeen < cutoff),
        db.events.filter fun row => !(row.createdAt < cutoff)⟩

/-- The order of `ORDER BY last_seen ASC`. -/
def LessRecent (rank : Text → ℕ) (a b : StreamRow) : Prop :=
  a.lastSeen < b.lastSeen ∨ a.lastSeen = b.lastSeen ∧ rank a.streamId ≤ rank b.streamId

instance (rank : Text → ℕ) : DecidableRel (LessRecent rank) :=
  fun _ _ => inferInstanceAs (Decidable (_ ∨ _ ∧ _))

/-- `LIMIT n`. -/
def limit {α : Type} (n : ℤ) (rows : List α) : List α := if n < 0 then rows else rows.take n.toNat

/-- The two `DELETE` statements of the loop of `prune_streams`. -/
def deleteStream (db : Database) (streamId : Text) : Database :=
  ⟨db.streams.filter fun row => row.streamId ≠ streamId,
    db.events.filter fun row => row.streamId ≠ streamId⟩

def pruneStreams (db : Database) (rank : Text → ℕ) (maxStreams : ℕ) : Database :=
  let count : ℤ := db.streams.length
  if count ≤ asI64 maxStreams then db
  else
    let overflow := wrapI64 (count - asI64 maxStreams)
    let streamIds := (limit overflow (db.streams.insertionSort (LessRecent rank))).map StreamRow.streamId
    streamIds.foldl deleteStream db

variable {M : Type} (codec : PayloadCodec M) (config : EventStoreConfig)

/-- `store_event_sync`, with the nonce that encryption draws. -/
def storeEventSync (db : Database) (streamId : Text) (event : StoredEvent M) (nonce : ℕ)
    (rank : Text → ℕ) (now : ℤ) : Database :=
  let payload := event.message.map fun m => codec.encrypt nonce (codec.serialize m)
  let db := db.upsertStream streamId event.createdAt
  let db := db.insertEvent ⟨streamId, event.seq, event.eventId, payload, event.createdAt⟩
  let db := db.pruneStreamEvents streamId config.maxEvents
  let db := db.pruneExpired config.ttl now
  db.pruneStreams rank config.maxStreams

/-- `ORDER BY seq ASC`. -/
def bySeq (rows : List EventRow) : List EventRow := rows.insertionSort fun a b => a.seq ≤ b.seq

/-- A row as it is read; `none` is the error of a payload that cannot be decrypted. -/
def readRow (row : EventRow) : Option StoredRow :=
  match row.payload with
  | none => some ⟨row.eventId, none⟩
  | some payload => (codec.decrypt payload).map fun payload => ⟨row.eventId, some payload⟩

/-- The rows, and the database that pruning leaves. -/
def replayEventsSync (db : Database) (streamId : Text) (lastSeq : ℕ) (now : ℤ) :
    Option (List StoredRow) × Database :=
  let db := db.pruneExpired config.ttl now
  ((bySeq ((db.eventsOf streamId).filter fun row => lastSeq < row.seq)).mapM (readRow codec), db)

end Database

section EventStore

variable {M : Type} (codec : PayloadCodec M) (config : EventStoreConfig)

/-- `store_event` with a SQLite store. -/
def storeSqlite (db : Database) (sessionId : Text) (message : ServerSseMessage M) (createdAt : ℤ)
    (nonce : ℕ) (rank : Text → ℕ) (now : ℤ) : Database :=
  match storedEvent sessionId message createdAt with
  | none => db
  | some (streamId, event) => db.storeEventSync codec config streamId event nonce rank now

/-- `replay_after` with a SQLite store. -/
def replaySqlite (db : Database) (sessionId lastEventId : Text) (now : ℤ) :
    Option (List (Text × M)) × Database :=
  match parseEventId lastEventId with
  | none => (some [], db)
  | some parsed =>
    let (rows, db) :=
      db.replayEventsSync codec config (streamId sessionId parsed.httpRequestId) parsed.index now
    (rows.map (readRows codec), db)

end EventStore

end McpToolkit.Http

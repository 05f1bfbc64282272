import McpToolkit.Lib.Decimal
import McpToolkit.Lib.System
import McpToolkit.Lib.Table
import McpToolkit.Lib.Text
import McpToolkit.Lib.Word

/-!
# McpToolkit.Http.EventStore — stored events and their replay

`EventStore` of `session.rs` with the memory store behind it.  Texts are lists of characters.  A call
holds the lock of the store while it works on the state, so it is one function; the readings of the
clock are arguments, `createdAt` before the lock is taken and `now` under it.

How messages are written as JSON and read back, and how SQLite payloads are encrypted, is a
parameter (`PayloadCodec`).
-/

namespace McpToolkit.Http

open Lib
open Lib.Decimal (decimal parseU64)
open Lib.Text (trim)
open Lib.Word (Duration asI64 asSecs i64Max u64Max wrapI64)

abbrev Text := List Char

/-! ### Event identifiers -/

/-- `str::split_once`. -/
def splitOnce (c : Char) (text : Text) : Option (Text × Text) :=
  match text.dropWhile (· ≠ c) with
  | [] => none
  | _ :: rest => some (text.takeWhile (· ≠ c), rest)

structure ParsedEventId where
  index : ℕ
  httpRequestId : Option ℕ
  deriving DecidableEq

def parseEventId (eventId : Text) : Option ParsedEventId :=
  let eventId := trim eventId
  if eventId.isEmpty then none
  else
    let (indexRaw, requestRaw) := match splitOnce '/' eventId with
      | some (index, request) => (index, some request)
      | none => (eventId, none)
    do
      let index ← parseU64 indexRaw
      -- `i64::try_from`
      if i64Max < index then none
      else
        match requestRaw with
        | none => return ⟨index, none⟩
        | some raw =>
          if (trim raw).isEmpty then none
          else
            let request ← parseU64 raw
            return ⟨index, some request⟩

def streamId (sessionId : Text) : Option ℕ → Text
  | some id => sessionId ++ '|' :: ("req:".toList ++ decimal Nat.digitChar id)
  | none => sessionId ++ '|' :: "common".toList

example : parseEventId " 7/12 ".toList = some ⟨7, some 12⟩ := by decide

example : parseEventId "7/".toList = none := by decide

/-! ### The memory store -/

structure EventStoreConfig where
  maxStreams : ℕ
  maxEvents : ℕ
  ttl : Option Duration
  deriving DecidableEq

/-- Messages and their JSON texts, and the texts that the database keeps for them. -/
structure PayloadCodec (M : Type) where
  serialize : M → Text
  parse : Text → Option M
  /-- `maybe_encrypt_payload`; the number stands for the nonce. -/
  encrypt : ℕ → Text → Text
  /-- `maybe_decrypt_payload`. -/
  decrypt : Text → Option Text
  decrypt_encrypt : ∀ nonce m, decrypt (encrypt nonce (serialize m)) = some (serialize m)

structure StoredRow where
  eventId : Text
  payload : Option Text
  deriving DecidableEq

structure StoredEvent (M : Type) where
  seq : ℕ
  eventId : Text
  message : Option M
  createdAt : ℤ
  deriving DecidableEq

structure MemoryState (M : Type) where
  streams : Finmap fun _ : Text => List (StoredEvent M)
  order : List Text

namespace MemoryState

variable {M : Type}

def empty : MemoryState M := ⟨∅, []⟩

def touchStream (order : List Text) (streamId : Text) : List Text := order.erase streamId ++ [streamId]

/-- The loop of `trim_streams`, on the order of the streams. -/
def trimLoop (maxStreams : ℕ) (streams : Finmap fun _ : Text => List (StoredEvent M)) :
    List Text → MemoryState M
  | [] => ⟨streams, []⟩
  | evicted :: order =>
    if maxStreams < (evicted :: order).length then trimLoop maxStreams (streams.erase evicted) order
    else ⟨streams, evicted :: order⟩

def trimStreams (maxStreams : ℕ) (st : MemoryState M) : MemoryState M :=
  trimLoop maxStreams st.streams st.order

/-- What the closure of `prune_expired` leaves of a queue: the events that are not older than the
cutoff, if there are any. -/
def freshQueue (cutoff : ℤ) (queue : List (StoredEvent M)) : Option (List (StoredEvent M)) :=
  let queue := queue.filter fun event => cutoff ≤ event.createdAt
  if queue.isEmpty then none else some queue

/-- An identifier stands in the order at most once, so it is gone when its position is removed. -/
def pruneExpired (ttl : Option Duration) (now : ℤ) (st : MemoryState M) : MemoryState M :=
  match ttl with
  | none => st
  | some ttl =>
    let cutoff := wrapI64 (now - asI64 (asSecs ttl))
    ⟨Table.retainMut (fun _ => freshQueue cutoff) st.streams,
      st.order.filter fun id => !(st.streams.lookup id).any fun queue => (freshQueue cutoff queue).isNone⟩

def storeEvent (config : EventStoreConfig) (st : MemoryState M) (streamId : Text) (event : StoredEvent M)
    (now : ℤ) : MemoryState M :=
  let queue := (st.streams.lookup streamId).getD []
  let queue := if config.maxEvents ≤ queue.length then queue.tail else queue
  let st : MemoryState M :=
    ⟨st.streams.insert streamId (queue ++ [event]), touchStream st.order streamId⟩
  (st.trimStreams config.maxStreams).pruneExpired config.ttl now

def row (codec : PayloadCodec M) (event : StoredEvent M) : StoredRow :=
  ⟨event.eventId, event.message.map codec.serialize⟩

/-- The rows, and the state that pruning leaves. -/
def replayAfter (codec : PayloadCodec M) (config : EventStoreConfig) (st : MemoryState M)
    (streamId : Text) (lastSeq : ℕ) (now : ℤ) : List StoredRow × MemoryState M :=
  let st := st.pruneExpired config.ttl now
  match st.streams.lookup streamId with
  | none => ([], st)
  | some queue => ((queue.filter fun event => lastSeq < event.seq).map (row codec), st)

end MemoryState

/-! ### The event store -/

structure ServerSseMessage (M : Type) where
  eventId : Option Text
  message : Option M
  deriving DecidableEq

section EventStore

variable {M : Type} (codec : PayloadCodec M) (config : EventStoreConfig)

/-- What `store_event` hands to a store: the stream, and the event. -/
def storedEvent (sessionId : Text) (message : ServerSseMessage M) (createdAt : ℤ) :
    Option (Text × StoredEvent M) := do
  let eventId ← message.eventId
  let parsed ← parseEventId eventId
  return (streamId sessionId parsed.httpRequestId, ⟨parsed.index, eventId, message.message, createdAt⟩)

/-- `store_event` with a memory store. -/
def storeMemory (st : MemoryState M) (sessionId : Text) (message : ServerSseMessage M) (createdAt now : ℤ) :
    MemoryState M :=
  match storedEvent sessionId message createdAt with
  | none => st
  | some (streamId, event) => st.storeEvent config streamId event now

/-- The end of `replay_after`: rows whose payload can be read become messages. -/
def readRows (rows : List StoredRow) : List (Text × M) :=
  rows.filterMap fun row => (row.payload.bind codec.parse).map fun message => (row.eventId, message)

/-- `replay_after` with a memory store. -/
def replayMemory (st : MemoryState M) (sessionId lastEventId : Text) (now : ℤ) :
    List (Text × M) × MemoryState M :=
  match parseEventId lastEventId with
  | none => ([], st)
  | some parsed =>
    let (rows, st) := st.replayAfter codec config (streamId sessionId parsed.httpRequestId) parsed.index now
    (readRows codec rows, st)

end EventStore

end McpToolkit.Http

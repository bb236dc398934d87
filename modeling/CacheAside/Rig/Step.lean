import CacheAside.Cache
import CacheAside.Rig.Base

/-!
# Steps on a rig

What a session does to the store and its surroundings besides making calls of a cache, and what can be
seen after each step.
-/

namespace CacheAside.Rig

/-- What a session notes for itself. -/
structure Notes where
  /-- The objects that the data source was last asked for; without a list, it took none. -/
  asked : Option (Option (List String)) := none
  /-- The keys whose entries can be looked at in a store that keeps no record: those that have been
  seeded. Without a list, every key can be looked at. -/
  watched : Option (List Key) := none

inductive Step where
  | seed (key : Key) (bytes : Bytes) (ttl : UInt32)
  | unseed (key : Key)
  | purge
  | isEmpty
  | clear
  | putRaw (key : Key) (raw : Bytes)
  | reopen
  | fail (reads writes : Option Bool) (delete : Option Key)
  | advance (ms : Nat)
  | drain
  | get (key : Key)
  | getMany (keys : List Key)
  | set (key : Key) (bytes : Bytes) (ttl : UInt32)
  | add (key : Key) (bytes : Bytes) (ttl : UInt32)
  | setSilently (key : Key) (bytes : Bytes) (ttl : UInt32)
  | delete (key : Key)
  | deleteMany (keys : List Key)
  | deadline
  /-- A look behind the deadline. -/
  | getInside (key : Key)

inductive Answer where
  | nothing
  | flag (b : Bool)
  | count (n : Nat)
  | bytes (o : Option Bytes)
  | table (t : Table Bytes)
  | deadline (ms : Option Nat)

variable {α : Type}

/-- Makes a store call. -/
def call (c : Call Base α) (form : α → Answer) (w : World Base Notes) :
    Except StoreError Answer × World Base Notes :=
  let (answer, w) := w.call c
  (answer.map form, w)

/-- Puts other contents in place. -/
def replace (w : World Base Notes) (contents : Base) : World Base Notes :=
  { w with scene := { w.scene with contents } }

/-- Changes the contents in a way that may fail. -/
def attempt (w : World Base Notes) (change : Except DiskError (α × Base)) (form : α → Answer) :
    Except StoreError Answer × World Base Notes :=
  match change with
  | .ok (answer, contents) => (.ok (form answer), replace w contents)
  | .error e => (.error e.toStoreError, w)

/-- Makes a step. -/
def Step.run (l : Layers) (step : Step) (w : World Base Notes) :
    Except StoreError Answer × World Base Notes :=
  let contents := w.scene.contents
  let now := w.scene.now
  match step with
  | seed key bytes ttl =>
    attempt { w with outside.watched := w.outside.watched.map (key :: ·) }
      ((contents.seed now key ttl bytes).map ((), ·)) fun _ => .nothing
  | unseed key => attempt w (contents.unseed now key) .flag
  | purge =>
    match contents.purge now with
    | .ok (count, contents) =>
      let w := replace w contents
      (.ok (.count count), { w with scene := w.scene.logAll (contents.purgeEvents count) })
    | .error e => (.error e.toStoreError, w)
  | isEmpty => (.ok (.flag (contents.size == 0)), w)
  | clear => (.ok .nothing, replace w contents.clear)
  | putRaw key raw => attempt w ((contents.putRaw key raw).map ((), ·)) fun _ => .nothing
  | reopen => (.ok .nothing, w)
  | fail reads writes key =>
    (.ok .nothing, replace w (contents.plan fun p =>
      { reads := reads.getD p.reads
        writes := writes.getD p.writes
        deletes := p.deletes ++ key.toList }))
  | advance ms =>
    (.ok .nothing, { w with scene := { w.scene with now := now + Int64.ofNat ms } })
  | drain => (.ok .nothing, Cache.drain l.outer w)
  | get key => call (l.outer.get key) .bytes w
  | getMany keys => call (l.outer.getMany keys) .table w
  | set key bytes ttl => call (l.outer.set key ttl bytes) (fun _ => .nothing) w
  | add key bytes ttl => call (l.outer.add key ttl bytes) .flag w
  | setSilently key bytes ttl =>
    let (stored, scene) := l.outer.setSilently key ttl bytes w.scene
    (.ok (.flag stored), { w with scene })
  | delete key => call (l.outer.delete key) .flag w
  | deleteMany keys => call (l.outer.deleteMany keys) .count w
  | deadline => (.ok (.deadline l.deadline), w)
  | getInside key => call (l.inner.get key) .bytes w

/-! ## What can be seen -/

/-- An entry as it can be seen. -/
inductive Seen where
  | live (key : Key) (bytes : Bytes)
  /-- A value on disk with the number in its header. -/
  | raw (key : Key) (header : Int64) (payload : Bytes)
  /-- A value on disk without a whole header. -/
  | truncated (key : Key) (raw : Bytes)

structure Observation where
  /-- The recorded calls, if there is a record. -/
  calls : Option (List StoreCall)
  events : List Event
  entries : List Seen
  size : Nat

/-- An entry on disk. -/
def seenOnDisk (key : Key) (raw : Bytes) : Seen :=
  if raw.length < Layout.headerLength then .truncated key raw
  else .raw key (Layout.header raw) (raw.drop Layout.headerLength)

/-- The entries to be seen: on disk all of them, in memory the readable ones. -/
def entries (w : World Base Notes) : List Seen :=
  let live (m : MemoryStore) := m.live w.scene.now
  match w.scene.contents with
  | .memory m =>
    let watched (key : Key) : Bool := (w.outside.watched.map (·.contains key)).getD true
    ((live m).filter fun (key, _) => watched key).map fun (key, bytes) => .live key bytes
  | .recording r => (live r.memory).map fun (key, bytes) => .live key bytes
  | .disk d => d.table.entries.map fun (key, raw) => seenOnDisk key raw

/-- What can be seen now, and the world in which that has been seen. -/
def observe (w : World Base Notes) : Observation × World Base Notes :=
  let calls := match w.scene.contents with
    | .recording r => some r.calls
    | _ => none
  let forgotten : Base := match w.scene.contents with
    | .recording r => .recording { r with calls := [] }
    | b => b
  ({ calls, events := w.scene.events, entries := entries w
     size := w.scene.contents.size },
    { w with scene := { w.scene with contents := forgotten, events := [] } })

end CacheAside.Rig

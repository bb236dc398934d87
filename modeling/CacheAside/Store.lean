import CacheAside.Error
import CacheAside.Event
import CacheAside.Store.Disk
import CacheAside.Store.Memory
import CacheAside.Store.Recording

/-!
# Stores

A store is a handful of operations on some kind of contents. A call of an operation runs on a scene:
the contents, the wall clock, the time its caller still waits, and the log. It ends with an answer or
a failure. That nothing is found under a key is an answer.
-/

namespace CacheAside

/-- What a store call runs on. -/
structure Scene (σ : Type) where
  contents : σ
  /-- The wall clock, in milliseconds. -/
  now : Int64
  /-- How much longer the caller waits, in milliseconds; without a number, without end. Waiting does
  not move the wall clock. -/
  patience : Option Nat := none
  /-- What has been logged, in order. -/
  events : List Event := []

namespace Scene

variable {σ τ : Type}

def log (s : Scene σ) (e : Event) : Scene σ := { s with events := s.events ++ [e] }

def logAll (s : Scene σ) (es : List Event) : Scene σ := { s with events := s.events ++ es }

/-- The same scene around other contents. -/
def withContents (s : Scene σ) (contents : τ) : Scene τ :=
  { contents, now := s.now, patience := s.patience, events := s.events }

end Scene

/-- A store call with an answer of type `α`. -/
abbrev Call (σ α : Type) := Scene σ → Except StoreError α × Scene σ

/-- The operations of a store with contents of type `σ`. -/
structure Store (σ : Type) where
  get : Key → Call σ (Option Bytes)
  /-- The bytes under some keys; those that are not there are left out. -/
  getMany : List Key → Call σ (Table Bytes)
  /-- Writes bytes that expire after some seconds, or never if that is zero. -/
  set : Key → UInt32 → Bytes → Call σ Unit
  /-- Writes only where nothing is, and says whether it did. -/
  add : Key → UInt32 → Bytes → Call σ Bool
  /-- Says whether something was removed. -/
  delete : Key → Call σ Bool
  /-- Counts what was removed. -/
  deleteMany : List Key → Call σ Nat

namespace Store

variable {σ τ : Type}

/-! ## Operations made of others -/

/-- Gets keys one by one, on top of what has been found already; the first failure ends it. -/
def getEach (get : Key → Call σ (Option Bytes)) : List Key → Table Bytes → Call σ (Table Bytes)
  | [], found => fun s => (.ok found, s)
  | key :: keys, found => fun s =>
    match get key s with
    | (.error e, s) => (.error e, s)
    | (.ok (some bytes), s) => getEach get keys (found.insert key bytes) s
    | (.ok none, s) => getEach get keys found s

/-- Deletes keys one by one, on top of a count; the first failure ends it. -/
def deleteEach (delete : Key → Call σ Bool) : List Key → Nat → Call σ Nat
  | [], removed => fun s => (.ok removed, s)
  | key :: keys, removed => fun s =>
    match delete key s with
    | (.error e, s) => (.error e, s)
    | (.ok true, s) => deleteEach delete keys (removed + 1) s
    | (.ok false, s) => deleteEach delete keys removed s

/-- Writes bytes; a failure is logged, and the answer says whether there was none. -/
def setSilently (store : Store σ) (key : Key) (ttl : UInt32) (bytes : Bytes) (s : Scene σ) :
    Bool × Scene σ :=
  match store.set key ttl bytes s with
  | (.ok (), s) => (true, s)
  | (.error e, s) => (false, s.log (.setFailed key e))

/-! ## Entries in memory -/

def deleteInMemory (key : Key) : Call MemoryStore Bool := fun s =>
  let (removed, contents) := s.contents.delete s.now key
  (.ok removed, { s with contents })

def memory : Store MemoryStore where
  get key s := (.ok (s.contents.lookup s.now key), s)
  getMany keys s := (.ok (s.contents.lookupMany s.now keys), s)
  set key ttl bytes s := (.ok (), { s with contents := s.contents.put s.now key ttl bytes })
  add key ttl bytes s :=
    let (added, contents) := s.contents.add s.now key ttl bytes
    (.ok added, { s with contents })
  delete := deleteInMemory
  deleteMany keys := deleteEach deleteInMemory keys 0

/-! ## Entries on disk -/

/-- A change of the contents that may fail, and then leaves them as they are. -/
def attempt {α : Type} (change : DiskStore → Int64 → Except DiskError (α × DiskStore)) :
    Call DiskStore α := fun s =>
  match change s.contents s.now with
  | .ok (answer, contents) => (.ok answer, { s with contents })
  | .error e => (.error e.toStoreError, s)

def disk : Store DiskStore where
  get key s := (.ok (s.contents.lookup s.now key), s.logAll (s.contents.truncations [key]))
  getMany keys s := (.ok (s.contents.lookupMany s.now keys), s.logAll (s.contents.truncations keys))
  set key ttl bytes := attempt fun d now => (d.put now key ttl bytes).map ((), ·)
  add key ttl bytes := attempt fun d now => d.add now key ttl bytes
  delete key := attempt fun d now => d.delete now key
  deleteMany keys := attempt fun d now => d.deleteMany now keys

/-! ## Entries with a record -/

/-- Records a call, then makes it on the entries unless it is to fail. -/
def recorded {α : Type} (call : StoreCall) (operation : String) (fails : FailurePlan → Bool)
    (onMemory : Call MemoryStore α) : Call RecordingStore α := fun s =>
  let contents := s.contents.record call
  if fails contents.failures then
    (.error (RecordingStore.injected operation), { s with contents })
  else
    let (answer, s) := onMemory (s.withContents contents.memory)
    (answer, s.withContents { contents with memory := s.contents })

def deleteRecorded (key : Key) : Call RecordingStore Bool :=
  recorded (.delete key) "delete" (·.deletes.contains key) (memory.delete key)

def recording : Store RecordingStore where
  get key := recorded (.get key) "get" (·.reads) (memory.get key)
  getMany keys := recorded (.getMany keys) "get_bulk" (·.reads) (memory.getMany keys)
  set key ttl bytes := recorded (.set key ttl) "set" (·.writes) (memory.set key ttl bytes)
  add key ttl bytes := recorded (.add key ttl) "add" (·.writes) (memory.add key ttl bytes)
  delete := deleteRecorded
  deleteMany keys := deleteEach deleteRecorded keys 0

end Store

end CacheAside

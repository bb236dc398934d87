import CacheAside.Error
import CacheAside.Store.Memory

/-!
# A store that keeps a record

Entries in memory together with every call made, and a plan of calls that are to fail. A failing call
is recorded like any other and touches no entry.
-/

namespace CacheAside

inductive StoreCall where
  | get (key : Key)
  | getMany (keys : List Key)
  | set (key : Key) (ttl : UInt32)
  | add (key : Key) (ttl : UInt32)
  | delete (key : Key)
  deriving DecidableEq

/-- Which calls fail. -/
structure FailurePlan where
  reads : Bool := false
  writes : Bool := false
  /-- The keys whose deletes fail. -/
  deletes : List Key := []
  deriving DecidableEq

structure RecordingStore where
  memory : MemoryStore := .empty
  /-- The calls so far, in their order. -/
  calls : List StoreCall := []
  failures : FailurePlan := {}

namespace RecordingStore

def empty : RecordingStore := {}

def record (r : RecordingStore) (call : StoreCall) : RecordingStore :=
  { r with calls := r.calls ++ [call] }

/-- The cause of a planned failure. -/
def injected (operation : String) : StoreError :=
  .transport ("injected " ++ operation ++ " failure")

end RecordingStore

end CacheAside

import CacheAside.Error
import CacheAside.Key

/-!
# Log events

What stores and calls report on the side. An event is its cause; its level, message and fields follow
from that.
-/

namespace CacheAside

inductive Event where
  | hit (key : Key) (isNull : Bool)
  | bypassed (keyspace : String)
  | undecodable (key : Key)
  | getFailed (key : Key) (e : StoreError)
  | bulkGetFailed (keyspace : String) (keys : Nat) (e : StoreError)
  | unencodable (key : Key) (e : CodecError)
  | setFailed (key : Key) (e : StoreError)
  | addFailed (key : Key) (e : StoreError)
  | deleteFailed (key : Key) (e : StoreError)
  | nullSkipped (key : Key)
  | unmatchedResult (key : Key)
  | noExecutor
  /-- An entry on disk is too short for its header. -/
  | truncated (key : Key)
  | purged (count : Nat)
  deriving DecidableEq

namespace Event

/-- Whether an event reports trouble; the others help to trace a call. -/
def isWarning : Event → Bool
  | undecodable .. | getFailed .. | bulkGetFailed .. | unencodable .. | setFailed .. | addFailed ..
  | deleteFailed .. | truncated .. => true
  | hit .. | bypassed .. | nullSkipped .. | unmatchedResult .. | noExecutor | purged .. => false

def level (e : Event) : String := if e.isWarning then "WARN" else "DEBUG"

def message : Event → String
  | hit .. => "Cache hit"
  | bypassed _ => "Bypassing cache read"
  | undecodable _ => "Treating undecodable cache entry as a miss"
  | getFailed .. => "Cache get failed; computing instead"
  | bulkGetFailed .. => "Bulk get failed; treating every key as a miss"
  | unencodable .. => "Skipping cache write for unencodable value"
  | setFailed .. => "Cache set failed"
  | addFailed .. => "Cache add failed"
  | deleteFailed .. => "Cache delete failed"
  | nullSkipped _ => "Not caching null result"
  | unmatchedResult _ => "Result matches no missed object; cached only"
  | noExecutor => "No async runtime for detached write-back; writing inline"
  | truncated _ => "Discarding LMDB entry with truncated header"
  | purged _ => "Purged expired LMDB entries"

/-- The values that go with the message, by name. -/
def fields : Event → List (String × String)
  | hit key isNull => [("key", key.text), ("null", if isNull then "true" else "false")]
  | bypassed keyspace => [("namespace", keyspace)]
  | undecodable key => [("key", key.text)]
  | getFailed key e => [("key", key.text), ("error", e.message)]
  | bulkGetFailed keyspace keys e =>
    [("namespace", keyspace), ("keys", toString keys), ("error", e.message)]
  | unencodable key e => [("key", key.text), ("error", e.message)]
  | setFailed key e => [("key", key.text), ("error", e.message)]
  | addFailed key e => [("key", key.text), ("error", e.message)]
  | deleteFailed key e => [("key", key.text), ("error", e.message)]
  | nullSkipped key => [("key", key.text)]
  | unmatchedResult key => [("key", key.text)]
  | noExecutor => []
  | truncated key => [("key", key.text)]
  | purged count => [("removed", toString count)]

end Event

end CacheAside

import CacheAside.Store.Expiry
import CacheAside.Store.Table
import CacheAside.Text.Utf8

/-!
# Entries in memory

Bytes and their expiry by key. An expired entry stays until a write or a purge removes it, but no
question about its key finds it.
-/

namespace CacheAside

structure StoredValue where
  bytes : Bytes
  /-- In milliseconds; without a number the value does not expire. -/
  expiry : Option Int64
  deriving DecidableEq

def StoredValue.isLive (v : StoredValue) (now : Int64) : Bool := CacheAside.isLive v.expiry now

structure MemoryStore where
  table : Table StoredValue

namespace MemoryStore

def empty : MemoryStore := ⟨Table.empty⟩

/-- The readable bytes under a key. -/
def lookup (m : MemoryStore) (now : Int64) (key : Key) : Option Bytes :=
  match m.table.find? key with
  | some v => if v.isLive now then some v.bytes else none
  | none => none

/-- The readable bytes under some keys. -/
def lookupMany (m : MemoryStore) (now : Int64) (keys : List Key) : Table Bytes :=
  Table.ofKeys (m.lookup now) keys

/-- Writes an entry, over the one that may be there. -/
def put (m : MemoryStore) (now : Int64) (key : Key) (ttl : UInt32) (bytes : Bytes) : MemoryStore :=
  ⟨m.table.insert key ⟨bytes, expiresAt ttl now⟩⟩

/-- Writes an entry unless a readable one is there, and says whether it did. -/
def add (m : MemoryStore) (now : Int64) (key : Key) (ttl : UInt32) (bytes : Bytes) :
    Bool × MemoryStore :=
  if (m.lookup now key).isSome then (false, m) else (true, m.put now key ttl bytes)

/-- Removes an entry, and says whether it was readable. -/
def delete (m : MemoryStore) (now : Int64) (key : Key) : Bool × MemoryStore :=
  ((m.lookup now key).isSome, ⟨m.table.erase key⟩)

/-- The number of entries, expired ones included. -/
def size (m : MemoryStore) : Nat := m.table.size

/-- Removes the expired entries, and counts them. -/
def purge (m : MemoryStore) (now : Int64) : Nat × MemoryStore :=
  let kept := m.table.filter fun _ v => v.isLive now
  (m.size - kept.size, ⟨kept⟩)

/-- The readable entries, in the order of their keys. -/
def live (m : MemoryStore) (now : Int64) : List (Key × Bytes) :=
  m.table.entries.filterMap fun (key, v) => if v.isLive now then some (key, v.bytes) else none

end MemoryStore

end CacheAside

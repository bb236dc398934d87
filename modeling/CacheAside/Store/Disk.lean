import CacheAside.Error
import CacheAside.Event
import CacheAside.Pages.File
import CacheAside.Store.Expiry
import CacheAside.Store.Layout
import CacheAside.Store.Table

/-!
# Entries on disk

A store that keeps raw values by key. It may hold values that are no values of the layout: such an
entry reads as expired, and every read that meets one reports it. Keys that are empty or too long
cannot be written, and nothing is ever found under them. Every change, also one that only removes,
needs pages of the file that the store is kept in. One that finds none left fails and changes
nothing.
-/

namespace CacheAside

structure DiskStore where
  /-- The raw values by key. -/
  table : Table Bytes
  /-- The file they are in. -/
  file : Pages.File := {}

namespace DiskStore

def empty : DiskStore := { table := .empty }

/-- The longest key that can be written, in bytes. -/
def maxKeyLength : Nat := 511

def invalidKey : DiskError :=
  .transaction
    "MDB_BAD_VALSIZE: Unsupported size of key/DB name/data, or wrong DUPFIXED size"

def full : DiskError := .transaction "MDB_MAP_FULL: Environment mapsize limit reached"

/-- The cause when the store cannot be opened because a file is in the place of its folder. -/
def folderTaken : DiskError := .io "File exists (os error 17)"

/-- The cause when the store cannot be opened because its file is not one of its own. -/
def notOwnFile : DiskError := .environment "MDB_INVALID: File is not an LMDB file"

/-- The payload of a raw value that is readable. -/
def payload? (now : Int64) (raw : Bytes) : Option Bytes :=
  match Layout.decode? raw with
  | some (expiry, payload) => if isLive expiry now then some payload else none
  | none => none

/-- The readable payload under a key. -/
def lookup (d : DiskStore) (now : Int64) (key : Key) : Option Bytes :=
  (d.table.find? key).bind (payload? now)

/-- Whether the raw value under a key is too short for its header. -/
def isTruncated (d : DiskStore) (key : Key) : Bool :=
  match d.table.find? key with
  | some raw => (Layout.decode? raw).isNone
  | none => false

/-- What a read of some keys reports, in their order. -/
def truncations (d : DiskStore) (keys : List Key) : List Event :=
  (keys.filter d.isTruncated).map .truncated

/-- The readable payloads under some keys. -/
def lookupMany (d : DiskStore) (now : Int64) (keys : List Key) : Table Bytes :=
  Table.ofKeys (d.lookup now) keys

/-- The store after a change of its file, unless that has failed. -/
def commit (table : Table Bytes) (file : Option Pages.File) : Except DiskError DiskStore :=
  match file with
  | some file => .ok { table, file }
  | none => .error full

/-- Writes a raw value. -/
def putRaw (d : DiskStore) (key : Key) (raw : Bytes) : Except DiskError DiskStore :=
  if key.byteSize = 0 ∨ maxKeyLength < key.byteSize then .error invalidKey
  else commit (d.table.insert key raw) (d.file.put? key raw.length)

/-- Writes an entry, over the one that may be there. -/
def put (d : DiskStore) (now : Int64) (key : Key) (ttl : UInt32) (payload : Bytes) :
    Except DiskError DiskStore :=
  d.putRaw key (Layout.encode (expiresAt ttl now) payload)

/-- Writes an entry unless a readable one is there, and says whether it did. -/
def add (d : DiskStore) (now : Int64) (key : Key) (ttl : UInt32) (payload : Bytes) :
    Except DiskError (Bool × DiskStore) :=
  if (d.lookup now key).isSome then .ok (false, d)
  else
    match d.put now key ttl payload with
    | .ok d => .ok (true, d)
    | .error e => .error e

/-- Removes an entry, and says whether it was readable. -/
def delete (d : DiskStore) (now : Int64) (key : Key) : Except DiskError (Bool × DiskStore) :=
  match commit (d.table.erase key) (d.file.eraseAll? [key]) with
  | .ok d' => .ok ((d.lookup now key).isSome, d')
  | .error e => .error e

/-- The table without some keys, and how many of them were readable when it was their turn. -/
def without (now : Int64) (table : Table Bytes) : List Key → Nat × Table Bytes
  | [] => (0, table)
  | key :: keys =>
    let (count, rest) := without now (table.erase key) keys
    (if ((table.find? key).bind (payload? now)).isSome then count + 1 else count, rest)

/-- Removes the entries of some keys in turn, and counts the readable ones. It is one change. -/
def deleteMany (d : DiskStore) (now : Int64) (keys : List Key) :
    Except DiskError (Nat × DiskStore) :=
  let (count, table) := without now d.table keys
  match commit table (d.file.eraseAll? keys) with
  | .ok d' => .ok (count, d')
  | .error e => .error e

/-- The number of entries, expired ones included. -/
def size (d : DiskStore) : Nat := d.table.size

/-- Removes the entries that are not readable, and counts them. It is one change. -/
def purge (d : DiskStore) (now : Int64) : Except DiskError (Nat × DiskStore) :=
  let kept := d.table.filter fun _ raw => (payload? now raw).isSome
  let dead := d.table.filter fun _ raw => (payload? now raw).isNone
  match commit kept (d.file.eraseAll? dead.keys) with
  | .ok d' => .ok (dead.size, d')
  | .error e => .error e

end DiskStore

end CacheAside

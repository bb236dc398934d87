import CacheAside.Entry
import CacheAside.Error
import CacheAside.Key.Builder
import CacheAside.Store.Table

/-!
# Batches

The books of one call that reads many keys: which key each object has, and which entry each key. Equal
objects share a key, different objects may; of those the first stands for the key.
-/

namespace CacheAside

structure Batch (κ τ : Kind) where
  /-- The objects asked for, repetitions included. -/
  objects : List κ
  /-- Each different object with its key, in the order of their first appearance. -/
  keyed : List (κ × Key)
  /-- The entries found so far. -/
  resolved : Table (Entry τ) := .empty
  /-- Keys under which the store holds bytes without an entry. -/
  unreadable : List Key := []

namespace Batch

variable {κ τ : Kind}

/-- Gives each object a key unless it has one, on top of those already given. -/
def assign (b : KeyBuilder) (keyspace : String) :
    List κ → List (κ × Key) → Except ConfigError (List (κ × Key))
  | [], keyed => .ok keyed
  | x :: xs, keyed =>
    if (keyed.lookup x).isSome then assign b keyspace xs keyed
    else
      match b.keyFor keyspace x with
      | .error e => .error e
      | .ok key => assign b keyspace xs (keyed ++ [(x, key)])

/-- A batch in which no key has an entry yet. -/
def build (b : KeyBuilder) (keyspace : String) (objects : List κ) :
    Except ConfigError (Batch κ τ) :=
  match assign b keyspace objects [] with
  | .error e => .error e
  | .ok keyed => .ok { objects, keyed }

/-- The different keys, each with the first object that has it, in the order of their first
appearance. -/
def representatives (b : Batch κ τ) : List (Key × κ) :=
  (b.keyed.map fun (x, key) => (key, x)).eraseDupsBy fun p q => p.1 == q.1

/-- The different keys in the order of their first appearance. -/
def distinctKeys (b : Batch κ τ) : List Key := b.representatives.map (·.1)

/-- Whether a key belongs to one of the objects. -/
def owns (b : Batch κ τ) (key : Key) : Bool := b.keyed.any (·.2 == key)

def isResolved (b : Batch κ τ) (key : Key) : Bool := (b.resolved.find? key).isSome

/-- Gives a key an entry unless it has one. -/
def resolve (b : Batch κ τ) (key : Key) (entry : Entry τ) : Batch κ τ :=
  if b.isResolved key then b else { b with resolved := b.resolved.insert key entry }

/-- Gives keys entries in turn. -/
def resolveAll (b : Batch κ τ) (entries : List (Key × Entry τ)) : Batch κ τ :=
  entries.foldl (fun b (key, entry) => b.resolve key entry) b

def markUnreadable (b : Batch κ τ) (key : Key) : Batch κ τ :=
  if key ∈ b.unreadable then b else { b with unreadable := key :: b.unreadable }

def isUnreadable (b : Batch κ τ) (key : Key) : Bool := decide (key ∈ b.unreadable)

/-- The keys without an entry, each with the object that stands for it. -/
def missed (b : Batch κ τ) : List (Key × κ) := b.representatives.filter fun p => !b.isResolved p.1

/-- The values of some objects, in their order. -/
def valuesOf (b : Batch κ τ) (skipNulls : Bool) :
    List κ → Except ReconciliationError (List (Option τ))
  | [] => .ok []
  | x :: xs =>
    match b.keyed.lookup x with
    | none => .error (.missingEntry (κ.text x))
    | some key =>
      match b.resolved.find? key with
      | none => .error (.missingEntry key.text)
      | some entry =>
        match valuesOf b skipNulls xs with
        | .error e => .error e
        | .ok values =>
          .ok (if entry.isNull && skipNulls then values else entry.toOption :: values)

/-- One value for each object asked for; objects without one may be left out. -/
def assemble (b : Batch κ τ) (skipNulls : Bool) :
    Except ReconciliationError (List (Option τ)) :=
  b.valuesOf skipNulls b.objects

end Batch

end CacheAside

import CacheAside.Store.Layers

/-!
# The store of a rig

One of the three stores with layers around it, chosen when the rig is set up.
-/

namespace CacheAside.Rig

/-- The contents of the innermost store. -/
inductive Base where
  | memory (m : MemoryStore)
  | recording (r : RecordingStore)
  | disk (d : DiskStore)

namespace Base

variable {α : Type}

/-- A call on whichever store it is. -/
def through (call : {σ : Type} → Store σ → Call σ α) : Call Base α := fun s =>
  match s.contents with
  | .memory m =>
    let (answer, s) := call Store.memory (s.withContents m)
    (answer, s.withContents (.memory s.contents))
  | .recording r =>
    let (answer, s) := call Store.recording (s.withContents r)
    (answer, s.withContents (.recording s.contents))
  | .disk d =>
    let (answer, s) := call Store.disk (s.withContents d)
    (answer, s.withContents (.disk s.contents))

def store : Store Base where
  get key := through (·.get key)
  getMany keys := through (·.getMany keys)
  set key ttl bytes := through (·.set key ttl bytes)
  add key ttl bytes := through (·.add key ttl bytes)
  delete key := through (·.delete key)
  deleteMany keys := through (·.deleteMany keys)

/-! ## Past the layers -/

/-- Writes an entry; nothing is recorded. -/
def seed (b : Base) (now : Int64) (key : Key) (ttl : UInt32) (bytes : Bytes) :
    Except DiskError Base :=
  match b with
  | memory m => .ok (.memory (m.put now key ttl bytes))
  | recording r => .ok (.recording { r with memory := r.memory.put now key ttl bytes })
  | disk d => (d.put now key ttl bytes).map .disk

/-- Removes an entry, and says whether it was readable; nothing is recorded. -/
def unseed (b : Base) (now : Int64) (key : Key) : Except DiskError (Bool × Base) :=
  match b with
  | memory m => let (removed, m) := m.delete now key; .ok (removed, .memory m)
  | recording r =>
    let (removed, m) := r.memory.delete now key
    .ok (removed, .recording { r with memory := m })
  | disk d => (d.delete now key).map fun (removed, d) => (removed, .disk d)

/-- Removes what is not readable, and counts it. -/
def purge (b : Base) (now : Int64) : Except DiskError (Nat × Base) :=
  match b with
  | memory m => let (count, m) := m.purge now; .ok (count, .memory m)
  | recording r =>
    let (count, m) := r.memory.purge now; .ok (count, .recording { r with memory := m })
  | disk d => (d.purge now).map fun (count, d) => (count, .disk d)

/-- What is reported when some entries have been purged. -/
def purgeEvents (b : Base) (count : Nat) : List Event :=
  match b with
  | disk _ => if count = 0 then [] else [.purged count]
  | _ => []

/-- The number of entries, expired ones included. -/
def size : Base → Nat
  | memory m => m.size
  | recording r => r.memory.size
  | disk d => d.size

/-- Empties a store in memory. -/
def clear : Base → Base
  | memory _ => .memory .empty
  | recording r => .recording { r with memory := .empty }
  | disk d => .disk d

/-- Writes a raw value to disk. -/
def putRaw (b : Base) (key : Key) (raw : Bytes) : Except DiskError Base :=
  match b with
  | disk d => (d.putRaw key raw).map .disk
  | b => .ok b

/-- Changes which calls fail. -/
def plan (b : Base) (change : FailurePlan → FailurePlan) : Base :=
  match b with
  | recording r => .recording { r with failures := change r.failures }
  | b => b

end Base

/-! ## Layers -/

/-- The layers around the store, the innermost first. -/
structure Layers where
  latency : Option Latency := none
  extra : Option (Key × Bytes) := none
  deadline : Option Nat := none

namespace Layers

/-- The store without its deadline. -/
def inner (l : Layers) : Store Base :=
  let slowed := match l.latency with
    | some latency => Base.store.slow latency
    | none => Base.store
  match l.extra with
  | some (key, bytes) => slowed.augmented key bytes
  | none => slowed

def outer (l : Layers) : Store Base :=
  match l.deadline with
  | some limit => l.inner.bounded limit
  | none => l.inner

end Layers

end CacheAside.Rig

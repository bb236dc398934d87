import CacheAside.Codec
import CacheAside.Config
import CacheAside.Key.Builder
import CacheAside.World

/-!
# The cache in front of a data source

What the calls of a process share, and the steps they are made of. Trouble with the store is logged
and counted, and goes no further: none of these steps fails.
-/

namespace CacheAside

structure Cache (σ : Type) where
  store : Store σ
  config : Config := {}
  registry : Registry := .empty
  codec : Codec := .json

/-- Why a call has no result. -/
inductive Failure (ε : Type) where
  /-- The call was refused, or the answer of the data source does not fit it. -/
  | refused (e : CacheError)
  /-- The data source failed. -/
  | source (e : ε)

/-- What a call does: a result or a failure, in a changed world. -/
abbrev Outcome (σ υ ε α : Type) := World σ υ → Except (Failure ε) α × World σ υ

/-- Refuses a call and leaves the world alone. -/
def refuse {σ υ ε α : Type} (e : ConfigError) : Outcome σ υ ε α :=
  fun w => (.error (.refused (.config e)), w)

/-- Nothing but the computation. -/
def Computation.direct {σ υ ε α : Type} (compute : Computation σ υ ε α) : Outcome σ υ ε α :=
  fun w =>
    match compute w with
    | (.ok a, w) => (.ok a, w)
    | (.error e, w) => (.error (.source e), w)

namespace Cache

variable {σ υ : Type}

/-- What builds the keys of calls. -/
def keys (c : Cache σ) : KeyBuilder := ⟨c.registry, c.config.maxKeyLength⟩

/-- The keys of key objects, in their order. -/
def keysFor (c : Cache σ) (keyspace : String) {κ : Kind} (objects : List κ) :
    Except ConfigError (List Key) :=
  objects.mapM (c.keys.keyFor keyspace)

/-- Refuses results of a kind that has no registered identity. -/
def checkResultKind (c : Cache σ) (τ : Kind) : Except ConfigError Unit :=
  if c.registry.isRegistered τ then .ok () else .error (Registry.unregistered τ)

/-- The seconds until the entries of a call expire. -/
def ttl (c : Cache σ) (o : Options) : UInt32 := o.ttlOr c.config.defaultTtl

/-! ## Entries and bytes -/

/-- The bytes of an optional value; a value without bytes is skipped. -/
def encode (c : Cache σ) {τ : Kind} (key : Key) (o : Option τ) (w : World σ υ) :
    Option Bytes × World σ υ :=
  match c.codec.encodeOption o with
  | .ok bytes => (some bytes, w)
  | .error e => (none, (w.log (.unencodable key e)).count Stats.addWriteFailure)

/-- The entry in some bytes; bytes without an entry are as good as none. -/
def decode (c : Cache σ) (τ : Kind) (key : Key) (bytes : Bytes) (w : World σ υ) :
    Option (Entry τ) × World σ υ :=
  match c.codec.decode τ bytes with
  | .ok entry => (some entry, w)
  | .error _ => (none, w.log (.undecodable key))

/-! ## Writing -/

/-- Makes one write. A key that was not free counts as written. -/
def applyWrite (store : Store σ) (ttl : UInt32) (w : World σ υ) (p : PendingWrite) : World σ υ :=
  match p.mode with
  | .overwrite =>
    let (stored, scene) := store.setSilently p.key ttl p.bytes w.scene
    { w with scene }.count (if stored then Stats.addWrite else Stats.addWriteFailure)
  | .ifAbsent =>
    match w.call (store.add p.key ttl p.bytes) with
    | (.ok _, w) => w.count Stats.addWrite
    | (.error e, w) => (w.log (.addFailed p.key e)).count Stats.addWriteFailure

/-- Makes the writes of a job, in order and whatever becomes of each. -/
def runJob (store : Store σ) (w : World σ υ) (job : Job) : World σ υ :=
  job.writes.foldl (applyWrite store job.ttl) w

/-- Makes the writes of a call, or leaves them behind as a job. -/
def writeBack (c : Cache σ) (o : Options) (writes : List PendingWrite) (w : World σ υ) :
    World σ υ :=
  let job : Job := ⟨writes, c.ttl o⟩
  if writes = [] then w
  else
    match o.writeBack with
    | .inline => runJob c.store w job
    | .detached =>
      if w.executor then { w with pending := w.pending ++ [job] }
      else runJob c.store (w.log .noExecutor) job

/-- Runs the jobs that calls have left behind. -/
def drain (store : Store σ) (w : World σ υ) : World σ υ :=
  w.pending.foldl (runJob store) { w with pending := [] }

/-! ## Deleting -/

/-- Deletes one key, and says whether it was there. -/
def deleteOne (c : Cache σ) (key : Key) (w : World σ υ) : Bool × World σ υ :=
  match w.call (c.store.delete key) with
  | (.ok true, w) => (true, w.count Stats.addInvalidation)
  | (.ok false, w) => (false, w)
  | (.error e, w) => (false, (w.log (.deleteFailed key e)).count Stats.addWriteFailure)

/-- Deletes keys one by one, whatever becomes of each, and counts those that were there. -/
def deleteAll (c : Cache σ) : List Key → World σ υ → Nat × World σ υ
  | [], w => (0, w)
  | key :: keys, w =>
    let (removed, w) := c.deleteOne key w
    let (count, w) := c.deleteAll keys w
    (if removed then count + 1 else count, w)

end Cache

end CacheAside

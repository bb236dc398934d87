import CacheAside.Store

/-!
# Layers around a store

Three ways to change how a store answers: it takes time, it answers with an entry that nobody asked
for, it gives up at a deadline. A layer keeps the contents of the store it surrounds.
-/

namespace CacheAside

/-- How long a call takes before it reaches the store, in milliseconds; without a number it never
does. -/
structure Latency where
  get : Option Nat := some 0
  set : Option Nat := some 0
  add : Option Nat := some 0
  delete : Option Nat := some 0
  deriving DecidableEq

namespace Store

variable {σ α : Type}

/-- A call that takes some time first. If its caller does not wait that long, it never happens. -/
def delayed (delay : Option Nat) (call : Call σ α) : Call σ α := fun s =>
  match delay, s.patience with
  | none, patience => (.error .stalled, { s with patience := patience.map fun _ => 0 })
  | some _, none => call s
  | some d, some p =>
    if d ≤ p then call { s with patience := some (p - d) }
    else (.error .stalled, { s with patience := some 0 })

/-- A store whose calls take time. Many keys are handled one by one. -/
def slow (latency : Latency) (store : Store σ) : Store σ where
  get key := delayed latency.get (store.get key)
  getMany keys := getEach (fun key => delayed latency.get (store.get key)) keys .empty
  set key ttl bytes := delayed latency.set (store.set key ttl bytes)
  add key ttl bytes := delayed latency.add (store.add key ttl bytes)
  delete key := delayed latency.delete (store.delete key)
  deleteMany keys := deleteEach (fun key => delayed latency.delete (store.delete key)) keys 0

/-- A store whose answers about many keys hold one more entry, unless that key was found anyway. Many
keys are deleted one by one. -/
def augmented (key : Key) (bytes : Bytes) (store : Store σ) : Store σ where
  get := store.get
  getMany keys s :=
    match store.getMany keys s with
    | (.ok found, s) =>
      (.ok (if (found.find? key).isSome then found else found.insert key bytes), s)
    | (.error e, s) => (.error e, s)
  set := store.set
  add := store.add
  delete := store.delete
  deleteMany keys := deleteEach store.delete keys 0

/-- A call that fails with a timeout when it has not answered in time. Its caller may be less patient
than the deadline; then the call stays without an answer. -/
def within (limit : Nat) (operation : String) (call : Call σ α) : Call σ α := fun s =>
  let allowed := match s.patience with
    | some p => min p limit
    | none => limit
  let (answer, s') := call { s with patience := some allowed }
  let spent := allowed - s'.patience.getD 0
  let s' := { s' with patience := s.patience.map (· - spent) }
  match answer with
  | .error .stalled =>
    if allowed = limit then (.error (.timeout operation (.ofMillis limit)), s')
    else (.error .stalled, s')
  | answer => (answer, s')

/-- A store with a deadline for each call, in milliseconds. -/
def bounded (limit : Nat) (store : Store σ) : Store σ where
  get key := within limit "get" (store.get key)
  getMany keys := within limit "get_bulk" (store.getMany keys)
  set key ttl bytes := within limit "set" (store.set key ttl bytes)
  add key ttl bytes := within limit "add" (store.add key ttl bytes)
  delete key := within limit "delete" (store.delete key)
  deleteMany keys := within limit "delete_many" (store.deleteMany keys)

end Store

end CacheAside

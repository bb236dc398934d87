import CacheAside.Rig.Step

/-!
# Runs on a bare store

What can be done to a store without layers, one action after the other, each at its own time. A run
leaves a history: what has been done when, and what came back.
-/

namespace CacheAside

/-- Removes the entries of some keys in turn, and counts those that were readable. -/
def MemoryStore.deleteAll (m : MemoryStore) (now : Int64) : List Key → Nat × MemoryStore
  | [] => (0, m)
  | key :: keys =>
    let (removed, m) := m.delete now key
    let (count, m) := m.deleteAll now keys
    (if removed then count + 1 else count, m)

theorem Store.deleteEach_deleteInMemory : ∀ (keys : List Key) (removed : Nat)
    (s : Scene MemoryStore), deleteEach deleteInMemory keys removed s =
      (.ok (removed + (s.contents.deleteAll s.now keys).1),
        { s with contents := (s.contents.deleteAll s.now keys).2 })
  | [], _, _ => rfl
  | key :: keys, removed, s => by
      have ih := deleteEach_deleteInMemory keys
      have hdelete : deleteInMemory key s = (.ok (s.contents.delete s.now key).1,
        { s with contents := (s.contents.delete s.now key).2 }) := rfl
      cases hremoved : (s.contents.delete s.now key).1 with
      | false =>
          simp only [deleteEach, hdelete, hremoved, ih]
          simp [MemoryStore.deleteAll, hremoved]
      | true =>
          simp only [deleteEach, hdelete, hremoved, ih]
          simp [MemoryStore.deleteAll, hremoved, Nat.add_assoc, Nat.add_comm 1]

namespace Rig

inductive Action where
  | get (key : Key)
  | getMany (keys : List Key)
  | set (key : Key) (ttl : UInt32) (bytes : Bytes)
  | add (key : Key) (ttl : UInt32) (bytes : Bytes)
  | delete (key : Key)
  | deleteMany (keys : List Key)
  | purge
  | clear
  | size
  | isEmpty

namespace Action

variable {α : Type}

/-- A store call with its answer in another form. -/
def answering (form : α → Answer) (c : Call Base α) : Call Base Answer := fun s =>
  ((c s).1.map form, (c s).2)

/-- Removes what is not readable, and reports it. -/
def purged : Call Base Answer := fun s =>
  match s.contents.purge s.now with
  | .ok (count, contents) =>
    (.ok (.count count), { s with contents }.logAll (s.contents.purgeEvents count))
  | .error e => (.error e.toStoreError, s)

/-- Takes an action. -/
def run : Action → Call Base Answer
  | get key => answering .bytes (Base.store.get key)
  | getMany keys => answering .table (Base.store.getMany keys)
  | set key ttl bytes => answering (fun _ => .nothing) (Base.store.set key ttl bytes)
  | add key ttl bytes => answering .flag (Base.store.add key ttl bytes)
  | delete key => answering .flag (Base.store.delete key)
  | deleteMany keys => answering .count (Base.store.deleteMany keys)
  | purge => purged
  | clear => fun s => (.ok .nothing, { s with contents := s.contents.clear })
  | size => fun s => (.ok (.count s.contents.size), s)
  | isEmpty => fun s => (.ok (.flag (s.contents.size == 0)), s)

end Action

/-- An action that has been taken. -/
structure Record where
  /-- When it was taken. -/
  now : Int64
  action : Action
  answer : Except StoreError Answer

/-- Takes actions in turn, each at its own time. -/
def runAll : List (Int64 × Action) → Scene Base → List Record × Scene Base
  | [], s => ([], s)
  | (now, action) :: rest, s =>
    let (answer, s) := action.run { s with now }
    let (history, s) := runAll rest s
    (⟨now, action, answer⟩ :: history, s)

/-! ## Actions on entries in memory -/

namespace Action

/-- What an action answers and leaves behind in memory, where none fails. -/
def onMemory (m : MemoryStore) (now : Int64) : Action → Answer × MemoryStore
  | get key => (.bytes (m.lookup now key), m)
  | getMany keys => (.table (m.lookupMany now keys), m)
  | set key ttl bytes => (.nothing, m.put now key ttl bytes)
  | add key ttl bytes => (m.add now key ttl bytes).map .flag id
  | delete key => (m.delete now key).map .flag id
  | deleteMany keys => (m.deleteAll now keys).map .count id
  | purge => (m.purge now).map .count id
  | clear => (.nothing, .empty)
  | size => (.count m.size, m)
  | isEmpty => (.flag (m.size == 0), m)

theorem run_memory {s : Scene Base} {m : MemoryStore} (h : s.contents = .memory m)
    (action : Action) : action.run s = (.ok (action.onMemory m s.now).1,
      { s with contents := .memory (action.onMemory m s.now).2 }) := by
  obtain ⟨contents, now, patience, events⟩ := s
  obtain rfl : contents = .memory m := h
  cases action with
  | deleteMany keys =>
      simp [run, answering, Base.store, Base.through, Store.memory,
        Store.deleteEach_deleteInMemory, Scene.withContents, onMemory, Except.map]
  | purge => simp [run, purged, Base.purge, Base.purgeEvents, Scene.logAll, onMemory]
  | get key => rfl
  | getMany keys => rfl
  | set key ttl bytes => rfl
  | add key ttl bytes => rfl
  | delete key => rfl
  | clear => rfl
  | size => rfl
  | isEmpty => rfl

theorem run_get {s : Scene Base} {m : MemoryStore} (h : s.contents = .memory m) (key : Key) :
    (get key).run s = (.ok (.bytes (m.lookup s.now key)), s) := by
  rw [run_memory h, onMemory, ← h]

theorem run_getMany {s : Scene Base} {m : MemoryStore} (h : s.contents = .memory m)
    (keys : List Key) : (getMany keys).run s = (.ok (.table (m.lookupMany s.now keys)), s) := by
  rw [run_memory h, onMemory, ← h]

end Action

end Rig

end CacheAside

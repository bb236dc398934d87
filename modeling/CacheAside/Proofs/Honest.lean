import CacheAside.Proofs.Trace
import CacheAside.Rig.Base

/-!
# Honest stores

A store is honest about entries if it answers with good ones as long as it is given no others. The
three stores are, and layers that take time or give up keep them so: whatever becomes of a call, the
readable entries are good ones.
-/

namespace CacheAside

/-- A call that writes. -/
def StoreCall.isWrite : StoreCall → Bool
  | .set .. | .add .. => true
  | .get _ | .getMany _ | .delete _ => false

namespace Store

variable {σ υ α : Type} {store : Store σ} {good : Key → Bytes → Prop} {J : σ → Int64 → Prop}
  {call : Call σ α} {answers : α → Prop}

/-- A call that keeps an invariant of contents and clock, and answers as stated if it does. -/
def Safe (J : σ → Int64 → Prop) (call : Call σ α) (answers : α → Prop) : Prop :=
  ∀ s, J s.contents s.now → J (call s).2.contents (call s).2.now ∧
    ∀ a, (call s).1 = .ok a → answers a

/-- A store that has good entries only, if it is given good ones only. -/
structure Honest (store : Store σ) (good : Key → Bytes → Prop) (J : σ → Int64 → Prop) : Prop where
  get (key : Key) : Safe J (store.get key) fun found => ∀ bytes, found = some bytes → good key bytes
  getMany (keys : List Key) : Safe J (store.getMany keys) fun t =>
    ∀ key ∈ keys, ∀ bytes, t.find? key = some bytes → good key bytes
  set (key : Key) (ttl : UInt32) (bytes : Bytes) :
    good key bytes → Safe J (store.set key ttl bytes) fun _ => True
  add (key : Key) (ttl : UInt32) (bytes : Bytes) :
    good key bytes → Safe J (store.add key ttl bytes) fun _ => True
  delete (key : Key) : Safe J (store.delete key) fun _ => True

/-- Calls that write nothing leave nothing but good entries. -/
theorem Trace.safe {calls : List StoreCall} {s t : Scene σ} (h : store.Trace calls s t)
    (hstore : store.Honest good J) (hcalls : ∀ call ∈ calls, call.isWrite = false)
    (hs : J s.contents s.now) : J t.contents t.now := by
  induction h with
  | refl => exact hs
  | log _ _ ih => exact ih hcalls hs
  | get key _ ih =>
      exact (hstore.get key _ (ih (fun call hc => hcalls call (List.mem_append_left _ hc)) hs)).1
  | getMany keys _ ih =>
      exact (hstore.getMany keys _
        (ih (fun call hc => hcalls call (List.mem_append_left _ hc)) hs)).1
  | set key ttl bytes => simpa [StoreCall.isWrite] using hcalls (.set key ttl) (by simp)
  | add key ttl bytes => simpa [StoreCall.isWrite] using hcalls (.add key ttl) (by simp)
  | delete key _ ih =>
      exact (hstore.delete key _ (ih (fun call hc => hcalls call (List.mem_append_left _ hc)) hs)).1

/-! ## Layers -/

theorem Safe.delayed (h : Safe J call answers) (delay : Option Nat) :
    Safe J (delayed delay call) answers := by
  intro s hs
  unfold Store.delayed
  split
  · exact ⟨hs, fun a ha => by cases ha⟩
  · exact h s hs
  · split
    · exact h _ hs
    · exact ⟨hs, fun a ha => by cases ha⟩

theorem Safe.within (h : Safe J call answers) (limit : Nat) (operation : String) :
    Safe J (within limit operation call) answers := by
  intro s hs
  have hcall : ∀ patience,
      J (call { s with patience }).2.contents (call { s with patience }).2.now ∧
        ∀ a, (call { s with patience }).1 = .ok a → answers a := fun patience => h _ hs
  rcases hpatience : s.patience with _ | p
  all_goals
    simp only [Store.within, hpatience]
    split
    · split
      · exact ⟨(hcall _).1, fun a ha => by cases ha⟩
      · exact ⟨(hcall _).1, fun a ha => by cases ha⟩
    · exact ⟨(hcall _).1, fun a ha => (hcall _).2 a ha⟩

theorem safe_getEach {get : Key → Call σ (Option Bytes)}
    (h : ∀ key, Safe J (get key) fun found => ∀ bytes, found = some bytes → good key bytes) :
    ∀ (keys : List Key) (found : Table Bytes),
    (∀ key bytes, found.find? key = some bytes → good key bytes) →
    Safe J (getEach get keys found) fun t => ∀ key bytes, t.find? key = some bytes → good key bytes
  | [], found, hfound, s, hs => ⟨hs, fun t ht => by cases ht; exact hfound⟩
  | key :: keys, found, hfound, s, hs => by
      obtain ⟨hs', hanswer⟩ := h key s hs
      rcases hget : get key s with ⟨answer, s'⟩
      rw [hget] at hs' hanswer
      simp only [getEach, hget]
      match answer with
      | .error e => exact ⟨hs', fun t ht => by cases ht⟩
      | .ok none => exact safe_getEach h keys found hfound s' hs'
      | .ok (some bytes) =>
          refine safe_getEach h keys (found.insert key bytes) (fun j bs hj => ?_) s' hs'
          rw [Table.find?_insert] at hj
          split at hj
          · rename_i hkey
            cases hj
            exact hkey ▸ hanswer _ rfl bytes rfl
          · exact hfound j bs hj

theorem Honest.slow (h : store.Honest good J) (latency : Latency) :
    (store.slow latency).Honest good J where
  get key := (h.get key).delayed latency.get
  getMany keys := fun s hs => by
    obtain ⟨hs', hanswer⟩ := safe_getEach (fun key => (h.get key).delayed latency.get) keys .empty
      (fun key bytes hfind => by simp at hfind) s hs
    exact ⟨hs', fun t ht key _ => hanswer t ht key⟩
  set key ttl bytes hgood := (h.set key ttl bytes hgood).delayed latency.set
  add key ttl bytes hgood := (h.add key ttl bytes hgood).delayed latency.add
  delete key := (h.delete key).delayed latency.delete

theorem Honest.bounded (h : store.Honest good J) (limit : Nat) :
    (store.bounded limit).Honest good J where
  get key := (h.get key).within limit "get"
  getMany keys := (h.getMany keys).within limit "get_bulk"
  set key ttl bytes hgood := (h.set key ttl bytes hgood).within limit "set"
  add key ttl bytes hgood := (h.add key ttl bytes hgood).within limit "add"
  delete key := (h.delete key).within limit "delete"

end Store

theorem isLive_of_le {expiry : Option Int64} {now later : Int64} (hle : now ≤ later)
    (h : isLive expiry later = true) : isLive expiry now = true := by
  cases expiry with
  | none => rfl
  | some t =>
      have hlt : later < t := by simpa [isLive] using h
      simpa [isLive] using Int64.lt_of_le_of_lt hle hlt

/-! ## Entries in memory -/

namespace MemoryStore

variable {good : Key → Bytes → Prop} {m : MemoryStore} {now : Int64}

/-- The readable entries are good. -/
def Consistent (good : Key → Bytes → Prop) (m : MemoryStore) (now : Int64) : Prop :=
  ∀ key bytes, m.lookup now key = some bytes → good key bytes

theorem lookup_eq_some {key : Key} {bytes : Bytes} : m.lookup now key = some bytes ↔
    ∃ v, m.table.find? key = some v ∧ v.isLive now = true ∧ v.bytes = bytes := by
  unfold lookup
  cases m.table.find? key with
  | none => simp
  | some v => simp

theorem Consistent.put {key : Key} {bytes : Bytes} (h : m.Consistent good now)
    (hgood : good key bytes) (ttl : UInt32) : (m.put now key ttl bytes).Consistent good now := by
  intro j bs hj
  obtain ⟨v, hfind, hlive, rfl⟩ := lookup_eq_some.mp hj
  rw [MemoryStore.put, Table.find?_insert] at hfind
  split at hfind
  · rename_i hkey
    cases hfind
    exact hkey ▸ hgood
  · exact h j _ (lookup_eq_some.mpr ⟨v, hfind, hlive, rfl⟩)

theorem Consistent.erase (h : m.Consistent good now) (key : Key) :
    (⟨m.table.erase key⟩ : MemoryStore).Consistent good now := by
  intro j bs hj
  obtain ⟨v, hfind, hlive, rfl⟩ := lookup_eq_some.mp hj
  rw [Table.find?_erase] at hfind
  split at hfind
  · cases hfind
  · exact h j _ (lookup_eq_some.mpr ⟨v, hfind, hlive, rfl⟩)

theorem Consistent.purge (h : m.Consistent good now) : (m.purge now).2.Consistent good now := by
  intro j bs hj
  obtain ⟨v, hfind, hlive, rfl⟩ := lookup_eq_some.mp hj
  have hfind : (m.table.filter fun _ v => v.isLive now).find? j = some v := hfind
  rw [Table.find?_filter] at hfind
  exact h j _ (lookup_eq_some.mpr ⟨v, (Option.filter_eq_some_iff.mp hfind).1, hlive, rfl⟩)

/-- Entries expire, but none comes back. -/
theorem Consistent.later (h : m.Consistent good now) {later : Int64} (hle : now ≤ later) :
    m.Consistent good later := by
  intro j bs hj
  obtain ⟨v, hfind, hlive, rfl⟩ := lookup_eq_some.mp hj
  exact h j _ (lookup_eq_some.mpr ⟨v, hfind, isLive_of_le hle hlive, rfl⟩)

end MemoryStore

namespace Store

variable {good : Key → Bytes → Prop}

theorem honest_memory : memory.Honest good (MemoryStore.Consistent good) where
  get key s hs :=
    ⟨hs, fun found hfound bytes hbytes => hs key bytes (by cases hfound; exact hbytes)⟩
  getMany keys s hs := by
    refine ⟨hs, fun t ht key hkey bytes hbytes => hs key bytes ?_⟩
    cases ht
    rw [MemoryStore.lookupMany, Table.find?_ofKeys, if_pos hkey] at hbytes
    exact hbytes
  set key ttl bytes hgood s hs := ⟨hs.put hgood ttl, fun _ _ => trivial⟩
  add key ttl bytes hgood s hs := by
    refine ⟨?_, fun _ _ => trivial⟩
    simp only [memory, MemoryStore.add]
    split
    · exact hs
    · exact hs.put hgood ttl
  delete key s hs := ⟨hs.erase key, fun _ _ => trivial⟩

/-! ## Entries with a record -/

theorem Safe.recorded {α : Type} {J : MemoryStore → Int64 → Prop} {onMemory : Call MemoryStore α}
    {answers : α → Prop} (h : Safe J onMemory answers) (call : StoreCall) (operation : String)
    (fails : FailurePlan → Bool) :
    Safe (fun r now => J r.memory now) (Store.recorded call operation fails onMemory) answers := by
  intro s hs
  have hcall := h (s.withContents s.contents.memory) hs
  simp only [Store.recorded]
  split
  · exact ⟨hs, fun a ha => by cases ha⟩
  · exact hcall

theorem honest_recording :
    recording.Honest good (fun r now => r.memory.Consistent good now) where
  get key := (honest_memory.get key).recorded (.get key) "get" (·.reads)
  getMany keys := (honest_memory.getMany keys).recorded (.getMany keys) "get_bulk" (·.reads)
  set key ttl bytes hgood :=
    (honest_memory.set key ttl bytes hgood).recorded (.set key ttl) "set" (·.writes)
  add key ttl bytes hgood :=
    (honest_memory.add key ttl bytes hgood).recorded (.add key ttl) "add" (·.writes)
  delete key :=
    (honest_memory.delete key).recorded (.delete key) "delete" (·.deletes.contains key)

end Store

/-! ## Entries on disk -/

namespace DiskStore

variable {good : Key → Bytes → Prop} {d d' : DiskStore} {now : Int64}

/-- The readable entries are good. -/
def Consistent (good : Key → Bytes → Prop) (d : DiskStore) (now : Int64) : Prop :=
  ∀ key bytes, d.lookup now key = some bytes → good key bytes

theorem eq_drop_of_payload? {raw payload : Bytes} (h : payload? now raw = some payload) :
    payload = raw.drop Layout.headerLength := by
  unfold payload? Layout.decode? at h
  by_cases hshort : raw.length < Layout.headerLength
  · simp [hshort] at h
  · simp only [hshort, ↓reduceIte] at h
    exact (Option.some.inj (Option.ite_none_right_eq_some.mp h).2).symm

theorem payload?_encode {expiry : Option Int64} {payload bytes : Bytes}
    (h : payload? now (Layout.encode expiry payload) = some bytes) : bytes = payload := by
  rw [eq_drop_of_payload? h, Layout.drop_encode]

theorem lookup_eq_some {key : Key} {bytes : Bytes} : d.lookup now key = some bytes ↔
    ∃ raw, d.table.find? key = some raw ∧ payload? now raw = some bytes :=
  Option.bind_eq_some_iff

theorem table_of_commit {table : Table Bytes} {file : Option Pages.File}
    (h : commit table file = .ok d') : d'.table = table := by
  unfold commit at h
  split at h
  · cases h
    rfl
  · cases h

theorem table_of_put {key : Key} {ttl : UInt32} {bytes : Bytes}
    (h : d.put now key ttl bytes = .ok d') :
    d'.table = d.table.insert key (Layout.encode (expiresAt ttl now) bytes) := by
  unfold DiskStore.put putRaw at h
  split at h
  · cases h
  · exact table_of_commit h

theorem Consistent.put {key : Key} {ttl : UInt32} {bytes : Bytes} (h : d.Consistent good now)
    (hgood : good key bytes) (hput : d.put now key ttl bytes = .ok d') :
    d'.Consistent good now := by
  intro j bs hj
  obtain ⟨raw, hfind, hpayload⟩ := lookup_eq_some.mp hj
  rw [table_of_put hput, Table.find?_insert] at hfind
  split at hfind
  · rename_i hkey
    cases hfind
    rw [payload?_encode hpayload]
    exact hkey ▸ hgood
  · exact h j bs (lookup_eq_some.mpr ⟨raw, hfind, hpayload⟩)

theorem Consistent.erase {key : Key} (h : d.Consistent good now)
    (htable : d'.table = d.table.erase key) : d'.Consistent good now := by
  intro j bs hj
  obtain ⟨raw, hfind, hpayload⟩ := lookup_eq_some.mp hj
  rw [htable, Table.find?_erase] at hfind
  split at hfind
  · cases hfind
  · exact h j bs (lookup_eq_some.mpr ⟨raw, hfind, hpayload⟩)

theorem Consistent.purge {count : Nat} (h : d.Consistent good now)
    (hpurge : d.purge now = .ok (count, d')) : d'.Consistent good now := by
  have htable : d'.table = d.table.filter fun _ raw => (payload? now raw).isSome := by
    unfold DiskStore.purge at hpurge
    simp only at hpurge
    split at hpurge
    · cases hpurge
      exact table_of_commit ‹_›
    · cases hpurge
  intro j bs hj
  obtain ⟨raw, hfind, hpayload⟩ := lookup_eq_some.mp hj
  rw [htable, Table.find?_filter] at hfind
  exact h j bs (lookup_eq_some.mpr ⟨raw, (Option.filter_eq_some_iff.mp hfind).1, hpayload⟩)

theorem payload?_of_le {raw bytes : Bytes} {later : Int64} (hle : now ≤ later)
    (h : payload? later raw = some bytes) : payload? now raw = some bytes := by
  unfold payload? at h ⊢
  split at h
  · rename_i expiry payload hdecode
    split at h
    · rename_i hlive
      simpa [hdecode, isLive_of_le hle hlive] using h
    · cases h
  · cases h

theorem Consistent.later (h : d.Consistent good now) {later : Int64} (hle : now ≤ later) :
    d.Consistent good later := by
  intro j bs hj
  obtain ⟨raw, hfind, hpayload⟩ := lookup_eq_some.mp hj
  exact h j bs (lookup_eq_some.mpr ⟨raw, hfind, payload?_of_le hle hpayload⟩)

end DiskStore

namespace Store

variable {α : Type} {good : Key → Bytes → Prop}

theorem safe_attempt {J : DiskStore → Int64 → Prop}
    {change : DiskStore → Int64 → Except DiskError (α × DiskStore)}
    (h : ∀ d now a d', J d now → change d now = .ok (a, d') → J d' now) :
    Safe J (attempt change) fun _ => True := by
  intro s hs
  unfold attempt
  cases hchange : change s.contents s.now with
  | ok answer => exact ⟨h s.contents s.now answer.1 answer.2 hs hchange, fun _ _ => trivial⟩
  | error e => exact ⟨hs, fun _ _ => trivial⟩

theorem honest_disk : disk.Honest good (DiskStore.Consistent good) where
  get key s hs :=
    ⟨hs, fun found hfound bytes hbytes => hs key bytes (by cases hfound; exact hbytes)⟩
  getMany keys s hs := by
    refine ⟨hs, fun t ht key hkey bytes hbytes => hs key bytes ?_⟩
    cases ht
    rw [DiskStore.lookupMany, Table.find?_ofKeys, if_pos hkey] at hbytes
    exact hbytes
  set key ttl bytes hgood := safe_attempt fun d now a d' hd hchange => by
    cases hput : d.put now key ttl bytes with
    | ok d'' =>
        rw [hput] at hchange
        cases hchange
        exact hd.put hgood hput
    | error e =>
        rw [hput] at hchange
        cases hchange
  add key ttl bytes hgood := safe_attempt fun d now a d' hd hchange => by
    unfold DiskStore.add at hchange
    split at hchange
    · cases hchange
      exact hd
    · split at hchange
      · rename_i hput
        cases hchange
        exact hd.put hgood hput
      · cases hchange
  delete key := safe_attempt fun d now a d' hd hchange => by
    unfold DiskStore.delete at hchange
    split at hchange
    · rename_i hcommit
      cases hchange
      exact hd.erase (DiskStore.table_of_commit hcommit)
    · cases hchange

end Store

/-! ## Any of the three -/

namespace Rig

namespace Base

variable {α : Type} {good : Key → Bytes → Prop} {b b' : Base} {now : Int64}

/-- The readable entries are good. -/
def Consistent (good : Key → Bytes → Prop) (b : Base) (now : Int64) : Prop :=
  match b with
  | memory m => m.Consistent good now
  | recording r => r.memory.Consistent good now
  | disk d => d.Consistent good now

theorem Consistent.later (h : b.Consistent good now) {later : Int64} (hle : now ≤ later) :
    b.Consistent good later := by
  cases b with
  | memory m => exact MemoryStore.Consistent.later h hle
  | recording r => exact MemoryStore.Consistent.later h hle
  | disk d => exact DiskStore.Consistent.later h hle

theorem Consistent.purge {count : Nat} (h : b.Consistent good now)
    (hpurge : b.purge now = .ok (count, b')) : b'.Consistent good now := by
  cases b with
  | memory m => cases hpurge; exact MemoryStore.Consistent.purge h
  | recording r => cases hpurge; exact MemoryStore.Consistent.purge (m := r.memory) h
  | disk d =>
      unfold Base.purge at hpurge
      cases hd : d.purge now with
      | ok answer =>
          simp only [hd] at hpurge
          cases hpurge
          exact DiskStore.Consistent.purge h hd
      | error e =>
          simp only [hd] at hpurge
          cases hpurge

theorem safe_through {J : Base → Int64 → Prop} (call : {σ : Type} → Store σ → Call σ α)
    {answers : α → Prop}
    (hmemory : Store.Safe (fun m => J (.memory m)) (call Store.memory) answers)
    (hrecording : Store.Safe (fun r => J (.recording r)) (call Store.recording) answers)
    (hdisk : Store.Safe (fun d => J (.disk d)) (call Store.disk) answers) :
    Store.Safe J (through call) answers := by
  intro s hs
  obtain ⟨contents, now, patience, events⟩ := s
  cases contents with
  | memory m => exact hmemory ⟨m, now, patience, events⟩ hs
  | recording r => exact hrecording ⟨r, now, patience, events⟩ hs
  | disk d => exact hdisk ⟨d, now, patience, events⟩ hs

theorem honest_store : store.Honest good (Consistent good) where
  get key := safe_through (·.get key) (Store.honest_memory.get key)
    (Store.honest_recording.get key) (Store.honest_disk.get key)
  getMany keys := safe_through (·.getMany keys) (Store.honest_memory.getMany keys)
    (Store.honest_recording.getMany keys) (Store.honest_disk.getMany keys)
  set key ttl bytes hgood := safe_through (·.set key ttl bytes)
    (Store.honest_memory.set key ttl bytes hgood) (Store.honest_recording.set key ttl bytes hgood)
    (Store.honest_disk.set key ttl bytes hgood)
  add key ttl bytes hgood := safe_through (·.add key ttl bytes)
    (Store.honest_memory.add key ttl bytes hgood) (Store.honest_recording.add key ttl bytes hgood)
    (Store.honest_disk.add key ttl bytes hgood)
  delete key := safe_through (·.delete key) (Store.honest_memory.delete key)
    (Store.honest_recording.delete key) (Store.honest_disk.delete key)

end Base

/-- What the store has and every layer keeps, it has behind its layers. -/
theorem Layers.outer_of (l : Layers) {P : Store Base → Prop} (hstore : P Base.store)
    (hslow : ∀ store latency, P store → P (store.slow latency))
    (haugmented : ∀ store key bytes, P store → P (store.augmented key bytes))
    (hbounded : ∀ store limit, P store → P (store.bounded limit)) : P l.outer := by
  have hslowed : P (Layers.inner { latency := l.latency }) := by
    unfold Layers.inner
    cases l.latency with
    | none => exact hstore
    | some latency => exact hslow _ latency hstore
  have hinner : P l.inner := by
    unfold Layers.inner
    cases l.extra with
    | none => exact hslowed
    | some entry => exact haugmented _ entry.1 entry.2 hslowed
  unfold Layers.outer
  cases l.deadline with
  | none => exact hinner
  | some limit => exact hbounded _ limit hinner

/-- Layers that add no entry keep a store honest. -/
theorem Layers.honest_outer {good : Key → Bytes → Prop} (l : Layers) (h : l.extra = none) :
    l.outer.Honest good (Base.Consistent good) := by
  have hinner : l.inner.Honest good (Base.Consistent good) := by
    unfold Layers.inner
    rw [h]
    cases l.latency with
    | none => exact Base.honest_store
    | some latency => exact Base.honest_store.slow latency
  unfold Layers.outer
  cases l.deadline with
  | none => exact hinner
  | some limit => exact hinner.bounded limit

end Rig

end CacheAside

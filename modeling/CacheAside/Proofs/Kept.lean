import CacheAside.Proofs.Answered
import CacheAside.Proofs.DiskAsMemory
import CacheAside.Proofs.ReadsTogether

/-!
# What is kept

A store that does not fail keeps what a call writes, and a write to one key leaves the others as
they are. A read that is shown an entry for each of its keys ends with these entries and does
without its data source.
-/

namespace CacheAside

open Rig

/-! ## One write -/

/-- What is written now is readable now, as long as the clock is not at its end. -/
theorem isLive_expiresAt_self {ttl : UInt32} {now : Int64} (hnow : now < Int64.maxValue) :
    isLive (expiresAt ttl now) now = true := by
  refine isLive_expiresAt.mpr ?_
  by_cases httl : ttl = 0
  · exact .inl httl
  · have hpos : 0 < ttl.toNat := UInt32.lt_iff_toNat_lt.mp (UInt32.pos_iff_ne_zero.mpr httl)
    have hlt : now.toInt < 0x7FFFFFFFFFFFFFFF := Int64.lt_iff_toInt_lt.mp hnow
    omega

namespace PendingWrite

variable {p : PendingWrite} {ttl : UInt32} {now : Int64}

/-- A write, made to entries in memory. -/
def toMemory (p : PendingWrite) (ttl : UInt32) (now : Int64) (m : MemoryStore) : MemoryStore :=
  match p.mode with
  | .overwrite => m.put now p.key ttl p.bytes
  | .ifAbsent => (m.add now p.key ttl p.bytes).2

/-- A write, made to entries on disk. -/
def toDisk (p : PendingWrite) (ttl : UInt32) (now : Int64) (d : DiskStore) :
    Except DiskError DiskStore :=
  match p.mode with
  | .overwrite => d.put now p.key ttl p.bytes
  | .ifAbsent => (d.add now p.key ttl p.bytes).map (·.2)

/-- The bytes under the key of a write when it has been made, given those before. -/
def leaves (p : PendingWrite) (old : Option Bytes) : Option Bytes :=
  match p.mode with
  | .overwrite => some p.bytes
  | .ifAbsent => old.or (some p.bytes)

theorem lookup_toMemory (ttl : UInt32) (hnow : now < Int64.maxValue) (m : MemoryStore) :
    (p.toMemory ttl now m).lookup now p.key = p.leaves (m.lookup now p.key) := by
  have hput : (m.put now p.key ttl p.bytes).lookup now p.key = some p.bytes := by
    rw [MemoryStore.lookup_put, if_pos rfl, if_pos (isLive_expiresAt_self hnow)]
  unfold toMemory leaves
  cases p.mode with
  | overwrite => exact hput
  | ifAbsent =>
      unfold MemoryStore.add
      cases hold : m.lookup now p.key with
      | some bytes => simpa using hold
      | none => simpa using hput

theorem inMemory_toDisk {d d' : DiskStore} (hnow : 0 ≤ now) (h : p.toDisk ttl now d = .ok d') :
    d'.inMemory = p.toMemory ttl now d.inMemory := by
  unfold toDisk at h
  unfold toMemory
  cases hmode : p.mode with
  | overwrite =>
      rw [hmode] at h
      exact DiskStore.inMemory_put hnow (DiskStore.table_of_put h)
  | ifAbsent =>
      rw [hmode] at h
      simp only [MemoryStore.add, DiskStore.lookup_inMemory]
      unfold DiskStore.add at h
      cases hold : d.lookup now p.key with
      | some bytes =>
          obtain rfl : d = d' := by simpa [hold, Except.map] using h
          rfl
      | none =>
          -- Nothing readable is there, so that the write is made as any other.
          cases hput : d.put now p.key ttl p.bytes with
          | error e => simp [hold, hput, Except.map] at h
          | ok d'' =>
              obtain rfl : d'' = d' := by simpa [hold, hput, Except.map] using h
              exact DiskStore.inMemory_put hnow (DiskStore.table_of_put hput)

/-! The store call of a write, on each of the three stores. -/

variable {patience : Option Nat} {events : List Event}

theorem call_memory (m : MemoryStore) : p.call ttl ⟨.memory m, now, patience, events⟩ =
    (.ok (), ⟨.memory (p.toMemory ttl now m), now, patience, events⟩) := by
  unfold call toMemory
  cases p.mode <;> rfl

theorem call_recording {r : RecordingStore} (h : r.failures.writes = false) : ∃ calls,
    p.call ttl ⟨.recording r, now, patience, events⟩ = (.ok (),
      ⟨.recording ⟨p.toMemory ttl now r.memory, calls, r.failures⟩, now, patience, events⟩) := by
  obtain ⟨memory, calls, reads, writes, deletes⟩ := r
  obtain rfl : writes = false := h
  unfold call toMemory
  cases p.mode <;> exact ⟨_, rfl⟩

theorem call_disk {d d' : DiskStore} (h : p.toDisk ttl now d = .ok d') :
    p.call ttl ⟨.disk d, now, patience, events⟩ = (.ok (), ⟨.disk d', now, patience, events⟩) := by
  unfold toDisk at h
  unfold call
  cases hmode : p.mode with
  | overwrite =>
      rw [hmode] at h
      simp [Base.store, Base.through, Store.disk, Store.attempt, Scene.withContents, h, Except.map]
  | ifAbsent =>
      rw [hmode] at h
      cases hadd : d.add now p.key ttl p.bytes with
      | error e => simp [hadd, Except.map] at h
      | ok added =>
          obtain rfl : added.2 = d' := by simpa [hadd, Except.map] using h
          simp [Base.store, Base.through, Store.disk, Store.attempt, Scene.withContents, hadd,
            Except.map]

end PendingWrite

/-! ## Stores that do not fail -/

/-- Writes in turn, each of which the file has room for. -/
def DiskStore.Takes (ttl : UInt32) (now : Int64) : List PendingWrite → DiskStore → Prop
  | [], _ => True
  | p :: writes, d => ∃ d', p.toDisk ttl now d = .ok d' ∧ Takes ttl now writes d'

/-- No read and none of some writes is to fail. In memory none ever does. -/
def Rig.Base.Works (ttl : UInt32) (now : Int64) (writes : List PendingWrite) : Base → Prop
  | memory _ => True
  | recording r => r.failures.reads = false ∧ r.failures.writes = false
  | disk d => d.Takes ttl now writes

section
variable {ttl : UInt32} {p : PendingWrite} {writes : List PendingWrite} {s : Scene Base}

theorem Rig.Base.Works.readable {b : Base} {now : Int64} (h : b.Works ttl now writes) :
    b.failsReads = false := by
  cases b with
  | memory m => rfl
  | recording r => exact h.1
  | disk d => rfl

/-- Some writes can be made and then read: the store works, and the clock is neither before its
start nor at its end. -/
structure Scene.Ready (ttl : UInt32) (writes : List PendingWrite) (s : Scene Base) : Prop where
  start : 0 ≤ s.now
  finish : s.now < Int64.maxValue
  works : s.contents.Works ttl s.now writes

theorem Scene.Ready.logAll (h : s.Ready ttl writes) (es : List Event) :
    (s.logAll es).Ready ttl writes := ⟨h.start, h.finish, h.works⟩

/-- A write that is made shows under its key, and those after it can still be made. -/
theorem Scene.Ready.call (h : s.Ready ttl (p :: writes)) : (p.call ttl s).2.Ready ttl writes ∧
    (p.call ttl s).2.view p.key = ⟨false, p.leaves (s.view p.key).bytes⟩ := by
  obtain ⟨contents, now, patience, events⟩ := s
  obtain ⟨hstart, hfinish, hworks⟩ := h
  cases contents with
  | memory m =>
      rw [PendingWrite.call_memory]
      exact ⟨⟨hstart, hfinish, trivial⟩,
        congrArg (View.mk false) (PendingWrite.lookup_toMemory ttl hfinish m)⟩
  | recording r =>
      obtain ⟨calls, hcall⟩ := PendingWrite.call_recording (p := p) hworks.2
      rw [hcall]
      exact ⟨⟨hstart, hfinish, hworks⟩, (View.mk.injEq ..).mpr
        ⟨hworks.1, PendingWrite.lookup_toMemory ttl hfinish r.memory⟩⟩
  | disk d =>
      obtain ⟨d', hdisk, htakes⟩ := hworks
      have hlookup := PendingWrite.lookup_toMemory (p := p) ttl hfinish d.inMemory
      rw [← PendingWrite.inMemory_toDisk hstart hdisk, DiskStore.lookup_inMemory,
        DiskStore.lookup_inMemory] at hlookup
      rw [PendingWrite.call_disk hdisk]
      exact ⟨⟨hstart, hfinish, htakes⟩, congrArg (View.mk false) hlookup⟩

end

/-! ## The writes of a call -/

/-- What is made of things with different keys, at most one write for each, goes to different
keys. -/
theorem nodup_keys_filterMap {α : Type} {mark : α → Key} {f : α → Option PendingWrite}
    (hf : ∀ a p, f a = some p → p.key = mark a) {l : List α} (h : (l.map mark).Nodup) :
    ((l.filterMap f).map (·.key)).Nodup := by
  refine h.sublist ?_
  clear h
  induction l with
  | nil => exact .slnil
  | cons a l ih =>
      rw [List.filterMap_cons, List.map_cons]
      cases hwrite : f a with
      | none => exact ih.cons _
      | some p =>
          rw [List.map_cons, hf a p hwrite]
          exact ih.cons_cons _

namespace Cache

variable {υ ε : Type} {κ τ : Kind} {c : Cache Base} {o : Options} {ttl : UInt32}
  {writes : List PendingWrite} {w : World Base υ}

/-- Writes to different keys show when they have all been made. -/
theorem view_runJob_of_mem (hready : w.scene.Ready ttl writes)
    (hnodup : (writes.map (·.key)).Nodup) {p : PendingWrite} (hp : p ∈ writes) :
    (runJob Base.store w ⟨writes, ttl⟩).scene.view p.key =
      ⟨false, p.leaves (w.scene.view p.key).bytes⟩ := by
  induction writes generalizing w with
  | nil => cases hp
  | cons q writes ih =>
      obtain ⟨es, hscene⟩ := scene_applyWrite ttl q w
      obtain ⟨hready', hview⟩ := hready.call
      obtain ⟨hfresh, hnodup'⟩ := List.nodup_cons.mp hnodup
      rw [runJob_cons]
      -- A write shows once it is made; those before and after it go to other keys.
      rcases List.mem_cons.mp hp with rfl | hp
      · rw [view_runJob fun r hr hkey => hfresh (List.mem_map.mpr ⟨r, hr, hkey⟩), hscene]
        exact hview
      · have hne : q.key ≠ p.key := fun hkey => hfresh (List.mem_map.mpr ⟨p, hp, hkey.symm⟩)
        rw [ih (hscene ▸ hready'.logAll es) hnodup' hp, view_applyWrite hne]

/-! ## Reads that are shown entries -/

/-- The entry that is shown to a read. -/
def shown (c : Cache Base) (τ : Kind) (view : View) : Option (Entry τ) :=
  if view.fails then none else view.bytes.bind (c.entryIn? τ)

theorem recalled_eq_shown (hstore : c.store = Base.store) (hbypass : o.bypass = false)
    {keys : List Key} {key : Key} {s : Scene Base} (hkey : key ∈ keys) :
    c.recalled o τ keys s key = c.shown τ (s.view key) := by
  rw [recalled, bulkAnswer_find? hstore hkey, shown, hbypass, Bool.false_or]
  cases (s.view key).fails <;> rfl

theorem recalledOne_eq_shown (hstore : c.store = Base.store) (hbypass : o.bypass = false)
    {key : Key} {s : Scene Base} : c.recalledOne o τ key s = c.shown τ (s.view key) := by
  rw [recalledOne, hbypass, hstore, Base.fst_get, shown, Scene.view]
  cases s.contents.failsReads <;> rfl

/-- What a batch read asks of the store: nothing, if it is about no key. -/
def bulkReads (keys : List Key) : List StoreCall := if keys = [] then [] else [.getMany keys]

theorem bulkReads_map {xs : List κ} {keyOf : κ → Key} (hne : xs ≠ []) :
    bulkReads (xs.map keyOf).eraseDups = [.getMany (xs.map keyOf).eraseDups] := by
  obtain ⟨x, hx⟩ := List.exists_mem_of_ne_nil xs hne
  exact if_neg (List.ne_nil_of_mem (List.mem_eraseDups.mpr (List.mem_map_of_mem hx)))

/-- A batch read that is shown an entry for each key gives these entries, whatever its source would
say. -/
theorem readMany_of_shown (hstore : c.store = Base.store) (henabled : c.config.disabled = false)
    (hbypass : o.bypass = false) {xs : List κ} {keyOf : κ → Key}
    (hkeys : Batch.Assigns c.keys o.keyspace xs keyOf)
    (hkind : o.keysFromResults = true → c.registry.isRegistered τ = true)
    {entryOf : Key → Entry τ}
    (hshown : ∀ x ∈ xs, c.shown τ (w.scene.view (keyOf x)) = some (entryOf (keyOf x))) :
    let keys := (xs.map keyOf).eraseDups
    ∃ w', c.store.Leads (bulkReads keys) (Stats.addHits keys.length) w w' ∧
      ∀ source : List κ → Computation Base υ ε (List (Option τ)), c.readMany o xs source w =
        (.ok (present o.skipNulls (xs.map fun x => entryOf (keyOf x))), w') := by
  intro keys
  by_cases hnil : xs = []
  · subst hnil
    refine ⟨w, ?_, fun source => rfl⟩
    have hnone : Stats.addHits 0 = id := by
      funext s
      simp [Stats.addHits]
    simpa [keys, bulkReads, hnone] using Store.Leads.refl w
  · rw [bulkReads_map hnil]
    refine readMany_of_recalled hnil henabled hkeys hkind fun x hx => ?_
    rw [recalled_eq_shown hstore hbypass (List.mem_eraseDups.mpr (List.mem_map_of_mem hx)),
      hshown x hx]

/-- A read for one object that is shown an entry gives its value. -/
theorem read_of_shown (hstore : c.store = Base.store) (henabled : c.config.disabled = false)
    (hbypass : o.bypass = false) (hposition : o.keysFromResults = false) {x : κ} {key : Key}
    (hkey : c.keys.keyFor o.keyspace x = .ok key) {e : Entry τ}
    (hshown : c.shown τ (w.scene.view key) = some e) :
    ∃ w', c.store.Leads [.get key] (Stats.addHits 1) w w' ∧
      ∀ compute : Computation Base υ ε (Option τ), c.read o x compute w = (.ok e.toOption, w') :=
  read_of_recalledOne henabled hposition hkey (by rw [recalledOne_eq_shown hstore hbypass, hshown])

end Cache

end CacheAside

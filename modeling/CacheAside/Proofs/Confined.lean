import CacheAside.Proofs.Observed
import CacheAside.Proofs.Trouble

/-!
# What store calls leave alone

A store call changes nothing under other keys than its own, whatever becomes of it. So a step of a
call of the cache stays among its keys: it attempts nothing else on the store, and all other entries
are as they were.
-/

namespace CacheAside

namespace Store

variable {σ α β : Type} {store : Store σ} {kept : σ → Key → β} {j : Key} {call : Call σ α}

/-- Whatever becomes of a call, what is kept under a key stays. -/
def Leaves (kept : σ → Key → β) (j : Key) (call : Call σ α) : Prop :=
  ∀ e, Safe (fun contents _ => kept contents j = e) call fun _ => True

theorem Leaves.eq (h : Leaves kept j call) (s : Scene σ) :
    kept (call s).2.contents j = kept s.contents j := (h _ s rfl).1

/-- A store whose calls change nothing under other keys than their own. -/
structure Separates (store : Store σ) (kept : σ → Key → β) : Prop where
  get (key j : Key) : Leaves kept j (store.get key)
  getMany (keys : List Key) (j : Key) : Leaves kept j (store.getMany keys)
  set (key : Key) (ttl : UInt32) (bytes : Bytes) (j : Key) : key ≠ j →
    Leaves kept j (store.set key ttl bytes)
  add (key : Key) (ttl : UInt32) (bytes : Bytes) (j : Key) : key ≠ j →
    Leaves kept j (store.add key ttl bytes)
  delete (key j : Key) : key ≠ j → Leaves kept j (store.delete key)

/-! ## Layers -/

theorem leaves_getEach {get : Key → Call σ (Option Bytes)} (h : ∀ key, Leaves kept j (get key))
    (keys : List Key) : Leaves kept j (getEach get keys .empty) := by
  intro e s hs
  have hget : ∀ key, Safe (fun contents _ => kept contents j = e) (get key) fun found =>
      ∀ bytes, found = some bytes → True := fun key s hs =>
    ⟨(h key e s hs).1, fun _ _ _ _ => trivial⟩
  exact ⟨(safe_getEach hget keys .empty (fun _ _ _ => trivial) s hs).1, fun _ _ => trivial⟩

theorem Separates.slow (h : store.Separates kept) (latency : Latency) :
    (store.slow latency).Separates kept where
  get key j e := (h.get key j e).delayed latency.get
  getMany keys j := leaves_getEach (fun key e => (h.get key j e).delayed latency.get) keys
  set key ttl bytes j hne e := (h.set key ttl bytes j hne e).delayed latency.set
  add key ttl bytes j hne e := (h.add key ttl bytes j hne e).delayed latency.add
  delete key j hne e := (h.delete key j hne e).delayed latency.delete

theorem Separates.augmented (h : store.Separates kept) (key : Key) (bytes : Bytes) :
    (store.augmented key bytes).Separates kept where
  get := h.get
  getMany keys j e s hs := by
    have hcall := (h.getMany keys j e s hs).1
    rcases hget : store.getMany keys s with ⟨answer, s'⟩
    rw [hget] at hcall
    simp only [Store.augmented, hget]
    cases answer <;> exact ⟨hcall, fun _ _ => trivial⟩
  set := h.set
  add := h.add
  delete := h.delete

theorem Separates.bounded (h : store.Separates kept) (limit : Nat) :
    (store.bounded limit).Separates kept where
  get key j e := (h.get key j e).within limit "get"
  getMany keys j e := (h.getMany keys j e).within limit "get_bulk"
  set key ttl bytes j hne e := (h.set key ttl bytes j hne e).within limit "set"
  add key ttl bytes j hne e := (h.add key ttl bytes j hne e).within limit "add"
  delete key j hne e := (h.delete key j hne e).within limit "delete"

theorem Separates.troubled (h : store.Separates kept) (trouble : Trouble) :
    (store.troubled trouble).Separates fun t => kept t.contents where
  get key j e := (h.get key j e).meeting trouble
  getMany keys j e s hs := ⟨((h.getMany keys j e).meeting trouble s hs).1, fun _ _ => trivial⟩
  set key ttl bytes j hne e := (h.set key ttl bytes j hne e).meeting trouble
  add key ttl bytes j hne e := (h.add key ttl bytes j hne e).meeting trouble
  delete key j hne e := (h.delete key j hne e).meeting trouble

/-! ## The three stores -/

theorem separates_memory : memory.Separates fun m key => m.table.find? key where
  get _ _ _ _ hs := ⟨hs, fun _ _ => trivial⟩
  getMany _ _ _ _ hs := ⟨hs, fun _ _ => trivial⟩
  set key ttl bytes j hne e s hs :=
    ⟨by rw [← hs]; exact (Table.find?_insert ..).trans (if_neg hne), fun _ _ => trivial⟩
  add key ttl bytes j hne e s hs := by
    refine ⟨?_, fun _ _ => trivial⟩
    simp only [memory, MemoryStore.add]
    split
    · exact hs
    · rw [← hs]
      exact (Table.find?_insert ..).trans (if_neg hne)
  delete key j hne e s hs :=
    ⟨by rw [← hs]; exact (Table.find?_erase ..).trans (if_neg hne), fun _ _ => trivial⟩

theorem separates_recording : recording.Separates fun r key => r.memory.table.find? key where
  get key j e := (separates_memory.get key j e).recorded (.get key) "get" (·.reads)
  getMany keys j e :=
    (separates_memory.getMany keys j e).recorded (.getMany keys) "get_bulk" (·.reads)
  set key ttl bytes j hne e :=
    (separates_memory.set key ttl bytes j hne e).recorded (.set key ttl) "set" (·.writes)
  add key ttl bytes j hne e :=
    (separates_memory.add key ttl bytes j hne e).recorded (.add key ttl) "add" (·.writes)
  delete key j hne e :=
    (separates_memory.delete key j hne e).recorded (.delete key) "delete" (·.deletes.contains key)

end Store

theorem DiskStore.find?_put {d d' : DiskStore} {now : Int64} {key j : Key} {ttl : UInt32}
    {bytes : Bytes} (hne : key ≠ j) (h : d.put now key ttl bytes = .ok d') :
    d'.table.find? j = d.table.find? j := by
  rw [table_of_put h, Table.find?_insert, if_neg hne]

namespace Store

theorem separates_disk : disk.Separates fun d key => d.table.find? key where
  get _ _ _ _ hs := ⟨hs, fun _ _ => trivial⟩
  getMany _ _ _ _ hs := ⟨hs, fun _ _ => trivial⟩
  set key ttl bytes j hne e := safe_attempt (J := fun d _ => d.table.find? j = e)
    fun d now a d' hd hchange => by
    cases hput : d.put now key ttl bytes with
    | error _ => simp [hput, Except.map] at hchange
    | ok d'' =>
        obtain rfl : d'' = d' := by simpa [hput, Except.map] using hchange
        exact (DiskStore.find?_put hne hput).trans hd
  add key ttl bytes j hne e := safe_attempt (J := fun d _ => d.table.find? j = e)
    fun d now a d' hd hchange => by
    unfold DiskStore.add at hchange
    split at hchange
    · cases hchange
      exact hd
    · split at hchange
      · rename_i hput
        cases hchange
        exact (DiskStore.find?_put hne hput).trans hd
      · cases hchange
  delete key j hne e := safe_attempt (J := fun d _ => d.table.find? j = e)
    fun d now a d' hd hchange => by
    unfold DiskStore.delete at hchange
    split at hchange
    · rename_i hcommit
      cases hchange
      rw [DiskStore.table_of_commit hcommit, Table.find?_erase, if_neg hne, hd]
    · cases hchange

end Store

namespace Rig

namespace Base

variable {α : Type} {j : Key}

/-- What is kept under a key: a value in memory, or raw bytes on disk. -/
def kept (b : Base) (key : Key) : Option (StoredValue ⊕ Bytes) :=
  match b with
  | memory m => (m.table.find? key).map .inl
  | recording r => (r.memory.table.find? key).map .inl
  | disk d => (d.table.find? key).map .inr

theorem leaves_through (call : {σ : Type} → Store σ → Call σ α)
    (hmemory : Store.Leaves (fun m key => m.table.find? key) j (call Store.memory))
    (hrecording : Store.Leaves (fun r key => r.memory.table.find? key) j (call Store.recording))
    (hdisk : Store.Leaves (fun d key => d.table.find? key) j (call Store.disk)) :
    Store.Leaves kept j (through call) := by
  rintro e ⟨contents, now, patience, events⟩ rfl
  refine ⟨?_, fun _ _ => trivial⟩
  cases contents with
  | memory m => exact congrArg (Option.map Sum.inl) (hmemory.eq ⟨m, now, patience, events⟩)
  | recording r => exact congrArg (Option.map Sum.inl) (hrecording.eq ⟨r, now, patience, events⟩)
  | disk d => exact congrArg (Option.map Sum.inr) (hdisk.eq ⟨d, now, patience, events⟩)

theorem separates_store : store.Separates kept where
  get key j := leaves_through (·.get key) (Store.separates_memory.get key j)
    (Store.separates_recording.get key j) (Store.separates_disk.get key j)
  getMany keys j := leaves_through (·.getMany keys) (Store.separates_memory.getMany keys j)
    (Store.separates_recording.getMany keys j) (Store.separates_disk.getMany keys j)
  set key ttl bytes j hne := leaves_through (·.set key ttl bytes)
    (Store.separates_memory.set key ttl bytes j hne)
    (Store.separates_recording.set key ttl bytes j hne)
    (Store.separates_disk.set key ttl bytes j hne)
  add key ttl bytes j hne := leaves_through (·.add key ttl bytes)
    (Store.separates_memory.add key ttl bytes j hne)
    (Store.separates_recording.add key ttl bytes j hne)
    (Store.separates_disk.add key ttl bytes j hne)
  delete key j hne := leaves_through (·.delete key) (Store.separates_memory.delete key j hne)
    (Store.separates_recording.delete key j hne) (Store.separates_disk.delete key j hne)

end Base

theorem Layers.separates_outer (l : Layers) : l.outer.Separates Base.kept :=
  l.outer_of (P := (·.Separates Base.kept)) Base.separates_store
    (fun _ latency h => h.slow latency) (fun _ key bytes h => h.augmented key bytes)
    fun _ limit h => h.bounded limit

end Rig

/-! ## Steps of the cache -/

/-- The keys of a store call. -/
def StoreCall.keys : StoreCall → List Key
  | .get key | .set key _ | .add key _ | .delete key => [key]
  | .getMany keys => keys

/-- The keys of an attempted call. -/
def Attempt.keys : Attempt → List Key
  | .get key | .set key _ _ | .add key _ _ | .delete key => [key]
  | .getMany keys => keys

/-- From one scene to another all attempts have been on given keys, and what is kept under all others
is the same. -/
structure Scene.Confined {σ β : Type} (kept : σ → Key → β) (K : Key → Prop)
    (s t : Scene (Observed σ)) : Prop where
  attempts : ∃ made, t.contents.attempts = s.contents.attempts ++ made ∧
    ∀ attempt ∈ made, ∀ key ∈ attempt.keys, K key
  entries (key : Key) : ¬K key → kept t.contents.contents key = kept s.contents.contents key

namespace Scene.Confined

variable {σ β : Type} {kept : σ → Key → β} {K : Key → Prop} {s t u : Scene (Observed σ)}

theorem refl (s : Scene (Observed σ)) : s.Confined kept K s :=
  ⟨⟨[], by simp, by simp⟩, fun _ _ => rfl⟩

theorem trans (h : s.Confined kept K t) (h' : t.Confined kept K u) : s.Confined kept K u := by
  obtain ⟨made, hmade, hkeys⟩ := h.attempts
  obtain ⟨made', hmade', hkeys'⟩ := h'.attempts
  refine ⟨⟨made ++ made', by rw [hmade', hmade, List.append_assoc], fun attempt hattempt => ?_⟩,
    fun key hkey => (h'.entries key hkey).trans (h.entries key hkey)⟩
  rcases List.mem_append.mp hattempt with hattempt | hattempt
  · exact hkeys attempt hattempt
  · exact hkeys' attempt hattempt

end Scene.Confined

namespace Store

variable {σ α β : Type} {store : Store σ} {kept : σ → Key → β} {K : Key → Prop}
  {s t : Scene (Observed σ)} {calls : List StoreCall}

theorem confined_observing {call : Call σ α} (attempt : Attempt) (hkeys : ∀ key ∈ attempt.keys, K key)
    (hleaves : ∀ j, ¬K j → Leaves kept j call) (s : Scene (Observed σ)) :
    s.Confined kept K (observing [attempt] call s).2 :=
  ⟨⟨[attempt], rfl, by simpa using hkeys⟩,
    fun j hj => (hleaves j hj).eq (s.withContents s.contents.contents)⟩

/-- Calls on given keys stay among them. -/
theorem Trace.confined (h : store.observed.Trace calls s t) (hstore : store.Separates kept)
    (hcalls : ∀ call ∈ calls, ∀ key ∈ call.keys, K key) : s.Confined kept K t := by
  induction h with
  | refl => exact .refl _
  | log e _ ih => exact ⟨(ih hcalls).attempts, (ih hcalls).entries⟩
  | get key _ ih =>
      refine (ih fun call hcall => hcalls call (List.mem_append_left _ hcall)).trans
        (confined_observing (.get key) (hcalls (.get key) (by simp)) (fun j _ => ?_) _)
      exact hstore.get key j
  | getMany keys _ ih =>
      refine (ih fun call hcall => hcalls call (List.mem_append_left _ hcall)).trans
        (confined_observing (.getMany keys) (hcalls (.getMany keys) (by simp)) (fun j _ => ?_) _)
      exact hstore.getMany keys j
  | set key ttl bytes _ ih =>
      have hkey : K key := hcalls (.set key ttl) (by simp) key List.mem_cons_self
      refine (ih fun call hcall => hcalls call (List.mem_append_left _ hcall)).trans
        (confined_observing (.set key ttl bytes) (by simpa [Attempt.keys] using hkey)
          (fun j hj => ?_) _)
      exact hstore.set key ttl bytes j fun he => hj (he ▸ hkey)
  | add key ttl bytes _ ih =>
      have hkey : K key := hcalls (.add key ttl) (by simp) key List.mem_cons_self
      refine (ih fun call hcall => hcalls call (List.mem_append_left _ hcall)).trans
        (confined_observing (.add key ttl bytes) (by simpa [Attempt.keys] using hkey)
          (fun j hj => ?_) _)
      exact hstore.add key ttl bytes j fun he => hj (he ▸ hkey)
  | delete key _ ih =>
      have hkey : K key := hcalls (.delete key) (by simp) key List.mem_cons_self
      refine (ih fun call hcall => hcalls call (List.mem_append_left _ hcall)).trans
        (confined_observing (.delete key) (by simpa [Attempt.keys] using hkey) (fun j hj => ?_) _)
      exact hstore.delete key j fun he => hj (he ▸ hkey)

end Store

end CacheAside

import CacheAside.Proofs.Trouble

/-!
# What reads answer

A read that succeeds answers with what the contents have under the keys that it was asked for, and
reading changes nothing about that. Layers that take time, give up or fail make no difference.
-/

namespace CacheAside

namespace Store

variable {σ : Type} {store : Store σ} {view : σ → Int64 → Key → Option Bytes}

/-- Reads that succeed answer with what the contents show. -/
structure Tells (store : Store σ) (view : σ → Int64 → Key → Option Bytes) : Prop where
  get (shown : Key → Option Bytes) (key : Key) :
    Safe (fun contents now => view contents now = shown) (store.get key) fun found =>
      found = shown key
  getMany (shown : Key → Option Bytes) (keys : List Key) :
    Safe (fun contents now => view contents now = shown) (store.getMany keys) fun found =>
      ∀ key ∈ keys, found.find? key = shown key

/-! ## Layers -/

/-- Keys that are got one by one end up in the table with what each of them has. -/
theorem safe_getEach_tells {J : σ → Int64 → Prop} {shown : Key → Option Bytes}
    {get : Key → Call σ (Option Bytes)}
    (h : ∀ key, Safe J (get key) fun found => found = shown key) :
    ∀ (keys : List Key) (found : Table Bytes), Safe J (getEach get keys found) fun t =>
      ∀ key, t.find? key = if key ∈ keys then (shown key).or (found.find? key) else found.find? key
  | [], found, s, hs => ⟨hs, fun t ht key => by cases ht; simp⟩
  | j :: keys, found, s, hs => by
      obtain ⟨hs', hanswer⟩ := h j s hs
      rcases hget : get j s with ⟨answer, s'⟩
      rw [hget] at hs' hanswer
      simp only [getEach, hget]
      cases answer with
      | error e => exact ⟨hs', fun t ht => by cases ht⟩
      | ok bytes =>
          have hj : shown j = bytes := (hanswer _ rfl).symm
          cases bytes with
          | none =>
              obtain ⟨hs'', hrest⟩ := safe_getEach_tells h keys found s' hs'
              refine ⟨hs'', fun t ht key => ?_⟩
              rw [hrest t ht key]
              by_cases hkey : key = j
              · simp [hkey, hj]
              · simp [hkey]
          | some bytes =>
              obtain ⟨hs'', hrest⟩ := safe_getEach_tells h keys (found.insert j bytes) s' hs'
              refine ⟨hs'', fun t ht key => ?_⟩
              rw [hrest t ht key, Table.find?_insert]
              by_cases hkey : key = j
              · simp [hkey, hj]
              · simp [hkey, Ne.symm hkey]

theorem Tells.slow (h : store.Tells view) (latency : Latency) :
    (store.slow latency).Tells view where
  get shown key := (h.get shown key).delayed latency.get
  getMany shown keys s hs := by
    obtain ⟨hs', hanswer⟩ := safe_getEach_tells
      (fun key => (h.get shown key).delayed latency.get) keys .empty s hs
    exact ⟨hs', fun t ht key hkey => by simpa [hkey] using hanswer t ht key⟩

theorem Tells.bounded (h : store.Tells view) (limit : Nat) : (store.bounded limit).Tells view where
  get shown key := (h.get shown key).within limit "get"
  getMany shown keys := (h.getMany shown keys).within limit "get_bulk"

theorem Tells.troubled (h : store.Tells view) (trouble : Trouble) :
    (store.troubled trouble).Tells fun t now => view t.contents now where
  get shown key := (h.get shown key).meeting trouble
  getMany shown keys s hs := by
    obtain ⟨hs', hanswer⟩ := (h.getMany shown keys).meeting trouble s hs
    refine ⟨hs', fun t ht key hkey => ?_⟩
    rcases hmeeting : Store.meeting trouble (store.getMany keys) s with ⟨answer, s'⟩
    rw [hmeeting] at hanswer
    simp only [Store.troubled, hmeeting] at ht
    cases answer with
    | error e => cases ht
    | ok found =>
        cases ht
        rw [find?_insertForeign hkey]
        exact hanswer found rfl key hkey

/-! ## The three stores -/

theorem tells_memory : memory.Tells fun m now => m.lookup now where
  get shown key s hs := ⟨hs, fun found hfound => by cases hfound; exact congrFun hs key⟩
  getMany shown keys s hs := ⟨hs, fun t ht key hkey => by
    cases ht
    rw [MemoryStore.lookupMany, Table.find?_ofKeys, if_pos hkey, hs]⟩

theorem tells_recording : recording.Tells fun r now => r.memory.lookup now where
  get shown key := (tells_memory.get shown key).recorded (.get key) "get" (·.reads)
  getMany shown keys :=
    (tells_memory.getMany shown keys).recorded (.getMany keys) "get_bulk" (·.reads)

theorem tells_disk : disk.Tells fun d now => d.lookup now where
  get shown key s hs := ⟨hs, fun found hfound => by cases hfound; exact congrFun hs key⟩
  getMany shown keys s hs := ⟨hs, fun t ht key hkey => by
    cases ht
    rw [DiskStore.lookupMany, Table.find?_ofKeys, if_pos hkey, hs]⟩

end Store

namespace Rig

namespace Base

/-- The readable bytes under a key. -/
def lookup (b : Base) (now : Int64) (key : Key) : Option Bytes :=
  match b with
  | memory m => m.lookup now key
  | recording r => r.memory.lookup now key
  | disk d => d.lookup now key

theorem tells_store : store.Tells lookup where
  get shown key := safe_through (·.get key) (Store.tells_memory.get shown key)
    (Store.tells_recording.get shown key) (Store.tells_disk.get shown key)
  getMany shown keys := safe_through (·.getMany keys) (Store.tells_memory.getMany shown keys)
    (Store.tells_recording.getMany shown keys) (Store.tells_disk.getMany shown keys)

end Base

/-- Layers that add no entry leave the answers as they are. -/
theorem Layers.tells_outer (l : Layers) (h : l.extra = none) : l.outer.Tells Base.lookup := by
  have hinner : l.inner.Tells Base.lookup := by
    unfold Layers.inner
    rw [h]
    cases l.latency with
    | none => exact Base.tells_store
    | some latency => exact Base.tells_store.slow latency
  unfold Layers.outer
  cases l.deadline with
  | none => exact hinner
  | some limit => exact hinner.bounded limit

end Rig

end CacheAside

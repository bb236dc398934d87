import CacheAside.Proofs.Kept
import CacheAside.Proofs.Ledger
import CacheAside.Proofs.Pending

/-!
# Writes in any order

Writes to different keys do not meet. In a store in memory, with or without a record, they leave the
same entries in whatever order they are made, they count the same, and each is told the same.
-/

namespace CacheAside

open Rig

variable {υ : Type} {p q : PendingWrite} {ttl : UInt32} {now : Int64} {s : Scene Base}
  {v w : World Base υ} {writes writes' : List PendingWrite}

/-! ## One write -/

namespace PendingWrite

/-- Whether a write is made, given the entry that may be there. -/
def takes (p : PendingWrite) (now : Int64) (old : Option StoredValue) : Bool :=
  match p.mode with
  | .overwrite => true
  | .ifAbsent => !old.any (·.isLive now)

theorem isSome_lookup (m : MemoryStore) (key : Key) :
    (m.lookup now key).isSome = (m.table.find? key).any (·.isLive now) := by
  rw [MemoryStore.lookup]
  cases m.table.find? key with
  | none => rfl
  | some old => cases hlive : old.isLive now <;> simp [hlive]

/-- A write changes no entry but that under its key, and looks at no other. -/
theorem find?_toMemory (m : MemoryStore) (key : Key) :
    (p.toMemory ttl now m).table.find? key =
      if p.key = key ∧ p.takes now (m.table.find? p.key) then some ⟨p.bytes, expiresAt ttl now⟩
      else m.table.find? key := by
  obtain ⟨j, bytes, mode⟩ := p
  cases mode with
  | overwrite => simp [toMemory, takes, MemoryStore.put, Table.find?_insert]
  | ifAbsent =>
      simp only [toMemory, takes, MemoryStore.add, isSome_lookup]
      by_cases hold : (m.table.find? j).any (·.isLive now) = true
      · simp [hold]
      · simp [hold, MemoryStore.put, Table.find?_insert]

theorem find?_toMemory_of_ne (hne : p.key ≠ q.key) (m : MemoryStore) :
    (p.toMemory ttl now m).table.find? q.key = m.table.find? q.key := by
  rw [find?_toMemory, if_neg fun h => hne h.1]

/-- Writes to different keys can change places. -/
theorem toMemory_comm (hne : p.key ≠ q.key) (m : MemoryStore) :
    q.toMemory ttl now (p.toMemory ttl now m) = p.toMemory ttl now (q.toMemory ttl now m) := by
  suffices htables : (q.toMemory ttl now (p.toMemory ttl now m)).table =
      (p.toMemory ttl now (q.toMemory ttl now m)).table from congrArg MemoryStore.mk htables
  refine Table.ext fun key => ?_
  rw [find?_toMemory, find?_toMemory_of_ne hne, find?_toMemory (p := p) (m := m),
    find?_toMemory (p := p), find?_toMemory_of_ne hne.symm, find?_toMemory (p := q) (m := m)]
  by_cases hp : p.key = key
  · have hq : q.key ≠ key := fun hq => hne (hp.trans hq.symm)
    simp [hp, hq]
  · simp [hp]

/-- What the store says about a write: whether it has been made, or why it has failed. -/
def answer (p : PendingWrite) (ttl : UInt32) (s : Scene Base) : Except StoreError Bool :=
  match p.mode with
  | .overwrite => (Base.store.set p.key ttl p.bytes s).1.map fun _ => true
  | .ifAbsent => (Base.store.add p.key ttl p.bytes s).1

theorem answer_bare : p.answer ttl s.bare = p.answer ttl s := by
  unfold answer
  cases p.mode with
  | overwrite => exact congrArg (Except.map fun _ => true) (Base.plain_set p.key ttl p.bytes s).1
  | ifAbsent => exact (Base.plain_add p.key ttl p.bytes s).1

variable {patience : Option Nat} {events : List Event}

theorem answer_memory (m : MemoryStore) : p.answer ttl ⟨.memory m, now, patience, events⟩ =
    .ok (p.takes now (m.table.find? p.key)) := by
  obtain ⟨key, bytes, mode⟩ := p
  cases mode with
  | overwrite => rfl
  | ifAbsent =>
      have hadd : (MemoryStore.add m now key ttl bytes).1 =
          !(m.table.find? key).any (·.isLive now) := by
        rw [MemoryStore.add, isSome_lookup]
        by_cases hold : (m.table.find? key).any (·.isLive now) = true <;> simp [hold]
      exact congrArg Except.ok hadd

/-- The record does not change what a write is told, unless it is to fail. -/
theorem answer_recording (r : RecordingStore) :
    p.answer ttl ⟨.recording r, now, patience, events⟩ =
      if r.failures.writes then .error (RecordingStore.injected (match p.mode with
        | .overwrite => "set"
        | .ifAbsent => "add"))
      else p.answer ttl ⟨.memory r.memory, now, patience, events⟩ := by
  obtain ⟨key, bytes, mode⟩ := p
  obtain ⟨memory, calls, reads, writes, deletes⟩ := r
  cases mode <;> cases writes <;> rfl

end PendingWrite

/-! ## Writes in turn -/

namespace Rig.Base

/-- What has been recorded is nothing to a read. -/
theorem fst_get_congr {t : Scene Base} {key : Key} (h : s.bare = t.bare) :
    (store.get key s).1 = (store.get key t).1 := by
  have hview : s.view key = t.view key := by rw [← Scene.view_bare, h, Scene.view_bare]
  obtain ⟨hfails, hlookup⟩ := View.mk.inj hview
  rw [fst_get, fst_get, hfails, hlookup]

/-- Whether writes are to fail. -/
def failsWrites : Base → Bool
  | recording r => r.failures.writes
  | memory _ | disk _ => false

/-- The contents with a change of the entries in memory. -/
def alter (change : MemoryStore → MemoryStore) : Base → Base
  | memory m => memory (change m)
  | recording r => recording { r with memory := change r.memory }
  | disk d => disk d

end Rig.Base

namespace World

/-- What a write makes of a bare world with entries in memory. -/
def wrote (ttl : UInt32) (w : World Base υ) (p : PendingWrite) : World Base υ :=
  if w.scene.contents.failsWrites then w.count Stats.addWriteFailure
  else
    let contents := w.scene.contents.alter (p.toMemory ttl w.scene.now)
    { w with scene := { w.scene with contents } }.count Stats.addWrite

theorem bare_applyWrite (h : w.scene.contents.InMemory) :
    (Cache.applyWrite Base.store ttl w p).bare = w.bare.wrote ttl p := by
  obtain ⟨⟨contents, now, patience, events⟩, stats, pending, executor, outside⟩ := w
  obtain ⟨key, bytes, mode⟩ := p
  cases contents with
  | memory m => cases mode <;> rfl
  | recording r =>
      obtain ⟨memory, calls, reads, writes, deletes⟩ := r
      cases mode <;> cases writes <;> rfl
  | disk d => cases h

theorem inMemory_wrote (h : w.scene.contents.InMemory) (p : PendingWrite) :
    (w.wrote ttl p).scene.contents.InMemory := by
  obtain ⟨⟨contents, now, patience, events⟩, stats, pending, executor, outside⟩ := w
  unfold wrote
  split
  · exact h
  · cases contents <;> exact h

theorem inMemory_bare : w.bare.scene.contents.InMemory ↔ w.scene.contents.InMemory := by
  obtain ⟨⟨contents, now, patience, events⟩, stats, pending, executor, outside⟩ := w
  cases contents <;> exact Iff.rfl

theorem wrote_comm (hne : p.key ≠ q.key) (w : World Base υ) :
    (w.wrote ttl p).wrote ttl q = (w.wrote ttl q).wrote ttl p := by
  obtain ⟨⟨contents, now, patience, events⟩, stats, pending, executor, outside⟩ := w
  cases contents with
  | memory m => simp [wrote, Base.failsWrites, Base.alter, count, PendingWrite.toMemory_comm hne]
  | recording r =>
      cases hfails : r.failures.writes with
      | true => simp [wrote, Base.failsWrites, count, hfails]
      | false =>
          simp [wrote, Base.failsWrites, Base.alter, count, hfails, PendingWrite.toMemory_comm hne]
  | disk d => simp [wrote, Base.failsWrites, Base.alter, count]

/-- A write does not change what a write to another key is told. -/
theorem answer_wrote (hne : p.key ≠ q.key) (w : World Base υ) :
    q.answer ttl (w.wrote ttl p).scene = q.answer ttl w.scene := by
  obtain ⟨⟨contents, now, patience, events⟩, stats, pending, executor, outside⟩ := w
  have hmemory : ∀ m : MemoryStore,
      q.answer ttl ⟨.memory (p.toMemory ttl now m), now, patience, events⟩ =
        q.answer ttl ⟨.memory m, now, patience, events⟩ := fun m => by
    rw [PendingWrite.answer_memory, PendingWrite.answer_memory,
      PendingWrite.find?_toMemory_of_ne hne]
  cases contents with
  | memory m => exact hmemory m
  | recording r =>
      cases hfails : r.failures.writes with
      | true => simp [wrote, Base.failsWrites, count, hfails]
      | false =>
          simp [wrote, Base.failsWrites, Base.alter, count, hfails, PendingWrite.answer_recording,
            hmemory]
  | disk d => rfl

end World

/-- Some writes in turn, each with what it is told. -/
def outcomes (ttl : UInt32) : List PendingWrite → World Base υ →
    List (PendingWrite × Except StoreError Bool)
  | [], _ => []
  | p :: writes, w =>
    (p, p.answer ttl w.scene) :: outcomes ttl writes (Cache.applyWrite Base.store ttl w p)

namespace Cache

theorem inMemory_applyWrite (h : w.scene.contents.InMemory) (p : PendingWrite) :
    (applyWrite Base.store ttl w p).scene.contents.InMemory := by
  have hbare : w.bare.scene.contents.InMemory := World.inMemory_bare.mpr h
  exact World.inMemory_bare.mp (World.bare_applyWrite h ▸ World.inMemory_wrote hbare p)

theorem bare_runJob (h : w.scene.contents.InMemory) (writes : List PendingWrite) :
    (runJob Base.store w ⟨writes, ttl⟩).bare = writes.foldl (World.wrote ttl) w.bare := by
  induction writes generalizing w with
  | nil => rfl
  | cons p writes ih =>
      rw [runJob_cons, ih (inMemory_applyWrite h p), World.bare_applyWrite h, List.foldl_cons]

/-- Each write is told what it would be told if it were the only one. -/
theorem outcomes_eq (h : w.scene.contents.InMemory) (hapart : Apart writes) :
    outcomes ttl writes w = writes.map fun p => (p, p.answer ttl w.scene) := by
  induction writes generalizing w with
  | nil => rfl
  | cons p writes ih =>
      obtain ⟨hfresh, hapart⟩ := List.nodup_cons.mp hapart
      rw [outcomes, ih (inMemory_applyWrite h p) hapart, List.map_cons]
      refine congrArg _ (List.map_congr_left fun q hq => ?_)
      have hne : p.key ≠ q.key := fun hkey => hfresh (List.mem_map.mpr ⟨q, hq, hkey.symm⟩)
      have htold : q.answer ttl (applyWrite Base.store ttl w p).scene = q.answer ttl w.scene :=
        calc q.answer ttl (applyWrite Base.store ttl w p).scene
            = q.answer ttl (applyWrite Base.store ttl w p).bare.scene :=
              PendingWrite.answer_bare.symm
          _ = q.answer ttl w.bare.scene := by rw [World.bare_applyWrite h, World.answer_wrote hne]
          _ = q.answer ttl w.scene := PendingWrite.answer_bare
      rw [htold]

theorem bare_runJob_of_perm (h : w.scene.contents.InMemory) (hapart : Apart writes)
    (hperm : writes'.Perm writes) : (runJob Base.store w ⟨writes', ttl⟩).bare =
      (runJob Base.store w ⟨writes, ttl⟩).bare := by
  rw [bare_runJob h, bare_runJob h]
  refine hperm.symm.foldl_eq' (fun p hp q hq w => ?_) w.bare |>.symm
  by_cases hkey : p.key = q.key
  · rw [List.inj_on_of_nodup_map hapart hp hq hkey]
  · exact World.wrote_comm hkey w

end Cache

/-- The writes that a request ends with go to different keys. Writes to different keys can be made
in any order, whether they go over what is stored or not and whether the store fails or not: each
of them is told the same, they count the same, and all that is read later is the same. -/
theorem Request.run_ends_in_any_order {σ υ' ε ρ : Type} {κ τ : Kind} (c : Cache σ)
    (r : Request σ υ' ε ρ κ τ) (w : World σ υ') :
    (∃ writes, r.Pends c w writes ∧ Apart writes ∧
      (((r.inMode .detached).run c w).2.executor = true →
        ∀ writes', r.Pends c w writes' → writes' = writes)) ∧
    ∀ (writes writes' : List PendingWrite) (ttl : UInt32) (v : World Base υ), Apart writes →
      writes'.Perm writes → v.scene.contents.InMemory →
      let done := Cache.runJob Base.store v ⟨writes, ttl⟩
      let done' := Cache.runJob Base.store v ⟨writes', ttl⟩
      done'.bare = done.bare ∧ done'.stats = done.stats ∧
        (outcomes ttl writes' v).Perm (outcomes ttl writes v) ∧
        ∀ later key, (Base.store.get key { done'.scene with now := later }).1 =
          (Base.store.get key { done.scene with now := later }).1 := by
  constructor
  · obtain ⟨writes, hpends, hapart⟩ := r.exists_pends c w
    exact ⟨writes, hpends, hapart, fun hexecutor writes' h => hpends.unique h hexecutor⟩
  intro writes writes' ttl v hapart hperm hmemory done done'
  have hbare : done'.bare = done.bare := Cache.bare_runJob_of_perm hmemory hapart hperm
  have hscene : done'.bare.scene = done.bare.scene := by rw [hbare]
  have hstats : done'.bare.stats = done.bare.stats := by rw [hbare]
  refine ⟨hbare, hstats, ?_, fun later key => ?_⟩
  · have hapart' : Apart writes' := (hperm.map _).nodup_iff.mpr hapart
    rw [Cache.outcomes_eq hmemory hapart', Cache.outcomes_eq hmemory hapart]
    exact hperm.map _
  · exact Base.fst_get_congr (congrArg (fun s : Scene Base => { s with now := later }) hscene)

/-- An object that comes twice is written once. Of two writes that change places, one is for a key
that is not free. -/
theorem Request.run_ends_in_any_order_of_occupied :
    let c : Cache Base := { store := Base.store }
    let m : MemoryStore := ⟨Table.empty.insert ⟨"n:2"⟩ ⟨[7], none⟩⟩
    let v : World Base Unit :=
      { scene := { contents := .recording { memory := m }, now := 1000 }, outside := () }
    let r : Request Base Unit Unit Unit .word32 .word32 :=
      .writeMany { keyspace := "n" } [(1 : UInt32), 2, 1]
        fun w => (.ok [some (5 : UInt32), none, some (6 : UInt32)], w)
    let first : PendingWrite := ⟨⟨"n:1"⟩, [5], .overwrite⟩
    let second : PendingWrite := ⟨⟨"n:2"⟩, [6], .ifAbsent⟩
    Apart [first, second] ∧ [second, first].Perm [first, second] ∧ v.scene.contents.InMemory ∧
      ((r.inMode .detached).run c v).2.executor = true ∧
      (∃ writes, r.Pends c v writes ∧ Apart writes ∧
        ∀ writes', r.Pends c v writes' → writes' = writes) ∧
      [(second, .ok false), (first, .ok true)].Perm (outcomes 0 [first, second] v) ∧
      (Cache.runJob Base.store v ⟨[second, first], 0⟩).stats =
        (Cache.runJob Base.store v ⟨[first, second], 0⟩).stats := by
  intro c m v r first second
  have hapart : Apart [first, second] := by simp [Apart, first, second]
  have hperm : [second, first].Perm [first, second] := .swap first second []
  have hexecutor : ((r.inMode .detached).run c v).2.executor = true := by decide +kernel
  obtain ⟨⟨writes, hpends, hwrites, hunique⟩, hany⟩ :=
    Request.run_ends_in_any_order (υ := Unit) c r v
  obtain ⟨-, hstats, houtcomes, -⟩ := hany [first, second] [second, first] 0 v hapart hperm trivial
  exact ⟨hapart, hperm, trivial, hexecutor, ⟨writes, hpends, hwrites, hunique hexecutor⟩,
    houtcomes, hstats⟩

end CacheAside

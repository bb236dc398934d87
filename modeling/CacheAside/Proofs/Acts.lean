import CacheAside.Proofs.Bare
import CacheAside.Request

/-!
# Acts

What one call for a single object does to a bare world: it counts, it asks its data source, and it
makes at most one write. Acts in turn come to counting and asking first and writing then.
-/

namespace CacheAside

open Rig

variable {κ τ : Kind} {p : PendingWrite} {ttl : UInt32} {s : Scene Base} {xs : List κ}
  {v w : World Base (List κ)}

/-! ## One write -/

/-- The store call of a write. -/
def PendingWrite.call (p : PendingWrite) (ttl : UInt32) : Call Base Unit := fun s =>
  match p.mode with
  | .overwrite => Base.store.set p.key ttl p.bytes s
  | .ifAbsent =>
    let (answer, s) := Base.store.add p.key ttl p.bytes s
    (answer.map fun _ => (), s)

theorem PendingWrite.plain_call (p : PendingWrite) (ttl : UInt32) : Base.Plain (p.call ttl) := by
  obtain ⟨key, bytes, mode⟩ := p
  cases mode with
  | overwrite => exact Base.plain_set key ttl bytes
  | ifAbsent =>
      intro s
      obtain ⟨hanswer, hafter⟩ := Base.plain_add key ttl bytes s
      exact ⟨congrArg (·.map fun _ => ()) hanswer, hafter⟩

/-- The bytes under a key and whether they can be read. -/
structure View where
  fails : Bool
  bytes : Option Bytes

def Scene.view (s : Scene Base) (key : Key) : View :=
  ⟨s.contents.failsReads, s.contents.lookup s.now key⟩

theorem Scene.view_bare (key : Key) : s.bare.view key = s.view key := by
  obtain ⟨contents, now, patience, events⟩ := s
  cases contents <;> rfl

/-- A write shows under its own key alone. -/
theorem PendingWrite.view_call {key : Key} (hne : p.key ≠ key) :
    (p.call ttl s).2.view key = s.view key := by
  obtain ⟨j, bytes, mode⟩ := p
  cases mode with
  | overwrite =>
      exact (View.mk.injEq ..).mpr ⟨Base.failsReads_through (·.set j ttl bytes) rfl,
        (Base.safe_set hne ttl bytes s rfl).1⟩
  | ifAbsent =>
      exact (View.mk.injEq ..).mpr ⟨Base.failsReads_through (·.add j ttl bytes) rfl,
        (Base.safe_add hne ttl bytes s rfl).1⟩

/-- What a write costs. -/
def writeCost : Except StoreError Unit → Stats
  | .ok () => Stats.addWrite 0
  | .error _ => Stats.addWriteFailure 0

theorem World.bare_charge (cost : Stats) (asked : List κ) :
    (w.charge cost asked).bare = w.bare.charge cost asked := rfl

theorem World.bare_log_count (e : Event) {change : Stats → Stats} (h : Stats.IsCharge change) :
    ((w.log e).count change).bare = (w.charge (change 0) []).bare := by
  rw [count_eq_charge h]
  rfl

theorem World.scene_bare : w.bare.scene = w.scene.bare := rfl

namespace Cache

theorem bare_applyWrite : (applyWrite Base.store ttl w p).bare =
    ({ w with scene := (p.call ttl w.scene).2 }.charge
      (writeCost (p.call ttl w.scene).1) []).bare := by
  obtain ⟨key, bytes, mode⟩ := p
  cases mode with
  | overwrite =>
      rcases hset : Base.store.set key ttl bytes w.scene with ⟨answer, s⟩
      simp only [applyWrite, Store.setSilently, PendingWrite.call, hset]
      cases answer with
      | ok u => exact congrArg World.bare (World.count_eq_charge Stats.isCharge_addWrite)
      | error e =>
          exact World.bare_log_count (w := { w with scene := s }) (.setFailed key e)
            Stats.isCharge_addWriteFailure
  | ifAbsent =>
      rcases hadd : Base.store.add key ttl bytes w.scene with ⟨answer, s⟩
      have hcall : w.call (Base.store.add key ttl bytes) = (answer, { w with scene := s }) := by
        rw [World.call, hadd]
      simp only [applyWrite, PendingWrite.call, hcall, hadd]
      cases answer with
      | ok added => exact congrArg World.bare (World.count_eq_charge Stats.isCharge_addWrite)
      | error e => exact World.bare_log_count (.addFailed key e) Stats.isCharge_addWriteFailure

theorem applyWrite_congr (h : v.bare = w.bare) :
    (applyWrite Base.store ttl v p).bare = (applyWrite Base.store ttl w p).bare := by
  obtain ⟨s, stats, pending, executor, outside⟩ := v
  obtain ⟨t, stats', pending', executor', outside'⟩ := w
  obtain ⟨hscene, rfl, rfl, rfl, rfl⟩ := World.mk.inj h
  obtain ⟨hanswer, hafter⟩ := (p.plain_call ttl).congr hscene
  rw [bare_applyWrite, bare_applyWrite, World.bare_charge, World.bare_charge]
  simp only [World.bare, hanswer, hafter]

/-- What is counted and asked meanwhile makes no difference to a write. -/
theorem applyWrite_charge (cost : Stats) (asked : List κ) :
    (applyWrite Base.store ttl (w.charge cost asked) p).bare =
      ((applyWrite Base.store ttl w p).charge cost asked).bare := by
  rw [World.bare_charge, bare_applyWrite, bare_applyWrite, ← World.bare_charge]
  simp [World.charge, add_right_comm]

/-- A write leaves the scene of its store call, but for the log. -/
theorem scene_applyWrite {υ : Type} (ttl : UInt32) (p : PendingWrite) (w : World Base υ) : ∃ es,
    (applyWrite Base.store ttl w p).scene = (p.call ttl w.scene).2.logAll es := by
  obtain ⟨key, bytes, mode⟩ := p
  cases mode with
  | overwrite =>
      rcases hset : Base.store.set key ttl bytes w.scene with ⟨answer, s⟩
      simp only [applyWrite, Store.setSilently, PendingWrite.call, hset]
      cases answer with
      | ok u => exact ⟨[], by simp [World.count, Scene.logAll]⟩
      | error e => exact ⟨[.setFailed key e], rfl⟩
  | ifAbsent =>
      rcases hadd : Base.store.add key ttl bytes w.scene with ⟨answer, s⟩
      have hcall : w.call (Base.store.add key ttl bytes) = (answer, { w with scene := s }) := by
        rw [World.call, hadd]
      simp only [applyWrite, PendingWrite.call, hcall, hadd]
      cases answer with
      | ok added => exact ⟨[], by simp [World.count, Scene.logAll]⟩
      | error e => exact ⟨[.addFailed key e], rfl⟩

theorem view_applyWrite {υ : Type} {w : World Base υ} {key : Key} (hne : p.key ≠ key) :
    (applyWrite Base.store ttl w p).scene.view key = w.scene.view key := by
  obtain ⟨es, hscene⟩ := scene_applyWrite ttl p w
  rw [hscene]
  exact p.view_call hne

/-! ## The writes of a job -/

variable {job : Job}

theorem runJob_cons {υ : Type} {w : World Base υ} (writes : List PendingWrite) :
    runJob Base.store w ⟨p :: writes, ttl⟩ =
      runJob Base.store (applyWrite Base.store ttl w p) ⟨writes, ttl⟩ := rfl

theorem runJob_append (writes writes' : List PendingWrite) :
    runJob Base.store w ⟨writes ++ writes', ttl⟩ =
      runJob Base.store (runJob Base.store w ⟨writes, ttl⟩) ⟨writes', ttl⟩ :=
  List.foldl_append

theorem runJob_congr (h : v.bare = w.bare) :
    (runJob Base.store v job).bare = (runJob Base.store w job).bare := by
  obtain ⟨writes, ttl⟩ := job
  induction writes generalizing v w with
  | nil => exact h
  | cons p writes ih => exact ih (applyWrite_congr h)

theorem runJob_charge (cost : Stats) (asked : List κ) :
    (runJob Base.store (w.charge cost asked) job).bare =
      ((runJob Base.store w job).charge cost asked).bare := by
  obtain ⟨writes, ttl⟩ := job
  induction writes generalizing w with
  | nil => rfl
  | cons p writes ih =>
      rw [runJob_cons, runJob_cons, ← ih]
      exact runJob_congr (applyWrite_charge cost asked)

theorem view_runJob {υ : Type} {w : World Base υ} {key : Key}
    (hne : ∀ p ∈ job.writes, p.key ≠ key) :
    (runJob Base.store w job).scene.view key = w.scene.view key := by
  obtain ⟨writes, ttl⟩ := job
  induction writes generalizing w with
  | nil => rfl
  | cons p writes ih =>
      rw [runJob_cons, ih fun q hq => hne q (List.mem_cons_of_mem _ hq),
        view_applyWrite (hne p List.mem_cons_self)]

end Cache

/-! ## Acts -/

/-- What one call for a single object comes to. -/
structure Act (κ τ : Kind) where
  value : Option τ
  cost : Stats := 0
  asked : Option κ := none
  write : Option PendingWrite := none

/-- What acts come to together, if their writes wait until all have counted and asked. -/
def performAll (ttl : UInt32) (acts : List (Act κ τ)) (w : World Base (List κ)) :
    World Base (List κ) :=
  Cache.runJob Base.store (w.charge (acts.map (·.cost)).sum (acts.filterMap (·.asked)))
    ⟨acts.filterMap (·.write), ttl⟩

theorem performAll_congr (acts : List (Act κ τ)) (h : v.bare = w.bare) :
    (performAll ttl acts v).bare = (performAll ttl acts w).bare := by
  refine Cache.runJob_congr ?_
  rw [World.bare_charge, World.bare_charge, h]

theorem performAll_charge (acts : List (Act κ τ)) (cost : Stats) :
    (performAll ttl acts (w.charge cost [])).bare =
      ((performAll ttl acts w).charge cost []).bare := by
  unfold performAll
  rw [← Cache.runJob_charge]
  simp [World.charge, add_right_comm]

/-- It makes no difference whether the writes wait. -/
theorem performAll_append (acts acts' : List (Act κ τ)) :
    (performAll ttl (acts ++ acts') w).bare =
      (performAll ttl acts' (performAll ttl acts w)).bare := by
  unfold performAll
  rw [List.map_append, List.sum_append, List.filterMap_append, List.filterMap_append,
    Cache.runJob_append, ← World.charge_charge]
  exact Cache.runJob_congr (Cache.runJob_charge _ _)

theorem view_performAll_singleton {act : Act κ τ} {key : Key}
    (hne : ∀ p ∈ act.write, p.key ≠ key) :
    (performAll ttl [act] w).scene.view key = w.scene.view key := by
  refine Cache.view_runJob fun p hp => hne p ?_
  obtain ⟨a, ha, hp⟩ := List.mem_filterMap.mp hp
  rwa [List.mem_singleton.mp ha] at hp

theorem performAll_map (act : κ → Act κ τ) : performAll ttl (xs.map act) w =
    Cache.runJob Base.store (w.charge (xs.map fun x => (act x).cost).sum
      (xs.filterMap fun x => (act x).asked)) ⟨xs.filterMap fun x => (act x).write, ttl⟩ := by
  rw [performAll, List.map_map, List.filterMap_map, List.filterMap_map]
  rfl

theorem performAll_singleton (act : Act κ τ) : performAll ttl [act] w =
    Cache.runJob Base.store (w.charge act.cost act.asked.toList) ⟨act.write.toList, ttl⟩ := by
  obtain ⟨value, cost, asked, write⟩ := act
  cases asked <;> cases write <;> simp [performAll]

/-- An act that has cost more. -/
def Act.paying (act : Act κ τ) (cost : Stats) : Act κ τ := { act with cost := cost + act.cost }

theorem performAll_paying (act : κ → Act κ τ) (cost : Stats) :
    performAll ttl (xs.map fun x => (act x).paying cost) w =
      performAll ttl (xs.map act) (w.charge (xs.length • cost) []) := by
  have hcost : (xs.map fun x => ((act x).paying cost).cost).sum =
      xs.length • cost + (xs.map fun x => (act x).cost).sum := by
    rw [← List.sum_replicate, ← List.map_const', ← List.sum_map_add]
    rfl
  rw [performAll_map, performAll_map, hcost, World.charge_charge]
  rfl

end CacheAside

import CacheAside.Proofs.RequestRuns

/-!
# Stores under observation

A layer outside all others, which keeps what has been attempted on the store, and with which bytes,
whatever has become of it. What a call attempts, leaves behind and does outside is its trail; what
it does to the trail does not depend on what the store answers, reads apart.
-/

namespace CacheAside

/-- A call that has been attempted. -/
inductive Attempt where
  | get (key : Key)
  | getMany (keys : List Key)
  | set (key : Key) (ttl : UInt32) (bytes : Bytes)
  | add (key : Key) (ttl : UInt32) (bytes : Bytes)
  | delete (key : Key)
  deriving DecidableEq

/-- Contents with the calls attempted so far. -/
structure Observed (σ : Type) where
  contents : σ
  attempts : List Attempt := []

namespace Store

variable {σ α : Type}

def observing (attempts : List Attempt) (call : Call σ α) : Call (Observed σ) α := fun s =>
  let (answer, s') := call (s.withContents s.contents.contents)
  (answer, s'.withContents ⟨s'.contents, s.contents.attempts ++ attempts⟩)

def observed (store : Store σ) : Store (Observed σ) where
  get key := observing [.get key] (store.get key)
  getMany keys := observing [.getMany keys] (store.getMany keys)
  set key ttl bytes := observing [.set key ttl bytes] (store.set key ttl bytes)
  add key ttl bytes := observing [.add key ttl bytes] (store.add key ttl bytes)
  delete key := observing [.delete key] (store.delete key)
  deleteMany keys := observing (keys.map .delete) (store.deleteMany keys)

end Store

/-- What a call leaves behind, apart from entries, logs and counters. -/
structure Trail (υ : Type) where
  attempts : List Attempt
  pending : List Job
  executor : Bool
  outside : υ

namespace World

variable {σ υ α : Type}

def trail (w : World (Observed σ) υ) : Trail υ :=
  ⟨w.scene.contents.attempts, w.pending, w.executor, w.outside⟩

@[simp] theorem trail_log (w : World (Observed σ) υ) (e : Event) : (w.log e).trail = w.trail := rfl

@[simp] theorem trail_count (w : World (Observed σ) υ) (change : Stats → Stats) :
    (w.count change).trail = w.trail := rfl

end World

/-- A trail with further attempts. -/
def Trail.after {υ : Type} (t : Trail υ) (attempts : List Attempt) : Trail υ :=
  { t with attempts := t.attempts ++ attempts }

@[simp] theorem Trail.after_nil {υ : Type} (t : Trail υ) : t.after [] = t := by simp [after]

@[simp] theorem Trail.after_after {υ : Type} (t : Trail υ) (first second : List Attempt) :
    (t.after first).after second = t.after (first ++ second) := by simp [after]

theorem World.trail_call {σ υ α : Type} (w : World (Observed σ) υ) (attempts : List Attempt)
    (call : Call σ α) :
    (w.call (Store.observing attempts call)).2.trail = w.trail.after attempts := rfl

namespace Cache

variable {σ υ : Type} {κ τ : Kind} {c : Cache (Observed σ)} {o : Options}
  {w : World (Observed σ) υ} {store : Store σ}

/-! ## Steps that make no store call -/

@[simp] theorem trail_encode (key : Key) (v : Option τ) : (c.encode key v w).2.trail = w.trail := by
  unfold encode
  cases c.codec.encodeOption v <;> rfl

@[simp] theorem trail_decode (key : Key) (bytes : Bytes) :
    (c.decode τ key bytes w).2.trail = w.trail := by
  unfold decode
  cases c.codec.decode τ bytes <;> rfl

@[simp] theorem trail_valueWrite (b : Batch κ τ) (key : Key) (v : Option τ) :
    (c.valueWrite o b key v w).2.trail = w.trail := by
  cases v with
  | some v => exact trail_encode key (some v)
  | none =>
      simp only [valueWrite, nullWrite]
      split
      · exact trail_encode key none
      · rfl

@[simp] theorem trail_valueWrites (b : Batch κ τ) (pairs : List (Key × Option τ)) :
    (c.valueWrites o b pairs w).2.trail = w.trail := by
  induction pairs generalizing w with
  | nil => rfl
  | cons p pairs ih => simp only [valueWrites, ih, trail_valueWrite]

@[simp] theorem trail_firstWrites (pairs : List (Key × Option τ)) (seen : List Key) :
    (c.firstWrites o pairs seen w).2.trail = w.trail := by
  induction pairs generalizing w seen with
  | nil => rfl
  | cons p pairs ih =>
      simp only [firstWrites]
      split
      · exact ih seen
      · split
        · exact ih _
        · simp only [ih, trail_encode]

theorem trail_collectRows {note : Key → World (Observed σ) υ → World (Observed σ) υ}
    (hnote : ∀ key w, (note key w).trail = w.trail) (ns : String) (rows : List τ) (done : Rows τ) :
    (c.collectRows ns note rows done w).2.trail = w.trail := by
  induction rows generalizing w done with
  | nil => rfl
  | cons v rows ih =>
      simp only [collectRows]
      split
      · rfl
      · split
        · exact ih done
        · simp only [ih, hnote, trail_encode]

@[simp] theorem trail_absorb (found : List (Key × Bytes)) (b : Batch κ τ) :
    (c.absorb found b w).2.trail = w.trail := by
  induction found generalizing b w with
  | nil => rfl
  | cons e found ih =>
      have hdecode := trail_decode (c := c) (τ := τ) (w := w) e.1 e.2
      simp only [absorb]
      split
      · split
        · rename_i entry w' h
          rw [ih, ← hdecode, h]
        · rename_i w' h
          rw [ih, ← hdecode, h]
      · exact ih b

/-! ## Writes -/

/-- What a write attempts. -/
def attemptOf (ttl : UInt32) (p : PendingWrite) : Attempt :=
  match p.mode with
  | .overwrite => .set p.key ttl p.bytes
  | .ifAbsent => .add p.key ttl p.bytes

theorem trail_applyWrite (ttl : UInt32) (p : PendingWrite) :
    (applyWrite store.observed ttl w p).trail = w.trail.after [attemptOf ttl p] := by
  obtain ⟨key, bytes, mode⟩ := p
  cases mode with
  | overwrite =>
      have hcall : ({ w with scene := (store.observed.set key ttl bytes w.scene).2 } :
        World _ υ).trail = w.trail.after [.set key ttl bytes] := World.trail_call w _ _
      unfold applyWrite Store.setSilently
      rcases hset : store.observed.set key ttl bytes w.scene with ⟨answer, scene⟩
      rw [hset] at hcall
      cases answer <;> exact hcall
  | ifAbsent =>
      have hcall : (w.call (store.observed.add key ttl bytes)).2.trail =
        w.trail.after [.add key ttl bytes] := World.trail_call w _ _
      unfold applyWrite
      rcases hadd : w.call (store.observed.add key ttl bytes) with ⟨answer, w'⟩
      rw [hadd] at hcall
      cases answer <;> exact hcall

/-- Every write of a job is attempted, whatever has become of those before it. -/
theorem trail_runJob (job : Job) : (runJob store.observed w job).trail =
    w.trail.after (job.writes.map (attemptOf job.ttl)) := by
  obtain ⟨writes, ttl⟩ := job
  simp only [runJob]
  induction writes generalizing w with
  | nil => simp
  | cons p writes ih => simp [ih, trail_applyWrite]

theorem trail_runJobs (jobs : List Job) : (jobs.foldl (runJob store.observed) w).trail =
    w.trail.after (jobs.flatMap fun job : Job => job.writes.map (attemptOf job.ttl)) := by
  induction jobs generalizing w with
  | nil => simp
  | cons job jobs ih => simp [ih, trail_runJob]

theorem trail_drain : (drain store.observed w).trail =
    { w.trail with pending := [] }.after
      (w.pending.flatMap fun job : Job => job.writes.map (attemptOf job.ttl)) :=
  trail_runJobs w.pending

/-- The trail of the writes of a call. -/
def written (c : Cache (Observed σ)) (o : Options) (writes : List PendingWrite) (t : Trail υ) :
    Trail υ :=
  if writes ≠ [] ∧ o.writeBack = .detached ∧ t.executor then
    { t with pending := t.pending ++ [⟨writes, c.ttl o⟩] }
  else t.after (writes.map (attemptOf (c.ttl o)))

theorem trail_writeBack (hstore : c.store = store.observed) (writes : List PendingWrite) :
    (c.writeBack o writes w).trail = c.written o writes w.trail := by
  unfold writeBack written
  by_cases hnil : writes = []
  · simp [hnil]
  · cases hmode : o.writeBack with
    | inline => simp [hnil, hstore, trail_runJob]
    | detached =>
        cases hexecutor : w.executor with
        | true => simp [hnil, World.trail, hexecutor]
        | false =>
            have htrail : w.trail.executor = false := hexecutor
            simp [hnil, hstore, trail_runJob, htrail]

theorem trail_storeValue (hstore : c.store = store.observed) (key : Key) (v : Option τ)
    (mode : WriteMode) : (c.storeValue o key v mode w).trail =
      c.written o (c.writeOf key v mode).toList w.trail := by
  have hfst := fst_encode (c := c) (w := w) key v
  have htrail := trail_encode (c := c) (w := w) key v
  unfold storeValue writeOf
  rcases hencode : c.encode key v w with ⟨bytes, w'⟩
  rw [hencode] at hfst htrail
  rw [← hfst]
  cases bytes with
  | some bytes => exact (trail_writeBack hstore _).trans (by rw [← htrail]; rfl)
  | none => simpa [written] using htrail

/-! ## Deletes -/

theorem trail_deleteOne (hstore : c.store = store.observed) (key : Key) :
    (c.deleteOne key w).2.trail = w.trail.after [.delete key] := by
  have hcall : (w.call (c.store.delete key)).2.trail = w.trail.after [.delete key] := by
    rw [hstore]
    exact World.trail_call w _ _
  unfold deleteOne
  rcases hdelete : w.call (c.store.delete key) with ⟨answer, w'⟩
  rw [hdelete] at hcall
  match answer with
  | .ok true | .ok false | .error e => exact hcall

/-- Every key is attempted, whatever has become of those before it. -/
theorem trail_deleteAll (hstore : c.store = store.observed) (keys : List Key) :
    (c.deleteAll keys w).2.trail = w.trail.after (keys.map .delete) := by
  induction keys generalizing w with
  | nil => simp [deleteAll]
  | cons key keys ih => simp [deleteAll, ih, trail_deleteOne hstore]

/-! ## Reads -/

/-- What looking a key up attempts. -/
def getAttempts (o : Options) (key : Key) : List Attempt := if o.bypass then [] else [.get key]

theorem trail_lookup (hstore : c.store = store.observed) (key : Key) :
    (c.lookup o τ key w).2.trail = w.trail.after (getAttempts o key) := by
  unfold lookup getAttempts
  split
  · simp
  · have hcall : (w.call (c.store.get key)).2.trail = w.trail.after [.get key] := by
      rw [hstore]
      exact World.trail_call w _ _
    rcases hget : w.call (c.store.get key) with ⟨answer, w'⟩
    rw [hget] at hcall
    match answer with
    | .ok none | .error e => exact hcall
    | .ok (some bytes) =>
        have hdecode := trail_decode (c := c) (τ := τ) (w := w') key bytes
        rcases hdecoded : c.decode τ key bytes w' with ⟨entry, w''⟩
        rw [hdecoded] at hdecode
        simp only [hdecoded]
        cases entry <;> exact hdecode.trans hcall

def bulkAttempts (o : Options) (keys : List Key) : List Attempt :=
  if o.bypass then [] else [.getMany keys]

theorem trail_fetch (hstore : c.store = store.observed) (b : Batch κ τ) :
    (c.fetch o b w).2.trail = w.trail.after (bulkAttempts o b.distinctKeys) := by
  unfold fetch bulkAttempts
  split
  · simp
  · have hcall : (w.call (c.store.getMany b.distinctKeys)).2.trail =
        w.trail.after [.getMany b.distinctKeys] := by
      rw [hstore]
      exact World.trail_call w _ _
    rcases hget : w.call (c.store.getMany b.distinctKeys) with ⟨answer, w'⟩
    rw [hget] at hcall
    cases answer with
    | error e => exact hcall
    | ok found => exact (trail_absorb _ _).trans hcall

end Cache

end CacheAside

import CacheAside.Cache.Invalidate
import CacheAside.Cache.Write
import CacheAside.Proofs.Keys
import CacheAside.Proofs.Trace

/-!
# The steps of a call

What a call does to the world between the points at which it can end. Up to the write-back it has
made no write.
-/

namespace CacheAside.Cache

variable {σ υ : Type} {κ τ : Kind} {c : Cache σ} {o : Options} {store : Store σ} {w : World σ υ}

/-! ## Entries and bytes -/

/-- The entry in some bytes, if they hold one. -/
def entryIn? (c : Cache σ) (τ : Kind) (bytes : Bytes) : Option (Entry τ) :=
  (c.codec.decode τ bytes).toOption

/-- The write of an optional value, if that has bytes. -/
def writeOf (c : Cache σ) (key : Key) (v : Option τ) (mode : WriteMode) : Option PendingWrite :=
  (c.codec.encodeOption v).toOption.map fun bytes => ⟨key, bytes, mode⟩

theorem fst_encode (key : Key) (v : Option τ) :
    (c.encode key v w).1 = (c.codec.encodeOption v).toOption := by
  unfold encode
  cases c.codec.encodeOption v with
  | ok bytes => rfl
  | error e => rfl

theorem noted_encode (key : Key) (v : Option τ) : store.Noted w (c.encode key v w).2 := by
  unfold encode
  cases c.codec.encodeOption v with
  | ok bytes => exact .refl w
  | error e => exact ⟨1, ((Store.Leads.refl w).log _).count _⟩

theorem fst_decode (key : Key) (bytes : Bytes) : (c.decode τ key bytes w).1 = c.entryIn? τ bytes := by
  unfold decode entryIn?
  cases c.codec.decode τ bytes with
  | ok entry => rfl
  | error e => rfl

theorem leads_decode (key : Key) (bytes : Bytes) :
    store.Leads [] id w (c.decode τ key bytes w).2 := by
  unfold decode
  cases c.codec.decode τ bytes with
  | ok entry => exact .refl w
  | error e => exact (Store.Leads.refl w).log _

/-! ## Writes to be made -/

/-- How it is written that a key has no value: over what is stored only if that was not read, or is
no entry. -/
def nullMode (o : Options) (stale : Key → Bool) (key : Key) : WriteMode :=
  if o.bypass || stale key then .overwrite else .ifAbsent

/-- The write for a key and its value. -/
def writeFor (c : Cache σ) (o : Options) (stale : Key → Bool) (key : Key) :
    Option τ → Option PendingWrite
  | some v => c.writeOf key (some v) .overwrite
  | none => if o.addNulls then c.writeOf key (none : Option τ) (nullMode o stale key) else none

/-- A write goes to the key that it is made for. -/
theorem key_of_writeOf {key : Key} {v : Option τ} {mode : WriteMode} {p : PendingWrite}
    (h : c.writeOf key v mode = some p) : p.key = key := by
  obtain ⟨bytes, -, rfl⟩ := Option.map_eq_some_iff.mp h
  rfl

theorem key_of_writeFor {key : Key} {v : Option τ} {stale : Key → Bool} {p : PendingWrite}
    (h : c.writeFor o stale key v = some p) : p.key = key := by
  unfold writeFor at h
  split at h
  · exact key_of_writeOf h
  · split at h
    · exact key_of_writeOf h
    · cases h

theorem fst_valueWrite (b : Batch κ τ) (key : Key) (v : Option τ) :
    (c.valueWrite o b key v w).1 = (c.writeFor o b.isUnreadable key v).toList := by
  cases v with
  | some v =>
      simp only [valueWrite, writeFor, writeOf, ← fst_encode (w := w) key (some v)]
      cases (c.encode key (some v) w).1 with
      | some bytes => rfl
      | none => rfl
  | none =>
      simp only [valueWrite, nullWrite, writeFor, writeOf]
      split
      · simp only [← fst_encode (w := w) key (none : Option τ), nullMode]
        cases (c.encode key (none : Option τ) w).1 with
        | some bytes => rfl
        | none => rfl
      · rfl

theorem noted_valueWrite (b : Batch κ τ) (key : Key) (v : Option τ) :
    store.Noted w (c.valueWrite o b key v w).2 := by
  cases v with
  | some v => exact noted_encode key (some v)
  | none =>
      simp only [valueWrite, nullWrite]
      split
      · exact noted_encode key none
      · exact .refl w

theorem fst_valueWrites (b : Batch κ τ) (pairs : List (Key × Option τ)) :
    (c.valueWrites o b pairs w).1 =
      pairs.filterMap fun p => c.writeFor o b.isUnreadable p.1 p.2 := by
  induction pairs generalizing w with
  | nil => rfl
  | cons p pairs ih =>
      obtain ⟨key, v⟩ := p
      simp only [valueWrites, ih, fst_valueWrite, List.filterMap_cons]
      cases c.writeFor o b.isUnreadable key v with
      | some write => rfl
      | none => rfl

theorem noted_valueWrites (b : Batch κ τ) (pairs : List (Key × Option τ)) :
    store.Noted w (c.valueWrites o b pairs w).2 := by
  induction pairs generalizing w with
  | nil => exact .refl w
  | cons p pairs ih => exact (noted_valueWrite b p.1 p.2).trans ih

/-- One value is written back as a list of one write, or of none if it has no bytes. -/
theorem storeValue_eq (key : Key) (v : Option τ) (mode : WriteMode) :
    c.storeValue o key v mode w =
      c.writeBack o (c.writeOf key v mode).toList (c.encode key v w).2 := by
  have hfst := fst_encode (c := c) (w := w) key v
  unfold storeValue writeOf
  rcases hencode : c.encode key v w with ⟨bytes, w'⟩
  rw [hencode] at hfst
  rw [← hfst]
  cases bytes with
  | some bytes => rfl
  | none => simp [writeBack]

/-! ## Making the writes -/

/-- The store call of a write. -/
def writeCall (ttl : UInt32) (p : PendingWrite) : StoreCall :=
  match p.mode with
  | .overwrite => .set p.key ttl
  | .ifAbsent => .add p.key ttl

theorem trace_applyWrite (ttl : UInt32) (p : PendingWrite) :
    store.Trace [writeCall ttl p] w.scene (applyWrite store ttl w p).scene := by
  obtain ⟨key, bytes, mode⟩ := p
  cases mode with
  | overwrite =>
      have hset : store.Trace [.set key ttl] w.scene (store.set key ttl bytes w.scene).2 :=
        (Store.Trace.refl w.scene).set key ttl bytes
      unfold applyWrite Store.setSilently
      rcases hcall : store.set key ttl bytes w.scene with ⟨answer, scene⟩
      rw [hcall] at hset
      cases answer with
      | ok u => exact hset
      | error e => exact hset.log (.setFailed key e)
  | ifAbsent =>
      have hadd : store.Trace [.add key ttl] w.scene (store.add key ttl bytes w.scene).2 :=
        (Store.Trace.refl w.scene).add key ttl bytes
      unfold applyWrite World.call
      rcases hcall : store.add key ttl bytes w.scene with ⟨answer, scene⟩
      rw [hcall] at hadd
      simp only
      cases answer with
      | ok added => exact hadd
      | error e => exact hadd.log (.addFailed key e)

/-- Each write of a job is one store call, in their order. -/
theorem trace_runJob (job : Job) :
    store.Trace (job.writes.map (writeCall job.ttl)) w.scene (runJob store w job).scene := by
  obtain ⟨writes, ttl⟩ := job
  simp only [runJob]
  induction writes generalizing w with
  | nil => exact .refl w.scene
  | cons p writes ih => exact (trace_applyWrite ttl p).trans ih

/-- Writes change the scene and the statistics alone. -/
theorem exists_runJob (store : Store σ) (job : Job) (w : World σ υ) :
    ∃ scene stats, runJob store w job = { w with scene, stats } := by
  obtain ⟨writes, ttl⟩ := job
  simp only [runJob]
  induction writes generalizing w with
  | nil => exact ⟨_, _, rfl⟩
  | cons p writes ih =>
      have hwrite : ∃ scene stats, applyWrite store ttl w p = { w with scene, stats } := by
        unfold applyWrite World.call
        split
        · exact ⟨_, _, rfl⟩
        · rcases store.add p.key ttl p.bytes w.scene with ⟨answer, scene⟩
          cases answer <;> exact ⟨_, _, rfl⟩
      obtain ⟨scene, stats, hwrite⟩ := hwrite
      rw [List.foldl_cons, hwrite]
      exact ih _

theorem pending_runJob (job : Job) : (runJob store w job).pending = w.pending := by
  obtain ⟨scene, stats, hjob⟩ := exists_runJob store job w
  rw [hjob]

theorem executor_runJob (job : Job) : (runJob store w job).executor = w.executor := by
  obtain ⟨scene, stats, hjob⟩ := exists_runJob store job w
  rw [hjob]

theorem writeBack_inline (hinline : o.writeBack = .inline) (writes : List PendingWrite) :
    c.writeBack o writes w = runJob c.store w ⟨writes, c.ttl o⟩ := by
  rw [writeBack]
  split
  · rename_i hnil
    subst hnil
    rfl
  · rw [hinline]

theorem trace_writeBack (hinline : o.writeBack = .inline) (writes : List PendingWrite) :
    c.store.Trace (writes.map (writeCall (c.ttl o))) w.scene (c.writeBack o writes w).scene := by
  rw [writeBack_inline hinline]
  exact trace_runJob ⟨writes, c.ttl o⟩

/-! ## Looking one key up -/

/-- The entry that the store answers for a key, if it is asked. -/
def recalledOne (c : Cache σ) (o : Options) (τ : Kind) (key : Key) (s : Scene σ) : Option (Entry τ) :=
  if o.bypass then none else (c.store.get key s).1.toOption.join.bind (c.entryIn? τ)

def getCalls (o : Options) (key : Key) : List StoreCall := if o.bypass then [] else [.get key]

theorem reaches_lookup (key : Key) :
    c.store.Reaches (getCalls o key) w (c.lookup o τ key w).2 := by
  unfold lookup getCalls
  split
  · exact .refl w
  · have hget : c.store.Leads [.get key] id w (w.call (c.store.get key)).2 := Store.leads_get key
    rcases hcall : w.call (c.store.get key) with ⟨answer, w'⟩
    rw [hcall] at hget
    match answer with
    | .ok none => exact hget.reaches
    | .error e => exact ((hget.log (.getFailed key e)).count Stats.addStoreError).reaches
    | .ok (some bytes) =>
        have hdecode : c.store.Leads [] id w' (c.decode τ key bytes w').2 := leads_decode key bytes
        rcases hdecoded : c.decode τ key bytes w' with ⟨entry, w''⟩
        rw [hdecoded] at hdecode
        simp only [hdecoded]
        cases entry with
        | none => exact (hget.trans hdecode).reaches
        | some e =>
            exact (((hget.trans hdecode).log (.hit key e.isNull)).count (Stats.addHits 1)).reaches

/-- The entry that has been found. -/
def Lookup.found? : Lookup τ → Option (Entry τ)
  | .hit entry => some entry
  | .miss _ => none

theorem found?_lookup (key : Key) :
    (c.lookup o τ key w).1.found? = c.recalledOne o τ key w.scene := by
  unfold lookup recalledOne
  split
  · rfl
  · have hanswer : (w.call (c.store.get key)).1 = (c.store.get key w.scene).1 := rfl
    rcases hcall : w.call (c.store.get key) with ⟨answer, w'⟩
    rw [hcall] at hanswer
    rw [← hanswer]
    match answer with
    | .ok none => rfl
    | .error e => rfl
    | .ok (some bytes) =>
        have hentry := fst_decode (c := c) (τ := τ) (w := w') key bytes
        rcases hdecoded : c.decode τ key bytes w' with ⟨entry, w''⟩
        rw [hdecoded] at hentry
        simp only [hdecoded, Except.toOption, Option.join_some, Option.bind_some, ← hentry]
        cases entry with
        | none => rfl
        | some e => rfl

/-! ## Deleting -/

theorem reaches_deleteOne (key : Key) :
    c.store.Reaches [.delete key] w (c.deleteOne key w).2 := by
  have hdelete : c.store.Leads [.delete key] id w (w.call (c.store.delete key)).2 :=
    Store.leads_delete key
  unfold deleteOne
  rcases hcall : w.call (c.store.delete key) with ⟨answer, w'⟩
  rw [hcall] at hdelete
  match answer with
  | .ok true => exact (hdelete.count Stats.addInvalidation).reaches
  | .ok false => exact hdelete.reaches
  | .error e => exact ((hdelete.log (.deleteFailed key e)).count Stats.addWriteFailure).reaches

theorem reaches_deleteAll (keys : List Key) :
    c.store.Reaches (keys.map .delete) w (c.deleteAll keys w).2 := by
  induction keys generalizing w with
  | nil => exact .refl w
  | cons key keys ih => exact (reaches_deleteOne key).trans ih

end CacheAside.Cache

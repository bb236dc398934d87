import CacheAside.Proofs.Acts

/-!
# Calls for one object as acts

Which act a call for one object comes to. A read depends on what can be read under its key, and on
nothing else that is stored; the other calls depend on nothing that is stored.
-/

namespace CacheAside

open Rig

/-! ## Data sources that answer each object on its own -/

section
variable {σ ε : Type} {κ τ : Kind}

/-- Answers one object, and keeps what was asked for. -/
def askOne (f : κ → Option τ) (x : κ) : Computation σ (List κ) ε (Option τ) := fun w =>
  (.ok (f x), { w with outside := w.outside ++ [x] })

/-- Answers a list of objects, and keeps what was asked for. -/
def askAll (f : κ → Option τ) (xs : List κ) : Computation σ (List κ) ε (List (Option τ)) := fun w =>
  (.ok (xs.map f), { w with outside := w.outside ++ xs })

theorem askOne_eq (f : κ → Option τ) (x : κ) (w : World σ (List κ)) :
    (askOne f x w : Except ε _ × _) = (.ok (f x), w.charge 0 [x]) := by
  simp [askOne, World.charge]

theorem askAll_eq (f : κ → Option τ) (xs : List κ) (w : World σ (List κ)) :
    (askAll f xs w : Except ε _ × _) = (.ok (xs.map f), w.charge 0 xs) := by
  simp [askAll, World.charge]

end

variable {κ τ : Kind} {ε : Type} {c : Cache Base} {o : Options} {ttl : UInt32} {x : κ} {key : Key}
  {f : κ → Option τ} {w : World Base (List κ)}

/-- A call that ends with the value of an act, and does no more. -/
def Act.Sums (act : Act κ τ) (ttl : UInt32) (outcome : Outcome Base (List κ) ε (Option τ))
    (w : World Base (List κ)) : Prop :=
  (outcome w).1 = .ok act.value ∧ (outcome w).2.bare = (performAll ttl [act] w).bare

namespace Cache

/-! ## What values and lookups cost -/

/-- What it costs to encode a value. -/
def encodeCost (c : Cache Base) (v : Option τ) : Stats :=
  match c.codec.encodeOption v with
  | .ok _ => 0
  | .error _ => Stats.addWriteFailure 0

theorem bare_encode (key : Key) (v : Option τ) :
    (c.encode key v w).2.bare = (w.charge (c.encodeCost v) []).bare := by
  unfold encode encodeCost
  cases c.codec.encodeOption v with
  | ok bytes => simp
  | error e => exact World.bare_log_count (.unencodable key e) Stats.isCharge_addWriteFailure

theorem bare_decode (key : Key) (bytes : Bytes) : (c.decode τ key bytes w).2.bare = w.bare := by
  unfold decode
  cases c.codec.decode τ bytes with
  | ok entry => rfl
  | error e => rfl

/-- What can be found where this can be read. -/
def found (c : Cache Base) (o : Options) (τ : Kind) (view : View) : Lookup τ :=
  if o.bypass then .miss true
  else if view.fails then .miss false
  else
    match view.bytes with
    | none => .miss false
    | some bytes =>
      match c.entryIn? τ bytes with
      | some entry => .hit entry
      | none => .miss true

/-- What the question to the store costs. -/
def failCost (o : Options) (fails : Bool) : Stats :=
  if o.bypass = false ∧ fails = true then Stats.addStoreError 0 else 0

def Lookup.hitCost : Lookup τ → Stats
  | .hit _ => Stats.addHits 1 0
  | .miss _ => 0

theorem lookup_eq_found (hstore : c.store = Base.store) (key : Key) :
    (c.lookup o τ key w).1 = c.found o τ (w.scene.view key) ∧
      (c.lookup o τ key w).2.bare = (w.charge (failCost o w.scene.contents.failsReads +
        (c.found o τ (w.scene.view key)).hitCost) []).bare := by
  unfold lookup found failCost
  cases hbypass : o.bypass with
  | true => simp [Lookup.hitCost]
  | false =>
      have hanswer : (w.call (c.store.get key)).1 = if (w.scene.view key).fails
          then .error (RecordingStore.injected "get") else .ok (w.scene.view key).bytes :=
        hstore ▸ Base.fst_get key
      have hafter : (w.call (c.store.get key)).2.bare = w.bare := by
        rw [World.bare, World.call, hstore, Base.bare_get]
        rfl
      rcases hcall : w.call (c.store.get key) with ⟨answer, w'⟩
      rw [hcall] at hanswer hafter
      have hfails : w.scene.contents.failsReads = (w.scene.view key).fails := rfl
      rw [hfails]
      generalize w.scene.view key = view at hanswer ⊢
      obtain ⟨fails, bytes⟩ := view
      simp only [Bool.false_eq_true, ↓reduceIte, true_and]
      cases fails with
      | true =>
          obtain rfl : answer = .error _ := hanswer
          refine ⟨rfl, ?_⟩
          rw [World.bare_log_count _ Stats.isCharge_addStoreError, World.bare_charge, hafter]
          simp [Lookup.hitCost, World.bare_charge]
      | false =>
          obtain rfl : answer = .ok bytes := hanswer
          cases bytes with
          | none => exact ⟨rfl, by simpa [Lookup.hitCost] using hafter⟩
          | some bytes =>
              have hentry := fst_decode (c := c) (τ := τ) (w := w') key bytes
              have hbare := bare_decode (c := c) (τ := τ) (w := w') key bytes
              rcases hdecode : c.decode τ key bytes w' with ⟨entry, w''⟩
              rw [hdecode] at hentry hbare
              simp only [hdecode, ← hentry]
              cases entry with
              | none => exact ⟨rfl, by simpa [Lookup.hitCost] using hbare.trans hafter⟩
              | some entry =>
                  refine ⟨rfl, ?_⟩
                  rw [World.bare_log_count _ (Stats.isCharge_addHits 1), World.bare_charge, hbare,
                    hafter]
                  simp [Lookup.hitCost, World.bare_charge]

/-! ## The acts -/

/-- The act of a call that goes past the cache. -/
def directAct (f : κ → Option τ) (x : κ) : Act κ τ := { value := f x, asked := some x }

/-- The act of a call that writes what the data source answers. -/
def writeAct (c : Cache Base) (f : κ → Option τ) (x : κ) (key : Key) : Act κ τ where
  value := f x
  cost := c.encodeCost (f x)
  asked := some x
  write := c.writeOf key (f x) .overwrite

/-- The act of a call that writes what the data source answers under its own key. -/
def resultAct (c : Cache Base) (f : κ → Option τ) (rowKey : τ → Key) (x : κ) : Act κ τ :=
  match f x with
  | some v => c.writeAct f x (rowKey v)
  | none => directAct f x

theorem resultAct_value (rowKey : τ → Key) (x : κ) : (c.resultAct f rowKey x).value = f x := by
  unfold resultAct
  split <;> rfl

theorem resultAct_asked (rowKey : τ → Key) (x : κ) : (c.resultAct f rowKey x).asked = some x := by
  unfold resultAct
  split <;> rfl

theorem resultAct_write (rowKey : τ → Key) (x : κ) : (c.resultAct f rowKey x).write =
    (f x).bind fun v => c.writeOf (rowKey v) (some v) .overwrite := by
  unfold resultAct
  split
  · rename_i v hv
    simp [writeAct, hv]
  · rename_i hv
    simp [directAct, hv]

/-- The act of a read, given what can be found. -/
def readAct (c : Cache Base) (f : κ → Option τ) (x : κ) (key : Key) : Lookup τ → Act κ τ
  | .hit entry => { value := entry.toOption, cost := Stats.addHits 1 0 }
  | .miss stale =>
    { value := f x, cost := Stats.addMisses 1 0 + c.encodeCost (f x), asked := some x
      write := c.writeOf key (f x) (if (f x).isSome || stale then .overwrite else .ifAbsent) }

theorem bare_storeValue (hstore : c.store = Base.store) (hinline : o.writeBack = .inline)
    (v : Option τ) (mode : WriteMode) : (c.storeValue o key v mode w).bare =
      (runJob Base.store (w.charge (c.encodeCost v) [])
        ⟨(c.writeOf key v mode).toList, c.ttl o⟩).bare := by
  rw [storeValue_eq, writeBack_inline hinline, hstore]
  exact runJob_congr (bare_encode key v)

theorem sums_direct : (directAct f x).Sums ttl (askOne f x : Computation _ _ ε _).direct w := by
  rw [Act.Sums, performAll_singleton]
  simp [Computation.direct, askOne_eq, directAct, runJob]

section
variable (hstore : c.store = Base.store) (hinline : o.writeBack = .inline)
  (henabled : c.config.disabled = false)
include hstore hinline henabled

theorem sums_write (hkey : c.keys.keyFor o.keyspace x = .ok key) :
    (c.writeAct f x key).Sums (c.ttl o) (c.write o x (askOne f x : Computation _ _ ε _)) w := by
  have hvalid : o.validate = .ok () := Options.validate_of_keyFor hkey
  rw [Act.Sums, performAll_singleton]
  simp only [write, henabled, hvalid, hkey, askOne_eq]
  refine ⟨rfl, ?_⟩
  simp only [Bool.false_eq_true, ↓reduceIte]
  rw [bare_storeValue hstore hinline, World.charge_charge]
  simp [writeAct]

theorem sums_writeByResult (hvalid : o.validate = .ok ())
    (hkind : c.registry.isRegistered τ = true) {rowKey : τ → Key}
    (hkey : ∀ v ∈ f x, c.keys.keyForResult o.keyspace v = .ok (rowKey v)) :
    (c.resultAct f rowKey x).Sums (c.ttl o)
      (c.writeByResult o (askOne f x : Computation _ _ ε _)) w := by
  have hcheck : c.checkResultKind τ = .ok () := if_pos hkind
  rw [Act.Sums, performAll_singleton, resultAct]
  simp only [writeByResult, henabled, hvalid, hcheck, askOne_eq]
  cases hv : f x with
  | none => simp [directAct, hv, runJob]
  | some v =>
      simp only [hkey v hv]
      refine ⟨congrArg _ hv.symm, ?_⟩
      simp only [Bool.false_eq_true, ↓reduceIte]
      rw [bare_storeValue hstore hinline, World.charge_charge]
      simp [writeAct, hv]

theorem sums_read (hposition : o.keysFromResults = false)
    (hkey : c.keys.keyFor o.keyspace x = .ok key) :
    ((c.readAct f x key (c.found o τ (w.scene.view key))).paying
      (failCost o w.scene.contents.failsReads)).Sums (c.ttl o)
      (c.read o x (askOne f x : Computation _ _ ε _)) w := by
  have hvalid : o.validate = .ok () := Options.validate_of_keyFor hkey
  obtain ⟨hfound, hbare⟩ := lookup_eq_found (o := o) (τ := τ) (w := w) hstore key
  rw [Act.Sums, performAll_singleton]
  simp only [read, henabled, hvalid, hkey, hposition]
  rcases hlookup : c.lookup o τ key w with ⟨answer, w'⟩
  rw [hlookup] at hfound hbare
  rw [← hfound] at hbare ⊢
  cases answer with
  | hit entry => exact ⟨rfl, hbare⟩
  | miss stale =>
      refine ⟨rfl, ?_⟩
      simp only [Bool.false_eq_true, ↓reduceIte, askOne_eq]
      rw [bare_storeValue hstore hinline]
      refine runJob_congr ?_
      rw [World.count_eq_charge (Stats.isCharge_addMisses 1)]
      simp only [World.charge_charge, World.bare_charge, hbare, readAct, Act.paying]
      simp [Lookup.hitCost]

end

end Cache

end CacheAside

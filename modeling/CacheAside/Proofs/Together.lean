import CacheAside.Proofs.Rows
import CacheAside.Proofs.Singles

/-!
# Calls for many objects as acts

A call that writes for many objects with a key each comes to the acts of the calls for one object.
-/

namespace CacheAside

open Rig

variable {κ τ : Kind} {ε : Type} {c : Cache Base} {o : Options} {ttl : UInt32} {xs : List κ}
  {keyOf : κ → Key} {f : κ → Option τ} {v w : World Base (List κ)}

/-- As `Act.Sums`, for a call that comes to several acts. -/
def SumUp (acts : List (Act κ τ)) (ttl : UInt32)
    (outcome : Outcome Base (List κ) ε (List (Option τ))) (w : World Base (List κ)) : Prop :=
  (outcome w).1 = .ok (acts.map (·.value)) ∧ (outcome w).2.bare = (performAll ttl acts w).bare

namespace Cache

theorem sumUp_direct (ttl : UInt32) :
    SumUp (xs.map (directAct f)) ttl (askAll f xs : Computation _ _ ε _).direct w := by
  rw [SumUp, performAll_map]
  simp [Computation.direct, askAll_eq, directAct, runJob, Function.comp_def]

/-! ## Writing -/

/-- What it costs to encode some values. -/
def encodeCosts (c : Cache Base) (vs : List (Option τ)) : Stats := (vs.map c.encodeCost).sum

theorem encodeCosts_cons (v : Option τ) (vs : List (Option τ)) :
    c.encodeCosts (v :: vs) = c.encodeCost v + c.encodeCosts vs := List.sum_cons

/-- Pairs with a key each give a write each. -/
theorem firstWrites_of_nodup (hnulls : o.addNulls = true) :
    ∀ (pairs : List (Key × Option τ)) {seen : List Key} {w : World Base (List κ)},
    (pairs.map (·.1)).Nodup → (∀ p ∈ pairs, p.1 ∉ seen) →
    (c.firstWrites o pairs seen w).1 = pairs.filterMap (fun p => c.writeOf p.1 p.2 .overwrite) ∧
      (c.firstWrites o pairs seen w).2.bare =
        (w.charge (c.encodeCosts (pairs.map (·.2))) []).bare
  | [], _, w, _, _ => by simp [firstWrites, encodeCosts]
  | (key, v) :: pairs, seen, w, hnodup, hseen => by
      obtain ⟨hkey, hnodup⟩ := List.nodup_cons.mp hnodup
      -- No key is seen twice, so none of the pairs is passed over.
      have hrest : ∀ p ∈ pairs, p.1 ∉ key :: seen := fun p hp => by
        rw [List.mem_cons, not_or]
        exact ⟨fun h => hkey (List.mem_map.mpr ⟨p, hp, h⟩), hseen p (List.mem_cons_of_mem _ hp)⟩
      obtain ⟨hwrites, hbare⟩ := firstWrites_of_nodup hnulls pairs
        (w := (c.encode key v w).2) hnodup hrest
      have hfst := fst_encode (c := c) (w := w) key v
      have hencode := bare_encode (c := c) (w := w) key v
      rw [firstWrites, if_neg (hseen (key, v) List.mem_cons_self)]
      simp only [hnulls, Bool.not_true, Bool.and_false, Bool.false_eq_true, ↓reduceIte, hwrites,
        hbare, hfst, World.bare_charge, hencode]
      refine ⟨?_, ?_⟩
      · rw [List.filterMap_cons, writeOf]
        cases (c.codec.encodeOption v).toOption with
        | some bytes => rfl
        | none => rfl
      · rw [World.charge_charge, List.map_cons, encodeCosts_cons, List.append_nil]

/-- Rows with a key each are encoded each. -/
theorem bare_collectRows {ns : String} {rowKey : τ → Key} :
    ∀ {vs : List τ} (done : Rows τ) {w : World Base (List κ)},
    (∀ v ∈ vs, c.keys.keyForResult ns v = .ok (rowKey v)) → (vs.map rowKey).Nodup →
    (∀ v ∈ vs, rowKey v ∉ done.keys) →
    (c.collectRows ns (fun _ w => w) vs done w).2.bare =
      (w.charge (c.encodeCosts (vs.map some)) []).bare
  | [], _, w, _, _, _ => by simp [collectRows, encodeCosts]
  | v :: vs, done, w, hkeys, hnodup, hdone => by
      obtain ⟨hkey, hnodup⟩ := List.nodup_cons.mp hnodup
      have hrest (bytes : Option Bytes) : ∀ u ∈ vs, rowKey u ∉ (done.add (rowKey v) v bytes).keys :=
        fun u hu => by
          rw [keys_add, List.mem_append, List.mem_singleton, not_or]
          exact ⟨hdone u (List.mem_cons_of_mem _ hu), fun h => hkey (h ▸ List.mem_map_of_mem hu)⟩
      simp only [collectRows, hkeys v List.mem_cons_self, if_neg (hdone v List.mem_cons_self)]
      rw [bare_collectRows _ (fun u hu => hkeys u (List.mem_cons_of_mem _ hu)) hnodup (hrest _),
        World.bare_charge, bare_encode, ← World.bare_charge, World.charge_charge, List.map_cons,
        encodeCosts_cons, List.append_nil]

theorem sum_resultCosts (rowKey : τ → Key) (xs : List κ) :
    (xs.map fun x => (c.resultAct f rowKey x).cost).sum =
      c.encodeCosts ((xs.filterMap f).map some) := by
  induction xs with
  | nil => rfl
  | cons x xs ih =>
      rw [List.map_cons, List.sum_cons, ih, List.filterMap_cons, resultAct]
      cases hv : f x with
      | some v => simp [writeAct, hv, encodeCosts_cons]
      | none => simp [directAct]

section
variable (hstore : c.store = Base.store) (hinline : o.writeBack = .inline)
  (henabled : c.config.disabled = false)
include hstore hinline henabled

theorem sumUp_writeMany (hnulls : o.addNulls = true) (hvalid : o.validate = .ok ())
    (hkeys : ∀ x ∈ xs, c.keys.keyFor o.keyspace x = .ok (keyOf x)) (hnodup : (xs.map keyOf).Nodup) :
    SumUp (xs.map fun x => c.writeAct f x (keyOf x)) (c.ttl o)
      (c.writeMany o xs (askAll f xs : Computation _ _ ε _)) w := by
  have hpairs : (xs.map keyOf).zip (xs.map f) = xs.map fun x => (keyOf x, f x) := List.zip_map'
  obtain ⟨hwrites, hbare⟩ := firstWrites_of_nodup (c := c) (w := w.charge 0 xs) hnulls
    (xs.map fun x => (keyOf x, f x)) (by rwa [List.map_map]) fun _ _ => List.not_mem_nil
  rw [SumUp, performAll_map]
  simp only [writeMany, henabled, hvalid, keysFor_eq_ok hkeys, askAll_eq, List.length_map, hpairs]
  simp only [Bool.false_eq_true, ↓reduceIte]
  refine ⟨by rw [List.map_map]; rfl, ?_⟩
  rw [writeBack_inline hinline, hstore, hwrites, List.filterMap_map]
  refine runJob_congr (hbare.trans ?_)
  simp [writeAct, encodeCosts, Function.comp_def]

theorem sumUp_writeManyByResult (hvalid : o.validate = .ok ())
    (hkind : c.registry.isRegistered τ = true) {rowKey : τ → Key}
    (hkeys : ∀ v ∈ xs.filterMap f, c.keys.keyForResult o.keyspace v = .ok (rowKey v))
    (hnodup : ((xs.filterMap f).map rowKey).Nodup) :
    SumUp (xs.map (c.resultAct f rowKey)) (c.ttl o)
      (c.writeManyByResult o (askAll f xs : Computation _ _ ε _)) w := by
  have hcheck : c.checkResultKind τ = .ok () := if_pos hkind
  have hrows : (xs.map f).filterMap id = xs.filterMap f := by rw [List.filterMap_map]; rfl
  have hnote : ∀ (_ : Key) (w : World Base (List κ)), Base.store.Noted w w := fun _ w => .refl w
  obtain ⟨w', -, hcollect⟩ := collectRows_of_keyed hnote (w.charge 0 xs) hkeys
  have hbare := bare_collectRows {} (w := w.charge 0 xs) hkeys hnodup
    fun _ _ => List.not_mem_nil
  rw [hcollect] at hbare
  rw [firsts_of_nodup hnodup] at hcollect
  rw [SumUp, performAll_map]
  simp only [writeManyByResult, henabled, hvalid, hcheck, askAll_eq, hrows, hcollect]
  simp only [Bool.false_eq_true, ↓reduceIte, resultAct_asked, resultAct_write, sum_resultCosts]
  refine ⟨by simp [resultAct_value], ?_⟩
  rw [writeBack_inline hinline, hstore, rowWrites, List.filterMap_filterMap]
  refine runJob_congr (hbare.trans ?_)
  simp

end

end Cache

end CacheAside

import CacheAside.Proofs.Firsts
import CacheAside.Proofs.Steps

/-!
# Collecting rows

Rows whose keys are all valid are reduced to the first of each key, in their order, and give one
write each. Otherwise the first row without a valid key ends the collection, and nothing is kept.
-/

namespace CacheAside

theorem find?_firsts {α β : Type} [DecidableEq β] (g : α → β) (l : List α) (b : β) :
    (firsts g l).find? (g · == b) = l.find? (g · == b) := by
  induction l using firsts_induction g with
  | nil => rfl
  | cons a l ih =>
      rw [firsts_cons, List.find?_cons, List.find?_cons]
      by_cases hb : b = g a
      · simp [hb]
      · rw [ih, find?_filter_mark hb]

theorem isSome_find?_mark {α β : Type} [DecidableEq β] (g : α → β) (l : List α) (b : β) :
    (l.find? (g · == b)).isSome = decide (b ∈ l.map g) := by
  rw [Bool.eq_iff_iff, List.find?_isSome]
  simp

theorem lookup_map_mark {α : Type} (g : α → Key) (key : Key) (l : List α) :
    (l.map fun v => (g v, v)).lookup key = l.find? (g · == key) := by
  induction l with
  | nil => rfl
  | cons v l ih =>
      rw [List.map_cons, List.lookup_cons, List.find?_cons, ih]
      by_cases hv : key = g v
      · simp [hv]
      · simp [beq_false_of_ne hv, beq_false_of_ne (Ne.symm hv)]

namespace Cache

variable {σ υ : Type} {τ : Kind} {c : Cache σ} {ns : String} {store : Store σ}
  {note : Key → World σ υ → World σ υ}

/-- The writes for rows with their own keys. -/
def rowWrites (c : Cache σ) (rowKey : τ → Key) (rows : List τ) : List PendingWrite :=
  rows.filterMap fun v => c.writeOf (rowKey v) (some v) .overwrite

theorem rowWrites_cons (rowKey : τ → Key) (v : τ) (rows : List τ) :
    c.rowWrites rowKey (v :: rows) =
      (c.writeOf (rowKey v) (some v) .overwrite).toList ++ c.rowWrites rowKey rows := by
  rw [rowWrites, List.filterMap_cons]
  cases c.writeOf (rowKey v) (some v) .overwrite with
  | some p => rfl
  | none => rfl

theorem keys_add (done : Rows τ) (key : Key) (v : τ) (bytes : Option Bytes) :
    (done.add key v bytes).keys = done.keys ++ [key] := by simp [Rows.keys, Rows.add]

theorem mem_keys_add (done : Rows τ) (key : Key) (v : τ) (bytes : Option Bytes) (j : Key) :
    j ∈ (done.add key v bytes).keys ↔ j ∈ done.keys ∨ j = key := by simp [keys_add]

theorem rows_add (done : Rows τ) (key : Key) (v : τ) (bytes : Option Bytes) :
    (done.add key v bytes).rows = done.rows ++ [(key, v)] := rfl

theorem writes_add (done : Rows τ) (key : Key) (v : τ) (w : World σ υ) :
    (done.add key v (c.encode key (some v) w).1).writes =
      done.writes ++ (c.writeOf key (some v) .overwrite).toList := by
  rw [fst_encode, writeOf]
  cases (c.codec.encodeOption (some v)).toOption with
  | some bytes => rfl
  | none => rfl

theorem collectRows_eq_ok (hnote : ∀ key w, store.Noted w (note key w)) {rowKey : τ → Key} :
    ∀ {vs : List τ} (done : Rows τ) (w : World σ υ),
    (∀ v ∈ vs, c.keys.keyForResult ns v = .ok (rowKey v)) →
    ∃ w', store.Noted w w' ∧ c.collectRows ns note vs done w =
      let rows := firsts rowKey (vs.filter fun v => decide (rowKey v ∉ done.keys))
      (.ok ⟨done.rows ++ rows.map fun v => (rowKey v, v),
        done.writes ++ c.rowWrites rowKey rows⟩, w')
  | [], done, w, _ => ⟨w, .refl w, by simp [collectRows, rowWrites]⟩
  | v :: vs, done, w, hvs => by
      have hv := hvs v List.mem_cons_self
      have htail : ∀ u ∈ vs, c.keys.keyForResult ns u = .ok (rowKey u) :=
        fun u hu => hvs u (List.mem_cons_of_mem _ hu)
      by_cases hmem : rowKey v ∈ done.keys
      · obtain ⟨w', hw', heq⟩ := collectRows_eq_ok hnote done w htail
        refine ⟨w', hw', ?_⟩
        simp only [collectRows, hv, if_pos hmem, heq]
        simp [hmem]
      · obtain ⟨w', hw', heq⟩ := collectRows_eq_ok hnote (done.add (rowKey v) v
          (c.encode (rowKey v) (some v) w).1) (note (rowKey v) (c.encode (rowKey v) (some v) w).2)
          htail
        refine ⟨w', ((noted_encode _ _).trans (hnote _ _)).trans hw', ?_⟩
        simp only [collectRows, hv, if_neg hmem, heq]
        rw [firsts_filter_cons hmem (mem_keys_add done (rowKey v) v _), List.map_cons,
          rowWrites_cons, writes_add, rows_add, List.append_assoc, List.append_assoc]
        rfl

theorem collectRows_of_keyed (hnote : ∀ key w, store.Noted w (note key w)) (w : World σ υ)
    {rowKey : τ → Key} {vs : List τ} (h : ∀ v ∈ vs, c.keys.keyForResult ns v = .ok (rowKey v)) :
    ∃ w', store.Noted w w' ∧ c.collectRows ns note vs {} w =
      (.ok ⟨(firsts rowKey vs).map fun v => (rowKey v, v), c.rowWrites rowKey (firsts rowKey vs)⟩,
        w') := by
  obtain ⟨w', hw', heq⟩ := collectRows_eq_ok hnote {} w h
  exact ⟨w', hw', by simpa [Rows.keys] using heq⟩

theorem collectRows_eq_error (hnote : ∀ key w, store.Noted w (note key w)) {e : ConfigError} :
    ∀ {vs : List τ} (done : Rows τ) (w : World σ υ),
    vs.mapM (c.keys.keyForResult ns) = .error e →
    ∃ w', store.Noted w w' ∧ c.collectRows ns note vs done w = (.error e, w')
  | [], done, w, h => by cases h
  | v :: vs, done, w, h => by
      rw [List.mapM_cons] at h
      cases hv : c.keys.keyForResult ns v with
      | error e' =>
          rw [hv] at h
          cases h
          exact ⟨w, .refl w, by simp only [collectRows, hv]⟩
      | ok key =>
          have htail : vs.mapM (c.keys.keyForResult ns) = .error e := by
            rw [hv] at h
            cases hvs : vs.mapM (c.keys.keyForResult ns) with
            | error e' => rw [hvs] at h; cases h; rfl
            | ok keys => rw [hvs] at h; cases h
          by_cases hmem : key ∈ done.keys
          · obtain ⟨w', hw', heq⟩ := collectRows_eq_error hnote done w htail
            exact ⟨w', hw', by simp only [collectRows, hv, if_pos hmem, heq]⟩
          · obtain ⟨w', hw', heq⟩ := collectRows_eq_error hnote
              (done.add key v (c.encode key (some v) w).1) (note key (c.encode key (some v) w).2)
              htail
            exact ⟨w', ((noted_encode _ _).trans (hnote _ _)).trans hw',
              by simp only [collectRows, hv, if_neg hmem, heq]⟩

end Cache

end CacheAside

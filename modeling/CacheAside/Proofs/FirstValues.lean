import CacheAside.Proofs.Rows

/-!
# First values

Of several values for one key the first is the one that a call writes. What a batch writes is a
function of its different keys and of the first value of each.
-/

namespace CacheAside

variable {α β : Type}

theorem lookup_eq_find? (key : Key) (l : List (Key × α)) :
    l.lookup key = (l.find? (·.1 == key)).map (·.2) := by
  induction l with
  | nil => rfl
  | cons p l ih =>
      rw [List.lookup_cons, List.find?_cons, ih]
      by_cases hp : key = p.1
      · simp [hp]
      · simp [beq_false_of_ne hp, beq_false_of_ne (Ne.symm hp)]

theorem mem_of_lookup {key : Key} {a : α} {l : List (Key × α)} (h : l.lookup key = some a) :
    (key, a) ∈ l := by
  obtain ⟨before, after, rfl, -⟩ := List.lookup_eq_some_iff.mp h
  simp

/-- To go through the first pair of each key is to go through the keys and look each up. -/
theorem filterMap_firsts (f : Key → α → Option β) (l : List (Key × α)) :
    (firsts Prod.fst l).filterMap (fun p => f p.1 p.2) =
      (l.map (·.1)).eraseDups.filterMap fun key => (l.lookup key).bind (f key) := by
  rw [← map_firsts, List.filterMap_map]
  refine List.filterMap_congr fun p hp => ?_
  rw [Function.comp_apply, lookup_eq_find?, find?_of_mem_firsts hp, Option.map_some,
    Option.bind_some]

namespace Cache

variable {σ υ : Type} {τ : Kind} {c : Cache σ} {o : Options}

/-- The write for a key and its value, over whatever is stored. -/
def writeOver (c : Cache σ) (o : Options) (key : Key) (v : Option τ) : Option PendingWrite :=
  c.writeFor o (fun _ => true) key v

theorem writeOver_eq (key : Key) (v : Option τ) :
    c.writeOver o key v =
      if v.isNone && !o.addNulls then none else c.writeOf key v .overwrite := by
  cases v with
  | some v => rfl
  | none => cases hnulls : o.addNulls <;> simp [writeOver, writeFor, nullMode, hnulls]

/-- Of the pairs whose key has not been seen, the first of each key is written. -/
theorem fst_firstWrites : ∀ (pairs : List (Key × Option τ)) (seen : List Key) (w : World σ υ),
    (c.firstWrites o pairs seen w).1 = (firsts Prod.fst
      (pairs.filter fun p => decide (p.1 ∉ seen))).filterMap fun p => c.writeOver o p.1 p.2
  | [], _, _ => rfl
  | (key, v) :: pairs, seen, w => by
      by_cases hseen : key ∈ seen
      · rw [firstWrites, if_pos hseen, List.filter_cons_of_neg (by simpa using hseen)]
        exact fst_firstWrites pairs seen w
      · -- From here on the key counts as seen.
        have hseen' (j : Key) : j ∈ key :: seen ↔ j ∈ seen ∨ j = key := by
          rw [List.mem_cons, or_comm]
        rw [firstWrites, if_neg hseen, firsts_filter_cons hseen hseen', List.filterMap_cons,
          writeOver_eq]
        split
        · exact fst_firstWrites pairs (key :: seen) _
        · simp only [fst_firstWrites, fst_encode, writeOf]
          cases (c.codec.encodeOption v).toOption with
          | some bytes => rfl
          | none => rfl

/-- For each key the write of its first value. -/
theorem firstWrites_eq (pairs : List (Key × Option τ)) (w : World σ υ) :
    (c.firstWrites o pairs [] w).1 = (pairs.map (·.1)).eraseDups.filterMap fun key =>
      (pairs.lookup key).bind (c.writeOver o key) := by
  rw [fst_firstWrites, ← filterMap_firsts]
  simp

/-- Rows give the same writes as pairs of their keys and themselves. -/
theorem rowWrites_eq (rowKey : τ → Key) (rows : List τ) :
    c.rowWrites rowKey (firsts rowKey rows) = (rows.map rowKey).eraseDups.filterMap fun key =>
      ((rows.map fun v => (rowKey v, some v)).lookup key).bind (c.writeOver o key) := by
  have hpairs := filterMap_firsts (c.writeOver o) (rows.map fun v => (rowKey v, some v))
  rw [firsts_map, List.filterMap_map, List.map_map] at hpairs
  exact hpairs

end Cache

end CacheAside

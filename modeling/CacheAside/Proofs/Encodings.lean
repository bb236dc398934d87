import CacheAside.Proofs.FirstValues
import CacheAside.Proofs.Hits

/-!
# Values without bytes, bytes without an entry

Which values of an answer are to be put into bytes, said of the answer alone, and data sources that
tally those of them that have no bytes. Which bytes a request is to take entries from, said of what
the store answers for the keys that it looks up.
-/

namespace CacheAside

/-- Values with those that are null left out, unless nulls are to be written. -/
def toWrite {τ : Kind} (o : Options) (vs : List (Option τ)) : List (Option τ) :=
  vs.filter fun v => v.isSome || o.addNulls

theorem toWrite_cons {τ : Kind} (o : Options) (v : Option τ) (vs : List (Option τ)) :
    toWrite o (v :: vs) = toWrite o [v] ++ toWrite o vs := List.filter_append [v] vs

theorem toWrite_singleton {τ : Kind} (o : Options) (v : Option τ) :
    toWrite o [v] = if v.isNone && !o.addNulls then [] else [v] := by
  cases v <;> cases hnulls : o.addNulls <;> simp [toWrite, hnulls]

namespace Cache

variable {σ υ : Type} {κ τ : Kind} {c : Cache σ} {o : Options}

/-- The number of values without bytes. -/
def unencoded (c : Cache σ) (vs : List (Option τ)) : Nat :=
  vs.countP fun v => !(c.codec.encodeOption v).isOk

theorem unencoded_cons (c : Cache σ) (v : Option τ) (vs : List (Option τ)) :
    c.unencoded (v :: vs) = c.unencoded vs + c.unencoded [v] := by
  rw [unencoded, unencoded, unencoded, List.countP_cons, List.countP_singleton]

theorem unencoded_append (c : Cache σ) (vs vs' : List (Option τ)) :
    c.unencoded (vs ++ vs') = c.unencoded vs + c.unencoded vs' := List.countP_append

theorem unencoded_of_ok (c : Cache σ) {v : Option τ} {bytes : Bytes}
    (h : c.codec.encodeOption v = .ok bytes) : c.unencoded [v] = 0 := by
  rw [unencoded, List.countP_singleton, h]
  rfl

theorem unencoded_of_error (c : Cache σ) {v : Option τ} {e : CodecError}
    (h : c.codec.encodeOption v = .error e) : c.unencoded [v] = 1 := by
  rw [unencoded, List.countP_singleton, h]
  rfl

/-- The number of those among some bytes that hold no entry. -/
def undecodable (c : Cache σ) (τ : Kind) (found : List Bytes) : Nat :=
  found.countP fun bytes => (c.entryIn? τ bytes).isNone

theorem undecodable_cons (c : Cache σ) (bytes : Bytes) (found : List Bytes) :
    c.undecodable τ (bytes :: found) = c.undecodable τ [bytes] + c.undecodable τ found :=
  @List.countP_append _ _ [bytes] found

/-- The bytes that the store answers for a key, if it is asked. -/
def answerOne (c : Cache σ) (o : Options) (key : Key) (s : Scene σ) : Option Bytes :=
  if o.bypass then none else (c.store.get key s).1.toOption.join

/-- Of rows up to one without a valid key the first of each key. -/
def rowsToWrite (c : Cache σ) (o : Options) (rows : List τ) : List (Option τ) :=
  (firsts (c.keys.keyForResult o.keyspace)
    (rows.takeWhile fun row => (c.keys.keyForResult o.keyspace row).isOk)).map some

theorem rowsToWrite_singleton (c : Cache σ) (o : Options) (row : τ) :
    c.rowsToWrite o [row] =
      match c.keys.keyForResult o.keyspace row with
      | .ok _ => [some row]
      | .error _ => [] := by
  unfold rowsToWrite
  cases hkey : c.keys.keyForResult o.keyspace row with
  | ok key =>
      rw [List.takeWhile_cons_of_pos (by rw [hkey]; rfl)]
      rfl
  | error e =>
      rw [List.takeWhile_cons_of_neg (by simp [hkey, Except.isOk, Except.toBool])]
      rfl

/-- Of results for objects the first for each key, unless they differ in number. -/
def resultsToWrite (c : Cache σ) (o : Options) (xs : List κ) (results : List (Option τ)) :
    List (Option τ) :=
  if results.length = xs.length then
    toWrite o ((firsts (fun p => c.keys.keyFor o.keyspace p.1) (xs.zip results)).map (·.2))
  else []

theorem resultsToWrite_eq {xs : List κ} {keyOf : κ → Key}
    (hkeys : ∀ x ∈ xs, c.keys.keyFor o.keyspace x = .ok (keyOf x)) {results : List (Option τ)}
    (hlength : results.length = xs.length) : c.resultsToWrite o xs results =
      toWrite o ((firsts Prod.fst ((xs.map keyOf).zip results)).map (·.2)) := by
  have hmarks : ∀ p ∈ xs.zip results, ∀ q ∈ xs.zip results,
      c.keys.keyFor o.keyspace p.1 = c.keys.keyFor o.keyspace q.1 ↔
        (Prod.fst ∘ Prod.map keyOf id) p = (Prod.fst ∘ Prod.map keyOf id) q := by
    intro p hp q hq
    rw [hkeys p.1 (List.of_mem_zip hp).1, hkeys q.1 (List.of_mem_zip hq).1]
    simp
  rw [resultsToWrite, if_pos hlength, List.zip_map_left, firsts_map, List.map_map,
    firsts_congr hmarks]
  rfl

/-- The null entries for objects whose keys no row has, if all rows have valid keys. -/
def nullsToWrite (c : Cache σ) (o : Options) (asked : List κ) (rows : List τ) :
    List (Option τ) :=
  let rowKeys := rows.map (c.keys.keyForResult o.keyspace)
  if rowKeys.all (·.isOk) then
    toWrite o ((asked.filter fun x => !rowKeys.contains (c.keys.keyFor o.keyspace x)).map
      fun _ => none)
  else []

/-- The results of a batch read by the keys of the results, or by position if their number is that
of the objects asked for. -/
def readToWrite (c : Cache σ) (o : Options) (asked : List κ) (results : List (Option τ)) :
    List (Option τ) :=
  if o.keysFromResults then
    c.rowsToWrite o (results.filterMap id) ++ c.nullsToWrite o asked (results.filterMap id)
  else if results.length = asked.length then toWrite o results
  else []

end Cache

/-! ## What the store answers -/

/-- The values that a table has for different keys, in the order of the table. -/
theorem perm_filterMap_find? {α : Type} (t : Table α) {keys : List Key} (h : keys.Nodup) :
    ((t.entries.filter fun e => decide (e.1 ∈ keys)).map (·.2)).Perm (keys.filterMap t.find?) := by
  have hentries : t.entries.Nodup := by
    refine t.sorted.imp ?_
    rintro e _ hlt rfl
    exact Key.lt_irrefl e.1 hlt
  have hpairs : (keys.filterMap fun key => (t.find? key).map fun a => (key, a)).Nodup := by
    refine h.filterMap fun j k p hj hk => ?_
    obtain ⟨a, -, rfl⟩ := Option.map_eq_some_iff.mp hj
    obtain ⟨b, -, hp⟩ := Option.map_eq_some_iff.mp hk
    exact (congrArg Prod.fst hp).symm
  have hperm : (t.entries.filter fun e => decide (e.1 ∈ keys)).Perm
      (keys.filterMap fun key => (t.find? key).map fun a => (key, a)) := by
    refine (List.perm_ext_iff_of_nodup (hentries.filter _) hpairs).mpr fun e => ?_
    obtain ⟨key, a⟩ := e
    simp [← Table.find?_eq_some, and_comm]
  simpa [List.map_filterMap, Function.comp_def] using hperm.map (·.2)

namespace Request

variable {σ υ ε ρ : Type} {κ τ : Kind}

/-- The bytes that the store answers for the keys that a request looks up. -/
def answered (c : Cache σ) (r : Request σ υ ε ρ κ τ) (s : Scene σ) : List Bytes :=
  match r with
  | .read o _ _ => (r.lookups c).filterMap fun key => c.answerOne o key s
  | .readMany o _ _ => (r.lookups c).filterMap fun key =>
    (c.bulkAnswer o (r.lookups c) s).bind (·.find? key)
  | _ => []

/-- The number of those that hold no entry. -/
def undecodable (c : Cache σ) (r : Request σ υ ε ρ κ τ) (s : Scene σ) : Nat :=
  c.undecodable τ (r.answered c s)

theorem undecodable_of_not_lookups {c : Cache σ} {r : Request σ υ ε ρ κ τ}
    (h : r.lookups c = []) (s : Scene σ) : r.undecodable c s = 0 := by
  cases r with
  | read | readMany => simp [undecodable, answered, h, Cache.undecodable]
  | _ => rfl

end Request

/-- The number of keys that some turns look up and the store answers with bytes without an entry. -/
def Turn.undecodable {σ υ ε ρ : Type} (c : Cache σ) (turns : List (Turn σ υ ε ρ))
    (w : World σ υ) : Nat :=
  total c (fun r s => r.undecodable c s) turns w

/-! ## Data sources that tally -/

section
variable {σ υ ε ρ α : Type} {κ τ : Kind}

/-- A computation that adds to a tally what its answer counts, besides what it keeps for itself. -/
def Computation.tallying (count : α → Nat) (compute : Computation σ υ ε α) :
    Computation σ (υ × Nat) ε α := fun w =>
  let (answer, w') := compute (w.withOutside w.outside.1)
  (answer, w'.withOutside (w'.outside, w.outside.2 + (answer.map count).toOption.getD 0))

/-- The same request with a data source that tallies the values without bytes among those that are
to be written. -/
def Request.tallying (c : Cache σ) : Request σ υ ε ρ κ τ → Request σ (υ × Nat) ε ρ κ τ
  | .read o x compute => .read o x (compute.tallying fun v => c.unencoded [v])
  | .readMany o xs source => .readMany o xs fun asked =>
    (source asked).tallying fun results => c.unencoded (c.readToWrite o asked results)
  | .write o x compute => .write o x (compute.tallying fun v => c.unencoded [v])
  | .writeMany o xs compute => .writeMany o xs
    (compute.tallying fun results => c.unencoded (c.resultsToWrite o xs results))
  | .writeByResult o compute =>
    .writeByResult o (compute.tallying fun v => c.unencoded (c.rowsToWrite o v.toList))
  | .writeManyByResult o compute => .writeManyByResult o
    (compute.tallying fun results => c.unencoded (c.rowsToWrite o (results.filterMap id)))
  | .invalidate o x => .invalidate o x
  | .invalidateMany o xs => .invalidateMany o xs
  | .invalidateAround o x timing compute =>
    .invalidateAround o x timing (compute.tallying fun _ => 0)
  | .invalidateManyAround o xs timing compute =>
    .invalidateManyAround o xs timing (compute.tallying fun _ => 0)
  | .invalidateByResult o compute => .invalidateByResult o (compute.tallying fun _ => 0)
  | .invalidateManyByResult o compute => .invalidateManyByResult o (compute.tallying fun _ => 0)

theorem Request.Sources.tallying {P : ∀ {α : Type}, Computation σ υ ε α → Prop}
    {r : Request σ υ ε ρ κ τ} (h : r.Sources P)
    {Q : ∀ {α : Type}, Computation σ (υ × Nat) ε α → Prop}
    (hPQ : ∀ {α : Type} (compute : Computation σ υ ε α) (count : α → Nat), P compute →
      Q (compute.tallying count)) (c : Cache σ) : (r.tallying c).Sources Q := by
  cases r with
  | readMany o xs source => exact fun asked => hPQ _ _ (h asked)
  | invalidate | invalidateMany => trivial
  | read | write | writeMany | writeByResult | writeManyByResult | invalidateAround
  | invalidateManyAround | invalidateByResult | invalidateManyByResult => exact hPQ _ _ h

/-- The same turn with a data source that tallies. -/
def Turn.tallying (c : Cache σ) : Turn σ υ ε ρ → Turn σ (υ × Nat) ε ρ
  | .call r => .call (r.tallying c)
  | .drain => .drain
  | .meanwhile change => .meanwhile change

end

end CacheAside

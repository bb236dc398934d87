import CacheAside.Proofs.Hits
import CacheAside.Proofs.Ledger
import CacheAside.Proofs.ReadsByKey

/-!
# Balanced sessions

Between the answer of a data source and the end of its call the statistics lag behind what has been
tallied, by the values that are still to be encoded and cannot be. Each one is settled when it is
met, and so every turn leaves the books in order. The bytes met that cannot be decoded are those that
the store has answered.
-/

namespace CacheAside

open Rig

/-! ## Values on their way to the store -/

namespace World.InOrder

section
variable {υ : Type} {κ τ : Kind} {c : Cache Ledgered} {o : Options} {w : World Ledgered (υ × Nat)}
  {n met : Nat} {v : Option τ}

theorem valueWrite (h : w.InOrder met (n + c.unencoded (toWrite o [v]))) (b : Batch κ τ)
    (key : Key) : (c.valueWrite o b key v w).2.InOrder met n := by
  cases v with
  | some v => exact h.encode key
  | none =>
      rw [toWrite_singleton] at h
      unfold Cache.valueWrite Cache.nullWrite
      cases hnulls : o.addNulls with
      | true =>
          rw [hnulls] at h
          exact h.encode key
      | false =>
          rw [hnulls] at h
          exact h

theorem valueWrites (b : Batch κ τ) (pairs : List (Key × Option τ))
    (h : w.InOrder met (n + c.unencoded (toWrite o (pairs.map (·.2))))) :
    (c.valueWrites o b pairs w).2.InOrder met n := by
  induction pairs generalizing w with
  | nil => exact h
  | cons p pairs ih =>
      rw [List.map_cons, toWrite_cons, Cache.unencoded_append, Nat.add_comm (c.unencoded _),
        ← Nat.add_assoc] at h
      exact ih (h.valueWrite b p.1)

theorem firstWrites (pairs : List (Key × Option τ)) (seen : List Key)
    (h : w.InOrder met (n + c.unencoded (toWrite o
      ((firsts Prod.fst (pairs.filter fun p => decide (p.1 ∉ seen))).map (·.2))))) :
    (c.firstWrites o pairs seen w).2.InOrder met n := by
  induction pairs generalizing w seen with
  | nil => exact h
  | cons p pairs ih =>
      obtain ⟨key, v⟩ := p
      by_cases hseen : key ∈ seen
      · rw [List.filter_cons_of_neg (by simpa using hseen)] at h
        rw [Cache.firstWrites, if_pos hseen]
        exact ih seen h
      · have hseen' (j : Key) : j ∈ key :: seen ↔ j ∈ seen ∨ j = key := by
          rw [List.mem_cons, or_comm]
        rw [firsts_filter_cons hseen hseen', List.map_cons, toWrite_cons, Cache.unencoded_append,
          Nat.add_comm (c.unencoded _), ← Nat.add_assoc, toWrite_singleton] at h
        rw [Cache.firstWrites, if_neg hseen]
        split
        · rename_i hskip
          rw [if_pos hskip] at h
          exact ih _ (h.note (e := .nullSkipped key) rfl)
        · rename_i hwrite
          rw [if_neg hwrite] at h
          exact ih _ (h.encode key)

/-- Behind rows that have been collected those with the same keys count no more. -/
theorem collectRows {note : Key → World Ledgered (υ × Nat) → World Ledgered (υ × Nat)}
    (hnote : ∀ {m} key {w}, w.InOrder met m → (note key w).InOrder met m) {ns : String}
    (rows : List τ) (done : Rows τ)
    (h : w.InOrder met (n + c.unencoded ((firsts (c.keys.keyForResult ns)
      ((rows.takeWhile fun row => (c.keys.keyForResult ns row).isOk).filter
        fun row => decide (c.keys.keyForResult ns row ∉ done.keys.map .ok))).map some))) :
    (c.collectRows ns note rows done w).2.InOrder met n := by
  induction rows generalizing w done with
  | nil => exact h
  | cons row rows ih =>
      cases hkey : c.keys.keyForResult ns row with
      | error e =>
          rw [List.takeWhile_cons_of_neg (by simp [hkey, Except.isOk, Except.toBool])] at h
          simp only [Cache.collectRows, hkey]
          exact h
      | ok key =>
          rw [List.takeWhile_cons_of_pos (by rw [hkey]; rfl)] at h
          simp only [Cache.collectRows, hkey]
          by_cases hdone : key ∈ done.keys
          · rw [List.filter_cons_of_neg (by simpa [hkey] using hdone)] at h
            rw [if_pos hdone]
            exact ih done h
          · have hnew : c.keys.keyForResult ns row ∉ done.keys.map .ok := by
              simpa [hkey] using hdone
            have hkeys (bytes : Option Bytes) (k : Except ConfigError Key) :
                k ∈ (done.add key row bytes).keys.map .ok ↔
                  k ∈ done.keys.map .ok ∨ k = c.keys.keyForResult ns row := by
              rw [Cache.keys_add, List.map_append, List.mem_append, hkey]
              simp
            rw [firsts_filter_cons hnew (hkeys (c.encode key (some row) w).1), List.map_cons,
              Cache.unencoded_cons, ← Nat.add_assoc] at h
            rw [if_neg hdone]
            exact ih _ (hnote key (h.encode key))

/-! ## Answers -/

theorem alignByPosition (b : Batch κ τ) {results : List (Option τ)}
    (h : w.InOrder met (n + c.unencoded
      (if results.length = (b.missed.map (·.2)).length then toWrite o results else []))) :
    (c.alignByPosition o b results w).2.InOrder met n := by
  rw [List.length_map] at h
  simp only [Cache.alignByPosition, List.length_map]
  split
  · rename_i hlength
    refine valueWrites b _ ?_
    rw [List.map_snd_zip (by simp [hlength])]
    rwa [if_pos hlength] at h
  · rename_i hlength
    rwa [if_neg hlength] at h

/-- Missed keys without a row are those whose objects no row is for. -/
theorem nullsToWrite_eq {b : Batch κ τ}
    (hkeyed : ∀ p ∈ b.missed, c.keys.keyFor o.keyspace p.2 = .ok p.1) {rowKey : τ → Key}
    {rows : List τ} (hrows : ∀ row ∈ rows, c.keys.keyForResult o.keyspace row = .ok (rowKey row)) :
    c.nullsToWrite o (b.missed.map (·.2)) rows =
      toWrite o (((b.missed.map (·.1)).filter fun key => decide (key ∉ rows.map rowKey)).map
        fun _ => none) := by
  have hkeys : rows.map (c.keys.keyForResult o.keyspace) = (rows.map rowKey).map .ok := by
    rw [List.map_map]
    exact List.map_congr_left hrows
  have hvalid : ((rows.map rowKey).map .ok : List (Except ConfigError Key)).all (·.isOk) = true := by
    simp [Except.isOk, Except.toBool]
  simp only [Cache.nullsToWrite, hkeys, hvalid, ↓reduceIte]
  have hfilter : b.missed.filter ((fun x => !((rows.map rowKey).map Except.ok).contains
      (c.keys.keyFor o.keyspace x)) ∘ (·.2)) =
        b.missed.filter ((fun key => decide (key ∉ rows.map rowKey)) ∘ (·.1)) := by
    refine List.filter_congr fun p hp => ?_
    rw [Function.comp_apply, Function.comp_apply, hkeyed p hp, Bool.eq_iff_iff]
    simp
  rw [List.filter_map, List.filter_map, hfilter, List.map_map, List.map_map]
  rfl

theorem alignByKey {b : Batch κ τ}
    (hkeyed : ∀ p ∈ b.missed, c.keys.keyFor o.keyspace p.2 = .ok p.1) {results : List (Option τ)}
    (h : w.InOrder met (n + c.unencoded (c.rowsToWrite o (results.filterMap id) ++
      c.nullsToWrite o (b.missed.map (·.2)) (results.filterMap id)))) :
    (c.alignByKey o b results w).2.InOrder met n := by
  generalize hrows : results.filterMap id = rows at h
  let note (key : Key) (w : World Ledgered (υ × Nat)) : World Ledgered (υ × Nat) :=
    if key ∈ b.missed.map (·.1) then w else w.log (.unmatchedResult key)
  rw [Cache.unencoded_append, Nat.add_comm (c.unencoded _), ← Nat.add_assoc] at h
  have hnote {met m : Nat} (key : Key) {w : World Ledgered (υ × Nat)} (h : w.InOrder met m) :
      (note key w).InOrder met m := by
    unfold note
    split
    · exact h
    · exact h.note rfl
  have hcollected := collectRows hnote rows {} (by simpa [Cache.rowsToWrite, Rows.keys] using h)
  cases hmap : rows.mapM (c.keys.keyForResult o.keyspace) with
  | error e =>
      obtain ⟨w', -, hcollect⟩ := Cache.collectRows_eq_error
        (Cache.noted_unmatched c.store (b.missed.map (·.1))) {} w hmap
      obtain ⟨before, row, rest, rfl, -, hrow⟩ := mapM_eq_error_iff.mp hmap
      have hnone : c.nullsToWrite o (b.missed.map (·.2)) (before ++ row :: rest) = [] := by
        simp [Cache.nullsToWrite, hrow, Except.isOk, Except.toBool]
      simp only [note, hcollect, hnone] at hcollected
      simp only [Cache.alignByKey, hrows, hcollect]
      exact hcollected
  | ok keys =>
      obtain ⟨rowKey, hrowKey⟩ := exists_of_mapM_ok hmap
      obtain ⟨w', -, hcollect⟩ := Cache.collectRows_of_keyed
        (Cache.noted_unmatched c.store (b.missed.map (·.1))) w hrowKey
      simp only [note, hcollect, nullsToWrite_eq hkeyed hrowKey] at hcollected
      simp only [Cache.alignByKey, hrows, hcollect, Cache.filter_not_isResolved]
      refine valueWrites _ _ ?_
      rwa [List.map_map]

end

end World.InOrder

/-! ## Calls -/

/-- A data source that leaves the books alone and all entries in memory. -/
structure Computation.Abstains {υ ε α : Type} (compute : Computation Ledgered υ ε α) : Prop where
  books (w : World Ledgered υ) : (compute w).2.books = w.books
  inMemory (w : World Ledgered υ) : w.scene.contents.contents.InMemory →
    (compute w).2.scene.contents.contents.InMemory

theorem Computation.Abstains.uncounted {υ ε α : Type} {compute : Computation Ledgered υ ε α}
    (h : compute.Abstains) (count : α → Nat) : (compute.tallying count).Uncounted :=
  fun w => congrArg Books.stats (h.books (w.withOutside w.outside.1))

namespace World.InOrder

section
variable {υ ε α : Type} {κ τ : Kind} {c : Cache Ledgered} {o : Options} {store : Store Base}
  {w : World Ledgered (υ × Nat)} {n met : Nat}

/-- What a data source tallies is owed. -/
theorem answered (h : w.InOrder met n) {compute : Computation Ledgered υ ε α}
    (hsource : compute.Abstains) (count : α → Nat) :
    (compute.tallying count w).2.InOrder met
      (n + ((compute.tallying count w).1.map count).toOption.getD 0) := by
  obtain ⟨k, hk, hbalanced⟩ := h.balanced
  refine ⟨⟨k, ?_, ?_⟩, hsource.inMemory _ h.inMemory⟩
  · rw [← Nat.add_assoc, hk]
    rfl
  · have hbooks : (compute.tallying count w).2.books = w.books := hsource.books _
    rwa [hbooks]

theorem direct (h : w.InOrder met n) {compute : Computation Ledgered υ ε α}
    (hsource : compute.Abstains) :
    ((compute.tallying fun _ => 0).direct w).2.InOrder met n := by
  have hasked := h.answered hsource fun _ => 0
  unfold Computation.direct
  rcases hanswer : compute.tallying (fun _ => 0) w with ⟨answer, w'⟩
  rw [hanswer] at hasked
  cases answer <;> exact hasked

variable (hstore : store.Accountable) (hc : c.store = store.ledgered)
include hstore hc

theorem storeValue {v : Option τ} (h : w.InOrder met (n + c.unencoded [v])) (key : Key)
    (mode : WriteMode) : (c.storeValue o key v mode w).InOrder met n := by
  have hencode := h.encode key
  rcases hencoded : c.encode key v w with ⟨bytes, w'⟩
  rw [hencoded] at hencode
  simp only [Cache.storeValue, hencoded]
  cases bytes with
  | none => exact hencode
  | some bytes => exact hencode.writeBack hstore hc _

theorem deleteAll (h : w.InOrder met n) (keys : List Key) :
    (c.deleteAll keys w).2.InOrder met n := by
  induction keys generalizing w with
  | nil => exact h
  | cons key keys ih => exact ih (h.deleteOne hstore hc key)

theorem around (h : w.InOrder met 0) (timing : Timing) (keys : List Key)
    {compute : Computation Ledgered υ ε α} (hsource : compute.Abstains) :
    (c.around timing keys (compute.tallying fun _ => 0) w).2.InOrder met 0 := by
  cases timing with
  | before => exact (h.deleteAll hstore hc keys).direct hsource
  | after =>
      have hasked := h.direct hsource
      unfold Cache.around
      rcases hanswer : (compute.tallying fun _ => 0).direct w with ⟨answer, w'⟩
      rw [hanswer] at hasked
      cases answer with
      | error e => exact hasked
      | ok a => exact hasked.deleteAll hstore hc keys

variable (henabled : c.config.disabled = false)
include henabled

theorem read (h : w.InOrder met 0) {x : κ} {key : Key} (hmode : o.keysFromResults = false)
    (hkey : c.keys.keyFor o.keyspace x = .ok key)
    {compute : Computation Ledgered υ ε (Option τ)} (hsource : compute.Abstains) :
    (c.read o x (compute.tallying fun v => c.unencoded [v]) w).2.InOrder
      (met + c.undecodable τ (c.answerOne o key w.scene).toList) 0 := by
  simp only [Cache.read, henabled, Options.validate_of_keyFor hkey, hmode, hkey,
    Bool.false_eq_true, ↓reduceIte]
  have hlookup := h.lookup (c := c) (o := o) (τ := τ) hstore hc key
  rcases hfound : c.lookup o τ key w with ⟨found, w₁⟩
  rw [hfound] at hlookup
  cases found with
  | hit entry => exact hlookup
  | miss stale =>
      have hasked := (hlookup.addMisses 1).answered hsource fun v => c.unencoded [v]
      rcases hanswer : compute.tallying (fun v => c.unencoded [v]) (w₁.count (Stats.addMisses 1))
        with ⟨answer, w₂⟩
      rw [hanswer] at hasked
      simp only [hanswer]
      cases answer with
      | error e => exact hasked
      | ok v => exact storeValue hstore hc hasked key _

theorem readMany (h : w.InOrder met 0) {xs : List κ} {keyOf : κ → Key} (hne : xs ≠ [])
    (hkeys : Batch.Assigns c.keys o.keyspace xs keyOf)
    (hkind : o.keysFromResults = true → c.registry.isRegistered τ = true)
    {source : List κ → Computation Ledgered υ ε (List (Option τ))}
    (hsource : ∀ asked, (source asked).Abstains) :
    let keys := (xs.map keyOf).eraseDups
    (c.readMany o xs (fun asked => (source asked).tallying fun results =>
      c.unencoded (c.readToWrite o asked results)) w).2.InOrder
        (met + c.undecodable τ (keys.filterMap fun key =>
          (c.bulkAnswer o keys w.scene).bind (·.find? key))) 0 := by
  intro keys
  let b : Batch κ τ := { objects := xs, keyed := xs.eraseDups.map fun x => (x, keyOf x) }
  have hbuild : Batch.build c.keys o.keyspace xs = .ok b := Batch.build_eq_ok hkeys
  have hdistinct : b.distinctKeys = keys := Batch.Keeps.distinctKeys ⟨rfl, rfl, hkeys.unites⟩
  simp only [Cache.readMany, if_neg hne, henabled, Cache.validate_of_assigns hne hkeys,
    Cache.checkResultKind_of_isRegistered hkind, hbuild, Bool.false_eq_true, ↓reduceIte]
  have hfetch := h.fetch (o := o) hstore hc b
  have hkeyed := Cache.keyed_fetch (c := c) (o := o) (w := w) b
  rw [hdistinct] at hfetch
  rcases hfetched : c.fetch o b w with ⟨b', w₁⟩
  rw [hfetched] at hfetch hkeyed
  have hcounted := (hfetch.addHits (b'.distinctKeys.length - b'.missed.length)).addMisses
    b'.missed.length
  split
  · rw [Cache.snd_finish]
    exact hcounted
  have hasked := hcounted.answered (hsource (b'.missed.map (·.2))) fun results =>
    c.unencoded (c.readToWrite o (b'.missed.map (·.2)) results)
  generalize met + c.undecodable τ (keys.filterMap fun key =>
    (c.bulkAnswer o keys w.scene).bind (·.find? key)) = met at hasked
  rcases hanswer : (source (b'.missed.map (·.2))).tallying _ _ with ⟨answer, w₂⟩
  rw [hanswer] at hasked
  simp only [hanswer]
  rcases answer with e | results
  · exact hasked
  have haligned : ((if o.keysFromResults then c.alignByKey o b' else c.alignByPosition o b')
      results w₂).2.InOrder met 0 := by
    have howed : w₂.InOrder met
        (0 + c.unencoded (c.readToWrite o (b'.missed.map (·.2)) results)) := hasked
    rw [Cache.readToWrite] at howed
    split
    · rename_i hresults
      rw [if_pos hresults] at howed
      exact alignByKey (fun p hp => Batch.keyFor_of_missed hbuild hkeyed hp) howed
    · rename_i hresults
      rw [if_neg hresults] at howed
      exact alignByPosition b' howed
  simp only
  rcases halign : (if o.keysFromResults then c.alignByKey o b' else c.alignByPosition o b')
    results w₂ with ⟨aligned, w₃⟩
  rw [halign] at haligned
  rcases aligned with e | ⟨writes, b''⟩
  · exact haligned
  · simp only [Cache.snd_finish]
    exact haligned.writeBack hstore hc writes

theorem write (h : w.InOrder met 0) (x : κ) {compute : Computation Ledgered υ ε (Option τ)}
    (hsource : compute.Abstains) :
    (c.write o x (compute.tallying fun v => c.unencoded [v]) w).2.InOrder met 0 := by
  simp only [Cache.write, henabled, Bool.false_eq_true, ↓reduceIte]
  split
  · exact h
  split
  · exact h
  rename_i key hkey
  have hasked := h.answered hsource fun v => c.unencoded [v]
  rcases hanswer : compute.tallying (fun v => c.unencoded [v]) w with ⟨answer, w'⟩
  rw [hanswer] at hasked
  cases answer with
  | error e => exact hasked
  | ok v => exact storeValue hstore hc hasked key .overwrite

theorem writeMany (h : w.InOrder met 0) (xs : List κ)
    {compute : Computation Ledgered υ ε (List (Option τ))} (hsource : compute.Abstains) :
    (c.writeMany o xs (compute.tallying fun results =>
      c.unencoded (c.resultsToWrite o xs results)) w).2.InOrder met 0 := by
  simp only [Cache.writeMany, henabled, Bool.false_eq_true, ↓reduceIte]
  split
  · exact h
  split
  · exact h
  rename_i keys hkeys
  have hasked := h.answered hsource fun results => c.unencoded (c.resultsToWrite o xs results)
  rcases hanswer : compute.tallying (fun results => c.unencoded (c.resultsToWrite o xs results)) w
    with ⟨answer, w'⟩
  rw [hanswer] at hasked
  rcases answer with e | results
  · exact hasked
  have howed : w'.InOrder met (0 + c.unencoded (c.resultsToWrite o xs results)) := hasked
  obtain ⟨keyOf, hkeyOf⟩ := exists_of_mapM_ok hkeys
  obtain rfl : xs.map keyOf = keys :=
    Except.ok.inj ((Cache.keysFor_eq_ok hkeyOf).symm.trans hkeys)
  simp only [List.length_map]
  split
  · rename_i hlength
    rw [Cache.resultsToWrite_eq hkeyOf hlength] at howed
    refine writeBack hstore (firstWrites _ [] ?_) hc _
    simpa using howed
  · rename_i hlength
    rw [Cache.resultsToWrite, if_neg hlength] at howed
    exact howed

theorem writeByResult (h : w.InOrder met 0) {compute : Computation Ledgered υ ε (Option τ)}
    (hsource : compute.Abstains) : (c.writeByResult o (compute.tallying fun v =>
      c.unencoded (c.rowsToWrite o v.toList)) w).2.InOrder met 0 := by
  simp only [Cache.writeByResult, henabled, Bool.false_eq_true, ↓reduceIte]
  split
  · exact h
  split
  · exact h
  have hasked := h.answered hsource fun v => c.unencoded (c.rowsToWrite o v.toList)
  rcases hanswer : compute.tallying (fun v => c.unencoded (c.rowsToWrite o v.toList)) w
    with ⟨answer, w'⟩
  rw [hanswer] at hasked
  simp only [hanswer]
  rcases answer with e | (_ | v)
  · exact hasked
  · exact hasked
  have howed : w'.InOrder met (0 + c.unencoded (c.rowsToWrite o [v])) := hasked
  rw [Cache.rowsToWrite_singleton] at howed
  simp only
  cases hkey : c.keys.keyForResult o.keyspace v with
  | error e =>
      rw [hkey] at howed
      exact howed
  | ok key =>
      rw [hkey] at howed
      exact storeValue hstore hc howed key .overwrite

theorem writeManyByResult (h : w.InOrder met 0)
    {compute : Computation Ledgered υ ε (List (Option τ))} (hsource : compute.Abstains) :
    (c.writeManyByResult o (compute.tallying fun results =>
      c.unencoded (c.rowsToWrite o (results.filterMap id))) w).2.InOrder met 0 := by
  simp only [Cache.writeManyByResult, henabled, Bool.false_eq_true, ↓reduceIte]
  split
  · exact h
  split
  · exact h
  have hasked := h.answered hsource fun results =>
    c.unencoded (c.rowsToWrite o (results.filterMap id))
  rcases hanswer : compute.tallying (fun results =>
    c.unencoded (c.rowsToWrite o (results.filterMap id))) w with ⟨answer, w'⟩
  rw [hanswer] at hasked
  simp only [hanswer]
  rcases answer with e | results
  · exact hasked
  have hcollected : (c.collectRows o.keyspace (fun _ w => w) (results.filterMap id) {} w').2.InOrder
      met 0 := collectRows (fun _ _ h => h) _ {} (by
    simpa [Cache.rowsToWrite, Rows.keys, Except.map, Except.toOption] using hasked)
  simp only
  rcases hcollect : c.collectRows o.keyspace (fun _ w => w) (results.filterMap id) {} w'
    with ⟨found, w''⟩
  rw [hcollect] at hcollected
  cases found with
  | error e => exact hcollected
  | ok found => exact hcollected.writeBack hstore hc _

theorem invalidate (h : w.InOrder met 0) (x : κ) : (c.invalidate o x w).2.InOrder met 0 := by
  simp only [Cache.invalidate, henabled, Bool.false_eq_true, ↓reduceIte]
  split
  · exact h
  split
  · exact h
  · exact h.deleteAll hstore hc _

theorem invalidateMany (h : w.InOrder met 0) (xs : List κ) :
    (c.invalidateMany o xs w).2.InOrder met 0 := by
  simp only [Cache.invalidateMany, henabled, Bool.false_eq_true, ↓reduceIte]
  split
  · exact h
  split
  · exact h
  · exact h.deleteAll hstore hc _

theorem invalidateAround (h : w.InOrder met 0) (x : κ) (timing : Timing)
    {compute : Computation Ledgered υ ε α} (hsource : compute.Abstains) :
    (c.invalidateAround o x timing (compute.tallying fun _ => 0) w).2.InOrder met 0 := by
  simp only [Cache.invalidateAround, henabled, Bool.false_eq_true, ↓reduceIte]
  split
  · exact h
  split
  · exact h
  · exact h.around hstore hc timing _ hsource

theorem invalidateManyAround (h : w.InOrder met 0) (xs : List κ) (timing : Timing)
    {compute : Computation Ledgered υ ε α} (hsource : compute.Abstains) :
    (c.invalidateManyAround o xs timing (compute.tallying fun _ => 0) w).2.InOrder met 0 := by
  simp only [Cache.invalidateManyAround, henabled, Bool.false_eq_true, ↓reduceIte]
  split
  · exact h
  split
  · exact h
  · exact h.around hstore hc timing _ hsource

theorem invalidateByResult (h : w.InOrder met 0) {compute : Computation Ledgered υ ε (Option τ)}
    (hsource : compute.Abstains) :
    (c.invalidateByResult o (compute.tallying fun _ => 0) w).2.InOrder met 0 := by
  simp only [Cache.invalidateByResult, henabled, Bool.false_eq_true, ↓reduceIte]
  split
  · exact h
  split
  · exact h
  have hasked := h.answered hsource fun _ => 0
  rcases hanswer : compute.tallying (fun _ => 0) w with ⟨answer, w'⟩
  rw [hanswer] at hasked
  rcases answer with e | (_ | v)
  · exact hasked
  · exact hasked
  · simp only
    split
    · exact hasked
    · exact deleteAll hstore hc hasked _

theorem invalidateManyByResult (h : w.InOrder met 0)
    {compute : Computation Ledgered υ ε (List (Option τ))} (hsource : compute.Abstains) :
    (c.invalidateManyByResult o (compute.tallying fun _ => 0) w).2.InOrder met 0 := by
  simp only [Cache.invalidateManyByResult, henabled, Bool.false_eq_true, ↓reduceIte]
  split
  · exact h
  split
  · exact h
  have hasked := h.answered hsource fun _ => 0
  rcases hanswer : compute.tallying (fun _ => 0) w with ⟨answer, w'⟩
  rw [hanswer] at hasked
  rcases answer with e | results
  · exact hasked
  · simp only
    split
    · exact hasked
    · exact deleteAll hstore hc hasked _

end

end World.InOrder

/-! ## Turns -/

namespace Request

section
variable {υ ε ρ : Type} {κ τ : Kind} {c : Cache Ledgered} {o : Options} {store : Store Base}
  {w : World Ledgered (υ × Nat)} {met : Nat} (hstore : store.Accountable)
  (hc : c.store = store.ledgered) (henabled : c.config.disabled = false)
include hstore hc henabled

theorem inOrder_of_read {x : κ} {compute : Computation Ledgered υ ε (Option τ)}
    (hsource : compute.Abstains) (h : w.InOrder met 0) :
    let r : Request Ledgered (υ × Nat) ε ρ κ τ := tallying c (.read o x compute)
    (r.run c w).2.InOrder (met + r.undecodable c w.scene) 0 := by
  intro r
  cases hpasses : r.passes c with
  | false =>
      obtain ⟨e, hrun⟩ := r.run_of_faulty (w := w) henabled rfl (faulty_of_not_passes hpasses)
      rw [hrun, undecodable_of_not_lookups (by simp [lookups, hpasses])]
      exact h
  | true =>
      obtain ⟨key, hkey, hlookups⟩ := exists_lookups_read hpasses
      have hread := h.read hstore hc henabled ((valid_of_passes hpasses).mode rfl) hkey hsource
      have hanswered : r.answered c w.scene = (c.answerOne o key w.scene).toList := by
        simp only [r, tallying, answered, hlookups]
        cases hanswer : c.answerOne o key w.scene <;> simp [hanswer]
      rw [undecodable, hanswered]
      simp only [r, tallying, run, wrap_eq]
      exact hread

theorem inOrder_of_readMany {xs : List κ}
    {source : List κ → Computation Ledgered υ ε (List (Option τ))}
    (hsource : ∀ asked, (source asked).Abstains) (h : w.InOrder met 0) :
    let r : Request Ledgered (υ × Nat) ε ρ κ τ := tallying c (.readMany o xs source)
    (r.run c w).2.InOrder (met + r.undecodable c w.scene) 0 := by
  intro r
  by_cases hne : xs = []
  · subst hne
    have hnone : r.undecodable c w.scene = 0 :=
      undecodable_of_not_lookups (lookups_of_empty o _) w.scene
    rw [hnone]
    simpa [r, tallying, run, wrap, Cache.readMany] using h
  cases hpasses : r.passes c with
  | false =>
      obtain ⟨e, hrun⟩ := r.run_of_faulty (w := w) henabled (by simpa [r, tallying, isEmptyRead])
        (faulty_of_not_passes hpasses)
      rw [hrun, undecodable_of_not_lookups (by simp [lookups, hpasses])]
      exact h
  | true =>
      obtain ⟨keyOf, hkeys, hlookups⟩ := exists_lookups_readMany hpasses
      have hread := h.readMany hstore hc henabled hne hkeys (valid_of_passes hpasses).kind hsource
      simp only [r, undecodable, tallying, answered, hlookups, run, wrap_eq]
      exact hread

/-- A request leaves the books in order, and has met the bytes that the store answers it. -/
theorem run_inOrder {r : Request Ledgered υ ε ρ κ τ} (hsource : r.Sources Computation.Abstains)
    (h : w.InOrder met 0) :
    ((r.tallying c).run c w).2.InOrder (met + (r.tallying c).undecodable c w.scene) 0 := by
  cases r with
  | read o x compute => exact inOrder_of_read hstore hc henabled hsource h
  | readMany o xs source => exact inOrder_of_readMany hstore hc henabled hsource h
  | write o x compute =>
      rw [tallying, run, wrap_eq]
      exact h.write hstore hc henabled x hsource
  | writeMany o xs compute =>
      rw [tallying, run, wrap_eq]
      exact h.writeMany hstore hc henabled xs hsource
  | writeByResult o compute =>
      rw [tallying, run, wrap_eq]
      exact h.writeByResult hstore hc henabled hsource
  | writeManyByResult o compute =>
      rw [tallying, run, wrap_eq]
      exact h.writeManyByResult hstore hc henabled hsource
  | invalidate o x =>
      rw [tallying, run, snd_wrapRefusal]
      exact h.invalidate hstore hc henabled x
  | invalidateMany o xs =>
      rw [tallying, run, snd_wrapRefusal]
      exact h.invalidateMany hstore hc henabled xs
  | invalidateAround o x timing compute =>
      rw [tallying, run, wrap_eq]
      exact h.invalidateAround hstore hc henabled x timing hsource
  | invalidateManyAround o xs timing compute =>
      rw [tallying, run, wrap_eq]
      exact h.invalidateManyAround hstore hc henabled xs timing hsource
  | invalidateByResult o compute =>
      rw [tallying, run, wrap_eq]
      exact h.invalidateByResult hstore hc henabled hsource
  | invalidateManyByResult o compute =>
      rw [tallying, run, wrap_eq]
      exact h.invalidateManyByResult hstore hc henabled hsource

end

end Request

namespace Turn

variable {υ ε ρ : Type} {c : Cache Ledgered} {store : Store Base} {w : World Ledgered (υ × Nat)}
  {met : Nat}

/-- A turn in which nobody else touches the books, and all entries stay in memory. -/
def Abstains : Turn Ledgered υ ε ρ → Prop
  | .call r => r.Sources Computation.Abstains
  | .drain => True
  | .meanwhile change => ∀ contents now, (change contents now).1.ledger = contents.ledger ∧
    (contents.contents.InMemory → (change contents now).1.contents.InMemory)

theorem Abstains.uncounted {turn : Turn Ledgered υ ε ρ} (h : turn.Abstains) :
    (turn.tallying c).Sources Computation.Uncounted := by
  cases turn with
  | call r => exact Request.Sources.tallying h (fun _ count h => h.uncounted count) c
  | drain | meanwhile => trivial

theorem run_inOrder (hstore : store.Accountable) (hc : c.store = store.ledgered)
    (henabled : c.config.disabled = false) {turn : Turn Ledgered υ ε ρ} (hturn : turn.Abstains)
    (h : w.InOrder met 0) : ((turn.tallying c).run c w).2.InOrder
      (met + (turn.tallying c).size (fun r s => r.undecodable c s) w) 0 := by
  cases turn with
  | call r => exact r.run_inOrder hstore hc henabled hturn h
  | drain =>
      simp only [tallying, run, hc]
      exact h.drain hstore
  | meanwhile change =>
      obtain ⟨hledger, hmemory⟩ := hturn w.scene.contents w.scene.now
      have hbooks : (w.meanwhile change).books = w.books := by
        simp only [World.books, World.meanwhile, hledger]
      obtain ⟨n, hn, hbalanced⟩ := h.balanced
      exact ⟨⟨n, hn, hbooks ▸ hbalanced⟩, hmemory h.inMemory⟩

theorem runAll_inOrder (hstore : store.Accountable) (hc : c.store = store.ledgered)
    (henabled : c.config.disabled = false) {turns : List (Turn Ledgered υ ε ρ)}
    (hturns : ∀ turn ∈ turns, turn.Abstains) (h : w.InOrder met 0) :
    (runAll c id (turns.map (tallying c)) w).2.InOrder
      (met + undecodable c (turns.map (tallying c)) w) 0 := by
  induction turns generalizing w met with
  | nil => exact h
  | cons turn turns ih =>
      rw [undecodable, List.map_cons, total, ← Nat.add_assoc]
      exact ih (fun t ht => hturns t (List.mem_cons_of_mem _ ht))
        (run_inOrder hstore hc henabled (hturns turn List.mem_cons_self) h)

/-- The statistics and the warnings of a session agree with its store calls, the values that its
data sources have tallied because they cannot be encoded, the keys that its reads have looked up, and
the bytes without an entry that the store has answered for these, whatever the store calls have come
to and whenever writes have been made. -/
theorem runAll_balanced {υ ε ρ : Type} (layers : Layers) (c : Cache Ledgered)
    (hstore : c.store = layers.outer.ledgered) (henabled : c.config.disabled = false)
    (turns : List (Turn Ledgered υ ε ρ)) (hturns : ∀ turn ∈ turns, turn.Abstains)
    (w : World Ledgered (υ × Nat)) (hbooks : w.books = {}) (htally : w.outside.2 = 0)
    (hmemory : w.scene.contents.contents.InMemory) :
    let turns := turns.map (tallying c)
    let v := (runAll c id turns w).2
    v.books.Balanced v.outside.2 (undecodable c turns w) ∧ Shows v.stats.hits (hits c turns w) ∧
      Shows v.stats.misses (misses c turns w) ∧
      hits c turns w + misses c turns w = lookups c turns w := by
  intro tallied v
  have horder : w.InOrder 0 0 := ⟨⟨0, htally.symm, by rw [hbooks]; exact .of_due rfl rfl⟩, hmemory⟩
  obtain ⟨n, hn, hbalanced⟩ :=
    (runAll_inOrder layers.accountable_outer hstore henabled hturns horder).balanced
  have huncounted : ∀ turn ∈ tallied, turn.Sources Computation.Uncounted := by
    intro turn hturn
    obtain ⟨turn, hmem, rfl⟩ := List.mem_map.mp hturn
    exact (hturns turn hmem).uncounted
  have hscores := scores_runAll (w := w) henabled huncounted
  have hstats : w.stats = 0 := congrArg Books.stats hbooks
  rw [Nat.zero_add] at hbalanced
  refine ⟨hn ▸ hbalanced, ?_, ?_, hits_add_misses tallied w⟩
  · rw [hscores.hits, hstats]
    exact (UInt64.zero_add _).symm ▸ shows_ofNat _
  · rw [hscores.misses, hstats]
    exact (UInt64.zero_add _).symm ▸ shows_ofNat _

/-- One write fails, one value cannot be encoded, and under one key are bytes without an entry. -/
theorem runAll_balanced_of_failing_write :
    let c : Cache Ledgered := { store := ({} : Layers).outer.ledgered }
    let r : RecordingStore := { failures := { writes := true } }
    let damaged : MemoryStore := ⟨Table.empty.insert ⟨"n:2"⟩ ⟨[0x78], none⟩⟩
    let w : World Ledgered (Unit × Nat) :=
      { scene := { contents := ⟨.recording r, []⟩, now := 0 }, outside := ((), 0) }
    let o : Options := { keyspace := "n" }
    let turns : List (Turn Ledgered Unit Unit Unit) :=
      [.call (.read o (1 : UInt32) fun w => (.ok (some 7), w) : Request _ _ _ _ .word32 .word32),
        .meanwhile fun contents now => (⟨.memory damaged, contents.ledger⟩, now),
        .call (.writeMany o [2, 3] fun w => (.ok [some (-5 : Int64), some (4 : Int64)], w) :
          Request _ _ _ _ .word32 .fragile),
        .call (.readMany { o with writeBack := .detached } [1, 2, 1]
          (fun asked w => (.ok (asked.map some), w)) : Request _ _ _ _ .word32 .word32),
        .drain,
        .call (.read o (1 : UInt32) fun w => (.ok (some 7), w) : Request _ _ _ _ .word32 .word32),
        .call (.invalidate o (1 : UInt32) : Request _ _ _ _ .word32 .word32)]
    let tallied := turns.map (tallying c)
    let v := (runAll c id tallied w).2
    (v.books.Balanced v.outside.2 (undecodable c tallied w) ∧
      Shows v.stats.hits (hits c tallied w) ∧
      Shows v.stats.misses (misses c tallied w) ∧
      hits c tallied w + misses c tallied w = lookups c tallied w) ∧
    v.outside.2 = 1 ∧ undecodable c tallied w = 1 ∧
    v.stats = { hits := 1, misses := 3, writes := 3, writeFailures := 2, invalidations := 1 } := by
  intro c r damaged w o turns tallied v
  have hvalue : ∀ n : UInt32, Computation.Abstains (fun w : World Ledgered Unit =>
      ((.ok (some n), w) : Except Unit (Option UInt32) × _)) :=
    fun _ => ⟨fun _ => rfl, fun _ h => h⟩
  have hturns : ∀ turn ∈ turns, turn.Abstains := by
    refine List.forall_mem_cons.mpr ⟨hvalue 7, List.forall_mem_cons.mpr ⟨?_, ?_⟩⟩
    · exact fun contents now => ⟨rfl, fun _ => trivial⟩
    · refine List.forall_mem_cons.mpr ⟨⟨fun _ => rfl, fun _ h => h⟩, ?_⟩
      refine List.forall_mem_cons.mpr ⟨fun asked => ⟨fun _ => rfl, fun _ h => h⟩, ?_⟩
      exact List.forall_mem_cons.mpr ⟨trivial, List.forall_mem_cons.mpr ⟨hvalue 7,
        List.forall_mem_singleton.mpr trivial⟩⟩
  exact ⟨runAll_balanced {} c rfl rfl turns hturns w rfl rfl trivial, by decide +kernel,
    by decide +kernel, by decide +kernel⟩

end Turn

end CacheAside

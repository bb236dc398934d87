import CacheAside.Proofs.Reads
import CacheAside.Proofs.Rows

/-!
# Reading many keys by the keys of the results

The source answers with rows in an order of its own. The first row of a key is its value; rows for
other keys are only cached, and a missed key without a row has no value.
-/

namespace CacheAside.Cache

variable {σ υ ε : Type} {κ τ : Kind} {c : Cache σ} {o : Options} {xs : List κ} {keyOf : κ → Key}
  {w : World σ υ}

/-- The entry that a key has when rows are matched by their keys. -/
def matched (c : Cache σ) (o : Options) (keys : List Key) (s : Scene σ) (rowKey : τ → Key)
    (rows : List τ) (key : Key) : Entry τ :=
  (c.recalled o τ keys s key).getD (.ofOption (rows.find? (rowKey · == key)))

/-- The missed keys that no row is for. -/
def unmatched (c : Cache σ) (o : Options) (keys : List Key) (s : Scene σ) (rowKey : τ → Key)
    (rows : List τ) : List Key :=
  (c.missedKeys o τ keys s).filter fun key => decide (key ∉ rows.map rowKey)

/-- The writes for rows, the first of each key in their order, and then for the keys without. -/
def matchedWrites (c : Cache σ) (o : Options) (keys : List Key) (s : Scene σ) (rowKey : τ → Key)
    (rows : List τ) : List PendingWrite :=
  c.rowWrites rowKey (firsts rowKey rows) ++
    c.writesFor o keys s
      ((c.unmatched o keys s rowKey rows).map fun key => (key, (none : Option τ)))

theorem lookup_rows (missed : List Key) (rowKey : τ → Key) (rows : List τ) (key : Key) :
    ((((firsts rowKey rows).map fun v => (rowKey v, v)).filter
        fun row => decide (row.1 ∈ missed)).map fun row => (row.1, Entry.value row.2)).lookup key =
      if key ∈ missed then (rows.find? (rowKey · == key)).map .value else none := by
  rw [lookup_map_snd, List.filter_map, lookup_map_mark, List.find?_filter]
  split
  · rename_i hkey
    rw [← find?_firsts rowKey rows key]
    congr 2
    funext v
    by_cases hv : rowKey v = key <;> simp [hv, hkey]
  · rename_i hkey
    refine congrArg (Option.map Entry.value) (List.find?_eq_none.mpr fun v _ => ?_)
    by_cases hv : rowKey v = key <;> simp [hv, hkey]

theorem lookup_nulls (missed : List Key) (key : Key) :
    (missed.map fun key => (key, (Entry.null : Entry τ))).lookup key =
      if key ∈ missed then some .null else none := by
  induction missed with
  | nil => rfl
  | cons k missed ih =>
      rw [List.map_cons, List.lookup_cons, ih]
      by_cases hk : key = k
      · simp [hk]
      · simp [hk, beq_false_of_ne hk]

/-- Once the rows are in, the missed keys without an entry are those without a row. -/
theorem filter_not_isResolved (b : Batch κ τ) (rowKey : τ → Key) (rows : List τ) :
    let missed := b.missed.map (·.1)
    let b₁ := b.resolveAll ((((firsts rowKey rows).map fun v => (rowKey v, v)).filter
      fun row => decide (row.1 ∈ missed)).map fun row => (row.1, Entry.value row.2))
    (missed.filter fun key => !b₁.isResolved key) =
      missed.filter fun key => decide (key ∉ rows.map rowKey) := by
  intro missed b₁
  refine List.filter_congr fun key hkey => ?_
  obtain ⟨p, hp, rfl⟩ := List.mem_map.mp hkey
  have hnone : b.resolved.find? p.1 = none := by simpa [Batch.isResolved] using List.of_mem_filter hp
  rw [Batch.isResolved, Batch.find?_resolveAll, hnone, Option.none_or, lookup_rows, if_pos hkey,
    Option.isSome_map, isSome_find?_mark, decide_not]

theorem noted_unmatched (store : Store σ) (missed : List Key) (key : Key) (w : World σ υ) :
    store.Noted w (if key ∈ missed then w else w.log (.unmatchedResult key)) := by
  split
  · exact .refl w
  · exact (Store.Noted.refl w).log _

theorem alignByKey_eq_error {b : Batch κ τ} {results : List (Option τ)} {e : ConfigError}
    (h : (results.filterMap id).mapM (c.keys.keyForResult o.keyspace) = .error e) :
    ∃ w', c.store.Noted w w' ∧ c.alignByKey o b results w = (.error (.config e), w') := by
  obtain ⟨w', hw', hcollect⟩ := collectRows_eq_error
    (noted_unmatched c.store (b.missed.map (·.1))) {} w h
  exact ⟨w', hw', by simp only [Cache.alignByKey, hcollect]⟩

theorem Recalls.alignByKey {b : Batch κ τ} {s : Scene σ} (h : c.Recalls o s b xs keyOf)
    {results : List (Option τ)} {rowKey : τ → Key}
    (hrows : ∀ v, some v ∈ results → c.keys.keyForResult o.keyspace v = .ok (rowKey v)) :
    let keys := (xs.map keyOf).eraseDups
    let rows := results.filterMap id
    ∃ (b' : Batch κ τ) (w' : World σ υ), c.store.Noted w w' ∧
      c.alignByKey o b results w = (.ok (c.matchedWrites o keys s rowKey rows, b'), w') ∧
      b'.Keeps xs keyOf ∧
      ∀ x ∈ xs, b'.resolved.find? (keyOf x) =
        some (c.matched o keys s rowKey rows (keyOf x)) := by
  intro keys rows
  let missed := c.missedKeys o τ keys s
  have hvalues : ∀ v ∈ rows, c.keys.keyForResult o.keyspace v = .ok (rowKey v) := fun v hv =>
    hrows v (by simpa [rows] using hv)
  obtain ⟨w₁, hw₁, hcollect⟩ := collectRows_of_keyed (noted_unmatched c.store missed) w hvalues
  let b₁ := b.resolveAll ((((firsts rowKey rows).map fun v => (rowKey v, v)).filter
    fun row => decide (row.1 ∈ missed)).map fun row => (row.1, Entry.value row.2))
  have hb₁ : ∀ key, b₁.resolved.find? key = (b.resolved.find? key).or
      (if key ∈ missed then (rows.find? (rowKey · == key)).map .value else none) := fun key => by
    rw [Batch.find?_resolveAll, lookup_rows]
  have hempty : (missed.filter fun key => !b₁.isResolved key) =
      c.unmatched o keys s rowKey rows := by
    have hfilter := filter_not_isResolved b rowKey rows
    rwa [h.missed_fst] at hfilter
  have hpairs : ∀ p ∈ (c.unmatched o keys s rowKey rows).map fun key => (key, (none : Option τ)),
      p.1 ∈ xs.map keyOf := fun p hp => by
    obtain ⟨key, hkey, rfl⟩ := List.mem_map.mp hp
    exact List.mem_eraseDups.mp (mem_missedKeys.mp (List.mem_of_mem_filter hkey)).1
  refine ⟨b₁.resolveAll ((c.unmatched o keys s rowKey rows).map fun key => (key, .null)),
    (c.valueWrites o b₁ ((c.unmatched o keys s rowKey rows).map fun key => (key, none)) w₁).2,
    hw₁.trans (noted_valueWrites b₁ _), ?_, (h.keeps.resolveAll _).resolveAll _, fun x hx => ?_⟩
  · simp only [Cache.alignByKey, h.missed_fst]
    rw [hcollect]
    simp only
    have hreadable : b₁.unreadable = b.unreadable := Batch.resolveAll_unreadable ..
    rw [matchedWrites, ← h.valueWrites (w := w₁) hpairs hreadable, ← hempty]
  · rw [Batch.find?_resolveAll, hb₁, lookup_nulls, h.find? x hx, matched]
    cases hrecall : c.recalled o τ keys s (keyOf x) with
    | some e => simp
    | none =>
        have hkey : keyOf x ∈ missed :=
          mem_missedKeys.mpr ⟨by simpa [keys] using ⟨x, hx, rfl⟩, hrecall⟩
        have hmark := isSome_find?_mark rowKey rows (keyOf x)
        rw [if_pos hkey]
        cases hrow : rows.find? (rowKey · == keyOf x) with
        | some v => simp [Entry.ofOption]
        | none =>
            have hunmatched : keyOf x ∈ c.unmatched o keys s rowKey rows := by
              rw [hrow] at hmark
              exact List.mem_filter.mpr ⟨hkey, by simpa using hmark⟩
            simp [hunmatched, Entry.ofOption]

/-- A batch read by the keys of the results, for every answer of the store and every source. Of
objects that are equal the first gives the key (`Batch.assigns_of_own`). -/
theorem readMany_by_key (hne : xs ≠ []) (henabled : c.config.disabled = false)
    (hresults : o.keysFromResults = true) (hkind : c.registry.isRegistered τ = true)
    (hkeys : Batch.Assigns c.keys o.keyspace xs keyOf) :
    let keys := (xs.map keyOf).eraseDups
    let missed := c.missedKeys o τ keys w.scene
    let asked := c.askedObjects o τ xs keyOf w.scene
    asked.map keyOf = missed ∧
    ∃ w₁, c.store.Leads (bulkCalls o keys) (c.readTally o τ keys w.scene) w w₁ ∧
      ∀ source : List κ → Computation σ υ ε (List (Option τ)),
        (missed = [] → c.readMany o xs source w =
          (.ok (present o.skipNulls
            (xs.map fun x => (c.recalled o τ keys w.scene (keyOf x)).getD .null)), w₁)) ∧
        (missed ≠ [] → ∀ e w₂, source asked w₁ = (.error e, w₂) →
          c.readMany o xs source w = (.error (.source e), w₂)) ∧
        (missed ≠ [] → ∀ results w₂ e, source asked w₁ = (.ok results, w₂) →
          (results.filterMap id).mapM (c.keys.keyForResult o.keyspace) = .error e →
          ∃ w₃, c.store.Noted w₂ w₃ ∧
            c.readMany o xs source w = (.error (.refused (.config e)), w₃)) ∧
        (missed ≠ [] → ∀ results w₂ (rowKey : τ → Key), source asked w₁ = (.ok results, w₂) →
          (∀ v, some v ∈ results → c.keys.keyForResult o.keyspace v = .ok (rowKey v)) →
          let rows := results.filterMap id
          let writes := c.matchedWrites o keys w.scene rowKey rows
          ∃ w₃ w₄, c.store.Noted w₂ w₃ ∧ w₄ = c.writeBack o writes w₃ ∧
            (o.writeBack = .inline →
              c.store.Trace (writes.map (writeCall (o.ttl.getD c.config.defaultTtl)))
                w₃.scene w₄.scene) ∧
            c.readMany o xs source w =
              (.ok (present o.skipNulls
                (xs.map fun x => c.matched o keys w.scene rowKey rows (keyOf x))), w₄)) := by
  intro keys missed asked
  obtain ⟨b, w₁, hb, hleads, hread⟩ := readMany_eq (ε := ε) (c := c) (o := o) (τ := τ) (w := w) hne
    henabled hkeys fun _ => hkind
  simp only [hresults, ↓reduceIte] at hread
  refine ⟨map_askedObjects .., w₁, hleads, fun source => ⟨fun hmissed => ?_,
    fun hmissed e w₂ hsource => ?_, fun hmissed results w₂ e hsource hbad => ?_,
    fun hmissed results w₂ rowKey hsource hrows => ?_⟩⟩
  · rw [hread, if_pos hmissed, hb.finish hmissed]
  · rw [hread, if_neg hmissed, hsource]
  · obtain ⟨w₃, hnoted, halign⟩ := alignByKey_eq_error (b := b) (w := w₂) hbad
    refine ⟨w₃, hnoted, ?_⟩
    rw [hread, if_neg hmissed, hsource]
    simp only [halign]
  · obtain ⟨b', w₃, hnoted, halign, hb', hfind⟩ := hb.alignByKey (w := w₂) hrows
    refine ⟨w₃, _, hnoted, rfl, fun hinline => trace_writeBack hinline _, ?_⟩
    rw [hread, if_neg hmissed, hsource]
    simp only [halign, finish_eq_ok hb' hfind]
    rfl

theorem readMany_by_key_of_numbers :
    let registry := (Registry.empty.register .word32 (IdentityRule.canonical.identity .word32)).2
    let c : Cache MemoryStore := { store := .memory, registry }
    let o : Options := { keyspace := "n", ttl := some 60, keysFromResults := true, addNulls := true }
    let w : World MemoryStore Unit := { scene := { contents := .empty, now := 0 }, outside := () }
    let source : List Kind.word32 → Computation MemoryStore Unit Unit (List (Option Kind.word32)) :=
      fun _ w => (.ok [some 9, none, some 2, some 2], w)
    ∃ w₁ w' : World MemoryStore Unit,
      Store.memory.Trace [.set ⟨"n:9"⟩ 60, .set ⟨"n:2"⟩ 60, .add ⟨"n:1"⟩ 60] w₁.scene w'.scene ∧
      c.readMany o [(1 : UInt32), 2, 1] source w = (.ok [none, some (2 : UInt32), none], w') := by
  intro registry c o w source
  have hkeys : ∀ x ∈ ([1, 2, 1] : List Kind.word32),
      c.keys.keyFor "n" x = .ok ⟨"n:" ++ toString x.toNat⟩ := by
    intro x hx
    simp only [List.mem_cons, List.not_mem_nil, or_false] at hx
    rcases hx with rfl | rfl | rfl <;> decide +kernel
  have hrows : ∀ v : Kind.word32, some v ∈ [some 9, none, some 2, some 2] →
      c.keys.keyForResult "n" v = .ok ⟨"n:" ++ toString v.toNat⟩ := by
    intro v hv
    have hv : v = 9 ∨ v = 2 := by simpa using hv
    rcases hv with rfl | rfl <;> decide +kernel
  obtain ⟨-, w₁, -, hread⟩ := readMany_by_key (c := c) (o := o) (τ := .word32) (ε := Unit) (w := w)
    (by decide) rfl rfl rfl (Batch.assigns_of_ne (by decide) hkeys)
  obtain ⟨-, -, -, hok⟩ := hread source
  obtain ⟨w₃, w₄, -, -, hwrites, h⟩ := hok (by decide +kernel) _ w₁ _ rfl hrows
  have hcalls : (c.matchedWrites o [⟨"n:1"⟩, ⟨"n:2"⟩] w.scene
      (fun v : Kind.word32 => ⟨"n:" ++ toString v.toNat⟩) [9, 2, 2]).map (writeCall 60) =
        [.set ⟨"n:9"⟩ 60, .set ⟨"n:2"⟩ 60, .add ⟨"n:1"⟩ 60] := by decide +kernel
  exact ⟨w₃, w₄, hcalls ▸ hwrites rfl, h.trans (by congr 1)⟩

end CacheAside.Cache

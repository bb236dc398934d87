import CacheAside.Proofs.ReadsByPosition

/-!
# Reads that are answered

Reads that end with a value for each object: either everything was recalled, and the data source has
no part in it, or the data source has answered for what was missed.
-/

namespace CacheAside

theorem Stats.addMisses_zero : Stats.addMisses 0 = id := by
  funext s
  simp [Stats.addMisses]

/-- The data source answers with one value for each object it is asked for. It is not asked about
none. -/
def Answers {σ υ ε : Type} {κ τ : Kind}
    (source : List κ → Computation σ υ ε (List (Option τ))) (asked : List κ) (w : World σ υ)
    (results : List (Option τ)) (w' : World σ υ) : Prop :=
  results.length = asked.length ∧
    if asked = [] then w' = w else source asked w = (.ok results, w')

namespace Cache

variable {σ υ ε : Type} {κ τ : Kind} {c : Cache σ} {o : Options} {xs : List κ} {keyOf : κ → Key}
  {w : World σ υ}

/-! ## Nothing is missed -/

theorem missedKeys_eq_nil {keys : List Key} {s : Scene σ}
    (hall : ∀ key ∈ keys, (c.recalled o τ keys s key).isSome = true) :
    c.missedKeys o τ keys s = [] := by
  refine List.filter_eq_nil_iff.mpr fun key hkey => ?_
  simpa [Option.isSome_iff_ne_none] using hall key hkey

/-- What is recalled comes from the answer to a question that was asked. -/
theorem asked_of_recalled {keys : List Key} {s : Scene σ} {key : Key} {e : Entry τ}
    (h : c.recalled o τ keys s key = some e) :
    bulkCalls o keys = [.getMany keys] ∧ c.bulkTally o keys s = id := by
  obtain ⟨bytes, hbytes, -⟩ := Option.bind_eq_some_iff.mp h
  obtain ⟨t, ht, -⟩ := Option.bind_eq_some_iff.mp hbytes
  unfold bulkAnswer at ht
  split at ht
  · cases ht
  · next hbypass =>
      have hok : (c.store.getMany keys s).1 = .ok t := eq_ok_of_toOption ht
      exact ⟨if_neg hbypass, if_pos (by simp [hok, Except.isOk, Except.toBool])⟩

/-- A batch read that recalls every key gives what it recalls, whatever its source would say. -/
theorem readMany_of_recalled (hne : xs ≠ []) (henabled : c.config.disabled = false)
    (hkeys : Batch.Assigns c.keys o.keyspace xs keyOf)
    (hkind : o.keysFromResults = true → c.registry.isRegistered τ = true)
    {entryOf : Key → Entry τ} (hall : ∀ x ∈ xs,
      c.recalled o τ (xs.map keyOf).eraseDups w.scene (keyOf x) = some (entryOf (keyOf x))) :
    ∃ w₁, c.store.Leads [.getMany (xs.map keyOf).eraseDups]
        (Stats.addHits (xs.map keyOf).eraseDups.length) w w₁ ∧
      ∀ source : List κ → Computation σ υ ε (List (Option τ)), c.readMany o xs source w =
        (.ok (present o.skipNulls (xs.map fun x => entryOf (keyOf x))), w₁) := by
  obtain ⟨b, w₁, hb, hleads, hread⟩ := readMany_eq (ε := ε) (w := w) hne henabled hkeys hkind
  have hmissed : c.missedKeys o τ (xs.map keyOf).eraseDups w.scene = [] := by
    refine missedKeys_eq_nil fun key hkey => ?_
    obtain ⟨x, hx, rfl⟩ := List.mem_map.mp (List.mem_eraseDups.mp hkey)
    rw [hall x hx, Option.isSome_some]
  obtain ⟨x, hx⟩ := List.exists_mem_of_ne_nil xs hne
  obtain ⟨hcalls, htally⟩ := asked_of_recalled (hall x hx)
  refine ⟨w₁, ?_, fun source => ?_⟩
  · rw [hcalls] at hleads
    simpa [readTally, hmissed, htally, Stats.addMisses_zero] using hleads
  · rw [hread, if_pos hmissed]
    exact finish_eq_ok hb.keeps fun x hx => (hb.find? x hx).trans (hall x hx)

theorem lookup_of_recalledOne {key : Key} {e : Entry τ}
    (h : c.recalledOne o τ key w.scene = some e) : ∃ w₁,
      c.lookup o τ key w = (.hit e, w₁) ∧ c.store.Leads [.get key] (Stats.addHits 1) w w₁ := by
  unfold recalledOne at h
  unfold lookup
  split at h
  · cases h
  · next hbypass =>
      rw [if_neg hbypass]
      obtain ⟨bytes, hbytes, hentry⟩ := Option.bind_eq_some_iff.mp h
      have hget : (w.call (c.store.get key)).1 = .ok (some bytes) :=
        eq_ok_of_toOption (Option.join_eq_some_iff.mp hbytes)
      have hleads : c.store.Leads [.get key] id w (w.call (c.store.get key)).2 :=
        Store.leads_get key
      rcases hcall : w.call (c.store.get key) with ⟨answer, w'⟩
      rw [hcall] at hget hleads
      obtain rfl : answer = .ok (some bytes) := hget
      have hfst := fst_decode (c := c) (τ := τ) (w := w') key bytes
      have hdecode : c.store.Leads [] id w' (c.decode τ key bytes w').2 := leads_decode key bytes
      rcases hdecoded : c.decode τ key bytes w' with ⟨entry, w''⟩
      rw [hdecoded] at hfst hdecode
      obtain rfl : entry = some e := hfst.trans hentry
      simp only [hdecoded]
      exact ⟨_, rfl, ((hleads.trans hdecode).log (.hit key e.isNull)).count (Stats.addHits 1)⟩

/-- A read that recalls its key gives what it recalls. -/
theorem read_of_recalledOne (henabled : c.config.disabled = false)
    (hposition : o.keysFromResults = false) {x : κ} {key : Key}
    (hkey : c.keys.keyFor o.keyspace x = .ok key) {e : Entry τ}
    (h : c.recalledOne o τ key w.scene = some e) :
    ∃ w₁, c.store.Leads [.get key] (Stats.addHits 1) w w₁ ∧
      ∀ compute : Computation σ υ ε (Option τ), c.read o x compute w = (.ok e.toOption, w₁) := by
  obtain ⟨w₁, hlookup, hleads⟩ := lookup_of_recalledOne h
  refine ⟨w₁, hleads, fun compute => ?_⟩
  simp only [read, henabled, Options.validate_of_keyFor hkey, hposition, hkey, hlookup,
    Bool.false_eq_true, ↓reduceIte]

/-! ## The data source answers -/

theorem positional_of_recalled {keys : List Key} {s : Scene σ} {key : Key} {e : Entry τ}
    (h : c.recalled o τ keys s key = some e) (results : List (Option τ)) :
    c.positional o keys s results key = e := by
  rw [positional, h, Option.getD_some]

/-- A batch read by position whose source answers: which values come out, and which writes go
back. -/
theorem readMany_answered (hne : xs ≠ []) (henabled : c.config.disabled = false)
    (hposition : o.keysFromResults = false)
    (hkeys : Batch.Assigns c.keys o.keyspace xs keyOf) :
    let keys := (xs.map keyOf).eraseDups
    ∃ w₁, c.store.Leads (bulkCalls o keys) (c.readTally o τ keys w.scene) w w₁ ∧
      ∀ (source : List κ → Computation σ υ ε (List (Option τ))) results w₂,
        Answers source (c.askedObjects o τ xs keyOf w.scene) w₁ results w₂ →
        ∃ w₃, c.store.Noted w₂ w₃ ∧ c.readMany o xs source w =
          (.ok (present o.skipNulls
              (xs.map fun x => c.positional o keys w.scene results (keyOf x))),
            c.writeBack o (c.writesFor o keys w.scene
              ((c.missedKeys o τ keys w.scene).zip results)) w₃) := by
  intro keys
  obtain ⟨b, w₁, hb, hleads, hread⟩ := readMany_eq (ε := ε) (τ := τ) (w := w) hne henabled hkeys
    (by simp [hposition])
  have hasked := map_askedObjects c o τ xs keyOf w.scene
  refine ⟨w₁, hleads, fun source results w₂ ⟨hlength, hanswer⟩ => ?_⟩
  rw [← List.length_map keyOf, hasked] at hlength
  rw [hread]
  by_cases hmissed : c.missedKeys o τ keys w.scene = []
  · -- The source is not asked, and nothing is written.
    rw [hmissed, List.map_eq_nil_iff] at hasked
    obtain rfl : w₂ = w₁ := by simpa [hasked] using hanswer
    refine ⟨w₂, .refl w₂, ?_⟩
    rw [if_pos hmissed, hmissed, finish_eq_ok hb.keeps fun x hx => ?_]
    · rfl
    · have hkey : keyOf x ∈ keys := List.mem_eraseDups.mpr (List.mem_map_of_mem hx)
      obtain ⟨e, he⟩ := exists_recalled hkey hmissed
      rw [hb.find? x hx, he, positional_of_recalled he]
  · have hne' : c.askedObjects o τ xs keyOf w.scene ≠ [] := fun hnil =>
      hmissed (by rw [← hasked, hnil, List.map_nil])
    rw [if_neg hne'] at hanswer
    obtain ⟨b', w₃, hnoted, halign, hb', hfind⟩ := hb.alignByPosition (w := w₂) hlength
    refine ⟨w₃, hnoted, ?_⟩
    rw [if_neg hmissed, hanswer]
    simp only [hposition, Bool.false_eq_true, ↓reduceIte, halign, finish_eq_ok hb' hfind]
    rfl

end Cache

end CacheAside

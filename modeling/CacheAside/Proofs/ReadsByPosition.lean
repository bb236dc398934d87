import CacheAside.Proofs.Reads

/-!
# Reading many keys by position

The source answers with one value for each object that it is asked for, in that order.
-/

namespace CacheAside.Cache

variable {σ υ ε : Type} {κ τ : Kind} {c : Cache σ} {o : Options} {xs : List κ} {keyOf : κ → Key}
  {w : World σ υ}

/-- The entry that a key has when the results of the source are aligned by position. -/
def positional (c : Cache σ) (o : Options) (keys : List Key) (s : Scene σ)
    (results : List (Option τ)) (key : Key) : Entry τ :=
  (c.recalled o τ keys s key).getD
    (.ofOption (results[(c.missedKeys o τ keys s).idxOf key]?).join)

theorem lookup_zip {α : Type} {key : Key} : ∀ {keys : List Key} {vs : List α}, key ∈ keys →
    (keys.zip vs).lookup key = vs[keys.idxOf key]?
  | k :: keys, [], _ => by simp
  | k :: keys, v :: vs, h => by
      rw [List.zip_cons_cons, List.lookup_cons, List.idxOf_cons]
      by_cases hk : key = k
      · simp [hk]
      · have hkeys : key ∈ keys := (List.mem_cons.mp h).resolve_left hk
        simp [beq_false_of_ne hk, beq_false_of_ne (Ne.symm hk), lookup_zip hkeys]

theorem Recalls.alignByPosition_eq_error {b : Batch κ τ} {s : Scene σ}
    (h : c.Recalls o s b xs keyOf) {results : List (Option τ)}
    (hlength : results.length ≠ (c.missedKeys o τ (xs.map keyOf).eraseDups s).length) :
    c.alignByPosition o b results w = (.error (.reconciliation (.lengthMismatch
      (c.missedKeys o τ (xs.map keyOf).eraseDups s).length results.length)), w) := by
  rw [Cache.alignByPosition, h.missed_fst, if_neg hlength]

theorem Recalls.alignByPosition {b : Batch κ τ} {s : Scene σ} (h : c.Recalls o s b xs keyOf)
    {results : List (Option τ)}
    (hlength : results.length = (c.missedKeys o τ (xs.map keyOf).eraseDups s).length) :
    ∃ (b' : Batch κ τ) (w' : World σ υ), c.store.Noted w w' ∧
      c.alignByPosition o b results w =
        (.ok (c.writesFor o (xs.map keyOf).eraseDups s
          ((c.missedKeys o τ (xs.map keyOf).eraseDups s).zip results), b'), w') ∧
      b'.Keeps xs keyOf ∧
      ∀ x ∈ xs, b'.resolved.find? (keyOf x) =
        some (c.positional o (xs.map keyOf).eraseDups s results (keyOf x)) := by
  have hmissed := h.missed_fst
  let pairs := (c.missedKeys o τ (xs.map keyOf).eraseDups s).zip results
  have hpairs : ∀ p ∈ pairs, p.1 ∈ xs.map keyOf := fun p hp => by
    have hp' := (List.of_mem_zip (a := p.1) (b := p.2) hp).1
    exact List.mem_eraseDups.mp (mem_missedKeys.mp hp').1
  refine ⟨_, (c.valueWrites o b pairs w).2, noted_valueWrites b pairs, ?_, h.keeps.resolveAll
    (pairs.map fun p => (p.1, Entry.ofOption p.2)), fun x hx => ?_⟩
  · rw [Cache.alignByPosition, hmissed, if_pos hlength, ← h.valueWrites hpairs rfl]
  · rw [Batch.find?_resolveAll, h.find? x hx, lookup_map_snd]
    cases hrecall : c.recalled o τ (xs.map keyOf).eraseDups s (keyOf x) with
    | some e => simp [positional, hrecall]
    | none =>
        have hkey : keyOf x ∈ c.missedKeys o τ (xs.map keyOf).eraseDups s :=
          mem_missedKeys.mpr ⟨by simpa using ⟨x, hx, rfl⟩, hrecall⟩
        have hlt := List.idxOf_lt_length_of_mem hkey
        rw [← hlength] at hlt
        rw [lookup_zip hkey]
        simp [positional, hrecall, hlt]

/-- A batch read by position, for every answer of the store and every source. Objects that are equal
have the key of the first (`Batch.assigns_of_own`). -/
theorem readMany_by_position (hne : xs ≠ []) (henabled : c.config.disabled = false)
    (hposition : o.keysFromResults = false)
    (hkeys : Batch.Assigns c.keys o.keyspace xs keyOf) :
    let keys := (xs.map keyOf).eraseDups
    let missed := c.missedKeys o τ keys w.scene
    let asked := c.askedObjects o τ xs keyOf w.scene
    asked.map keyOf = missed ∧
    (∀ t found, (c.store.getMany keys w.scene).1 = .ok t → found.Perm t.entries →
      ∀ (b : Batch κ τ) (w' : World σ υ),
        Agree (c.absorb found b w').1 (c.absorb t.entries b w').1) ∧
    ∃ w₁, c.store.Leads (bulkCalls o keys) (c.readTally o τ keys w.scene) w w₁ ∧
      ∀ source : List κ → Computation σ υ ε (List (Option τ)),
        (missed = [] → c.readMany o xs source w =
          (.ok (present o.skipNulls
            (xs.map fun x => (c.recalled o τ keys w.scene (keyOf x)).getD .null)), w₁)) ∧
        (missed ≠ [] → ∀ e w₂, source asked w₁ = (.error e, w₂) →
          c.readMany o xs source w = (.error (.source e), w₂)) ∧
        (missed ≠ [] → ∀ results w₂, source asked w₁ = (.ok results, w₂) →
          results.length ≠ missed.length → c.readMany o xs source w =
            (.error (.refused (.reconciliation (.lengthMismatch missed.length results.length))),
              w₂)) ∧
        (missed ≠ [] → ∀ results w₂, source asked w₁ = (.ok results, w₂) →
          results.length = missed.length → ∃ w₃, c.store.Noted w₂ w₃ ∧ c.readMany o xs source w =
            (.ok (present o.skipNulls
                (xs.map fun x => c.positional o keys w.scene results (keyOf x))),
              c.writeBack o (c.writesFor o keys w.scene (missed.zip results)) w₃)) := by
  intro keys missed asked
  obtain ⟨b, w₁, hb, hleads, hread⟩ := readMany_eq (ε := ε) (c := c) (o := o) (τ := τ) (w := w) hne
    henabled hkeys (by simp [hposition])
  simp only [hposition, Bool.false_eq_true, ↓reduceIte] at hread
  refine ⟨map_askedObjects .., fun t found _ hperm b w' => agree_absorb (lists_of_perm hperm) b,
    w₁, hleads, fun source => ⟨fun hmissed => ?_, fun hmissed e w₂ hsource => ?_,
    fun hmissed results w₂ hsource hlength => ?_, fun hmissed results w₂ hsource hlength => ?_⟩⟩
  · rw [hread, if_pos hmissed, hb.finish hmissed]
  · rw [hread, if_neg hmissed, hsource]
  · rw [hread, if_neg hmissed, hsource]
    simp only [hb.alignByPosition_eq_error hlength]
    rfl
  · obtain ⟨b', w₃, hnoted, halign, hb', hfind⟩ := hb.alignByPosition (w := w₂) hlength
    refine ⟨w₃, hnoted, ?_⟩
    rw [hread, if_neg hmissed, hsource]
    simp only [halign, finish_eq_ok hb' hfind]
    rfl

theorem readMany_by_position_of_numbers :
    let c : Cache MemoryStore := { store := .memory }
    let w : World MemoryStore Unit := { scene := { contents := .empty, now := 0 }, outside := () }
    let source : List Kind.word32 → Computation MemoryStore Unit Unit (List (Option Kind.word32)) :=
      fun _ w => (.ok [some 7, none], w)
    ∃ w', c.readMany { keyspace := "n" } [(1 : UInt32), 2, 1] source w =
      (.ok [some (7 : UInt32), none, some 7], w') := by
  intro c w source
  have hkeys : ∀ x ∈ ([1, 2, 1] : List Kind.word32),
      c.keys.keyFor "n" x = .ok ⟨"n:" ++ toString x.toNat⟩ := by
    intro x hx
    simp only [List.mem_cons, List.not_mem_nil, or_false] at hx
    rcases hx with rfl | rfl | rfl <;> decide +kernel
  obtain ⟨-, -, w₁, -, hread⟩ := readMany_by_position (c := c) (o := { keyspace := "n" })
    (τ := .word32) (ε := Unit) (w := w) (by decide) rfl rfl
    (Batch.assigns_of_ne (by decide) hkeys)
  obtain ⟨-, -, -, hok⟩ := hread source
  obtain ⟨w₃, -, h⟩ := hok (by decide +kernel) _ w₁ rfl (by decide +kernel)
  exact ⟨_, h.trans (by congr 1)⟩

end CacheAside.Cache

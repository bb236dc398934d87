import CacheAside.Proofs.Fetch

/-!
# Reading many keys

What a batch read does for each answer of the store and each of its source: which objects the source
is asked for, which values come out, and which writes go back.
-/

namespace CacheAside.Cache

variable {σ υ ε : Type} {κ τ : Kind} {c : Cache σ} {o : Options} {xs : List κ} {keyOf : κ → Key}
  {w : World σ υ}

/-! ## Up to the question to the source -/

/-- What a batch read counts before it asks its source. -/
def readTally (c : Cache σ) (o : Options) (τ : Kind) (keys : List Key) (s : Scene σ) :
    Stats → Stats :=
  let missed := c.missedKeys o τ keys s
  Stats.addMisses missed.length ∘ Stats.addHits (keys.length - missed.length) ∘
    c.bulkTally o keys s

theorem validate_of_assigns (hne : xs ≠ []) (hkeys : Batch.Assigns c.keys o.keyspace xs keyOf) :
    o.validate = .ok () := by
  obtain ⟨x, hx⟩ := List.exists_mem_of_ne_nil xs hne
  obtain ⟨y, -, -, hkey⟩ := hkeys.exists_first hx
  exact Options.validate_of_keyFor hkey

theorem checkResultKind_of_isRegistered
    (hkind : o.keysFromResults = true → c.registry.isRegistered τ = true) :
    (if o.keysFromResults then c.checkResultKind τ else .ok ()) = .ok () := by
  split
  · rename_i hresults
    simp [checkResultKind, hkind hresults]
  · rfl

theorem readMany_eq (hne : xs ≠ []) (henabled : c.config.disabled = false)
    (hkeys : Batch.Assigns c.keys o.keyspace xs keyOf)
    (hkind : o.keysFromResults = true → c.registry.isRegistered τ = true) :
    ∃ (b : Batch κ τ) (w₁ : World σ υ), c.Recalls o w.scene b xs keyOf ∧
      c.store.Leads (bulkCalls o (xs.map keyOf).eraseDups)
        (c.readTally o τ (xs.map keyOf).eraseDups w.scene) w w₁ ∧
      ∀ source : List κ → Computation σ υ ε (List (Option τ)),
        c.readMany o xs source w =
          if c.missedKeys o τ (xs.map keyOf).eraseDups w.scene = [] then finish o b w₁
          else
            match source (c.askedObjects o τ xs keyOf w.scene) w₁ with
            | (.error e, w₂) => (.error (.source e), w₂)
            | (.ok results, w₂) =>
              match (if o.keysFromResults then c.alignByKey o b else c.alignByPosition o b)
                  results w₂ with
              | (.error e, w₃) => (.error (.refused e), w₃)
              | (.ok (writes, b), w₃) => finish o b (c.writeBack o writes w₃) := by
  let b₀ : Batch κ τ := { objects := xs, keyed := xs.eraseDups.map fun x => (x, keyOf x) }
  have hbuild : Batch.build c.keys o.keyspace xs = .ok b₀ := Batch.build_eq_ok hkeys
  have hb₀ : b₀.Keeps xs keyOf := ⟨rfl, rfl, hkeys.unites⟩
  obtain ⟨hb, hleads⟩ := fetch_spec (c := c) (o := o) (w := w) hb₀ rfl rfl
  rcases hfetch : c.fetch o b₀ w with ⟨b, w₀⟩
  rw [hfetch] at hb hleads
  have hmissed : b.missed.map (·.1) = c.missedKeys o τ (xs.map keyOf).eraseDups w.scene :=
    hb.missed_fst
  have hasked : b.missed.map (·.2) = c.askedObjects o τ xs keyOf w.scene := hb.missed_snd
  have hvalid := validate_of_assigns hne hkeys
  have hcheck := checkResultKind_of_isRegistered (c := c) hkind
  refine ⟨b, _, hb, (hleads.count _).count _, fun source => ?_⟩
  rw [readMany, if_neg hne, henabled]
  simp only [Bool.false_eq_true, ↓reduceIte, hvalid, hcheck, hbuild, hfetch]
  rw [← hasked, ← hmissed, hb.keeps.distinctKeys, List.length_map]
  exact ite_congr (propext List.map_eq_nil_iff.symm) (fun _ => rfl) fun _ => rfl

/-! ## After it -/

theorem lookup_map_snd {α β : Type} (g : α → β) (key : Key) (l : List (Key × α)) :
    (l.map fun p => (p.1, g p.2)).lookup key = (l.lookup key).map g := by
  induction l with
  | nil => rfl
  | cons p l ih =>
      rw [List.map_cons, List.lookup_cons, List.lookup_cons, ih]
      cases key == p.1 <;> rfl

/-- The writes for missed keys and what the source says about them. -/
def writesFor (c : Cache σ) (o : Options) (keys : List Key) (s : Scene σ)
    (pairs : List (Key × Option τ)) : List PendingWrite :=
  pairs.filterMap fun p => c.writeFor o (c.isStale o τ keys s) p.1 p.2

theorem Recalls.valueWrites {b : Batch κ τ} {s : Scene σ} (h : c.Recalls o s b xs keyOf)
    {pairs : List (Key × Option τ)} (hpairs : ∀ p ∈ pairs, p.1 ∈ xs.map keyOf)
    {b' : Batch κ τ} (hb' : b'.unreadable = b.unreadable) :
    (c.valueWrites o b' pairs w).1 = c.writesFor o (xs.map keyOf).eraseDups s pairs := by
  rw [fst_valueWrites, writesFor]
  refine List.filterMap_congr fun p hp => ?_
  obtain ⟨x, hx, hkey⟩ := List.mem_map.mp (hpairs p hp)
  have hstale : b'.isUnreadable p.1 = c.isStale o τ (xs.map keyOf).eraseDups s p.1 := by
    rw [← hkey, ← h.isUnreadable x hx, Batch.isUnreadable, hb', Batch.isUnreadable]
  cases hv : p.2 with
  | some v => rfl
  | none => simp only [writeFor, nullMode, hstale]

theorem mem_missedKeys {keys : List Key} {s : Scene σ} {key : Key} :
    key ∈ c.missedKeys o τ keys s ↔ key ∈ keys ∧ c.recalled o τ keys s key = none := by
  simp [missedKeys]

theorem finish_eq_ok {b : Batch κ τ} (h : b.Keeps xs keyOf) {entryOf : Key → Entry τ}
    (hall : ∀ x ∈ xs, b.resolved.find? (keyOf x) = some (entryOf (keyOf x))) :
    (finish o b : Outcome σ υ ε _) w =
      (.ok (present o.skipNulls (xs.map fun x => entryOf (keyOf x))), w) := by
  rw [Cache.finish, h.assemble entryOf o.skipNulls hall]

theorem exists_recalled {keys : List Key} {s : Scene σ} {key : Key} (hkey : key ∈ keys)
    (hmissed : c.missedKeys o τ keys s = []) : ∃ e, c.recalled o τ keys s key = some e := by
  cases hrecall : c.recalled o τ keys s key with
  | some e => exact ⟨e, rfl⟩
  | none =>
      have hmem : key ∈ c.missedKeys o τ keys s := mem_missedKeys.mpr ⟨hkey, hrecall⟩
      simp [hmissed] at hmem

/-- Without missed keys a batch read is at its end. -/
theorem Recalls.finish {b : Batch κ τ} {s : Scene σ} (h : c.Recalls o s b xs keyOf)
    (hmissed : c.missedKeys o τ (xs.map keyOf).eraseDups s = []) :
    (finish o b : Outcome σ υ ε _) w = (.ok (present o.skipNulls (xs.map fun x =>
      (c.recalled o τ (xs.map keyOf).eraseDups s (keyOf x)).getD .null)), w) := by
  let entryOf (key : Key) : Entry τ := (c.recalled o τ (xs.map keyOf).eraseDups s key).getD .null
  have hall : ∀ x ∈ xs, b.resolved.find? (keyOf x) = some (entryOf (keyOf x)) := fun x hx => by
    obtain ⟨e, he⟩ := exists_recalled (by simpa using ⟨x, hx, rfl⟩ : keyOf x ∈ _) hmissed
    simp only [h.find? x hx, entryOf, he, Option.getD_some]
  exact finish_eq_ok h.keeps hall

end CacheAside.Cache

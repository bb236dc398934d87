import CacheAside.Proofs.ReadsByPosition
import CacheAside.Proofs.Together

/-!
# Reading many objects as acts

A batch read of objects with a key each comes to the acts of the reads for one object. That it asks
the store once makes a difference only to what a failure of the store costs.
-/

namespace CacheAside

open Rig

variable {κ τ : Kind} {ε : Type} {c : Cache Base} {o : Options} {ttl : UInt32} {xs : List κ}
  {keyOf : κ → Key} {f : κ → Option τ} {v w : World Base (List κ)}

namespace Cache

/-- What a question to the store leaves of a bare scene: all of it. -/
theorem bare_of_trace {calls : List StoreCall} {s t : Scene Base} (h : Base.store.Trace calls s t)
    (hreads : ∀ call ∈ calls, (∃ key, call = .get key) ∨ ∃ keys, call = .getMany keys) :
    t.bare = s.bare := by
  induction h with
  | refl => rfl
  | log e _ ih => exact ih hreads
  | get key _ ih =>
      rw [Base.bare_get]
      exact ih fun call hcall => hreads call (List.mem_append_left _ hcall)
  | getMany keys _ ih =>
      rw [Base.bare_getMany]
      exact ih fun call hcall => hreads call (List.mem_append_left _ hcall)
  | set | add | delete => simpa using hreads _ (List.mem_append_right _ (List.mem_singleton_self _))

theorem bare_of_leads {calls : List StoreCall} {tally : Stats → Stats}
    (h : Base.store.Leads calls tally w v) (htally : Stats.IsCharge tally)
    (hreads : ∀ call ∈ calls, (∃ key, call = .get key) ∨ ∃ keys, call = .getMany keys) :
    v.bare = (w.charge (tally 0) []).bare := by
  obtain ⟨scene, stats, pending, executor, outside⟩ := v
  obtain ⟨hscene, hstats, hpending, hexecutor, houtside⟩ := h
  simp only at hstats hpending hexecutor houtside
  subst hstats hpending hexecutor houtside
  simp [World.bare, World.charge, ← htally w.stats, bare_of_trace hscene hreads]

/-! ## What the answer says -/

theorem bulkAnswer_find? (hstore : c.store = Base.store) {keys : List Key} {key : Key}
    {s : Scene Base} (hkey : key ∈ keys) : (c.bulkAnswer o keys s).bind (·.find? key) =
      if o.bypass || (s.view key).fails then none else (s.view key).bytes := by
  obtain ⟨table, hanswer, htable⟩ := Base.fst_getMany (s := s) keys
  rw [bulkAnswer, hstore, hanswer, Scene.view, ← htable key hkey]
  cases o.bypass with
  | true => rfl
  | false => cases s.contents.failsReads <;> rfl

/-- A lookup finds what the answer about all keys says. -/
theorem found_eq_recalled (hstore : c.store = Base.store) {keys : List Key} {key : Key}
    (hkey : key ∈ keys) : c.found o τ (w.scene.view key) =
      match c.recalled o τ keys w.scene key with
      | some entry => .hit entry
      | none => .miss (o.bypass || c.isStale o τ keys w.scene key) := by
  unfold isStale recalled
  rw [bulkAnswer_find? hstore hkey]
  obtain ⟨fails, bytes⟩ := w.scene.view key
  unfold found
  cases o.bypass with
  | true => rfl
  | false =>
      cases fails with
      | true => rfl
      | false =>
          cases bytes with
          | none => rfl
          | some bytes =>
              simp only [Bool.false_eq_true, ↓reduceIte, Bool.or_self, Option.bind_some]
              cases c.entryIn? τ bytes <;> rfl

theorem bulkTally_eq (hstore : c.store = Base.store) (keys : List Key) :
    Stats.IsCharge (c.bulkTally o keys w.scene) ∧
      c.bulkTally o keys w.scene 0 = failCost o w.scene.contents.failsReads := by
  obtain ⟨table, hanswer, -⟩ := Base.fst_getMany (s := w.scene) keys
  unfold bulkTally failCost
  rw [hstore, hanswer]
  cases o.bypass with
  | true => exact ⟨Stats.isCharge_id, rfl⟩
  | false =>
      cases w.scene.contents.failsReads with
      | true => exact ⟨Stats.isCharge_addStoreError, rfl⟩
      | false => exact ⟨Stats.isCharge_id, rfl⟩

/-! ## The acts -/

theorem sum_readCosts (missed : κ → Bool) (xs : List κ) :
    (xs.map fun x => if missed x then Stats.addMisses 1 0 + c.encodeCost (f x)
      else Stats.addHits 1 0).sum =
      Stats.addHits (xs.length - (xs.filter missed).length) 0 +
        Stats.addMisses (xs.filter missed).length 0 + c.encodeCosts ((xs.filter missed).map f) := by
  induction xs with
  | nil => rfl
  | cons x xs ih =>
      have hle : (xs.filter missed).length ≤ xs.length := List.length_filter_le missed xs
      rw [List.map_cons, List.sum_cons, ih, List.filter_cons]
      cases missed x with
      | true =>
          simp only [↓reduceIte, List.length_cons, List.map_cons, encodeCosts_cons,
            Nat.add_sub_add_right]
          rw [Stats.addMisses_succ (xs.filter missed).length]
          ac_rfl
      | false =>
          simp only [Bool.false_eq_true, ↓reduceIte, List.length_cons, Nat.sub_add_comm hle]
          rw [Stats.addHits_succ (xs.length - (xs.filter missed).length)]
          ac_rfl

/-- The act of a read, given what the answer about all keys says. -/
def batchAct (c : Cache Base) (o : Options) (f : κ → Option τ) (keyOf : κ → Key) (keys : List Key)
    (s : Scene Base) (x : κ) : Act κ τ :=
  match c.recalled o τ keys s (keyOf x) with
  | some entry => { value := entry.toOption, cost := Stats.addHits 1 0 }
  | none =>
    { value := f x, cost := Stats.addMisses 1 0 + c.encodeCost (f x), asked := some x
      write := c.writeFor o (c.isStale o τ keys s) (keyOf x) (f x) }

theorem readAct_eq_batchAct (hstore : c.store = Base.store) (hnulls : o.addNulls = true)
    {keys : List Key} {x : κ} (hkey : keyOf x ∈ keys) :
    c.readAct f x (keyOf x) (c.found o τ (w.scene.view (keyOf x))) =
      c.batchAct o f keyOf keys w.scene x := by
  rw [found_eq_recalled hstore hkey, batchAct]
  cases c.recalled o τ keys w.scene (keyOf x) with
  | some entry => rfl
  | none =>
      simp only [readAct, writeFor, hnulls, nullMode]
      cases f x <;> rfl

theorem bare_valueWrites (hnulls : o.addNulls = true) (b : Batch κ τ)
    (pairs : List (Key × Option τ)) : (c.valueWrites o b pairs w).2.bare =
      (w.charge (c.encodeCosts (pairs.map (·.2))) []).bare := by
  induction pairs generalizing w with
  | nil => simp [valueWrites, encodeCosts]
  | cons p pairs ih =>
      obtain ⟨key, v⟩ := p
      have hwrite : (c.valueWrite o b key v w).2.bare = (w.charge (c.encodeCost v) []).bare := by
        cases v with
        | some v => exact bare_encode key (some v)
        | none =>
            simp only [valueWrite, nullWrite, hnulls, ↓reduceIte]
            exact bare_encode key none
      simp only [valueWrites]
      rw [ih, World.bare_charge, hwrite, ← World.bare_charge, World.charge_charge, List.map_cons,
        encodeCosts_cons, List.append_nil]

section
variable {keys : List Key} {s : Scene Base}

/-- The objects that the answer about all keys has no entry for. -/
def unanswered (c : Cache Base) (o : Options) (τ : Kind) (keyOf : κ → Key) (keys : List Key)
    (s : Scene Base) (xs : List κ) : List κ :=
  xs.filter fun x => (c.recalled o τ keys s (keyOf x)).isNone

theorem performAll_batchActs : performAll ttl (xs.map (c.batchAct o f keyOf keys s)) w =
    let asked := c.unanswered o τ keyOf keys s xs
    runJob Base.store (w.charge (Stats.addHits (xs.length - asked.length) 0 +
      Stats.addMisses asked.length 0 + c.encodeCosts (asked.map f)) asked)
      ⟨asked.filterMap fun x => c.writeFor o (c.isStale o τ keys s) (keyOf x) (f x), ttl⟩ := by
  let missed (x : κ) : Bool := (c.recalled o τ keys s (keyOf x)).isNone
  have hcost : (fun x => (c.batchAct o f keyOf keys s x).cost) = fun x =>
      if missed x then Stats.addMisses 1 0 + c.encodeCost (f x) else Stats.addHits 1 0 := by
    funext x
    rcases hrecall : c.recalled o τ keys s (keyOf x) with _ | entry <;>
      simp [batchAct, missed, hrecall]
  have hasked : (xs.filterMap fun x => (c.batchAct o f keyOf keys s x).asked) =
      xs.filter missed := by
    rw [← List.filterMap_some (l := xs.filter missed), List.filterMap_filter]
    refine List.filterMap_congr fun x _ => ?_
    rcases hrecall : c.recalled o τ keys s (keyOf x) with _ | entry <;>
      simp [batchAct, missed, hrecall]
  have hwrites : (xs.filterMap fun x => (c.batchAct o f keyOf keys s x).write) =
      (xs.filter missed).filterMap fun x =>
        c.writeFor o (c.isStale o τ keys s) (keyOf x) (f x) := by
    rw [List.filterMap_filter]
    refine List.filterMap_congr fun x _ => ?_
    rcases hrecall : c.recalled o τ keys s (keyOf x) with _ | entry <;>
      simp [batchAct, missed, hrecall]
  rw [performAll_map, hcost, hasked, hwrites, sum_readCosts]
  rfl

end

/-! ## What the data source says -/

theorem missedKeys_eq_map (s : Scene Base) : c.missedKeys o τ (xs.map keyOf) s =
    (c.unanswered o τ keyOf (xs.map keyOf) s xs).map keyOf := by
  rw [missedKeys, List.filter_map]
  rfl

theorem askedObjects_of_nodup (hnodup : (xs.map keyOf).Nodup) (s : Scene Base) :
    c.askedObjects o τ xs keyOf s = c.unanswered o τ keyOf (xs.map keyOf) s xs :=
  askedObjects_eq_filter hnodup

theorem zip_missedKeys (s : Scene Base) : (c.missedKeys o τ (xs.map keyOf) s).zip
    ((c.unanswered o τ keyOf (xs.map keyOf) s xs).map f) =
      (c.unanswered o τ keyOf (xs.map keyOf) s xs).map fun x => (keyOf x, f x) := by
  rw [missedKeys_eq_map, List.zip_map']

/-- By position each object gets the value of its act. -/
theorem positional_of_nodup (hnodup : (xs.map keyOf).Nodup) (s : Scene Base) {x : κ} (hx : x ∈ xs) :
    (c.positional o (xs.map keyOf) s ((c.unanswered o τ keyOf (xs.map keyOf) s xs).map f)
      (keyOf x)).toOption = (c.batchAct o f keyOf (xs.map keyOf) s x).value := by
  rw [positional, batchAct]
  cases hrecall : c.recalled o τ (xs.map keyOf) s (keyOf x) with
  | some entry => rfl
  | none =>
      have hasked : x ∈ c.unanswered o τ keyOf (xs.map keyOf) s xs :=
        List.mem_filter.mpr ⟨hx, by simp [hrecall]⟩
      have hkey : keyOf x ∈ c.missedKeys o τ (xs.map keyOf) s := by
        rw [missedKeys_eq_map]
        exact List.mem_map_of_mem hasked
      rw [← lookup_zip hkey, zip_missedKeys]
      generalize hasks : c.unanswered o τ keyOf (xs.map keyOf) s xs = asked at hasked
      have hfirst : x ∈ firsts keyOf asked := by
        rwa [firsts_of_nodup (hasks ▸ hnodup.sublist (List.filter_sublist.map keyOf))]
      have hpairs : asked.map (fun x => (keyOf x, f x)) =
          (asked.map fun x => (keyOf x, x)).map fun p => (p.1, f p.2) := by
        rw [List.map_map]
        rfl
      rw [hpairs, lookup_map_snd, lookup_map_mark, find?_of_mem_firsts hfirst]
      simp

theorem writesFor_unanswered (s : Scene Base) : c.writesFor o (xs.map keyOf) s
    ((c.missedKeys o τ (xs.map keyOf) s).zip
      ((c.unanswered o τ keyOf (xs.map keyOf) s xs).map f)) =
      (c.unanswered o τ keyOf (xs.map keyOf) s xs).filterMap fun x =>
        c.writeFor o (c.isStale o τ (xs.map keyOf) s) (keyOf x) (f x) := by
  rw [zip_missedKeys, writesFor, List.filterMap_map]
  rfl

theorem bare_alignByPosition (hnulls : o.addNulls = true) (b : Batch κ τ)
    {results : List (Option τ)} (hlength : results.length = (b.missed.map (·.1)).length) :
    (c.alignByPosition o b results w).2.bare = (w.charge (c.encodeCosts results) []).bare := by
  rw [alignByPosition, if_pos hlength]
  simp only [bare_valueWrites hnulls]
  rw [List.map_snd_zip (Nat.le_of_eq hlength)]

/-! ## A batch read -/

/-- What a batch read counts before it asks its data source. -/
theorem bare_of_question (hstore : c.store = Base.store) {keys : List Key}
    (h : c.store.Leads (bulkCalls o keys) (c.readTally o τ keys w.scene) w v) :
    v.bare = (w.charge (failCost o w.scene.contents.failsReads +
      (Stats.addHits (keys.length - (c.missedKeys o τ keys w.scene).length) 0 +
        Stats.addMisses (c.missedKeys o τ keys w.scene).length 0)) []).bare := by
  have hreads : ∀ call ∈ bulkCalls o keys,
      (∃ key, call = .get key) ∨ ∃ keys, call = .getMany keys := fun call hcall => by
    unfold bulkCalls at hcall
    split at hcall
    · cases hcall
    · exact .inr ⟨keys, List.mem_singleton.mp hcall⟩
  obtain ⟨htally, hcost⟩ := bulkTally_eq (o := o) (w := w) hstore keys
  have hhits := Stats.isCharge_addHits (keys.length - (c.missedKeys o τ keys w.scene).length)
  have hmisses := Stats.isCharge_addMisses (c.missedKeys o τ keys w.scene).length
  rw [hstore] at h
  rw [bare_of_leads h (hmisses.comp (hhits.comp htally)) hreads, readTally, Function.comp_apply,
    Function.comp_apply, hmisses, hhits, hcost, add_assoc]

theorem present_all (entries : List (Entry τ)) :
    present false entries = entries.map (·.toOption) := by
  simp [present]

/-- A batch read comes to its question and then the acts. -/
theorem readMany_eq_performAll (hstore : c.store = Base.store) (hinline : o.writeBack = .inline)
    (henabled : c.config.disabled = false) (hnulls : o.addNulls = true)
    (hskip : o.skipNulls = false) (hposition : o.keysFromResults = false) (hne : xs ≠ [])
    (hkeys : Batch.Assigns c.keys o.keyspace xs keyOf) (hnodup : (xs.map keyOf).Nodup) :
    let acts := xs.map (c.batchAct o f keyOf (xs.map keyOf) w.scene)
    let outcome := c.readMany o xs (askAll f : _ → Computation _ _ ε _) w
    outcome.1 = .ok (acts.map (·.value)) ∧ outcome.2.bare = (performAll (c.ttl o) acts
      (w.charge (failCost o w.scene.contents.failsReads) [])).bare := by
  intro acts outcome
  have hdistinct : (xs.map keyOf).eraseDups = xs.map keyOf := eraseDups_of_nodup hnodup
  obtain ⟨b, w₁, hb, hleads, hread⟩ := readMany_eq (ε := ε) (c := c) (o := o) (τ := τ) (w := w) hne
    henabled hkeys (by simp [hposition])
  simp only [hposition, Bool.false_eq_true, ↓reduceIte, hdistinct,
    askedObjects_of_nodup hnodup] at hread hleads
  have hw₁ := bare_of_question hstore hleads
  set asked := c.unanswered o τ keyOf (xs.map keyOf) w.scene xs with hasks
  have hmissed : c.missedKeys o τ (xs.map keyOf) w.scene = asked.map keyOf := missedKeys_eq_map _
  rw [hmissed, List.length_map, List.length_map] at hw₁
  rw [performAll_batchActs, ← hasks]
  simp only [outcome, hread]
  by_cases hasked : asked = []
  · -- Nothing is asked or written: what the question has found is the answer.
    have hall : c.missedKeys o τ (xs.map keyOf) w.scene = [] := by rw [hmissed, hasked]; rfl
    rw [if_pos hall, hb.finish (by rwa [hdistinct]), hdistinct, hskip, present_all]
    refine ⟨congrArg Except.ok ?_, ?_⟩
    · rw [List.map_map, List.map_map]
      refine List.map_congr_left fun x hx => ?_
      obtain ⟨entry, hentry⟩ := exists_recalled (List.mem_map_of_mem hx) hall
      simp [batchAct, hentry]
    · rw [hw₁, hasked]
      simp [runJob, encodeCosts]
  · -- What is missed is asked for in one question, then encoded, then written.
    rw [if_neg (by rwa [hmissed, List.map_eq_nil_iff])]
    have hlength : (asked.map f).length =
        (c.missedKeys o τ (xs.map keyOf).eraseDups w.scene).length := by
      rw [hdistinct, hmissed, List.length_map, List.length_map]
    obtain ⟨b', w₃, -, halign, hb', hfind⟩ := hb.alignByPosition (w := w₁.charge 0 asked) hlength
    have hw₃ : w₃.bare = ((w₁.charge 0 asked).charge (c.encodeCosts (asked.map f)) []).bare := by
      rw [← bare_alignByPosition hnulls b (by rw [hb.missed_fst, hlength]), halign]
    simp only [askAll_eq, halign, finish_eq_ok hb' hfind, hdistinct, hskip, present_all]
    refine ⟨congrArg Except.ok ?_, ?_⟩
    · rw [List.map_map, List.map_map]
      exact List.map_congr_left fun x hx => positional_of_nodup hnodup w.scene hx
    · rw [writeBack_inline hinline, hstore, writesFor_unanswered]
      refine runJob_congr ?_
      rw [hw₃, World.bare_charge, World.bare_charge, hw₁]
      simp [World.bare_charge, add_assoc]

end Cache

end CacheAside

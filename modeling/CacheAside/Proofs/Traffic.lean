import CacheAside.Proofs.Answered
import CacheAside.Proofs.FirstValues
import CacheAside.Proofs.Observed
import CacheAside.Proofs.Soundness

/-!
# The store traffic of a batch

Every call that a batch makes on a recording store, with the bytes it sends and in the order of the
calls: the question about its keys, and one write for each key whose value is to be cached. A write
that fails keeps no other from being made.
-/

namespace CacheAside

/-- An attempt as the store itself records it. -/
def Attempt.call : Attempt → StoreCall
  | .get key => .get key
  | .getMany keys => .getMany keys
  | .set key ttl _ => .set key ttl
  | .add key ttl _ => .add key ttl
  | .delete key => .delete key

/-- The bytes under a key that a read is told; none if reads are to fail. -/
def Observed.told (contents : Observed RecordingStore) (now : Int64) (key : Key) : Option Bytes :=
  if contents.contents.failures.reads then none else contents.contents.memory.lookup now key

namespace Store

/-! ## What has been sent -/

/-- From one scene to the other exactly these calls have been attempted, and the store has recorded
each. -/
structure Sends (attempts : List Attempt) (s t : Scene (Observed RecordingStore)) : Prop where
  observed : t.contents.attempts = s.contents.attempts ++ attempts
  recorded : t.contents.contents.calls = s.contents.contents.calls ++ attempts.map Attempt.call

variable {s t u : Scene (Observed RecordingStore)} {attempts attempts' : List Attempt}
  {calls : List StoreCall}

theorem Sends.refl (s : Scene (Observed RecordingStore)) : Sends [] s s := ⟨by simp, by simp⟩

theorem Sends.trans (h : Sends attempts s t) (h' : Sends attempts' t u) :
    Sends (attempts ++ attempts') s u :=
  ⟨by rw [h'.observed, h.observed, List.append_assoc],
    by rw [h'.recorded, h.recorded, List.map_append, List.append_assoc]⟩

theorem sends_observing {α : Type} (attempt : Attempt) (operation : String)
    (fails : FailurePlan → Bool) (onMemory : Call MemoryStore α)
    (s : Scene (Observed RecordingStore)) :
    Sends [attempt] s
      (observing [attempt] (Store.recorded attempt.call operation fails onMemory) s).2 :=
  ⟨rfl, calls_recorded attempt.call operation fails (s.withContents s.contents.contents)⟩

/-- A trace tells what has been sent up to the bytes. -/
theorem Trace.exists_sends (h : recording.observed.Trace calls s t) :
    ∃ attempts, attempts.map Attempt.call = calls ∧ Sends attempts s t := by
  induction h with
  | refl s => exact ⟨[], rfl, .refl s⟩
  | log e _ ih =>
      obtain ⟨attempts, hcalls, hsends⟩ := ih
      exact ⟨attempts, hcalls, hsends.observed, hsends.recorded⟩
  | get key _ ih =>
      obtain ⟨attempts, rfl, hsends⟩ := ih
      exact ⟨_, by simp [Attempt.call], hsends.trans (sends_observing (.get key) ..)⟩
  | getMany keys _ ih =>
      obtain ⟨attempts, rfl, hsends⟩ := ih
      exact ⟨_, by simp [Attempt.call], hsends.trans (sends_observing (.getMany keys) ..)⟩
  | set key ttl bytes _ ih =>
      obtain ⟨attempts, rfl, hsends⟩ := ih
      exact ⟨_, by simp [Attempt.call], hsends.trans (sends_observing (.set key ttl bytes) ..)⟩
  | add key ttl bytes _ ih =>
      obtain ⟨attempts, rfl, hsends⟩ := ih
      exact ⟨_, by simp [Attempt.call], hsends.trans (sends_observing (.add key ttl bytes) ..)⟩
  | delete key _ ih =>
      obtain ⟨attempts, rfl, hsends⟩ := ih
      have hdelete := sends_observing (.delete key) "delete" (·.deletes.contains key)
        (memory.delete key)
      exact ⟨_, by simp [Attempt.call], hsends.trans (hdelete _)⟩

theorem Trace.sends (h : recording.observed.Trace calls s t)
    (hattempts : t.contents.attempts = s.contents.attempts ++ attempts) : Sends attempts s t := by
  obtain ⟨found, -, hsends⟩ := h.exists_sends
  obtain rfl : found = attempts := List.append_cancel_left (hsends.observed.symm.trans hattempts)
  exact hsends

theorem told_getMany {keys : List Key} {key : Key} (hkey : key ∈ keys) :
    (recording.observed.getMany keys s).1.toOption.bind (·.find? key) =
      s.contents.told s.now key := by
  obtain ⟨⟨⟨memory, calls, reads, writes, deletes⟩, attempts⟩, now, patience, events⟩ := s
  cases reads with
  | true => rfl
  | false => exact (Table.find?_ofKeys ..).trans (if_pos hkey)

end Store

namespace Cache

open Store

variable {υ ε : Type} {κ τ : Kind} {c : Cache (Observed RecordingStore)} {o : Options}
  {xs : List κ} {keyOf : κ → Key} {keys : List Key} {w w' : World (Observed RecordingStore) υ}

/-! ## Questions and writes -/

/-- The question about many keys sends no bytes, so its trace tells all. -/
theorem sends_bulkCalls {s t : Scene (Observed RecordingStore)}
    (h : recording.observed.Trace (bulkCalls o keys) s t) : Sends (bulkAttempts o keys) s t := by
  obtain ⟨attempts, hcalls, hsends⟩ := h.exists_sends
  unfold bulkCalls at hcalls
  unfold bulkAttempts
  split at hcalls
  · next hbypass =>
      rw [List.map_eq_nil_iff] at hcalls
      rwa [if_pos hbypass, ← hcalls]
  · next hbypass =>
      obtain ⟨attempt, rfl, hcall⟩ := List.map_eq_singleton_iff.mp hcalls
      cases attempt with
      | getMany keys' =>
          obtain rfl : keys' = keys := by simpa [Attempt.call] using hcall
          rwa [if_neg hbypass]
      | _ => simp [Attempt.call] at hcall

theorem sends_of_noted (h : recording.observed.Noted w w') : Sends [] w.scene w'.scene := by
  obtain ⟨n, h⟩ := h
  obtain ⟨attempts, hcalls, hsends⟩ := h.scene.exists_sends
  rw [List.map_eq_nil_iff] at hcalls
  rwa [← hcalls]

/-- The writes of a call are sent one by one. -/
theorem sends_writeBack (hstore : c.store = recording.observed) (hinline : o.writeBack = .inline)
    (writes : List PendingWrite) :
    Sends (writes.map (attemptOf (c.ttl o))) w.scene (c.writeBack o writes w).scene := by
  have htrace := trace_writeBack (c := c) (w := w) hinline writes
  rw [hstore] at htrace
  refine htrace.sends ?_
  have htrail := congrArg Trail.attempts (trail_writeBack (o := o) (w := w) hstore writes)
  rwa [written, if_neg (by simp [hinline])] at htrail

/-- What is sent for a key and its value: the bytes of a value, over whatever is stored; that there
is none on demand only, and over what is stored only if that is stale. Either is to live as long as
the options say, or else as long as is usual for the cache. -/
def sent (c : Cache (Observed RecordingStore)) (o : Options) (stale : Bool) (key : Key)
    (v : Option τ) : Option Attempt :=
  let ttl := o.ttl.getD c.config.defaultTtl
  match v with
  | some v => (c.codec.encodeOption (some v)).toOption.map (.set key ttl)
  | none =>
    if o.addNulls then
      (c.codec.encodeOption (none : Option τ)).toOption.map
        (if stale then .set key ttl else .add key ttl)
    else none

theorem map_attemptOf_writeFor (stale : Key → Bool) (key : Key) (v : Option τ) :
    (c.writeFor o stale key v).map (attemptOf (c.ttl o)) =
      c.sent o (o.bypass || stale key) key v := by
  cases v with
  | some v =>
      rw [writeFor, writeOf, sent, Option.map_map]
      rfl
  | none =>
      simp only [writeFor, sent, writeOf, nullMode]
      cases o.addNulls with
      | false => rfl
      | true => cases o.bypass || stale key <;> exact Option.map_map ..

/-! ## What a read is told -/

/-- What a batch read is told about a key; nothing if it does not ask. -/
def told (o : Options) (s : Scene (Observed RecordingStore)) (key : Key) : Option Bytes :=
  if o.bypass then none else s.contents.told s.now key

variable {s : Scene (Observed RecordingStore)} {key : Key}

theorem bind_bulkAnswer (hstore : c.store = recording.observed) (hkey : key ∈ keys) :
    (c.bulkAnswer o keys s).bind (·.find? key) = told o s key := by
  unfold bulkAnswer told
  split
  · rfl
  · rw [hstore, told_getMany hkey]

theorem recalled_eq_told (hstore : c.store = recording.observed) (hkey : key ∈ keys) :
    c.recalled o τ keys s key = (told o s key).bind (c.entryIn? τ) := by
  rw [recalled, bind_bulkAnswer hstore hkey]

theorem missedKeys_eq_told (hstore : c.store = recording.observed) :
    c.missedKeys o τ keys s = keys.filter fun key => ((told o s key).bind (c.entryIn? τ)).isNone :=
  List.filter_congr fun key hkey => by rw [recalled_eq_told hstore hkey]

/-- Under a missed key whatever has been told is stale. -/
theorem isStale_eq_told (hstore : c.store = recording.observed)
    (hkey : key ∈ c.missedKeys o τ keys s) : c.isStale o τ keys s key = (told o s key).isSome := by
  obtain ⟨hmem, hnone⟩ := mem_missedKeys.mp hkey
  rw [isStale, bind_bulkAnswer hstore hmem, hnone, Option.isNone_none, Bool.and_true]

/-- What the writes for missed keys send. -/
theorem map_attemptOf_writesFor (hstore : c.store = recording.observed)
    (results : List (Option τ)) :
    (c.writesFor o keys s ((c.missedKeys o τ keys s).zip results)).map (attemptOf (c.ttl o)) =
      ((keys.filter fun key => ((told o s key).bind (c.entryIn? τ)).isNone).zip results).filterMap
        fun p => c.sent o (o.bypass || (told o s p.1).isSome) p.1 p.2 := by
  rw [writesFor, List.map_filterMap, ← missedKeys_eq_told hstore]
  refine List.filterMap_congr fun p hp => ?_
  have hkey := (List.of_mem_zip (a := p.1) (b := p.2) hp).1
  rw [map_attemptOf_writeFor, isStale_eq_told hstore hkey]

/-- What the writes for objects send: for each different key its first value. -/
theorem map_attemptOf_firstWrites {results : List (Option τ)}
    (hlength : results.length = keys.length) (w : World (Observed RecordingStore) υ) :
    (c.firstWrites o (keys.zip results) [] w).1.map (attemptOf (c.ttl o)) =
      keys.eraseDups.filterMap fun key =>
        results[keys.idxOf key]?.bind (c.sent o true key) := by
  rw [firstWrites_eq, List.map_filterMap, List.map_fst_zip (Nat.le_of_eq hlength.symm)]
  refine List.filterMap_congr fun key hkey => ?_
  rw [lookup_zip (List.mem_eraseDups.mp hkey), Option.map_bind]
  congr 1
  funext v
  rw [Function.comp_apply, writeOver, map_attemptOf_writeFor, Bool.or_true]

/-! ## Whole calls -/

theorem readMany_sends (hstore : c.store = recording.observed)
    (henabled : c.config.disabled = false) (hinline : o.writeBack = .inline)
    (hkeys : Batch.Assigns c.keys o.keyspace xs keyOf) (hne : xs ≠ [])
    (hposition : o.keysFromResults = false) :
    let keys := (xs.map keyOf).eraseDups
    let missed := keys.filter fun key => ((told o w.scene key).bind (c.entryIn? τ)).isNone
    ∃ asked w₁, asked.map keyOf = missed ∧ Sends (bulkAttempts o keys) w.scene w₁.scene ∧
      ∀ (source : List κ → Computation _ υ ε (List (Option τ))) results w₂,
        Answers source asked w₁ results w₂ →
        ∃ values w₃, c.readMany o xs source w = (.ok values, w₃) ∧
          Sends ((missed.zip results).filterMap fun p =>
            c.sent o (o.bypass || (told o w.scene p.1).isSome) p.1 p.2) w₂.scene w₃.scene := by
  intro keys missed
  obtain ⟨w₁, hleads, hread⟩ := readMany_answered (ε := ε) (τ := τ) (w := w) hne henabled hposition
    hkeys
  have hmissed : c.missedKeys o τ keys w.scene = missed := missedKeys_eq_told hstore
  -- The question sends no bytes, so its trace tells all; for the writes there are the attempts.
  have hasked := sends_bulkCalls (hstore ▸ hleads.scene)
  refine ⟨_, w₁, (map_askedObjects ..).trans hmissed, hasked, fun source results w₂ hanswers => ?_⟩
  obtain ⟨w₃, hnoted, hresult⟩ := hread source results w₂ hanswers
  have hwrites := sends_writeBack (w := w₃) hstore hinline
    (c.writesFor o keys w.scene ((c.missedKeys o τ keys w.scene).zip results))
  rw [map_attemptOf_writesFor hstore] at hwrites
  exact ⟨_, _, hresult, (sends_of_noted (hstore ▸ hnoted)).trans hwrites⟩

theorem writeMany_sends (hstore : c.store = recording.observed)
    (henabled : c.config.disabled = false) (hinline : o.writeBack = .inline)
    (hvalid : o.validate = .ok ()) (hkeys : ∀ x ∈ xs, c.keys.keyFor o.keyspace x = .ok (keyOf x))
    {compute : Computation _ υ ε (List (Option τ))} {results : List (Option τ)}
    {w₁ : World (Observed RecordingStore) υ} (hcompute : compute w = (.ok results, w₁))
    (hlength : results.length = xs.length) :
    ∃ w₂, c.writeMany o xs compute w = (.ok results, w₂) ∧
      Sends ((xs.map keyOf).eraseDups.filterMap fun key =>
        results[(xs.map keyOf).idxOf key]?.bind (c.sent o true key)) w₁.scene w₂.scene := by
  have hlength' : results.length = (xs.map keyOf).length := by rw [hlength, List.length_map]
  have hnoted : recording.observed.Noted w₁
      (c.firstWrites o ((xs.map keyOf).zip results) [] w₁).2 := noted_firstWrites _ _ _
  have hwrites := sends_writeBack (w := (c.firstWrites o ((xs.map keyOf).zip results) [] w₁).2)
    hstore hinline (c.firstWrites o ((xs.map keyOf).zip results) [] w₁).1
  rw [map_attemptOf_firstWrites hlength'] at hwrites
  refine ⟨_, ?_, (sends_of_noted hnoted).trans hwrites⟩
  simp only [writeMany, henabled, Bool.false_eq_true, ↓reduceIte, hvalid, keysFor_eq_ok hkeys,
    hcompute, hlength']

/-- All that batches by position make a recording store do, in whatever state it is and whichever
calls are to fail. A read takes for equal objects the key of the first (`Batch.assigns_of_own`). -/
theorem traffic_of_batches (hstore : c.store = recording.observed)
    (henabled : c.config.disabled = false) (hinline : o.writeBack = .inline)
    (hvalid : o.validate = .ok ()) :
    (∀ keyOf, Batch.Assigns c.keys o.keyspace xs keyOf → xs ≠ [] → o.keysFromResults = false →
      let keys := (xs.map keyOf).eraseDups
      let missed := keys.filter fun key => ((told o w.scene key).bind (c.entryIn? τ)).isNone
      ∃ asked w₁, asked.map keyOf = missed ∧
        Sends (if o.bypass then [] else [.getMany keys]) w.scene w₁.scene ∧
        ∀ (source : List κ → Computation _ υ ε (List (Option τ))) results w₂,
          Answers source asked w₁ results w₂ →
          ∃ values w₃, c.readMany o xs source w = (.ok values, w₃) ∧
            Sends ((missed.zip results).filterMap fun p =>
              c.sent o (o.bypass || (told o w.scene p.1).isSome) p.1 p.2) w₂.scene w₃.scene) ∧
    ∀ keyOf, (∀ x ∈ xs, c.keys.keyFor o.keyspace x = .ok (keyOf x)) →
      ∀ (compute : Computation _ υ ε (List (Option τ))) results w₁,
        compute w = (.ok results, w₁) → results.length = xs.length →
        ∃ w₂, c.writeMany o xs compute w = (.ok results, w₂) ∧
          Sends ((xs.map keyOf).eraseDups.filterMap fun key =>
            results[(xs.map keyOf).idxOf key]?.bind (c.sent o true key)) w₁.scene w₂.scene :=
  ⟨fun _ hkeys => readMany_sends hstore henabled hinline hkeys, fun _ hkeys _ _ _ hcompute hlength =>
    writeMany_sends hstore henabled hinline hvalid hkeys hcompute hlength⟩

/-- All writes are to fail, and each is attempted, with the lifetime of the options. -/
theorem traffic_of_failing_writes :
    let c : Cache (Observed RecordingStore) := { store := recording.observed }
    let o : Options := { keyspace := "n", addNulls := true, ttl := some 60 }
    let w : World (Observed RecordingStore) Unit :=
      { scene := { contents := ⟨{ failures := { writes := true } }, []⟩, now := 0 }, outside := () }
    let source : List Kind.word32 → Computation _ Unit Unit (List (Option Kind.word32)) :=
      fun _ w => (.ok [some 7, none], w)
    Sends [.getMany [⟨"n:1"⟩, ⟨"n:2"⟩], .set ⟨"n:1"⟩ 60 [0x37], .add ⟨"n:2"⟩ 60 sentinel]
      w.scene (c.readMany o [(1 : UInt32), 2, 1] source w).2.scene := by
  intro c o w source
  have hkeys : ∀ x ∈ ([1, 2, 1] : List Kind.word32),
      c.keys.keyFor "n" x = .ok ⟨"n:" ++ toString x.toNat⟩ := by
    intro x hx
    simp only [List.mem_cons, List.not_mem_nil, or_false] at hx
    rcases hx with rfl | rfl | rfl <;> decide +kernel
  obtain ⟨hread, -⟩ := traffic_of_batches (c := c) (o := o) (τ := .word32) (ε := Unit) (w := w)
    rfl rfl rfl (by decide +kernel)
  obtain ⟨asked, w₁, hasked, hfirst, hread⟩ :=
    hread _ (Batch.assigns_of_ne (by decide) hkeys) (by decide) rfl
  have hlength : asked.length = 2 := by
    have htwo := congrArg List.length hasked
    rw [List.length_map] at htwo
    exact htwo.trans (by decide +kernel)
  have hnil : asked ≠ [] := fun h => by simp [h] at hlength
  obtain ⟨values, w₃, hresult, hsends⟩ := hread source [some 7, none] w₁
    ⟨hlength.symm, by rw [if_neg hnil]⟩
  rw [hresult]
  exact hfirst.trans hsends

end Cache

end CacheAside

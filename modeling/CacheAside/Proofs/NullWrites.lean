import CacheAside.Proofs.Confined
import CacheAside.Proofs.ReadYourWrites

/-!
# Writing that a key has no value

A write through the cache after which a key has no value. When the null entry is written, it goes
over whatever is stored, and no read gives an older value again. A batch that is not to write nulls
leaves the key as it is.
-/

namespace CacheAside

open Rig

/-! ## What is kept and what is read -/

namespace Rig.Base

variable {b b' : Base} {key : Key} {now : Int64}

/-- What is to be read of what is kept. -/
def readable (now : Int64) : StoredValue ⊕ Bytes → Option Bytes
  | .inl v => if v.isLive now then some v.bytes else none
  | .inr raw => DiskStore.payload? now raw

theorem lookup_eq_kept (b : Base) (now : Int64) (key : Key) :
    b.lookup now key = (b.kept key).bind (readable now) := by
  have hmemory : ∀ m : MemoryStore, m.lookup now key =
      ((m.table.find? key).map (Sum.inl (β := Bytes))).bind (readable now) := fun m => by
    rw [MemoryStore.lookup]
    cases m.table.find? key <;> rfl
  cases b with
  | memory m => exact hmemory m
  | recording r => exact hmemory r.memory
  | disk d =>
      have hdisk : d.lookup now key = ((d.table.find? key).map Sum.inr).bind (readable now) := by
        rw [DiskStore.lookup]
        cases d.table.find? key <;> rfl
      exact hdisk

/-- Whatever the clock says, nothing is to be read under a key but given bytes. -/
def HoldsOnly (b : Base) (key : Key) (bytes : Bytes) : Prop :=
  ∀ now found, b.lookup now key = some found → found = bytes

theorem HoldsOnly.of_kept {bytes : Bytes} (h : b.HoldsOnly key bytes)
    (hkept : b'.kept key = b.kept key) : b'.HoldsOnly key bytes := fun now found hfound =>
  h now found (by rw [lookup_eq_kept, ← hkept, ← lookup_eq_kept, hfound])

end Rig.Base

/-! ## One write -/

section
variable {p : PendingWrite} {ttl : UInt32} {writes : List PendingWrite} {s : Scene Base} {key : Key}

theorem PendingWrite.kept_call (hne : p.key ≠ key) :
    (p.call ttl s).2.contents.kept key = s.contents.kept key := by
  obtain ⟨j, bytes, mode⟩ := p
  cases mode with
  | overwrite => exact (Base.separates_store.set j ttl bytes key hne).eq s
  | ifAbsent => exact (Base.separates_store.add j ttl bytes key hne).eq s

theorem MemoryStore.eq_of_lookup_put {m : MemoryStore} {now later : Int64} {bytes found : Bytes}
    (h : (m.put now key ttl bytes).lookup later key = some found) : found = bytes := by
  rw [MemoryStore.lookup_put, if_pos rfl] at h
  split at h
  · exact (Option.some.inj h).symm
  · cases h

theorem DiskStore.eq_of_lookup_put {d d' : DiskStore} {now later : Int64} {bytes found : Bytes}
    (hput : d.put now key ttl bytes = .ok d') (h : d'.lookup later key = some found) :
    found = bytes := by
  rw [DiskStore.lookup, DiskStore.table_of_put hput, Table.find?_insert, if_pos rfl,
    Option.bind_some] at h
  exact DiskStore.payload?_encode h

/-- A store that works makes a write over whatever is stored, and works on. -/
theorem Rig.Base.Works.call (h : s.contents.Works ttl s.now (p :: writes)) :
    (p.call ttl s).2.now = s.now ∧ (p.call ttl s).2.contents.Works ttl s.now writes ∧
      (p.mode = .overwrite → (p.call ttl s).2.contents.HoldsOnly p.key p.bytes) := by
  obtain ⟨contents, now, patience, events⟩ := s
  have hmemory : p.mode = .overwrite → ∀ (m : MemoryStore) later found,
      (p.toMemory ttl now m).lookup later p.key = some found → found = p.bytes := by
    intro hmode m later found hfound
    rw [PendingWrite.toMemory, hmode] at hfound
    exact MemoryStore.eq_of_lookup_put hfound
  cases contents with
  | memory m =>
      rw [PendingWrite.call_memory]
      exact ⟨rfl, trivial, fun hmode => hmemory hmode m⟩
  | recording r =>
      obtain ⟨calls, hcall⟩ := PendingWrite.call_recording (p := p) h.2
      rw [hcall]
      exact ⟨rfl, h, fun hmode => hmemory hmode r.memory⟩
  | disk d =>
      obtain ⟨d', hdisk, htakes⟩ := h
      rw [PendingWrite.call_disk hdisk]
      refine ⟨rfl, htakes, fun hmode later found hfound => ?_⟩
      rw [PendingWrite.toDisk, hmode] at hdisk
      exact DiskStore.eq_of_lookup_put hdisk hfound

end

/-- No store reports that a write has been made. -/
theorem PendingWrite.events_call (p : PendingWrite) (ttl : UInt32) (s : Scene Base) :
    (p.call ttl s).2.events = s.events := by
  have hrecorded : ∀ (made : StoreCall) (operation : String) {α : Type}
      (onMemory : Call MemoryStore α), (∀ s, (onMemory s).2.events = s.events) →
      ∀ s, (Store.recorded made operation (·.writes) onMemory s).2.events = s.events := by
    rintro made operation α onMemory hmemory ⟨r, now, patience, events⟩
    cases hfails : r.failures.writes with
    | true => rw [Store.recorded_of_fails hfails]
    | false =>
        rw [Store.recorded_of_not_fails hfails]
        exact hmemory _
  have hattempt : ∀ {α : Type} (change : DiskStore → Int64 → Except DiskError (α × DiskStore)) s,
      (Store.attempt change s).2.events = s.events := fun change s => by
    unfold Store.attempt
    split <;> rfl
  obtain ⟨contents, now, patience, events⟩ := s
  obtain ⟨key, bytes, mode⟩ := p
  cases contents with
  | memory m => cases mode <;> rfl
  | recording r =>
      cases mode with
      | overwrite => exact hrecorded (.set key ttl) "set" _ (fun _ => rfl) ⟨r, now, patience, events⟩
      | ifAbsent => exact hrecorded (.add key ttl) "add" _ (fun _ => rfl) ⟨r, now, patience, events⟩
  | disk d =>
      cases mode with
      | overwrite =>
          exact hattempt (fun d now => (d.put now key ttl bytes).map ((), ·)) ⟨d, now, patience, events⟩
      | ifAbsent =>
          exact hattempt (fun d now => d.add now key ttl bytes) ⟨d, now, patience, events⟩

/-! ## The writes of a call -/

namespace Cache

section
variable {υ : Type} {τ : Kind} {c : Cache Base} {o : Options} {ttl : UInt32}
  {writes : List PendingWrite} {w w₁ w' : World Base υ} {key : Key}

theorem kept_applyWrite {p : PendingWrite} (hne : p.key ≠ key) :
    (applyWrite Base.store ttl w p).scene.contents.kept key = w.scene.contents.kept key := by
  obtain ⟨es, hscene⟩ := scene_applyWrite ttl p w
  rw [hscene]
  exact p.kept_call hne

theorem kept_runJob (hne : ∀ p ∈ writes, p.key ≠ key) :
    (runJob Base.store w ⟨writes, ttl⟩).scene.contents.kept key = w.scene.contents.kept key := by
  induction writes generalizing w with
  | nil => rfl
  | cons p writes ih =>
      rw [runJob_cons, ih fun q hq => hne q (List.mem_cons_of_mem _ hq),
        kept_applyWrite (hne p List.mem_cons_self)]

/-- Writes only add to the log. -/
theorem exists_events_runJob (writes : List PendingWrite) (ttl : UInt32) (w : World Base υ) :
    ∃ es, (runJob Base.store w ⟨writes, ttl⟩).scene.events = w.scene.events ++ es := by
  induction writes generalizing w with
  | nil => exact ⟨[], (List.append_nil _).symm⟩
  | cons p writes ih =>
      obtain ⟨es, hscene⟩ := scene_applyWrite ttl p w
      obtain ⟨es', hlater⟩ := ih (applyWrite Base.store ttl w p)
      refine ⟨es ++ es', ?_⟩
      rw [runJob_cons, hlater, hscene, Scene.logAll, p.events_call, List.append_assoc]

/-- A write over whatever is stored shows when all have been made, if they are to different keys. -/
theorem holdsOnly_runJob (hworks : w.scene.contents.Works ttl w.scene.now writes)
    (hnodup : (writes.map (·.key)).Nodup) {p : PendingWrite} (hp : p ∈ writes)
    (hmode : p.mode = .overwrite) :
    (runJob Base.store w ⟨writes, ttl⟩).scene.contents.HoldsOnly p.key p.bytes := by
  induction writes generalizing w with
  | nil => cases hp
  | cons q writes ih =>
      obtain ⟨es, hscene⟩ := scene_applyWrite ttl q w
      obtain ⟨hnow, hworks', hholds⟩ := hworks.call
      obtain ⟨hfresh, hnodup'⟩ := List.nodup_cons.mp hnodup
      rw [runJob_cons]
      rcases List.mem_cons.mp hp with rfl | hp
      · refine Base.HoldsOnly.of_kept (hholds hmode) ?_
        rw [kept_runJob fun r hr hkey => hfresh (List.mem_map.mpr ⟨r, hr, hkey⟩), hscene]
        rfl
      · refine ih ?_ hnodup' hp
        rw [hscene]
        exact hnow ▸ hworks'

/-! ## Reads of a key without a value -/

/-- A batch read gives each key the entry that it recalls, or the null entry, or a value that its
source has just answered. -/
theorem readMany_eq_ok {σ υ ε : Type} {κ τ : Kind} {c : Cache σ} {o : Options} {w w' : World σ υ}
    (henabled : c.config.disabled = false) {ys : List κ}
    {source : List κ → Computation σ υ ε (List (Option τ))} {vs : List (Option τ)}
    (h : c.readMany o ys source w = (.ok vs, w')) :
    ∃ (keyOf : κ → Key) (entryOf : Key → Entry τ),
      Batch.Assigns c.keys o.keyspace ys keyOf ∧
      vs = present o.skipNulls (ys.map fun y => entryOf (keyOf y)) ∧
      ∀ key, c.recalled o τ (ys.map keyOf).eraseDups w.scene key = some (entryOf key) ∨
        entryOf key = .null ∨ ∃ asked w₁ results w₂ a, source asked w₁ = (.ok results, w₂) ∧
          some a ∈ results ∧ entryOf key = .value a := by
  by_cases hnil : ys = []
  · subst hnil
    obtain ⟨rfl, -⟩ : [] = vs ∧ w = w' := by simpa [readMany] using h
    exact ⟨fun _ => default, fun _ => .null, ⟨by simp, fun _ _ _ _ _ => rfl⟩, rfl,
      fun _ => .inr (.inl rfl)⟩
  let r : Request σ υ ε Unit κ τ := .readMany o ys source
  have hempty : r.isEmptyRead = false := by simpa [r, Request.isEmptyRead] using hnil
  have hvalid : r.Valid c := Request.valid_of_not_faulty fun hfaulty => by
    obtain ⟨e, hrun⟩ := Request.run_of_faulty (w := w) henabled r hempty hfaulty
    have hok : r.run c w = (.ok (.values vs), w') := by simp only [r, Request.run, Request.wrap, h]
    rw [hok] at hrun
    cases hrun
  obtain ⟨keyOf, hkeys⟩ : ∃ keyOf : κ → Key, Batch.Assigns c.keys o.keyspace ys keyOf :=
    Batch.exists_assigns hvalid.objects
  obtain ⟨b, w₁, hb, -, hread⟩ := readMany_eq (ε := ε) (o := o) (w := w) hnil henabled hkeys
    hvalid.kind
  let keys := (ys.map keyOf).eraseDups
  rw [hread] at h
  split at h
  · rename_i hmissed
    rw [hb.finish hmissed] at h
    cases h
    refine ⟨keyOf, fun key => (c.recalled o τ keys w.scene key).getD .null, hkeys, rfl,
      fun key => ?_⟩
    cases hrecall : c.recalled o τ keys w.scene key with
    | some e => exact .inl (by simp [hrecall])
    | none => exact .inr (.inl (by simp [hrecall]))
  split at h
  · cases h
  rename_i results w₂ hsource
  -- Either alignment takes what is recalled first, and a value among the results else.
  have hentry : ∀ (key : Key) (found : Option τ), (∀ a, found = some a → some a ∈ results) →
      let e := (c.recalled o τ keys w.scene key).getD (.ofOption found)
      c.recalled o τ keys w.scene key = some e ∨ e = .null ∨ ∃ asked w₁ results w₂ a,
        source asked w₁ = (.ok results, w₂) ∧ some a ∈ results ∧ e = .value a := by
    intro key found hfound
    cases c.recalled o τ keys w.scene key with
    | some e => exact .inl rfl
    | none =>
        cases found with
        | none => exact .inr (.inl rfl)
        | some a => exact .inr (.inr ⟨_, _, _, _, a, hsource, hfound a rfl, rfl⟩)
  cases hmode : o.keysFromResults with
  | false =>
      simp only [hmode, Bool.false_eq_true, ↓reduceIte] at h
      by_cases hlength : results.length = (c.missedKeys o τ keys w.scene).length
      · obtain ⟨b', w₃, -, halign, hb', hfind⟩ := hb.alignByPosition (w := w₂) hlength
        simp only [halign, finish_eq_ok hb' hfind] at h
        cases h
        refine ⟨keyOf, c.positional o keys w.scene results, hkeys, rfl, fun key => ?_⟩
        exact hentry key _ fun a ha => List.mem_of_getElem? (Option.join_eq_some_iff.mp ha)
      · simp only [hb.alignByPosition_eq_error hlength] at h
        cases h
  | true =>
      simp only [hmode, ↓reduceIte] at h
      cases hrows : (results.filterMap id).mapM (c.keys.keyForResult o.keyspace) with
      | error e =>
          obtain ⟨w₃, -, halign⟩ := alignByKey_eq_error (b := b) (w := w₂) hrows
          simp only [halign] at h
          cases h
      | ok rowKeys =>
          obtain ⟨rowKey, hrowKey⟩ := exists_of_mapM_ok hrows
          obtain ⟨b', w₃, -, halign, hb', hfind⟩ := hb.alignByKey (w := w₂)
            fun v hv => hrowKey v (by simpa using hv)
          simp only [halign, finish_eq_ok hb' hfind] at h
          cases h
          refine ⟨keyOf, c.matched o keys w.scene rowKey (results.filterMap id), hkeys, rfl,
            fun key => ?_⟩
          exact hentry key _ fun a ha => by simpa using List.mem_of_find?_eq_some ha

/-- A read gives the entry that it recalls, or what its source has just answered. -/
theorem read_eq_ok {σ υ ε : Type} {κ τ : Kind} {c : Cache σ} {o : Options} {w w' : World σ υ}
    (henabled : c.config.disabled = false) {y : κ} {key : Key}
    (hkey : c.keys.keyFor o.keyspace y = .ok key) {compute : Computation σ υ ε (Option τ)}
    {v : Option τ} (h : c.read o y compute w = (.ok v, w')) :
    (∃ e, c.recalledOne o τ key w.scene = some e ∧ v = e.toOption) ∨
      ∃ w₁ w₂, compute w₁ = (.ok v, w₂) := by
  simp only [read, henabled, Options.validate_of_keyFor hkey, hkey, Bool.false_eq_true,
    ↓reduceIte] at h
  split at h
  · cases h
  have hfound := found?_lookup (c := c) (o := o) (τ := τ) (w := w) key
  split at h
  · rename_i e w₁ hlookup
    rw [hlookup] at hfound
    cases h
    exact .inl ⟨e, hfound.symm, rfl⟩
  · split at h
    · cases h
    · rename_i w₂ hcompute
      cases h
      exact .inr ⟨_, _, hcompute⟩

/-- Reads give a key no value, or one that their source has just answered. A batch read takes for
equal objects the key of the first. -/
structure Forgets (c : Cache Base) (τ : Kind) (key : Key) (w : World Base υ) : Prop where
  readMany {ε : Type} {κ : Kind} (o : Options) (ys : List κ)
    (source : List κ → Computation Base υ ε (List (Option τ))) (vs : List (Option τ))
    (w' : World Base υ) : c.readMany o ys source w = (.ok vs, w') →
    ∃ (keyOf : κ → Key) (entryOf : Key → Entry τ),
      Batch.Assigns c.keys o.keyspace ys keyOf ∧
      vs = present o.skipNulls (ys.map fun y => entryOf (keyOf y)) ∧
      ((∃ y ∈ ys, keyOf y = key) → entryOf key = .null ∨
        ∃ asked w₁ results w₂ a, source asked w₁ = (.ok results, w₂) ∧ some a ∈ results ∧
          entryOf key = .value a)
  read {ε : Type} {κ : Kind} (o : Options) (y : κ) (compute : Computation Base υ ε (Option τ))
    (v : Option τ) (w' : World Base υ) : c.keys.keyFor o.keyspace y = .ok key →
    c.read o y compute w = (.ok v, w') → v = none ∨ ∃ w₁ w₂, compute w₁ = (.ok v, w₂)

theorem forgets_of_holdsOnly (hstore : c.store = Base.store)
    (henabled : c.config.disabled = false) {null : Bytes}
    (hnull : c.codec.decode τ null = .ok .null)
    (h : w.scene.contents.HoldsOnly key null) : c.Forgets τ key w := by
  have hentry : ∀ {bytes e}, w.scene.contents.lookup w.scene.now key = some bytes →
      c.entryIn? τ bytes = some e → e = .null := by
    intro bytes e hbytes he
    rw [h _ _ hbytes, entryIn?, hnull] at he
    exact (Option.some.inj he).symm
  constructor
  · intro ε κ o ys source vs w' hread
    obtain ⟨keyOf, entryOf, hkeys, hvs, hentries⟩ := readMany_eq_ok henabled hread
    refine ⟨keyOf, entryOf, hkeys, hvs, ?_⟩
    rintro ⟨y, hy, rfl⟩
    rcases hentries (keyOf y) with hrecall | hother
    · left
      obtain ⟨bytes, hbytes, he⟩ := Option.bind_eq_some_iff.mp hrecall
      rw [bulkAnswer_find? hstore (List.mem_eraseDups.mpr (List.mem_map_of_mem hy))] at hbytes
      split at hbytes
      · cases hbytes
      · exact hentry hbytes he
    · exact hother
  · intro ε κ o y compute v w' hkey hread
    refine (read_eq_ok henabled hkey hread).imp_left ?_
    rintro ⟨e, hrecall, rfl⟩
    unfold recalledOne at hrecall
    split at hrecall
    · cases hrecall
    rw [hstore, Base.fst_get] at hrecall
    obtain ⟨bytes, hbytes, he⟩ := Option.bind_eq_some_iff.mp hrecall
    split at hbytes
    · cases hbytes
    · rw [hentry hbytes he]
      rfl

/-! ## Writes of nulls -/

/-- A key whose first value is null: the null entry is the only one that is left under it, at any
time, and reads have forgotten every value that was there. -/
structure Vacated (c : Cache Base) (τ : Kind) (key : Key) (w : World Base υ) : Prop where
  entry : ∃ null, c.codec.encodeOption (none : Option τ) = .ok null ∧
    w.scene.contents.HoldsOnly key null
  reads (v : World Base υ) : v.scene.contents.kept key = w.scene.contents.kept key →
    c.Forgets τ key v

/-- The first null of a key is reported, if nulls are not to be written. -/
theorem nullSkipped_mem_firstWrites (hnulls : o.addNulls = false) {pairs : List (Key × Option τ)}
    (hfirst : pairs.lookup key = some none) {seen : List Key} (hseen : key ∉ seen)
    (w : World Base υ) : ∃ es, .nullSkipped key ∈ es ∧
      (c.firstWrites o pairs seen w).2.scene.events = w.scene.events ++ es := by
  induction pairs generalizing seen w with
  | nil => cases hfirst
  | cons p pairs ih =>
      obtain ⟨j, v⟩ := p
      have hlater (w' : World Base υ) (es : List Event) {seen' : List Key} (hseen' : key ∉ seen')
          (hevents : w'.scene.events = w.scene.events ++ es)
          (hrest : pairs.lookup key = some none) : ∃ es, .nullSkipped key ∈ es ∧
            (c.firstWrites o pairs seen' w').2.scene.events = w.scene.events ++ es := by
        obtain ⟨es', hmem, hes'⟩ := ih hrest hseen' w'
        exact ⟨es ++ es', List.mem_append_right _ hmem, by rw [hes', hevents, List.append_assoc]⟩
      by_cases hj : key = j
      · subst hj
        obtain rfl : v = none := by simpa using hfirst
        rw [firstWrites, if_neg hseen, if_pos (by simp [hnulls])]
        have hnoted : c.store.Noted (w.log (.nullSkipped key))
            (c.firstWrites o pairs (key :: seen) (w.log (.nullSkipped key))).2 :=
          noted_firstWrites pairs (key :: seen) _
        obtain ⟨es, hscene⟩ := hnoted.exists_logAll
        refine ⟨.nullSkipped key :: es, List.mem_cons_self, ?_⟩
        rw [hscene]
        exact List.append_assoc _ [_] es
      · have hrest : pairs.lookup key = some none := by
          rwa [List.lookup_cons, beq_false_of_ne hj] at hfirst
        have hseen' : key ∉ j :: seen := by simp [hj, hseen]
        rw [firstWrites]
        split
        · exact hlater w [] hseen (List.append_nil _).symm hrest
        split
        · exact hlater _ [_] hseen' rfl hrest
        · have hnoted : c.store.Noted w (c.encode j v w).2 := noted_encode j v
          obtain ⟨es, hscene⟩ := hnoted.exists_logAll
          exact hlater _ es hseen' (congrArg Scene.events hscene) hrest

theorem not_mem_overwrites {pairs : List (Key × Option τ)}
    (hfirst : pairs.lookup key = some none) :
    ∀ p ∈ c.overwrites false pairs, p.key ≠ key := by
  rintro p hp rfl
  obtain ⟨j, -, hwrite⟩ := List.mem_filterMap.mp hp
  obtain rfl := key_of_overwrites hwrite
  rw [hfirst] at hwrite
  cases hwrite

theorem WritesBack.kept {pairs : List (Key × Option τ)} (h : c.WritesBack o false pairs w w')
    (hstore : c.store = Base.store) (hinline : o.writeBack = .inline)
    (hfirst : pairs.lookup key = some none) :
    w'.scene.contents.kept key = w.scene.contents.kept key := by
  obtain ⟨w₁, hnoted, rfl⟩ := h
  obtain ⟨es, hscene⟩ := hnoted.exists_logAll
  rw [writeBack_inline hinline, hstore, kept_runJob (not_mem_overwrites hfirst), hscene]
  rfl

theorem WritesBack.vacated {pairs : List (Key × Option τ)} (h : c.WritesBack o true pairs w w')
    (hstore : c.store = Base.store) (henabled : c.config.disabled = false)
    (hnull : c.codec.KeepsNull) (hinline : o.writeBack = .inline)
    (hworks : w.scene.contents.Works (c.ttl o) w.scene.now (c.overwrites true pairs))
    (hfirst : pairs.lookup key = some none) : c.Vacated τ key w' := by
  obtain ⟨w₁, hnoted, rfl⟩ := h
  obtain ⟨es, hscene⟩ := hnoted.exists_logAll
  obtain ⟨null, hencode, hdecode⟩ := hnull τ
  have hworks₁ : w₁.scene.contents.Works (c.ttl o) w₁.scene.now (c.overwrites true pairs) := by
    rw [hscene]
    exact hworks
  have hholds := holdsOnly_runJob hworks₁ (nodup_overwrites true pairs)
    (mem_overwrites hfirst (fun _ => rfl) hencode) rfl
  rw [← hstore, ← writeBack_inline hinline] at hholds
  exact ⟨⟨null, hencode, hholds⟩, fun v hkept =>
    forgets_of_holdsOnly hstore henabled hdecode (hholds.of_kept hkept)⟩

end

section
variable {υ ε : Type} {κ τ : Kind} {c : Cache Base} {o : Options}

/-- When a batch or a single write has returned, each key whose first value is null has lost what was
under it before: the null entry has gone over it, or nothing is to be read there. Only a batch that
is not to write nulls leaves all there is under such a key as its source has left it, and reports it.
-/
theorem write_nulls_over (hstore : c.store = Base.store) (henabled : c.config.disabled = false)
    (hnull : c.codec.KeepsNull) (hinline : o.writeBack = .inline) (hvalid : o.validate = .ok ())
    (w w₁ : World Base υ) :
    (∀ (xs : List κ) (keyOf : κ → Key) (compute : Computation Base υ ε (List (Option τ)))
        (vs : List (Option τ)),
      (∀ x ∈ xs, c.keys.keyFor o.keyspace x = .ok (keyOf x)) → compute w = (.ok vs, w₁) →
      vs.length = xs.length →
      let pairs := (xs.map keyOf).zip vs
      ∃ w', c.writeMany o xs compute w = (.ok vs, w') ∧
        ∀ key, pairs.lookup key = some none →
          (o.addNulls = true →
            w₁.scene.contents.Works (c.ttl o) w₁.scene.now (c.overwrites true pairs) →
            c.Vacated τ key w') ∧
          (o.addNulls = false →
            w'.scene.contents.kept key = w₁.scene.contents.kept key ∧
            ∃ es, .nullSkipped key ∈ es ∧ w'.scene.events = w₁.scene.events ++ es)) ∧
    ∀ (x : κ) (key : Key) (compute : Computation Base υ ε (Option τ)),
      c.keys.keyFor o.keyspace x = .ok key → compute w = (.ok none, w₁) →
      ∃ w', c.write o x compute w = (.ok none, w') ∧
        (w₁.scene.contents.Works (c.ttl o) w₁.scene.now
            (c.overwrites true [(key, (none : Option τ))]) →
          c.Vacated τ key w') := by
  constructor
  · intro xs keyOf compute vs hkeys hcompute hlength pairs
    have hback : c.WritesBack o o.addNulls pairs w₁
        (c.writeBack o (c.firstWrites o pairs [] w₁).1 (c.firstWrites o pairs [] w₁).2) :=
      ⟨_, noted_firstWrites _ _ _, by rw [overwrites_of_firstWrites]⟩
    have hrun : c.writeMany o xs compute w = (.ok vs,
        c.writeBack o (c.firstWrites o pairs [] w₁).1 (c.firstWrites o pairs [] w₁).2) := by
      simp only [writeMany, henabled, hvalid, keysFor_eq_ok hkeys, hcompute, List.length_map,
        if_pos hlength, Bool.false_eq_true, ↓reduceIte]
      rfl
    refine ⟨_, hrun, fun key hfirst => ⟨fun hnulls hworks => ?_, fun hnulls => ?_⟩⟩
    · rw [hnulls] at hback
      exact hback.vacated hstore henabled hnull hinline hworks hfirst
    · rw [hnulls] at hback
      refine ⟨hback.kept hstore hinline hfirst, ?_⟩
      obtain ⟨es, hmem, hskipped⟩ := nullSkipped_mem_firstWrites (c := c) hnulls hfirst
        List.not_mem_nil w₁
      rw [writeBack_inline hinline, hstore]
      obtain ⟨es', hwritten⟩ := exists_events_runJob (c.firstWrites o pairs [] w₁).1 (c.ttl o)
        (c.firstWrites o pairs [] w₁).2
      exact ⟨es ++ es', List.mem_append_left _ hmem, by
        rw [hwritten, hskipped, List.append_assoc]⟩
  · intro x key compute hkey hcompute
    refine ⟨c.storeValue o key (none : Option τ) .overwrite w₁, ?_, fun hworks => ?_⟩
    · simp only [write, henabled, hvalid, hkey, hcompute, Bool.false_eq_true, ↓reduceIte]
    · exact (writesBack_storeValue fun _ => rfl).vacated hstore henabled hnull hinline hworks
        List.lookup_cons_self

/-- With nulls to be written, the old value of the key is gone. -/
theorem write_nulls_over_of_old_value :
    let c : Cache Base := { store := Base.store }
    let x : Kind.word32 := (1 : UInt32)
    let m : MemoryStore := MemoryStore.empty.put 0 ⟨"n:1"⟩ 0 [0x35]
    let w : World Base Unit := { scene := { contents := .memory m, now := 0 }, outside := () }
    let o : Options := { keyspace := "n", addNulls := true }
    let compute : Computation Base Unit Unit (List (Option Kind.word32)) :=
      fun w => (.ok [none], w)
    ∃ w', c.writeMany o [x] compute w = (.ok [none], w') ∧
      c.Vacated .word32 ⟨"n:1"⟩ w' := by
  intro c x m w o compute
  obtain ⟨hmany, -⟩ := write_nulls_over (κ := .word32) (τ := .word32) (ε := Unit) (c := c) (o := o)
    rfl rfl Codec.keepsNull_json rfl (by decide +kernel) w w
  obtain ⟨w', hrun, hkeys⟩ := hmany [x] (fun _ => ⟨"n:1"⟩) compute [none]
    (fun y hy => by
      rw [List.mem_singleton.mp hy]
      decide +kernel) rfl rfl
  exact ⟨w', hrun, (hkeys ⟨"n:1"⟩ rfl).1 rfl trivial⟩

/-- Without, it stays readable: the source has answered that the key has no value, and the next read
still gives the one from before. -/
theorem writeMany_keeps_old_value :
    let c : Cache Base := { store := Base.store }
    let x : Kind.word32 := (1 : UInt32)
    let key : Key := ⟨"n:1"⟩
    let m : MemoryStore := MemoryStore.empty.put 0 key 0 [0x35]
    let w : World Base Unit := { scene := { contents := .memory m, now := 0 }, outside := () }
    let o : Options := { keyspace := "n" }
    let compute : Computation Base Unit Unit (List (Option Kind.word32)) :=
      fun w => (.ok [none], w)
    let source : Computation Base Unit Unit (Option Kind.word32) := fun w => (.ok none, w)
    let run := c.writeMany o [x] compute w
    c.keys.keyFor o.keyspace x = .ok key ∧ o.writeBack = .inline ∧
      run.1.toOption = some [none] ∧ run.2.scene.contents.lookup 0 key = some [0x35] ∧
      c.codec.encodeOption (none : Option Kind.word32) ≠ .ok [0x35] ∧
      (c.read o x source run.2).1.toOption = some (some (5 : UInt32)) := by
  intro c x key m w o compute source run
  refine ⟨?_, rfl, ?_, ?_, ?_, ?_⟩
  all_goals decide +kernel

end

end Cache

end CacheAside

import CacheAside.Proofs.Batch
import CacheAside.Proofs.Steps

/-!
# Asking the store for all keys of a batch

The entries that a batch takes from the answer of the store, and the keys that remain. Entries for
other keys, bytes without an entry and the order of the answer make no difference to the rest.
-/

namespace CacheAside.Cache

variable {σ υ : Type} {κ τ : Kind} {c : Cache σ} {o : Options} {store : Store σ} {w : World σ υ}

/-! ## What the answer says -/

section
variable (c : Cache σ) (o : Options) (τ : Kind) (keys : List Key) (s : Scene σ)

/-- The answer to the question about all keys of a call; none if it fails or is not asked. -/
def bulkAnswer : Option (Table Bytes) :=
  if o.bypass then none else (c.store.getMany keys s).1.toOption

/-- The entry that the answer has for a key. -/
def recalled (key : Key) : Option (Entry τ) :=
  ((c.bulkAnswer o keys s).bind (·.find? key)).bind (c.entryIn? τ)

/-- Whether the answer has bytes without an entry for a key. -/
def isStale (key : Key) : Bool :=
  ((c.bulkAnswer o keys s).bind (·.find? key)).isSome && (c.recalled o τ keys s key).isNone

/-- The keys that the answer has no entry for. -/
def missedKeys : List Key := keys.filter fun key => (c.recalled o τ keys s key).isNone

/-- The store calls that ask the question. -/
def bulkCalls : List StoreCall := if o.bypass then [] else [.getMany keys]

/-- What is counted when the question is asked: a failure. -/
def bulkTally : Stats → Stats :=
  if o.bypass || (c.store.getMany keys s).1.isOk then id else Stats.addStoreError

end

/-! ## What a batch takes in -/

/-- A list of what a table holds, in whatever order. -/
def Lists (found : List (Key × Bytes)) (t : Table Bytes) : Prop :=
  ∀ key bytes, (key, bytes) ∈ found ↔ t.find? key = some bytes

theorem lists_entries (t : Table Bytes) : Lists t.entries t :=
  fun _ _ => Table.find?_eq_some.symm

theorem lists_of_perm {found : List (Key × Bytes)} {t : Table Bytes} (h : found.Perm t.entries) :
    Lists found t := fun _ _ => h.mem_iff.trans Table.find?_eq_some.symm

@[simp] theorem owns_resolve (b : Batch κ τ) (key j : Key) (e : Entry τ) :
    (b.resolve key e).owns j = b.owns j := by simp [Batch.owns]

@[simp] theorem owns_markUnreadable (b : Batch κ τ) (key j : Key) :
    (b.markUnreadable key).owns j = b.owns j := by simp [Batch.owns]

theorem find?_absorb (found : List (Key × Bytes)) (b : Batch κ τ) (j : Key) :
    (c.absorb found b w).1.resolved.find? j = (b.resolved.find? j).or (if b.owns j then
      found.findSome? fun e => if e.1 = j then c.entryIn? τ e.2 else none else none) := by
  induction found generalizing b w with
  | nil => simp [absorb]
  | cons e found ih =>
      obtain ⟨key, bytes⟩ := e
      have hfst := fst_decode (c := c) (τ := τ) (w := w) key bytes
      rw [absorb, List.findSome?_cons]
      split
      · rename_i hown
        rcases hdecode : c.decode τ key bytes w with ⟨entry, w'⟩
        rw [hdecode] at hfst
        by_cases hkey : key = j
        · subst hkey
          cases entry with
          | some e => simp [ih, Batch.find?_resolve, ← hfst, hown]
          | none => simp [ih, ← hfst, hown]
        · cases entry with
          | some e => simp [ih, Batch.find?_resolve, hkey, Ne.symm hkey]
          | none => simp [ih, hkey]
      · rename_i hown
        by_cases hkey : key = j
        · subst hkey
          simp [ih, hown]
        · simp [ih, hkey]

theorem isUnreadable_absorb (found : List (Key × Bytes)) (b : Batch κ τ) (j : Key) :
    (c.absorb found b w).1.isUnreadable j = (b.isUnreadable j || (b.owns j &&
      found.any fun e => e.1 == j && (c.entryIn? τ e.2).isNone)) := by
  induction found generalizing b w with
  | nil => simp [absorb]
  | cons e found ih =>
      obtain ⟨key, bytes⟩ := e
      have hfst := fst_decode (c := c) (τ := τ) (w := w) key bytes
      rw [absorb, List.any_cons]
      split
      · rename_i hown
        rcases hdecode : c.decode τ key bytes w with ⟨entry, w'⟩
        rw [hdecode] at hfst
        by_cases hkey : key = j
        · subst hkey
          cases entry with
          | some e => simp [ih, ← hfst]
          | none => simp [ih, ← hfst, hown, Batch.isUnreadable_markUnreadable]
        · have hne : (key == j) = false := beq_false_of_ne hkey
          have hne' : (j == key) = false := beq_false_of_ne (Ne.symm hkey)
          cases entry with
          | some e => simp [ih, hne]
          | none => simp [ih, hne, hne', Batch.isUnreadable_markUnreadable]
      · rename_i hown
        by_cases hkey : key = j
        · subst hkey
          simp [ih, hown]
        · have hne : (key == j) = false := beq_false_of_ne hkey
          simp [ih, hne]

theorem objects_absorb (found : List (Key × Bytes)) (b : Batch κ τ) :
    (c.absorb found b w).1.objects = b.objects := by
  induction found generalizing b w with
  | nil => rfl
  | cons e found ih =>
      rw [absorb]
      split
      · split
        · rw [ih, Batch.resolve_objects]
        · rw [ih, Batch.markUnreadable_objects]
      · exact ih b

theorem keyed_absorb (found : List (Key × Bytes)) (b : Batch κ τ) :
    (c.absorb found b w).1.keyed = b.keyed := by
  induction found generalizing b w with
  | nil => rfl
  | cons e found ih =>
      rw [absorb]
      split
      · split
        · rw [ih, Batch.resolve_keyed]
        · rw [ih, Batch.markUnreadable_keyed]
      · exact ih b

theorem leads_absorb (found : List (Key × Bytes)) (b : Batch κ τ) :
    store.Leads [] id w (c.absorb found b w).2 := by
  induction found generalizing b w with
  | nil => exact .refl w
  | cons e found ih =>
      obtain ⟨key, bytes⟩ := e
      have hdecoded : store.Leads [] id w (c.decode τ key bytes w).2 := leads_decode key bytes
      rw [absorb]
      split
      · rcases hdecode : c.decode τ key bytes w with ⟨entry, w'⟩
        rw [hdecode] at hdecoded
        cases entry with
        | some e => exact hdecoded.trans (ih _)
        | none => exact hdecoded.trans (ih _)
      · exact ih b

/-- The order in which the entries of an answer are taken in does not matter. -/
theorem findSome?_of_lists {found : List (Key × Bytes)} {t : Table Bytes} (h : Lists found t)
    (j : Key) :
    (found.findSome? fun e => if e.1 = j then c.entryIn? τ e.2 else none) =
      (t.find? j).bind (c.entryIn? τ) := by
  cases hj : (t.find? j).bind (c.entryIn? τ) with
  | none =>
      refine List.findSome?_eq_none_iff.mpr fun e he => ?_
      by_cases hkey : e.1 = j
      · have hfind : t.find? j = some e.2 := hkey ▸ (h e.1 e.2).mp he
        simpa [hkey, hfind] using hj
      · simp [hkey]
  | some entry =>
      obtain ⟨bytes, hbytes, hentry⟩ := Option.bind_eq_some_iff.mp hj
      have hmem : (j, bytes) ∈ found := (h j bytes).mpr hbytes
      cases hfound : found.findSome? fun e => if e.1 = j then c.entryIn? τ e.2 else none with
      | none =>
          have := List.findSome?_eq_none_iff.mp hfound (j, bytes) hmem
          simp [hentry] at this
      | some entry' =>
          obtain ⟨e, he, hsome⟩ := List.exists_of_findSome?_eq_some hfound
          by_cases hkey : e.1 = j
          · have hfind : t.find? j = some e.2 := hkey ▸ (h e.1 e.2).mp he
            rw [hbytes] at hfind
            cases hfind
            simpa [hkey, hentry, eq_comm] using hsome
          · simp [hkey] at hsome

theorem any_of_lists {found : List (Key × Bytes)} {t : Table Bytes} (h : Lists found t) (j : Key) :
    (found.any fun e => e.1 == j && (c.entryIn? τ e.2).isNone) =
      ((t.find? j).isSome && ((t.find? j).bind (c.entryIn? τ)).isNone) := by
  rw [Bool.eq_iff_iff]
  simp only [List.any_eq_true, Bool.and_eq_true, beq_iff_eq]
  constructor
  · rintro ⟨e, he, rfl, hentry⟩
    have hfind : t.find? e.1 = some e.2 := (h e.1 e.2).mp he
    simp [hfind, hentry]
  · rintro ⟨hsome, hnone⟩
    obtain ⟨bytes, hbytes⟩ := Option.isSome_iff_exists.mp hsome
    exact ⟨(j, bytes), (h j bytes).mpr hbytes, rfl, by simpa [hbytes] using hnone⟩

/-- Batches that differ in nothing that a call can ask them. -/
structure Agree (b b' : Batch κ τ) : Prop where
  objects : b.objects = b'.objects
  keyed : b.keyed = b'.keyed
  resolved : b.resolved = b'.resolved
  isUnreadable : ∀ key, b.isUnreadable key = b'.isUnreadable key

theorem agree_absorb {found : List (Key × Bytes)} {t : Table Bytes} (h : Lists found t)
    (b : Batch κ τ) : Agree (c.absorb found b w).1 (c.absorb t.entries b w).1 where
  objects := by rw [objects_absorb, objects_absorb]
  keyed := by rw [keyed_absorb, keyed_absorb]
  resolved := Table.ext fun j => by
    rw [find?_absorb, find?_absorb, findSome?_of_lists h, findSome?_of_lists (lists_entries t)]
  isUnreadable := fun j => by
    rw [isUnreadable_absorb, isUnreadable_absorb, any_of_lists h, any_of_lists (lists_entries t)]

/-! ## The question -/

/-- A batch that holds what the answer to its question says. -/
structure Recalls (c : Cache σ) (o : Options) (s : Scene σ) (b : Batch κ τ) (xs : List κ)
    (keyOf : κ → Key) : Prop where
  keeps : b.Keeps xs keyOf
  find? : ∀ x ∈ xs, b.resolved.find? (keyOf x) = c.recalled o τ (xs.map keyOf).eraseDups s (keyOf x)
  isUnreadable : ∀ x ∈ xs,
    b.isUnreadable (keyOf x) = c.isStale o τ (xs.map keyOf).eraseDups s (keyOf x)

variable {b : Batch κ τ} {xs : List κ} {keyOf : κ → Key} {s : Scene σ}

theorem recalls_of_none (h : b.Keeps xs keyOf) (hempty : b.resolved = .empty)
    (hreadable : b.unreadable = []) (hnone : c.bulkAnswer o (xs.map keyOf).eraseDups s = none) :
    c.Recalls o s b xs keyOf where
  keeps := h
  find? := fun x _ => by simp [hempty, recalled, hnone]
  isUnreadable := fun x _ => by simp [Batch.isUnreadable, hreadable, isStale, hnone]

theorem recalls_absorb {found : List (Key × Bytes)} {t : Table Bytes} (hfound : Lists found t)
    (h : b.Keeps xs keyOf) (hempty : b.resolved = .empty) (hreadable : b.unreadable = [])
    (hsome : c.bulkAnswer o (xs.map keyOf).eraseDups s = some t) :
    c.Recalls o s (c.absorb found b w).1 xs keyOf where
  keeps := ⟨by rw [objects_absorb, h.objects], by rw [keyed_absorb, h.keyed], h.unites⟩
  find? := fun x hx => by
    have howns : b.owns (keyOf x) = true := by simpa [h.owns] using ⟨x, hx, rfl⟩
    rw [find?_absorb, if_pos howns, findSome?_of_lists hfound]
    simp [hempty, recalled, hsome]
  isUnreadable := fun x hx => by
    have howns : b.owns (keyOf x) = true := by simpa [h.owns] using ⟨x, hx, rfl⟩
    rw [isUnreadable_absorb, howns, any_of_lists hfound]
    simp [Batch.isUnreadable, hreadable, isStale, recalled, hsome]

/-- The store is asked at most once, and the batch holds what it says. -/
theorem fetch_spec (h : b.Keeps xs keyOf) (hempty : b.resolved = .empty)
    (hreadable : b.unreadable = []) :
    c.Recalls o w.scene (c.fetch o b w).1 xs keyOf ∧
      c.store.Leads (bulkCalls o (xs.map keyOf).eraseDups)
        (c.bulkTally o (xs.map keyOf).eraseDups w.scene) w (c.fetch o b w).2 := by
  have hkeys := h.distinctKeys
  unfold fetch
  by_cases hbypass : o.bypass = true
  · rw [if_pos hbypass]
    refine ⟨recalls_of_none h hempty hreadable (by simp [bulkAnswer, hbypass]), ?_⟩
    have hleads : c.store.Leads [] id w (w.log (.bypassed o.keyspace)) := (Store.Leads.refl w).log _
    simpa [bulkCalls, bulkTally, hbypass] using hleads
  · rw [if_neg hbypass, hkeys, bulkCalls, if_neg hbypass]
    have hleads : c.store.Leads [.getMany (xs.map keyOf).eraseDups] id w
        (w.call (c.store.getMany (xs.map keyOf).eraseDups)).2 := Store.leads_getMany _
    have hanswer : (w.call (c.store.getMany (xs.map keyOf).eraseDups)).1 =
        (c.store.getMany (xs.map keyOf).eraseDups w.scene).1 := rfl
    rcases hcall : w.call (c.store.getMany (xs.map keyOf).eraseDups) with ⟨answer, w'⟩
    rw [hcall] at hanswer hleads
    cases answer with
    | ok t =>
        have hsome : c.bulkAnswer o (xs.map keyOf).eraseDups w.scene = some t := by
          simp [bulkAnswer, hbypass, ← hanswer, Except.toOption]
        have htally : c.bulkTally o (xs.map keyOf).eraseDups w.scene = id := by
          simp [bulkTally, ← hanswer, Except.isOk, Except.toBool]
        rw [htally]
        exact ⟨recalls_absorb (lists_entries t) h hempty hreadable hsome,
          hleads.trans (leads_absorb _ _)⟩
    | error e =>
        have hnone : c.bulkAnswer o (xs.map keyOf).eraseDups w.scene = none := by
          simp [bulkAnswer, ← hanswer, Except.toOption]
        have htally : c.bulkTally o (xs.map keyOf).eraseDups w.scene = Stats.addStoreError := by
          simp [bulkTally, hbypass, ← hanswer, Except.isOk, Except.toBool]
        rw [htally]
        exact ⟨recalls_of_none h hempty hreadable hnone,
          (hleads.log (.bulkGetFailed _ _ e)).count Stats.addStoreError⟩

theorem reaches_fetch (b : Batch κ τ) :
    c.store.Reaches (bulkCalls o b.distinctKeys) w (c.fetch o b w).2 := by
  unfold fetch bulkCalls
  split
  · exact ((Store.Leads.refl w).log _).reaches
  · have hget : c.store.Leads [.getMany b.distinctKeys] id w
        (w.call (c.store.getMany b.distinctKeys)).2 := Store.leads_getMany _
    rcases hcall : w.call (c.store.getMany b.distinctKeys) with ⟨answer, w'⟩
    rw [hcall] at hget
    cases answer with
    | ok found => exact (hget.trans (leads_absorb _ _)).reaches
    | error e => exact ((hget.log (.bulkGetFailed _ _ e)).count Stats.addStoreError).reaches

theorem Recalls.missed (h : c.Recalls o s b xs keyOf) :
    b.missed = ((firsts keyOf xs).filter fun x =>
      (c.recalled o τ (xs.map keyOf).eraseDups s (keyOf x)).isNone).map fun x => (keyOf x, x) := by
  rw [h.keeps.missed]
  congr 1
  exact List.filter_congr fun x hx => by rw [h.find? x (firsts_subset keyOf xs hx)]

theorem Recalls.missed_fst (h : c.Recalls o s b xs keyOf) :
    b.missed.map (·.1) = c.missedKeys o τ (xs.map keyOf).eraseDups s := by
  rw [h.missed, missedKeys, ← map_firsts, List.filter_map, List.map_map]
  rfl

/-- The objects that a batch read asks its source for: for each missed key the first that has it. -/
def askedObjects (c : Cache σ) (o : Options) (τ : Kind) (xs : List κ) (keyOf : κ → Key)
    (s : Scene σ) : List κ :=
  (c.missedKeys o τ (xs.map keyOf).eraseDups s).filterMap fun key => xs.find? (keyOf · == key)

theorem map_askedObjects (c : Cache σ) (o : Options) (τ : Kind) (xs : List κ) (keyOf : κ → Key)
    (s : Scene σ) : (c.askedObjects o τ xs keyOf s).map keyOf =
      c.missedKeys o τ (xs.map keyOf).eraseDups s := by
  rw [askedObjects, missedKeys, filterMap_find?_eq_firsts, ← map_firsts, List.filter_map]

/-- Objects with keys of their own are each asked for or answered. -/
theorem askedObjects_eq_filter (h : (xs.map keyOf).Nodup) : c.askedObjects o τ xs keyOf s =
    xs.filter fun x => (c.recalled o τ (xs.map keyOf) s (keyOf x)).isNone := by
  rw [askedObjects, missedKeys, filterMap_find?_eq_firsts, firsts_of_nodup h, eraseDups_of_nodup h]
  rfl

theorem askedObjects_subset (c : Cache σ) (o : Options) (τ : Kind) (xs : List κ)
    (keyOf : κ → Key) (s : Scene σ) : c.askedObjects o τ xs keyOf s ⊆ xs := by
  intro x hx
  obtain ⟨key, -, hfind⟩ := List.mem_filterMap.mp hx
  exact List.mem_of_find?_eq_some hfind

theorem Recalls.missed_snd (h : c.Recalls o s b xs keyOf) :
    b.missed.map (·.2) = c.askedObjects o τ xs keyOf s := by
  rw [h.missed, askedObjects, missedKeys, filterMap_find?_eq_firsts, List.map_map]
  exact List.map_id _

end CacheAside.Cache

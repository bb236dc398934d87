import CacheAside.Proofs.Actions
import CacheAside.Proofs.Honest
import CacheAside.Proofs.Keys

/-!
# A store on disk as one in memory

The raw values on disk, read as entries in memory. As long as the clock has not gone below zero, and
every change of the file finds pages for it, the two stores cannot be told apart, whatever the raw
values are.
-/

namespace CacheAside

namespace Table

variable {α β : Type}

def map (f : α → β) (t : Table α) : Table β :=
  ⟨t.entries.map fun e => (e.1, f e.2), List.pairwise_map.mpr t.sorted⟩

theorem findIn_map (f : α → β) (key : Key) : ∀ es : List (Key × α),
    findIn key (es.map fun e => (e.1, f e.2)) = (findIn key es).map f
  | [] => rfl
  | (j, a) :: es => by
      by_cases hj : j = key
      · simp [findIn, hj]
      · simp [findIn, hj, findIn_map f key es]

theorem find?_map (f : α → β) (t : Table α) (key : Key) :
    (t.map f).find? key = (t.find? key).map f := findIn_map f key t.entries

theorem size_map (f : α → β) (t : Table α) : (t.map f).size = t.size := by
  simp [size, map]

theorem map_insert (f : α → β) (t : Table α) (key : Key) (a : α) :
    (t.insert key a).map f = (t.map f).insert key (f a) := by
  refine ext fun j => ?_
  rw [find?_map, find?_insert, find?_insert, find?_map]
  split <;> rfl

theorem map_erase (f : α → β) (t : Table α) (key : Key) :
    (t.erase key).map f = (t.map f).erase key := by
  refine ext fun j => ?_
  rw [find?_map, find?_erase, find?_erase, find?_map]
  split <;> rfl

theorem map_filter (f : α → β) (t : Table α) (p : Key → β → Bool) :
    (t.filter fun key a => p key (f a)).map f = (t.map f).filter p := by
  refine ext fun j => ?_
  rw [find?_map, find?_filter, find?_filter, find?_map]
  cases t.find? j with
  | none => rfl
  | some a => cases hp : p j (f a) <;> simp [Option.filter, hp]

/-- What is kept and what is not are all there is. -/
theorem size_filter_add (t : Table α) (p : Key → α → Bool) :
    (t.filter p).size + (t.filter fun key a => !p key a).size = t.size :=
  (List.length_eq_length_filter_add _).symm

end Table

/-! ## Raw values as entries -/

/-- A raw value as an entry; one that is too short is an entry that has always been expired. -/
def StoredValue.ofRaw (raw : Bytes) : StoredValue :=
  match Layout.decode? raw with
  | some (expiry, payload) => ⟨payload, expiry⟩
  | none => ⟨raw, some Int64.minValue⟩

theorem StoredValue.ofRaw_encode {expiry : Option Int64} (h : expiry ≠ some 0) (payload : Bytes) :
    ofRaw (Layout.encode expiry payload) = ⟨payload, expiry⟩ := by
  rw [ofRaw, Layout.decode?_encode h]

namespace DiskStore

variable {d d' : DiskStore} {now : Int64} {key : Key}

/-- The contents as they would be in memory. -/
def inMemory (d : DiskStore) : MemoryStore := ⟨d.table.map StoredValue.ofRaw⟩

theorem payload?_eq (raw : Bytes) : payload? now raw =
    if (StoredValue.ofRaw raw).isLive now then some (StoredValue.ofRaw raw).bytes else none := by
  unfold payload? StoredValue.ofRaw
  cases hdecode : Layout.decode? raw with
  | some value => rfl
  | none =>
      have hdead : ¬now < Int64.minValue := Int64.not_lt.mpr (Int64.minValue_le now)
      simp [StoredValue.isLive, isLive, hdead]

theorem isLive_ofRaw (raw : Bytes) :
    (StoredValue.ofRaw raw).isLive now = (payload? now raw).isSome := by
  rw [payload?_eq]
  cases (StoredValue.ofRaw raw).isLive now <;> rfl

theorem lookup_inMemory (d : DiskStore) (key : Key) :
    d.inMemory.lookup now key = d.lookup now key := by
  rw [MemoryStore.lookup, inMemory, Table.find?_map, lookup]
  cases d.table.find? key with
  | none => rfl
  | some raw => exact (payload?_eq raw).symm

theorem lookupMany_inMemory (d : DiskStore) (keys : List Key) :
    d.inMemory.lookupMany now keys = d.lookupMany now keys := by
  rw [MemoryStore.lookupMany, lookupMany, funext (lookup_inMemory d)]

theorem size_inMemory (d : DiskStore) : d.inMemory.size = d.size := Table.size_map _ _

/-! ## Changes -/

theorem inMemory_put (hnow : 0 ≤ now) {ttl : UInt32} {payload : Bytes}
    (htable : d'.table = d.table.insert key (Layout.encode (expiresAt ttl now) payload)) :
    d'.inMemory = d.inMemory.put now key ttl payload := by
  rw [inMemory, htable, Table.map_insert, StoredValue.ofRaw_encode (expiresAt_ne_zero hnow)]
  rfl

theorem inMemory_erase (now : Int64) (htable : d'.table = d.table.erase key) :
    d'.inMemory = (d.inMemory.delete now key).2 := by
  rw [inMemory, htable, Table.map_erase]
  rfl

/-- Keys that go in one change are counted as keys that go one by one. -/
theorem without_eq (now : Int64) : ∀ (keys : List Key) (d : DiskStore),
    (without now d.table keys).1 = (d.inMemory.deleteAll now keys).1 ∧
      ⟨(without now d.table keys).2.map StoredValue.ofRaw⟩ = (d.inMemory.deleteAll now keys).2
  | [], d => ⟨rfl, rfl⟩
  | key :: keys, d => by
      have herased : (⟨d.table.erase key, d.file⟩ : DiskStore).inMemory =
        (d.inMemory.delete now key).2 := inMemory_erase now rfl
      obtain ⟨hcount, htable⟩ := without_eq now keys ⟨d.table.erase key, d.file⟩
      rw [herased] at hcount htable
      have hfound : (d.inMemory.delete now key).1 =
          ((d.table.find? key).bind (payload? now)).isSome :=
        congrArg Option.isSome (lookup_inMemory d key)
      exact ⟨by simp only [without, MemoryStore.deleteAll, hcount, hfound], htable⟩

theorem inMemory_purge
    (htable : d'.table = d.table.filter fun _ raw => (payload? now raw).isSome) :
    d'.inMemory = (d.inMemory.purge now).2 := by
  rw [inMemory, htable]
  simp only [← isLive_ofRaw]
  exact congrArg MemoryStore.mk
    (Table.map_filter StoredValue.ofRaw d.table fun _ v => v.isLive now)

theorem purge_count :
    (d.table.filter fun _ raw => (payload? now raw).isNone).size = (d.inMemory.purge now).1 := by
  let kept : DiskStore := ⟨d.table.filter fun _ raw => (payload? now raw).isSome, d.file⟩
  have hinMemory : kept.inMemory = (d.inMemory.purge now).2 := inMemory_purge rfl
  have hkept : kept.table.size = (d.inMemory.purge now).2.size := by
    rw [← hinMemory, size_inMemory]
    rfl
  have hsum := Table.size_filter_add d.table fun _ raw => (payload? now raw).isSome
  simp only [Option.not_isSome] at hsum
  change kept.table.size + _ = _ at hsum
  have hsize : d.inMemory.size = d.table.size := size_inMemory d
  have hpurged : (d.inMemory.purge now).1 = d.inMemory.size - (d.inMemory.purge now).2.size := rfl
  omega

theorem commit_of_isSome (table : Table Bytes) {file : Option Pages.File} (h : file.isSome) :
    ∃ d', commit table file = .ok d' ∧ d'.table = table := by
  obtain ⟨file, rfl⟩ := Option.isSome_iff_exists.mp h
  exact ⟨⟨table, file⟩, rfl, rfl⟩

theorem put_of_isSome (now : Int64) (ttl : UInt32) {payload : Bytes} (hpos : key.byteSize ≠ 0)
    (hlength : key.byteSize ≤ maxKeyLength)
    (hroom : (d.file.put? key (Layout.headerLength + payload.length)).isSome) :
    ∃ d', d.put now key ttl payload = .ok d' ∧
      d'.table = d.table.insert key (Layout.encode (expiresAt ttl now) payload) := by
  have hvalid : ¬(key.byteSize = 0 ∨ maxKeyLength < key.byteSize) := by omega
  rw [put, putRaw, if_neg hvalid]
  refine commit_of_isSome _ ?_
  rwa [Layout.length_encode]

end DiskStore

/-- Keys that are built are not empty. -/
theorem Key.byteSize_ne_zero {ns : String} {ids : List String} {key : Key}
    (h : build ns ids = .ok key) : key.byteSize ≠ 0 := by
  obtain ⟨-, -, htext⟩ := build_eq_ok h
  have hsep : separator.toString.utf8ByteSize = 1 := rfl
  rw [byteSize, htext, String.utf8ByteSize_append, String.utf8ByteSize_append]
  omega

/-! ## Actions -/

namespace Rig

namespace Action

variable {action : Action} {d d' : DiskStore} {now : Int64} {answer : Answer}

/-- What an action answers and leaves behind on disk. -/
def onDisk (d : DiskStore) (now : Int64) : Action → Except DiskError (Answer × DiskStore)
  | get key => .ok (.bytes (d.lookup now key), d)
  | getMany keys => .ok (.table (d.lookupMany now keys), d)
  | set key ttl bytes =>
    ((d.put now key ttl bytes).map ((), ·)).map (Prod.map (fun _ => .nothing) id)
  | add key ttl bytes => (d.add now key ttl bytes).map (Prod.map .flag id)
  | delete key => (d.delete now key).map (Prod.map .flag id)
  | deleteMany keys => (d.deleteMany now keys).map (Prod.map .count id)
  | purge => (d.purge now).map (Prod.map .count id)
  | clear => .ok (.nothing, d)
  | size => .ok (.count d.size, d)
  | isEmpty => .ok (.flag (d.size == 0), d)

/-- There is room for a change: its key can be written, and the file has pages for it. Nothing
clears a store on disk. -/
def Fits (d : DiskStore) (now : Int64) : Action → Prop
  | set key _ bytes | add key _ bytes =>
    (∃ ns ids, Key.build ns ids = .ok key) ∧ key.byteSize ≤ DiskStore.maxKeyLength ∧
      (d.file.put? key (Layout.headerLength + bytes.length)).isSome
  | delete key => (d.file.eraseAll? [key]).isSome
  | deleteMany keys => (d.file.eraseAll? keys).isSome
  | purge =>
    (d.file.eraseAll?
      (d.table.filter fun _ raw => (DiskStore.payload? now raw).isNone).keys).isSome
  | clear => False
  | get _ | getMany _ | size | isEmpty => True

/-- What a change of the contents on disk answers, and what is on disk behind it. -/
def outcome (d : DiskStore) : Except DiskError (Answer × DiskStore) →
    Except StoreError Answer × DiskStore
  | .ok (answer, d') => (.ok answer, d')
  | .error e => (.error e.toStoreError, d)

theorem answering_attempt {α : Type} (call : {σ : Type} → Store σ → Call σ α)
    (change : DiskStore → Int64 → Except DiskError (α × DiskStore)) {form : α → Answer}
    (hcall : call Store.disk = Store.attempt change)
    (patience : Option Nat) (events : List Event) :
    (answering form (Base.through call) ⟨.disk d, now, patience, events⟩).1 =
        (outcome d ((change d now).map (Prod.map form id))).1 ∧
      (answering form (Base.through call) ⟨.disk d, now, patience, events⟩).2.contents =
        .disk (outcome d ((change d now).map (Prod.map form id))).2 := by
  cases h : change d now <;>
    simp [answering, Base.through, hcall, Store.attempt, Scene.withContents, h, Except.map, outcome]

theorem run_disk_eq {s : Scene Base} (h : s.contents = .disk d) (action : Action) :
    (action.run s).1 = (outcome d (action.onDisk d s.now)).1 ∧
      (action.run s).2.contents = .disk (outcome d (action.onDisk d s.now)).2 := by
  obtain ⟨contents, now, patience, events⟩ := s
  obtain rfl : contents = .disk d := h
  cases action with
  | get | getMany | clear | size | isEmpty => exact ⟨rfl, rfl⟩
  | set key ttl bytes =>
      exact answering_attempt (·.set key ttl bytes)
        (fun d now => (d.put now key ttl bytes).map ((), ·)) rfl patience events
  | add key ttl bytes =>
      exact answering_attempt (·.add key ttl bytes) (fun d now => d.add now key ttl bytes) rfl
        patience events
  | delete key =>
      exact answering_attempt (·.delete key) (fun d now => d.delete now key) rfl patience events
  | deleteMany keys =>
      exact answering_attempt (·.deleteMany keys) (fun d now => d.deleteMany now keys) rfl
        patience events
  | purge =>
      cases hpurge : d.purge now <;>
        simp [run, onDisk, Action.purged, Base.purge, hpurge, Except.map, Scene.logAll, outcome]

theorem run_disk {s : Scene Base} (h : s.contents = .disk d)
    (haction : action.onDisk d s.now = .ok (answer, d')) :
    (action.run s).1 = .ok answer ∧ (action.run s).2.contents = .disk d' := by
  have hrun := run_disk_eq h action
  rwa [haction] at hrun

/-- What fits goes through, and goes as in memory. -/
theorem onDisk_eq_onMemory (hnow : 0 ≤ now) (hfits : action.Fits d now) :
    ∃ d', action.onDisk d now = .ok ((action.onMemory d.inMemory now).1, d') ∧
      d'.inMemory = (action.onMemory d.inMemory now).2 := by
  cases action with
  | get key => exact ⟨d, by rw [onMemory, DiskStore.lookup_inMemory, onDisk], rfl⟩
  | getMany keys => exact ⟨d, by rw [onMemory, DiskStore.lookupMany_inMemory, onDisk], rfl⟩
  | set key ttl bytes =>
      obtain ⟨⟨ns, ids, hkey⟩, hlength, hroom⟩ := hfits
      obtain ⟨d', hput, htable⟩ := DiskStore.put_of_isSome now ttl
        (Key.byteSize_ne_zero hkey) hlength hroom
      exact ⟨d', by simp [onDisk, hput, Except.map, onMemory], DiskStore.inMemory_put hnow htable⟩
  | add key ttl bytes =>
      -- An entry that has expired is no entry: the write goes over it, as in memory.
      cases hfound : (d.lookup now key).isSome with
      | true =>
          exact ⟨d, by simp [onDisk, DiskStore.add, hfound, Except.map, onMemory, MemoryStore.add,
            DiskStore.lookup_inMemory], by simp [onMemory, MemoryStore.add,
            DiskStore.lookup_inMemory, hfound]⟩
      | false =>
          obtain ⟨⟨ns, ids, hkey⟩, hlength, hroom⟩ := hfits
          obtain ⟨d', hput, htable⟩ := DiskStore.put_of_isSome now ttl
            (Key.byteSize_ne_zero hkey) hlength hroom
          refine ⟨d', ?_, ?_⟩
          · simp [onDisk, DiskStore.add, hfound, hput, Except.map, onMemory, MemoryStore.add,
              DiskStore.lookup_inMemory]
          · rw [DiskStore.inMemory_put hnow htable]
            simp [onMemory, MemoryStore.add, DiskStore.lookup_inMemory, hfound]
  | delete key =>
      obtain ⟨d', hcommit, htable⟩ := DiskStore.commit_of_isSome (d.table.erase key) hfits
      refine ⟨d', ?_, DiskStore.inMemory_erase now htable⟩
      simp [onDisk, DiskStore.delete, hcommit, Except.map, onMemory, MemoryStore.delete,
        DiskStore.lookup_inMemory]
  | deleteMany keys =>
      obtain ⟨hcount, hrest⟩ := DiskStore.without_eq now keys d
      obtain ⟨d', hcommit, htable⟩ :=
        DiskStore.commit_of_isSome (DiskStore.without now d.table keys).2 hfits
      refine ⟨d', ?_, ?_⟩
      · simp [onDisk, DiskStore.deleteMany, hcommit, Except.map, onMemory, hcount]
      · rw [DiskStore.inMemory, htable, hrest]
        rfl
  | purge =>
      obtain ⟨d', hcommit, htable⟩ := DiskStore.commit_of_isSome
        (d.table.filter fun _ raw => (DiskStore.payload? now raw).isSome) hfits
      refine ⟨d', ?_, DiskStore.inMemory_purge htable⟩
      simp [onDisk, DiskStore.purge, hcommit, Except.map, onMemory, DiskStore.purge_count]
  | clear => exact hfits.elim
  | size => exact ⟨d, by rw [onMemory, DiskStore.size_inMemory, onDisk], rfl⟩
  | isEmpty => exact ⟨d, by rw [onMemory, DiskStore.size_inMemory, onDisk], rfl⟩

/-- A key that is too long cannot be written, and trying to changes nothing. -/
theorem run_of_long_key {s : Scene Base} {key : Key} (hs : s.contents = .disk d)
    (hlong : DiskStore.maxKeyLength < key.byteSize) (ttl : UInt32) (bytes : Bytes) :
    (set key ttl bytes).run s = (.error DiskStore.invalidKey.toStoreError, s) ∧
      (d.table.find? key = none →
        (add key ttl bytes).run s = (.error DiskStore.invalidKey.toStoreError, s)) := by
  obtain ⟨contents, now, patience, events⟩ := s
  obtain rfl : contents = .disk d := hs
  have hput : d.put now key ttl bytes = .error DiskStore.invalidKey := by
    rw [DiskStore.put, DiskStore.putRaw, if_pos (.inr hlong)]
  constructor
  · simp [run, answering, Base.store, Base.through, Store.disk, Store.attempt, Scene.withContents,
      hput, Except.map]
  · intro hfind
    have hlookup : d.lookup now key = none := by simp [DiskStore.lookup, hfind]
    simp [run, answering, Base.store, Base.through, Store.disk, Store.attempt, Scene.withContents,
      DiskStore.add, hlookup, hput, Except.map]

end Action

/-! ## A run -/

/-- Every action of a run finds room on disk when it is its turn. -/
def RunFits : List (Int64 × Action) → Scene Base → Prop
  | [], _ => True
  | (now, action) :: run, s =>
    (∀ d, s.contents = .disk d → action.Fits d now) ∧ RunFits run (action.run { s with now }).2

theorem RunFits.of_append {rest : List (Int64 × Action)} : ∀ {run : List (Int64 × Action)}
    {s : Scene Base}, RunFits (run ++ rest) s → RunFits run s
  | [], _, _ => trivial
  | _ :: _, _, h => ⟨h.1, h.2.of_append⟩

theorem runAll_disk : ∀ {run : List (Int64 × Action)} {d : DiskStore} {s t : Scene Base},
    s.contents = .disk d → t.contents = .memory d.inMemory → (∀ e ∈ run, 0 ≤ e.1) →
    RunFits run s → (runAll run s).1 = (runAll run t).1 ∧
      ∃ d', (runAll run s).2.contents = .disk d' ∧
        (runAll run t).2.contents = .memory d'.inMemory
  | [], d, _, _, hs, ht, _, _ => ⟨rfl, d, hs, ht⟩
  | (now, action) :: run, d, s, t, hs, ht, hclock, hfits => by
      obtain ⟨hfits, hrest⟩ := hfits
      obtain ⟨d', hdisk, hmemory⟩ :=
        Action.onDisk_eq_onMemory (hclock _ List.mem_cons_self) (hfits d hs)
      obtain ⟨hanswer, hcontents⟩ := Action.run_disk (s := { s with now }) hs hdisk
      have hrun := Action.run_memory (s := { t with now }) ht action
      obtain ⟨hanswers, hfinal⟩ := runAll_disk (t := (action.run { t with now }).2) hcontents
        (by rw [hrun, hmemory]) (fun e he => hclock e (List.mem_cons_of_mem _ he)) hrest
      refine ⟨?_, hfinal⟩
      have hfirst : (action.run { s with now }).1 = (action.run { t with now }).1 := by
        rw [hanswer, hrun]
      simp only [runAll, hanswers, hfirst]

/-- On a clock that is never below zero, a store on disk answers as the same entries in memory, and
stays the same entries. Keys that are too long for it are refused. -/
theorem runAll_disk_as_memory (run : List (Int64 × Action)) (d : DiskStore) (s s' : Scene Base)
    (hs : s.contents = .disk d) (hs' : s'.contents = .memory d.inMemory)
    (hclock : ∀ e ∈ run, 0 ≤ e.1) (hfits : RunFits run s) :
    (runAll run s).1 = (runAll run s').1 ∧
      (∀ done rest, run = done ++ rest → ∃ d', (runAll done s).2.contents = .disk d' ∧
        (runAll done s').2.contents = .memory d'.inMemory) ∧
      ∀ key, DiskStore.maxKeyLength < key.byteSize → ∀ ttl bytes,
        (Action.set key ttl bytes).run s = (.error DiskStore.invalidKey.toStoreError, s) ∧
        (d.table.find? key = none →
          (Action.add key ttl bytes).run s = (.error DiskStore.invalidKey.toStoreError, s)) := by
  refine ⟨(runAll_disk hs hs' hclock hfits).1, fun done rest hsplit => ?_,
    fun key hlong ttl bytes => Action.run_of_long_key hs hlong ttl bytes⟩
  subst hsplit
  exact (runAll_disk hs hs' (fun e he => hclock e (List.mem_append_left _ he)) hfits.of_append).2

theorem runAll_disk_as_memory_over_truncated :
    let run : List (Int64 × Action) := [(5, .add ⟨"a:1"⟩ 3 [7]), (6, .get ⟨"a:1"⟩), (3005, .purge)]
    let d : DiskStore := ⟨Table.empty.insert ⟨"a:1"⟩ [1, 2], {}⟩
    let s : Scene Base := { contents := .disk d, now := 0 }
    let s' : Scene Base := { contents := .memory d.inMemory, now := 0 }
    RunFits run s ∧ (runAll run s).1 = (runAll run s').1 := by
  intro run d s s'
  have hadd : ∀ d, s.contents = .disk d → (Action.add ⟨"a:1"⟩ 3 [7]).Fits d 5 := fun d hd => by
    cases hd
    exact ⟨⟨"a", ["1"], rfl⟩, by decide, by decide +kernel⟩
  have hfits : RunFits run s :=
    ⟨hadd, fun _ _ => trivial, fun d hd => by
      cases hd
      change Option.isSome _ = true
      decide +kernel, trivial⟩
  exact ⟨hfits, (runAll_disk_as_memory run d s s' rfl rfl (by decide) hfits).1⟩

end Rig

end CacheAside

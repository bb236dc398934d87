import CacheAside.Proofs.Deadlines
import CacheAside.Proofs.DiskAsMemory

/-!
# Many keys at once

What a store does with many keys in one call, and what comes of a call for each of them. Reads come
to the same. Deletes come to the same when they go through, but each of the two ways has a failure
of its own: in one change of a file on disk, all keys go or none; one by one, those go that are
listed before the first that cannot be deleted.
-/

namespace CacheAside

/-- The different members that are counted are the first, if it is, and those besides it. -/
theorem length_eraseDups_filter_cons {α : Type} [DecidableEq α] {p q : α → Bool} {a : α}
    (hq : ∀ b, q b = (p b && b != a)) (l : List α) :
    ((a :: l).filter p).eraseDups.length =
      (if p a then 1 else 0) + (l.filter q).eraseDups.length := by
  have hrest : l.filter q = (l.filter p).filter fun b => !b == a := by
    rw [List.filter_filter]
    exact List.filter_congr fun b _ => (hq b).trans (Bool.and_comm _ _)
  cases ha : p a with
  | true =>
      rw [List.filter_cons_of_pos ha, List.eraseDups_cons, ← hrest, List.length_cons, if_pos rfl,
        Nat.add_comm]
  | false =>
      have hself : l.filter q = l.filter p := by
        rw [hrest, List.filter_eq_self]
        intro b hb
        have hne : b ≠ a := fun h => Bool.false_ne_true (ha.symm.trans (h ▸ List.of_mem_filter hb))
        simpa using hne
      rw [List.filter_cons_of_neg (by simp [ha]), hself, if_neg Bool.false_ne_true, Nat.zero_add]

namespace Store

variable {σ : Type} {erase : Key → Call σ Bool} {s t : Scene σ} {n : Nat} {e : StoreError}

theorem deleteEach_append (before keys : List Key) (n : Nat) (s : Scene σ) :
    deleteEach erase (before ++ keys) n s =
      match deleteEach erase before n s with
      | (.ok n, t) => deleteEach erase keys n t
      | (.error e, t) => (.error e, t) := by
  induction before generalizing n s with
  | nil => rfl
  | cons key before ih =>
      simp only [List.cons_append, deleteEach]
      rcases erase key s with ⟨_ | _ | _, s'⟩
      · rfl
      · exact ih n s'
      · exact ih (n + 1) s'

/-- Deletes that do the same to a part of what there is. -/
theorem deleteEach_wrap {τ : Type} {erase' : Key → Call τ Bool} (wrap : Scene σ → Scene τ)
    (h : ∀ key s, erase' key (wrap s) = ((erase key s).1, wrap (erase key s).2))
    (keys : List Key) (n : Nat) (s : Scene σ) : deleteEach erase' keys n (wrap s) =
      ((deleteEach erase keys n s).1, wrap (deleteEach erase keys n s).2) := by
  induction keys generalizing n s with
  | nil => rfl
  | cons key keys ih =>
      simp only [deleteEach, h]
      rcases erase key s with ⟨_ | _ | _, s'⟩
      · rfl
      · exact ih n s'
      · exact ih (n + 1) s'

end Store

namespace Rig.Base

open Store

/-! ## Reads -/

theorem eq_of_bare {s t : Scene Base} (h : t.bare = s.bare) :
    t.now = s.now ∧ t.contents.failsReads = s.contents.failsReads ∧
      ∀ now key, t.contents.lookup now key = s.contents.lookup now key := by
  have hfails : ∀ b : Base, b.forget.failsReads = b.failsReads := fun b => by cases b <;> rfl
  have hlookup : ∀ (b : Base) now key, b.forget.lookup now key = b.lookup now key :=
    fun b _ _ => by cases b <;> rfl
  have hnow : t.bare.now = s.bare.now := by rw [h]
  have hcontents : t.bare.contents = s.bare.contents := by rw [h]
  change t.contents.forget = s.contents.forget at hcontents
  refine ⟨hnow, ?_, fun now key => ?_⟩
  · rw [← hfails, hcontents, hfails]
  · rw [← hlookup, hcontents, hlookup]

theorem getMany_eq {s : Scene Base} (h : s.contents.failsReads = false) (keys : List Key) :
    (store.getMany keys s).1 = .ok (Table.ofKeys (s.contents.lookup s.now) keys) := by
  obtain ⟨contents, now, patience, events⟩ := s
  cases contents with
  | memory m => rfl
  | disk d => rfl
  | recording r =>
      obtain ⟨memory, calls, reads, writes, deletes⟩ := r
      obtain rfl : reads = false := h
      rfl

/-- Reads one by one put what they find over what has been found before. -/
theorem getEach_get {s : Scene Base} (h : s.contents.failsReads = false) (keys : List Key)
    (found : Table Bytes) : ∃ found' t, getEach store.get keys found s = (.ok found', t) ∧
      t.bare = s.bare ∧ ∀ key, found'.find? key =
        if key ∈ keys then (s.contents.lookup s.now key).or (found.find? key)
        else found.find? key := by
  induction keys generalizing s found with
  | nil => exact ⟨found, s, rfl, rfl, fun key => by simp⟩
  | cons j keys ih =>
      have hanswer := fst_get (s := s) j
      have hbare := bare_get (s := s) j
      rw [h, if_neg Bool.false_ne_true] at hanswer
      rcases hget : store.get j s with ⟨answer, s'⟩
      rw [hget] at hanswer hbare
      obtain rfl : answer = _ := hanswer
      -- What a read changes, later reads do not look at.
      obtain ⟨hnow, hfails, hlookup⟩ := eq_of_bare hbare
      simp only [getEach, hget]
      cases hj : s.contents.lookup s.now j with
      | none =>
          obtain ⟨found', t, hrest, htbare, hfind⟩ := ih (hfails.trans h) found
          refine ⟨found', t, hrest, htbare.trans hbare, fun key => ?_⟩
          rw [hfind, hnow, hlookup]
          by_cases hkey : key = j
          · simp [hkey, hj]
          · simp [hkey]
      | some bytes =>
          obtain ⟨found', t, hrest, htbare, hfind⟩ := ih (hfails.trans h) (found.insert j bytes)
          refine ⟨found', t, hrest, htbare.trans hbare, fun key => ?_⟩
          rw [hfind, hnow, hlookup, Table.find?_insert]
          by_cases hkey : key = j
          · simp [hkey, hj]
          · simp [hkey, Ne.symm hkey]

/-! ## Deletes -/

/-- How many different ones of some keys are to be read. -/
def countReadable (keys : List Key) (s : Scene Base) : Nat :=
  (keys.filter fun key => (s.contents.lookup s.now key).isSome).eraseDups.length

/-- All entries are as they were, except that those under some keys are gone, readable or not. -/
def Without (keys : List Key) (s t : Scene Base) : Prop :=
  ∀ j, t.contents.kept j = if j ∈ keys then none else s.contents.kept j

/-- Deletes of some keys go through, one after another. -/
def GoThrough (erase : Key → Call Base Bool) : List Key → Scene Base → Prop
  | [], _ => True
  | key :: keys, s => failureOf (erase key s).1 = none ∧ GoThrough erase keys (erase key s).2

section
variable {erase : Key → Call Base Bool} {s t : Scene Base} {key : Key} {keys before : List Key}
  {removed : Bool} {e : StoreError}

theorem eq_ok_of_failureOf {answer : Except StoreError Bool} (h : failureOf answer = none) :
    ∃ removed, answer = .ok removed := by
  cases answer with
  | ok removed => exact ⟨removed, rfl⟩
  | error e => cases h

theorem Removed.countReadable (h : Removed key s (.ok removed) t) (keys : List Key) :
    countReadable (key :: keys) s = (if removed then 1 else 0) + countReadable keys t := by
  rw [h.told removed rfl]
  refine length_eraseDups_filter_cons (fun j => ?_) keys
  rw [h.lookup]
  by_cases hj : j = key <;> simp [hj, failureOf]

theorem Removed.without (h : Removed key s (.ok removed) t) {u : Scene Base}
    (hrest : Without keys t u) : Without (key :: keys) s u := fun j => by
  rw [hrest, h.kept]
  by_cases hj : j = key <;> simp [hj, failureOf]

/-- Deletes that go through count what was to be read, each key once, and take away all. -/
theorem deleteEach_of_goThrough (herase : ∀ key, Removes key (erase key))
    (h : GoThrough erase keys s) (n : Nat) :
    deleteEach erase keys n s = (.ok (n + countReadable keys s), after erase keys s) ∧
      Without keys s (after erase keys s) := by
  induction keys generalizing s n with
  | nil => exact ⟨rfl, fun _ => (if_neg List.not_mem_nil).symm⟩
  | cons key keys ih =>
      obtain ⟨removed, hanswer⟩ := eq_ok_of_failureOf h.1
      have hremoved := herase key s
      rw [hanswer] at hremoved
      have hcall : erase key s = (.ok removed, (erase key s).2) := Prod.ext hanswer rfl
      obtain ⟨-, hwithout⟩ := ih h.2 0
      refine ⟨?_, hremoved.without hwithout⟩
      rw [hremoved.countReadable]
      simp only [deleteEach]
      rw [hcall]
      cases removed with
      | true =>
          rw [if_pos rfl, ← Nat.add_assoc]
          exact (ih h.2 (n + 1)).1
      | false =>
          rw [if_neg Bool.false_ne_true, Nat.zero_add]
          exact (ih h.2 n).1

/-- Deletes that do not all go through end with the first that fails. -/
theorem deleteEach_of_error (herase : ∀ key, Removes key (erase key))
    (h : GoThrough erase before s) (he : (erase key (after erase before s)).1 = .error e)
    (rest : List Key) (n : Nat) :
    deleteEach erase (before ++ key :: rest) n s =
        (.error e, (erase key (after erase before s)).2) ∧
      Without before s (erase key (after erase before s)).2 := by
  obtain ⟨hbefore, hwithout⟩ := deleteEach_of_goThrough herase h n
  have hremoved := herase key (after erase before s)
  rw [he] at hremoved
  have hcall : erase key (after erase before s) =
    (.error e, (erase key (after erase before s)).2) := Prod.ext he rfl
  refine ⟨?_, fun j => ?_⟩
  · rw [deleteEach_append, hbefore]
    simp only [deleteEach]
    rw [hcall]
  · rw [hremoved.kept, ← hwithout j]
    simp [failureOf]

theorem goThrough_or (erase : Key → Call Base Bool) (keys : List Key) (s : Scene Base) :
    GoThrough erase keys s ∨ ∃ before key rest e, keys = before ++ key :: rest ∧
      GoThrough erase before s ∧ (erase key (after erase before s)).1 = .error e := by
  induction keys generalizing s with
  | nil => exact .inl trivial
  | cons key keys ih =>
      cases hanswer : (erase key s).1 with
      | error e => exact .inr ⟨[], key, keys, e, rfl, trivial, hanswer⟩
      | ok removed =>
          have hfirst : failureOf (erase key s).1 = none := by rw [hanswer]; rfl
          rcases ih (erase key s).2 with hrest | ⟨before, key', rest, e, hkeys, hbefore, he⟩
          · exact .inl ⟨hfirst, hrest⟩
          · exact .inr ⟨key :: before, key', rest, e, by rw [hkeys]; rfl, ⟨hfirst, hbefore⟩, he⟩

/-- Deletes one by one all go through, or there is a first that fails. -/
theorem deleteEach_outcome (herase : ∀ key, Removes key (erase key)) (keys : List Key)
    (s : Scene Base) :
    (GoThrough erase keys s ∧ ∃ t,
      deleteEach erase keys 0 s = (.ok (countReadable keys s), t) ∧ Without keys s t) ∨
    ∃ before key rest e t, keys = before ++ key :: rest ∧ GoThrough erase before s ∧
      erase key (after erase before s) = (.error e, t) ∧
      deleteEach erase keys 0 s = (.error e, t) ∧ Without before s t := by
  rcases goThrough_or erase keys s with h | ⟨before, key, rest, e, rfl, hbefore, he⟩
  · obtain ⟨hanswer, hwithout⟩ := deleteEach_of_goThrough herase h 0
    rw [Nat.zero_add] at hanswer
    exact .inl ⟨h, _, hanswer, hwithout⟩
  · obtain ⟨hanswer, hwithout⟩ := deleteEach_of_error herase hbefore he rest 0
    exact .inr ⟨before, key, rest, e, _, rfl, hbefore, Prod.ext he rfl, hanswer, hwithout⟩

end

/-! ## Deletes in one call -/

/-- Where nothing is on disk, many deletes are deletes one by one. -/
theorem deleteMany_eq_deleteEach {s : Scene Base} (h : ∀ d, s.contents ≠ .disk d)
    (keys : List Key) : store.deleteMany keys s = deleteEach store.delete keys 0 s := by
  obtain ⟨contents, now, patience, events⟩ := s
  cases contents with
  | memory m =>
      exact Eq.symm (deleteEach_wrap
        (fun s : Scene MemoryStore => s.withContents (Base.memory s.contents)) (fun _ _ => rfl)
        keys 0 ⟨m, now, patience, events⟩)
  | recording r =>
      exact Eq.symm (deleteEach_wrap
        (fun s : Scene RecordingStore => s.withContents (Base.recording s.contents))
        (fun _ _ => rfl) keys 0 ⟨r, now, patience, events⟩)
  | disk d => exact absurd rfl (h d)

/-- What is left on disk without some keys, and how many of those were to be read. -/
theorem without_eq_countReadable (now : Int64) (keys : List Key) (table : Table Bytes) :
    (DiskStore.without now table keys).1 =
        (keys.filter fun key => ((table.find? key).bind (DiskStore.payload? now)).isSome
          ).eraseDups.length ∧
      ∀ j, (DiskStore.without now table keys).2.find? j =
        if j ∈ keys then none else table.find? j := by
  induction keys generalizing table with
  | nil => exact ⟨rfl, fun j => (if_neg List.not_mem_nil).symm⟩
  | cons key keys ih =>
      obtain ⟨hcount, hfind⟩ := ih (table.erase key)
      have hsplit := length_eraseDups_filter_cons (a := key)
        (p := fun j => ((table.find? j).bind (DiskStore.payload? now)).isSome)
        (q := fun j => (((table.erase key).find? j).bind (DiskStore.payload? now)).isSome)
        (fun j => by
          rw [Table.find?_erase]
          by_cases hj : key = j
          · simp [hj]
          · simp [hj, Ne.symm hj]) keys
      refine ⟨?_, fun j => ?_⟩
      · rw [hsplit, ← hcount]
        simp only [DiskStore.without]
        cases ((table.find? key).bind (DiskStore.payload? now)).isSome with
        | true => exact Nat.add_comm _ _
        | false => exact (Nat.zero_add _).symm
      · simp only [DiskStore.without, hfind, Table.find?_erase, List.mem_cons]
        by_cases hj : key = j
        · simp [hj]
        · simp [hj, Ne.symm hj]

theorem deleteMany_of_disk {s : Scene Base} {d : DiskStore} (h : s.contents = .disk d)
    (keys : List Key) :
    (∃ t, store.deleteMany keys s = (.ok (countReadable keys s), t) ∧ Without keys s t) ∨
      d.file.eraseAll? keys = none ∧
        store.deleteMany keys s = (.error DiskStore.full.toStoreError, s) := by
  obtain ⟨contents, now, patience, events⟩ := s
  obtain rfl : contents = .disk d := h
  obtain ⟨hcount, hfind⟩ := without_eq_countReadable now keys d.table
  simp only [store, through, Scene.withContents, Store.disk, Store.attempt, DiskStore.deleteMany]
  cases hfile : d.file.eraseAll? keys with
  | none => exact .inr ⟨rfl, rfl⟩
  | some file =>
      refine .inl ⟨_, Prod.ext (congrArg Except.ok hcount) rfl, fun j => ?_⟩
      simp only [DiskStore.commit, kept, hfind]
      split <;> rfl

theorem delete_of_disk {d : DiskStore} (now : Int64) {key : Key} {file : Pages.File}
    (h : d.file.eraseAll? [key] = some file) :
    store.delete key { contents := .disk d, now } = (.ok (d.lookup now key).isSome,
      { contents := .disk ⟨d.table.erase key, file⟩, now }) := by
  simp only [store, through, Scene.withContents, Store.disk, Store.attempt, DiskStore.delete, h,
    DiskStore.commit]

/-! ## One call and many -/

/-- What is said about many keys in one call. Reads find what single reads find, and leave all
entries as they are. Deletes of one call count and remove what single deletes would, or fail as one
when the file has no page left. Single deletes count each key once, if it was to be read, and remove
it in any case; the first failure is what they answer, and then the keys before it are gone. -/
theorem many_keys_as_single_keys (s : Scene Base) (keys : List Key) :
    (s.contents.failsReads = false → ∃ found,
      (store.getMany keys s).1 = .ok found ∧ (store.getMany keys s).2.bare = s.bare ∧
      (∀ key bytes, found.find? key = some bytes ↔
        key ∈ keys ∧ (store.get key s).1 = .ok (some bytes)) ∧
      ∃ t, getEach store.get keys .empty s = (.ok found, t) ∧ t.bare = s.bare) ∧
    ((∀ d, s.contents ≠ .disk d) →
      store.deleteMany keys s = deleteEach store.delete keys 0 s) ∧
    (∀ d, s.contents = .disk d →
      d.file.eraseAll? keys = none ∧
          store.deleteMany keys s = (.error DiskStore.full.toStoreError, s) ∨
      ∃ t, store.deleteMany keys s = (.ok (countReadable keys s), t) ∧ Without keys s t ∧
        ∀ n t', deleteEach store.delete keys 0 s = (.ok n, t') →
          n = countReadable keys s ∧ ∀ j, t'.contents.kept j = t.contents.kept j) ∧
    ((GoThrough store.delete keys s ∧ ∃ t,
        deleteEach store.delete keys 0 s = (.ok (countReadable keys s), t) ∧ Without keys s t) ∨
      ∃ before key rest e t, keys = before ++ key :: rest ∧ GoThrough store.delete before s ∧
        store.delete key (after store.delete before s) = (.error e, t) ∧
        deleteEach store.delete keys 0 s = (.error e, t) ∧ Without before s t) := by
  have hloop := deleteEach_outcome removes_store keys s
  refine ⟨fun hreads => ?_, fun h => deleteMany_eq_deleteEach h keys, fun d hd => ?_, hloop⟩
  · obtain ⟨found, t, heach, hbare, hfind⟩ := getEach_get hreads keys .empty
    have hfound : found = Table.ofKeys (s.contents.lookup s.now) keys := by
      refine Table.ext fun key => ?_
      rw [hfind, Table.find?_ofKeys]
      simp [Table.find?_empty]
    refine ⟨_, getMany_eq hreads keys, bare_getMany keys, fun key bytes => ?_, t,
      hfound ▸ heach, hbare⟩
    rw [Table.find?_ofKeys, fst_get, hreads, if_neg Bool.false_ne_true]
    simp
  · rcases deleteMany_of_disk hd keys with ⟨t, hanswer, hwithout⟩ | hfull
    · refine .inr ⟨t, hanswer, hwithout, fun n t' heach => ?_⟩
      rcases hloop with ⟨-, t'', heach', hwithout'⟩ | ⟨_, _, _, _, _, _, _, _, heach', _⟩
      · obtain ⟨hn, rfl⟩ := Prod.mk.inj (heach.symm.trans heach')
        exact ⟨Except.ok.inj hn, fun j => (hwithout' j).trans (hwithout j).symm⟩
      · cases heach.symm.trans heach'
    · exact .inl hfull

/-- A delete that is to fail between others, and entries on disk that cannot be read. -/
theorem many_keys_as_single_keys_of_planned_failure :
    let m : MemoryStore := ⟨(Table.empty.insert ⟨"n:1"⟩ ⟨[1], none⟩).insert ⟨"n:3"⟩ ⟨[3], none⟩⟩
    let s : Scene Base :=
      { contents := .recording { memory := m, failures := { deletes := [⟨"n:2"⟩] } }, now := 0 }
    let d : DiskStore := ⟨(Table.empty.insert ⟨"n:1"⟩ (Layout.encode none [1])).insert ⟨"n:3"⟩
      [1, 2], {}⟩
    let s' : Scene Base := { contents := .disk d, now := 0 }
    let keys : List Key := [⟨"n:1"⟩, ⟨"n:1"⟩, ⟨"n:2"⟩, ⟨"n:3"⟩]
    s.contents.failsReads = false ∧ (∀ d, s.contents ≠ .disk d) ∧ s'.contents = .disk d ∧
      (∃ found, (store.getMany keys s).1 = .ok found ∧ found.find? ⟨"n:3"⟩ = some [3]) ∧
      (∃ before key rest e t, keys = before ++ key :: rest ∧
        store.deleteMany keys s = (.error e, t) ∧ Without before s t) ∧
      ∃ t, store.deleteMany keys s' = (.ok 1, t) ∧ Without keys s' t := by
  intro m s d s' keys
  have hs : ∀ d, s.contents ≠ .disk d := fun d h => by cases h
  obtain ⟨hreads, hsame, -, hloop⟩ := many_keys_as_single_keys s keys
  obtain ⟨-, -, hdisk, -⟩ := many_keys_as_single_keys s' keys
  refine ⟨rfl, hs, rfl, ?_, ?_, ?_⟩
  · obtain ⟨found, hanswer, -, hfind, -⟩ := hreads rfl
    exact ⟨found, hanswer, (hfind _ _).mpr ⟨by decide, rfl⟩⟩
  · rcases hloop with ⟨-, t, hanswer, -⟩ | ⟨before, key, rest, e, t, hkeys, -, -, hanswer, hwithout⟩
    · have hfails : (deleteEach store.delete keys 0 s).1 =
        .error (RecordingStore.injected "delete") := rfl
      rw [hanswer] at hfails
      cases hfails
    · exact ⟨before, key, rest, e, t, hkeys, (hsame hs).trans hanswer, hwithout⟩
  · have hcount : countReadable keys s' = 1 := by decide +kernel
    have hroom : (d.file.eraseAll? keys).isSome := by decide +kernel
    rcases hdisk d rfl with ⟨hfull, -⟩ | ⟨t, hanswer, hwithout, -⟩
    · simp [hfull] at hroom
    · exact ⟨t, hcount ▸ hanswer, hwithout⟩

/-! ## A crowded file -/

/-- The file behind the writes of four short values and a long one that takes nearly all pages. -/
def crowdedFile : Pages.File :=
  let slot (text : String) : Pages.Slot Key := ⟨⟨text⟩, 1908, none⟩
  { number := 5
    next := 1023
    slots := some (.branch 3 [(none, .leaf 5 [slot "n:1"]), (some ⟨"n:2"⟩, .leaf 9 [slot "n:2"]),
      (some ⟨"n:3"⟩, .leaf 4 [slot "n:3", slot "n:4", ⟨⟨"z:big"⟩, 4136944, some ⟨12, 1010⟩⟩])])
    index := some (.leaf 1022 [⟨4, 32, none⟩, ⟨5, 32, none⟩])
    records := [(4, [6, 7, 8]), (5, [2, 10, 11])] }

def crowded : DiskStore :=
  let raw (length : Nat) : Bytes := Layout.encode none (List.replicate length 0)
  let short : Table Bytes := [⟨"n:1"⟩, ⟨"n:2"⟩, ⟨"n:3"⟩, ⟨"n:4"⟩].foldl
    (fun table key => table.insert key (raw 1900)) .empty
  { table := short.insert ⟨"z:big"⟩ (raw 4136936), file := crowdedFile }

theorem crowdedFile_eraseAll? : crowdedFile.eraseAll? [⟨"n:1"⟩, ⟨"n:3"⟩] = none := by
  decide +kernel

theorem crowdedFile_eraseAll?_in_turn :
    ((crowdedFile.eraseAll? [⟨"n:1"⟩]).bind (·.eraseAll? [⟨"n:3"⟩])).isSome := by
  decide +kernel

/-- Where few pages are left, one change for two keys does not find the pages that the first of two
changes frees for the second. -/
theorem deleteMany_of_crowded :
    let s : Scene Base := { contents := .disk crowded, now := 0 }
    let keys : List Key := [⟨"n:1"⟩, ⟨"n:3"⟩]
    store.deleteMany keys s = (.error DiskStore.full.toStoreError, s) ∧
      (deleteEach store.delete keys 0 s).1 = .ok 2 := by
  intro s keys
  constructor
  · have hfile : crowded.file.eraseAll? keys = none := crowdedFile_eraseAll?
    simp only [s, store, through, Scene.withContents, Store.disk, Store.attempt,
      DiskStore.deleteMany, hfile, DiskStore.commit]
  · obtain ⟨file, hfile⟩ := Option.isSome_iff_exists.mp crowdedFile_eraseAll?_in_turn
    obtain ⟨file₁, hfirst, hsecond⟩ := Option.bind_eq_some_iff.mp hfile
    have hdelete := delete_of_disk (d := crowded) 0 hfirst
    have hdelete' := delete_of_disk (d := ⟨crowded.table.erase ⟨"n:1"⟩, file₁⟩) 0 hsecond
    have hthrough : GoThrough store.delete keys s := by
      refine ⟨?_, ?_, trivial⟩
      · rw [hdelete]
        rfl
      · rw [hdelete, hdelete']
        rfl
    have hcount : countReadable keys s = 2 := by
      have hread : ∀ key ∈ keys, crowded.lookup 0 key = some (List.replicate 1900 0) := by
        intro key hkey
        have hfind : crowded.table.find? key =
            some (Layout.encode none (List.replicate 1900 0)) := by
          rcases List.mem_pair.mp hkey with rfl | rfl <;>
            simp only [crowded, List.foldl_cons, List.foldl_nil, Table.find?_insert, Key.mk.injEq,
              String.reduceEq, ↓reduceIte]
        rw [DiskStore.lookup, hfind, Option.bind_some, DiskStore.payload?,
          Layout.decode?_encode (by simp)]
        rfl
      have hfilter : (keys.filter fun key => (s.contents.lookup s.now key).isSome) = keys :=
        List.filter_eq_self.mpr fun key hkey => congrArg Option.isSome (hread key hkey)
      rw [countReadable, hfilter]
      rfl
    rw [(deleteEach_of_goThrough removes_store hthrough 0).1, hcount]

end Rig.Base

end CacheAside

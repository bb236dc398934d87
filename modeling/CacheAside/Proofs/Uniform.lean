import CacheAside.Proofs.Bare
import CacheAside.Proofs.InStep
import CacheAside.Proofs.Observed
import CacheAside.Proofs.Trouble

/-!
# Calls that cannot tell

Scenes that differ where a store call does not look: in entries under other keys, or in the log. The
call goes the same way on both, and so does a request of which all store calls do. On disk a call
looks at the room that is left for the keys it changes, too.
-/

namespace CacheAside

/-- Two scenes at one time, for callers of one patience, with related contents and related logs. -/
structure Scene.Matches {σ : Type} (C : σ → σ → Prop) (L : List Event → List Event → Prop)
    (s t : Scene σ) : Prop where
  contents : C s.contents t.contents
  now : s.now = t.now
  patience : s.patience = t.patience
  events : L s.events t.events

/-- Logs that stay related when the same is reported to both. -/
def GrowTogether (L : List Event → List Event → Prop) : Prop :=
  ∀ es es' more, L es es' → L (es ++ more) (es' ++ more)

theorem growTogether_eq : GrowTogether (· = ·) := fun _ _ more h => congrArg (· ++ more) h

theorem growTogether_true : GrowTogether fun _ _ => True := fun _ _ _ _ => trivial

namespace Scene.Matches

variable {σ : Type} {C : σ → σ → Prop} {L : List Event → List Event → Prop} {s t : Scene σ}

theorem logAll (h : s.Matches C L t) (hL : GrowTogether L) (es : List Event) :
    (s.logAll es).Matches C L (t.logAll es) :=
  ⟨h.contents, h.now, h.patience, hL _ _ es h.events⟩

theorem log (h : s.Matches C L t) (hL : GrowTogether L) (e : Event) :
    (s.log e).Matches C L (t.log e) := h.logAll hL [e]

theorem waiting (h : s.Matches C L t) (patience : Option Nat) :
    Matches C L { s with patience } { t with patience } := ⟨h.contents, h.now, rfl, h.events⟩

theorem withContents {τ : Type} {D : τ → τ → Prop} (h : s.Matches C L t) {contents contents' : τ}
    (hcontents : D contents contents') :
    (s.withContents contents).Matches D L (t.withContents contents') :=
  ⟨hcontents, h.now, h.patience, h.events⟩

end Scene.Matches

namespace Store

variable {σ α : Type} {C : σ → σ → Prop} {L : List Event → List Event → Prop} {K : Key → Prop}
  {call : Call σ α} {store : Store σ}

/-- A call that goes the same way on scenes that match. -/
def Even (C : σ → σ → Prop) (L : List Event → List Event → Prop) (call : Call σ α) : Prop :=
  ∀ s t, s.Matches C L t → Lockstep (Scene.Matches C L) (call s) (call t)

/-- A store whose calls on some keys go the same way on scenes that match. -/
structure Uniform (store : Store σ) (K : Key → Prop) (C : σ → σ → Prop)
    (L : List Event → List Event → Prop) : Prop where
  get (key : Key) : K key → Even C L (store.get key)
  getMany (keys : List Key) : (∀ key ∈ keys, K key) → Even C L (store.getMany keys)
  set (key : Key) (ttl : UInt32) (bytes : Bytes) : K key → Even C L (store.set key ttl bytes)
  add (key : Key) (ttl : UInt32) (bytes : Bytes) : K key → Even C L (store.add key ttl bytes)
  delete (key : Key) : K key → Even C L (store.delete key)

/-! ## Layers -/

theorem Even.delayed (h : Even C L call) (delay : Option Nat) : Even C L (delayed delay call) := by
  intro s t hst
  simp only [Store.delayed, hst.patience]
  split
  · exact ⟨rfl, hst.waiting _⟩
  · exact h s t hst
  · split
    · exact h _ _ (hst.waiting _)
    · exact ⟨rfl, hst.waiting _⟩

theorem Even.within (h : Even C L call) (limit : Nat) (operation : String) :
    Even C L (within limit operation call) := by
  intro s t hst
  have hcall : ∀ allowed, ∃ answer s' t',
      call { s with patience := some allowed } = (answer, s') ∧
      call { t with patience := some allowed } = (answer, t') ∧ s'.Matches C L t' :=
    fun allowed => (h _ _ (hst.waiting (some allowed))).exists_eq
  rcases hpatience : t.patience with _ | p
  · obtain ⟨answer, s', t', hs', ht', hmatches⟩ := hcall limit
    simp only [Store.within, hst.patience, hpatience, hs', ht', hmatches.patience]
    split
    · split <;> exact ⟨rfl, hmatches.waiting _⟩
    · exact ⟨rfl, hmatches.waiting _⟩
  · obtain ⟨answer, s', t', hs', ht', hmatches⟩ := hcall (min p limit)
    simp only [Store.within, hst.patience, hpatience, hs', ht', hmatches.patience]
    split
    · split <;> exact ⟨rfl, hmatches.waiting _⟩
    · exact ⟨rfl, hmatches.waiting _⟩

theorem even_getEach {get : Key → Call σ (Option Bytes)} (keys : List Key) (found : Table Bytes)
    (h : ∀ key ∈ keys, Even C L (get key)) : Even C L (getEach get keys found) := by
  induction keys generalizing found with
  | nil => exact fun s t hst => ⟨rfl, hst⟩
  | cons key keys ih =>
      intro s t hst
      have hrest : ∀ j ∈ keys, Even C L (get j) := fun j hj => h j (List.mem_cons_of_mem _ hj)
      obtain ⟨answer, s', t', hs', ht', hmatches⟩ := (h key List.mem_cons_self s t hst).exists_eq
      simp only [getEach, hs', ht']
      rcases answer with e | _ | bytes
      · exact ⟨rfl, hmatches⟩
      · exact ih found hrest s' t' hmatches
      · exact ih (found.insert key bytes) hrest s' t' hmatches

theorem Uniform.slow (h : store.Uniform K C L) (latency : Latency) :
    (store.slow latency).Uniform K C L where
  get key hkey := (h.get key hkey).delayed latency.get
  getMany keys hkeys := even_getEach keys .empty fun key hkey =>
    (h.get key (hkeys key hkey)).delayed latency.get
  set key ttl bytes hkey := (h.set key ttl bytes hkey).delayed latency.set
  add key ttl bytes hkey := (h.add key ttl bytes hkey).delayed latency.add
  delete key hkey := (h.delete key hkey).delayed latency.delete

theorem Uniform.augmented (h : store.Uniform K C L) (key : Key) (bytes : Bytes) :
    (store.augmented key bytes).Uniform K C L where
  get := h.get
  getMany keys hkeys s t hst := by
    obtain ⟨answer, s', t', hs', ht', hmatches⟩ := (h.getMany keys hkeys s t hst).exists_eq
    simp only [Store.augmented, hs', ht']
    cases answer <;> exact ⟨rfl, hmatches⟩
  set := h.set
  add := h.add
  delete := h.delete

theorem Uniform.bounded (h : store.Uniform K C L) (limit : Nat) :
    (store.bounded limit).Uniform K C L where
  get key hkey := (h.get key hkey).within limit "get"
  getMany keys hkeys := (h.getMany keys hkeys).within limit "get_bulk"
  set key ttl bytes hkey := (h.set key ttl bytes hkey).within limit "set"
  add key ttl bytes hkey := (h.add key ttl bytes hkey).within limit "add"
  delete key hkey := (h.delete key hkey).within limit "delete"

/-- Contents that match, with the same number of calls. -/
structure TroubledMatch (C : σ → σ → Prop) (t t' : Troubled σ) : Prop where
  contents : C t.contents t'.contents
  calls : t.calls = t'.calls

theorem Even.meeting (h : Even C L call) (trouble : Trouble) :
    Even (TroubledMatch C) L (meeting trouble call) := by
  intro s t hst
  obtain ⟨answer, s', t', hs', ht', hmatches⟩ := (h _ _
    (hst.withContents hst.contents.contents)).exists_eq
  simp only [Store.meeting, hst.contents.calls, hs', ht']
  match trouble.mishap t.contents.calls with
  | some (.lost e) => exact ⟨rfl, hst.withContents ⟨hst.contents.contents, rfl⟩⟩
  | some (.unanswered e) => exact ⟨rfl, hmatches.withContents ⟨hmatches.contents, rfl⟩⟩
  | none => exact ⟨rfl, hmatches.withContents ⟨hmatches.contents, rfl⟩⟩

theorem Uniform.troubled (h : store.Uniform K C L) (trouble : Trouble) :
    (store.troubled trouble).Uniform K (TroubledMatch C) L where
  get key hkey := (h.get key hkey).meeting trouble
  getMany keys hkeys s t hst := by
    obtain ⟨answer, s', t', hs', ht', hmatches⟩ :=
      ((h.getMany keys hkeys).meeting trouble s t hst).exists_eq
    simp only [Store.troubled, hs', ht', hst.contents.calls]
    exact ⟨rfl, hmatches⟩
  set key ttl bytes hkey := (h.set key ttl bytes hkey).meeting trouble
  add key ttl bytes hkey := (h.add key ttl bytes hkey).meeting trouble
  delete key hkey := (h.delete key hkey).meeting trouble

/-- Contents that match, after the same attempts. -/
structure ObservedMatch (C : σ → σ → Prop) (t t' : Observed σ) : Prop where
  contents : C t.contents t'.contents
  attempts : t.attempts = t'.attempts

theorem Even.observing (h : Even C L call) (attempts : List Attempt) :
    Even (ObservedMatch C) L (observing attempts call) := by
  intro s t hst
  obtain ⟨answer, s', t', hs', ht', hmatches⟩ := (h _ _
    (hst.withContents hst.contents.contents)).exists_eq
  simp only [Store.observing, hst.contents.attempts, hs', ht']
  exact ⟨rfl, hmatches.withContents ⟨hmatches.contents, rfl⟩⟩

theorem Uniform.observed (h : store.Uniform K C L) :
    store.observed.Uniform K (ObservedMatch C) L where
  get key hkey := (h.get key hkey).observing [.get key]
  getMany keys hkeys := (h.getMany keys hkeys).observing [.getMany keys]
  set key ttl bytes hkey := (h.set key ttl bytes hkey).observing [.set key ttl bytes]
  add key ttl bytes hkey := (h.add key ttl bytes hkey).observing [.add key ttl bytes]
  delete key hkey := (h.delete key hkey).observing [.delete key]

end Store

/-! ## Entries in memory -/

namespace MemoryStore

variable {K : Key → Prop} {m m' : MemoryStore} {now : Int64}

/-- The entries of some keys are the same. -/
def Matches (K : Key → Prop) (m m' : MemoryStore) : Prop :=
  ∀ key, K key → m.table.find? key = m'.table.find? key

theorem Matches.lookup (h : m.Matches K m') {key : Key} (hkey : K key) :
    m.lookup now key = m'.lookup now key := by
  rw [MemoryStore.lookup, MemoryStore.lookup, h key hkey]

theorem Matches.put (h : m.Matches K m') (key : Key) (ttl : UInt32) (bytes : Bytes) :
    (m.put now key ttl bytes).Matches K (m'.put now key ttl bytes) := fun j hj => by
  rw [MemoryStore.put, MemoryStore.put, Table.find?_insert, Table.find?_insert, h j hj]

theorem Matches.erase (h : m.Matches K m') (key : Key) :
    Matches K ⟨m.table.erase key⟩ ⟨m'.table.erase key⟩ := fun j hj => by
  rw [Table.find?_erase, Table.find?_erase, h j hj]

end MemoryStore

theorem Table.ofKeys_congr {α : Type} {f g : Key → Option α} {keys : List Key}
    (h : ∀ key ∈ keys, f key = g key) : Table.ofKeys f keys = Table.ofKeys g keys := by
  refine Table.ext fun key => ?_
  rw [Table.find?_ofKeys, Table.find?_ofKeys]
  split
  · exact h key ‹_›
  · rfl

namespace Store

variable {α : Type} {K : Key → Prop} {L : List Event → List Event → Prop}

theorem uniform_memory : memory.Uniform K (MemoryStore.Matches K) L where
  get key hkey s t hst := by
    simp only [memory, hst.now, hst.contents.lookup hkey]
    exact ⟨rfl, hst⟩
  getMany keys hkeys s t hst := by
    simp only [memory, hst.now, MemoryStore.lookupMany,
      Table.ofKeys_congr fun key hkey => hst.contents.lookup (hkeys key hkey)]
    exact ⟨rfl, hst⟩
  set key ttl bytes _ s t hst := by
    simp only [memory, hst.now]
    exact ⟨rfl, ⟨hst.contents.put key ttl bytes, rfl, hst.patience, hst.events⟩⟩
  add key ttl bytes hkey s t hst := by
    simp only [memory, MemoryStore.add, hst.now, hst.contents.lookup hkey]
    split
    · exact ⟨rfl, ⟨hst.contents, rfl, hst.patience, hst.events⟩⟩
    · exact ⟨rfl, ⟨hst.contents.put key ttl bytes, rfl, hst.patience, hst.events⟩⟩
  delete key hkey s t hst := by
    simp only [memory, deleteInMemory, MemoryStore.delete, hst.now, hst.contents.lookup hkey]
    exact ⟨rfl, ⟨hst.contents.erase key, rfl, hst.patience, hst.events⟩⟩

/-! ## Entries with a record -/

/-- The entries of some keys are the same, and so are the record and the plan. -/
structure RecordingMatch (K : Key → Prop) (r r' : RecordingStore) : Prop where
  memory : r.memory.Matches K r'.memory
  calls : r.calls = r'.calls
  failures : r.failures = r'.failures

theorem Even.recorded {onMemory : Call MemoryStore α} (h : Even (MemoryStore.Matches K) L onMemory)
    (call : StoreCall) (operation : String) (fails : FailurePlan → Bool) :
    Even (RecordingMatch K) L (Store.recorded call operation fails onMemory) := by
  intro s t hst
  obtain ⟨hmemory, hcalls, hfailures⟩ := hst.contents
  obtain ⟨answer, s', t', hs', ht', hmatches⟩ := (h _ _ (hst.withContents hmemory)).exists_eq
  simp only [Store.recorded, RecordingStore.record, hcalls, hfailures, hs', ht']
  split
  · exact ⟨rfl, ⟨⟨hmemory, rfl, rfl⟩, hst.now, hst.patience, hst.events⟩⟩
  · exact ⟨rfl, hmatches.withContents ⟨hmatches.contents, rfl, rfl⟩⟩

theorem uniform_recording : recording.Uniform K (RecordingMatch K) L where
  get key hkey := (uniform_memory.get key hkey).recorded (.get key) "get" (·.reads)
  getMany keys hkeys :=
    (uniform_memory.getMany keys hkeys).recorded (.getMany keys) "get_bulk" (·.reads)
  set key ttl bytes hkey :=
    (uniform_memory.set key ttl bytes hkey).recorded (.set key ttl) "set" (·.writes)
  add key ttl bytes hkey :=
    (uniform_memory.add key ttl bytes hkey).recorded (.add key ttl) "add" (·.writes)
  delete key hkey :=
    (uniform_memory.delete key hkey).recorded (.delete key) "delete" (·.deletes.contains key)

end Store

/-! ## Entries on disk -/

namespace Pages.File

variable {K : Key → Prop} {f f' : File}

/-- Writes a value of some length under a key, or removes what is there. -/
def edit? (f : File) (key : Key) : Option Nat → Option File
  | some length => f.put? key length
  | none => f.eraseAll? [key]

/-- Whether there is room for changes in turn. -/
def hasRoom : File → List (Key × Option Nat) → Bool
  | _, [] => true
  | f, (key, length) :: edits =>
    match f.edit? key length with
    | some f => f.hasRoom edits
    | none => false

/-- Files with room for the same changes of some keys. -/
def SameRoom (K : Key → Prop) (f f' : File) : Prop :=
  ∀ edits : List (Key × Option Nat), (∀ e ∈ edits, K e.1) → f.hasRoom edits = f'.hasRoom edits

theorem SameRoom.edit? (h : f.SameRoom K f') {key : Key} (hkey : K key) (length : Option Nat) :
    f.edit? key length = none ∧ f'.edit? key length = none ∨
      ∃ g g', f.edit? key length = some g ∧ f'.edit? key length = some g' ∧ g.SameRoom K g' := by
  have hroom : ∀ edits : List (Key × Option Nat), (∀ e ∈ edits, K e.1) →
      f.hasRoom ((key, length) :: edits) = f'.hasRoom ((key, length) :: edits) :=
    fun edits hedits => h _ (List.forall_mem_cons.mpr ⟨hkey, hedits⟩)
  have hnow := hroom [] (by simp)
  simp only [hasRoom] at hroom hnow
  cases hf : f.edit? key length with
  | none =>
      cases hf' : f'.edit? key length with
      | none => exact .inl ⟨rfl, rfl⟩
      | some g' => simp [hf, hf'] at hnow
  | some g =>
      cases hf' : f'.edit? key length with
      | none => simp [hf, hf'] at hnow
      | some g' =>
          simp only [hf, hf'] at hroom
          exact .inr ⟨g, g', rfl, rfl, hroom⟩

end Pages.File

namespace DiskStore

variable {K : Key → Prop} {d d' : DiskStore} {now : Int64}

/-- The raw values of some keys are the same, and there is room for the same changes of them. -/
structure Matches (K : Key → Prop) (d d' : DiskStore) : Prop where
  table (key : Key) : K key → d.table.find? key = d'.table.find? key
  room : d.file.SameRoom K d'.file

/-- Changes that both fail alike, or both leave stores that match. -/
def CommitsMatch (K : Key → Prop) (p q : Except DiskError DiskStore) : Prop :=
  (∃ e, p = .error e ∧ q = .error e) ∨ ∃ d d', p = .ok d ∧ q = .ok d' ∧ Matches K d d'

/-- As `CommitsMatch`, for changes that answer the same. -/
def ChangesMatch {α : Type} (K : Key → Prop) (p q : Except DiskError (α × DiskStore)) : Prop :=
  (∃ e, p = .error e ∧ q = .error e) ∨
    ∃ a d d', p = .ok (a, d) ∧ q = .ok (a, d') ∧ Matches K d d'

theorem CommitsMatch.answering {α : Type} {p q : Except DiskError DiskStore}
    (h : CommitsMatch K p q) (a : α) : ChangesMatch K (p.map (a, ·)) (q.map (a, ·)) := by
  rcases h with ⟨e, rfl, rfl⟩ | ⟨d, d', rfl, rfl, hmatches⟩
  · exact .inl ⟨e, rfl, rfl⟩
  · exact .inr ⟨a, d, d', rfl, rfl, hmatches⟩

theorem Matches.lookup (h : Matches K d d') {key : Key} (hkey : K key) :
    d.lookup now key = d'.lookup now key := by
  rw [DiskStore.lookup, DiskStore.lookup, h.table key hkey]

theorem Matches.truncations (h : Matches K d d') {keys : List Key} (hkeys : ∀ key ∈ keys, K key) :
    d.truncations keys = d'.truncations keys := by
  rw [DiskStore.truncations, DiskStore.truncations]
  refine congrArg _ (List.filter_congr fun key hkey => ?_)
  rw [isTruncated, isTruncated, h.table key (hkeys key hkey)]

/-- A change of the table with its change of the file. -/
theorem Matches.commit (h : Matches K d d') {key : Key} (hkey : K key) (length : Option Nat)
    {table table' : Table Bytes} (htable : ∀ j, K j → table.find? j = table'.find? j) :
    CommitsMatch K (DiskStore.commit table (d.file.edit? key length))
      (DiskStore.commit table' (d'.file.edit? key length)) := by
  rcases h.room.edit? hkey length with ⟨hnone, hnone'⟩ | ⟨g, g', hsome, hsome', hroom⟩
  · exact .inl ⟨full, by rw [hnone]; rfl, by rw [hnone']; rfl⟩
  · exact .inr ⟨⟨table, g⟩, ⟨table', g'⟩, by rw [hsome]; rfl, by rw [hsome']; rfl, htable, hroom⟩

theorem Matches.put (h : Matches K d d') {key : Key} (hkey : K key) (ttl : UInt32)
    (payload : Bytes) : CommitsMatch K (d.put now key ttl payload) (d'.put now key ttl payload) := by
  unfold DiskStore.put putRaw
  split
  · exact .inl ⟨invalidKey, rfl, rfl⟩
  · refine h.commit hkey (some _) fun j hj => ?_
    rw [Table.find?_insert, Table.find?_insert, h.table j hj]

theorem Matches.add (h : Matches K d d') {key : Key} (hkey : K key) (ttl : UInt32)
    (payload : Bytes) :
    ChangesMatch K (d.add now key ttl payload) (d'.add now key ttl payload) := by
  rw [DiskStore.add, DiskStore.add, h.lookup hkey]
  split
  · exact .inr ⟨false, d, d', rfl, rfl, h⟩
  rcases h.put hkey ttl payload with ⟨e, he, he'⟩ | ⟨e, e', he, he', hmatches⟩
  · rw [he, he']
    exact .inl ⟨e, rfl, rfl⟩
  · rw [he, he']
    exact .inr ⟨true, e, e', rfl, rfl, hmatches⟩

theorem Matches.delete (h : Matches K d d') {key : Key} (hkey : K key) :
    ChangesMatch K (d.delete now key) (d'.delete now key) := by
  have hcommit : CommitsMatch K
      (DiskStore.commit (d.table.erase key) (d.file.eraseAll? [key]))
      (DiskStore.commit (d'.table.erase key) (d'.file.eraseAll? [key])) :=
    h.commit hkey none fun j hj => by rw [Table.find?_erase, Table.find?_erase, h.table j hj]
  rw [DiskStore.delete, DiskStore.delete, h.lookup hkey]
  rcases hcommit with ⟨e, he, he'⟩ | ⟨e, e', he, he', hmatches⟩
  · rw [he, he']
    exact .inl ⟨e, rfl, rfl⟩
  · rw [he, he']
    exact .inr ⟨_, e, e', rfl, rfl, hmatches⟩

end DiskStore

namespace Store

variable {α : Type} {K : Key → Prop} {L : List Event → List Event → Prop}

theorem even_attempt (change : DiskStore → Int64 → Except DiskError (α × DiskStore))
    (h : ∀ d d' now, DiskStore.Matches K d d' →
      DiskStore.ChangesMatch K (change d now) (change d' now)) :
    Even (DiskStore.Matches K) L (attempt change) := by
  intro s t hst
  simp only [attempt, hst.now]
  rcases h _ _ t.now hst.contents with ⟨e, he, he'⟩ | ⟨a, d, d', hd, hd', hmatches⟩
  · simp only [he, he']
    exact ⟨rfl, hst⟩
  · simp only [hd, hd']
    exact ⟨rfl, ⟨hmatches, rfl, hst.patience, hst.events⟩⟩

theorem uniform_disk (hL : GrowTogether L) : disk.Uniform K (DiskStore.Matches K) L where
  get key hkey s t hst := by
    simp only [disk, hst.now, hst.contents.lookup hkey,
      hst.contents.truncations (List.forall_mem_singleton.mpr hkey)]
    exact ⟨rfl, hst.logAll hL _⟩
  getMany keys hkeys s t hst := by
    simp only [disk, hst.now, DiskStore.lookupMany, hst.contents.truncations hkeys,
      Table.ofKeys_congr fun key hkey => hst.contents.lookup (hkeys key hkey)]
    exact ⟨rfl, hst.logAll hL _⟩
  set key ttl bytes hkey := even_attempt (fun d now => (d.put now key ttl bytes).map ((), ·))
    fun _ _ _ h => (h.put hkey ttl bytes).answering ()
  add key ttl bytes hkey := even_attempt (fun d now => d.add now key ttl bytes)
    fun _ _ _ h => h.add hkey ttl bytes
  delete key hkey := even_attempt (fun d now => d.delete now key) fun _ _ _ h => h.delete hkey

end Store

/-! ## Whichever store it is -/

namespace Rig

namespace Base

variable {α : Type} {K : Key → Prop} {L : List Event → List Event → Prop}

/-- What is kept under some keys is the same in both. -/
def Matches (K : Key → Prop) : Base → Base → Prop
  | memory m, memory m' => m.Matches K m'
  | recording r, recording r' => Store.RecordingMatch K r r'
  | disk d, disk d' => d.Matches K d'
  | _, _ => False

theorem even_through (call : {σ : Type} → Store σ → Call σ α)
    (hmemory : Store.Even (MemoryStore.Matches K) L (call Store.memory))
    (hrecording : Store.Even (Store.RecordingMatch K) L (call Store.recording))
    (hdisk : Store.Even (DiskStore.Matches K) L (call Store.disk)) :
    Store.Even (Matches K) L (through call) := by
  rintro ⟨contents, now, patience, events⟩ ⟨contents', now', patience', events'⟩ hst
  have hcontents := hst.contents
  match contents, contents', hcontents with
  | memory m, memory m', hm =>
      obtain ⟨answer, s', t', hs', ht', hmatches⟩ :=
        (hmemory _ _ (hst.withContents hm)).exists_eq
      simp only [through, hs', ht']
      exact ⟨rfl, hmatches.withContents hmatches.contents⟩
  | recording r, recording r', hr =>
      obtain ⟨answer, s', t', hs', ht', hmatches⟩ :=
        (hrecording _ _ (hst.withContents hr)).exists_eq
      simp only [through, hs', ht']
      exact ⟨rfl, hmatches.withContents hmatches.contents⟩
  | disk d, disk d', hd =>
      obtain ⟨answer, s', t', hs', ht', hmatches⟩ := (hdisk _ _ (hst.withContents hd)).exists_eq
      simp only [through, hs', ht']
      exact ⟨rfl, hmatches.withContents hmatches.contents⟩

theorem uniform_store (hL : GrowTogether L) : store.Uniform K (Matches K) L where
  get key hkey := even_through (·.get key) (Store.uniform_memory.get key hkey)
    (Store.uniform_recording.get key hkey) ((Store.uniform_disk hL).get key hkey)
  getMany keys hkeys := even_through (·.getMany keys) (Store.uniform_memory.getMany keys hkeys)
    (Store.uniform_recording.getMany keys hkeys) ((Store.uniform_disk hL).getMany keys hkeys)
  set key ttl bytes hkey := even_through (·.set key ttl bytes)
    (Store.uniform_memory.set key ttl bytes hkey) (Store.uniform_recording.set key ttl bytes hkey)
    ((Store.uniform_disk hL).set key ttl bytes hkey)
  add key ttl bytes hkey := even_through (·.add key ttl bytes)
    (Store.uniform_memory.add key ttl bytes hkey) (Store.uniform_recording.add key ttl bytes hkey)
    ((Store.uniform_disk hL).add key ttl bytes hkey)
  delete key hkey := even_through (·.delete key) (Store.uniform_memory.delete key hkey)
    (Store.uniform_recording.delete key hkey) ((Store.uniform_disk hL).delete key hkey)

end Base

/-- Layers cannot tell what the store below them cannot. -/
theorem Layers.uniform_outer_of (l : Layers) {K : Key → Prop} {C : Base → Base → Prop}
    {L : List Event → List Event → Prop} (h : Base.store.Uniform K C L) :
    l.outer.Uniform K C L :=
  l.outer_of (P := (·.Uniform K C L)) h (fun _ latency h => h.slow latency)
    (fun _ key bytes h => h.augmented key bytes) fun _ limit h => h.bounded limit

theorem Layers.uniform_outer (l : Layers) {K : Key → Prop} {L : List Event → List Event → Prop}
    (hL : GrowTogether L) : l.outer.Uniform K (Base.Matches K) L :=
  l.uniform_outer_of (Base.uniform_store hL)

end Rig

/-! ## The log -/

/-- Logs that nobody looks at. -/
abbrev AnyLogs : List Event → List Event → Prop := fun _ _ => True

theorem Store.troubledMatch_eq {σ : Type} : TroubledMatch (σ := σ) (· = ·) = (· = ·) := by
  funext t t'
  obtain ⟨contents, calls⟩ := t
  obtain ⟨contents', calls'⟩ := t'
  exact propext ⟨fun ⟨hcontents, hcalls⟩ => congrArg₂ Troubled.mk hcontents hcalls,
    fun h => ⟨congrArg Troubled.contents h, congrArg Troubled.calls h⟩⟩

namespace Rig.Base

variable {α : Type} {K : Key → Prop}

theorem even_of_mute {σ : Type} {call : Call σ α} (h : Mute call) :
    Store.Even (· = ·) AnyLogs call := by
  rintro ⟨contents, now, patience, events⟩ ⟨contents', now', patience', events'⟩ ⟨rfl, rfl, rfl, -⟩
  obtain ⟨hanswer, hafter⟩ := h ⟨contents, now, patience, events⟩
  obtain ⟨hanswer', hafter'⟩ := h ⟨contents, now, patience, events'⟩
  have hscenes := hafter.symm.trans hafter'
  exact ⟨hanswer.symm.trans hanswer', (congrArg Scene.contents hscenes :),
    (congrArg Scene.now hscenes :), (congrArg Scene.patience hscenes :), trivial⟩

theorem mute_recorded {onMemory : Call MemoryStore α} (h : Mute onMemory) (call : StoreCall)
    (operation : String) (fails : FailurePlan → Bool) :
    Mute (Store.recorded call operation fails onMemory) := by
  rintro ⟨r, now, patience, events⟩
  obtain ⟨hanswer, hafter⟩ := h ⟨r.memory, now, patience, events⟩
  cases hfails : fails r.failures with
  | true =>
      rw [Store.recorded_of_fails hfails, Store.recorded_of_fails hfails]
      exact ⟨rfl, rfl⟩
  | false =>
      rw [Store.recorded_of_not_fails hfails, Store.recorded_of_not_fails hfails]
      exact ⟨hanswer, congrArg (fun s : Scene MemoryStore =>
        s.withContents { r.record call with memory := s.contents }) hafter⟩

theorem mute_through (call : {σ : Type} → Store σ → Call σ α) (hmemory : Mute (call Store.memory))
    (hrecording : Mute (call Store.recording)) (hdisk : Mute (call Store.disk)) :
    Mute (through call) := by
  rintro ⟨contents, now, patience, events⟩
  cases contents with
  | memory m =>
      obtain ⟨hanswer, hafter⟩ := hmemory ⟨m, now, patience, events⟩
      exact ⟨hanswer,
        congrArg (fun s : Scene MemoryStore => s.withContents (Base.memory s.contents)) hafter⟩
  | recording r =>
      obtain ⟨hanswer, hafter⟩ := hrecording ⟨r, now, patience, events⟩
      exact ⟨hanswer,
        congrArg (fun s : Scene RecordingStore => s.withContents (Base.recording s.contents)) hafter⟩
  | disk d =>
      obtain ⟨hanswer, hafter⟩ := hdisk ⟨d, now, patience, events⟩
      exact ⟨hanswer,
        congrArg (fun s : Scene DiskStore => s.withContents (Base.disk s.contents)) hafter⟩

/-- No store call has a use for the log. -/
theorem uniform_store_of_eq : store.Uniform K (· = ·) AnyLogs where
  get key _ := even_of_mute (mute_through (·.get key) (fun _ => ⟨rfl, rfl⟩)
    (mute_recorded (fun _ => ⟨rfl, rfl⟩) _ _ _) fun _ => ⟨rfl, rfl⟩)
  getMany keys _ := even_of_mute (mute_through (·.getMany keys) (fun _ => ⟨rfl, rfl⟩)
    (mute_recorded (fun _ => ⟨rfl, rfl⟩) _ _ _) fun _ => ⟨rfl, rfl⟩)
  set key ttl bytes _ := even_of_mute (mute_through (·.set key ttl bytes) (fun _ => ⟨rfl, rfl⟩)
    (mute_recorded (fun _ => ⟨rfl, rfl⟩) _ _ _) (mute_attempt _))
  add key ttl bytes _ := even_of_mute (mute_through (·.add key ttl bytes) (fun _ => ⟨rfl, rfl⟩)
    (mute_recorded (fun _ => ⟨rfl, rfl⟩) _ _ _) (mute_attempt _))
  delete key _ := even_of_mute (mute_through (·.delete key) (fun _ => ⟨rfl, rfl⟩)
    (mute_recorded (fun _ => ⟨rfl, rfl⟩) _ _ _) (mute_attempt _))

end Rig.Base

/-- Whatever the layers and the trouble, a store call has no use for the log. -/
theorem Rig.Layers.uniform_troubled (l : Layers) (trouble : Trouble) {K : Key → Prop} :
    (l.outer.troubled trouble).Uniform K (· = ·) AnyLogs := by
  have h := (l.uniform_outer_of (Base.uniform_store_of_eq (K := K))).troubled trouble
  rwa [Store.troubledMatch_eq] at h

end CacheAside

import CacheAside.Proofs.Actions
import CacheAside.Proofs.Honest

/-!
# The history of a store in memory

What a store in memory answers about a key follows from what has been done to that key. Expired
entries stay in the table until a write or a purge removes them, so the table alone does not say it;
what the table answers from now on does.
-/

namespace CacheAside

/-- An entry is readable up to the end of its lifetime, exclusive. -/
theorem isLive_expiresAt {ttl : UInt32} {written now : Int64} :
    isLive (expiresAt ttl written) now = true ↔
      ttl = 0 ∨ now.toInt < min (written.toInt + 1000 * ttl.toNat) 0x7FFFFFFFFFFFFFFF := by
  by_cases httl : ttl = 0
  · simp [httl]
  · obtain ⟨t, hexpiry, hend⟩ := expiresAt_eq_some httl written
    simp only [hexpiry, httl, isLive, decide_eq_true_eq, Int64.lt_iff_toInt_lt, hend, false_or]

namespace Rig

/-! ## What a history says -/

namespace Record

/-- It has written these bytes. -/
def Stores (r : Record) (key : Key) (ttl : UInt32) (bytes : Bytes) : Prop :=
  r.action = .set key ttl bytes ∨ r.action = .add key ttl bytes ∧ r.answer = .ok (.flag true)

/-- It has removed whatever was under the key. -/
def Removes (r : Record) (key : Key) : Prop :=
  match r.action with
  | .delete k => k = key
  | .deleteMany keys => key ∈ keys
  | .clear => True
  | _ => False

/-- It has settled what is under the key. -/
def Settles (r : Record) (key : Key) : Prop :=
  (∃ ttl bytes, r.Stores key ttl bytes) ∨ r.Removes key

end Record

/-- The last to settle what is under a key has written these bytes, and they have not expired. -/
def Holds (history : List Record) (key : Key) (bytes : Bytes) (now : Int64) : Prop :=
  ∃ (before : List Record) (r : Record) (after : List Record) (ttl : UInt32),
    history = before ++ r :: after ∧ r.Stores key ttl bytes ∧
    (∀ later ∈ after, ¬later.Settles key) ∧
    (ttl = 0 ∨ now.toInt < min (r.now.toInt + 1000 * ttl.toNat) 0x7FFFFFFFFFFFFFFF)

variable {history : List Record} {r : Record} {key : Key} {bytes : Bytes} {now later : Int64}

theorem not_holds_nil : ¬Holds [] key bytes now := by
  rintro ⟨before, r, after, ttl, hnil, -⟩
  simp at hnil

theorem holds_concat : Holds (history ++ [r]) key bytes now ↔
    (∃ ttl, r.Stores key ttl bytes ∧ isLive (expiresAt ttl r.now) now = true) ∨
      ¬r.Settles key ∧ Holds history key bytes now := by
  constructor
  · rintro ⟨before, r', after, ttl, hsplit, hstores, hafter, hlive⟩
    rcases List.eq_nil_or_concat after with rfl | ⟨after, last, rfl⟩
    · obtain ⟨rfl, hr⟩ := List.append_inj' hsplit rfl
      obtain rfl : r = r' := by simpa using hr
      exact .inl ⟨ttl, hstores, isLive_expiresAt.mpr hlive⟩
    · have hsplit : history ++ [r] = (before ++ r' :: after) ++ [last] := by
        simpa [List.append_assoc] using hsplit
      obtain ⟨hhistory, hr⟩ := List.append_inj' hsplit rfl
      obtain rfl : r = last := by simpa using hr
      exact .inr ⟨hafter r (by simp), before, r', after, ttl, hhistory, hstores,
        fun e he => hafter e (by simp [he]), hlive⟩
  · rintro (⟨ttl, hstores, hlive⟩ | ⟨hr, before, r', after, ttl, rfl, hstores, hafter, hlive⟩)
    · exact ⟨history, r, [], ttl, rfl, hstores, by simp, isLive_expiresAt.mp hlive⟩
    · refine ⟨before, r', after ++ [r], ttl, by simp, hstores, fun e he => ?_, hlive⟩
      rcases List.mem_append.mp he with he | he
      · exact hafter e he
      · rwa [List.mem_singleton.mp he]

/-! ## What an action leaves readable -/

/-- An action that may change what is under a key. -/
def Action.Concerns (action : Action) (key : Key) : Prop :=
  match action with
  | .set k _ _ | .add k _ _ | .delete k => k = key
  | .deleteMany keys => key ∈ keys
  | .clear => True
  | .get _ | .getMany _ | .purge | .size | .isEmpty => False

end Rig

namespace MemoryStore

variable {m : MemoryStore} {key j : Key} {now later : Int64}

theorem lookup_put (ttl : UInt32) (bytes : Bytes) : (m.put now j ttl bytes).lookup later key =
    if j = key then if isLive (expiresAt ttl now) later then some bytes else none
    else m.lookup later key := by
  simp only [lookup, put, Table.find?_insert]
  by_cases h : j = key
  · simp only [h, ↓reduceIte]
    rfl
  · simp only [h, ↓reduceIte]

theorem lookup_delete : (m.delete now j).2.lookup later key =
    if j = key then none else m.lookup later key := by
  simp only [lookup, delete, Table.find?_erase]
  by_cases h : j = key
  · simp [h]
  · simp [h]

theorem lookup_deleteAll (keys : List Key) : (m.deleteAll now keys).2.lookup later key =
    if key ∈ keys then none else m.lookup later key := by
  induction keys generalizing m with
  | nil => simp [deleteAll]
  | cons j keys ih =>
      simp only [deleteAll, ih, lookup_delete, List.mem_cons]
      by_cases hkeys : key ∈ keys
      · simp [hkeys]
      · simp [hkeys, eq_comm]

/-- What a purge removes was not readable any more, and will not be. -/
theorem lookup_purge (hle : now ≤ later) :
    (m.purge now).2.lookup later key = m.lookup later key := by
  simp only [lookup, purge, Table.find?_filter]
  cases m.table.find? key with
  | none => rfl
  | some v =>
      cases hnow : v.isLive now with
      | true => simp [Option.filter, hnow]
      | false =>
          have hlater : v.isLive later = false :=
            Bool.eq_false_iff.mpr fun hlive => by
              rw [StoredValue.isLive, isLive_of_le hle hlive] at hnow
              cases hnow
          simp [Option.filter, hnow, hlater]

end MemoryStore

namespace Rig

variable {m : MemoryStore} {action : Action} {key : Key} {bytes : Bytes} {now later : Int64}

/-- The record of an action on entries in memory. -/
def Action.recordOn (m : MemoryStore) (now : Int64) (action : Action) : Record :=
  ⟨now, action, .ok (action.onMemory m now).1⟩

theorem Action.lookup_of_stores {ttl : UInt32}
    (h : (action.recordOn m now).Stores key ttl bytes) :
    (action.onMemory m now).2.lookup later key =
      if isLive (expiresAt ttl now) later then some bytes else none := by
  rcases h with h | ⟨h, hadded⟩
  · obtain rfl : action = .set key ttl bytes := h
    simp [onMemory, MemoryStore.lookup_put]
  · obtain rfl : action = .add key ttl bytes := h
    have hnone : m.lookup now key = none := by
      simpa [recordOn, onMemory, MemoryStore.add, apply_ite] using hadded
    simp [onMemory, MemoryStore.add, hnone, MemoryStore.lookup_put]

theorem Action.lookup_of_removes (h : (action.recordOn m now).Removes key) :
    (action.onMemory m now).2.lookup later key = none := by
  cases action with
  | delete k =>
      obtain rfl : k = key := h
      simp [onMemory, MemoryStore.lookup_delete]
  | deleteMany keys =>
      have hkey : key ∈ keys := h
      simp [onMemory, MemoryStore.lookup_deleteAll, hkey]
  | clear => rfl
  | get | getMany | set | add | purge | size | isEmpty => exact h.elim

theorem Action.lookup_of_not_settles (h : ¬(action.recordOn m now).Settles key)
    (hle : now ≤ later) : (action.onMemory m now).2.lookup later key = m.lookup later key := by
  cases action with
  | set k ttl bytes =>
      have hk : k ≠ key := fun hk => h (.inl ⟨ttl, bytes, .inl (hk ▸ rfl)⟩)
      simp [onMemory, MemoryStore.lookup_put, hk]
  | add k ttl bytes =>
      cases hfound : (m.lookup now k).isSome with
      | true => simp [onMemory, MemoryStore.add, hfound]
      | false =>
          have hk : k ≠ key := fun hk => h (.inl ⟨ttl, bytes, .inr
            ⟨hk ▸ rfl, by simp [recordOn, onMemory, MemoryStore.add, hfound]⟩⟩)
          simp [onMemory, MemoryStore.add, hfound, MemoryStore.lookup_put, hk]
  | delete k =>
      have hk : k ≠ key := fun hk => h (.inr hk)
      simp [onMemory, MemoryStore.lookup_delete, hk]
  | deleteMany keys =>
      have hkeys : key ∉ keys := fun hkeys => h (.inr hkeys)
      simp [onMemory, MemoryStore.lookup_deleteAll, hkeys]
  | clear => exact (h (.inr trivial)).elim
  | purge => exact MemoryStore.lookup_purge hle
  | get | getMany | size | isEmpty => rfl

theorem Record.not_settles {r : Record} (h : ¬r.action.Concerns key) : ¬r.Settles key := by
  obtain ⟨now, action, answer⟩ := r
  rintro (⟨ttl, bytes, hset | ⟨hadd, -⟩⟩ | hremoves)
  · obtain rfl : action = .set key ttl bytes := hset
    exact h rfl
  · obtain rfl : action = .add key ttl bytes := hadd
    exact h rfl
  · cases action with
    | delete | deleteMany => exact h hremoves
    | clear => exact h trivial
    | get | getMany | set | add | purge | size | isEmpty => exact hremoves

/-! ## A run -/

/-- From a time on, the store answers what its history says. -/
def Tracks (history : List Record) (m : MemoryStore) (since : Int64) : Prop :=
  ∀ now, since ≤ now → ∀ key bytes, m.lookup now key = some bytes ↔ Holds history key bytes now

variable {history : List Record} {since : Int64}

theorem tracks_empty : Tracks [] .empty since := fun now _ key bytes => by
  simp [not_holds_nil, MemoryStore.lookup, MemoryStore.empty]

theorem Tracks.step (h : Tracks history m since) (hle : since ≤ now) (action : Action) :
    Tracks (history ++ [action.recordOn m now]) (action.onMemory m now).2 now := by
  intro later hlater key bytes
  rw [holds_concat]
  by_cases hsettles : (action.recordOn m now).Settles key
  · -- What counts is this action alone.
    simp only [hsettles, not_true_eq_false, false_and, or_false]
    constructor
    · intro hlookup
      rcases hsettles with ⟨ttl, stored, hstores⟩ | hremoves
      · rw [Action.lookup_of_stores hstores] at hlookup
        obtain ⟨hlive, rfl⟩ : isLive (expiresAt ttl now) later = true ∧ stored = bytes := by
          simpa using hlookup
        exact ⟨ttl, hstores, hlive⟩
      · rw [Action.lookup_of_removes hremoves] at hlookup
        cases hlookup
    · rintro ⟨ttl, hstores, hlive⟩
      rw [Action.lookup_of_stores hstores]
      exact if_pos hlive
  · have hunstored : ¬∃ ttl, (action.recordOn m now).Stores key ttl bytes ∧
        isLive (expiresAt ttl (action.recordOn m now).now) later = true :=
      fun ⟨ttl, hstores, _⟩ => hsettles (.inl ⟨ttl, bytes, hstores⟩)
    rw [Action.lookup_of_not_settles hsettles hlater,
      h later (Int64.le_trans hle hlater) key bytes]
    simp [hsettles, hunstored]

theorem Tracks.runAll : ∀ {run : List (Int64 × Action)} {history : List Record} {m : MemoryStore}
    {since : Int64} {s : Scene Base}, Tracks history m since → s.contents = .memory m →
    (since :: (run.map Prod.fst ++ [now])).Pairwise (· ≤ ·) →
    ∃ m', (runAll run s).2.contents = .memory m' ∧ Tracks (history ++ (runAll run s).1) m' now
  | [], history, m, since, s, h, hs, hclock => by
      have hle : since ≤ now := by simpa using hclock
      exact ⟨m, hs, fun later hlater => by
        simpa [Rig.runAll] using h later (Int64.le_trans hle hlater)⟩
  | (t, action) :: run, history, m, since, s, h, hs, hclock => by
      obtain ⟨hsince, hclock⟩ := List.pairwise_cons.mp hclock
      have hrun : action.run { s with now := t } = (.ok (action.onMemory m t).1,
        { s with now := t, contents := .memory (action.onMemory m t).2 }) :=
          Action.run_memory (s := { s with now := t }) hs action
      obtain ⟨m', hcontents, htracks⟩ := Tracks.runAll (h.step (hsince t (by simp)) action)
        (s := { s with now := t, contents := .memory (action.onMemory m t).2 }) rfl hclock
      refine ⟨m', ?_, ?_⟩
      · simpa only [Rig.runAll, hrun] using hcontents
      · simpa only [Rig.runAll, hrun, List.append_assoc, List.singleton_append,
          Action.recordOn] using htracks

/-- What the store answers now follows from a history. -/
structure Follows (history : List Record) (s : Scene Base) : Prop where
  get (key : Key) : ∃ found, (Action.get key).run s = (.ok (.bytes found), s) ∧
    ∀ bytes, found = some bytes ↔ Holds history key bytes s.now
  getMany (keys : List Key) : ∃ found, (Action.getMany keys).run s = (.ok (.table found), s) ∧
    ∀ key bytes, found.find? key = some bytes ↔ key ∈ keys ∧ Holds history key bytes s.now
  /-- It is there already, or it is added. -/
  add (key : Key) (ttl : UInt32) (bytes : Bytes) : ∃ added,
    ((Action.add key ttl bytes).run s).1 = .ok (.flag added) ∧
      (added = true ↔ ((Action.get key).run s).1 = .ok (.bytes none))
  delete (key : Key) : ∃ removed, ((Action.delete key).run s).1 = .ok (.flag removed) ∧
    (removed = true ↔ ∃ bytes, ((Action.get key).run s).1 = .ok (.bytes (some bytes)))
  /-- What concerns other keys changes nothing about this one. -/
  frame (action : Action) (key : Key) (later : Int64) : ¬action.Concerns key → s.now ≤ later →
    ((Action.get key).run { (action.run s).2 with now := later }).1 =
      ((Action.get key).run { s with now := later }).1

theorem Tracks.follows {s : Scene Base} (h : Tracks history m s.now)
    (hs : s.contents = .memory m) : Follows history s where
  get key := ⟨m.lookup s.now key, Action.run_get hs key,
    fun bytes => h s.now (Int64.le_refl _) key bytes⟩
  getMany keys := by
    refine ⟨m.lookupMany s.now keys, Action.run_getMany hs keys, fun key bytes => ?_⟩
    rw [← h s.now (Int64.le_refl _) key bytes, MemoryStore.lookupMany, Table.find?_ofKeys]
    simp
  add key ttl bytes := by
    refine ⟨(m.add s.now key ttl bytes).1, by rw [Action.run_memory hs]; rfl, ?_⟩
    rw [Action.run_memory hs]
    cases hfound : m.lookup s.now key <;> simp [Action.onMemory, MemoryStore.add, hfound]
  delete key := by
    refine ⟨(m.delete s.now key).1, by rw [Action.run_memory hs]; rfl, ?_⟩
    rw [Action.run_memory hs]
    cases hfound : m.lookup s.now key <;> simp [Action.onMemory, MemoryStore.delete, hfound]
  frame action key later hconcerns hle := by
    have hcontents : (action.run s).2.contents = .memory (action.onMemory m s.now).2 :=
      congrArg (·.2.contents) (Action.run_memory hs action)
    rw [Action.run_get (s := { (action.run s).2 with now := later }) hcontents,
      Action.run_get (s := { s with now := later }) hs,
      Action.lookup_of_not_settles (Record.not_settles hconcerns) hle]

/-- From empty, whatever is done as time passes, a store in memory answers by its history. -/
theorem runAll_follows (run : List (Int64 × Action)) (s : Scene Base) (now : Int64)
    (hempty : s.contents = .memory .empty)
    (hclock : (run.map Prod.fst ++ [now]).Pairwise (· ≤ ·)) :
    Follows (runAll run s).1 { (runAll run s).2 with now } := by
  have hfirst : (Int64.minValue :: (run.map Prod.fst ++ [now])).Pairwise (· ≤ ·) :=
    List.pairwise_cons.mpr ⟨fun t _ => Int64.minValue_le t, hclock⟩
  obtain ⟨m, hcontents, htracks⟩ := tracks_empty.runAll hempty hfirst
  exact Tracks.follows (s := { (Rig.runAll run s).2 with now }) htracks hcontents

theorem runAll_follows_past_expiry :
    let run : List (Int64 × Action) :=
      [(1000, .set ⟨"a:1"⟩ 5 [1]), (5999, .add ⟨"a:1"⟩ 0 [2]), (6000, .add ⟨"a:1"⟩ 0 [3])]
    let s : Scene Base := { contents := .memory .empty, now := 0 }
    (run.map Prod.fst ++ [9000]).Pairwise (· ≤ ·) ∧
      Follows (runAll run s).1 { (runAll run s).2 with now := 9000 } :=
  ⟨by decide, runAll_follows _ _ _ rfl (by decide)⟩

end Rig

end CacheAside

import CacheAside.Proofs.Removal

/-!
# Deadlines

A store of which every call takes the same time, behind a deadline. A single call is answered
unless it takes longer than that. Keys that are handled one by one share one deadline: it may strike
between two of them, and the calls that were made until then have had their effect.
-/

namespace CacheAside

namespace Store

variable {σ α β : Type} {call : Key → Call σ α} {fold : β → Key → α → β} {d limit : Nat}
  {delay : Option Nat} {keys : List Key} {s t : Scene σ}

/-! ## Calls that take no time -/

/-- A call that takes no time: how long its caller waits is nothing to it, and it always answers. -/
structure Prompt (call : Call σ α) : Prop where
  heedless (s : Scene σ) (patience : Option Nat) :
    call { s with patience } = ((call s).1, { (call s).2 with patience })
  answers (s : Scene σ) : (call s).1 ≠ .error .stalled

theorem Prompt.patience {call : Call σ α} (h : Prompt call) (s : Scene σ) :
    (call s).2.patience = s.patience :=
  congrArg (fun r : Except StoreError α × Scene σ => r.2.patience) (h.heedless s s.patience)

/-- A store that takes no time. Its own calls for many keys do not matter, as a slow store makes
none. -/
structure AllPrompt (store : Store σ) : Prop where
  get (key : Key) : Prompt (store.get key)
  set (key : Key) (ttl : UInt32) (bytes : Bytes) : Prompt (store.set key ttl bytes)
  add (key : Key) (ttl : UInt32) (bytes : Bytes) : Prompt (store.add key ttl bytes)
  delete (key : Key) : Prompt (store.delete key)

/-! ## What is answered in time -/

/-- Whether that many calls in a row are answered within a limit when each takes so long. Without a
number a call never answers. -/
def InTime (delay : Option Nat) (calls limit : Nat) : Prop :=
  match delay with
  | some d => calls * d ≤ limit
  | none => calls = 0

instance : (delay : Option Nat) → (calls limit : Nat) → Decidable (InTime delay calls limit)
  | some d, calls, limit => inferInstanceAs (Decidable (calls * d ≤ limit))
  | none, calls, _ => inferInstanceAs (Decidable (calls = 0))

/-- How many calls reach the store within a limit when each takes so long. -/
def reaching (delay : Option Nat) (limit : Nat) : Nat :=
  match delay with
  | some d => limit / d
  | none => 0

theorem reaching_lt {calls : Nat} (h : ¬InTime delay calls limit) :
    reaching delay limit < calls := by
  cases delay with
  | none => exact Nat.pos_of_ne_zero h
  | some d => exact Nat.div_lt_of_lt_mul (Nat.mul_comm calls d ▸ Nat.lt_of_not_le h)

/-- A call that is waited for long enough. -/
theorem delayed_of_le {call : Call σ α} (h : Prompt call) (hle : d ≤ limit) :
    delayed (some d) call { s with patience := some limit } =
      ((call s).1, { (call s).2 with patience := some (limit - d) }) :=
  (if_pos hle).trans (h.heedless s _)

/-- A call that is not waited for long enough never happens. -/
theorem delayed_of_not_inTime {call : Call σ α} (h : ¬InTime delay 1 limit) :
    delayed delay call { s with patience := some limit } =
      (.error .stalled, { s with patience := some 0 }) := by
  cases delay with
  | none => rfl
  | some d => exact if_neg fun hle => h ((Nat.one_mul d).trans_le hle)

/-! ## Calls in a row -/

/-- Makes a call for each key and takes in what it answers; the first failure ends it. -/
def each (call : Key → Call σ α) (fold : β → Key → α → β) : List Key → β → Call σ β
  | [], b => fun s => (.ok b, s)
  | key :: keys, b => fun s =>
    match call key s with
    | (.error e, s) => (.error e, s)
    | (.ok a, s) => each call fold keys (fold b key a) s

theorem getEach_eq_each (get : Key → Call σ (Option Bytes)) (keys : List Key)
    (found : Table Bytes) : getEach get keys found =
      each get (fun found key bytes? => bytes?.elim found (found.insert key)) keys found := by
  induction keys generalizing found with
  | nil => rfl
  | cons key keys ih =>
      funext s
      simp only [getEach, each]
      rcases get key s with ⟨_ | _ | bytes, s'⟩
      · rfl
      · exact congrFun (ih found) s'
      · exact congrFun (ih (found.insert key bytes)) s'

theorem deleteEach_eq_each (delete : Key → Call σ Bool) (keys : List Key) (count : Nat) :
    deleteEach delete keys count =
      each delete (fun count _ removed => if removed then count + 1 else count) keys count := by
  induction keys generalizing count with
  | nil => rfl
  | cons key keys ih =>
      funext s
      simp only [deleteEach, each]
      rcases delete key s with ⟨_ | _ | _, s'⟩
      · rfl
      · exact congrFun (ih count) s'
      · exact congrFun (ih (count + 1)) s'

/-- How many calls are made for some keys, up to the first that fails. -/
def callsFor (call : Key → Call σ α) : List Key → Scene σ → Nat
  | [], _ => 0
  | key :: keys, s =>
    match call key s with
    | (.error _, _) => 1
    | (.ok _, s) => callsFor call keys s + 1

theorem callsFor_le_length (keys : List Key) (s : Scene σ) :
    callsFor call keys s ≤ keys.length := by
  induction keys generalizing s with
  | nil => exact Nat.le_refl 0
  | cons key keys ih =>
      rw [callsFor]
      rcases call key s with ⟨_ | a, s'⟩
      · exact Nat.succ_le_succ (Nat.zero_le _)
      · exact Nat.succ_le_succ (ih s')

/-- The keys are enough for the calls that fit into the time. -/
theorem length_take_reaching (h : ¬InTime delay (callsFor call keys s) limit) :
    (keys.take (reaching delay limit)).length = reaching delay limit :=
  List.length_take_of_le
    (Nat.le_of_lt (Nat.lt_of_lt_of_le (reaching_lt h) (callsFor_le_length keys s)))

/-- What a call for each key leaves, one after another. -/
def after (call : Key → Call σ α) (keys : List Key) (s : Scene σ) : Scene σ :=
  keys.foldl (fun s key => (call key s).2) s

theorem Prompt.each (h : ∀ key, Prompt (call key)) (keys : List Key) (b : β) :
    Prompt (each call fold keys b) := by
  induction keys generalizing b with
  | nil => exact ⟨fun _ _ => rfl, fun _ h => by cases h⟩
  | cons key keys ih =>
      constructor
      · intro s patience
        simp only [Store.each, (h key).heedless s patience]
        rcases call key s with ⟨e | a, s'⟩
        · rfl
        · exact (ih (fold b key a)).heedless s' patience
      · intro s
        have hanswers := (h key).answers s
        simp only [Store.each]
        rcases hcall : call key s with ⟨e | a, s'⟩
        · rw [hcall] at hanswers
          exact fun he => hanswers (congrArg Except.error (Except.error.inj he))
        · exact (ih (fold b key a)).answers s'

theorem after_patience (h : ∀ key, Prompt (call key)) (keys : List Key) (s : Scene σ) :
    (after call keys s).patience = s.patience := by
  induction keys generalizing s with
  | nil => rfl
  | cons key keys ih => exact (ih _).trans ((h key).patience s)

/-- Calls that are waited for long enough come to what they would come to without a delay. -/
theorem each_delayed_of_inTime (h : ∀ key, Prompt (call key)) (fold : β → Key → α → β) (b : β)
    (htime : InTime delay (callsFor call keys s) limit) :
    ∃ left, each (fun key => delayed delay (call key)) fold keys b
        { s with patience := some limit } =
      let (answer, s') := each call fold keys b s
      (answer, { s' with patience := some left }) := by
  induction keys generalizing b s limit with
  | nil => exact ⟨limit, rfl⟩
  | cons key keys ih =>
      rw [callsFor] at htime
      simp only [each]
      cases delay with
      | none => rcases hcall : call key s with ⟨_ | a, s'⟩ <;> simp [hcall, InTime] at htime
      | some d =>
          rcases hcall : call key s with ⟨e | a, s'⟩
          · have hle : d ≤ limit := by simpa [hcall, InTime] using htime
            exact ⟨limit - d, by simp only [delayed_of_le (h key) hle, hcall]⟩
          · have hsum : callsFor call keys s' * d + d ≤ limit := by
              simpa [hcall, InTime, Nat.add_mul] using htime
            have hrest : InTime (some d) (callsFor call keys s') (limit - d) :=
              Nat.le_sub_of_add_le hsum
            obtain ⟨left, hleft⟩ := ih (fold b key a) hrest
            refine ⟨left, ?_⟩
            simp only [delayed_of_le (h key) (Nat.le_of_add_left_le hsum), hcall]
            exact hleft

/-- When the patience runs out, as many calls have been made as fit into it. -/
theorem each_delayed_of_not_inTime (h : ∀ key, Prompt (call key)) (b : β)
    (htime : ¬InTime delay (callsFor call keys s) limit) :
    each (fun key => delayed delay (call key)) fold keys b { s with patience := some limit } =
      (.error .stalled,
        { after call (keys.take (reaching delay limit)) s with patience := some 0 }) := by
  induction keys generalizing b s limit with
  | nil => exact absurd (by cases delay <;> simp [InTime, callsFor]) htime
  | cons key keys ih =>
      by_cases hfirst : InTime delay 1 limit
      · -- The first call is answered, so it is not the last one that is made.
        cases delay with
        | none => cases hfirst
        | some d =>
            have hle : d ≤ limit := (Nat.one_mul d).symm.trans_le hfirst
            rw [callsFor] at htime
            simp only [each, delayed_of_le (h key) hle]
            rcases hcall : call key s with ⟨e | a, s'⟩
            · exact absurd hfirst (by simpa only [hcall] using htime)
            · have hlate : limit < callsFor call keys s' * d + d := by
                simpa [hcall, InTime, Nat.add_mul] using htime
              have hrest : ¬InTime (some d) (callsFor call keys s') (limit - d) := by
                simp only [InTime]
                omega
              have hpos : 0 < d := Nat.pos_of_ne_zero fun hd => by simp [InTime, hd] at hrest
              have hafter : after call (keys.take (reaching (some d) (limit - d))) s' =
                  after call ((key :: keys).take (reaching (some d) limit)) s := by
                simp only [reaching, Nat.div_eq_sub_div hpos hle, List.take_succ_cons, after,
                  List.foldl_cons, hcall]
              rw [← hafter]
              exact ih _ hrest
      · have hnone : reaching delay limit = 0 := Nat.lt_one_iff.mp (reaching_lt hfirst)
        simp only [each, delayed_of_not_inTime hfirst, hnone]
        rfl

/-! ## The deadline -/

theorem within_of_answer {call : Call σ α} {operation : String} {answer : Except StoreError α}
    {left : Nat} (hs : s.patience = none) (ht : t.patience = none)
    (hanswer : answer ≠ .error .stalled)
    (h : call { s with patience := some limit } = (answer, { t with patience := some left })) :
    within limit operation call s = (answer, t) := by
  obtain ⟨contents, now, patience, events⟩ := t
  cases ht
  simp only [within, hs, h]
  rcases answer with (_ | _ | _) | _
  · rfl
  · rfl
  · exact absurd rfl hanswer
  · rfl

theorem within_of_stalled {call : Call σ α} {operation : String} {left : Nat}
    (hs : s.patience = none) (ht : t.patience = none)
    (h : call { s with patience := some limit } =
      (.error .stalled, { t with patience := some left })) :
    within limit operation call s = (.error (.timeout operation (.ofMillis limit)), t) := by
  obtain ⟨contents, now, patience, events⟩ := t
  cases ht
  simp only [within, hs, h]
  rfl

theorem within_delayed {call : Call σ α} (h : Prompt call) (operation : String)
    (hs : s.patience = none) : within limit operation (delayed delay call) s =
      if InTime delay 1 limit then call s
      else (.error (.timeout operation (.ofMillis limit)), s) := by
  split
  · next htime =>
      cases delay with
      | none => cases htime
      | some d =>
          exact within_of_answer hs ((h.patience s).trans hs) (h.answers s)
            (delayed_of_le h ((Nat.one_mul d).symm.trans_le htime))
  · next htime => exact within_of_stalled hs hs (delayed_of_not_inTime htime)

theorem within_each_delayed (h : ∀ key, Prompt (call key)) (operation : String) (keys : List Key)
    (b : β) (hs : s.patience = none) :
    within limit operation (each (fun key => delayed delay (call key)) fold keys b) s =
      if InTime delay (callsFor call keys s) limit then each call fold keys b s
      else (.error (.timeout operation (.ofMillis limit)),
        after call (keys.take (reaching delay limit)) s) := by
  have heach : Prompt (each call fold keys b) := Prompt.each h keys b
  split
  · next htime =>
      obtain ⟨left, hleft⟩ := each_delayed_of_inTime h fold b htime
      exact within_of_answer hs ((heach.patience s).trans hs) (heach.answers s) hleft
  · next htime =>
      exact within_of_stalled hs ((after_patience h _ s).trans hs)
        (each_delayed_of_not_inTime h b htime)

/-! ## What has been deleted -/

/-- Deletes that succeed take away what is shown under their keys and nothing else. -/
def Erases (store : Store σ) (view : σ → Int64 → Key → Option Bytes) : Prop :=
  ∀ key s removed, (store.delete key s).1 = .ok removed → ∀ j,
    view (store.delete key s).2.contents (store.delete key s).2.now j =
      if j = key then none else view s.contents s.now j

/-- No call fails but the last that is made. -/
theorem Erases.after {store : Store σ} {view : σ → Int64 → Key → Option Bytes}
    (h : store.Erases view) {n : Nat} (hn : n < callsFor store.delete keys s) (j : Key) :
    view (after store.delete (keys.take n) s).contents (after store.delete (keys.take n) s).now j =
      if j ∈ keys.take n then none else view s.contents s.now j := by
  induction n generalizing keys s with
  | zero => simp [Store.after]
  | succ n ih =>
      cases keys with
      | nil => cases hn
      | cons key keys =>
          rw [callsFor] at hn
          rcases hcall : store.delete key s with ⟨e | removed, s'⟩
          · simp [hcall] at hn
          · have hgone := h key s removed (congrArg Prod.fst hcall) j
            have hn' : n < callsFor store.delete keys s' := by simpa [hcall] using hn
            have hrest := ih hn'
            simp only [hcall] at hgone
            simp only [List.take_succ_cons, Store.after, List.foldl_cons, hcall, List.mem_cons]
            rw [← Store.after, hrest, hgone]
            by_cases hkey : j = key <;> simp [hkey]

/-! ## Calls on the entries themselves -/

theorem Prompt.recorded {onMemory : Call MemoryStore α} (h : Prompt onMemory) (made : StoreCall)
    (operation : String) (fails : FailurePlan → Bool) :
    Prompt (recorded made operation fails onMemory) := by
  constructor
  · rintro ⟨r, now, patience, events⟩ patience'
    cases hfails : fails r.failures with
    | true => simp only [recorded_of_fails hfails]
    | false =>
        have hmemory := h.heedless ⟨r.memory, now, patience, events⟩ patience'
        simp only [recorded_of_not_fails hfails, hmemory]
        rfl
  · rintro ⟨r, now, patience, events⟩
    cases hfails : fails r.failures with
    | true =>
        rw [recorded_of_fails hfails]
        exact fun he => by cases he
    | false =>
        rw [recorded_of_not_fails hfails]
        exact h.answers _

theorem prompt_attempt (change : DiskStore → Int64 → Except DiskError (α × DiskStore)) :
    Prompt (attempt change) := by
  constructor
  · rintro ⟨d, now, patience, events⟩ patience'
    simp only [attempt]
    cases change d now <;> rfl
  · rintro ⟨d, now, patience, events⟩ he
    simp only [attempt] at he
    cases hchange : change d now <;> simp [hchange, DiskError.toStoreError] at he

theorem allPrompt_memory : memory.AllPrompt where
  get _ := ⟨fun _ _ => rfl, fun _ h => by cases h⟩
  set _ _ _ := ⟨fun _ _ => rfl, fun _ h => by cases h⟩
  add _ _ _ := ⟨fun _ _ => rfl, fun _ h => by cases h⟩
  delete _ := ⟨fun _ _ => rfl, fun _ h => by cases h⟩

theorem allPrompt_recording : recording.AllPrompt where
  get key := (allPrompt_memory.get key).recorded (.get key) "get" (·.reads)
  set key ttl bytes := (allPrompt_memory.set key ttl bytes).recorded (.set key ttl) "set" (·.writes)
  add key ttl bytes := (allPrompt_memory.add key ttl bytes).recorded (.add key ttl) "add" (·.writes)
  delete key :=
    (allPrompt_memory.delete key).recorded (.delete key) "delete" (·.deletes.contains key)

theorem allPrompt_disk : disk.AllPrompt where
  get _ := ⟨fun _ _ => rfl, fun _ h => by cases h⟩
  set key ttl bytes := prompt_attempt fun d now => (d.put now key ttl bytes).map ((), ·)
  add key ttl bytes := prompt_attempt fun d now => d.add now key ttl bytes
  delete key := prompt_attempt fun d now => d.delete now key

end Store

namespace Rig.Base

open Store

theorem prompt_through {α : Type} (call : {σ : Type} → Store σ → Call σ α)
    (hmemory : Prompt (call Store.memory)) (hrecording : Prompt (call Store.recording))
    (hdisk : Prompt (call Store.disk)) : Prompt (through call) := by
  constructor
  · rintro ⟨contents, now, patience, events⟩ patience'
    cases contents with
    | memory m =>
        have hcall := hmemory.heedless ⟨m, now, patience, events⟩ patience'
        simp only [through, Scene.withContents, hcall]
    | recording r =>
        have hcall := hrecording.heedless ⟨r, now, patience, events⟩ patience'
        simp only [through, Scene.withContents, hcall]
    | disk d =>
        have hcall := hdisk.heedless ⟨d, now, patience, events⟩ patience'
        simp only [through, Scene.withContents, hcall]
  · rintro ⟨contents, now, patience, events⟩
    cases contents with
    | memory m => exact hmemory.answers _
    | recording r => exact hrecording.answers _
    | disk d => exact hdisk.answers _

theorem allPrompt_store : store.AllPrompt where
  get key := prompt_through (·.get key) (allPrompt_memory.get key) (allPrompt_recording.get key)
    (allPrompt_disk.get key)
  set key ttl bytes := prompt_through (·.set key ttl bytes) (allPrompt_memory.set key ttl bytes)
    (allPrompt_recording.set key ttl bytes) (allPrompt_disk.set key ttl bytes)
  add key ttl bytes := prompt_through (·.add key ttl bytes) (allPrompt_memory.add key ttl bytes)
    (allPrompt_recording.add key ttl bytes) (allPrompt_disk.add key ttl bytes)
  delete key := prompt_through (·.delete key) (allPrompt_memory.delete key)
    (allPrompt_recording.delete key) (allPrompt_disk.delete key)

theorem erases_store : store.Erases lookup := by
  intro key s removed hremoved j
  rw [(removes_store key s).lookup j, hremoved]
  simp [failureOf]

end Rig.Base

namespace Store

variable {σ : Type} {store : Store σ} {view : σ → Int64 → Key → Option Bytes} {s : Scene σ}

/-- A slow store behind a deadline. A call comes to what it comes to without either of them if the
time suffices for it, and otherwise to a timeout that leaves the store alone. Many keys are handled
as without a deadline if the time suffices for all calls that this takes. Otherwise the calls that
the time does suffice for have been made, and no other; so just their keys have been deleted. -/
theorem bounded_slow (hstore : store.AllPrompt) (herases : store.Erases view)
    (delay : Option Nat) (limit : Nat) (hs : s.patience = none) :
    let timed := (store.slow ⟨delay, delay, delay, delay⟩).bounded limit
    let timeout operation : StoreError := .timeout operation (.ofMillis limit)
    (∀ key ttl bytes,
      timed.get key s = (if InTime delay 1 limit then store.get key s
        else (.error (timeout "get"), s)) ∧
      timed.set key ttl bytes s = (if InTime delay 1 limit then store.set key ttl bytes s
        else (.error (timeout "set"), s)) ∧
      timed.add key ttl bytes s = (if InTime delay 1 limit then store.add key ttl bytes s
        else (.error (timeout "add"), s)) ∧
      timed.delete key s = (if InTime delay 1 limit then store.delete key s
        else (.error (timeout "delete"), s))) ∧
    ∀ keys,
      (timed.getMany keys s = if InTime delay (callsFor store.get keys s) limit
        then getEach store.get keys .empty s
        else (.error (timeout "get_bulk"), after store.get (keys.take (reaching delay limit)) s)) ∧
      (timed.deleteMany keys s = if InTime delay (callsFor store.delete keys s) limit
        then deleteEach store.delete keys 0 s
        else (.error (timeout "delete_many"),
          after store.delete (keys.take (reaching delay limit)) s)) ∧
      (¬InTime delay (callsFor store.get keys s) limit →
        reaching delay limit < callsFor store.get keys s ∧
        (keys.take (reaching delay limit)).length = reaching delay limit) ∧
      (¬InTime delay (callsFor store.delete keys s) limit →
        reaching delay limit < callsFor store.delete keys s ∧
        (keys.take (reaching delay limit)).length = reaching delay limit ∧
        ∀ key, view (timed.deleteMany keys s).2.contents (timed.deleteMany keys s).2.now key =
          if key ∈ keys.take (reaching delay limit) then none else view s.contents s.now key) := by
  intro timed timeout
  refine ⟨fun key ttl bytes => ⟨within_delayed (hstore.get key) "get" hs,
    within_delayed (hstore.set key ttl bytes) "set" hs,
    within_delayed (hstore.add key ttl bytes) "add" hs,
    within_delayed (hstore.delete key) "delete" hs⟩, fun keys => ?_⟩
  have hget : timed.getMany keys s = if InTime delay (callsFor store.get keys s) limit
      then getEach store.get keys .empty s
      else (.error (timeout "get_bulk"),
        after store.get (keys.take (reaching delay limit)) s) := by
    simp only [timed, bounded, slow, getEach_eq_each]
    exact within_each_delayed hstore.get "get_bulk" keys Table.empty hs
  have hdelete : timed.deleteMany keys s = if InTime delay (callsFor store.delete keys s) limit
      then deleteEach store.delete keys 0 s
      else (.error (timeout "delete_many"),
        after store.delete (keys.take (reaching delay limit)) s) := by
    simp only [timed, bounded, slow, deleteEach_eq_each]
    exact within_each_delayed hstore.delete "delete_many" keys 0 hs
  refine ⟨hget, hdelete, fun hlate => ⟨reaching_lt hlate, length_take_reaching hlate⟩,
    fun hlate => ⟨reaching_lt hlate, length_take_reaching hlate, fun key => ?_⟩⟩
  rw [hdelete, if_neg hlate]
  exact herases.after (reaching_lt hlate) key

/-- The time is enough for two of three deletes. The third is not even recorded. -/
theorem bounded_slow_of_three_deletes :
    let m : MemoryStore := ⟨((Table.empty.insert ⟨"n:1"⟩ ⟨[1], none⟩).insert ⟨"n:2"⟩
      ⟨[2], none⟩).insert ⟨"n:3"⟩ ⟨[3], none⟩⟩
    let s : Scene Rig.Base := { contents := .recording { memory := m }, now := 1000 }
    let keys : List Key := [⟨"n:1"⟩, ⟨"n:2"⟩, ⟨"n:3"⟩]
    let timed := (Rig.Base.store.slow ⟨some 2, some 2, some 2, some 2⟩).bounded 5
    Rig.Base.store.AllPrompt ∧ Rig.Base.store.Erases Rig.Base.lookup ∧ s.patience = none ∧
      ¬InTime (some 2) (callsFor Rig.Base.store.delete keys s) 5 ∧
      ∃ r, timed.deleteMany keys s =
          (.error (.timeout "delete_many" (.ofMillis 5)), { s with contents := .recording r }) ∧
        r.calls = [.delete ⟨"n:1"⟩, .delete ⟨"n:2"⟩] ∧ r.memory.lookup 1000 ⟨"n:2"⟩ = none ∧
        r.memory.lookup 1000 ⟨"n:3"⟩ = some [3] := by
  intro m s keys timed
  have hlate : ¬InTime (some 2) (callsFor Rig.Base.store.delete keys s) 5 := by decide
  obtain ⟨-, hmany⟩ := bounded_slow Rig.Base.allPrompt_store Rig.Base.erases_store (some 2) 5
    (s := s) rfl
  obtain ⟨-, hdelete, -, -⟩ := hmany keys
  rw [if_neg hlate] at hdelete
  exact ⟨Rig.Base.allPrompt_store, Rig.Base.erases_store, rfl, hlate, _, hdelete, rfl, rfl, rfl⟩

end Store

end CacheAside

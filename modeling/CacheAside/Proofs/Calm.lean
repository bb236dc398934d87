import CacheAside.Proofs.Shielding

/-!
# A call in trouble and a call at rest

A call on a store in trouble compared with the same call on a store that never fails. The caller
gets the same result, the data source is asked the same questions, and the same store calls are
attempted, at once and later.
-/

namespace CacheAside

/-- No trouble at all. -/
def Trouble.none : Trouble := ⟨fun _ => Option.none, fun _ => []⟩

/-- The same world with something else outside. -/
def World.withOutside {σ υ υ' : Type} (w : World σ υ) (outside : υ') : World σ υ' where
  scene := w.scene
  stats := w.stats
  pending := w.pending
  executor := w.executor
  outside := outside

/-! ## What a data source is asked -/

section
variable {σ υ ε ρ α : Type} {κ τ : Kind}

/-- A computation that notes what it is asked for, besides what it keeps for itself. -/
def Computation.noting (asked : List κ) (compute : Computation σ υ ε α) :
    Computation σ (υ × List (List κ)) ε α := fun w =>
  let (answer, w') := compute (w.withOutside w.outside.1)
  (answer, w'.withOutside (w'.outside, w.outside.2 ++ [asked]))

namespace Request

/-- The same request with a data source that takes notes. Only that of a batch read is told what it
is asked for. -/
def noting : Request σ υ ε ρ κ τ → Request σ (υ × List (List κ)) ε ρ κ τ
  | .read o x compute => .read o x (compute.noting [])
  | .readMany o xs source => .readMany o xs fun asked => (source asked).noting asked
  | .write o x compute => .write o x (compute.noting [])
  | .writeMany o xs compute => .writeMany o xs (compute.noting [])
  | .writeByResult o compute => .writeByResult o (compute.noting [])
  | .writeManyByResult o compute => .writeManyByResult o (compute.noting [])
  | .invalidate o x => .invalidate o x
  | .invalidateMany o xs => .invalidateMany o xs
  | .invalidateAround o x timing compute => .invalidateAround o x timing (compute.noting [])
  | .invalidateManyAround o xs timing compute =>
    .invalidateManyAround o xs timing (compute.noting [])
  | .invalidateByResult o compute => .invalidateByResult o (compute.noting [])
  | .invalidateManyByResult o compute => .invalidateManyByResult o (compute.noting [])

/-- The questions that the data source of a request is asked, in their order. -/
def questions (c : Cache σ) (r : Request σ υ ε ρ κ τ) (w : World σ υ) : List (List κ) :=
  (r.noting.run c (w.withOutside (w.outside, []))).2.outside.2

end Request

theorem Computation.Blind.noting {compute : Computation (Observed σ) υ ε α} (h : compute.Blind)
    (asked : List κ) : (compute.noting asked).Blind := by
  intro v w hw
  have hinner : (v.withOutside v.outside.1).trail = (w.withOutside w.outside.1).trail :=
    congrArg (fun t : Trail (υ × List (List κ)) =>
      (⟨t.attempts, t.pending, t.executor, t.outside.1⟩ : Trail υ)) hw
  have hnotes : v.outside.2 = w.outside.2 :=
    congrArg (fun t : Trail (υ × List (List κ)) => t.outside.2) hw
  obtain ⟨answer, v', w', hv', hw', htrail⟩ := (h _ _ hinner).exists_eq
  simp only [Computation.noting, hv', hw', hnotes]
  exact ⟨rfl, congrArg (fun t : Trail υ =>
    (⟨t.attempts, t.pending, t.executor, (t.outside, w.outside.2 ++ [asked])⟩ :
      Trail (υ × List (List κ)))) htrail⟩

theorem Request.Blind.noting {r : Request (Observed σ) υ ε ρ κ τ} (h : r.Blind) :
    r.noting.Blind := by
  cases r with
  | readMany o xs source => exact fun asked => (h asked).noting asked
  | invalidate | invalidateMany => trivial
  | read | write | writeMany | writeByResult | writeManyByResult | invalidateAround
  | invalidateManyAround | invalidateByResult | invalidateManyByResult =>
      exact Computation.Blind.noting h []

theorem Request.query?_noting (c : Cache σ) (r : Request σ υ ε ρ κ τ) :
    r.noting.query? c = r.query? c := by
  cases r <;> rfl

end

/-! ## Failures of the store -/

namespace Request

variable {σ υ ε ρ : Type} {κ τ : Kind} {c : Cache σ} {w : World σ υ}

theorem resultKeys_ne_store (o : Options) (vs : List τ) (e : StoreError) :
    resultKeys c o vs ≠ .error (.store e) := by
  unfold resultKeys
  cases vs.mapM (c.keys.keyForResult o.keyspace) <;> simp

theorem resultCount_ne_store (expected got : Nat) (e : StoreError) :
    resultCount expected got ≠ .error (.store e) := by
  unfold resultCount
  split <;> simp

theorem verdict_ne_store (r : Request σ υ ε ρ κ τ) (asked : List κ) (reply : Reply ρ τ)
    (e : StoreError) : r.verdict c asked reply ≠ .error (.store e) := by
  unfold verdict
  split
  · split
    · exact resultKeys_ne_store _ _ e
    · exact resultCount_ne_store _ _ e
  · exact resultCount_ne_store _ _ e
  · exact resultKeys_ne_store _ _ e
  · exact resultKeys_ne_store _ _ e
  · exact resultKeys_ne_store _ _ e
  · exact resultKeys_ne_store _ _ e
  · simp

theorem fst_direct_ne_store {α β : Type} (form : α → β) (compute : Computation σ υ ε α)
    (e : StoreError) : (compute.direct w).1.map form ≠ .error (.refused (.store e)) := by
  unfold Computation.direct
  rcases compute w with ⟨_ | a, w'⟩ <;> simp [Except.map]

/-- A disabled cache only passes on what the data source says. -/
theorem run_ne_store_of_disabled (hdisabled : c.config.disabled = true)
    (r : Request σ υ ε ρ κ τ) (e : StoreError) :
    (r.run c w).1 ≠ .error (.refused (.store e)) := by
  cases r with
  | invalidate | invalidateMany =>
      simp [run, wrapRefusal, Cache.invalidate, Cache.invalidateMany, hdisabled]
  | readMany o xs source =>
      simp only [run, wrap_eq, Cache.readMany, hdisabled, ↓reduceIte]
      split
      · simp [Except.map]
      · exact fst_direct_ne_store _ _ e
  | read | write | writeMany | writeByResult | writeManyByResult | invalidateAround
  | invalidateManyAround | invalidateByResult | invalidateManyByResult =>
      simp only [run, wrap_eq, Cache.read, Cache.write, Cache.writeMany, Cache.writeByResult,
        Cache.writeManyByResult, Cache.invalidateAround, Cache.invalidateManyAround,
        Cache.invalidateByResult, Cache.invalidateManyByResult, hdisabled, ↓reduceIte]
      exact fst_direct_ne_store _ _ e

theorem run_ne_store (r : Request σ υ ε ρ κ τ) (e : StoreError) :
    (r.run c w).1 ≠ .error (.refused (.store e)) := by
  cases hdisabled : c.config.disabled with
  | true => exact run_ne_store_of_disabled hdisabled r e
  | false =>
      cases hempty : r.isEmptyRead with
      | true =>
          cases r with
          | readMany o xs source =>
              have hnil : xs = [] := by simpa [isEmptyRead] using hempty
              simp [run, wrap, Cache.readMany, hnil]
          | _ => simp [isEmptyRead] at hempty
      | false =>
          by_cases hfaulty : r.Faulty c
          · obtain ⟨e', hrun⟩ := run_of_faulty (w := w) hdisabled r hempty hfaulty
            simp [hrun]
          obtain ⟨asked, w', -, hserved, hasks⟩ :=
            run_of_valid (w := w) hdisabled r hempty (valid_of_not_faulty hfaulty)
          by_cases h : r.IsServed c w.scene
          · obtain ⟨reply, hrun⟩ := hserved h
            simp [hrun]
          obtain ⟨source, -, hfailed, hanswered⟩ := hasks h
          rcases hsource : source w' with ⟨e' | reply, w''⟩
          · simp [hfailed e' w'' hsource]
          cases hverdict : r.verdict c asked reply with
          | ok u =>
              obtain ⟨reply', w₃, hrun⟩ := (hanswered reply w'' hsource).2 hverdict
              simp [hrun]
          | error e' =>
              obtain ⟨w₃, -, hrun⟩ := (hanswered reply w'' hsource).1 e' hverdict
              have hne : e' ≠ .store e := fun h => verdict_ne_store r asked reply e (h ▸ hverdict)
              simpa [hrun] using hne

end Request

/-! ## What reads find -/

namespace Query

variable {σ : Type} {store : Store σ} {view : σ → Int64 → Key → Option Bytes}

/-- A failed read finds nothing, any other what is there. -/
theorem found_eq (h : store.Tells view) (q : Query) (s : Scene σ) {key : Key}
    (hkey : key ∈ q.keys) : q.found store s key =
      if q.fails store s then none else view s.contents s.now key := by
  cases q with
  | one j =>
      obtain rfl : key = j := List.mem_singleton.mp hkey
      have hanswer := (h.get _ key s rfl).2
      rw [found, fails]
      revert hanswer
      cases (store.get key s).1 with
      | error e => exact fun _ => rfl
      | ok bytes => exact fun hanswer => hanswer bytes rfl
  | many keys =>
      have hanswer := (h.getMany _ keys s rfl).2
      rw [found, fails]
      revert hanswer
      cases (store.getMany keys s).1 with
      | error e => exact fun _ => rfl
      | ok t => exact fun hanswer => hanswer t rfl key hkey

theorem found_observed (q : Query) (s : Scene (Observed σ)) (key : Key) :
    q.found store.observed s key = q.found store (s.withContents s.contents.contents) key := by
  cases q <;> rfl

theorem fails_observed (q : Query) (s : Scene (Observed σ)) :
    q.fails store.observed s = q.fails store (s.withContents s.contents.contents) := by
  cases q <;> rfl

/-- Entries in memory that nothing happens to can always be read. -/
theorem fails_calm (q : Query) {s : Scene (Troubled Rig.Base)} {m : MemoryStore}
    (hs : s.contents.contents = .memory m) :
    q.fails (Rig.Base.store.troubled .none) s = false := by
  obtain ⟨⟨contents, calls⟩, now, patience, events⟩ := s
  obtain rfl : contents = .memory m := hs
  cases q <;> rfl

end Query

/-! ## Any trouble -/

open Rig

/-- The same cache over a store that nothing happens to. -/
def Cache.calm (c : Cache (Observed (Troubled Base))) : Cache (Observed (Troubled Base)) :=
  c.onto (Base.store.troubled .none)

namespace Request

variable {υ ε ρ : Type} {κ τ : Kind} {layers : Layers} {trouble : Trouble}
  {c : Cache (Observed (Troubled Base))} {w v : World (Observed (Troubled Base)) υ}
  {m : MemoryStore}

/-- A store of which a read has failed is read as an empty one. -/
theorem found_calm (hlayers : layers.extra = none)
    (hstore : c.store = (layers.outer.troubled trouble).observed)
    (r : Request (Observed (Troubled Base)) υ ε ρ κ τ)
    (hcontents : v.scene.contents.contents.contents = .memory m)
    (hentries : ∀ key, m.lookup v.scene.now key = if r.readFails c w.scene then none
      else w.scene.contents.contents.contents.lookup w.scene.now key)
    (q : Query) (hq : r.query? c = some q) (key : Key) (hkey : key ∈ q.keys) :
    q.found (layers.outer.troubled trouble).observed w.scene key =
      q.found (Base.store.troubled .none).observed v.scene key := by
  have htells := (layers.tells_outer hlayers).troubled trouble
  have hcalm := Base.tells_store.troubled .none
  have hfails : r.readFails c w.scene =
      q.fails (layers.outer.troubled trouble) (w.scene.withContents w.scene.contents.contents) := by
    rw [readFails, hq, ← Query.fails_observed, ← hstore]
    rfl
  have hmemory : Base.lookup v.scene.contents.contents.contents v.scene.now key =
      m.lookup v.scene.now key := by
    rw [hcontents]
    rfl
  rw [Query.found_observed, Query.found_observed, Query.found_eq htells q _ hkey,
    Query.found_eq hcalm q _ hkey, Query.fails_calm q hcontents]
  simp only [Scene.withContents, Bool.false_eq_true, ↓reduceIte]
  rw [hmemory, hentries key, hfails]
  rfl

/-- Whatever becomes of the store calls, a request is answered as on a store that never fails and
has the same entries, or none if the read has failed. The same questions go to the data source, and
the same store calls are attempted, those of the jobs left behind among them. -/
theorem run_calm (layers : Layers) (hlayers : layers.extra = none) (trouble : Trouble)
    (c : Cache (Observed (Troubled Base)))
    (hstore : c.store = (layers.outer.troubled trouble).observed)
    (r : Request (Observed (Troubled Base)) υ ε ρ κ τ) (hblind : r.Blind)
    (w v : World (Observed (Troubled Base)) υ) (htrail : w.trail = v.trail) (m : MemoryStore)
    (hcontents : v.scene.contents.contents.contents = .memory m)
    (hentries : ∀ key, m.lookup v.scene.now key = if r.readFails c w.scene then none
      else w.scene.contents.contents.contents.lookup w.scene.now key) :
    (∀ e, (r.run c w).1 ≠ .error (.refused (.store e))) ∧
      (r.run c w).1.map Reply.blurred = (r.run c.calm v).1.map Reply.blurred ∧
      r.questions c w = r.questions c.calm v ∧
      (r.run c w).2.trail = (r.run c.calm v).2.trail ∧
      (Cache.drain c.store (r.run c w).2).trail =
        (Cache.drain c.calm.store (r.run c.calm v).2).trail := by
  have hover : c = c.onto (layers.outer.troubled trouble) := by rw [Cache.onto, ← hstore]
  have hfound := found_calm hlayers hstore r hcontents hentries
  obtain ⟨hresult, hafter⟩ := r.run_over hblind htrail hfound
  rw [← hover] at hresult hafter
  refine ⟨run_ne_store r, hresult, ?_, hafter, ?_⟩
  · -- A data source that notes its questions outside cannot look at the store either.
    have hnotes : (w.withOutside (w.outside, ([] : List (List κ)))).trail =
        (v.withOutside (v.outside, [])).trail :=
      congrArg (fun t : Trail υ =>
        (⟨t.attempts, t.pending, t.executor, (t.outside, [])⟩ : Trail (υ × List (List κ)))) htrail
    obtain ⟨-, hasked⟩ := r.noting.run_over hblind.noting hnotes
      fun q hq => hfound q (r.query?_noting c ▸ hq)
    rw [← hover] at hasked
    exact congrArg (fun t : Trail (υ × List (List κ)) => t.outside.2) hasked
  · have hpending : (r.run c w).2.pending = (r.run c.calm v).2.pending :=
      congrArg Trail.pending hafter
    rw [hstore, Cache.trail_drain, hafter, hpending]
    exact Cache.trail_drain.symm

theorem run_calm_of_failed_read :
    let trouble : Trouble := ⟨fun _ => some (.lost (.transport "down")), fun _ => []⟩
    let c : Cache (Observed (Troubled Base)) :=
      { store := (({} : Layers).outer.troubled trouble).observed }
    let world (m : MemoryStore) : World (Observed (Troubled Base)) Unit :=
      { scene := { contents := ⟨⟨.memory m, 0⟩, []⟩, now := 0 }, outside := () }
    let w := world ⟨Table.empty.insert ⟨"n:1"⟩ ⟨[1], none⟩⟩
    let v := world .empty
    let r : Request (Observed (Troubled Base)) Unit Unit Unit .word32 .word32 :=
      .read { keyspace := "n" } (1 : UInt32) fun w => (.ok (some (7 : UInt32)), w)
    r.readFails c w.scene = true ∧
      (r.run c w).1.map Reply.blurred = (r.run c.calm v).1.map Reply.blurred := by
  intro trouble c world w v r
  have hfails : r.readFails c w.scene = true := by decide +kernel
  have hblind : r.Blind := fun _ _ h => ⟨rfl, h⟩
  have hentries : ∀ key, MemoryStore.empty.lookup v.scene.now key =
      if r.readFails c w.scene then none
      else w.scene.contents.contents.contents.lookup w.scene.now key := fun key => by
    rw [if_pos hfails]
    rfl
  exact ⟨hfails, (run_calm {} rfl trouble c rfl r hblind w v rfl .empty rfl hentries).2.1⟩

end Request

end CacheAside

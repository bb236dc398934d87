import CacheAside.Proofs.Honest
import CacheAside.Proofs.ReadsByKey
import CacheAside.Proofs.ReadsByPosition

/-!
# Sound worlds

A world is sound if every entry that can be read is good, and every write that has been left behind
too. On an honest store nothing but a bad write can change that.
-/

namespace CacheAside

namespace World

variable {σ υ : Type} {good : Key → Bytes → Prop} {J : σ → Int64 → Prop} {store : Store σ}
  {w w' : World σ υ}

structure Sound (good : Key → Bytes → Prop) (J : σ → Int64 → Prop) (w : World σ υ) : Prop where
  holds : J w.scene.contents w.scene.now
  pending : ∀ job ∈ w.pending, ∀ p ∈ job.writes, good p.key p.bytes

theorem Sound.log (h : w.Sound good J) (e : Event) : (w.log e).Sound good J := ⟨h.holds, h.pending⟩

theorem Sound.count (h : w.Sound good J) (change : Stats → Stats) :
    (w.count change).Sound good J := ⟨h.holds, h.pending⟩

theorem Sound.reaches {calls : List StoreCall} (h : w.Sound good J) (hstore : store.Honest good J)
    (hreaches : store.Reaches calls w w') (hcalls : ∀ call ∈ calls, call.isWrite = false) :
    w'.Sound good J := by
  obtain ⟨tally, hleads⟩ := hreaches
  exact ⟨hleads.scene.safe hstore hcalls h.holds, hleads.pending ▸ h.pending⟩

theorem Sound.noted (h : w.Sound good J) (hstore : store.Honest good J)
    (hnoted : store.Noted w w') : w'.Sound good J := by
  obtain ⟨n, hleads⟩ := hnoted
  exact h.reaches hstore hleads.reaches fun call hc => by cases hc

theorem Sound.applyWrite (h : w.Sound good J) (hstore : store.Honest good J) (ttl : UInt32)
    {p : PendingWrite} (hp : good p.key p.bytes) :
    (Cache.applyWrite store ttl w p).Sound good J := by
  obtain ⟨key, bytes, mode⟩ := p
  cases mode with
  | overwrite =>
      have hset := (hstore.set key ttl bytes hp w.scene h.holds).1
      unfold Cache.applyWrite Store.setSilently
      rcases hcall : store.set key ttl bytes w.scene with ⟨answer, scene⟩
      rw [hcall] at hset
      cases answer with
      | ok u => exact ⟨hset, h.pending⟩
      | error e => exact ⟨hset, h.pending⟩
  | ifAbsent =>
      have hadd := (hstore.add key ttl bytes hp w.scene h.holds).1
      unfold Cache.applyWrite World.call
      rcases hcall : store.add key ttl bytes w.scene with ⟨answer, scene⟩
      rw [hcall] at hadd
      simp only
      cases answer with
      | ok added => exact ⟨hadd, h.pending⟩
      | error e => exact ⟨hadd, h.pending⟩

theorem Sound.runJob (h : w.Sound good J) (hstore : store.Honest good J) {job : Job}
    (hjob : ∀ p ∈ job.writes, good p.key p.bytes) : (Cache.runJob store w job).Sound good J := by
  obtain ⟨writes, ttl⟩ := job
  simp only [Cache.runJob]
  induction writes generalizing w with
  | nil => exact h
  | cons p writes ih =>
      exact ih (h.applyWrite hstore ttl (hjob p List.mem_cons_self))
        fun q hq => hjob q (List.mem_cons_of_mem _ hq)

theorem Sound.drain (h : w.Sound good J) (hstore : store.Honest good J) :
    (Cache.drain store w).Sound good J := by
  have hjobs : ∀ (jobs : List Job) (w : World σ υ), w.Sound good J →
      (∀ job ∈ jobs, ∀ p ∈ job.writes, good p.key p.bytes) →
      (jobs.foldl (Cache.runJob store) w).Sound good J := by
    intro jobs
    induction jobs with
    | nil => exact fun w hw _ => hw
    | cons job jobs ih =>
        intro w hw hgood
        exact ih _ (hw.runJob hstore (hgood job List.mem_cons_self))
          fun j hj => hgood j (List.mem_cons_of_mem _ hj)
  exact hjobs w.pending _ ⟨h.holds, fun job hjob => by cases hjob⟩ h.pending

end World

namespace Cache

variable {σ υ : Type} {τ : Kind} {c : Cache σ} {o : Options} {w : World σ υ}
  {good : Key → Bytes → Prop} {J : σ → Int64 → Prop}

theorem sound_writeBack (hstore : c.store.Honest good J) (h : w.Sound good J)
    {writes : List PendingWrite} (hwrites : ∀ p ∈ writes, good p.key p.bytes) :
    (c.writeBack o writes w).Sound good J := by
  unfold writeBack
  simp only
  split
  · exact h
  · cases o.writeBack with
    | inline => exact h.runJob hstore hwrites
    | detached =>
        simp only
        split
        · refine ⟨h.holds, fun job hjob => ?_⟩
          rcases List.mem_append.mp hjob with hjob | hjob
          · exact h.pending job hjob
          · rw [List.mem_singleton.mp hjob]
            exact hwrites
        · exact (h.log .noExecutor).runJob hstore hwrites

theorem sound_deleteAll (hstore : c.store.Honest good J) (h : w.Sound good J) (keys : List Key) :
    (c.deleteAll keys w).2.Sound good J := by
  refine h.reaches hstore (reaches_deleteAll keys) fun call hcall => ?_
  obtain ⟨key, -, rfl⟩ := List.mem_map.mp hcall
  rfl

end Cache

/-! ## Entries that say what a function says -/

/-- A codec that takes what it has written for the values of a function for nothing else. -/
def Codec.Faithful (codec : Codec) {τ : Kind} (ns : String) (f : Key → Option τ) : Prop :=
  ∀ key bytes e, key.keyspace = ns → codec.encodeOption (f key) = .ok bytes →
    codec.decode τ bytes = .ok e → e = .ofOption (f key)

namespace Cache

variable {σ υ : Type} {τ : Kind} {c : Cache σ} {o : Options} {w : World σ υ} {ns : String}
  {f : Key → Option τ} {J : σ → Int64 → Prop}

/-- Bytes that can stand under a key: if they hold an entry, it is the value that the function gives
the key. Keys of other keyspaces do not matter. -/
def Agrees (c : Cache σ) (ns : String) (f : Key → Option τ) (key : Key) (bytes : Bytes) : Prop :=
  key.keyspace = ns → ∀ e, c.codec.decode τ bytes = .ok e → e = .ofOption (f key)

section
variable (hcodec : c.codec.Faithful ns f)
include hcodec

theorem agrees_writeOf {key : Key} {mode : WriteMode} {p : PendingWrite}
    (hp : c.writeOf key (f key) mode = some p) : c.Agrees ns f p.key p.bytes := by
  obtain ⟨bytes, hbytes, rfl⟩ := Option.map_eq_some_iff.mp hp
  intro hns e hdecode
  cases hencode : c.codec.encodeOption (f key) with
  | ok bs =>
      rw [hencode] at hbytes
      cases hbytes
      exact hcodec key bytes e hns hencode hdecode
  | error e' =>
      rw [hencode] at hbytes
      cases hbytes

theorem agrees_writeFor {stale : Key → Bool} {key : Key} {v : Option τ} (hv : v = f key)
    {p : PendingWrite} (hp : c.writeFor o stale key v = some p) : c.Agrees ns f p.key p.bytes := by
  cases v with
  | some v =>
      simp only [writeFor, hv] at hp
      exact agrees_writeOf hcodec hp
  | none =>
      simp only [writeFor, hv] at hp
      split at hp
      · exact agrees_writeOf hcodec hp
      · cases hp

theorem agrees_writesFor {keys : List Key} {s : Scene σ} {pairs : List (Key × Option τ)}
    (hpairs : ∀ p ∈ pairs, p.2 = f p.1) :
    ∀ p ∈ c.writesFor o keys s pairs, c.Agrees ns f p.key p.bytes := by
  intro p hp
  obtain ⟨pair, hpair, hwrite⟩ := List.mem_filterMap.mp hp
  exact agrees_writeFor hcodec (hpairs pair hpair) hwrite

theorem agrees_rowWrites {rowKey : τ → Key} {rows : List τ}
    (hrows : ∀ v ∈ rows, f (rowKey v) = some v) :
    ∀ p ∈ c.rowWrites rowKey rows, c.Agrees ns f p.key p.bytes := by
  intro p hp
  obtain ⟨v, hv, hwrite⟩ := List.mem_filterMap.mp hp
  rw [← hrows v hv] at hwrite
  exact agrees_writeOf hcodec hwrite

/-- The writes for pairs that agree with the function agree with it. -/
theorem agrees_firstWrites : ∀ {pairs : List (Key × Option τ)} (seen : List Key) (w : World σ υ),
    (∀ p ∈ pairs, p.2 = f p.1) →
    ∀ p ∈ (c.firstWrites o pairs seen w).1, c.Agrees ns f p.key p.bytes
  | [], _, _, _, p, hp => by cases hp
  | (key, v) :: rest, seen, w, hpairs, p, hp => by
      have hrest : ∀ q ∈ rest, q.2 = f q.1 := fun q hq => hpairs q (List.mem_cons_of_mem _ hq)
      rw [firstWrites] at hp
      split at hp
      · exact agrees_firstWrites seen w hrest p hp
      · split at hp
        · exact agrees_firstWrites _ _ hrest p hp
        · simp only at hp
          rcases List.mem_append.mp hp with hp | hp
          · have hv : v = f key := hpairs (key, v) List.mem_cons_self
            obtain ⟨bytes, hbytes, rfl⟩ := List.mem_map.mp hp
            rw [fst_encode, Option.mem_toList] at hbytes
            have hwrite : c.writeOf key (f key) .overwrite = some ⟨key, bytes, .overwrite⟩ := by
              rw [writeOf, ← hv, hbytes]
              rfl
            exact agrees_writeOf hcodec hwrite
          · exact agrees_firstWrites _ _ hrest p hp

end

theorem noted_firstWrites {store : Store σ} :
    ∀ (pairs : List (Key × Option τ)) (seen : List Key) (w : World σ υ),
    store.Noted w (c.firstWrites o pairs seen w).2
  | [], _, w => .refl w
  | (key, v) :: rest, seen, w => by
      rw [firstWrites]
      split
      · exact noted_firstWrites rest seen w
      · split
        · exact ((Store.Noted.refl w).log (.nullSkipped key)).trans (noted_firstWrites rest _ _)
        · exact (noted_encode key v).trans (noted_firstWrites rest _ _)

/-! ## What is read -/

section
variable (hstore : c.store.Honest (c.Agrees ns f) J) (h : w.Sound (c.Agrees ns f) J)
include hstore h

theorem eq_of_recalled {keys : List Key} {key : Key} {e : Entry τ} (hkey : key ∈ keys)
    (hns : key.keyspace = ns) (he : c.recalled o τ keys w.scene key = some e) :
    e = .ofOption (f key) := by
  unfold recalled bulkAnswer at he
  split at he
  · cases he
  · obtain ⟨bytes, hfound, hentry⟩ := Option.bind_eq_some_iff.mp he
    obtain ⟨t, ht, hfind⟩ := Option.bind_eq_some_iff.mp hfound
    have hagrees := (hstore.getMany keys w.scene h.holds).2 t (eq_ok_of_toOption ht) key hkey bytes
      hfind
    exact hagrees hns e (eq_ok_of_toOption hentry)

theorem eq_of_recalledOne {key : Key} {e : Entry τ} (hns : key.keyspace = ns)
    (he : c.recalledOne o τ key w.scene = some e) : e = .ofOption (f key) := by
  unfold recalledOne at he
  split at he
  · cases he
  · obtain ⟨bytes, hfound, hentry⟩ := Option.bind_eq_some_iff.mp he
    have hget := Option.join_eq_some_iff.mp hfound
    have hagrees := (hstore.get key w.scene h.holds).2 (some bytes) (eq_ok_of_toOption hget) bytes
      rfl
    exact hagrees hns e (eq_ok_of_toOption hentry)

end

end Cache

end CacheAside

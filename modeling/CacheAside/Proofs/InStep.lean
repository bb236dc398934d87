import CacheAside.Proofs.FirstValues
import CacheAside.Proofs.Lockstep

/-!
# Requests in step

What a relation of worlds needs for it to be kept by a whole request: the steps of the request keep
it, on the keys of its objects and, once the data source has answered, on those of its results.
-/

namespace CacheAside

namespace Cache

variable {σ υ ε α : Type} {κ τ : Kind} {c : Cache σ} {o : Options} {v w : World σ υ}

/-! ## Whose keys are written -/

theorem key_of_valueWrites {b : Batch κ τ} {pairs : List (Key × Option τ)} {p : PendingWrite}
    (h : p ∈ (c.valueWrites o b pairs w).1) : p.key ∈ pairs.map (·.1) := by
  rw [fst_valueWrites] at h
  obtain ⟨pair, hpair, hwrite⟩ := List.mem_filterMap.mp h
  exact List.mem_map.mpr ⟨pair, hpair, (key_of_writeFor hwrite).symm⟩

theorem key_of_firstWrites {pairs : List (Key × Option τ)} {seen : List Key} {p : PendingWrite}
    (h : p ∈ (c.firstWrites o pairs seen w).1) : p.key ∈ pairs.map (·.1) := by
  rw [fst_firstWrites] at h
  obtain ⟨pair, hpair, hwrite⟩ := List.mem_filterMap.mp h
  exact List.mem_map.mpr ⟨pair, (List.mem_filter.mp (firsts_subset _ _ hpair)).1,
    (key_of_writeFor hwrite).symm⟩

theorem key_of_collectRows {note : Key → World σ υ → World σ υ} {ns : String} {rows : List τ}
    {done found : Rows τ} {p : PendingWrite}
    (h : (c.collectRows ns note rows done w).1 = .ok found) (hp : p ∈ found.writes) :
    p ∈ done.writes ∨ ∃ row ∈ rows, c.keys.keyForResult ns row = .ok p.key := by
  induction rows generalizing w done with
  | nil =>
      cases h
      exact .inl hp
  | cons row rows ih =>
      simp only [collectRows] at h
      split at h
      · cases h
      rename_i key hkey
      split at h
      · rcases ih h with hp | ⟨u, hu, hrow⟩
        · exact .inl hp
        · exact .inr ⟨u, List.mem_cons_of_mem _ hu, hrow⟩
      rcases ih h with hp | ⟨u, hu, hrow⟩
      · rw [writes_add, List.mem_append, Option.mem_toList] at hp
        refine hp.imp_right fun hwrite => ⟨row, List.mem_cons_self, ?_⟩
        rw [key_of_writeOf hwrite, hkey]
      · exact .inr ⟨u, List.mem_cons_of_mem _ hu, hrow⟩

theorem key_of_alignByPosition {b b' : Batch κ τ} {results : List (Option τ)}
    {writes : List PendingWrite} {p : PendingWrite}
    (h : (c.alignByPosition o b results w).1 = .ok (writes, b')) (hp : p ∈ writes) :
    p.key ∈ b.missed.map (·.1) := by
  simp only [alignByPosition] at h
  split at h
  · cases h
    obtain ⟨pair, hpair, hkey⟩ := List.mem_map.mp (key_of_valueWrites hp)
    exact hkey ▸ (List.of_mem_zip hpair).1
  · cases h

theorem key_of_alignByKey {b b' : Batch κ τ} {results : List (Option τ)}
    {writes : List PendingWrite} {p : PendingWrite}
    (h : (c.alignByKey o b results w).1 = .ok (writes, b')) (hp : p ∈ writes) :
    p.key ∈ b.missed.map (·.1) ∨
      ∃ u ∈ results.filterMap id, c.keys.keyForResult o.keyspace u = .ok p.key := by
  simp only [alignByKey] at h
  split at h
  · cases h
  rename_i found w' hfound
  cases h
  rcases List.mem_append.mp hp with hp | hp
  · exact .inr ((key_of_collectRows (congrArg Prod.fst hfound) hp).resolve_left
      List.not_mem_nil)
  · obtain ⟨pair, hpair, hkey⟩ := List.mem_map.mp (key_of_valueWrites hp)
    obtain ⟨key, hkey', rfl⟩ := List.mem_map.mp hpair
    exact .inl (hkey ▸ (List.mem_filter.mp hkey').1)

theorem keyed_fetch (b : Batch κ τ) : (c.fetch o b w).1.keyed = b.keyed := by
  unfold fetch
  split
  · rfl
  split
  · exact keyed_absorb _ _
  · rfl

theorem missed_subset (b : Batch κ τ) : b.missed.map (·.1) ⊆ b.distinctKeys :=
  List.map_subset _ List.filter_sublist.subset

/-- The keys of objects are what is known of the key of each object. -/
theorem forall_of_keysFor {K : Key → Prop} {xs : List κ} {keys : List Key}
    (hkeys : ∀ x ∈ xs, ∀ key, c.keys.keyFor o.keyspace x = .ok key → K key)
    (h : c.keysFor o.keyspace xs = .ok keys) : ∀ key ∈ keys.eraseDups, K key := by
  intro key hkey
  obtain ⟨x, hx, hfor⟩ := mem_of_mapM_ok h (by simpa using hkey)
  exact hkeys x hx key hfor

theorem distinctKeys_congr {b b' : Batch κ τ} (h : b.keyed = b'.keyed) :
    b.distinctKeys = b'.distinctKeys := by
  rw [Batch.distinctKeys, Batch.distinctKeys, Batch.representatives, Batch.representatives, h]

/-! ## Calls -/

section
variable {K : Key → Prop} {R S : World σ υ → World σ υ → Prop}
  {T : List τ → World σ υ → World σ υ → Prop} {m m' : WriteBack}
  {compute : Computation σ υ ε (Option τ)} {computeMany : Computation σ υ ε (List (Option τ))}

/-- What the steps of a call need to keep: one relation before the data source is asked, one for
each of its answers, one at the end. -/
structure InStep (c : Cache σ) (o : Options) (K : Key → Prop) (R S : World σ υ → World σ υ → Prop)
    (T : List τ → World σ υ → World σ υ → Prop) (m m' : WriteBack) : Prop where
  closes (us : List τ) : c.Closes (c.keyAmong o.keyspace K us) (T us) S m m'
  done (v w : World σ υ) : R v w → S v w

theorem InStep.refuse (h : c.InStep o K R S T m m') (hw : R v w) (e : ConfigError) :
    Lockstep S (refuse e v : Except (Failure ε) α × World σ υ) (CacheAside.refuse e w) :=
  ⟨rfl, h.done _ _ hw⟩

theorem InStep.direct (h : c.InStep o K R S T m m') {values : α → List τ}
    {compute : Computation σ υ ε α} (hsource : compute.Relates R T values) (hw : R v w) :
    Lockstep S (compute.direct v) (compute.direct w) :=
  hsource.direct (fun us => (h.closes us).done) hw

theorem InStep.read (h : c.InStep o K R S T m m') (hopens : c.Opens o K R)
    (hsource : compute.Relates R T Option.toList) (hw : R v w) {x : κ}
    (hkey : ∀ key, c.keys.keyFor o.keyspace x = .ok key → K key) :
    Lockstep S (c.read (o.inMode m) x compute v) (c.read (o.inMode m') x compute w) := by
  simp only [Cache.read, o.inMode_rest, lookup_inMode]
  split
  · exact h.direct hsource hw
  rcases o.validate with e | u
  · exact h.refuse hw e
  simp only
  split
  · exact h.refuse hw _
  rcases hfor : c.keys.keyFor o.keyspace x with e | key
  · exact h.refuse hw e
  obtain ⟨found, v', w', hv', hw', hworlds⟩ :=
    (hopens.lookup τ key v w (hkey key hfor) hw).exists_eq
  simp only [hv', hw']
  cases found with
  | hit entry => exact ⟨rfl, h.done _ _ hworlds⟩
  | miss stale =>
      obtain ⟨answer, v'', w'', hv'', hw'', hworlds⟩ :=
        (hsource _ _ (hopens.misses 1 _ _ hworlds)).exists_eq
      simp only [hv'', hw'']
      rw [hv''] at hworlds
      cases answer with
      | error e => exact ⟨rfl, (h.closes []).done _ _ hworlds⟩
      | ok a => exact ⟨rfl, (h.closes _).storeValue hworlds (.inl (hkey key hfor)) a _⟩

theorem InStep.align (h : c.InStep o K R S T m m') {b : Batch κ τ} {results : List (Option τ)}
    (hw : T (results.filterMap id) v w) :
    Lockstep (T (results.filterMap id))
      ((if o.keysFromResults then c.alignByKey (o.inMode m) b
        else c.alignByPosition (o.inMode m) b) results v)
      ((if o.keysFromResults then c.alignByKey (o.inMode m') b
        else c.alignByPosition (o.inMode m') b) results w) := by
  split
  · exact (h.closes _).alignByKey b results hw
  · exact (h.closes _).alignByPosition b results hw

theorem key_of_aligned {b b' : Batch κ τ} {results : List (Option τ)}
    {writes : List PendingWrite} {p : PendingWrite}
    (h : ((if o.keysFromResults then c.alignByKey o b else c.alignByPosition o b) results w).1 =
      .ok (writes, b')) (hkeys : ∀ key ∈ b.distinctKeys, K key) (hp : p ∈ writes) :
    c.keyAmong o.keyspace K (results.filterMap id) p.key := by
  split at h
  · exact (key_of_alignByKey h hp).imp_left fun hkey => hkeys _ (missed_subset b hkey)
  · exact .inl (hkeys _ (missed_subset b (key_of_alignByPosition h hp)))

theorem finish_lockstep (b : Batch κ τ) (hw : S v w) :
    Lockstep S (finish (o.inMode m) b v : Except (Failure ε) _ × World σ υ)
      (finish (o.inMode m') b w) := by
  simp only [finish, o.inMode_rest]
  split <;> exact ⟨rfl, hw⟩

theorem InStep.readMany (h : c.InStep o K R S T m m') (hopens : c.Opens o K R)
    {source : List κ → Computation σ υ ε (List (Option τ))}
    (hsource : ∀ asked, (source asked).Relates R T (·.filterMap id)) (hw : R v w) {xs : List κ}
    (hkeys : ∀ x ∈ xs, ∀ key, c.keys.keyFor o.keyspace x = .ok key → K key) :
    Lockstep S (c.readMany (o.inMode m) xs source v) (c.readMany (o.inMode m') xs source w) := by
  simp only [Cache.readMany, o.inMode_rest, fetch_inMode]
  split
  · exact ⟨rfl, h.done _ _ hw⟩
  split
  · exact h.direct (hsource xs) hw
  rcases o.validate with e | u
  · exact h.refuse hw e
  rcases (if o.keysFromResults then c.checkResultKind τ else .ok ()) with e | u
  · exact h.refuse hw e
  rcases hbuild : (Batch.build c.keys o.keyspace xs : Except _ (Batch κ τ)) with e | b
  · exact h.refuse hw e
  obtain ⟨keyOf, hall, hkeeps⟩ := Batch.keeps_of_build hbuild
  have hb : ∀ key ∈ b.distinctKeys, K key := fun key hkey => by
    obtain ⟨x, hx, rfl⟩ : ∃ x ∈ xs, keyOf x = key := by simpa [hkeeps.distinctKeys] using hkey
    obtain ⟨y, hy, -, hkey⟩ := hall.exists_first hx
    exact hkeys y (eraseDups_subset xs hy) _ hkey
  have hkeyed := keyed_fetch (c := c) (o := o) (w := v) b
  obtain ⟨b', v', w', hv', hw', hworlds⟩ := (hopens.fetch b v w hb hw).exists_eq
  rw [hv'] at hkeyed
  simp only [hv', hw']
  have hcounted := hopens.misses b'.missed.length _ _
    (hopens.hits (b'.distinctKeys.length - b'.missed.length) _ _ hworlds)
  split
  · exact finish_lockstep b' (h.done _ _ hcounted)
  -- The data source is asked for the keys missed, and its answer is taken in.
  obtain ⟨answer, v'', w'', hv'', hw'', hworlds⟩ :=
    (hsource (b'.missed.map (·.2)) _ _ hcounted).exists_eq
  simp only [hv'', hw'']
  rw [hv''] at hworlds
  rcases answer with e | results
  · exact ⟨rfl, (h.closes []).done _ _ hworlds⟩
  have hb' : ∀ key ∈ b'.distinctKeys, K key := by rwa [distinctKeys_congr hkeyed]
  obtain ⟨aligned, v₃, w₃, hv₃, hw₃, hworlds⟩ := (h.align (b := b') hworlds).exists_eq
  simp only [hv₃, hw₃]
  rcases aligned with e | ⟨writes, b''⟩
  · exact ⟨rfl, (h.closes _).done _ _ hworlds⟩
  refine finish_lockstep b'' ((h.closes _).write o writes _ _ (fun p hp => ?_) hworlds)
  exact key_of_aligned (o := o.inMode m) (congrArg Prod.fst hv₃) hb' hp

theorem InStep.write (h : c.InStep o K R S T m m')
    (hsource : compute.Relates R T Option.toList) (hw : R v w) {x : κ}
    (hkey : ∀ key, c.keys.keyFor o.keyspace x = .ok key → K key) :
    Lockstep S (c.write (o.inMode m) x compute v) (c.write (o.inMode m') x compute w) := by
  simp only [Cache.write, o.inMode_rest]
  split
  · exact h.direct hsource hw
  rcases o.validate with e | u
  · exact h.refuse hw e
  rcases hfor : c.keys.keyFor o.keyspace x with e | key
  · exact h.refuse hw e
  obtain ⟨answer, v', w', hv', hw', hworlds⟩ := (hsource _ _ hw).exists_eq
  simp only [hv', hw']
  rw [hv'] at hworlds
  cases answer with
  | error e => exact ⟨rfl, (h.closes []).done _ _ hworlds⟩
  | ok a => exact ⟨rfl, (h.closes _).storeValue hworlds (.inl (hkey key hfor)) a _⟩

theorem InStep.writeMany (h : c.InStep o K R S T m m')
    (hsource : computeMany.Relates R T (·.filterMap id)) (hw : R v w) {xs : List κ}
    (hkeys : ∀ x ∈ xs, ∀ key, c.keys.keyFor o.keyspace x = .ok key → K key) :
    Lockstep S (c.writeMany (o.inMode m) xs computeMany v)
      (c.writeMany (o.inMode m') xs computeMany w) := by
  simp only [Cache.writeMany, o.inMode_rest]
  split
  · exact h.direct hsource hw
  rcases o.validate with e | u
  · exact h.refuse hw e
  rcases hfor : c.keysFor o.keyspace xs with e | keys
  · exact h.refuse hw e
  obtain ⟨answer, v', w', hv', hw', hworlds⟩ := (hsource _ _ hw).exists_eq
  simp only [hv', hw']
  rw [hv'] at hworlds
  rcases answer with e | results
  · exact ⟨rfl, (h.closes []).done _ _ hworlds⟩
  simp only
  split
  · obtain ⟨writes, v'', w'', hv'', hw'', hworlds⟩ :=
      ((h.closes _).firstWrites (o := o) (keys.zip results) [] hworlds).exists_eq
    simp only [hv'', hw'']
    refine ⟨rfl, (h.closes _).write o writes _ _ (fun p hp => ?_) hworlds⟩
    have hwritten : p ∈ (c.firstWrites (o.inMode m) (keys.zip results) [] v').1 := by rwa [hv'']
    obtain ⟨pair, hpair, hkey⟩ := List.mem_map.mp (key_of_firstWrites hwritten)
    obtain ⟨x, hx, hxkey⟩ := mem_of_mapM_ok hfor (List.of_mem_zip hpair).1
    exact .inl (hkey ▸ hkeys x hx _ hxkey)
  · exact ⟨rfl, (h.closes _).done _ _ hworlds⟩

theorem InStep.writeByResult (h : c.InStep o K R S T m m')
    (hsource : compute.Relates R T Option.toList) (hw : R v w) :
    Lockstep S (c.writeByResult (o.inMode m) compute v)
      (c.writeByResult (o.inMode m') compute w) := by
  simp only [Cache.writeByResult, o.inMode_rest]
  split
  · exact h.direct hsource hw
  rcases o.validate with e | u
  · exact h.refuse hw e
  rcases c.checkResultKind τ with e | u
  · exact h.refuse hw e
  obtain ⟨answer, v', w', hv', hw', hworlds⟩ := (hsource _ _ hw).exists_eq
  simp only [hv', hw']
  rw [hv'] at hworlds
  rcases answer with e | (_ | a)
  · exact ⟨rfl, (h.closes []).done _ _ hworlds⟩
  · exact ⟨rfl, (h.closes []).done _ _ hworlds⟩
  simp only
  cases hkey : c.keys.keyForResult o.keyspace a with
  | error e => exact ⟨rfl, (h.closes [a]).done _ _ hworlds⟩
  | ok key =>
      exact ⟨rfl, (h.closes [a]).storeValue hworlds (.inr ⟨a, List.mem_cons_self, hkey⟩) _ _⟩

theorem InStep.writeManyByResult (h : c.InStep o K R S T m m')
    (hsource : computeMany.Relates R T (·.filterMap id)) (hw : R v w) :
    Lockstep S (c.writeManyByResult (o.inMode m) computeMany v)
      (c.writeManyByResult (o.inMode m') computeMany w) := by
  simp only [Cache.writeManyByResult, o.inMode_rest]
  split
  · exact h.direct hsource hw
  rcases o.validate with e | u
  · exact h.refuse hw e
  rcases c.checkResultKind τ with e | u
  · exact h.refuse hw e
  obtain ⟨answer, v', w', hv', hw', hworlds⟩ := (hsource _ _ hw).exists_eq
  simp only [hv', hw']
  rw [hv'] at hworlds
  rcases answer with e | results
  · exact ⟨rfl, (h.closes []).done _ _ hworlds⟩
  obtain ⟨collected, v'', w'', hv'', hw'', hworlds⟩ := ((h.closes _).collectRows
    (fun _ w => w) (fun _ _ _ hw => hw) o.keyspace (results.filterMap id) {} hworlds).exists_eq
  simp only [hv'', hw'']
  cases collected with
  | error e => exact ⟨rfl, (h.closes _).done _ _ hworlds⟩
  | ok found =>
      refine ⟨rfl, (h.closes _).write o found.writes _ _ (fun p hp => .inr ?_) hworlds⟩
      exact (key_of_collectRows (congrArg Prod.fst hv'') hp).resolve_left List.not_mem_nil

/-! ## Invalidating -/

theorem InStep.invalidate (h : c.InStep o K R S T m m') (hdeletes : c.Deletes K R) (hw : R v w)
    {x : κ} (hkey : ∀ key, c.keys.keyFor o.keyspace x = .ok key → K key) :
    Lockstep S (c.invalidate (o.inMode m) x v) (c.invalidate (o.inMode m') x w) := by
  simp only [Cache.invalidate, o.inMode_rest]
  split
  · exact ⟨rfl, h.done _ _ hw⟩
  rcases o.validate with e | u
  · exact ⟨rfl, h.done _ _ hw⟩
  cases hfor : c.keys.keyFor o.keyspace x with
  | error e => exact ⟨rfl, h.done _ _ hw⟩
  | ok key =>
      obtain ⟨count, v', w', hv', hw', hworlds⟩ := (lockstep_deleteAll hdeletes hw [key]
        (by simpa using hkey key hfor)).exists_eq
      simp only [hv', hw']
      exact ⟨rfl, h.done _ _ hworlds⟩

theorem InStep.invalidateMany (h : c.InStep o K R S T m m') (hdeletes : c.Deletes K R)
    (hw : R v w) {xs : List κ}
    (hkeys : ∀ x ∈ xs, ∀ key, c.keys.keyFor o.keyspace x = .ok key → K key) :
    Lockstep S (c.invalidateMany (o.inMode m) xs v) (c.invalidateMany (o.inMode m') xs w) := by
  simp only [Cache.invalidateMany, o.inMode_rest]
  split
  · exact ⟨rfl, h.done _ _ hw⟩
  rcases o.validate with e | u
  · exact ⟨rfl, h.done _ _ hw⟩
  cases hfor : c.keysFor o.keyspace xs with
  | error e => exact ⟨rfl, h.done _ _ hw⟩
  | ok keys =>
      obtain ⟨count, v', w', hv', hw', hworlds⟩ := (lockstep_deleteAll hdeletes hw keys.eraseDups
        (forall_of_keysFor hkeys hfor)).exists_eq
      simp only [hv', hw']
      exact ⟨rfl, h.done _ _ hworlds⟩

theorem InStep.around (h : c.InStep o K R S T m m') (hdeletes : c.Deletes K R)
    (hafter : ∀ us, c.Deletes (c.keyAmong o.keyspace K us) (T us)) {values : α → List τ}
    {compute : Computation σ υ ε α} (hsource : compute.Relates R T values) (hw : R v w)
    {keys : List Key} (hkeys : ∀ key ∈ keys, K key) (timing : Timing) :
    Lockstep S (c.around timing keys compute v) (c.around timing keys compute w) := by
  cases timing with
  | before => exact h.direct hsource (lockstep_deleteAll hdeletes hw keys hkeys).states
  | after =>
      obtain ⟨answer, v', w', hv', hw', hworlds⟩ := (hsource _ _ hw).exists_eq
      simp only [Cache.around, Computation.direct, hv', hw']
      rw [hv'] at hworlds
      cases answer with
      | error e => exact ⟨rfl, (h.closes []).done _ _ hworlds⟩
      | ok a =>
          exact ⟨rfl, (h.closes _).done _ _ (lockstep_deleteAll (hafter _) hworlds keys
            fun key hkey => .inl (hkeys key hkey)).states⟩

theorem InStep.invalidateAround (h : c.InStep o K R S T m m') (hdeletes : c.Deletes K R)
    (hafter : ∀ us, c.Deletes (c.keyAmong o.keyspace K us) (T us)) {values : α → List τ}
    {compute : Computation σ υ ε α} (hsource : compute.Relates R T values) (hw : R v w)
    {x : κ} (hkey : ∀ key, c.keys.keyFor o.keyspace x = .ok key → K key) (timing : Timing) :
    Lockstep S (c.invalidateAround (o.inMode m) x timing compute v)
      (c.invalidateAround (o.inMode m') x timing compute w) := by
  simp only [Cache.invalidateAround, o.inMode_rest]
  split
  · exact h.direct hsource hw
  rcases o.validate with e | u
  · exact h.refuse hw e
  cases hfor : c.keys.keyFor o.keyspace x with
  | error e => exact h.refuse hw e
  | ok key => exact h.around hdeletes hafter hsource hw (by simpa using hkey key hfor) timing

theorem InStep.invalidateManyAround (h : c.InStep o K R S T m m') (hdeletes : c.Deletes K R)
    (hafter : ∀ us, c.Deletes (c.keyAmong o.keyspace K us) (T us)) {values : α → List τ}
    {compute : Computation σ υ ε α} (hsource : compute.Relates R T values) (hw : R v w)
    {xs : List κ} (hkeys : ∀ x ∈ xs, ∀ key, c.keys.keyFor o.keyspace x = .ok key → K key)
    (timing : Timing) :
    Lockstep S (c.invalidateManyAround (o.inMode m) xs timing compute v)
      (c.invalidateManyAround (o.inMode m') xs timing compute w) := by
  simp only [Cache.invalidateManyAround, o.inMode_rest]
  split
  · exact h.direct hsource hw
  rcases o.validate with e | u
  · exact h.refuse hw e
  cases hfor : c.keysFor o.keyspace xs with
  | error e => exact h.refuse hw e
  | ok keys =>
      exact h.around hdeletes hafter hsource hw (forall_of_keysFor hkeys hfor) timing

theorem InStep.invalidateByResult (h : c.InStep o K R S T m m')
    (hafter : ∀ us, c.Deletes (c.keyAmong o.keyspace K us) (T us))
    (hsource : compute.Relates R T Option.toList) (hw : R v w) :
    Lockstep S (c.invalidateByResult (o.inMode m) compute v)
      (c.invalidateByResult (o.inMode m') compute w) := by
  simp only [Cache.invalidateByResult, o.inMode_rest]
  split
  · exact h.direct hsource hw
  rcases o.validate with e | u
  · exact h.refuse hw e
  rcases c.checkResultKind τ with e | u
  · exact h.refuse hw e
  obtain ⟨answer, v', w', hv', hw', hworlds⟩ := (hsource _ _ hw).exists_eq
  simp only [hv', hw']
  rw [hv'] at hworlds
  rcases answer with e | (_ | a)
  · exact ⟨rfl, (h.closes []).done _ _ hworlds⟩
  · exact ⟨rfl, (h.closes []).done _ _ hworlds⟩
  simp only
  cases hkey : c.keys.keyForResult o.keyspace a with
  | error e => exact ⟨rfl, (h.closes [a]).done _ _ hworlds⟩
  | ok key =>
      refine ⟨rfl, (h.closes [a]).done _ _ (lockstep_deleteAll (hafter [a]) hworlds [key]
        fun j hj => .inr ⟨a, List.mem_cons_self, ?_⟩).states⟩
      rw [List.mem_singleton.mp hj, hkey]

theorem InStep.invalidateManyByResult (h : c.InStep o K R S T m m')
    (hafter : ∀ us, c.Deletes (c.keyAmong o.keyspace K us) (T us))
    (hsource : computeMany.Relates R T (·.filterMap id)) (hw : R v w) :
    Lockstep S (c.invalidateManyByResult (o.inMode m) computeMany v)
      (c.invalidateManyByResult (o.inMode m') computeMany w) := by
  simp only [Cache.invalidateManyByResult, o.inMode_rest]
  split
  · exact h.direct hsource hw
  rcases o.validate with e | u
  · exact h.refuse hw e
  rcases c.checkResultKind τ with e | u
  · exact h.refuse hw e
  obtain ⟨answer, v', w', hv', hw', hworlds⟩ := (hsource _ _ hw).exists_eq
  simp only [hv', hw']
  rw [hv'] at hworlds
  rcases answer with e | results
  · exact ⟨rfl, (h.closes []).done _ _ hworlds⟩
  simp only
  cases hrows : (results.filterMap id).mapM (c.keys.keyForResult o.keyspace) with
  | error e => exact ⟨rfl, (h.closes _).done _ _ hworlds⟩
  | ok keys =>
      refine ⟨rfl, (h.closes _).done _ _ (lockstep_deleteAll (hafter _) hworlds keys.eraseDups
        fun key hkey => .inr (mem_of_mapM_ok hrows ?_)).states⟩
      simpa using hkey

end

end Cache

/-! ## Requests -/

namespace Request

variable {σ υ ε ρ : Type} {κ τ : Kind} {c : Cache σ} {K : Key → Prop}
  {R S : World σ υ → World σ υ → Prop} {T : List τ → World σ υ → World σ υ → Prop}
  {m m' : WriteBack} {v w : World σ υ}

/-- The same request with another time to write back. -/
def inMode (mode : WriteBack) : Request σ υ ε ρ κ τ → Request σ υ ε ρ κ τ
  | .read o x compute => .read (o.inMode mode) x compute
  | .readMany o xs source => .readMany (o.inMode mode) xs source
  | .write o x compute => .write (o.inMode mode) x compute
  | .writeMany o xs compute => .writeMany (o.inMode mode) xs compute
  | .writeByResult o compute => .writeByResult (o.inMode mode) compute
  | .writeManyByResult o compute => .writeManyByResult (o.inMode mode) compute
  | .invalidate o x => .invalidate (o.inMode mode) x
  | .invalidateMany o xs => .invalidateMany (o.inMode mode) xs
  | .invalidateAround o x timing compute => .invalidateAround (o.inMode mode) x timing compute
  | .invalidateManyAround o xs timing compute =>
    .invalidateManyAround (o.inMode mode) xs timing compute
  | .invalidateByResult o compute => .invalidateByResult (o.inMode mode) compute
  | .invalidateManyByResult o compute => .invalidateManyByResult (o.inMode mode) compute

theorem inMode_self (r : Request σ υ ε ρ κ τ) : r.inMode r.options.writeBack = r := by
  cases r <;> rfl

/-- Whether a request looks into the cache first. -/
def isLookup : Request σ υ ε ρ κ τ → Bool
  | .read .. | .readMany .. => true
  | _ => false

/-- Whether a request deletes keys. -/
def isInvalidation : Request σ υ ε ρ κ τ → Bool
  | .invalidate .. | .invalidateMany .. | .invalidateAround .. | .invalidateManyAround ..
  | .invalidateByResult .. | .invalidateManyByResult .. => true
  | _ => false

/-- The data source of a request relates worlds that are related before it is asked by its answer. -/
def Relates (R : World σ υ → World σ υ → Prop) (T : List τ → World σ υ → World σ υ → Prop) :
    Request σ υ ε ρ κ τ → Prop
  | .read _ _ compute | .write _ _ compute | .writeByResult _ compute
  | .invalidateByResult _ compute => compute.Relates R T Option.toList
  | .readMany _ _ source => ∀ asked, (source asked).Relates R T (·.filterMap id)
  | .writeMany _ _ compute | .writeManyByResult _ compute
  | .invalidateManyByResult _ compute => compute.Relates R T (·.filterMap id)
  | .invalidateAround _ _ _ compute | .invalidateManyAround _ _ _ compute =>
    compute.Relates R T fun _ => []
  | .invalidate .. | .invalidateMany .. => True

/-- Two runs of a request go in step if each of their steps does. -/
theorem run_lockstep (r : Request σ υ ε ρ κ τ) (h : c.InStep r.options K R S T m m')
    (hopens : r.isLookup = true → c.Opens r.options K R)
    (hdeletes : r.isInvalidation = true → c.Deletes K R ∧
      ∀ us, c.Deletes (c.keyAmong r.options.keyspace K us) (T us))
    (hkeys : ∀ x ∈ r.objects, ∀ key, c.keys.keyFor r.options.keyspace x = .ok key → K key)
    (hsource : r.Relates R T) (hw : R v w) :
    Lockstep S ((r.inMode m).run c v) ((r.inMode m').run c w) := by
  cases r with
  | read o x compute =>
      exact (h.read (hopens rfl) hsource hw (hkeys x List.mem_cons_self)).wrap
  | readMany o xs source => exact (h.readMany (hopens rfl) hsource hw hkeys).wrap
  | write o x compute => exact (h.write hsource hw (hkeys x List.mem_cons_self)).wrap
  | writeMany o xs compute => exact (h.writeMany hsource hw hkeys).wrap
  | writeByResult o compute => exact (h.writeByResult hsource hw).wrap
  | writeManyByResult o compute => exact (h.writeManyByResult hsource hw).wrap
  | invalidate o x =>
      exact (h.invalidate (hdeletes rfl).1 hw (hkeys x List.mem_cons_self)).wrapRefusal
  | invalidateMany o xs => exact (h.invalidateMany (hdeletes rfl).1 hw hkeys).wrapRefusal
  | invalidateAround o x timing compute =>
      exact (h.invalidateAround (hdeletes rfl).1 (hdeletes rfl).2 hsource hw
        (hkeys x List.mem_cons_self) timing).wrap
  | invalidateManyAround o xs timing compute =>
      exact (h.invalidateManyAround (hdeletes rfl).1 (hdeletes rfl).2 hsource hw hkeys timing).wrap
  | invalidateByResult o compute =>
      exact (h.invalidateByResult (hdeletes rfl).2 hsource hw).wrap
  | invalidateManyByResult o compute =>
      exact (h.invalidateManyByResult (hdeletes rfl).2 hsource hw).wrap

/-- What the steps of a request keep of one world, the request keeps. -/
theorem run_of_twice (r : Request σ υ ε ρ κ τ) {I F : World σ υ → Prop}
    {J : List τ → World σ υ → Prop}
    (h : c.InStep r.options K (Cache.Twice I) (Cache.Twice F) (fun us => Cache.Twice (J us))
      r.options.writeBack r.options.writeBack)
    (hopens : r.isLookup = true → c.Opens r.options K (Cache.Twice I))
    (hdeletes : r.isInvalidation = true → c.Deletes K (Cache.Twice I) ∧
      ∀ us, c.Deletes (c.keyAmong r.options.keyspace K us) (Cache.Twice (J us)))
    (hkeys : ∀ x ∈ r.objects, ∀ key, c.keys.keyFor r.options.keyspace x = .ok key → K key)
    (hsource : r.Relates (Cache.Twice I) fun us => Cache.Twice (J us)) (hw : I w) :
    F (r.run c w).2 := by
  have hrun := r.run_lockstep h hopens hdeletes hkeys hsource ⟨rfl, hw⟩
  rw [inMode_self] at hrun
  exact hrun.states.2

end Request

end CacheAside

import CacheAside.Proofs.Confined
import CacheAside.Proofs.Matching

/-!
# Keyspaces are apart

A request stays among the keys of its objects and, once its data source has answered, of the values
in the answer. It asks the store for nothing else and changes nothing else, now or by the jobs that
it leaves behind, and what is under other keys makes no difference to it. All its keys are in one
keyspace, and no key is in two.
-/

namespace CacheAside

/-- From one world to another everything has been on given keys: what has been attempted on the store,
what has changed in it, and the writes that have been left behind. -/
structure World.Confined {σ υ β : Type} (kept : σ → Key → β) (K : Key → Prop)
    (w w' : World (Observed σ) υ) : Prop where
  scene : w.scene.Confined kept K w'.scene
  pending : ∃ jobs, w'.pending = w.pending ++ jobs ∧ ∀ job ∈ jobs, ∀ p ∈ job.writes, K p.key

namespace World.Confined

variable {σ υ β : Type} {kept : σ → Key → β} {K K' : Key → Prop} {u v w : World (Observed σ) υ}

theorem refl (w : World (Observed σ) υ) : w.Confined kept K w :=
  ⟨.refl w.scene, [], by simp, by simp⟩

theorem trans (h : u.Confined kept K v) (h' : v.Confined kept K w) : u.Confined kept K w := by
  obtain ⟨jobs, hjobs, hkeys⟩ := h.pending
  obtain ⟨jobs', hjobs', hkeys'⟩ := h'.pending
  refine ⟨h.scene.trans h'.scene, jobs ++ jobs', by rw [hjobs', hjobs, List.append_assoc],
    fun job hjob => ?_⟩
  rcases List.mem_append.mp hjob with hjob | hjob
  · exact hkeys job hjob
  · exact hkeys' job hjob

theorem log (h : v.Confined kept K w) (e : Event) : v.Confined kept K (w.log e) :=
  ⟨⟨h.scene.attempts, h.scene.entries⟩, h.pending⟩

theorem count (h : v.Confined kept K w) (change : Stats → Stats) :
    v.Confined kept K (w.count change) := ⟨h.scene, h.pending⟩

end World.Confined

namespace Cache

variable {σ υ β : Type} {κ τ : Kind} {c : Cache (Observed σ)} {o : Options} {store : Store σ}
  {kept : σ → Key → β} {K : Key → Prop} {w w' : World (Observed σ) υ} {calls : List StoreCall}

/-! ## Steps -/

theorem confined_of_reaches (h : store.observed.Reaches calls w w') (hsep : store.Separates kept)
    (hcalls : ∀ call ∈ calls, ∀ key ∈ call.keys, K key) : w.Confined kept K w' := by
  obtain ⟨tally, h⟩ := h
  exact ⟨h.scene.confined hsep hcalls, [], by simp [h.pending], by simp⟩

theorem confined_lookup (hstore : c.store = store.observed) (hsep : store.Separates kept)
    {key : Key} (hkey : K key) : w.Confined kept K (c.lookup o τ key w).2 := by
  have hreaches := reaches_lookup (c := c) (o := o) (τ := τ) (w := w) key
  rw [hstore] at hreaches
  refine confined_of_reaches hreaches hsep fun call hcall => ?_
  unfold getCalls at hcall
  split at hcall
  · cases hcall
  · rw [List.mem_singleton.mp hcall]
    exact List.forall_mem_singleton.mpr hkey

theorem confined_fetch (hstore : c.store = store.observed) (hsep : store.Separates kept)
    {b : Batch κ τ} (hkeys : ∀ key ∈ b.distinctKeys, K key) :
    w.Confined kept K (c.fetch o b w).2 := by
  have hreaches := reaches_fetch (c := c) (o := o) (w := w) b
  rw [hstore] at hreaches
  refine confined_of_reaches hreaches hsep fun call hcall => ?_
  unfold bulkCalls at hcall
  split at hcall
  · cases hcall
  · rw [List.mem_singleton.mp hcall]
    exact hkeys

theorem confined_deleteOne (hstore : c.store = store.observed) (hsep : store.Separates kept)
    {key : Key} (hkey : K key) : w.Confined kept K (c.deleteOne key w).2 := by
  have hreaches := reaches_deleteOne (c := c) (w := w) key
  rw [hstore] at hreaches
  exact confined_of_reaches hreaches hsep
    (List.forall_mem_singleton.mpr (List.forall_mem_singleton.mpr hkey))

theorem confined_encode (hsep : store.Separates kept) (key : Key) (a : Option τ) :
    w.Confined kept K (c.encode key a w).2 := by
  have hnoted : store.observed.Noted w (c.encode key a w).2 := noted_encode key a
  obtain ⟨n, hleads⟩ := hnoted
  exact confined_of_reaches hleads.reaches hsep (by simp)

/-- A job stays among the keys of its writes. -/
theorem confined_runJob (hsep : store.Separates kept) {job : Job}
    (hkeys : ∀ p ∈ job.writes, K p.key) (w : World (Observed σ) υ) :
    w.Confined kept K (runJob store.observed w job) := by
  refine ⟨(trace_runJob job).confined hsep fun call hcall => ?_, [], by simp [pending_runJob],
    by simp⟩
  obtain ⟨p, hp, rfl⟩ := List.mem_map.mp hcall
  have hkey : K p.key := hkeys p hp
  unfold writeCall
  cases p.mode <;> simpa [StoreCall.keys] using hkey

theorem confined_writeBack (hstore : c.store = store.observed) (hsep : store.Separates kept)
    {writes : List PendingWrite} (hkeys : ∀ p ∈ writes, K p.key) :
    w.Confined kept K (c.writeBack o writes w) := by
  unfold writeBack
  split
  · exact .refl w
  rw [hstore]
  cases o.writeBack with
  | inline => exact confined_runJob hsep hkeys w
  | detached =>
      simp only
      split
      · exact ⟨.refl w.scene, [⟨writes, c.ttl o⟩], rfl, by simpa using hkeys⟩
      · exact ((World.Confined.refl w).log .noExecutor).trans (confined_runJob hsep hkeys _)

end Cache

/-! ## Requests -/

namespace Request

variable {σ υ ε ρ α β : Type} {κ τ : Kind}

/-- The keys of the objects of a request and of some values. -/
def HasKey (c : Cache σ) (r : Request σ υ ε ρ κ τ) (us : List τ) (key : Key) : Prop :=
  c.keyAmong r.options.keyspace
    (fun key => ∃ x ∈ r.objects, c.keys.keyFor r.options.keyspace x = .ok key) us key

theorem HasKey.keyspace {c : Cache σ} {r : Request σ υ ε ρ κ τ} {us : List τ} {key : Key}
    (h : r.HasKey c us key) : key.keyspace = r.options.keyspace := by
  rcases h with ⟨x, -, hkey⟩ | ⟨u, -, hkey⟩
  · exact KeyBuilder.keyspace_keyFor hkey
  · exact KeyBuilder.keyspace_keyForResult hkey

theorem HasKey.byteSize {c : Cache σ} {r : Request σ υ ε ρ κ τ} {us : List τ} {key : Key}
    (h : r.HasKey c us key) : key.byteSize ≤ c.config.maxKeyLength.toNat := by
  rcases h with ⟨x, -, hkey⟩ | ⟨u, -, hkey⟩
  · exact KeyBuilder.byteSize_keyFor hkey
  · exact KeyBuilder.byteSize_keyForResult hkey

/-- From one world to another via the answer of a data source: what comes before it is asked, and
what comes behind an answer with some values. -/
def Via (r : Request σ υ ε ρ κ τ) (before : World σ υ → Prop)
    (behind : List τ → World σ υ → World σ υ → Prop) (us : List τ) (w : World σ υ) : Prop :=
  ∃ asked source answer w₁ w₂, r.source? asked = some source ∧ before w₁ ∧
    source w₁ = (answer, w₂) ∧ us = valuesIn Reply.present answer ∧ behind us w₂ w

section
variable {before : World σ υ → Prop} {behind : List τ → World σ υ → World σ υ → Prop}

theorem relates_via {r : Request σ υ ε ρ κ τ} (asked : List κ) {compute : Computation σ υ ε α}
    {form : α → Reply ρ τ} {values : α → List τ}
    (hsource : r.source? asked = some (compute.inForm form))
    (hform : ∀ a, (form a).present = values a) (hbehind : ∀ us w, behind us w w) :
    compute.Relates (Cache.Twice before) (fun us => Cache.Twice (r.Via before behind us))
      values := by
  rintro v w ⟨rfl, hbefore⟩
  refine ⟨rfl, rfl, asked, _, _, v, _, hsource, hbefore, rfl, ?_, hbehind _ _⟩
  cases (compute v).1 with
  | ok a => exact (hform a).symm
  | error e => rfl

/-- What comes of the data source of a request comes via its answer. -/
theorem relates_source (r : Request σ υ ε ρ κ τ) (hbehind : ∀ us w, behind us w w) :
    r.Relates (Cache.Twice before) fun us => Cache.Twice (r.Via before behind us) := by
  cases r with
  | readMany o xs source => exact fun asked => relates_via asked rfl (fun _ => rfl) hbehind
  | invalidate | invalidateMany => trivial
  | read | write | writeMany | writeByResult | writeManyByResult | invalidateAround
  | invalidateManyAround | invalidateByResult | invalidateManyByResult =>
      exact relates_via [] rfl (fun _ => rfl) hbehind

end

variable {store : Store σ} {kept : σ → Key → β} {c : Cache (Observed σ)}

/-- A request stays among the keys of its objects up to the answer of its data source, and from there
on among these and the keys of the values in the answer. -/
theorem run_confined (hstore : c.store = store.observed) (hsep : store.Separates kept)
    (r : Request (Observed σ) υ ε ρ κ τ) (w : World (Observed σ) υ) :
    w.Confined kept (r.HasKey c []) (r.run c w).2 ∨
      ∃ us, r.Via (w.Confined kept (r.HasKey c []))
        (fun us => World.Confined kept (r.HasKey c us)) us (r.run c w).2 := by
  let K (key : Key) : Prop := ∃ x ∈ r.objects, c.keys.keyFor r.options.keyspace x = .ok key
  let before := w.Confined kept (r.HasKey c [])
  let behind (us : List τ) := World.Confined (υ := υ) kept (r.HasKey c us)
  have hK : ∀ key, K key → r.HasKey c [] key := fun _ h => .inl h
  have hstep : ∀ us {v v' : World (Observed σ) υ}, r.Via before behind us v →
      v.Confined kept (r.HasKey c us) v' → r.Via before behind us v' := by
    rintro us v v' ⟨asked, source, answer, w₁, w₂, hsource, hbefore, hanswer, hus, hbehind⟩ h
    exact ⟨asked, source, answer, w₁, w₂, hsource, hbefore, hanswer, hus, hbehind.trans h⟩
  have hopens : c.Opens r.options K (Cache.Twice before) := Cache.opens_twice
    (fun τ key v hkey h => h.trans (Cache.confined_lookup hstore hsep (hK key hkey)))
    (fun b v hkeys h => h.trans (Cache.confined_fetch hstore hsep fun j hj => hK j (hkeys j hj)))
    (fun n v h => h.count _) fun n v h => h.count _
  have hdeletes : c.Deletes K (Cache.Twice before) := Cache.deletes_twice fun key v hkey h =>
    h.trans (Cache.confined_deleteOne hstore hsep (hK key hkey))
  have hafter : ∀ us, c.Deletes (r.HasKey c us) (Cache.Twice (r.Via before behind us)) := fun us =>
    Cache.deletes_twice fun key v hkey h =>
      hstep us h (Cache.confined_deleteOne hstore hsep hkey)
  have hcloses : ∀ us, c.Closes (r.HasKey c us) (Cache.Twice (r.Via before behind us))
      (Cache.Twice fun v => before v ∨ ∃ us, r.Via before behind us v)
      r.options.writeBack r.options.writeBack := fun us => Cache.closes_twice
    (fun key a v h => hstep us h (Cache.confined_encode hsep key a))
    (fun e v _ h => hstep us h ((World.Confined.refl v).log e))
    (fun o writes v hwrites h => .inr ⟨us, hstep us h (Cache.confined_writeBack hstore hsep hwrites)⟩)
    fun v h => .inr ⟨us, h⟩
  exact r.run_of_twice ⟨hcloses, fun v _ h => ⟨h.1, .inl h.2⟩⟩ (fun _ => hopens)
    (fun _ => ⟨hdeletes, hafter⟩) (fun x hx key hkey => ⟨x, hx, hkey⟩)
    (r.relates_source fun us v => .refl v) (.refl w)

end Request

/-! ## Isolation -/

/-- Keys of different keyspaces are different, whatever their identities. -/
theorem Key.ne_of_build {ns ns' : String} {ids ids' : List String} {key key' : Key}
    (h : build ns ids = .ok key) (h' : build ns' ids' = .ok key') (hne : ns ≠ ns') : key ≠ key' := by
  rintro rfl
  exact hne ((keyspace_build h).symm.trans (keyspace_build h'))

open Rig (Base Layers)

namespace Request

variable {υ ε ρ : Type} {κ τ : Kind}

/-- Contents that are the same on some keys, and with room for the same changes of them. -/
abbrev Same (K : Key → Prop) : Observed (Troubled Base) → Observed (Troubled Base) → Prop :=
  Store.ObservedMatch (Store.TroubledMatch (Base.Matches K))

/-- A request stays in its keyspace. Whatever it attempts on the store, changes there or leaves behind
is on the keys of its objects and of the values that its data source has answered, and so is what
becomes of the jobs it leaves behind. These keys are in the keyspace of its options and not too
long. In worlds that are the same on some keys, these among them, it is answered the same, asks its
source the same, counts the same and leaves worlds that are the same on these keys. And keys that are
built for two keyspaces are never the same. -/
theorem run_isolated (layers : Layers) (trouble : Trouble) (c : Cache (Observed (Troubled Base)))
    (hstore : c.store = (layers.outer.troubled trouble).observed)
    (r : Request (Observed (Troubled Base)) υ ε ρ κ τ) (w : World (Observed (Troubled Base)) υ) :
    let kept (t : Troubled Base) (key : Key) := t.contents.kept key
    (w.Confined kept (r.HasKey c []) (r.run c w).2 ∨
      ∃ us, r.Via (w.Confined kept (r.HasKey c []))
        (fun us => World.Confined kept (r.HasKey c us)) us (r.run c w).2) ∧
    (∀ job (v : World (Observed (Troubled Base)) υ),
      v.Confined kept (· ∈ job.writes.map (·.key)) (Cache.runJob c.store v job)) ∧
    (∀ us key, r.HasKey c us key →
      key.keyspace = r.options.keyspace ∧ key.byteSize ≤ c.config.maxKeyLength.toNat) ∧
    (∀ (K : Key → Prop) (v : World (Observed (Troubled Base)) υ),
      (∀ x ∈ r.objects, ∀ key, c.keys.keyFor r.options.keyspace x = .ok key → K key) →
      r.Even (Same K) (· = ·) (· = ·) (ValuesAmong c K r.options.keyspace) →
      v.Matches (Same K) (· = ·) (· = ·) w →
      (r.run c v).1 = (r.run c w).1 ∧ r.questions c v = r.questions c w ∧
        (r.run c v).2.Matches (Same K) (· = ·) (· = ·) (r.run c w).2) ∧
    ∀ ns ns' ids ids' key key', Key.build ns ids = .ok key → Key.build ns' ids' = .ok key' →
      ns ≠ ns' → key ≠ key' := by
  have hsep := layers.separates_outer.troubled trouble
  refine ⟨r.run_confined hstore hsep w, fun job v => ?_, fun us key h => ⟨h.keyspace, h.byteSize⟩,
    fun K v hobjects hsource hmatches => ?_, fun _ _ _ _ _ _ => Key.ne_of_build⟩
  · rw [hstore]
    exact Cache.confined_runJob hsep (fun p hp => List.mem_map_of_mem hp) v
  · have huniform : c.store.Uniform K (Same K) (· = ·) := by
      rw [hstore]
      exact ((layers.uniform_outer growTogether_eq).troubled trouble).observed
    have hcloses : ∀ {υ : Type}, c.Closes K (World.Matches (υ := υ) (Same K) (· = ·) (· = ·))
        (World.Matches (Same K) (· = ·) (· = ·)) r.options.writeBack r.options.writeBack :=
      Cache.closes_of_uniform huniform growTogether_eq
    have hrun := run_even huniform growTogether_eq hcloses hobjects hsource hmatches
    have hasked := questions_even huniform growTogether_eq hcloses hobjects hsource hmatches
    rw [inMode_self] at hrun hasked
    exact ⟨hrun.answer, hasked, hrun.states⟩

theorem run_isolated_of_separators :
    let c : Cache (Observed (Troubled Base)) :=
      { store := (({} : Layers).outer.troubled ⟨fun _ => none, fun _ => [(⟨"m:1"⟩, [5])]⟩).observed }
    let world (m : MemoryStore) : World (Observed (Troubled Base)) Unit :=
      { scene := { contents := ⟨⟨.memory m, 0⟩, []⟩, now := 0 }, outside := () }
    let v := world .empty
    let w := world ⟨Table.empty.insert ⟨"m:1"⟩ ⟨[1], none⟩⟩
    let r : Request (Observed (Troubled Base)) Unit Unit Unit .string .word32 :=
      .readMany { keyspace := "n" } ["m:1", "a/b"] fun asked w =>
        (.ok (asked.map fun _ => some (7 : UInt32)), w)
    (∀ key, r.HasKey c [] key → key.keyspace = "n") ∧ (r.run c v).1 = (r.run c w).1 := by
  intro c world v w r
  obtain ⟨-, -, hkeys, hsame, -⟩ := run_isolated {} _ c rfl r w
  have hne : ∀ key : Key, key.keyspace = "n" → key ≠ ⟨"m:1"⟩ := by
    rintro key hkey rfl
    exact absurd hkey (by decide +kernel)
  refine ⟨fun key h => (hkeys [] key h).1, (hsame (· ≠ ⟨"m:1"⟩) v (fun x _ key hkey => ?_)
    (fun asked v w h => ⟨rfl, h, fun u _ key hkey => ?_⟩) ⟨⟨⟨⟨fun key hkey => ?_, rfl⟩, rfl⟩, rfl,
      rfl, rfl⟩, rfl, rfl, rfl, rfl⟩).1⟩
  · exact hne key (KeyBuilder.keyspace_keyFor hkey)
  · exact hne key (KeyBuilder.keyspace_keyForResult hkey)
  · rw [Table.find?_insert, if_neg (Ne.symm hkey)]
    rfl

end Request

end CacheAside

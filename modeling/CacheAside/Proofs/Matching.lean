import CacheAside.Proofs.Calm
import CacheAside.Proofs.Uniform

/-!
# Worlds that match

Requests in two worlds whose scenes match. If the store cannot tell them apart on the keys of a
request and its data source cannot either, the request is answered the same, asks the same and leaves
worlds that match again.
-/

namespace CacheAside

/-- Two worlds whose scenes match and which are otherwise the same, but for what runs jobs later. -/
structure World.Matches {σ υ : Type} (C : σ → σ → Prop) (L : List Event → List Event → Prop)
    (E : Bool → Bool → Prop) (v w : World σ υ) : Prop where
  scene : v.scene.Matches C L w.scene
  stats : v.stats = w.stats
  pending : v.pending = w.pending
  executor : E v.executor w.executor
  outside : v.outside = w.outside

section
variable {σ υ α : Type} {C : σ → σ → Prop} {L : List Event → List Event → Prop}
  {E : Bool → Bool → Prop} {v w : World σ υ}

namespace World.Matches

theorem log (h : v.Matches C L E w) (hL : GrowTogether L) (e : Event) :
    (v.log e).Matches C L E (w.log e) :=
  ⟨h.scene.log hL e, h.stats, h.pending, h.executor, h.outside⟩

theorem count (h : v.Matches C L E w) (change : Stats → Stats) :
    (v.count change).Matches C L E (w.count change) :=
  ⟨h.scene, congrArg change h.stats, h.pending, h.executor, h.outside⟩

theorem onScenes (h : v.Matches C L E w) {s t : Scene σ} (hst : s.Matches C L t) :
    World.Matches C L E { v with scene := s } { w with scene := t } :=
  ⟨hst, h.stats, h.pending, h.executor, h.outside⟩

theorem call (h : v.Matches C L E w) {call : Call σ α} (hcall : Store.Even C L call) :
    Lockstep (World.Matches C L E) (v.call call) (w.call call) :=
  have hscenes := hcall _ _ h.scene
  ⟨hscenes.answer, h.onScenes hscenes.states⟩

end World.Matches

namespace Cache

variable {κ τ : Kind} {c : Cache σ} {o : Options} {K : Key → Prop} {m : WriteBack}

/-! ## Steps -/

theorem encode_matches (hL : GrowTogether L) (h : v.Matches C L E w) (key : Key) (a : Option τ) :
    Lockstep (World.Matches C L E) (c.encode key a v) (c.encode key a w) := by
  unfold encode
  cases c.codec.encodeOption a with
  | ok bytes => exact ⟨rfl, h⟩
  | error e => exact ⟨rfl, (h.log hL _).count _⟩

theorem decode_matches (hL : GrowTogether L) (h : v.Matches C L E w) (key : Key) (bytes : Bytes) :
    Lockstep (World.Matches C L E) (c.decode τ key bytes v) (c.decode τ key bytes w) := by
  unfold decode
  cases c.codec.decode τ bytes with
  | ok entry => exact ⟨rfl, h⟩
  | error e => exact ⟨rfl, h.log hL _⟩

theorem absorb_matches (hL : GrowTogether L) (found : List (Key × Bytes)) (b : Batch κ τ)
    (h : v.Matches C L E w) :
    Lockstep (World.Matches C L E) (c.absorb found b v) (c.absorb found b w) := by
  induction found generalizing b v w with
  | nil => exact ⟨rfl, h⟩
  | cons e found ih =>
      obtain ⟨entry, v', w', hv', hw', hmatches⟩ :=
        (decode_matches (c := c) (τ := τ) hL h e.1 e.2).exists_eq
      simp only [absorb, hv', hw']
      split
      · cases entry with
        | some entry => exact ih _ hmatches
        | none => exact ih _ hmatches
      · exact ih b h

theorem opens_of_uniform (hstore : c.store.Uniform K C L) (hL : GrowTogether L) :
    c.Opens o K (World.Matches C L E : World σ υ → World σ υ → Prop) where
  lookup τ key v w hkey h := by
    unfold Cache.lookup
    split
    · exact ⟨rfl, h⟩
    obtain ⟨answer, v', w', hv', hw', hmatches⟩ := (h.call (hstore.get key hkey)).exists_eq
    simp only [hv', hw']
    match answer with
    | .ok none => exact ⟨rfl, hmatches⟩
    | .error e => exact ⟨rfl, (hmatches.log hL _).count _⟩
    | .ok (some bytes) =>
        obtain ⟨entry, v'', w'', hv'', hw'', hmatches⟩ :=
          (decode_matches (c := c) (τ := τ) hL hmatches key bytes).exists_eq
        simp only [hv'', hw'']
        cases entry with
        | some entry => exact ⟨rfl, (hmatches.log hL _).count _⟩
        | none => exact ⟨rfl, hmatches⟩
  fetch b v w hkeys h := by
    unfold Cache.fetch
    split
    · exact ⟨rfl, h.log hL _⟩
    obtain ⟨answer, v', w', hv', hw', hmatches⟩ :=
      (h.call (hstore.getMany b.distinctKeys hkeys)).exists_eq
    simp only [hv', hw']
    cases answer with
    | ok found => exact absorb_matches hL _ _ hmatches
    | error e => exact ⟨rfl, (hmatches.log hL _).count _⟩
  hits _ _ _ h := h.count _
  misses _ _ _ h := h.count _

theorem deletes_of_uniform (hstore : c.store.Uniform K C L) (hL : GrowTogether L) :
    c.Deletes K (World.Matches C L E : World σ υ → World σ υ → Prop) := by
  intro key v w hkey h
  obtain ⟨answer, v', w', hv', hw', hmatches⟩ := (h.call (hstore.delete key hkey)).exists_eq
  simp only [deleteOne, hv', hw']
  match answer with
  | .ok true => exact ⟨rfl, hmatches.count _⟩
  | .ok false => exact ⟨rfl, hmatches⟩
  | .error e => exact ⟨rfl, (hmatches.log hL _).count _⟩

theorem applyWrite_matches {store : Store σ} (hstore : store.Uniform K C L) (hL : GrowTogether L)
    (ttl : UInt32) {p : PendingWrite} (hkey : K p.key) (h : v.Matches C L E w) :
    (applyWrite store ttl v p).Matches C L E (applyWrite store ttl w p) := by
  obtain ⟨key, bytes, mode⟩ := p
  cases mode with
  | overwrite =>
      obtain ⟨answer, s, t, hs, ht, hmatches⟩ :=
        (hstore.set key ttl bytes hkey _ _ h.scene).exists_eq
      simp only [applyWrite, Store.setSilently, hs, ht]
      cases answer with
      | ok u => exact (h.onScenes hmatches).count _
      | error e => exact (h.onScenes (hmatches.log hL _)).count _
  | ifAbsent =>
      obtain ⟨answer, v', w', hv', hw', hmatches⟩ :=
        (h.call (hstore.add key ttl bytes hkey)).exists_eq
      simp only [applyWrite, hv', hw']
      cases answer with
      | ok added => exact hmatches.count _
      | error e => exact (hmatches.log hL _).count _

theorem runJob_matches {store : Store σ} (hstore : store.Uniform K C L) (hL : GrowTogether L)
    {job : Job} (hkeys : ∀ p ∈ job.writes, K p.key) (h : v.Matches C L E w) :
    (runJob store v job).Matches C L E (runJob store w job) := by
  obtain ⟨writes, ttl⟩ := job
  simp only [runJob]
  induction writes generalizing v w with
  | nil => exact h
  | cons p writes ih =>
      exact ih (applyWrite_matches hstore hL ttl (hkeys p List.mem_cons_self) h)
        fun q hq => hkeys q (List.mem_cons_of_mem _ hq)

theorem writeBack_matches (hstore : c.store.Uniform K C L) (hL : GrowTogether L)
    {writes : List PendingWrite} (hkeys : ∀ p ∈ writes, K p.key)
    (h : v.Matches C L (· = ·) w) :
    (c.writeBack o writes v).Matches C L (· = ·) (c.writeBack o writes w) := by
  unfold writeBack
  split
  · exact h
  cases o.writeBack with
  | inline => exact runJob_matches hstore hL hkeys h
  | detached =>
      simp only [h.executor]
      split
      · exact ⟨h.scene, h.stats, by rw [h.pending], rfl, h.outside⟩
      · exact runJob_matches hstore hL hkeys (h.log hL _)

theorem closes_of_uniform (hstore : c.store.Uniform K C L) (hL : GrowTogether L) :
    c.Closes K (World.Matches C L (· = ·) : World σ υ → World σ υ → Prop)
      (World.Matches C L (· = ·)) m m where
  encode key a _ _ h := encode_matches hL h key a
  note e _ _ _ h := h.log hL e
  write _ _ _ _ hkeys h := writeBack_matches hstore hL hkeys h
  done _ _ h := h

end Cache

end

/-! ## Requests -/

section
variable {σ υ ε ρ α : Type} {κ τ : Kind} {C : σ → σ → Prop} {L : List Event → List Event → Prop}
  {E : Bool → Bool → Prop} {A : List τ → Prop}

/-- A data source that cannot tell matching worlds apart, and whose values are as stated. -/
def Computation.Even (C : σ → σ → Prop) (L : List Event → List Event → Prop)
    (E : Bool → Bool → Prop) (A : List τ → Prop) (values : α → List τ)
    (compute : Computation σ υ ε α) : Prop :=
  compute.Relates (World.Matches C L E) (fun us v w => v.Matches C L E w ∧ A us) values

theorem Computation.Even.noting {values : α → List τ} {compute : Computation σ υ ε α}
    (h : compute.Even C L E A values) (asked : List κ) :
    (compute.noting asked).Even C L E A values := by
  intro v w hvw
  have hinner : (v.withOutside v.outside.1).Matches C L E (w.withOutside w.outside.1) :=
    ⟨hvw.scene, hvw.stats, hvw.pending, hvw.executor, congrArg Prod.fst hvw.outside⟩
  obtain ⟨hanswer, hmatches, hvalues⟩ := h _ _ hinner
  simp only [Computation.noting, hanswer] at hvalues ⊢
  exact ⟨rfl, ⟨hmatches.scene, hmatches.stats, hmatches.pending, hmatches.executor,
    congrArg₂ (fun outside notes => (outside, notes ++ [asked])) hmatches.outside
      (congrArg Prod.snd hvw.outside)⟩, hvalues⟩

namespace Request

variable {c : Cache σ} {K : Key → Prop} {m m' : WriteBack} {v w : World σ υ}
  {r : Request σ υ ε ρ κ τ}

/-- The data source of a request cannot tell matching worlds apart, and its values are as stated. -/
def Even (C : σ → σ → Prop) (L : List Event → List Event → Prop) (E : Bool → Bool → Prop)
    (A : List τ → Prop) (r : Request σ υ ε ρ κ τ) : Prop :=
  r.Relates (World.Matches C L E) fun us v w => v.Matches C L E w ∧ A us

theorem Even.noting (h : r.Even C L E A) : r.noting.Even C L E A := by
  cases r with
  | readMany o xs source => exact fun asked => Computation.Even.noting (h asked) asked
  | invalidate | invalidateMany => trivial
  | read | write | writeMany | writeByResult | writeManyByResult | invalidateAround
  | invalidateManyAround | invalidateByResult | invalidateManyByResult =>
      exact Computation.Even.noting h []

theorem noting_inMode (r : Request σ υ ε ρ κ τ) (mode : WriteBack) :
    (r.inMode mode).noting = r.noting.inMode mode := by
  cases r <;> rfl

/-- All values have keys among given ones. -/
def ValuesAmong (c : Cache σ) (K : Key → Prop) (ns : String) (us : List τ) : Prop :=
  ∀ u ∈ us, ∀ key, c.keys.keyForResult ns u = .ok key → K key

/-- A request cannot tell worlds apart that match on its keys, however it writes back, as long as
that makes no difference. -/
theorem run_even (hstore : c.store.Uniform K C L) (hL : GrowTogether L)
    (hcloses : c.Closes K (World.Matches C L E : World σ υ → World σ υ → Prop)
      (World.Matches C L E) m m')
    (hobjects : ∀ x ∈ r.objects, ∀ key, c.keys.keyFor r.options.keyspace x = .ok key → K key)
    (hsource : r.Even C L E (ValuesAmong c K r.options.keyspace)) (h : v.Matches C L E w) :
    Lockstep (World.Matches C L E) ((r.inMode m).run c v) ((r.inMode m').run c w) := by
  have hamong : ∀ us : List τ, ValuesAmong c K r.options.keyspace us →
      ∀ key, c.keyAmong r.options.keyspace K us key → K key := by
    rintro us hus key (hkey | ⟨u, hu, hkey⟩)
    · exact hkey
    · exact hus u hu key hkey
  exact r.run_lockstep ⟨fun us => hcloses.given (hamong us), fun _ _ h => h⟩
    (fun _ => Cache.opens_of_uniform hstore hL)
    (fun _ => ⟨Cache.deletes_of_uniform hstore hL,
      fun us => (Cache.deletes_of_uniform hstore hL).given (hamong us)⟩) hobjects hsource h

theorem options_noting (r : Request σ υ ε ρ κ τ) : r.noting.options = r.options := by
  cases r <;> rfl

theorem objects_noting (r : Request σ υ ε ρ κ τ) : r.noting.objects = r.objects := by
  cases r <;> rfl

/-- And its data source is asked the same. -/
theorem questions_even (hstore : c.store.Uniform K C L) (hL : GrowTogether L)
    (hcloses : c.Closes K
      (World.Matches C L E : World σ (υ × List (List κ)) → World σ (υ × List (List κ)) → Prop)
      (World.Matches C L E) m m')
    (hobjects : ∀ x ∈ r.objects, ∀ key, c.keys.keyFor r.options.keyspace x = .ok key → K key)
    (hsource : r.Even C L E (ValuesAmong c K r.options.keyspace)) (h : v.Matches C L E w) :
    (r.inMode m).questions c v = (r.inMode m').questions c w := by
  have hnotes : (v.withOutside (v.outside, ([] : List (List κ)))).Matches C L E
      (w.withOutside (w.outside, [])) :=
    ⟨h.scene, h.stats, h.pending, h.executor, congrArg (·, []) h.outside⟩
  have hrun := run_even (r := r.noting) hstore hL hcloses
    (by rwa [objects_noting, options_noting])
    (by rw [options_noting]; exact hsource.noting) hnotes
  rw [questions, questions, noting_inMode, noting_inMode]
  exact congrArg Prod.snd hrun.states.outside

end Request

end

end CacheAside

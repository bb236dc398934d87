import CacheAside.Proofs.Requests
import CacheAside.Proofs.Reads
import CacheAside.Proofs.Rows

/-!
# Requests in lockstep

Two runs of one request, in worlds that are related. If every step keeps the relation and answers the
same in both worlds, so does the request. The relation may change when the data source answers and
at the end, and the runs may differ in when their writes are made. With two equal worlds this is how
an invariant is carried through a request.
-/

namespace CacheAside

variable {σ υ ε ρ α β : Type} {κ τ : Kind}

/-! ## Steps -/

/-- Two runs of a step that have given the same answer and are in related states. -/
structure Lockstep {ω : Type} (R : ω → ω → Prop) (p q : α × ω) : Prop where
  answer : p.1 = q.1
  states : R p.2 q.2

theorem Lockstep.exists_eq {ω : Type} {R : ω → ω → Prop} {p q : α × ω} (h : Lockstep R p q) :
    ∃ a v w, p = (a, v) ∧ q = (a, w) ∧ R v w := by
  obtain ⟨a, v⟩ := p
  obtain ⟨b, w⟩ := q
  obtain ⟨rfl, hstates⟩ := h
  exact ⟨a, v, w, rfl, rfl, hstates⟩

section
variable {R : World σ υ → World σ υ → Prop} {v w : World σ υ}

theorem Lockstep.wrap {form : α → β} {f g : Outcome σ υ ε α} (h : Lockstep R (f v) (g w)) :
    Lockstep R (Request.wrap form f v) (Request.wrap form g w) := by
  rw [Request.wrap_eq, Request.wrap_eq]
  exact ⟨congrArg (Except.map form) h.answer, h.states⟩

theorem Lockstep.wrapRefusal {form : α → β}
    {f g : World σ υ → Except CacheError α × World σ υ} (h : Lockstep R (f v) (g w)) :
    Lockstep R (Request.wrapRefusal form f v : Except (Failure ε) β × _)
      (Request.wrapRefusal form g w) := by
  obtain ⟨answer, v', w', hv, hw, hworlds⟩ := h.exists_eq
  simp only [Request.wrapRefusal, hv, hw]
  cases answer <;> exact ⟨rfl, hworlds⟩

end

/-! ## Data sources -/

/-- The values in an answer; none in a failure. -/
def valuesIn (values : α → List τ) : Except ε α → List τ
  | .ok a => values a
  | .error _ => []

/-- A data source that answers the same in two related worlds, and leaves worlds that are related by
what its values relate. -/
def Computation.Relates (R : World σ υ → World σ υ → Prop)
    (T : List τ → World σ υ → World σ υ → Prop) (values : α → List τ)
    (compute : Computation σ υ ε α) : Prop :=
  ∀ v w, R v w → Lockstep (T (valuesIn values (compute v).1)) (compute v) (compute w)

theorem Computation.Relates.direct {R S : World σ υ → World σ υ → Prop}
    {T : List τ → World σ υ → World σ υ → Prop} {values : α → List τ}
    {compute : Computation σ υ ε α} (h : compute.Relates R T values)
    (hdone : ∀ us v w, T us v w → S v w) {v w : World σ υ} (hw : R v w) :
    Lockstep S (compute.direct v) (compute.direct w) := by
  obtain ⟨answer, v', w', hv', hw', hworlds⟩ := (h v w hw).exists_eq
  simp only [Computation.direct, hv', hw']
  cases answer <;> exact ⟨rfl, hdone _ _ _ hworlds⟩

/-- The same options with another time to write back. -/
def Options.inMode (o : Options) (mode : WriteBack) : Options := { o with writeBack := mode }

/-- Another time to write back changes no other option. -/
theorem Options.inMode_rest (o : Options) (mode : WriteBack) :
    (o.inMode mode).validate = o.validate ∧ (o.inMode mode).keyspace = o.keyspace ∧
      (o.inMode mode).keysFromResults = o.keysFromResults ∧
      (o.inMode mode).skipNulls = o.skipNulls :=
  ⟨rfl, rfl, rfl, rfl⟩

namespace Cache

theorem lookup_inMode (c : Cache σ) (o : Options) (mode : WriteBack) (key : Key) (w : World σ υ) :
    c.lookup (o.inMode mode) τ key w = c.lookup o τ key w := rfl

theorem fetch_inMode (c : Cache σ) (o : Options) (mode : WriteBack) (b : Batch κ τ)
    (w : World σ υ) : c.fetch (o.inMode mode) b w = c.fetch o b w := rfl

variable {c : Cache σ} {o : Options} {K : Key → Prop} {R S : World σ υ → World σ υ → Prop}
  {T : List τ → World σ υ → World σ υ → Prop} {m m' : WriteBack} {v w : World σ υ}

/-! ## What the steps of a call keep -/

/-- The steps before a data source is asked: looking keys up and counting them. -/
structure Opens (c : Cache σ) (o : Options) (K : Key → Prop) (R : World σ υ → World σ υ → Prop) :
    Prop where
  lookup (τ : Kind) (key : Key) (v w : World σ υ) : K key → R v w →
    Lockstep R (c.lookup o τ key v) (c.lookup o τ key w)
  fetch {κ τ : Kind} (b : Batch κ τ) (v w : World σ υ) : (∀ key ∈ b.distinctKeys, K key) → R v w →
    Lockstep R (c.fetch o b v) (c.fetch o b w)
  hits (n : Nat) (v w : World σ υ) : R v w →
    R (v.count (Stats.addHits n)) (w.count (Stats.addHits n))
  misses (n : Nat) (v w : World σ υ) : R v w →
    R (v.count (Stats.addMisses n)) (w.count (Stats.addMisses n))

/-- The steps of a deletion. -/
def Deletes (c : Cache σ) (K : Key → Prop) (R : World σ υ → World σ υ → Prop) : Prop :=
  ∀ key v w, K key → R v w → Lockstep R (c.deleteOne key v) (c.deleteOne key w)

/-- The steps behind the answer of a data source, up to its writes. -/
structure Closes (c : Cache σ) (K : Key → Prop) (T S : World σ υ → World σ υ → Prop)
    (m m' : WriteBack) : Prop where
  encode {τ : Kind} (key : Key) (a : Option τ) (v w : World σ υ) : T v w →
    Lockstep T (c.encode key a v) (c.encode key a w)
  note (e : Event) (v w : World σ υ) : e.isWarning = false → T v w → T (v.log e) (w.log e)
  write (o : Options) (writes : List PendingWrite) (v w : World σ υ) :
    (∀ p ∈ writes, K p.key) → T v w →
    S (c.writeBack (o.inMode m) writes v) (c.writeBack (o.inMode m') writes w)
  done (v w : World σ υ) : T v w → S v w

/-! ## One world -/

/-- One world that is as stated, taken twice. -/
def Twice (I : World σ υ → Prop) (v w : World σ υ) : Prop := v = w ∧ I v

section
variable {I J : World σ υ → Prop}

theorem opens_twice (hlookup : ∀ (τ : Kind) key w, K key → I w → I (c.lookup o τ key w).2)
    (hfetch : ∀ {κ τ : Kind} (b : Batch κ τ) w, (∀ key ∈ b.distinctKeys, K key) → I w →
      I (c.fetch o b w).2)
    (hhits : ∀ n w, I w → I (w.count (Stats.addHits n)))
    (hmisses : ∀ n w, I w → I (w.count (Stats.addMisses n))) : c.Opens o K (Twice I) where
  lookup τ key v w hkey h := by
    obtain ⟨rfl, h⟩ := h
    exact ⟨rfl, rfl, hlookup τ key v hkey h⟩
  fetch b v w hkeys h := by
    obtain ⟨rfl, h⟩ := h
    exact ⟨rfl, rfl, hfetch b v hkeys h⟩
  hits n v w h := by
    obtain ⟨rfl, h⟩ := h
    exact ⟨rfl, hhits n v h⟩
  misses n v w h := by
    obtain ⟨rfl, h⟩ := h
    exact ⟨rfl, hmisses n v h⟩

theorem deletes_twice (hdelete : ∀ key w, K key → I w → I (c.deleteOne key w).2) :
    c.Deletes K (Twice I) := by
  rintro key v w hkey ⟨rfl, h⟩
  exact ⟨rfl, rfl, hdelete key v hkey h⟩

theorem closes_twice
    (hencode : ∀ {τ : Kind} key (a : Option τ) w, I w → I (c.encode key a w).2)
    (hnote : ∀ e w, e.isWarning = false → I w → I (w.log e))
    (hwrite : ∀ o writes w, (∀ p ∈ writes, K p.key) → I w → J (c.writeBack o writes w))
    (hdone : ∀ w, I w → J w) : c.Closes K (Twice I) (Twice J) m m where
  encode key a v w h := by
    obtain ⟨rfl, h⟩ := h
    exact ⟨rfl, rfl, hencode key a v h⟩
  note e v w he h := by
    obtain ⟨rfl, h⟩ := h
    exact ⟨rfl, hnote e v he h⟩
  write o writes v w hwrites h := by
    obtain ⟨rfl, h⟩ := h
    exact ⟨rfl, hwrite _ writes v hwrites h⟩
  done v w h := by
    obtain ⟨rfl, h⟩ := h
    exact ⟨rfl, hdone v h⟩

end

/-- The keys of a call: given ones and those of the values that it has been answered. -/
def keyAmong (c : Cache σ) (ns : String) (K : Key → Prop) (us : List τ) (key : Key) : Prop :=
  K key ∨ ∃ u ∈ us, c.keys.keyForResult ns u = .ok key

/-- What the steps keep on some keys they keep on fewer, and what does not change is kept as well. -/
theorem Closes.given {K' : Key → Prop} {T S : World σ υ → World σ υ → Prop} {A : Prop}
    (h : c.Closes K T S m m') (hkeys : A → ∀ key, K' key → K key) :
    c.Closes K' (fun v w => T v w ∧ A) S m m' where
  encode key a v w hw :=
    have hstep := h.encode key a v w hw.1
    ⟨hstep.answer, hstep.states, hw.2⟩
  note e v w he hw := ⟨h.note e v w he hw.1, hw.2⟩
  write o writes v w hwrites hw :=
    h.write o writes v w (fun p hp => hkeys hw.2 _ (hwrites p hp)) hw.1
  done v w hw := h.done v w hw.1

theorem Deletes.given {K' : Key → Prop} {T : World σ υ → World σ υ → Prop} {A : Prop}
    (h : c.Deletes K T) (hkeys : A → ∀ key, K' key → K key) :
    c.Deletes K' fun v w => T v w ∧ A := fun key v w hkey hw =>
  have hstep := h key v w (hkeys hw.2 key hkey) hw.1
  ⟨hstep.answer, hstep.states, hw.2⟩

theorem lockstep_deleteAll (hdeletes : c.Deletes K R) (hw : R v w) :
    ∀ keys : List Key, (∀ key ∈ keys, K key) →
    Lockstep R (c.deleteAll keys v) (c.deleteAll keys w) := by
  intro keys
  induction keys generalizing v w with
  | nil => exact fun _ => ⟨rfl, hw⟩
  | cons key keys ih =>
      intro hkeys
      obtain ⟨removed, v', w', hv', hw', hworlds⟩ :=
        (hdeletes key v w (hkeys key List.mem_cons_self) hw).exists_eq
      obtain ⟨count, v'', w'', hv'', hw'', hworlds⟩ :=
        (ih hworlds fun j hj => hkeys j (List.mem_cons_of_mem _ hj)).exists_eq
      simp only [deleteAll, hv', hw', hv'', hw'']
      exact ⟨rfl, hworlds⟩

section
variable {U : World σ υ → World σ υ → Prop}

/-! ## Behind the answer -/

theorem Closes.storeValue (hcloses : c.Closes K U S m m') (hw : U v w) {key : Key} (hkey : K key)
    (a : Option τ) (mode : WriteMode) :
    S (c.storeValue (o.inMode m) key a mode v) (c.storeValue (o.inMode m') key a mode w) := by
  obtain ⟨bytes, v', w', hv', hw', hworlds⟩ := (hcloses.encode key a v w hw).exists_eq
  simp only [Cache.storeValue, hv', hw']
  cases bytes with
  | none => exact hcloses.done _ _ hworlds
  | some bytes =>
      refine hcloses.write o _ _ _ (fun p hp => ?_) hworlds
      rw [List.mem_singleton.mp hp]
      exact hkey

theorem Closes.valueWrite (hcloses : c.Closes K U S m m') (hw : U v w) (b : Batch κ τ) (key : Key)
    (a : Option τ) : Lockstep U (c.valueWrite (o.inMode m) b key a v)
      (c.valueWrite (o.inMode m') b key a w) := by
  cases a with
  | some a =>
      obtain ⟨bytes, v', w', hv', hw', hworlds⟩ := (hcloses.encode key (some a) v w hw).exists_eq
      simp only [Cache.valueWrite, hv', hw']
      exact ⟨rfl, hworlds⟩
  | none =>
      obtain ⟨bytes, v', w', hv', hw', hworlds⟩ :=
        (hcloses.encode key (none : Option τ) v w hw).exists_eq
      simp only [Cache.valueWrite, nullWrite, Options.inMode, hv', hw']
      split
      · exact ⟨rfl, hworlds⟩
      · exact ⟨rfl, hw⟩

theorem Closes.valueWrites (hcloses : c.Closes K U S m m') (b : Batch κ τ)
    (pairs : List (Key × Option τ)) (hw : U v w) : Lockstep U
      (c.valueWrites (o.inMode m) b pairs v) (c.valueWrites (o.inMode m') b pairs w) := by
  induction pairs generalizing v w with
  | nil => exact ⟨rfl, hw⟩
  | cons p pairs ih =>
      obtain ⟨write, v', w', hv', hw', hworlds⟩ :=
        (hcloses.valueWrite (o := o) hw b p.1 p.2).exists_eq
      obtain ⟨writes, v'', w'', hv'', hw'', hworlds⟩ := (ih hworlds).exists_eq
      simp only [Cache.valueWrites, hv', hw', hv'', hw'']
      exact ⟨rfl, hworlds⟩

theorem Closes.firstWrites (hcloses : c.Closes K U S m m') (pairs : List (Key × Option τ))
    (seen : List Key) (hw : U v w) : Lockstep U (c.firstWrites (o.inMode m) pairs seen v)
      (c.firstWrites (o.inMode m') pairs seen w) := by
  induction pairs generalizing v w seen with
  | nil => exact ⟨rfl, hw⟩
  | cons p pairs ih =>
      obtain ⟨key, a⟩ := p
      have hmodes : (o.inMode m).addNulls = o.addNulls ∧ (o.inMode m').addNulls = o.addNulls :=
        ⟨rfl, rfl⟩
      simp only [Cache.firstWrites, hmodes]
      split
      · exact ih seen hw
      split
      · exact ih _ (hcloses.note (.nullSkipped key) _ _ rfl hw)
      obtain ⟨bytes, v', w', hv', hw', hworlds⟩ := (hcloses.encode key a v w hw).exists_eq
      obtain ⟨writes, v'', w'', hv'', hw'', hworlds⟩ := (ih (key :: seen) hworlds).exists_eq
      simp only [hv', hw', hv'', hw'']
      exact ⟨rfl, hworlds⟩

theorem Closes.collectRows (hcloses : c.Closes K U S m m') (note : Key → World σ υ → World σ υ)
    (hnote : ∀ key v w, U v w → U (note key v) (note key w)) (ns : String) (rows : List τ)
    (done : Rows τ) (hw : U v w) :
    Lockstep U (c.collectRows ns note rows done v) (c.collectRows ns note rows done w) := by
  induction rows generalizing v w done with
  | nil => exact ⟨rfl, hw⟩
  | cons row rows ih =>
      simp only [Cache.collectRows]
      cases c.keys.keyForResult ns row with
      | error e => exact ⟨rfl, hw⟩
      | ok key =>
          simp only
          split
          · exact ih done hw
          obtain ⟨bytes, v', w', hv', hw', hworlds⟩ :=
            (hcloses.encode key (some row) v w hw).exists_eq
          simp only [hv', hw']
          exact ih _ (hnote key _ _ hworlds)

theorem Closes.alignByPosition (hcloses : c.Closes K U S m m') (b : Batch κ τ)
    (results : List (Option τ)) (hw : U v w) :
    Lockstep U (c.alignByPosition (o.inMode m) b results v)
      (c.alignByPosition (o.inMode m') b results w) := by
  simp only [Cache.alignByPosition]
  split
  · obtain ⟨writes, v', w', hv', hw', hworlds⟩ := (hcloses.valueWrites (o := o) b
      ((b.missed.map (·.1)).zip results) hw).exists_eq
    simp only [hv', hw']
    exact ⟨rfl, hworlds⟩
  · exact ⟨rfl, hw⟩

theorem Closes.alignByKey (hcloses : c.Closes K U S m m') (b : Batch κ τ)
    (results : List (Option τ)) (hw : U v w) :
    Lockstep U (c.alignByKey (o.inMode m) b results v)
      (c.alignByKey (o.inMode m') b results w) := by
  have hnote : ∀ key v w, U v w →
      U (if key ∈ b.missed.map (·.1) then v else v.log (.unmatchedResult key))
        (if key ∈ b.missed.map (·.1) then w else w.log (.unmatchedResult key)) := by
    intro key v w hw
    split
    · exact hw
    · exact hcloses.note _ _ _ rfl hw
  have hmodes : (o.inMode m).keyspace = o.keyspace ∧ (o.inMode m').keyspace = o.keyspace :=
    ⟨rfl, rfl⟩
  obtain ⟨found, v', w', hv', hw', hworlds⟩ :=
    (hcloses.collectRows _ hnote o.keyspace (results.filterMap id) {} hw).exists_eq
  simp only [Cache.alignByKey, hmodes, hv', hw']
  cases found with
  | error e => exact ⟨rfl, hworlds⟩
  | ok found =>
      simp only [(hcloses.valueWrites (o := o) _ _ hworlds).answer]
      exact ⟨rfl, (hcloses.valueWrites (o := o) _ _ hworlds).states⟩

end

end Cache

end CacheAside

import CacheAside.Proofs.RequestFaults
import CacheAside.Proofs.Turns

/-!
# Hits and misses

A read looks up the different keys of its objects. Those that the store answers with an entry are
hits, the others are misses, whatever becomes of the read behind that. No other call counts any.
-/

namespace CacheAside

/-! ## Steps that count none -/

section
variable {σ υ : Type} {w : World σ υ}

/-- The hits and misses counted so far. -/
def World.score (w : World σ υ) : UInt64 × UInt64 := (w.stats.hits, w.stats.misses)

/-- One world, taken twice, with the score of a given one. -/
abbrev World.SameScore (w : World σ υ) : World σ υ → World σ υ → Prop :=
  Cache.Twice fun v => v.score = w.score

namespace Cache

variable {κ τ : Kind} {c : Cache σ} {o : Options} {store : Store σ} {m : WriteBack}

theorem score_encode (key : Key) (v : Option τ) : (c.encode key v w).2.score = w.score := by
  unfold encode
  cases c.codec.encodeOption v <;> rfl

theorem score_decode (key : Key) (bytes : Bytes) : (c.decode τ key bytes w).2.score = w.score := by
  unfold decode
  cases c.codec.decode τ bytes <;> rfl

theorem score_applyWrite (ttl : UInt32) (p : PendingWrite) :
    (applyWrite store ttl w p).score = w.score := by
  unfold applyWrite
  split
  · rcases store.setSilently p.key ttl p.bytes w.scene with ⟨stored, scene⟩
    cases stored <;> rfl
  · unfold World.call
    rcases store.add p.key ttl p.bytes w.scene with ⟨answer, scene⟩
    cases answer <;> rfl

theorem score_runJob (job : Job) : (runJob store w job).score = w.score :=
  List.foldlRecOn (motive := fun v : World σ υ => v.score = w.score) _ _ rfl
    fun _ h p _ => (score_applyWrite job.ttl p).trans h

theorem score_drain : (drain store w).score = w.score :=
  List.foldlRecOn (motive := fun v : World σ υ => v.score = w.score) _ _ rfl
    fun _ h job _ => (score_runJob job).trans h

theorem score_writeBack (writes : List PendingWrite) :
    (c.writeBack o writes w).score = w.score := by
  unfold writeBack
  split
  · rfl
  cases o.writeBack with
  | inline => exact score_runJob _
  | detached =>
      simp only
      split
      · rfl
      · exact score_runJob _

theorem score_deleteOne (key : Key) : (c.deleteOne key w).2.score = w.score := by
  unfold deleteOne World.call
  rcases c.store.delete key w.scene with ⟨answer, scene⟩
  match answer with
  | .ok true | .ok false | .error e => rfl

theorem closes_score (K : Key → Prop) (w : World σ υ) :
    c.Closes K w.SameScore w.SameScore m m :=
  closes_twice (fun key v _ h => (score_encode key v).trans h) (fun _ _ _ h => h)
    (fun _ writes _ _ h => (score_writeBack writes).trans h) fun _ h => h

theorem inStep_score (o : Options) (w : World σ υ) :
    c.InStep o (fun _ => True) w.SameScore w.SameScore (fun _ : List τ => w.SameScore) m m :=
  ⟨fun _ => closes_score _ w, fun _ _ h => h⟩

theorem deletes_score (K : Key → Prop) (w : World σ υ) : c.Deletes K w.SameScore :=
  deletes_twice fun key _ _ h => (score_deleteOne key).trans h

end Cache

/-- A data source that leaves the statistics alone. -/
def Computation.Uncounted {ε α : Type} (compute : Computation σ υ ε α) : Prop :=
  ∀ w, (compute w).2.stats = w.stats

theorem Computation.Uncounted.score {ε α : Type} {compute : Computation σ υ ε α}
    (h : compute.Uncounted) (w : World σ υ) : (compute w).2.score = w.score := by
  rw [World.score, World.score, h w]

theorem Computation.Uncounted.relates {ε α : Type} {τ : Kind} {compute : Computation σ υ ε α}
    (h : compute.Uncounted) (w : World σ υ) (values : α → List τ) :
    compute.Relates w.SameScore (fun _ => w.SameScore) values := by
  rintro v _ ⟨rfl, hv⟩
  exact ⟨rfl, rfl, (h.score v).trans hv⟩

end

/-! ## Reads -/

/-- From one world to another some hits and misses have been counted. -/
structure World.Scores {σ υ : Type} (w : World σ υ) (hits misses : Nat) (v : World σ υ) : Prop where
  hits : v.stats.hits = w.stats.hits + .ofNat hits
  misses : v.stats.misses = w.stats.misses + .ofNat misses

section
variable {σ υ : Type} {u v w : World σ υ} {hits hits' misses misses' : Nat}

theorem World.Scores.of_score (h : v.score = w.score) : w.Scores 0 0 v :=
  ⟨(congrArg Prod.fst h).trans (UInt64.add_zero _).symm,
    (congrArg Prod.snd h).trans (UInt64.add_zero _).symm⟩

theorem World.Scores.trans (h : w.Scores hits misses v) (h' : v.Scores hits' misses' u) :
    w.Scores (hits + hits') (misses + misses') u :=
  ⟨by rw [h'.hits, h.hits, UInt64.ofNat_add, UInt64.add_assoc],
    by rw [h'.misses, h.misses, UInt64.ofNat_add, UInt64.add_assoc]⟩

end

namespace Cache

variable {σ υ ε : Type} {κ τ : Kind} {c : Cache σ} {o : Options} {w : World σ υ} {x : κ} {key : Key}
  {xs : List κ} {keyOf : κ → Key} {compute : Computation σ υ ε (Option τ)}
  {source : List κ → Computation σ υ ε (List (Option τ))}

theorem scores_lookup (key : Key) :
    w.Scores (if (c.recalledOne o τ key w.scene).isSome then 1 else 0) 0
      (c.lookup o τ key w).2 := by
  rw [← found?_lookup]
  unfold lookup
  split
  · exact .of_score rfl
  have hcall : (w.call (c.store.get key)).2.score = w.score := rfl
  rcases hget : w.call (c.store.get key) with ⟨answer, w'⟩
  rw [hget] at hcall
  match answer with
  | .ok none | .error e => exact .of_score hcall
  | .ok (some bytes) =>
      have hdecode := score_decode (c := c) (τ := τ) (w := w') key bytes
      rcases hdecoded : c.decode τ key bytes w' with ⟨entry, w''⟩
      rw [hdecoded] at hdecode
      have hscores : w.Scores 0 0 w'' := .of_score (hdecode.trans hcall)
      simp only [hdecoded]
      cases entry with
      | none => exact hscores
      | some entry =>
          have hhit : w''.Scores 1 0 ((w''.log (.hit key entry.isNull)).count (Stats.addHits 1)) :=
            ⟨rfl, (UInt64.add_zero _).symm⟩
          exact hscores.trans hhit

theorem scores_read (henabled : c.config.disabled = false) (hmode : o.keysFromResults = false)
    (hkey : c.keys.keyFor o.keyspace x = .ok key) (hsource : compute.Uncounted) :
    let found := (c.recalledOne o τ key w.scene).isSome
    w.Scores (if found then 1 else 0) (if found then 0 else 1) (c.read o x compute w).2 := by
  intro found
  have hvalid : o.validate = .ok () := Options.validate_of_keyFor hkey
  have hlookup : w.Scores (if found then 1 else 0) 0 (c.lookup o τ key w).2 := scores_lookup key
  have hfound : (c.lookup o τ key w).1.found?.isSome = found := by rw [found?_lookup]
  simp only [read, henabled, hvalid, hmode, hkey, Bool.false_eq_true, ↓reduceIte]
  rcases hcall : c.lookup o τ key w with ⟨answer, w₁⟩
  rw [hcall] at hlookup hfound
  cases answer with
  | hit entry =>
      rw [← hfound] at hlookup ⊢
      exact hlookup
  | miss stale =>
      rw [← hfound] at hlookup ⊢
      have hmiss : w₁.Scores 0 1 (w₁.count (Stats.addMisses 1)) :=
        ⟨(UInt64.add_zero _).symm, rfl⟩
      have hasked := (hlookup.trans hmiss).trans (.of_score (hsource.score _))
      rcases hanswer : compute (w₁.count (Stats.addMisses 1)) with ⟨answer, w₂⟩
      rw [hanswer] at hasked
      simp only [hanswer]
      cases answer with
      | error e => exact hasked
      | ok v =>
          refine hasked.trans (.of_score ?_)
          exact ((closes_score (fun _ => True) w₂).storeValue (m := o.writeBack) ⟨rfl, rfl⟩
            trivial v _).2

theorem scores_readTally {keys : List Key} {v : World σ υ}
    (h : v.stats = c.readTally o τ keys w.scene w.stats) :
    let missed := (c.missedKeys o τ keys w.scene).length
    w.Scores (keys.length - missed) missed v := by
  -- The question itself counts at most that it has failed.
  have htally : (c.bulkTally o keys w.scene w.stats).hits = w.stats.hits ∧
      (c.bulkTally o keys w.scene w.stats).misses = w.stats.misses := by
    unfold bulkTally
    split <;> exact ⟨rfl, rfl⟩
  constructor
  · rw [h, ← htally.1]
    rfl
  · rw [h, ← htally.2]
    rfl

theorem snd_finish (b : Batch κ τ) (w : World σ υ) :
    (finish o b w : Except (Failure ε) _ × World σ υ).2 = w := by
  unfold finish
  split <;> rfl

theorem scores_readMany (hne : xs ≠ []) (henabled : c.config.disabled = false)
    (hkeys : Batch.Assigns c.keys o.keyspace xs keyOf)
    (hkind : o.keysFromResults = true → c.registry.isRegistered τ = true)
    (hsource : ∀ asked, (source asked).Uncounted) :
    let keys := (xs.map keyOf).eraseDups
    let missed := (c.missedKeys o τ keys w.scene).length
    w.Scores (keys.length - missed) missed (c.readMany o xs source w).2 := by
  intro keys missed
  obtain ⟨b, w₁, -, hleads, hread⟩ := readMany_eq (ε := ε) (w := w) hne henabled hkeys hkind
  have hopened : w.Scores (keys.length - missed) missed w₁ := scores_readTally hleads.stats
  rw [hread]
  split
  · rw [snd_finish]
    exact hopened
  -- From here on nothing is counted.
  have hasked := hopened.trans (.of_score ((hsource (c.askedObjects o τ xs keyOf w.scene)).score w₁))
  rcases hanswer : source (c.askedObjects o τ xs keyOf w.scene) w₁ with ⟨answer, w₂⟩
  rw [hanswer] at hasked
  rcases answer with e | results
  · exact hasked
  have haligned : ((if o.keysFromResults then c.alignByKey o b else c.alignByPosition o b)
      results w₂).2.score = w₂.score :=
    ((inStep_score (m := o.writeBack) o w₂).align (b := b) ⟨rfl, rfl⟩).states.2
  simp only
  rcases halign : (if o.keysFromResults then c.alignByKey o b else c.alignByPosition o b)
    results w₂ with ⟨aligned, w₃⟩
  rw [halign] at haligned
  rcases aligned with e | ⟨writes, b'⟩
  · exact hasked.trans (.of_score haligned)
  · simp only [snd_finish]
    exact hasked.trans (.of_score ((score_writeBack writes).trans haligned))

end Cache

namespace Request

variable {σ υ ε ρ : Type} {κ τ : Kind} {c : Cache σ} {w : World σ υ}

/-- What can be checked of a request before it is made. -/
def passes (c : Cache σ) (r : Request σ υ ε ρ κ τ) : Bool :=
  r.options.validate.isOk &&
    r.keyObjects.all (fun x => (c.keys.keyFor r.options.keyspace x).isOk) &&
    (!r.isByResult || c.registry.isRegistered τ) && !(r.isRead && r.options.keysFromResults)

/-- The keys that a request looks up, if it can be made. -/
def lookups (c : Cache σ) (r : Request σ υ ε ρ κ τ) : List Key :=
  if r.isLookup && r.passes c then r.keys c else []

/-- Whether the store answers a key that is looked up with an entry. -/
def recalls (c : Cache σ) (r : Request σ υ ε ρ κ τ) (s : Scene σ) (key : Key) : Bool :=
  match r with
  | .read o _ _ => (c.recalledOne o τ key s).isSome
  | .readMany o _ _ => (c.recalled o τ (r.keys c) s key).isSome
  | _ => false

/-- The number of keys looked up that the store answers with an entry. -/
def hits (c : Cache σ) (r : Request σ υ ε ρ κ τ) (s : Scene σ) : Nat :=
  (r.lookups c).countP (r.recalls c s)

/-- The number of all other keys looked up. -/
def misses (c : Cache σ) (r : Request σ υ ε ρ κ τ) (s : Scene σ) : Nat :=
  (r.lookups c).countP (!r.recalls c s ·)

variable {r : Request σ υ ε ρ κ τ}

theorem hits_add_misses (s : Scene σ) : r.hits c s + r.misses c s = (r.lookups c).length := by
  simpa [hits, misses] using (List.length_eq_countP_add_countP (r.recalls c s)).symm

theorem valid_of_passes (h : r.passes c = true) : r.Valid c := by
  simp only [passes, Bool.and_eq_true, List.all_eq_true] at h
  obtain ⟨⟨⟨hoptions, hobjects⟩, hkind⟩, hmode⟩ := h
  refine ⟨?_, fun x hx => ?_, fun hby => by simpa [hby] using hkind,
    fun hread => by simpa [hread] using hmode⟩
  · cases hvalid : r.options.validate with
    | ok u => rfl
    | error e => simp [hvalid, Except.isOk, Except.toBool] at hoptions
  · have hok := hobjects x hx
    cases hkey : c.keys.keyFor r.options.keyspace x with
    | ok key => exact ⟨key, rfl⟩
    | error e => simp [hkey, Except.isOk, Except.toBool] at hok

theorem passes_of_valid (h : r.Valid c) : r.passes c = true := by
  have hobjects : ∀ x ∈ r.keyObjects, (c.keys.keyFor r.options.keyspace x).isOk = true := by
    intro x hx
    obtain ⟨key, hkey⟩ := h.objects x hx
    rw [hkey]
    rfl
  have hkind : (!r.isByResult || c.registry.isRegistered τ) = true := by
    cases hby : r.isByResult with
    | false => rfl
    | true => simpa using h.kind hby
  have hmode : (!(r.isRead && r.options.keysFromResults)) = true := by
    cases hread : r.isRead with
    | false => rfl
    | true => simpa using h.mode hread
  simp only [passes, h.options, hkind, hmode, List.all_eq_true.mpr hobjects]
  rfl

theorem faulty_of_not_passes (h : r.passes c = false) : r.Faulty c := by
  by_contra hfaulty
  rw [passes_of_valid (valid_of_not_faulty hfaulty)] at h
  cases h

theorem scores_of_faulty (henabled : c.config.disabled = false) (hempty : r.isEmptyRead = false)
    (h : r.passes c = false) : w.Scores (r.hits c w.scene) (r.misses c w.scene) (r.run c w).2 := by
  obtain ⟨e, hrun⟩ := r.run_of_faulty (w := w) henabled hempty (faulty_of_not_passes h)
  have hlookups : r.lookups c = [] := by simp [lookups, h]
  rw [hrun, hits, misses, hlookups]
  exact .of_score rfl

theorem scores_of_not_lookup (hlookup : r.isLookup = false)
    (hsource : r.Sources Computation.Uncounted) :
    w.Scores (r.hits c w.scene) (r.misses c w.scene) (r.run c w).2 := by
  have hlookups : r.lookups c = [] := by simp [lookups, hlookup]
  rw [hits, misses, hlookups]
  exact .of_score (r.run_of_twice (Cache.inStep_score _ w) (fun h => by simp [hlookup] at h)
    (fun _ => ⟨Cache.deletes_score _ w, fun _ => Cache.deletes_score _ w⟩)
    (fun _ _ _ _ => trivial) (hsource.relates fun values _ h => h.relates w values) rfl)

/-! ## Reads that can be made -/

theorem lookups_eq (hlookup : r.isLookup = true) (h : r.passes c = true) :
    r.lookups c = r.keys c := by
  rw [lookups, hlookup, h]
  rfl

theorem exists_lookups_read {o : Options} {x : κ} {compute : Computation σ υ ε (Option τ)}
    (h : (read o x compute : Request σ υ ε ρ κ τ).passes c = true) :
    ∃ key, c.keys.keyFor o.keyspace x = .ok key ∧
      (read o x compute : Request σ υ ε ρ κ τ).lookups c = [key] := by
  obtain ⟨key, hkey⟩ := (valid_of_passes h).objects x List.mem_cons_self
  have hkeys : ∀ z ∈ (read o x compute : Request σ υ ε ρ κ τ).keyObjects,
      c.keys.keyFor o.keyspace z = .ok key := by
    intro z hz
    obtain rfl : z = x := by simpa [keyObjects, objects] using hz
    exact hkey
  exact ⟨key, hkey, (lookups_eq rfl h).trans (keys_eq hkeys)⟩

theorem exists_lookups_readMany {o : Options} {xs : List κ}
    {source : List κ → Computation σ υ ε (List (Option τ))}
    (h : (readMany o xs source : Request σ υ ε ρ κ τ).passes c = true) :
    ∃ keyOf : κ → Key, Batch.Assigns c.keys o.keyspace xs keyOf ∧
      (readMany o xs source : Request σ υ ε ρ κ τ).lookups c = (xs.map keyOf).eraseDups := by
  obtain ⟨keyOf, hkeys⟩ := Batch.exists_assigns (valid_of_passes h).objects
  exact ⟨keyOf, hkeys, (lookups_eq rfl h).trans (keys_readMany hkeys)⟩

theorem lookups_of_empty (o : Options) (source : List κ → Computation σ υ ε (List (Option τ))) :
    (readMany o [] source : Request σ υ ε ρ κ τ).lookups c = [] := by
  unfold lookups
  split <;> rfl

theorem scores_of_read (henabled : c.config.disabled = false) {o : Options} {x : κ}
    {compute : Computation σ υ ε (Option τ)} (hsource : compute.Uncounted)
    (h : (read o x compute : Request σ υ ε ρ κ τ).passes c = true) :
    w.Scores ((read o x compute : Request σ υ ε ρ κ τ).hits c w.scene)
      ((read o x compute : Request σ υ ε ρ κ τ).misses c w.scene)
      ((read o x compute : Request σ υ ε ρ κ τ).run c w).2 := by
  obtain ⟨key, hkey, hlookups⟩ := exists_lookups_read h
  have hrun := Cache.scores_read (o := o) (w := w) henabled ((valid_of_passes h).mode rfl) hkey
    hsource
  rw [run, wrap_eq, hits, misses, hlookups, List.countP_singleton, List.countP_singleton]
  by_cases hfound : (c.recalledOne o τ key w.scene).isSome <;>
    simpa [recalls, hfound] using hrun

theorem scores_of_readMany (henabled : c.config.disabled = false) {o : Options} {xs : List κ}
    {source : List κ → Computation σ υ ε (List (Option τ))} (hne : xs ≠ [])
    (hsource : ∀ asked, (source asked).Uncounted)
    (h : (readMany o xs source : Request σ υ ε ρ κ τ).passes c = true) :
    w.Scores ((readMany o xs source : Request σ υ ε ρ κ τ).hits c w.scene)
      ((readMany o xs source : Request σ υ ε ρ κ τ).misses c w.scene)
      ((readMany o xs source : Request σ υ ε ρ κ τ).run c w).2 := by
  obtain ⟨keyOf, hkeys, hlookups⟩ := exists_lookups_readMany h
  have hkeysEq := (lookups_eq rfl h).symm.trans hlookups
  have hrun := Cache.scores_readMany (w := w) hne henabled hkeys (valid_of_passes h).kind hsource
  have hmisses : (readMany o xs source : Request σ υ ε ρ κ τ).misses c w.scene =
      (c.missedKeys o τ (xs.map keyOf).eraseDups w.scene).length := by
    rw [misses, hlookups, List.countP_eq_length_filter, Cache.missedKeys]
    simp [recalls, hkeysEq]
  have hsum := hits_add_misses (c := c) (r := (readMany o xs source : Request σ υ ε ρ κ τ)) w.scene
  have hhits : (readMany o xs source : Request σ υ ε ρ κ τ).hits c w.scene =
      (xs.map keyOf).eraseDups.length -
        (c.missedKeys o τ (xs.map keyOf).eraseDups w.scene).length := by
    rw [← hmisses, Nat.eq_sub_of_add_eq hsum, hlookups]
  rw [run, wrap_eq, hhits, hmisses]
  exact hrun

/-- What a request counts of hits and misses are the keys that it looks up. -/
theorem scores_run (henabled : c.config.disabled = false)
    (hsource : r.Sources Computation.Uncounted) :
    w.Scores (r.hits c w.scene) (r.misses c w.scene) (r.run c w).2 := by
  cases hlookup : r.isLookup with
  | false => exact scores_of_not_lookup hlookup hsource
  | true =>
      cases r with
      | read o x compute =>
          cases hpasses : (read o x compute : Request σ υ ε ρ κ τ).passes c with
          | false => exact scores_of_faulty henabled rfl hpasses
          | true => exact scores_of_read henabled hsource hpasses
      | readMany o xs source =>
          by_cases hne : xs = []
          · subst hne
            rw [hits, misses, lookups_of_empty]
            exact .of_score (by simp [run, wrap, Cache.readMany])
          cases hpasses : (readMany o xs source : Request σ υ ε ρ κ τ).passes c with
          | false => exact scores_of_faulty henabled (by simpa [isEmptyRead] using hne) hpasses
          | true => exact scores_of_readMany henabled hne hsource hpasses
      | _ => cases hlookup

end Request

/-! ## Turns -/

namespace Turn

variable {σ υ ε ρ : Type} {c : Cache σ} {w : World σ υ}

/-- What a turn comes to, if it is a call: a number for the request and the scene it is made in. -/
def size (f : ∀ {κ τ : Kind}, Request σ υ ε ρ κ τ → Scene σ → Nat) : Turn σ υ ε ρ → World σ υ → Nat
  | .call r, w => f r w.scene
  | .drain, _ | .meanwhile _, _ => 0

/-- What the calls among some turns come to, each in the world it is made in. -/
def total (c : Cache σ) (f : ∀ {κ τ : Kind}, Request σ υ ε ρ κ τ → Scene σ → Nat) :
    List (Turn σ υ ε ρ) → World σ υ → Nat
  | [], _ => 0
  | turn :: turns, w => turn.size f w + total c f turns (turn.run c w).2

/-- The number of keys looked up by some turns. -/
def lookups (c : Cache σ) (turns : List (Turn σ υ ε ρ)) (w : World σ υ) : Nat :=
  total c (fun r _ => (r.lookups c).length) turns w

def hits (c : Cache σ) (turns : List (Turn σ υ ε ρ)) (w : World σ υ) : Nat :=
  total c (fun r s => r.hits c s) turns w

def misses (c : Cache σ) (turns : List (Turn σ υ ε ρ)) (w : World σ υ) : Nat :=
  total c (fun r s => r.misses c s) turns w

/-- Every key that is looked up is either hit or missed. -/
theorem hits_add_misses (turns : List (Turn σ υ ε ρ)) (w : World σ υ) :
    hits c turns w + misses c turns w = lookups c turns w := by
  unfold hits misses lookups
  induction turns generalizing w with
  | nil => rfl
  | cons turn turns ih =>
      have hturn : turn.size (fun r s => r.hits c s) w + turn.size (fun r s => r.misses c s) w =
          turn.size (fun r _ => (r.lookups c).length) w := by
        cases turn with
        | call r => exact Request.hits_add_misses w.scene
        | drain | meanwhile => rfl
      simp only [total]
      rw [← ih, ← hturn]
      omega

theorem scores_run (henabled : c.config.disabled = false) {turn : Turn σ υ ε ρ}
    (hsource : turn.Sources Computation.Uncounted) :
    w.Scores (turn.size (fun r s => r.hits c s) w) (turn.size (fun r s => r.misses c s) w)
      (turn.run c w).2 := by
  cases turn with
  | call r => exact Request.scores_run henabled hsource
  | drain => exact .of_score Cache.score_drain
  | meanwhile change => exact .of_score rfl

theorem scores_runAll (henabled : c.config.disabled = false) {turns : List (Turn σ υ ε ρ)}
    (hsource : ∀ turn ∈ turns, turn.Sources Computation.Uncounted) :
    w.Scores (hits c turns w) (misses c turns w) (runAll c id turns w).2 := by
  induction turns generalizing w with
  | nil => exact .of_score rfl
  | cons turn turns ih =>
      exact (scores_run henabled (hsource turn List.mem_cons_self)).trans
        (ih fun t ht => hsource t (List.mem_cons_of_mem _ ht))

end Turn

end CacheAside

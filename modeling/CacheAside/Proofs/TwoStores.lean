import CacheAside.Proofs.Observed

/-!
# One cache over two stores

Two runs of the same call, over stores of which only the reads are known to be alike. Neither the
result nor the trail can tell the stores apart, as long as the data source cannot.
-/

namespace CacheAside

section
variable {σ υ ε α : Type} {v w : World (Observed σ) υ}

/-- Two runs with one result that leave one trail. -/
structure Tallies (p q : α × World (Observed σ) υ) : Prop where
  result : p.1 = q.1
  trail : p.2.trail = q.2.trail

/-- A computation that answers and acts the same in all worlds with the same trail. -/
def Computation.Blind (compute : Computation (Observed σ) υ ε α) : Prop :=
  ∀ v w, v.trail = w.trail → Tallies (compute v) (compute w)

theorem Tallies.exists_eq {p q : α × World (Observed σ) υ} (h : Tallies p q) :
    ∃ a v w, p = (a, v) ∧ q = (a, w) ∧ v.trail = w.trail :=
  ⟨p.1, p.2, q.2, rfl, Prod.ext h.result.symm rfl, h.trail⟩

theorem Computation.Blind.direct {compute : Computation (Observed σ) υ ε α} (h : compute.Blind)
    (hw : v.trail = w.trail) : Tallies (compute.direct v) (compute.direct w) := by
  obtain ⟨answer, v', w', hv', hw', htrail⟩ := (h v w hw).exists_eq
  simp only [Computation.direct, hv', hw']
  cases answer with
  | ok a => exact ⟨rfl, htrail⟩
  | error e => exact ⟨rfl, htrail⟩

theorem tallies_refuse (hw : v.trail = w.trail) (e : ConfigError) :
    Tallies (refuse e v : Except (Failure ε) α × World (Observed σ) υ) (refuse e w) := ⟨rfl, hw⟩

end

namespace Cache

variable {σ υ ε α : Type} {κ τ : Kind}

/-- The same cache over another store, under observation. -/
def onto (c : Cache (Observed σ)) (store : Store σ) : Cache (Observed σ) :=
  { c with store := store.observed }

variable {c : Cache (Observed σ)} {o : Options} {S T : Store σ} {v w : World (Observed σ) υ}

/-! ## Steps that make no store call -/

theorem fst_firstWrites_over (pairs : List (Key × Option τ)) (seen : List Key) :
    ((c.onto S).firstWrites o pairs seen v).1 = ((c.onto T).firstWrites o pairs seen w).1 := by
  induction pairs generalizing seen v w with
  | nil => rfl
  | cons p pairs ih =>
      simp only [firstWrites]
      split
      · exact ih seen
      · split
        · exact ih _
        · simp only [fst_encode, ih (p.1 :: seen) (w := ((c.onto T).encode p.1 p.2 w).2)]
          rfl

theorem fst_collectRows_over {note : Key → World (Observed σ) υ → World (Observed σ) υ}
    (ns : String) (rows : List τ) (done : Rows τ) :
    ((c.onto S).collectRows ns note rows done v).1 =
      ((c.onto T).collectRows ns note rows done w).1 := by
  induction rows generalizing done v w with
  | nil => rfl
  | cons row rows ih =>
      have hkey : (c.onto S).keys.keyForResult ns row = (c.onto T).keys.keyForResult ns row := rfl
      simp only [collectRows, hkey]
      split
      · rfl
      · split
        · exact ih done
        · rename_i key _ _
          have hbytes : ((c.onto S).encode key (some row) v).1 =
              ((c.onto T).encode key (some row) w).1 := by
            rw [fst_encode, fst_encode]
            rfl
          rw [hbytes]
          exact ih _

theorem alignByPosition_over (hw : v.trail = w.trail) (b : Batch κ τ)
    (results : List (Option τ)) : Tallies ((c.onto S).alignByPosition o b results v)
      ((c.onto T).alignByPosition o b results w) := by
  simp only [alignByPosition]
  split
  · exact ⟨by simp only [fst_valueWrites]; rfl, by simpa using hw⟩
  · exact ⟨rfl, hw⟩

theorem collectRows_over {note : Key → World (Observed σ) υ → World (Observed σ) υ}
    (hnote : ∀ key w, (note key w).trail = w.trail) (hw : v.trail = w.trail) (ns : String)
    (rows : List τ) (done : Rows τ) : Tallies ((c.onto S).collectRows ns note rows done v)
      ((c.onto T).collectRows ns note rows done w) :=
  ⟨fst_collectRows_over ns rows done, by
    rw [trail_collectRows hnote, trail_collectRows hnote, hw]⟩

theorem trail_unmatched (missed : List Key) (key : Key) (w : World (Observed σ) υ) :
    (if key ∈ missed then w else w.log (.unmatchedResult key)).trail = w.trail := by
  split <;> rfl

theorem alignByKey_over (hw : v.trail = w.trail) (b : Batch κ τ) (results : List (Option τ)) :
    Tallies ((c.onto S).alignByKey o b results v) ((c.onto T).alignByKey o b results w) := by
  obtain ⟨found, v', w', hv', hw', htrail⟩ := (collectRows_over (c := c) (S := S) (T := T)
    (trail_unmatched (b.missed.map (·.1))) hw o.keyspace (results.filterMap id) {}).exists_eq
  simp only [alignByKey, hv', hw']
  cases found with
  | error e => exact ⟨rfl, htrail⟩
  | ok rows => exact ⟨by simp only [fst_valueWrites]; rfl, by simpa using htrail⟩

/-! ## Reads -/

/-- What a look-up makes of the bytes found. -/
def Lookup.ofBytes (c : Cache (Observed σ)) (τ : Kind) : Option Bytes → Lookup τ
  | none => .miss false
  | some bytes =>
    match c.entryIn? τ bytes with
    | some entry => .hit entry
    | none => .miss true

theorem fst_lookup (key : Key) : (c.lookup o τ key w).1 = if o.bypass then .miss true
    else Lookup.ofBytes c τ (c.store.get key w.scene).1.toOption.join := by
  unfold lookup
  split
  · rfl
  · have hanswer : (w.call (c.store.get key)).1 = (c.store.get key w.scene).1 := rfl
    rcases hcall : w.call (c.store.get key) with ⟨answer, w'⟩
    rw [hcall] at hanswer
    rw [← hanswer]
    match answer with
    | .ok none | .error e => rfl
    | .ok (some bytes) =>
        have hentry := fst_decode (c := c) (τ := τ) (w := w') key bytes
        rcases hdecoded : c.decode τ key bytes w' with ⟨entry, w''⟩
        rw [hdecoded] at hentry
        simp only [hdecoded, Except.toOption, Option.join_some, Lookup.ofBytes, ← hentry]
        cases entry <;> rfl

theorem lookup_over (hw : v.trail = w.trail) {key : Key}
    (hfound : o.bypass = false → (S.observed.get key v.scene).1.toOption.join =
      (T.observed.get key w.scene).1.toOption.join) :
    Tallies ((c.onto S).lookup o τ key v) ((c.onto T).lookup o τ key w) where
  result := by
    rw [fst_lookup, fst_lookup]
    split
    · rfl
    · rename_i hbypass
      exact congrArg (Lookup.ofBytes c τ) (hfound (by simpa using hbypass))
  trail := by rw [trail_lookup rfl, trail_lookup rfl, hw]

theorem fst_absorb_congr {d : Cache (Observed σ)} (hcodec : c.codec = d.codec)
    (found : List (Key × Bytes)) (b : Batch κ τ) :
    (c.absorb found b v).1 = (d.absorb found b w).1 := by
  induction found generalizing b v w with
  | nil => rfl
  | cons e found ih =>
      have hdecode : (c.decode τ e.1 e.2 v).1 = (d.decode τ e.1 e.2 w).1 := by
        rw [fst_decode, fst_decode, entryIn?, entryIn?, hcodec]
      simp only [absorb]
      split
      · generalize c.decode τ e.1 e.2 v = p at hdecode ⊢
        generalize d.decode τ e.1 e.2 w = q at hdecode ⊢
        obtain ⟨entry, v'⟩ := p
        obtain ⟨entry', w'⟩ := q
        obtain rfl : entry = entry' := hdecode
        cases entry with
        | some entry => exact ih _
        | none => exact ih _
      · exact ih b

/-- Entries that nobody asked for make no difference. -/
theorem fst_absorb_filter (found : List (Key × Bytes)) (b : Batch κ τ) :
    (c.absorb found b w).1 = (c.absorb (found.filter fun e => b.owns e.1) b w).1 := by
  induction found generalizing b w with
  | nil => rfl
  | cons e found ih =>
      rw [absorb, List.filter_cons]
      split
      · rw [absorb, if_pos ‹_›]
        split
        · rw [ih]
          simp only [owns_resolve]
        · rw [ih]
          simp only [owns_markUnreadable]
      · exact ih b

/-- The table that an answer about many keys comes to; an empty one if there is no answer. -/
def bulkTable (store : Store σ) (keys : List Key) (s : Scene σ) : Table Bytes :=
  (store.getMany keys s).1.toOption.getD .empty

theorem fst_fetch (b : Batch κ τ) : (c.fetch o b w).1 = if o.bypass then b
    else (c.absorb (bulkTable c.store b.distinctKeys w.scene).entries b w).1 := by
  unfold fetch bulkTable
  split
  · rfl
  · have hanswer : (w.call (c.store.getMany b.distinctKeys)).1 =
      (c.store.getMany b.distinctKeys w.scene).1 := rfl
    rcases hcall : w.call (c.store.getMany b.distinctKeys) with ⟨answer, w'⟩
    rw [hcall] at hanswer
    rw [← hanswer]
    cases answer with
    | error e => rfl
    | ok found => exact fst_absorb_congr rfl _ _

theorem entries_filter {t u : Table Bytes} {p : Key → Bool}
    (h : ∀ key, p key = true → t.find? key = u.find? key) :
    (t.entries.filter fun e => p e.1) = u.entries.filter fun e => p e.1 := by
  refine congrArg Table.entries (Table.ext (t := t.filter fun key _ => p key)
    (u := u.filter fun key _ => p key) fun key => ?_)
  rw [Table.find?_filter, Table.find?_filter]
  cases hp : p key with
  | true => rw [h key hp]
  | false => cases t.find? key <;> cases u.find? key <;> simp

theorem fetch_over (hw : v.trail = w.trail) {b : Batch κ τ}
    (hfound : o.bypass = false → ∀ key, b.owns key = true →
      (bulkTable S.observed b.distinctKeys v.scene).find? key =
        (bulkTable T.observed b.distinctKeys w.scene).find? key) :
    Tallies ((c.onto S).fetch o b v) ((c.onto T).fetch o b w) where
  result := by
    rw [fst_fetch, fst_fetch]
    split
    · rfl
    · rename_i hbypass
      have hentries := entries_filter (hfound (by simpa using hbypass))
      rw [fst_absorb_filter (c := c.onto S), fst_absorb_filter (c := c.onto T)]
      exact (congrArg (fun found => ((c.onto S).absorb found b v).1) hentries).trans
        (fst_absorb_congr (c := c.onto S) (d := c.onto T) rfl _ b)
  trail := by rw [trail_fetch rfl, trail_fetch rfl, hw]

end Cache

end CacheAside

import CacheAside.Proofs.Lookups
import CacheAside.Proofs.TwoStores

/-!
# Trouble with the store stays with the store

What becomes of the store calls of a request is not seen by its caller, nor by its data source, but
for a read that fails: then the call goes on as on an empty store. And none of the other store calls
is left out because one before has failed.
-/

namespace CacheAside

/-- A reply without what an invalidation says about the store. -/
def Reply.blurred {ρ : Type} {τ : Kind} : Reply ρ τ → Reply ρ τ
  | .flag _ => .flag false
  | .count _ => .count 0
  | reply => reply

/-! ## Calls of a cache over two stores -/

namespace Cache

variable {σ υ ε α : Type} {κ τ : Kind} {c : Cache (Observed σ)} {o : Options} {S T : Store σ}
  {v w : World (Observed σ) υ}

theorem trail_writeBack_over (hw : v.trail = w.trail) (writes : List PendingWrite) :
    ((c.onto S).writeBack o writes v).trail = ((c.onto T).writeBack o writes w).trail := by
  rw [trail_writeBack rfl, trail_writeBack rfl, hw]
  rfl

theorem trail_storeValue_over (hw : v.trail = w.trail) (key : Key) (value : Option τ)
    (mode : WriteMode) : ((c.onto S).storeValue o key value mode v).trail =
      ((c.onto T).storeValue o key value mode w).trail := by
  rw [trail_storeValue rfl, trail_storeValue rfl, hw]
  rfl

theorem trail_deleteAll_over (hw : v.trail = w.trail) (keys : List Key) :
    ((c.onto S).deleteAll keys v).2.trail = ((c.onto T).deleteAll keys w).2.trail := by
  rw [trail_deleteAll rfl, trail_deleteAll rfl, hw]

theorem finish_over (hw : v.trail = w.trail) (b : Batch κ τ) :
    Tallies (finish o b v : Except (Failure ε) _ × World (Observed σ) υ) (finish o b w) := by
  unfold finish
  cases b.assemble o.skipNulls with
  | ok values => exact ⟨rfl, hw⟩
  | error e => exact ⟨rfl, hw⟩

theorem align_over (hw : v.trail = w.trail) (b : Batch κ τ) (results : List (Option τ)) :
    Tallies
      ((if o.keysFromResults then (c.onto S).alignByKey o b
        else (c.onto S).alignByPosition o b) results v)
      ((if o.keysFromResults then (c.onto T).alignByKey o b
        else (c.onto T).alignByPosition o b) results w) := by
  split
  · exact alignByKey_over hw b results
  · exact alignByPosition_over hw b results

theorem read_over {x : κ} {compute : Computation (Observed σ) υ ε (Option τ)}
    (hcompute : compute.Blind) (hw : v.trail = w.trail)
    (hfound : ∀ key, c.keys.keyFor o.keyspace x = .ok key → c.config.disabled = false →
      o.keysFromResults = false → o.bypass = false →
      (S.observed.get key v.scene).1.toOption.join =
        (T.observed.get key w.scene).1.toOption.join) :
    Tallies ((c.onto S).read o x compute v) ((c.onto T).read o x compute w) := by
  have hconfig : (c.onto S).config = c.config ∧ (c.onto T).config = c.config := ⟨rfl, rfl⟩
  have hkeys : (c.onto S).keys = c.keys ∧ (c.onto T).keys = c.keys := ⟨rfl, rfl⟩
  simp only [read, hconfig, hkeys]
  split
  · exact hcompute.direct hw
  rename_i henabled
  rcases o.validate with e | u
  · exact tallies_refuse hw e
  simp only
  split
  · exact tallies_refuse hw _
  rename_i hmode
  rcases hkey : c.keys.keyFor o.keyspace x with e | key
  · exact tallies_refuse hw e
  obtain ⟨found, v', w', hv', hw', htrail⟩ := (lookup_over (c := c) (o := o) (τ := τ) hw
    (hfound key hkey (by simpa using henabled) (by simpa using hmode))).exists_eq
  simp only [hv', hw']
  cases found with
  | hit entry => exact ⟨rfl, htrail⟩
  | miss stale =>
      have hcounted : (v'.count (Stats.addMisses 1)).trail = (w'.count (Stats.addMisses 1)).trail :=
        htrail
      obtain ⟨answer, v'', w'', hv'', hw'', htrail⟩ := (hcompute _ _ hcounted).exists_eq
      simp only [hv'', hw'']
      cases answer with
      | error e => exact ⟨rfl, htrail⟩
      | ok value => exact ⟨rfl, trail_storeValue_over htrail key value _⟩

theorem readMany_over {xs : List κ}
    {source : List κ → Computation (Observed σ) υ ε (List (Option τ))}
    (hsource : ∀ asked, (source asked).Blind) (hw : v.trail = w.trail)
    (hfound : ∀ keys, c.keysFor o.keyspace xs.eraseDups = .ok keys → c.config.disabled = false →
      xs ≠ [] → (o.keysFromResults = true → c.registry.isRegistered τ = true) → o.bypass = false →
      ∀ key ∈ keys.eraseDups,
      (bulkTable S.observed keys.eraseDups v.scene).find? key =
        (bulkTable T.observed keys.eraseDups w.scene).find? key) :
    Tallies ((c.onto S).readMany o xs source v) ((c.onto T).readMany o xs source w) := by
  have hconfig : (c.onto S).config = c.config ∧ (c.onto T).config = c.config := ⟨rfl, rfl⟩
  have hkeys : (c.onto S).keys = c.keys ∧ (c.onto T).keys = c.keys := ⟨rfl, rfl⟩
  have hkind : (c.onto S).checkResultKind τ = c.checkResultKind τ ∧
    (c.onto T).checkResultKind τ = c.checkResultKind τ := ⟨rfl, rfl⟩
  simp only [readMany, hconfig, hkeys, hkind]
  split
  · exact ⟨rfl, hw⟩
  rename_i hne
  split
  · exact (hsource xs).direct hw
  rename_i henabled
  rcases o.validate with e | u
  · exact tallies_refuse hw e
  rcases hcheck : (if o.keysFromResults then c.checkResultKind τ else .ok ()) with e | u
  · exact tallies_refuse hw e
  have hregistered : o.keysFromResults = true → c.registry.isRegistered τ = true := fun hmode => by
    simpa [hmode, checkResultKind] using hcheck
  rcases hbuild : (Batch.build c.keys o.keyspace xs : Except _ (Batch κ τ)) with e | b
  · exact tallies_refuse hw e
  obtain ⟨keyOf, hall, hkeeps⟩ := Batch.keeps_of_build hbuild
  have hdistinct := hkeeps.distinctKeys.trans (eraseDups_map_eraseDups hall.unites).symm
  obtain ⟨b, v', w', hv', hw', htrail⟩ := (fetch_over (c := c) (o := o) (b := b) hw
    fun hbypass key hkey => by
      rw [hdistinct]
      exact hfound _ (keysFor_eq_ok hall.first) (by simpa using henabled) hne hregistered hbypass
        key (by rw [eraseDups_map_eraseDups hall.unites]; simpa [hkeeps.owns] using hkey)).exists_eq
  let counted (w : World (Observed σ) υ) : World (Observed σ) υ :=
    (w.count (Stats.addHits (b.distinctKeys.length - b.missed.length))).count
      (Stats.addMisses b.missed.length)
  have hcounted : (counted v').trail = (counted w').trail := htrail
  simp only [hv', hw']
  split
  · exact finish_over hcounted b
  -- The data source is asked for the keys missed, and its answer is taken in.
  obtain ⟨answer, v'', w'', hv'', hw'', htrail⟩ :=
    (hsource (b.missed.map (·.2)) _ _ hcounted).exists_eq
  simp only [counted] at hv'' hw''
  simp only [hv'', hw'']
  rcases answer with e | results
  · exact ⟨rfl, htrail⟩
  obtain ⟨aligned, v₃, w₃, hv₃, hw₃, htrail⟩ :=
    (align_over (c := c) (o := o) (S := S) (T := T) htrail b results).exists_eq
  simp only [hv₃, hw₃]
  cases aligned with
  | error e => exact ⟨rfl, htrail⟩
  | ok written => exact finish_over (trail_writeBack_over htrail _) _

/-! ## Writing and invalidating -/

theorem write_over {x : κ} {compute : Computation (Observed σ) υ ε (Option τ)}
    (hcompute : compute.Blind) (hw : v.trail = w.trail) :
    Tallies ((c.onto S).write o x compute v) ((c.onto T).write o x compute w) := by
  have hconfig : (c.onto S).config = c.config ∧ (c.onto T).config = c.config := ⟨rfl, rfl⟩
  have hkeys : (c.onto S).keys = c.keys ∧ (c.onto T).keys = c.keys := ⟨rfl, rfl⟩
  simp only [write, hconfig, hkeys]
  split
  · exact hcompute.direct hw
  rcases o.validate with e | u
  · exact tallies_refuse hw e
  rcases c.keys.keyFor o.keyspace x with e | key
  · exact tallies_refuse hw e
  obtain ⟨answer, v', w', hv', hw', htrail⟩ := (hcompute _ _ hw).exists_eq
  simp only [hv', hw']
  cases answer with
  | error e => exact ⟨rfl, htrail⟩
  | ok value => exact ⟨rfl, trail_storeValue_over htrail key value _⟩

theorem writeMany_over {xs : List κ} {compute : Computation (Observed σ) υ ε (List (Option τ))}
    (hcompute : compute.Blind) (hw : v.trail = w.trail) :
    Tallies ((c.onto S).writeMany o xs compute v) ((c.onto T).writeMany o xs compute w) := by
  have hconfig : (c.onto S).config = c.config ∧ (c.onto T).config = c.config := ⟨rfl, rfl⟩
  have hkeys : (c.onto S).keysFor o.keyspace xs = c.keysFor o.keyspace xs ∧
    (c.onto T).keysFor o.keyspace xs = c.keysFor o.keyspace xs := ⟨rfl, rfl⟩
  simp only [writeMany, hconfig, hkeys]
  split
  · exact hcompute.direct hw
  rcases o.validate with e | u
  · exact tallies_refuse hw e
  rcases c.keysFor o.keyspace xs with e | keys
  · exact tallies_refuse hw e
  obtain ⟨answer, v', w', hv', hw', htrail⟩ := (hcompute _ _ hw).exists_eq
  simp only [hv', hw']
  rcases answer with e | results
  · exact ⟨rfl, htrail⟩
  simp only
  split
  · refine ⟨rfl, ?_⟩
    simp only [fst_firstWrites_over (c := c) (S := S) (T := T) (v := v') (w := w')]
    exact trail_writeBack_over (by simpa using htrail) _
  · exact ⟨rfl, htrail⟩

theorem writeByResult_over {compute : Computation (Observed σ) υ ε (Option τ)}
    (hcompute : compute.Blind) (hw : v.trail = w.trail) :
    Tallies ((c.onto S).writeByResult o compute v) ((c.onto T).writeByResult o compute w) := by
  have hconfig : (c.onto S).config = c.config ∧ (c.onto T).config = c.config := ⟨rfl, rfl⟩
  have hkeys : (c.onto S).keys = c.keys ∧ (c.onto T).keys = c.keys := ⟨rfl, rfl⟩
  have hkind : (c.onto S).checkResultKind τ = c.checkResultKind τ ∧
    (c.onto T).checkResultKind τ = c.checkResultKind τ := ⟨rfl, rfl⟩
  simp only [writeByResult, hconfig, hkeys, hkind]
  split
  · exact hcompute.direct hw
  rcases o.validate with e | u
  · exact tallies_refuse hw e
  rcases c.checkResultKind τ with e | u
  · exact tallies_refuse hw e
  obtain ⟨answer, v', w', hv', hw', htrail⟩ := (hcompute _ _ hw).exists_eq
  simp only [hv', hw']
  rcases answer with e | (_ | value)
  · exact ⟨rfl, htrail⟩
  · exact ⟨rfl, htrail⟩
  simp only
  cases c.keys.keyForResult o.keyspace value with
  | error e => exact tallies_refuse htrail e
  | ok key => exact ⟨rfl, trail_storeValue_over htrail key (some value) _⟩

theorem writeManyByResult_over {compute : Computation (Observed σ) υ ε (List (Option τ))}
    (hcompute : compute.Blind) (hw : v.trail = w.trail) :
    Tallies ((c.onto S).writeManyByResult o compute v)
      ((c.onto T).writeManyByResult o compute w) := by
  have hconfig : (c.onto S).config = c.config ∧ (c.onto T).config = c.config := ⟨rfl, rfl⟩
  have hkind : (c.onto S).checkResultKind τ = c.checkResultKind τ ∧
    (c.onto T).checkResultKind τ = c.checkResultKind τ := ⟨rfl, rfl⟩
  simp only [writeManyByResult, hconfig, hkind]
  split
  · exact hcompute.direct hw
  rcases o.validate with e | u
  · exact tallies_refuse hw e
  rcases c.checkResultKind τ with e | u
  · exact tallies_refuse hw e
  obtain ⟨answer, v', w', hv', hw', htrail⟩ := (hcompute _ _ hw).exists_eq
  simp only [hv', hw']
  rcases answer with e | results
  · exact ⟨rfl, htrail⟩
  obtain ⟨found, v'', w'', hv'', hw'', htrail⟩ := (collectRows_over (c := c) (S := S) (T := T)
    (fun _ _ => rfl) htrail o.keyspace (results.filterMap id) {}).exists_eq
  simp only [hv'', hw'']
  cases found with
  | error e => exact tallies_refuse htrail e
  | ok found => exact ⟨rfl, trail_writeBack_over htrail _⟩

theorem around_over {timing : Timing} {compute : Computation (Observed σ) υ ε α}
    (hcompute : compute.Blind) (hw : v.trail = w.trail) (keys : List Key) :
    Tallies ((c.onto S).around timing keys compute v)
      ((c.onto T).around timing keys compute w) := by
  cases timing with
  | before => exact hcompute.direct (trail_deleteAll_over hw keys)
  | after =>
      obtain ⟨answer, v', w', hv', hw', htrail⟩ := (hcompute.direct hw).exists_eq
      simp only [around, hv', hw']
      cases answer with
      | error e => exact ⟨rfl, htrail⟩
      | ok a => exact ⟨rfl, trail_deleteAll_over htrail keys⟩

theorem invalidateAround_over {x : κ} {timing : Timing} {compute : Computation (Observed σ) υ ε α}
    (hcompute : compute.Blind) (hw : v.trail = w.trail) :
    Tallies ((c.onto S).invalidateAround o x timing compute v)
      ((c.onto T).invalidateAround o x timing compute w) := by
  have hconfig : (c.onto S).config = c.config ∧ (c.onto T).config = c.config := ⟨rfl, rfl⟩
  have hkeys : (c.onto S).keys = c.keys ∧ (c.onto T).keys = c.keys := ⟨rfl, rfl⟩
  simp only [invalidateAround, hconfig, hkeys]
  split
  · exact hcompute.direct hw
  rcases o.validate with e | u
  · exact tallies_refuse hw e
  cases c.keys.keyFor o.keyspace x with
  | error e => exact tallies_refuse hw e
  | ok key => exact around_over hcompute hw [key]

theorem invalidateManyAround_over {xs : List κ} {timing : Timing}
    {compute : Computation (Observed σ) υ ε α} (hcompute : compute.Blind)
    (hw : v.trail = w.trail) : Tallies ((c.onto S).invalidateManyAround o xs timing compute v)
      ((c.onto T).invalidateManyAround o xs timing compute w) := by
  have hconfig : (c.onto S).config = c.config ∧ (c.onto T).config = c.config := ⟨rfl, rfl⟩
  have hkeys : (c.onto S).keysFor o.keyspace xs = c.keysFor o.keyspace xs ∧
    (c.onto T).keysFor o.keyspace xs = c.keysFor o.keyspace xs := ⟨rfl, rfl⟩
  simp only [invalidateManyAround, hconfig, hkeys]
  split
  · exact hcompute.direct hw
  rcases o.validate with e | u
  · exact tallies_refuse hw e
  cases c.keysFor o.keyspace xs with
  | error e => exact tallies_refuse hw e
  | ok keys => exact around_over hcompute hw keys.eraseDups

theorem invalidateByResult_over {compute : Computation (Observed σ) υ ε (Option τ)}
    (hcompute : compute.Blind) (hw : v.trail = w.trail) :
    Tallies ((c.onto S).invalidateByResult o compute v)
      ((c.onto T).invalidateByResult o compute w) := by
  have hconfig : (c.onto S).config = c.config ∧ (c.onto T).config = c.config := ⟨rfl, rfl⟩
  have hkeys : (c.onto S).keys = c.keys ∧ (c.onto T).keys = c.keys := ⟨rfl, rfl⟩
  have hkind : (c.onto S).checkResultKind τ = c.checkResultKind τ ∧
    (c.onto T).checkResultKind τ = c.checkResultKind τ := ⟨rfl, rfl⟩
  simp only [invalidateByResult, hconfig, hkeys, hkind]
  split
  · exact hcompute.direct hw
  rcases o.validate with e | u
  · exact tallies_refuse hw e
  rcases c.checkResultKind τ with e | u
  · exact tallies_refuse hw e
  obtain ⟨answer, v', w', hv', hw', htrail⟩ := (hcompute _ _ hw).exists_eq
  simp only [hv', hw']
  rcases answer with e | (_ | value)
  · exact ⟨rfl, htrail⟩
  · exact ⟨rfl, htrail⟩
  simp only
  cases c.keys.keyForResult o.keyspace value with
  | error e => exact tallies_refuse htrail e
  | ok key => exact ⟨rfl, trail_deleteAll_over htrail [key]⟩

theorem invalidateManyByResult_over {compute : Computation (Observed σ) υ ε (List (Option τ))}
    (hcompute : compute.Blind) (hw : v.trail = w.trail) :
    Tallies ((c.onto S).invalidateManyByResult o compute v)
      ((c.onto T).invalidateManyByResult o compute w) := by
  have hconfig : (c.onto S).config = c.config ∧ (c.onto T).config = c.config := ⟨rfl, rfl⟩
  have hkeys : (c.onto S).keys = c.keys ∧ (c.onto T).keys = c.keys := ⟨rfl, rfl⟩
  have hkind : (c.onto S).checkResultKind τ = c.checkResultKind τ ∧
    (c.onto T).checkResultKind τ = c.checkResultKind τ := ⟨rfl, rfl⟩
  simp only [invalidateManyByResult, hconfig, hkeys, hkind]
  split
  · exact hcompute.direct hw
  rcases o.validate with e | u
  · exact tallies_refuse hw e
  rcases c.checkResultKind τ with e | u
  · exact tallies_refuse hw e
  obtain ⟨answer, v', w', hv', hw', htrail⟩ := (hcompute _ _ hw).exists_eq
  simp only [hv', hw']
  rcases answer with e | results
  · exact ⟨rfl, htrail⟩
  simp only
  cases (results.filterMap id).mapM (c.keys.keyForResult o.keyspace) with
  | error e => exact tallies_refuse htrail e
  | ok keys => exact ⟨rfl, trail_deleteAll_over htrail keys.eraseDups⟩

/-- Whether the entries were there may differ, and nothing else. -/
theorem invalidate_over {x : κ} (hw : v.trail = w.trail) :
    ((c.onto S).invalidate o x v).1.map (fun _ => ()) =
        ((c.onto T).invalidate o x w).1.map (fun _ => ()) ∧
      ((c.onto S).invalidate o x v).2.trail = ((c.onto T).invalidate o x w).2.trail := by
  have hconfig : (c.onto S).config = c.config ∧ (c.onto T).config = c.config := ⟨rfl, rfl⟩
  have hkeys : (c.onto S).keys = c.keys ∧ (c.onto T).keys = c.keys := ⟨rfl, rfl⟩
  simp only [invalidate, hconfig, hkeys]
  split
  · exact ⟨rfl, hw⟩
  rcases o.validate with e | u
  · exact ⟨rfl, hw⟩
  cases c.keys.keyFor o.keyspace x with
  | error e => exact ⟨rfl, hw⟩
  | ok key => exact ⟨rfl, trail_deleteAll_over hw [key]⟩

theorem invalidateMany_over {xs : List κ} (hw : v.trail = w.trail) :
    ((c.onto S).invalidateMany o xs v).1.map (fun _ => ()) =
        ((c.onto T).invalidateMany o xs w).1.map (fun _ => ()) ∧
      ((c.onto S).invalidateMany o xs v).2.trail = ((c.onto T).invalidateMany o xs w).2.trail := by
  have hconfig : (c.onto S).config = c.config ∧ (c.onto T).config = c.config := ⟨rfl, rfl⟩
  have hkeys : (c.onto S).keysFor o.keyspace xs = c.keysFor o.keyspace xs ∧
    (c.onto T).keysFor o.keyspace xs = c.keysFor o.keyspace xs := ⟨rfl, rfl⟩
  simp only [invalidateMany, hconfig, hkeys]
  split
  · exact ⟨rfl, hw⟩
  rcases o.validate with e | u
  · exact ⟨rfl, hw⟩
  cases c.keysFor o.keyspace xs with
  | error e => exact ⟨rfl, hw⟩
  | ok keys => exact ⟨rfl, trail_deleteAll_over hw keys.eraseDups⟩

end Cache

/-! ## Requests -/

/-- What is asked of the store at the start of a read. -/
inductive Query where
  | one (key : Key)
  | many (keys : List Key)

namespace Query

variable {σ : Type}

def keys : Query → List Key
  | one key => [key]
  | many keys => keys

/-- Whether the answer is a failure. -/
def fails (store : Store σ) (s : Scene σ) : Query → Bool
  | one key => !(store.get key s).1.isOk
  | many keys => !(store.getMany keys s).1.isOk

/-- What the answer has for a key. -/
def found (store : Store σ) (s : Scene σ) : Query → Key → Option Bytes
  | one _, key => (store.get key s).1.toOption.join
  | many keys, key => (store.getMany keys s).1.toOption.bind (·.find? key)

theorem found_many (store : Store σ) (s : Scene σ) (keys : List Key) (key : Key) :
    (many keys).found store s key = (Cache.bulkTable store keys s).find? key := by
  simp only [found, Cache.bulkTable]
  cases (store.getMany keys s).1 <;> rfl

end Query

namespace Request

variable {σ υ ε ρ : Type} {κ τ : Kind}

/-- What a request asks the store for, if it comes to that. -/
def query? (c : Cache σ) : Request σ υ ε ρ κ τ → Option Query
  | .read o x _ =>
    if c.config.disabled || o.keysFromResults || o.bypass then none
    else (c.keys.keyFor o.keyspace x).toOption.map .one
  | .readMany o xs _ =>
    if c.config.disabled || xs.isEmpty || o.keysFromResults && !c.registry.isRegistered τ ||
      o.bypass then none
    else (c.keysFor o.keyspace xs.eraseDups).toOption.map fun keys => .many keys.eraseDups
  | _ => none

/-- Whether the read of a request fails. -/
def readFails (c : Cache σ) (r : Request σ υ ε ρ κ τ) (s : Scene σ) : Bool :=
  (r.query? c).any (·.fails c.store s)

/-- The data source of a request cannot tell the store. -/
def Blind : Request (Observed σ) υ ε ρ κ τ → Prop
  | .read _ _ compute | .write _ _ compute | .writeByResult _ compute
  | .invalidateByResult _ compute => compute.Blind
  | .readMany _ _ source => ∀ asked, (source asked).Blind
  | .writeMany _ _ compute | .writeManyByResult _ compute
  | .invalidateManyByResult _ compute => compute.Blind
  | .invalidateAround _ _ _ compute | .invalidateManyAround _ _ _ compute => compute.Blind
  | .invalidate .. | .invalidateMany .. => True

variable {c : Cache (Observed σ)} {S T : Store σ} {v w : World (Observed σ) υ}

theorem wrap_over {α : Type} {form : α → Reply ρ τ} {f g : Outcome (Observed σ) υ ε α}
    (h : Tallies (f v) (g w)) :
    (wrap form f v).1.map Reply.blurred = (wrap form g w).1.map Reply.blurred ∧
      (wrap form f v).2.trail = (wrap form g w).2.trail := by
  rw [wrap_eq, wrap_eq, h.result]
  exact ⟨rfl, h.trail⟩

theorem wrapRefusal_over {α : Type} {form : α → Reply ρ τ}
    {f g : World (Observed σ) υ → Except CacheError α × World (Observed σ) υ}
    (hform : ∀ a b, (form a).blurred = (form b).blurred)
    (h : (f v).1.map (fun _ => ()) = (g w).1.map (fun _ => ()) ∧ (f v).2.trail = (g w).2.trail) :
    ((wrapRefusal form f v : Except (Failure ε) _ × _).1.map Reply.blurred =
        (wrapRefusal form g w : Except (Failure ε) _ × _).1.map Reply.blurred) ∧
      (wrapRefusal form f v : Except (Failure ε) _ × _).2.trail =
        (wrapRefusal form g w : Except (Failure ε) _ × _).2.trail := by
  unfold wrapRefusal
  generalize f v = p at h ⊢
  generalize g w = q at h ⊢
  obtain ⟨answer, v'⟩ := p
  obtain ⟨answer', w'⟩ := q
  obtain ⟨hanswer, htrail⟩ := h
  cases answer with
  | ok a =>
      cases answer' with
      | ok b => exact ⟨congrArg Except.ok (hform a b), htrail⟩
      | error e => cases hanswer
  | error e =>
      cases answer' with
      | ok b => cases hanswer
      | error e' =>
          obtain rfl : e = e' := Except.error.inj hanswer
          exact ⟨rfl, htrail⟩

/-- If what is read is the same, the results are, but for what invalidations say about the store. -/
theorem run_over (r : Request (Observed σ) υ ε ρ κ τ) (hblind : r.Blind)
    (hw : v.trail = w.trail) (hfound : ∀ q, r.query? c = some q → ∀ key ∈ q.keys,
      q.found S.observed v.scene key = q.found T.observed w.scene key) :
    (r.run (c.onto S) v).1.map Reply.blurred = (r.run (c.onto T) w).1.map Reply.blurred ∧
      (r.run (c.onto S) v).2.trail = (r.run (c.onto T) w).2.trail := by
  cases r with
  | read o x compute =>
      refine wrap_over (Cache.read_over hblind hw fun key hkey henabled hmode hbypass => ?_)
      exact hfound (.one key) (by simp [query?, henabled, hmode, hbypass, hkey, Except.toOption])
        key List.mem_cons_self
  | readMany o xs source =>
      refine wrap_over (Cache.readMany_over hblind hw
        fun keys hkeys henabled hne hregistered hbypass key hkey => ?_)
      have hkind : (o.keysFromResults && !c.registry.isRegistered τ) = false := by
        cases hmode : o.keysFromResults with
        | true => simp [hregistered hmode]
        | false => rfl
      have hquery : (readMany o xs source : Request _ _ _ ρ _ _).query? c =
          some (.many keys.eraseDups) := by
        simp [query?, henabled, hne, hkind, hbypass, hkeys, Except.toOption]
      have hanswers := hfound _ hquery key hkey
      rwa [Query.found_many, Query.found_many] at hanswers
  | write o x compute => exact wrap_over (Cache.write_over hblind hw)
  | writeMany o xs compute => exact wrap_over (Cache.writeMany_over hblind hw)
  | writeByResult o compute => exact wrap_over (Cache.writeByResult_over hblind hw)
  | writeManyByResult o compute => exact wrap_over (Cache.writeManyByResult_over hblind hw)
  | invalidateAround o x timing compute =>
      exact wrap_over (Cache.invalidateAround_over hblind hw)
  | invalidateManyAround o xs timing compute =>
      exact wrap_over (Cache.invalidateManyAround_over hblind hw)
  | invalidateByResult o compute => exact wrap_over (Cache.invalidateByResult_over hblind hw)
  | invalidateManyByResult o compute =>
      exact wrap_over (Cache.invalidateManyByResult_over hblind hw)
  | invalidate o x => exact wrapRefusal_over (fun _ _ => rfl) (Cache.invalidate_over hw)
  | invalidateMany o xs => exact wrapRefusal_over (fun _ _ => rfl) (Cache.invalidateMany_over hw)

end Request

end CacheAside

import CacheAside.Batch
import CacheAside.Cache.Rows

/-!
# Reading through the cache

`read` answers for one key object and `readMany` for a list of them. What the store does not answer is
asked of the data source, and its answer is written back. A read that fails counts as a miss.
-/

namespace CacheAside

namespace Cache

variable {σ υ ε : Type} {κ τ : Kind}

/-! ## One key -/

/-- What the store says about a key. -/
inductive Lookup (τ : Kind) where
  | hit (entry : Entry τ)
  /-- No entry. There may be bytes that an answer has to overwrite even if it has no value. -/
  | miss (stale : Bool)

/-- Looks a key up, unless the options say not to. -/
def lookup (c : Cache σ) (o : Options) (τ : Kind) (key : Key) (w : World σ υ) :
    Lookup τ × World σ υ :=
  if o.bypass then (.miss true, w)
  else
    match w.call (c.store.get key) with
    | (.ok (some bytes), w) =>
      match c.decode τ key bytes w with
      | (some entry, w) => (.hit entry, (w.log (.hit key entry.isNull)).count (Stats.addHits 1))
      | (none, w) => (.miss true, w)
    | (.ok none, w) => (.miss false, w)
    | (.error e, w) => (.miss false, (w.log (.getFailed key e)).count Stats.addStoreError)

/-- Writes a value, or that there is none, under a key. -/
def storeValue (c : Cache σ) (o : Options) (key : Key) (v : Option τ) (mode : WriteMode)
    (w : World σ υ) : World σ υ :=
  match c.encode key v w with
  | (some bytes, w) => c.writeBack o [⟨key, bytes, mode⟩] w
  | (none, w) => w

/-- The value of a key object. A value goes over whatever is stored; that there is none is written
only where nothing is, or where what is there is no entry. -/
def read (c : Cache σ) (o : Options) (x : κ) (compute : Computation σ υ ε (Option τ)) :
    Outcome σ υ ε (Option τ) := fun w =>
  if c.config.disabled then compute.direct w
  else
    match o.validate with
    | .error e => refuse e w
    | .ok () =>
      if o.keysFromResults then
        refuse (.incompatible "generate_keys_from_result" "single-key read_through") w
      else
        match c.keys.keyFor o.keyspace x with
        | .error e => refuse e w
        | .ok key =>
          match c.lookup o τ key w with
          | (.hit entry, w) => (.ok entry.toOption, w)
          | (.miss stale, w) =>
            match compute (w.count (Stats.addMisses 1)) with
            | (.error e, w) => (.error (.source e), w)
            | (.ok v, w) =>
              (.ok v,
                c.storeValue o key v (if v.isSome || stale then .overwrite else .ifAbsent) w)

/-! ## Many keys -/

/-- Takes entries of the store into a batch, in turn. Keys that nobody asked for are passed over. -/
def absorb (c : Cache σ) : List (Key × Bytes) → Batch κ τ → World σ υ → Batch κ τ × World σ υ
  | [], b, w => (b, w)
  | (key, bytes) :: found, b, w =>
    if b.owns key then
      match c.decode τ key bytes w with
      | (some entry, w) => absorb c found (b.resolve key entry) w
      | (none, w) => absorb c found (b.markUnreadable key) w
    else absorb c found b w

/-- Asks the store for all keys of a batch at once, unless the options say not to. -/
def fetch (c : Cache σ) (o : Options) (b : Batch κ τ) (w : World σ υ) : Batch κ τ × World σ υ :=
  if o.bypass then (b, w.log (.bypassed o.keyspace))
  else
    match w.call (c.store.getMany b.distinctKeys) with
    | (.ok found, w) => c.absorb found.entries b w
    | (.error e, w) =>
      (b, (w.log (.bulkGetFailed o.keyspace b.distinctKeys.length e)).count Stats.addStoreError)

/-- The write that says that a key has no value. It goes over what is stored only if that was not
read, or is no entry. -/
def nullWrite (c : Cache σ) (o : Options) (b : Batch κ τ) (key : Key) (w : World σ υ) :
    List PendingWrite × World σ υ :=
  if o.addNulls then
    let (bytes, w) := c.encode key (none : Option τ) w
    let mode := if o.bypass || b.isUnreadable key then .overwrite else .ifAbsent
    (bytes.toList.map fun bs => ⟨key, bs, mode⟩, w)
  else ([], w)

/-- The write for a key and its value. -/
def valueWrite (c : Cache σ) (o : Options) (b : Batch κ τ) (key : Key) (v : Option τ)
    (w : World σ υ) : List PendingWrite × World σ υ :=
  match v with
  | some v =>
    let (bytes, w) := c.encode key (some v) w
    (bytes.toList.map fun bs => ⟨key, bs, .overwrite⟩, w)
  | none => c.nullWrite o b key w

/-- The writes for keys and their values, in turn. -/
def valueWrites (c : Cache σ) (o : Options) (b : Batch κ τ) :
    List (Key × Option τ) → World σ υ → List PendingWrite × World σ υ
  | [], w => ([], w)
  | (key, v) :: rest, w =>
    let (write, w) := c.valueWrite o b key v w
    let (writes, w) := valueWrites c o b rest w
    (write ++ writes, w)

/-- Aligns results with the missed keys by position. -/
def alignByPosition (c : Cache σ) (o : Options) (b : Batch κ τ) (results : List (Option τ))
    (w : World σ υ) : Except CacheError (List PendingWrite × Batch κ τ) × World σ υ :=
  let missed := b.missed.map (·.1)
  if results.length = missed.length then
    let pairs := missed.zip results
    let (writes, w) := c.valueWrites o b pairs w
    (.ok (writes, b.resolveAll (pairs.map fun (key, v) => (key, Entry.ofOption v))), w)
  else (.error (.reconciliation (.lengthMismatch missed.length results.length)), w)

/-- Aligns results with the missed keys by the keys of the results. A result for another key is
cached only; a missed key without a result has no value. -/
def alignByKey (c : Cache σ) (o : Options) (b : Batch κ τ) (results : List (Option τ))
    (w : World σ υ) : Except CacheError (List PendingWrite × Batch κ τ) × World σ υ :=
  let missed := b.missed.map (·.1)
  let note (key : Key) (w : World σ υ) : World σ υ :=
    if key ∈ missed then w else w.log (.unmatchedResult key)
  match c.collectRows o.keyspace note (results.filterMap id) {} w with
  | (.error e, w) => (.error (.config e), w)
  | (.ok found, w) =>
    let matching := found.rows.filter fun row => decide (row.1 ∈ missed)
    let b := b.resolveAll (matching.map fun (key, v) => (key, Entry.value v))
    let empty := missed.filter fun key => !b.isResolved key
    let (nulls, w) := c.valueWrites o b (empty.map fun key => (key, none)) w
    (.ok (found.writes ++ nulls, b.resolveAll (empty.map fun key => (key, Entry.null))), w)

/-- Ends a batch whose keys all have an entry. -/
def finish (o : Options) (b : Batch κ τ) : Outcome σ υ ε (List (Option τ)) := fun w =>
  match b.assemble o.skipNulls with
  | .ok values => (.ok values, w)
  | .error e => (.error (.refused (.reconciliation e)), w)

/-- The values of key objects, in their order. The data source is asked once, for the keys that the
store does not answer, and not at all if there are none. -/
def readMany (c : Cache σ) (o : Options) (objects : List κ)
    (source : List κ → Computation σ υ ε (List (Option τ))) :
    Outcome σ υ ε (List (Option τ)) := fun w =>
  if objects = [] then (.ok [], w)
  else if c.config.disabled then Computation.direct (source objects) w
  else
    match o.validate with
    | .error e => refuse e w
    | .ok () =>
      match (if o.keysFromResults then c.checkResultKind τ else .ok ()) with
      | .error e => refuse e w
      | .ok () =>
        match (Batch.build c.keys o.keyspace objects : Except ConfigError (Batch κ τ)) with
        | .error e => refuse e w
        | .ok b =>
          let (b, w) := c.fetch o b w
          let missed := b.missed
          let w := w.count (Stats.addHits (b.distinctKeys.length - missed.length))
          let w := w.count (Stats.addMisses missed.length)
          if missed = [] then finish o b w
          else
            match source (missed.map (·.2)) w with
            | (.error e, w) => (.error (.source e), w)
            | (.ok results, w) =>
              let align := if o.keysFromResults then c.alignByKey o b else c.alignByPosition o b
              match align results w with
              | (.error e, w) => (.error (.refused e), w)
              | (.ok (writes, b), w) => finish o b (c.writeBack o writes w)

end Cache

end CacheAside

import CacheAside.Cache.Read

/-!
# Writing through the cache

The data source makes the authoritative write first; what it answers is then cached, under the keys of
key objects or of the results themselves. The answer is returned as it is.
-/

namespace CacheAside

namespace Cache

variable {σ υ ε : Type} {κ τ : Kind}

/-! ## One key -/

/-- Caches a result under the key of an object; a result without a value goes over what is stored,
too. -/
def write (c : Cache σ) (o : Options) (x : κ) (compute : Computation σ υ ε (Option τ)) :
    Outcome σ υ ε (Option τ) := fun w =>
  if c.config.disabled then compute.direct w
  else
    match o.validate with
    | .error e => refuse e w
    | .ok () =>
      match c.keys.keyFor o.keyspace x with
      | .error e => refuse e w
      | .ok key =>
        match compute w with
        | (.error e, w) => (.error (.source e), w)
        | (.ok v, w) => (.ok v, c.storeValue o key v .overwrite w)

/-- Caches a result under its own key. Without a value there is no key. -/
def writeByResult (c : Cache σ) (o : Options) (compute : Computation σ υ ε (Option τ)) :
    Outcome σ υ ε (Option τ) := fun w =>
  if c.config.disabled then compute.direct w
  else
    match o.validate with
    | .error e => refuse e w
    | .ok () =>
      match c.checkResultKind τ with
      | .error e => refuse e w
      | .ok () =>
        match compute w with
        | (.error e, w) => (.error (.source e), w)
        | (.ok none, w) => (.ok none, w)
        | (.ok (some v), w) =>
          match c.keys.keyForResult o.keyspace v with
          | .error e => refuse e w
          | .ok key => (.ok (some v), c.storeValue o key (some v) .overwrite w)

/-! ## Many keys -/

/-- The writes for keys and their values, for each key the first. -/
def firstWrites (c : Cache σ) (o : Options) :
    List (Key × Option τ) → List Key → World σ υ → List PendingWrite × World σ υ
  | [], _, w => ([], w)
  | (key, v) :: rest, seen, w =>
    if key ∈ seen then firstWrites c o rest seen w
    else if v.isNone && !o.addNulls then
      firstWrites c o rest (key :: seen) (w.log (.nullSkipped key))
    else
      let (bytes, w) := c.encode key v w
      let (writes, w) := firstWrites c o rest (key :: seen) w
      (bytes.toList.map (fun bs => ⟨key, bs, .overwrite⟩) ++ writes, w)

/-- Caches results under the keys of objects, position by position. -/
def writeMany (c : Cache σ) (o : Options) (objects : List κ)
    (compute : Computation σ υ ε (List (Option τ))) : Outcome σ υ ε (List (Option τ)) := fun w =>
  if c.config.disabled then compute.direct w
  else
    match o.validate with
    | .error e => refuse e w
    | .ok () =>
      match c.keysFor o.keyspace objects with
      | .error e => refuse e w
      | .ok keys =>
        match compute w with
        | (.error e, w) => (.error (.source e), w)
        | (.ok results, w) =>
          if results.length = keys.length then
            let (writes, w) := c.firstWrites o (keys.zip results) [] w
            (.ok results, c.writeBack o writes w)
          else
            (.error (.refused (.reconciliation (.lengthMismatch keys.length results.length))), w)

/-- Caches results under their own keys. Those without a value are passed over. -/
def writeManyByResult (c : Cache σ) (o : Options)
    (compute : Computation σ υ ε (List (Option τ))) : Outcome σ υ ε (List (Option τ)) := fun w =>
  if c.config.disabled then compute.direct w
  else
    match o.validate with
    | .error e => refuse e w
    | .ok () =>
      match c.checkResultKind τ with
      | .error e => refuse e w
      | .ok () =>
        match compute w with
        | (.error e, w) => (.error (.source e), w)
        | (.ok results, w) =>
          match c.collectRows o.keyspace (fun _ w => w) (results.filterMap id) {} w with
          | (.error e, w) => refuse e w
          | (.ok found, w) => (.ok results, c.writeBack o found.writes w)

end Cache

end CacheAside

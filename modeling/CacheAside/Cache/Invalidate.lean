import CacheAside.Cache

/-!
# Invalidating

Deleting the keys of objects or of results, alone or together with a computation. Each different key
is deleted once, in the order of first appearance.
-/

namespace CacheAside

namespace Cache

variable {σ υ ε α : Type} {κ τ : Kind}

/-- Runs a computation and deletes keys before it, or after it if it succeeds. -/
def around (c : Cache σ) (timing : Timing) (keys : List Key) (compute : Computation σ υ ε α) :
    Outcome σ υ ε α := fun w =>
  match timing with
  | .before => compute.direct (c.deleteAll keys w).2
  | .after =>
    match compute.direct w with
    | (.ok a, w) => (.ok a, (c.deleteAll keys w).2)
    | (.error e, w) => (.error e, w)

/-! ## One key -/

/-- Deletes the key of an object, and says whether it was there. -/
def invalidate (c : Cache σ) (o : Options) (x : κ) (w : World σ υ) :
    Except CacheError Bool × World σ υ :=
  if c.config.disabled then (.ok false, w)
  else
    match o.validate with
    | .error e => (.error (.config e), w)
    | .ok () =>
      match c.keys.keyFor o.keyspace x with
      | .error e => (.error (.config e), w)
      | .ok key =>
        let (count, w) := c.deleteAll [key] w
        (.ok (decide (0 < count)), w)

/-- Runs a computation and deletes the key of an object. -/
def invalidateAround (c : Cache σ) (o : Options) (x : κ) (timing : Timing)
    (compute : Computation σ υ ε α) : Outcome σ υ ε α := fun w =>
  if c.config.disabled then compute.direct w
  else
    match o.validate with
    | .error e => refuse e w
    | .ok () =>
      match c.keys.keyFor o.keyspace x with
      | .error e => refuse e w
      | .ok key => c.around timing [key] compute w

/-- Runs a computation and deletes the key of its result. Without a value there is no key. -/
def invalidateByResult (c : Cache σ) (o : Options) (compute : Computation σ υ ε (Option τ)) :
    Outcome σ υ ε (Option τ) := fun w =>
  if c.config.disabled then compute.direct w
  else
    match o.validate with
    | .error e => refuse e w
    | .ok () =>
      match c.checkResultKind τ with
      | .error e => refuse e w
      | .ok () =>
        match compute w with
        | (.error e, w) => (.error (.source e), w)
        | (.ok none, w) => (.ok none, w)
        | (.ok (some v), w) =>
          match c.keys.keyForResult o.keyspace v with
          | .error e => refuse e w
          | .ok key => (.ok (some v), (c.deleteAll [key] w).2)

/-! ## Many keys -/

/-- Deletes the keys of objects, and counts those that were there. -/
def invalidateMany (c : Cache σ) (o : Options) (objects : List κ) (w : World σ υ) :
    Except CacheError Nat × World σ υ :=
  if c.config.disabled then (.ok 0, w)
  else
    match o.validate with
    | .error e => (.error (.config e), w)
    | .ok () =>
      match c.keysFor o.keyspace objects with
      | .error e => (.error (.config e), w)
      | .ok keys =>
        let (count, w) := c.deleteAll keys.eraseDups w
        (.ok count, w)

/-- Runs a computation and deletes the keys of objects. -/
def invalidateManyAround (c : Cache σ) (o : Options) (objects : List κ) (timing : Timing)
    (compute : Computation σ υ ε α) : Outcome σ υ ε α := fun w =>
  if c.config.disabled then compute.direct w
  else
    match o.validate with
    | .error e => refuse e w
    | .ok () =>
      match c.keysFor o.keyspace objects with
      | .error e => refuse e w
      | .ok keys => c.around timing keys.eraseDups compute w

/-- Runs a computation and deletes the keys of its results. -/
def invalidateManyByResult (c : Cache σ) (o : Options)
    (compute : Computation σ υ ε (List (Option τ))) : Outcome σ υ ε (List (Option τ)) := fun w =>
  if c.config.disabled then compute.direct w
  else
    match o.validate with
    | .error e => refuse e w
    | .ok () =>
      match c.checkResultKind τ with
      | .error e => refuse e w
      | .ok () =>
        match compute w with
        | (.error e, w) => (.error (.source e), w)
        | (.ok results, w) =>
          match (results.filterMap id).mapM (c.keys.keyForResult o.keyspace) with
          | .error e => refuse e w
          | .ok keys => (.ok results, (c.deleteAll keys.eraseDups w).2)

end Cache

end CacheAside

import CacheAside.Cache

/-!
# Results that carry their own keys

A data source that answers with rows in an order of its own: each row has the key that its identity
gives. Of several rows with one key the first counts.
-/

namespace CacheAside

/-- The first row of each key, in their order, and the writes for those that have bytes. -/
structure Rows (τ : Kind) where
  rows : List (Key × τ) := []
  writes : List PendingWrite := []

namespace Rows

variable {τ : Kind}

def keys (r : Rows τ) : List Key := r.rows.map (·.1)

/-- Adds a row with a new key. -/
def add (r : Rows τ) (key : Key) (v : τ) (bytes : Option Bytes) : Rows τ where
  rows := r.rows ++ [(key, v)]
  writes := r.writes ++ bytes.toList.map fun bs => ⟨key, bs, .overwrite⟩

end Rows

namespace Cache

variable {σ υ : Type} {τ : Kind}

/-- Collects rows on top of those already collected, until one has no valid key. Each new key is
noted. -/
def collectRows (c : Cache σ) (keyspace : String) (note : Key → World σ υ → World σ υ) :
    List τ → Rows τ → World σ υ → Except ConfigError (Rows τ) × World σ υ
  | [], done, w => (.ok done, w)
  | v :: vs, done, w =>
    match c.keys.keyForResult keyspace v with
    | .error e => (.error e, w)
    | .ok key =>
      if key ∈ done.keys then collectRows c keyspace note vs done w
      else
        let (bytes, w) := c.encode key (some v) w
        collectRows c keyspace note vs (done.add key v bytes) (note key w)

end Cache

end CacheAside

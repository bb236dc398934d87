import CacheAside.Options
import CacheAside.Stats
import CacheAside.Store

/-!
# The world of a call

What calls and data sources act on: the scene of the store, the statistics, the writes that earlier
calls have left behind, and whatever else the data sources keep for themselves.
-/

namespace CacheAside

/-- How a write treats an entry that is already there. -/
inductive WriteMode where
  | overwrite
  | ifAbsent
  deriving DecidableEq

/-- A write that a call wants to have made. -/
structure PendingWrite where
  key : Key
  bytes : Bytes
  mode : WriteMode
  deriving DecidableEq

/-- The writes of one call, and the lifetime to write them with. -/
structure Job where
  writes : List PendingWrite
  ttl : UInt32
  deriving DecidableEq

structure World (σ υ : Type) where
  scene : Scene σ
  stats : Stats := {}
  /-- Jobs that calls have left behind, in order. -/
  pending : List Job := []
  /-- Whether there is something that runs such jobs later. -/
  executor : Bool := true
  /-- What the data sources keep for themselves. -/
  outside : υ

/-- What is asked of a data source. It may act on the world, and may fail with an error of its own. -/
abbrev Computation (σ υ ε α : Type) := World σ υ → Except ε α × World σ υ

namespace World

variable {σ υ α : Type}

def log (w : World σ υ) (e : Event) : World σ υ := { w with scene := w.scene.log e }

/-- Changes the statistics. -/
def count (w : World σ υ) (change : Stats → Stats) : World σ υ :=
  { w with stats := change w.stats }

/-- Makes a store call. -/
def call (w : World σ υ) (c : Call σ α) : Except StoreError α × World σ υ :=
  let (answer, scene) := c w.scene
  (answer, { w with scene })

end World

end CacheAside

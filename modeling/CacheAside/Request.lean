import CacheAside.Cache.Invalidate
import CacheAside.Cache.Write

/-!
# Requests

The calls that a cache takes, as values, so that a session is a list of them.
-/

namespace CacheAside

/-- A call for key objects of kind `κ` and results of kind `τ`; the computations that merely go along
with an invalidation have results of type `ρ`. -/
inductive Request (σ υ ε ρ : Type) (κ τ : Kind) where
  | read (o : Options) (x : κ) (compute : Computation σ υ ε (Option τ))
  | readMany (o : Options) (xs : List κ)
      (source : List κ → Computation σ υ ε (List (Option τ)))
  | write (o : Options) (x : κ) (compute : Computation σ υ ε (Option τ))
  | writeMany (o : Options) (xs : List κ) (compute : Computation σ υ ε (List (Option τ)))
  | writeByResult (o : Options) (compute : Computation σ υ ε (Option τ))
  | writeManyByResult (o : Options) (compute : Computation σ υ ε (List (Option τ)))
  | invalidate (o : Options) (x : κ)
  | invalidateMany (o : Options) (xs : List κ)
  | invalidateAround (o : Options) (x : κ) (timing : Timing) (compute : Computation σ υ ε ρ)
  | invalidateManyAround (o : Options) (xs : List κ) (timing : Timing)
      (compute : Computation σ υ ε ρ)
  | invalidateByResult (o : Options) (compute : Computation σ υ ε (Option τ))
  | invalidateManyByResult (o : Options) (compute : Computation σ υ ε (List (Option τ)))

/-- What a call answers. -/
inductive Reply (ρ : Type) (τ : Kind) where
  | value (v : Option τ)
  | values (vs : List (Option τ))
  | other (r : ρ)
  | flag (b : Bool)
  | count (n : Nat)

namespace Request

variable {σ υ ε ρ α β : Type} {κ τ : Kind}

/-- An outcome with its result put into another form. -/
def wrap (form : α → β) (outcome : Outcome σ υ ε α) : Outcome σ υ ε β := fun w =>
  match outcome w with
  | (.ok a, w) => (.ok (form a), w)
  | (.error e, w) => (.error e, w)

/-- As `wrap`, for calls that have no data source. -/
def wrapRefusal (form : α → β) (call : World σ υ → Except CacheError α × World σ υ) :
    Outcome σ υ ε β := fun w =>
  match call w with
  | (.ok a, w) => (.ok (form a), w)
  | (.error e, w) => (.error (.refused e), w)

/-- Makes a call. -/
def run (c : Cache σ) : Request σ υ ε ρ κ τ → Outcome σ υ ε (Reply ρ τ)
  | .read o x compute => wrap .value (c.read o x compute)
  | .readMany o xs source => wrap .values (c.readMany o xs source)
  | .write o x compute => wrap .value (c.write o x compute)
  | .writeMany o xs compute => wrap .values (c.writeMany o xs compute)
  | .writeByResult o compute => wrap .value (c.writeByResult o compute)
  | .writeManyByResult o compute => wrap .values (c.writeManyByResult o compute)
  | .invalidate o x => wrapRefusal .flag (c.invalidate o x)
  | .invalidateMany o xs => wrapRefusal .count (c.invalidateMany o xs)
  | .invalidateAround o x timing compute => wrap .other (c.invalidateAround o x timing compute)
  | .invalidateManyAround o xs timing compute =>
    wrap .other (c.invalidateManyAround o xs timing compute)
  | .invalidateByResult o compute => wrap .value (c.invalidateByResult o compute)
  | .invalidateManyByResult o compute => wrap .values (c.invalidateManyByResult o compute)

end Request

end CacheAside

import CacheAside.Key

/-!
# Compound identities

An identity made of several ordered parts, each of which may stand in a key by itself.
-/

namespace CacheAside

/-- Ordered identity parts, joined with a slash when written. -/
structure CompoundId where
  parts : List String
  ne_nil : parts ≠ []
  checked : Key.checkIdentities parts = .ok ()
  deriving DecidableEq

namespace CompoundId

/-- Fails on an empty list, and on the first part that is no identity. -/
def ofParts (parts : List String) : Except ConfigError CompoundId :=
  if hn : parts = [] then .error (.missingRequired "composite key parts")
  else
    match hc : Key.checkIdentities parts with
    | .error e => .error e
    | .ok () => .ok ⟨parts, hn, hc⟩

def text (c : CompoundId) : String := Key.idSeparator.intercalate c.parts

/-- Compound identities are ordered part by part; a proper beginning comes first. -/
def before (a b : CompoundId) : Bool := decide (a.parts < b.parts)

end CompoundId

end CacheAside

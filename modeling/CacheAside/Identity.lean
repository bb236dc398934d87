import CacheAside.Kind
import CacheAside.Text.Decimal

/-!
# Identities

What stands for a value in its cache key. A registry holds at most one identity function per kind;
the first registration of a kind stays. Key objects of a kind that has none are identified by their
canonical text, results have no such fallback.
-/

namespace CacheAside

/-- How an identity is made from a canonical text. -/
inductive IdentityRule where
  | canonical
  | constant (s : String)
  | prefixed (s : String)
  /-- The first characters. -/
  | first (n : Nat)
  /-- The remainder of a division, never negative; texts that are no 64-bit integer stay. -/
  | modulo (n : Int64)
  deriving DecidableEq

def IdentityRule.apply : IdentityRule → String → String
  | .canonical, c => c
  | .constant s, _ => s
  | .prefixed s, c => s ++ c
  | .first n, c => String.ofList (c.toList.take n)
  | .modulo n, c =>
    match Decimal.parseInt64? c with
    | some m => toString (m.toInt % n.toInt)
    | none => c

/-- The identity function of a kind that a rule gives. -/
def IdentityRule.identity (r : IdentityRule) (k : Kind) (x : k) : String := r.apply (k.text x)

/-- Identity functions by kind, in the order of their registration. -/
structure Registry where
  entries : List ((k : Kind) × (k → String))

namespace Registry

def empty : Registry := ⟨[]⟩

def isRegistered (r : Registry) (k : Kind) : Bool := r.entries.any (·.1 == k)

/-- Registers an identity function unless the kind has one, and says whether it did. -/
def register (r : Registry) (k : Kind) (identity : k → String) : Bool × Registry :=
  if r.isRegistered k then (false, r) else (true, ⟨r.entries ++ [⟨k, identity⟩]⟩)

/-- The number of registered kinds. -/
def size (r : Registry) : Nat := r.entries.length

def isEmpty (r : Registry) : Bool := r.entries.isEmpty

/-- The registry in one line. -/
def summary (r : Registry) : String :=
  "IdentityRegistry \x7b registered_types: " ++ toString r.size ++ " \x7d"

def find? (k : Kind) : List ((k : Kind) × (k → String)) → Option (k → String)
  | [] => none
  | ⟨j, identity⟩ :: rest => if h : j = k then some (h ▸ identity) else find? k rest

/-- The identity that a registered function gives. -/
def lookup (r : Registry) {k : Kind} (x : k) : Option String := (find? k r.entries).map (· x)

/-- Refuses a blank identity. -/
def checkDerived (k : Kind) (id : String) : Except ConfigError String :=
  if isBlank id then
    .error (.invalidValue "identity" id ("identity derived from " ++ k.typeName ++ " is empty"))
  else .ok id

/-- The cause when results of a kind are to carry an identity and none is registered. -/
def unregistered (k : Kind) : ConfigError :=
  .missingRequired ("identity function for " ++ k.typeName)

/-- The identity of a key object. -/
def derive (r : Registry) {k : Kind} (x : k) : Except ConfigError String :=
  checkDerived k ((r.lookup x).getD (k.text x))

/-- The identity of a result. -/
def deriveRegistered (r : Registry) {k : Kind} (x : k) : Except ConfigError String :=
  match r.lookup x with
  | some id => checkDerived k id
  | none => .error (unregistered k)

end Registry

end CacheAside

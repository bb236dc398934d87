import CacheAside.Config.Folder
import CacheAside.Error
import CacheAside.Json.Record
import CacheAside.Key
import CacheAside.Toml.Document

/-!
# Configuration

What every call of a process shares. A configuration is built field by field, or read from a TOML
text, whose unknown keys are ignored and whose missing keys keep their defaults. One that is read
from TOML is also validated.
-/

namespace CacheAside

structure Config where
  /-- Go to the data source directly and leave the store alone. -/
  disabled : Bool := false
  /-- Seconds until entries expire, for calls that do not say; `0` is never. -/
  defaultTtl : UInt32 := 3600
  /-- The longest accepted key, in bytes. -/
  maxKeyLength : UInt64 := Key.defaultMaxLength
  /-- The deadline of each store call, in milliseconds. -/
  storeTimeoutMs : UInt64 := 500
  deriving DecidableEq

namespace Config

/-- Sets the deadline of store calls; one that is too long becomes the longest there is. -/
def withStoreTimeout (c : Config) (d : Duration) : Config :=
  { c with storeTimeoutMs := UInt64.ofNat (min d.millis 0xFFFFFFFFFFFFFFFF) }

/-- The deadline of store calls. -/
def storeTimeout (c : Config) : Duration := Duration.ofMillis c.storeTimeoutMs.toNat

/-- The shortest limit on keys that leaves room for a keyspace, the separator and an identity. -/
def leastKeyLength : UInt64 := 3

def validate (c : Config) : Except ConfigError Unit :=
  if c.maxKeyLength < leastKeyLength then
    .error (.invalidValue "max_key_length" (toString c.maxKeyLength.toNat)
      "max_key_length must be at least 3")
  else if c.storeTimeoutMs = 0 then
    .error (.invalidValue "store_timeout_ms" (toString c.storeTimeoutMs.toNat)
      "store_timeout_ms must be positive")
  else .ok ()

/-- The names of the fields in texts, in their order. -/
def memberNames : List String :=
  ["disabled", "default_ttl_seconds", "max_key_length", "store_timeout_ms"]

def toJson (c : Config) : Json :=
  .object
    [("disabled", .bool c.disabled),
      ("default_ttl_seconds", .number c.defaultTtl.toNat),
      ("max_key_length", .number c.maxKeyLength.toNat),
      ("store_timeout_ms", .number c.storeTimeoutMs.toNat)]

open Json Document in
/-- The configuration that a JSON document spells; it is not validated. -/
def ofDocument? (d : Document) : Option Config := do
  let fields ← d.fields? memberNames
  let disabled ← optional? fields "disabled" bool? false
  let defaultTtl ← optional? fields "default_ttl_seconds" word32? 3600
  let maxKeyLength ← optional? fields "max_key_length" word64? Key.defaultMaxLength
  let storeTimeoutMs ← optional? fields "store_timeout_ms" word64? 500
  return { disabled, defaultTtl, maxKeyLength, storeTimeoutMs }

/-! ## TOML -/

/-- A truth value of the root table, or the default if the key is missing. -/
def flag? (root : Toml.Members) (name : String) (default : Bool) : Option Bool :=
  match root.lookup name with
  | none => some default
  | some (.scalar (.boolean b)) => some b
  | _ => none

/-- An integer of the root table that is not negative and below a limit, or the default. -/
def natural? (root : Toml.Members) (name : String) (limit : Nat) (default : Nat) : Option Nat :=
  match root.lookup name with
  | none => some default
  | some (.scalar (.integer n)) => if 0 ≤ n ∧ n < limit then some n.toNat else none
  | _ => none

/-- The configuration in a root table. -/
def ofMembers? (root : Toml.Members) : Option Config := do
  let disabled ← flag? root "disabled" false
  let defaultTtl ← natural? root "default_ttl_seconds" UInt32.size 3600
  let maxKeyLength ← natural? root "max_key_length" UInt64.size Key.defaultMaxLength.toNat
  let storeTimeoutMs ← natural? root "store_timeout_ms" UInt64.size 500
  return {
    disabled
    defaultTtl := UInt32.ofNat defaultTtl
    maxKeyLength := UInt64.ofNat maxKeyLength
    storeTimeoutMs := UInt64.ofNat storeTimeoutMs }

/-- The cause when a text is no configuration. -/
def malformed : ConfigError := .invalidValue "config" "" "not a configuration"

/-- The validated configuration in a TOML text. -/
def ofToml (source : String) : Except ConfigError Config :=
  match (Toml.parse? source).bind ofMembers? with
  | none => .error malformed
  | some c =>
    match c.validate with
    | .error e => .error e
    | .ok () => .ok c

/-- The validated configuration in a TOML file. -/
def load (folder : Folder) (path : String) : Except ConfigError Config :=
  match folder.read path with
  | .error e => .error (.invalidValue "config_path" path e.message)
  | .ok source => ofToml source

end Config

end CacheAside

import CacheAside.Error
import CacheAside.Json.Record
import CacheAside.Text.Blank

/-!
# Options of a call

What one call asks for: the keyspace of its keys and how it treats the cache. Options have a JSON
form with one member per option; all but the keyspace may be left out.
-/

namespace CacheAside

/-- When the writes of a call are made. -/
inductive WriteBack where
  /-- Before the call returns. -/
  | inline
  /-- Later, by a task that the call leaves behind. -/
  | detached
  deriving DecidableEq

/-- When an invalidation is made, relative to the computation it goes with. -/
inductive Timing where
  | before
  /-- After the computation, if that succeeds. -/
  | after
  deriving DecidableEq

namespace Json.Document

/-- The name of a choice, bare or as the only member of an object, with the value `null`. -/
def choice? : Document → Option String
  | .string ps => Quoted.resolve? ps
  | .object [(ps, .null)] => Quoted.resolve? ps
  | _ => none

end Json.Document

namespace WriteBack

def name : WriteBack → String
  | inline => "inline"
  | detached => "detached"

def ofName? (s : String) : Option WriteBack :=
  if s = "inline" then some inline else if s = "detached" then some detached else none

def ofDocument? (d : Json.Document) : Option WriteBack := d.choice?.bind ofName?

end WriteBack

namespace Timing

def ofName? (s : String) : Option Timing :=
  if s = "before" then some before else if s = "after" then some after else none

def ofDocument? (d : Json.Document) : Option Timing := d.choice?.bind ofName?

end Timing

/-- The options of a call. -/
structure Options where
  keyspace : String
  /-- Seconds until the entries expire: `0` is never, `none` the configured default. -/
  ttl : Option UInt32 := none
  /-- Keep results without a value, as null entries. -/
  addNulls : Bool := false
  /-- Leave results without a value out of a batch's output. -/
  skipNulls : Bool := false
  /-- Take keys from results instead of key objects. -/
  keysFromResults : Bool := false
  /-- Do not look into the cache before asking the source. -/
  bypass : Bool := false
  writeBack : WriteBack := .inline
  deriving DecidableEq

namespace Options

/-- The lifetime to write with. -/
def ttlOr (o : Options) (default : UInt32) : UInt32 := o.ttl.getD default

/-- What can be said against options before a key is built. -/
def validate (o : Options) : Except ConfigError Unit :=
  if isBlank o.keyspace then .error (.missingRequired "namespace") else .ok ()

/-- The members of the JSON form, in their order. -/
def memberNames : List String :=
  ["namespace", "ttl_seconds", "add_nulls_to_cache", "skip_nulls_in_result",
    "generate_keys_from_result", "read_directly_from_store", "write_back"]

def toJson (o : Options) : Json :=
  .object
    [("namespace", .string o.keyspace),
      ("ttl_seconds", match o.ttl with
        | some n => .number n.toNat
        | none => .null),
      ("add_nulls_to_cache", .bool o.addNulls),
      ("skip_nulls_in_result", .bool o.skipNulls),
      ("generate_keys_from_result", .bool o.keysFromResults),
      ("read_directly_from_store", .bool o.bypass),
      ("write_back", .string o.writeBack.name)]

open Json Document in
/-- The options that a document spells. -/
def ofDocument? (d : Document) : Option Options := do
  let fields ← d.fields? memberNames
  let keyspace ← required? fields "namespace" string?
  let ttl ← optional? fields "ttl_seconds" (option? word32?) none
  let addNulls ← optional? fields "add_nulls_to_cache" bool? false
  let skipNulls ← optional? fields "skip_nulls_in_result" bool? false
  let keysFromResults ← optional? fields "generate_keys_from_result" bool? false
  let bypass ← optional? fields "read_directly_from_store" bool? false
  let writeBack ← optional? fields "write_back" WriteBack.ofDocument? .inline
  return { keyspace, ttl, addNulls, skipNulls, keysFromResults, bypass, writeBack }

end Options

end CacheAside

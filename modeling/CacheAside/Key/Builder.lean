import CacheAside.Identity

/-!
# Building keys

Keys for key objects and for results, within a limit on their length. The identity is derived first,
then the key is built, and its length is checked last.
-/

namespace CacheAside

/-- What turns objects and results into keys. -/
structure KeyBuilder where
  registry : Registry
  maxLength : UInt64 := Key.defaultMaxLength

namespace KeyBuilder

/-- The key of the given identities, if it is not too long. -/
def build (b : KeyBuilder) (keyspace : String) (ids : List String) : Except ConfigError Key :=
  match Key.build keyspace ids with
  | .error e => .error e
  | .ok key =>
    if b.maxLength.toNat < key.byteSize then
      .error (.invalidValue "key" key.text
        ("key exceeds " ++ toString b.maxLength.toNat ++ " bytes"))
    else .ok key

/-- The key of a key object. -/
def keyFor (b : KeyBuilder) (keyspace : String) {k : Kind} (x : k) : Except ConfigError Key :=
  match b.registry.derive x with
  | .error e => .error e
  | .ok id => b.build keyspace [id]

/-- The key of a result, whose kind needs a registered identity. -/
def keyForResult (b : KeyBuilder) (keyspace : String) {k : Kind} (x : k) : Except ConfigError Key :=
  match b.registry.deriveRegistered x with
  | .error e => .error e
  | .ok id => b.build keyspace [id]

end KeyBuilder

end CacheAside

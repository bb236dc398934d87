import CacheAside.Entry
import CacheAside.Kind

/-!
# Codecs

A codec turns entries into the bytes that a store holds, and back.
-/

namespace CacheAside

structure Codec where
  encode : {k : Kind} → Entry k → Except CodecError Bytes
  decode : (k : Kind) → Bytes → Except CodecError (Entry k)

namespace Codec

/-- The bytes of an optional value: those of the null entry for `none`. -/
def encodeOption (c : Codec) {k : Kind} (o : Option k) : Except CodecError Bytes :=
  c.encode (Entry.ofOption o)

/-- The bytes of the JSON form of a value. -/
def encodeValue {k : Kind} (v : k) : Except CodecError Bytes :=
  match k.toJson v with
  | .ok j => .ok j.render
  | .error reason => .error (.encode reason)

/-- The value that a JSON text spells. -/
def decodeValue (k : Kind) (bs : Bytes) : Except CodecError k :=
  match Json.Document.parse? bs with
  | none => .error (.decode "no JSON text")
  | some d =>
    match k.read d with
    | .ok v => .ok v
    | .error _ => .error (.decode ("no value of " ++ k.typeName))

def encodeJson {k : Kind} : Entry k → Except CodecError Bytes
  | .value v => encodeValue v
  | .null => .ok sentinel

def decodeJson (k : Kind) (bs : Bytes) : Except CodecError (Entry k) :=
  if isSentinel bs then .ok .null
  else
    match decodeValue k bs with
    | .ok v => .ok (.value v)
    | .error e => .error e

/-- Values as JSON texts, the null entry as the sentinel. -/
def json : Codec := ⟨encodeJson, decodeJson⟩

/-- The first byte says what follows: `N` is the null entry, and what follows `V` is left to the
JSON codec. -/
def tagged : Codec where
  encode
    | .value v =>
      match json.encode (.value v) with
      | .ok bs => .ok (0x56 :: bs)
      | .error e => .error e
    | .null => .ok [0x4E]
  decode k
    | [0x4E] => .ok .null
    | 0x56 :: bs => json.decode k bs
    | _ => .error (.decode "no tag")

end Codec

end CacheAside

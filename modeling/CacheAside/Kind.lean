import CacheAside.Json.Equality
import CacheAside.Json.Record
import CacheAside.Key.Compound

/-!
# Kinds of values

The types whose values are key objects or pass through the cache. A kind stands for its type: `k` in
`x : k` is `Kind.Carrier k`. Each kind has a name, which messages show, a canonical text for each of
its values, and a JSON form.
-/

namespace CacheAside

/-- An article of a catalogue. -/
structure Item where
  sku : String
  price : UInt32
  deriving DecidableEq

inductive Kind where
  | word32
  | word64
  | int64
  | string
  /-- Borrowed text: as `string`, but another type to a registry. -/
  | slice
  | compound
  | item
  | optionalWord32
  | json
  /-- Signed numbers of which the negative ones cannot be stored. -/
  | fragile
  deriving DecidableEq

/-- Why a JSON document is no value of a kind. -/
inductive ReadError where
  | malformed
  /-- The document has the right form, but the value is refused. -/
  | refused (e : ConfigError)
  deriving DecidableEq

namespace Kind

abbrev Carrier : Kind → Type
  | word32 => UInt32
  | word64 => UInt64
  | int64 => Int64
  | string => String
  | slice => String
  | compound => CompoundId
  | item => Item
  | optionalWord32 => Option UInt32
  | json => Json
  | fragile => Int64

instance : CoeSort Kind Type := ⟨Carrier⟩

/-- Equality of values is that of their types. It says that values mean the same, so for JSON it is
coarser than identity. -/
instance (k : Kind) : BEq k :=
  match k with
  | word32 => inferInstanceAs (BEq UInt32)
  | word64 => inferInstanceAs (BEq UInt64)
  | int64 => inferInstanceAs (BEq Int64)
  | string => inferInstanceAs (BEq String)
  | slice => inferInstanceAs (BEq String)
  | compound => inferInstanceAs (BEq CompoundId)
  | item => inferInstanceAs (BEq Item)
  | optionalWord32 => inferInstanceAs (BEq (Option UInt32))
  | json => inferInstanceAs (BEq Json)
  | fragile => inferInstanceAs (BEq Int64)

instance (k : Kind) : EquivBEq k := by
  cases k with
  | json => exact inferInstanceAs (EquivBEq Json)
  | word32 => exact inferInstanceAs (EquivBEq UInt32)
  | word64 => exact inferInstanceAs (EquivBEq UInt64)
  | int64 => exact inferInstanceAs (EquivBEq Int64)
  | string => exact inferInstanceAs (EquivBEq String)
  | slice => exact inferInstanceAs (EquivBEq String)
  | compound => exact inferInstanceAs (EquivBEq CompoundId)
  | item => exact inferInstanceAs (EquivBEq Item)
  | optionalWord32 => exact inferInstanceAs (EquivBEq (Option UInt32))
  | fragile => exact inferInstanceAs (EquivBEq Int64)

/-- But for JSON, equal values are identical. -/
theorem eq_of_beq_of_ne {k : Kind} (hk : k ≠ .json) {x y : k} (h : (x == y) = true) : x = y := by
  cases k with
  | json => exact absurd rfl hk
  | word32 | word64 | int64 | string | slice | compound | item | optionalWord32 | fragile =>
      exact LawfulBEq.eq_of_beq h

/-- The name of the type as messages show it. -/
def typeName : Kind → String
  | word32 => "u32"
  | word64 => "u64"
  | int64 => "i64"
  | string => "alloc::string::String"
  | slice => "&str"
  | compound => "cachet_core::key::CompositeKey"
  | item => "driver::values::Item"
  | optionalWord32 => "core::option::Option<u32>"
  | json => "serde_json::value::Value"
  | fragile => "driver::values::Fragile"

/-- The canonical text of a value: what identifies it unless an identity rule says otherwise. -/
def text : (k : Kind) → k → String
  | word32, n => toString n.toNat
  | word64, n => toString n.toNat
  | int64, n => toString n.toInt
  | string, s => s
  | slice, s => s
  | compound, c => c.text
  | item, i => i.sku
  | optionalWord32, some n => toString n.toNat
  | optionalWord32, none => ""
  | json, v => v.text
  | fragile, n => toString n.toInt

/-- The JSON form of a value, or why it has none. -/
def toJson : (k : Kind) → k → Except String Json
  | word32, n => .ok (.number n.toNat)
  | word64, n => .ok (.number n.toNat)
  | int64, n => .ok (.number n.toInt)
  | string, s => .ok (.string s)
  | slice, s => .ok (.string s)
  | compound, c => .ok (.array (c.parts.map .string))
  | item, i => .ok (.object [("sku", .string i.sku), ("price", .number i.price.toNat)])
  | optionalWord32, some n => .ok (.number n.toNat)
  | optionalWord32, none => .ok .null
  | json, v => .ok v
  | fragile, n => if n < 0 then .error "negative value" else .ok (.number n.toInt)

/-- A value or the failure to read one. -/
def ofOption {α : Type} : Option α → Except ReadError α
  | some a => .ok a
  | none => .error .malformed

def readItem (d : Json.Document) : Option Item :=
  match d.fields? ["sku", "price"] with
  | some fields =>
    match Json.Document.required? fields "sku" Json.Document.string?,
      Json.Document.required? fields "price" Json.Document.word32? with
    | some sku, some price => some ⟨sku, price⟩
    | _, _ => none
  | none => none

def readParts : Json.Document → Option (List String)
  | .array ds => ds.mapM Json.Document.string?
  | _ => none

/-- The value of a kind that a document spells. -/
def read : (k : Kind) → Json.Document → Except ReadError k
  | word32, d => ofOption d.word32?
  | word64, d => ofOption d.word64?
  | int64, d => ofOption d.int64?
  | string, d => ofOption d.string?
  | slice, d => ofOption d.string?
  | compound, d =>
    match readParts d with
    | none => .error .malformed
    | some parts =>
      match CompoundId.ofParts parts with
      | .ok c => .ok c
      | .error e => .error (.refused e)
  | item, d => ofOption (readItem d)
  | optionalWord32, d => ofOption (d.option? Json.Document.word32?)
  | json, d => ofOption (Json.ofDocument? Json.maxDepth d)
  | fragile, d => ofOption d.int64?

end Kind

end CacheAside

import CacheAside.Json

/-!
# Records as JSON

A record with named fields is written as an object. It is read from an object whose members may come
in any order and may have companions that are no fields, or from the array of its fields in their
order. A field may have a default, and is then left out freely: anywhere in an object, at the end of
an array.
-/

namespace CacheAside.Json

namespace Document

/-- The members that are fields, in the order they are written. No field may be written twice; what
other members hold is not looked into. -/
def knownMembers? (names : List String) :
    List (List Piece × Document) → Option (List (String × Document))
  | [] => some []
  | (ps, d) :: ms =>
    match Quoted.resolve? ps, knownMembers? names ms with
    | some name, some fields =>
      if name ∈ names then
        if (fields.lookup name).isSome then none else some ((name, d) :: fields)
      else some fields
    | _, _ => none

/-- The fields of a record with the given field names. -/
def fields? (names : List String) : Document → Option (List (String × Document))
  | .object ms => knownMembers? names ms
  | .array ds => if ds.length ≤ names.length then some (names.zip ds) else none
  | _ => none

/-- A field that has to be there. -/
def required? {α : Type} (fields : List (String × Document)) (name : String)
    (read : Document → Option α) : Option α :=
  (fields.lookup name).bind read

/-- A field that may be left out. -/
def optional? {α : Type} (fields : List (String × Document)) (name : String)
    (read : Document → Option α) (default : α) : Option α :=
  match fields.lookup name with
  | some d => read d
  | none => some default

/-! ## Simple fields -/

def bool? : Document → Option Bool
  | .bool b => some b
  | _ => none

def string? : Document → Option String
  | .string ps => Quoted.resolve? ps
  | _ => none

/-- An integer at least `low` and below `high`. -/
def intWithin? (low high : Int) : Document → Option Int
  | .number n => n.integer?.filter fun i => low ≤ i && i < high
  | _ => none

def word32? (d : Document) : Option UInt32 :=
  (d.intWithin? 0 0x100000000).map fun n => UInt32.ofNat n.toNat

def word64? (d : Document) : Option UInt64 :=
  (d.intWithin? 0 0x10000000000000000).map fun n => UInt64.ofNat n.toNat

def int64? (d : Document) : Option Int64 :=
  (d.intWithin? (-0x8000000000000000) 0x8000000000000000).map Int64.ofInt

/-- `null` for nothing. -/
def option? {α : Type} (read : Document → Option α) : Document → Option (Option α)
  | .null => some none
  | d => (read d).map some

end Document

end CacheAside.Json

import CacheAside.Json.Document

/-!
# JSON values

The values that JSON texts denote. A number is an integer if it is written as one and fits 64 bits;
any other is a double. `Json.ofDocument?` gives a document its value, with the members of every
object sorted by name and no name twice. `Json.render` writes a value without blanks, members in the
order they have.
-/

namespace CacheAside

inductive Json where
  | null
  | bool (b : Bool)
  | number (n : Int)
  | real (x : Binary64)
  | string (s : String)
  | array (items : List Json)
  | object (members : List (String × Json))

namespace Json

/-- Arrays and objects may be nested this deep, and no deeper. -/
def maxDepth : Nat := 127

/-- Integers that fit 64 bits, signed or unsigned. -/
def isWord (n : Int) : Bool := -0x8000000000000000 ≤ n && n < 0x10000000000000000

/-- The value of a number; none if it is too large. -/
def ofNumeral? (n : Numeral) : Option Json :=
  match n.integer?.filter isWord with
  | some i => some (.number i)
  | none => n.real?.map .real

/-- Adds a member at its place in the order of names; it replaces a member of the same name. -/
def putMember (name : String) (v : Json) : List (String × Json) → List (String × Json)
  | [] => [(name, v)]
  | (n, w) :: ms =>
    if name < n then (name, v) :: (n, w) :: ms
    else if name = n then (name, v) :: ms
    else (n, w) :: putMember name v ms

mutual
/-- The value of a document, nested at most as deep as the first argument says. Of members with
one name the last counts. -/
def ofDocument? : Nat → Document → Option Json
  | _, .null => some .null
  | _, .bool b => some (.bool b)
  | _, .number n => ofNumeral? n
  | _, .string ps => (Quoted.resolve? ps).map .string
  | 0, .array _ => none
  | depth + 1, .array ds => (itemsOf? depth ds).map .array
  | 0, .object _ => none
  | depth + 1, .object ms => (membersOf? depth ms []).map .object

def itemsOf? : Nat → List Document → Option (List Json)
  | _, [] => some []
  | depth, d :: ds =>
    match ofDocument? depth d, itemsOf? depth ds with
    | some v, some vs => some (v :: vs)
    | _, _ => none

/-- Adds members in turn to those already read. -/
def membersOf? : Nat → List (List Piece × Document) → List (String × Json) →
    Option (List (String × Json))
  | _, [], done => some done
  | depth, (ps, d) :: ms, done =>
    match Quoted.resolve? ps, ofDocument? depth d with
    | some name, some v => membersOf? depth ms (putMember name v done)
    | _, _ => none
end

mutual
def render : Json → Bytes
  | .null => utf8 "null"
  | .bool true => utf8 "true"
  | .bool false => utf8 "false"
  | .number n => Decimal.ofInt n
  | .real x => realText x
  | .string s => Quoted.render s
  | .array [] => utf8 "[]"
  | .array (v :: vs) => 0x5B :: (render v ++ renderItems vs)
  | .object [] => utf8 "\x7b\x7d"
  | .object ((name, v) :: ms) =>
    0x7B :: (Quoted.render name ++ 0x3A :: (render v ++ renderMembers ms))

/-- The items behind the first, and the closing bracket. -/
def renderItems : List Json → Bytes
  | [] => [0x5D]
  | v :: vs => 0x2C :: (render v ++ renderItems vs)

/-- The members behind the first, and the closing brace. -/
def renderMembers : List (String × Json) → Bytes
  | [] => [0x7D]
  | (name, v) :: ms => 0x2C :: (Quoted.render name ++ 0x3A :: (render v ++ renderMembers ms))
end

mutual
/-- How deep arrays and objects are nested. -/
def depth : Json → Nat
  | .array vs => itemsDepth vs + 1
  | .object ms => membersDepth ms + 1
  | _ => 0

def itemsDepth : List Json → Nat
  | [] => 0
  | v :: vs => max (depth v) (itemsDepth vs)

def membersDepth : List (String × Json) → Nat
  | [] => 0
  | (_, v) :: ms => max (depth v) (membersDepth ms)
end

/-- The text of a value. Rendering only ever produces UTF-8. -/
def text (v : Json) : String := (ofUtf8? v.render).getD ""

end Json

end CacheAside

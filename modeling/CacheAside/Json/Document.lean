import CacheAside.Json.Numeral
import CacheAside.Json.Quoted

/-!
# JSON documents

A document keeps what a JSON text says before anyone gives it a type: members in their order,
repeated ones included, and literals that nobody has looked into yet. `Document.parse?` accepts the
texts of RFC 8259; blanks may stand around the document and between its tokens.
-/

namespace CacheAside.Json

inductive Document where
  | null
  | bool (b : Bool)
  | number (n : Numeral)
  | string (pieces : List Piece)
  | array (items : List Document)
  | object (members : List (List Piece × Document))

namespace Document

/-- Space, line feed, carriage return and tab. -/
def isBlankByte (b : UInt8) : Bool := b == 0x20 || b == 0x0A || b == 0x0D || b == 0x09

def skipBlanks (bs : Bytes) : Bytes := bs.dropWhile isBlankByte

/-- What follows a word, if the text starts with it. -/
def afterWord? : Bytes → Bytes → Option Bytes
  | [], bs => some bs
  | w :: ws, b :: bs => if w = b then afterWord? ws bs else none
  | _ :: _, [] => none

/-- Digits, at least one, and what follows them. -/
def digits? (bs : Bytes) : Option (Bytes × Bytes) :=
  match bs.takeWhile Decimal.isDigit with
  | [] => none
  | d :: ds => some (d :: ds, bs.dropWhile Decimal.isDigit)

/-- The digits behind a point, if there is one, and what follows; `none` if they are missing. -/
def fraction? : Bytes → Option (Bytes × Bytes)
  | 0x2E :: bs => digits? bs
  | bs => some ([], bs)

/-- An exponent, if there is one, and what follows; `none` if its digits are missing. -/
def exponent? (bs : Bytes) : Option (Option (Bool × Bytes) × Bytes) :=
  let signed (negative : Bool) (bs : Bytes) : Option (Option (Bool × Bytes) × Bytes) :=
    (digits? bs).map fun (ds, bs) => (some (negative, ds), bs)
  match bs with
  | e :: rest =>
    if e = 0x65 ∨ e = 0x45 then
      match rest with
      | 0x2B :: rest => signed false rest
      | 0x2D :: rest => signed true rest
      | rest => signed false rest
    else some (none, bs)
  | [] => some (none, [])

/-- A number without its sign. Only zero itself may start with a zero. -/
def unsigned? (negative : Bool) (bs : Bytes) : Option (Document × Bytes) :=
  match digits? bs with
  | none => none
  | some (whole, bs) =>
    if whole.head? = some 0x30 ∧ whole ≠ [0x30] then none
    else
      match fraction? bs with
      | none => none
      | some (fraction, bs) =>
        match exponent? bs with
        | none => none
        | some (exponent, bs) => some (.number { negative, whole, fraction, exponent }, bs)

def number? : Bytes → Option (Document × Bytes)
  | 0x2D :: bs => unsigned? true bs
  | bs => unsigned? false bs

mutual
/-- One value and what follows it. The first argument bounds the number of steps. -/
def value? : Nat → Bytes → Option (Document × Bytes)
  | 0, _ => none
  | fuel + 1, bs =>
    match skipBlanks bs with
    | [] => none
    | b :: rest =>
      if b = Quoted.quote then
        match Quoted.scan rest with
        | some (ps, r) => some (.string ps, r)
        | none => none
      else if b = 0x5B then
        match skipBlanks rest with
        | 0x5D :: r => some (.array [], r)
        | r =>
          match items? fuel r with
          | some (ds, r) => some (.array ds, r)
          | none => none
      else if b = 0x7B then
        match skipBlanks rest with
        | 0x7D :: r => some (.object [], r)
        | r =>
          match members? fuel r with
          | some (ms, r) => some (.object ms, r)
          | none => none
      else if b = 0x6E then (afterWord? [0x75, 0x6C, 0x6C] rest).map (Document.null, ·)
      else if b = 0x74 then (afterWord? [0x72, 0x75, 0x65] rest).map (Document.bool true, ·)
      else if b = 0x66 then (afterWord? [0x61, 0x6C, 0x73, 0x65] rest).map (Document.bool false, ·)
      else number? (b :: rest)

/-- The items of an array, at least one, and what follows the closing bracket. -/
def items? : Nat → Bytes → Option (List Document × Bytes)
  | 0, _ => none
  | fuel + 1, bs =>
    match value? fuel bs with
    | none => none
    | some (d, r) =>
      match skipBlanks r with
      | 0x2C :: r =>
        match items? fuel r with
        | some (ds, r) => some (d :: ds, r)
        | none => none
      | 0x5D :: r => some ([d], r)
      | _ => none

/-- The members of an object, at least one, and what follows the closing brace. -/
def members? : Nat → Bytes → Option (List (List Piece × Document) × Bytes)
  | 0, _ => none
  | fuel + 1, bs =>
    match skipBlanks bs with
    | 0x22 :: r =>
      match Quoted.scan r with
      | none => none
      | some (name, r) =>
        match skipBlanks r with
        | 0x3A :: r =>
          match value? fuel r with
          | none => none
          | some (d, r) =>
            match skipBlanks r with
            | 0x2C :: r =>
              match members? fuel r with
              | some (ms, r) => some ((name, d) :: ms, r)
              | none => none
            | 0x7D :: r => some ([(name, d)], r)
            | _ => none
        | _ => none
    | _ => none
end

/-- The document that a text spells. Every two steps of the parser read at least one byte, so the
bound is never what stops it. -/
def parse? (bs : Bytes) : Option Document :=
  match value? (2 * bs.length + 2) bs with
  | some (d, r) => if (skipBlanks r).isEmpty then some d else none
  | none => none

end Document

end CacheAside.Json

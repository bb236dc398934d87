import CacheAside.Text.Utf8

/-!
# Quoted strings

The string literals of JSON, as bytes. Reading goes in two steps: `scan` finds the end of a literal
and resolves the short escapes, and `resolve?` joins the UTF-16 units that were written as `\u` and
checks that the whole is UTF-8. A literal that nobody looks into is only scanned.
-/

namespace CacheAside.Json

/-- One part of a string literal. -/
inductive Piece where
  /-- A byte that stands for itself, or that a short escape names. -/
  | byte (b : UInt8)
  /-- A UTF-16 unit written with four hexadecimal digits. -/
  | unit (u : Nat)
  deriving DecidableEq

namespace Quoted

def quote : UInt8 := 0x22

def backslash : UInt8 := 0x5C

/-! ## Reading -/

def hexDigit? (b : UInt8) : Option Nat :=
  if 0x30 ≤ b ∧ b ≤ 0x39 then some (b.toNat - 0x30)
  else if 0x61 ≤ b ∧ b ≤ 0x66 then some (b.toNat - 0x57)
  else if 0x41 ≤ b ∧ b ≤ 0x46 then some (b.toNat - 0x37)
  else none

/-- The number that four hexadecimal digits spell. -/
def hexUnit? (a b c d : UInt8) : Option Nat :=
  match hexDigit? a, hexDigit? b, hexDigit? c, hexDigit? d with
  | some a, some b, some c, some d => some (((a * 16 + b) * 16 + c) * 16 + d)
  | _, _, _, _ => none

/-- What a backslash followed by one letter stands for. -/
def shortEscape? (b : UInt8) : Option UInt8 :=
  if b = 0x22 then some 0x22
  else if b = 0x5C then some 0x5C
  else if b = 0x2F then some 0x2F
  else if b = 0x62 then some 0x08
  else if b = 0x66 then some 0x0C
  else if b = 0x6E then some 0x0A
  else if b = 0x72 then some 0x0D
  else if b = 0x74 then some 0x09
  else none

/-- Reads a literal whose opening quote is behind us, and gives what follows its closing quote.
Bytes below `0x20` have to be escaped. -/
def scan : Bytes → Option (List Piece × Bytes)
  | [] => none
  | b :: rest =>
    if b = quote then some ([], rest)
    else if b = backslash then
      match rest with
      | [] => none
      | e :: rest =>
        if e = 0x75 then
          match rest with
          | a :: b :: c :: d :: rest =>
            match hexUnit? a b c d, scan rest with
            | some u, some (ps, r) => some (.unit u :: ps, r)
            | _, _ => none
          | _ => none
        else
          match shortEscape? e, scan rest with
          | some x, some (ps, r) => some (.byte x :: ps, r)
          | _, _ => none
    else if b < 0x20 then none
    else
      match scan rest with
      | some (ps, r) => some (.byte b :: ps, r)
      | none => none

def isHighSurrogate (u : Nat) : Bool := 0xD800 ≤ u && u ≤ 0xDBFF

def isLowSurrogate (u : Nat) : Bool := 0xDC00 ≤ u && u ≤ 0xDFFF

/-- The bytes of a literal. A high surrogate needs the low one right behind it, and a low surrogate
cannot stand alone. -/
def bytes? : List Piece → Option Bytes
  | [] => some []
  | .byte b :: ps => (bytes? ps).map (b :: ·)
  | .unit u :: ps =>
    if isHighSurrogate u then
      match ps with
      | .unit v :: ps =>
        if isLowSurrogate v then
          let point := 0x10000 + (u - 0xD800) * 0x400 + (v - 0xDC00)
          (bytes? ps).map (utf8 (String.singleton (Char.ofNat point)) ++ ·)
        else none
      | _ => none
    else if isLowSurrogate u then none
    else (bytes? ps).map (utf8 (String.singleton (Char.ofNat u)) ++ ·)

/-- The text of a literal. -/
def resolve? (ps : List Piece) : Option String :=
  match bytes? ps with
  | some bs => ofUtf8? bs
  | none => none

/-! ## Writing -/

def hexDigit (n : Nat) : UInt8 := UInt8.ofNat (if n < 10 then 0x30 + n else 0x57 + n)

/-- A byte as it is written inside a literal: quotes, backslashes and bytes below `0x20` are
escaped, by their short escape if they have one. -/
def escape (b : UInt8) : Bytes :=
  if b = 0x22 then [0x5C, 0x22]
  else if b = 0x5C then [0x5C, 0x5C]
  else if b = 0x08 then [0x5C, 0x62]
  else if b = 0x0C then [0x5C, 0x66]
  else if b = 0x0A then [0x5C, 0x6E]
  else if b = 0x0D then [0x5C, 0x72]
  else if b = 0x09 then [0x5C, 0x74]
  else if b < 0x20 then
    [0x5C, 0x75, 0x30, 0x30, hexDigit (b.toNat / 16), hexDigit (b.toNat % 16)]
  else [b]

/-- The literal of a text, with its quotes. -/
def render (s : String) : Bytes := quote :: (utf8 s).flatMap escape ++ [quote]

end Quoted

end CacheAside.Json

import CacheAside.Text.Utf8

/-!
# Decimal numerals

Numerals as bytes, and the integer that a text spells.
-/

namespace CacheAside.Decimal

def isDigit (b : UInt8) : Bool := 0x30 ≤ b && b ≤ 0x39

/-- The digits of a number, without leading zeros. -/
def ofNat (n : Nat) : Bytes := (Nat.toDigits 10 n).map fun c => UInt8.ofNat c.toNat

/-- The numeral of an integer; negative ones start with a minus sign. -/
def ofInt : Int → Bytes
  | .ofNat n => ofNat n
  | .negSucc n => 0x2D :: ofNat (n + 1)

/-- The number with the given digits. -/
def toNat (digits : Bytes) : Nat := digits.foldl (fun n b => 10 * n + (b.toNat - 0x30)) 0

/-- The integer that a text spells: a sign or none, then at least one digit and nothing else. -/
def parseInt? (s : String) : Option Int :=
  let magnitude (digits : Bytes) : Option Nat :=
    if digits ≠ [] ∧ digits.all isDigit then some (toNat digits) else none
  match utf8 s with
  | 0x2D :: digits => (magnitude digits).map fun n => -(n : Int)
  | 0x2B :: digits => (magnitude digits).map Int.ofNat
  | digits => (magnitude digits).map Int.ofNat

/-- As `parseInt?`, for signed integers of 64 bits. -/
def parseInt64? (s : String) : Option Int64 :=
  match parseInt? s with
  | some n =>
    if -0x8000000000000000 ≤ n ∧ n < 0x8000000000000000 then some (Int64.ofInt n) else none
  | none => none

end CacheAside.Decimal

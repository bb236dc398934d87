import CacheAside.Binary64.Shortest
import CacheAside.Text.Decimal

/-!
# Numbers in JSON

A number as it is written, and what it stands for: an integer if it is written as one, and always a
double, unless it is too large. The double is computed from as many digits as fit a word of 64 bits,
first rounded and then scaled by a power of ten, so it may be one of the neighbours of the nearest.
-/

namespace CacheAside.Json

/-- A number as it is written, digit by digit. -/
structure Numeral where
  negative : Bool
  /-- The digits in front of the point. -/
  whole : Bytes
  /-- The digits behind the point, if there is one. -/
  fraction : Bytes := []
  /-- Whether the exponent is negative, and its digits. -/
  exponent : Option (Bool × Bytes) := none
  deriving DecidableEq

namespace Numeral

/-- Appends digits to a number as long as it fits 64 bits, and gives those that are left. -/
def extend : Nat → Bytes → Nat × Bytes
  | n, [] => (n, [])
  | n, d :: ds =>
    let m := 10 * n + (d.toNat - 0x30)
    if m < 0x10000000000000000 then extend m ds else (n, d :: ds)

/-- The integer, if the number is written as one and has no more than 64 bits. A negative zero is
none. -/
def integer? (n : Numeral) : Option Int :=
  if n.fraction ≠ [] ∨ n.exponent ≠ none then none
  else
    match extend 0 n.whole with
    | (m, []) =>
      if !n.negative then some m
      else if m = 0 then none
      else some (-m)
    | (_, _ :: _) => none

/-- The double nearest to a power of ten. -/
def tenTo (k : Nat) : Binary64 := .ofNat (Nat.pow 10 k)

/-- Multiplies by a power of ten; the result has to be finite. A small power is reached in several
steps. The first argument bounds their number: after two of them no word of 64 bits is left. -/
def scale? : Nat → Binary64 → Int → Option Binary64
  | 0, _, _ => some .zero
  | steps + 1, x, e =>
    if x = .zero then some .zero
    else if 308 < e then none
    else if 0 ≤ e then
      let y := x.mul (tenTo e.toNat)
      if y = .infinity then none else some y
    else if -308 ≤ e then some (x.div (tenTo (-e).toNat))
    else scale? steps (x.div (tenTo 308)) (e + 308)

/-- The double without its sign. -/
def magnitude? (n : Numeral) : Option Binary64 :=
  let (m, left) := extend 0 n.whole
  let (m, below) := extend m n.fraction
  let place : Int := left.length - (n.fraction.length - below.length)
  let scaled (e : Int) : Option Binary64 := scale? 4 (.ofNat m) e
  match n.exponent with
  | none => scaled place
  | some (negative, digits) =>
    let digits := digits.dropWhile (· == 0x30)
    if 10 < digits.length ∨ 0x80000000 ≤ Decimal.toNat digits then
      if m = 0 ∨ negative then some .zero else none
    else
      let e : Int := Decimal.toNat digits
      scaled (if negative then place - e else place + e)

/-- The double; none if it is too large. -/
def real? (n : Numeral) : Option Binary64 :=
  n.magnitude?.map fun x => if n.negative then x.neg else x

end Numeral

/-! ## Writing doubles -/

/-- The exponent as it is written: always with its sign. -/
def exponentText (e : Int) : Bytes :=
  0x65 :: (if e < 0 then 0x2D else 0x2B) :: Decimal.ofNat e.natAbs

/-- Digits with the point behind the first, if there are others. -/
def pointed : Bytes → Bytes
  | [] => []
  | [d] => [d]
  | d :: ds => d :: 0x2E :: ds

/-- A positive finite double in its shortest decimal. Numbers below `10 ^ -5` and those from `10 ^ 16`
on are written with an exponent; all others have digits on both sides of the point. -/
def positiveReal (x : Binary64) : Bytes :=
  let d := x.shortest
  let digits := Decimal.ofNat d.digits
  let place : Int := d.exponent + digits.length - 1
  let digits := (digits.reverse.dropWhile (· == 0x30)).reverse
  if place < -5 ∨ 15 < place then pointed digits ++ exponentText place
  else if place < 0 then 0x30 :: 0x2E :: (List.replicate (-place - 1).toNat 0x30 ++ digits)
  else
    let whole := place.toNat + 1
    if digits.length ≤ whole then
      digits ++ List.replicate (whole - digits.length) 0x30 ++ [0x2E, 0x30]
    else digits.take whole ++ 0x2E :: digits.drop whole

/-- A finite double. -/
def realText (x : Binary64) : Bytes :=
  if x = .zero then [0x30, 0x2E, 0x30]
  else if x.isNeg then
    0x2D :: (if x.neg = .zero then [0x30, 0x2E, 0x30] else positiveReal x.neg)
  else positiveReal x

end CacheAside.Json

import CacheAside.Binary64

/-!
# The shortest decimals of doubles

The decimal with the fewest digits that a double is nearest to, and of those the one nearest to the
double. If a decimal with some number of digits has this property, then so has one of the two
neighbours of the double among the decimals with that many digits: those are the candidates.
-/

namespace CacheAside

/-- The number `digits * 10 ^ exponent`. -/
structure DecimalNumber where
  digits : Nat
  exponent : Int
  deriving DecidableEq

namespace DecimalNumber

def num (d : DecimalNumber) : Nat := d.digits * Nat.pow 10 d.exponent.toNat

def den (d : DecimalNumber) : Nat := Nat.pow 10 (-d.exponent).toNat

def toBinary64 (d : DecimalNumber) : Binary64 := .ofRatio d.num d.den

end DecimalNumber

namespace Binary64

/-- The place of the first decimal digit of `num / den`: zero for the units, one for the tens. -/
def firstPlace (num den : Nat) : Int :=
  if den ≤ num then (Nat.toDigits 10 (num / den)).length - 1
  else -((Nat.toDigits 10 ((den - 1) / num)).length : Int)

/-- Of the two neighbours of a number among the multiples of `10 ^ exponent`, one that is nearest to
no other double; of two the nearer, and of two as near the even one. -/
def neighbour? (x : Binary64) (exponent : Int) : Option DecimalNumber :=
  let num := x.num * Nat.pow 10 (-exponent).toNat
  let den := x.den * Nat.pow 10 exponent.toNat
  let low : DecimalNumber := ⟨num / den, exponent⟩
  let high : DecimalNumber := ⟨num / den + 1, exponent⟩
  match low.toBinary64 == x, high.toBinary64 == x with
  | true, true => some ⟨roundDiv num den, exponent⟩
  | true, false => some low
  | false, true => some high
  | false, false => none

/-- The first candidate that will do, with digits down to some place or to one of those below it. -/
def shortestFrom (x : Binary64) : Nat → Int → DecimalNumber
  | 0, _ => ⟨0, 0⟩
  | more + 1, exponent => (x.neighbour? exponent).getD (shortestFrom x more (exponent - 1))

/-- The shortest decimal of a positive finite double. Seventeen digits always suffice. -/
def shortest (x : Binary64) : DecimalNumber := x.shortestFrom 17 (firstPlace x.num x.den)

end Binary64

end CacheAside

/-!
# Binary floating-point numbers

Doubles by their bits, and the operations that give the double nearest to an exact result. A tie goes
to the even neighbour; beyond the largest finite double lies infinity. Apart from `neg`, everything
here is about numbers that are not negative.
-/

namespace CacheAside

/-- A double by its bits. -/
structure Binary64 where
  bits : UInt64
  deriving DecidableEq

namespace Binary64

/-- The integer nearest to `num / den`; of two the even one. -/
def roundDiv (num den : Nat) : Nat :=
  let q := num / den
  let twice := 2 * (num % den)
  if den < twice ∨ (twice = den ∧ q % 2 = 1) then q + 1 else q

def zero : Binary64 := ⟨0⟩

def infinity : Binary64 := ⟨0x7FF0000000000000⟩

/-- The exponent of the last binary digit that a double near `num / den` has. -/
def lastPlace (num den : Nat) : Int :=
  let e : Int := Nat.log2 num - Nat.log2 den - 52
  max (-1074)
    (if num * Nat.pow 2 (-e).toNat < den * Nat.pow 2 e.toNat * 0x10000000000000 then e - 1 else e)

/-- The double nearest to `num / den`, where the denominator is positive. Counting the doubles from
zero upwards gives their bits, so a carry into the next power of two needs no care. -/
def ofRatio (num den : Nat) : Binary64 :=
  if num = 0 then zero
  else
    let e := lastPlace num den
    let rounded := roundDiv (num * Nat.pow 2 (-e).toNat) (den * Nat.pow 2 e.toNat)
    let bits := (e + 1074).toNat * 0x10000000000000 + rounded
    if infinity.bits.toNat ≤ bits then infinity else ⟨UInt64.ofNat bits⟩

/-- The double nearest to an integer. -/
def ofNat (n : Nat) : Binary64 := ofRatio n 1

def neg (x : Binary64) : Binary64 := ⟨x.bits ^^^ 0x8000000000000000⟩

/-- Whether the sign is minus. -/
def isNeg (x : Binary64) : Bool := 0x8000000000000000 ≤ x.bits

/-- Whether the number is zero, with either sign. -/
def isZero (x : Binary64) : Bool := x.bits = 0 || x.bits = 0x8000000000000000

/-- Equality of two numbers: one zero equals the other. -/
def equal (x y : Binary64) : Bool := x = y || (x.isZero && y.isZero)

@[simp] theorem equal_self (x : Binary64) : x.equal x = true := by simp [equal]

theorem equal_congr {x y : Binary64} (h : x.equal y = true) (z : Binary64) :
    x.equal z = y.equal z := by
  simp only [equal, Bool.or_eq_true, decide_eq_true_eq, Bool.and_eq_true] at h
  rcases h with rfl | ⟨hx, hy⟩
  · rfl
  · -- Both are zeros, and a zero equals the zeros and nothing else.
    have hzero : ∀ {u : Binary64}, u.isZero = true → u.equal z = z.isZero := by
      intro u hu
      by_cases huz : u = z
      · subst huz
        simp [hu]
      · simp [equal, huz, hu]
    rw [hzero hx, hzero hy]

/-- The number without its sign is `mantissa * 2 ^ exponent`. -/
def mantissa (x : Binary64) : Nat :=
  let fraction := x.bits.toNat % 0x10000000000000
  if x.bits.toNat / 0x10000000000000 % 0x800 = 0 then fraction else fraction + 0x10000000000000

def exponent (x : Binary64) : Int := (max 1 (x.bits.toNat / 0x10000000000000 % 0x800) : Nat) - 1075

/-- The number without its sign is `num / den`. -/
def num (x : Binary64) : Nat := x.mantissa * Nat.pow 2 x.exponent.toNat

def den (x : Binary64) : Nat := Nat.pow 2 (-x.exponent).toNat

/-- The product of two finite numbers. -/
def mul (x y : Binary64) : Binary64 := ofRatio (x.num * y.num) (x.den * y.den)

/-- The quotient of two finite numbers, of which the second is not zero. -/
def div (x y : Binary64) : Binary64 := ofRatio (x.num * y.den) (x.den * y.num)

/-- The share of a counter in a total, each of them rounded first; of nothing it is zero. -/
def ratio (part total : UInt64) : Binary64 :=
  if total = 0 then zero else (ofNat part.toNat).div (ofNat total.toNat)

/-- The bits as sixteen hexadecimal digits. -/
def hex (x : Binary64) : String :=
  let digits := Nat.toDigits 16 x.bits.toNat
  String.ofList (List.replicate (16 - digits.length) '0' ++ digits)

end Binary64

end CacheAside

/-!
# Spans of time

A span of time is a whole number of nanoseconds. It is written in the largest of the units `s`,
`ms`, `µs` and `ns` that does not exceed it, with as many decimals as it needs.
-/

namespace CacheAside

/-- A span of time. -/
structure Duration where
  nanos : Nat
  deriving DecidableEq

namespace Duration

def ofParts (seconds nanos : Nat) : Duration := ⟨seconds * 1000000000 + nanos⟩

def ofMillis (ms : Nat) : Duration := ⟨ms * 1000000⟩

/-- Whole milliseconds, rounded down. -/
def millis (d : Duration) : Nat := d.nanos / 1000000

/-- `n / 10 ^ places` in decimal notation, without trailing zeros behind the point. -/
def decimal (n places : Nat) : String :=
  let whole := toString (n / Nat.pow 10 places)
  let digits := (Nat.toDigits 10 (n % Nat.pow 10 places)).reverse
  let padded := digits ++ List.replicate (places - digits.length) '0'
  match padded.dropWhile (· == '0') with
  | [] => whole
  | fraction => whole ++ "." ++ String.ofList fraction.reverse

/-- The span as it appears in messages. -/
def text (d : Duration) : String :=
  if 1000000000 ≤ d.nanos then decimal d.nanos 9 ++ "s"
  else if 1000000 ≤ d.nanos then decimal d.nanos 6 ++ "ms"
  else if 1000 ≤ d.nanos then decimal d.nanos 3 ++ "µs"
  else decimal d.nanos 0 ++ "ns"

end Duration

end CacheAside

import CacheAside.Toml.Node

/-!
# Numbers and dates of TOML

Readers for integers, floats, dates and times. Underscores may stand between two digits. Integers
have 64 bits, and a float may not be too large to be finite.
-/

namespace CacheAside.Toml

def isDecimal (c : Char) : Bool := c.isDigit

def isHexadecimal (c : Char) : Bool :=
  c.isDigit || ('a' ≤ c && c ≤ 'f') || ('A' ≤ c && c ≤ 'F')

def isOctal (c : Char) : Bool := '0' ≤ c && c ≤ '7'

def isBinary (c : Char) : Bool := c == '0' || c == '1'

/-- Further digits, with single underscores between them. -/
def moreDigits (isDigit : Char → Bool) : List Char → List Char × List Char
  | '_' :: c :: cs =>
    if isDigit c then
      let (ds, r) := moreDigits isDigit cs
      (c :: ds, r)
    else ([], '_' :: c :: cs)
  | c :: cs =>
    if isDigit c then
      let (ds, r) := moreDigits isDigit cs
      (c :: ds, r)
    else ([], c :: cs)
  | [] => ([], [])

/-- At least one digit. -/
def digits? (isDigit : Char → Bool) : List Char → Option (List Char × List Char)
  | c :: cs =>
    if isDigit c then
      let (ds, r) := moreDigits isDigit cs
      some (c :: ds, r)
    else none
  | [] => none

def digitValue (c : Char) : Nat :=
  if c.isDigit then c.toNat - 48
  else if 'a' ≤ c ∧ c ≤ 'f' then c.toNat - 87
  else c.toNat - 55

def valueIn (base : Nat) (ds : List Char) : Nat :=
  ds.foldl (fun n d => base * n + digitValue d) 0

/-- A sign, if there is one; `true` for minus. -/
def sign : List Char → Bool × List Char
  | '+' :: cs => (false, cs)
  | '-' :: cs => (true, cs)
  | cs => (false, cs)

/-- A decimal integer: only zero itself starts with a zero. -/
def decimal? (cs : List Char) : Option (Bool × List Char × List Char) :=
  let (negative, cs) := sign cs
  match cs with
  | '0' :: r => some (negative, ['0'], r)
  | cs => (digits? isDecimal cs).map fun (ds, r) => (negative, ds, r)

def word? (n : Int) (r : List Char) : Option (Scalar × List Char) :=
  if -0x8000000000000000 ≤ n ∧ n < 0x8000000000000000 then some (.integer n, r) else none

def integer? (cs : List Char) : Option (Scalar × List Char) :=
  let based (isDigit : Char → Bool) (base : Nat) (cs : List Char) :=
    match digits? isDigit cs with
    | some (ds, r) => word? (valueIn base ds) r
    | none => none
  match cs with
  | '0' :: 'x' :: cs => based isHexadecimal 16 cs
  | '0' :: 'o' :: cs => based isOctal 8 cs
  | '0' :: 'b' :: cs => based isBinary 2 cs
  | cs =>
    match decimal? cs with
    | some (negative, ds, r) =>
      word? (if negative then -(valueIn 10 ds : Int) else valueIn 10 ds) r
    | none => none

/-! ## Floats -/

/-- Whether `n * 10 ^ e` rounds to infinity in double precision. The bound lies halfway between the
largest finite double and the power of two above it. -/
def overflows (n : Nat) (e : Int) : Bool :=
  let bound := 0x3FFFFFFFFFFFFF * Nat.pow 2 970
  let size : Int := (Nat.toDigits 10 n).length + e
  if n = 0 ∨ size < 300 then false
  else if 310 < size then true
  else if 0 ≤ e then bound ≤ n * Nat.pow 10 e.toNat
  else bound * Nat.pow 10 (-e).toNat ≤ n

/-- The digits behind a point, if there is one. -/
def fraction? : List Char → Option (List Char × List Char)
  | '.' :: cs => digits? isDecimal cs
  | cs => some ([], cs)

/-- The exponent, if there is one. -/
def exponent? : List Char → Option (Option Int × List Char)
  | [] => some (none, [])
  | c :: cs =>
    if c = 'e' ∨ c = 'E' then
      let (negative, cs) := sign cs
      (digits? isDecimal cs).map fun (ds, r) =>
        (some (if negative then -(valueIn 10 ds : Int) else valueIn 10 ds), r)
    else some (none, c :: cs)

/-- Infinity or no number, with or without a sign. -/
def special? (cs : List Char) : Option (Scalar × List Char) :=
  match (sign cs).2 with
  | 'i' :: 'n' :: 'f' :: r => some (.float "inf", r)
  | 'n' :: 'a' :: 'n' :: r => some (.float "nan", r)
  | _ => none

/-- A number with a fraction, an exponent or both. -/
def finite? (cs : List Char) : Option (Scalar × List Char) :=
  match decimal? cs with
  | none => none
  | some (negative, whole, r) =>
    match fraction? r with
    | none => none
    | some (fraction, r) =>
      match exponent? r with
      | none => none
      | some (exponent, r) =>
        if fraction.isEmpty && exponent.isNone then none
        else if !negative &&
          overflows (valueIn 10 (whole ++ fraction)) (exponent.getD 0 - fraction.length) then none
        else some (.float (String.ofList (cs.take (cs.length - r.length))), r)

def float? (cs : List Char) : Option (Scalar × List Char) :=
  match finite? cs with
  | some x => some x
  | none => special? cs

/-! ## Dates and times -/

/-- Exactly this many digits. -/
def fixedDigits? (count : Nat) (cs : List Char) : Option (Nat × List Char) :=
  let ds := cs.take count
  if ds.length = count ∧ ds.all isDecimal then some (valueIn 10 ds, cs.drop count) else none

/-- A number of two digits between bounds. -/
def twoDigits? (low high : Nat) (cs : List Char) : Option (Nat × List Char) :=
  match fixedDigits? 2 cs with
  | some (n, r) => if low ≤ n ∧ n ≤ high then some (n, r) else none
  | none => none

def isLeapYear (y : Nat) : Bool := y % 4 == 0 && (y % 100 != 0 || y % 400 == 0)

def daysInMonth (y m : Nat) : Nat :=
  if m = 2 then if isLeapYear y then 29 else 28
  else if m = 4 ∨ m = 6 ∨ m = 9 ∨ m = 11 then 30
  else 31

/-- Reads what follows a certain character. -/
def afterChar? (c : Char) : List Char → Option (List Char)
  | d :: cs => if c = d then some cs else none
  | [] => none

/-- What follows a date of the form `yyyy-mm-dd`. -/
def afterDate? (cs : List Char) : Option (List Char) := do
  let (y, r) ← fixedDigits? 4 cs
  let r ← afterChar? '-' r
  let (m, r) ← twoDigits? 1 12 r
  let r ← afterChar? '-' r
  let (d, r) ← twoDigits? 1 31 r
  if d ≤ daysInMonth y m then some r else none

/-- What follows a time of the form `hh:mm:ss`, with or without a fraction. -/
def afterTime? (cs : List Char) : Option (List Char) := do
  let (_, r) ← twoDigits? 0 23 cs
  let r ← afterChar? ':' r
  let (_, r) ← twoDigits? 0 59 r
  let r ← afterChar? ':' r
  let (_, r) ← twoDigits? 0 60 r
  match r with
  | '.' :: c :: r => if isDecimal c then some (r.dropWhile isDecimal) else some ('.' :: c :: r)
  | r => some r

/-- What follows an offset from universal time. -/
def afterOffset? : List Char → Option (List Char)
  | [] => none
  | c :: cs =>
    if c = 'Z' ∨ c = 'z' then some cs
    else if c = '+' ∨ c = '-' then do
      let (_, r) ← twoDigits? 0 23 cs
      let r ← afterChar? ':' r
      let (_, r) ← twoDigits? 0 59 r
      some r
    else none

/-- What follows a date, a date with a time, or a time. -/
def afterDateTime? (cs : List Char) : Option (List Char) :=
  match afterDate? cs with
  | none => afterTime? cs
  | some r =>
    match r with
    | c :: t =>
      if c = 'T' ∨ c = 't' ∨ c = ' ' then
        match afterTime? t with
        | some r => some ((afterOffset? r).getD r)
        | none => some (c :: t)
      else some (c :: t)
    | [] => some []

def dateTime? (cs : List Char) : Option (Scalar × List Char) :=
  (afterDateTime? cs).map fun r =>
    (.dateTime (String.ofList (cs.take (cs.length - r.length))), r)

/-- A date, a float or an integer. -/
def number? (cs : List Char) : Option (Scalar × List Char) :=
  match dateTime? cs with
  | some x => some x
  | none =>
    match float? cs with
    | some x => some x
    | none => integer? cs

end CacheAside.Toml

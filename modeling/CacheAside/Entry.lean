import CacheAside.Text.Utf8

/-!
# Cache entries

An entry is a value, or the statement that its key has none. That a key is absent is no entry.
-/

namespace CacheAside

inductive Entry (α : Type) where
  | value (a : α)
  /-- The key is known to have no value. -/
  | null
  deriving DecidableEq

namespace Entry

variable {α : Type}

def ofOption : Option α → Entry α
  | some a => value a
  | none => null

/-- What a caller sees. -/
def toOption : Entry α → Option α
  | value a => some a
  | null => none

def isNull : Entry α → Bool
  | value _ => false
  | null => true

@[simp] theorem toOption_ofOption (o : Option α) : (ofOption o).toOption = o := by cases o <;> rfl

@[simp] theorem ofOption_toOption (e : Entry α) : ofOption e.toOption = e := by cases e <;> rfl

end Entry

/-- The stored form of the null entry. It starts with a NUL byte, which no JSON text does. -/
def sentinel : Bytes := 0x00 :: utf8 "cachet:null"

/-- Whether bytes are the stored form of the null entry. -/
def isSentinel (bs : Bytes) : Bool := bs == sentinel

/-- How the null entry is shown. -/
def sentinelText : String := "<null>"

end CacheAside

/-!
# Blank and control characters

Two Unicode properties decide which texts can be part of a cache key: `White_Space` and the general
category `Cc`. Both tables are complete.
-/

namespace CacheAside

/-- The characters with the Unicode property `White_Space`. -/
def isBlankChar (c : Char) : Bool :=
  (0x09 ≤ c.val && c.val ≤ 0x0D) || c.val == 0x20 || c.val == 0x85 || c.val == 0xA0 ||
  c.val == 0x1680 || (0x2000 ≤ c.val && c.val ≤ 0x200A) || c.val == 0x2028 || c.val == 0x2029 ||
  c.val == 0x202F || c.val == 0x205F || c.val == 0x3000

/-- The characters of the general category `Cc`. -/
def isControlChar (c : Char) : Bool :=
  c.val ≤ 0x1F || (0x7F ≤ c.val && c.val ≤ 0x9F)

/-- A text is blank when nothing is left of it once the blanks at both ends are cut off. -/
def isBlank (s : String) : Bool := s.toList.all isBlankChar

/-- Characters that may not occur in a cache key. -/
def isForbiddenChar (c : Char) : Bool := isBlankChar c || isControlChar c

/-- Whether a text holds a character that may not occur in a cache key. -/
def hasForbiddenChar (s : String) : Bool := s.toList.any isForbiddenChar

/-- A text without forbidden characters is blank only when it is empty. -/
theorem isBlank_eq_false_of_ne_empty {s : String} (hs : s ≠ "") (hf : hasForbiddenChar s = false) :
    isBlank s = false := by
  cases hl : s.toList with
  | nil => exact absurd (by simpa using hl) hs
  | cons c cs =>
    have hc : isBlankChar c = false := by
      simp only [hasForbiddenChar, hl, List.any_cons, isForbiddenChar, Bool.or_eq_false_iff] at hf
      exact hf.1.1
    simp [isBlank, hl, hc]

end CacheAside

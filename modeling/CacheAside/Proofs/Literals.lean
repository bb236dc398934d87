import CacheAside.Json.Quoted

/-!
# String literals read back

What the scanner makes of each form of a character, and the pieces of the literal of a text, one for
each of its bytes, which resolve to the text.
-/

namespace CacheAside.Json.Quoted

/-! ## What the scanner does with each form -/

section
variable (bs : Bytes)

theorem scan_quote : scan (quote :: bs) = some ([], bs) := by
  rw [scan.eq_def]
  simp

theorem scan_short {e x : UInt8} (he : e ≠ 0x75) (hx : shortEscape? e = some x) :
    scan (backslash :: e :: bs) = (scan bs).map fun (ps, r) => (.byte x :: ps, r) := by
  rw [scan.eq_def]
  simp only [show backslash ≠ quote by decide, he, hx, ↓reduceIte]
  cases scan bs <;> rfl

theorem scan_unit {a b c d : UInt8} {u : Nat} (hu : hexUnit? a b c d = some u) :
    scan (backslash :: 0x75 :: a :: b :: c :: d :: bs) =
      (scan bs).map fun (ps, r) => (.unit u :: ps, r) := by
  rw [scan.eq_def]
  simp only [show backslash ≠ quote by decide, hu, ↓reduceIte]
  cases scan bs <;> rfl

theorem scan_plain {b : UInt8} (hquote : b ≠ quote) (hslash : b ≠ backslash) (hlow : ¬ b < 0x20) :
    scan (b :: bs) = (scan bs).map fun (ps, r) => (.byte b :: ps, r) := by
  rw [scan.eq_def]
  simp only [hquote, hslash, hlow, ↓reduceIte]
  cases scan bs <;> rfl

end

/-! ## Bytes and their pieces -/

/-- What the scanner makes of the escaped form of a byte: control bytes that have no short escape
become units. -/
def piece (b : UInt8) : Piece :=
  if b = 0x08 ∨ b = 0x0C ∨ b = 0x0A ∨ b = 0x0D ∨ b = 0x09 then .byte b
  else if b < 0x20 then .unit b.toNat
  else .byte b

/-- The pieces of the literal of a text. -/
def pieces (s : String) : List Piece := (utf8 s).map piece

theorem hexUnit?_control {b : UInt8} (h : b < 0x20) :
    hexUnit? 0x30 0x30 (hexDigit (b.toNat / 16)) (hexDigit (b.toNat % 16)) = some b.toNat := by
  have hall : ∀ n < 0x20, hexUnit? 0x30 0x30 (hexDigit (n / 16)) (hexDigit (n % 16)) = some n := by
    decide
  exact hall b.toNat (UInt8.lt_iff_toNat_lt.mp h)

/-- A byte is written by a short escape, as a unit, or as itself. -/
theorem escape_cases (b : UInt8) :
    (∃ e, shortEscape? e = some b ∧ escape b = [backslash, e] ∧ piece b = .byte b) ∨
    (b < 0x20 ∧ piece b = .unit b.toNat ∧ escape b =
      [backslash, 0x75, 0x30, 0x30, hexDigit (b.toNat / 16), hexDigit (b.toNat % 16)]) ∨
    (b ≠ quote ∧ b ≠ backslash ∧ ¬ b < 0x20 ∧ escape b = [b] ∧ piece b = .byte b) := by
  -- Seven bytes have a short escape; of the others the control bytes become units.
  by_cases hshort : b ∈ [0x22, 0x5C, 0x08, 0x0C, 0x0A, 0x0D, 0x09]
  · left
    simp only [List.mem_cons, List.not_mem_nil, or_false] at hshort
    rcases hshort with rfl | rfl | rfl | rfl | rfl | rfl | rfl
    all_goals exact ⟨_, rfl, rfl, rfl⟩
  · right
    simp only [List.mem_cons, List.not_mem_nil, or_false, not_or] at hshort
    obtain ⟨hquote, hslash, h8, hc, ha, hd, h9⟩ := hshort
    by_cases hlow : b < 0x20
    · exact .inl ⟨hlow, by simp [piece, *], by simp [escape, backslash, *]⟩
    · exact .inr ⟨hquote, hslash, hlow, by simp [escape, *], by simp [piece, *]⟩

theorem utf8_control {b : UInt8} (h : b < 0x20) :
    utf8 (String.singleton (Char.ofNat b.toNat)) = [b] := by
  have hall : ∀ n < 0x20, utf8 (String.singleton (Char.ofNat n)) = [UInt8.ofNat n] := by decide
  simpa using hall b.toNat (UInt8.lt_iff_toNat_lt.mp h)

theorem bytes?_control {b : UInt8} (h : b < 0x20) (ps : List Piece) :
    bytes? (.unit b.toNat :: ps) = (bytes? ps).map (b :: ·) := by
  have hlt : b.toNat < 0x20 := UInt8.lt_iff_toNat_lt.mp h
  have hhigh : isHighSurrogate b.toNat = false := by
    simp only [isHighSurrogate, Bool.and_eq_false_iff, decide_eq_false_iff_not]
    omega
  have hlow : isLowSurrogate b.toNat = false := by
    simp only [isLowSurrogate, Bool.and_eq_false_iff, decide_eq_false_iff_not]
    omega
  rw [bytes?.eq_def]
  simp [hhigh, hlow, utf8_control h]

theorem bytes?_map_piece (bs : Bytes) : bytes? (bs.map piece) = some bs := by
  induction bs with
  | nil => rfl
  | cons b bs ih =>
      rw [List.map_cons, piece]
      split
      · simp [bytes?, ih]
      split
      · next hlow => rw [bytes?_control hlow, ih, Option.map_some]
      · simp [bytes?, ih]

/-- No text is lost by writing it as a literal. -/
theorem resolve?_pieces (s : String) : resolve? (pieces s) = some s := by
  simp [resolve?, pieces, bytes?_map_piece]

end CacheAside.Json.Quoted

import CacheAside.Json

/-!
# Numerals read back

The digits of a number spell that number. A numeral made of them denotes the integer it was made
from, as long as that fits 64 bits.
-/

namespace CacheAside

namespace Decimal

/-- The byte of one digit. -/
def digit (n : Nat) : UInt8 := UInt8.ofNat (0x30 + n)

theorem toNat_digit {n : Nat} (h : n < 10) : (digit n).toNat = 0x30 + n := by
  simp only [digit, UInt8.toNat_ofNat']
  omega

theorem toNat_digit_sub {n : Nat} (h : n < 10) : (digit n).toNat - 0x30 = n := by
  rw [toNat_digit h, Nat.add_sub_cancel_left]

theorem isDigit_digit {n : Nat} (h : n < 10) : isDigit (digit n) = true := by
  have hlow : (0x30 : UInt8).toNat ≤ (digit n).toNat := by
    rw [toNat_digit h]
    exact Nat.le_add_right 48 n
  have hhigh : (digit n).toNat ≤ (0x39 : UInt8).toNat := by
    rw [toNat_digit h]
    exact (by omega : 48 + n ≤ 57)
  simp only [isDigit, UInt8.le_iff_toNat_le, hlow, hhigh, decide_true, Bool.and_true]

theorem digitChar_toNat {n : Nat} (h : n < 10) : UInt8.ofNat n.digitChar.toNat = digit n := by
  have hall : ∀ k < 10, UInt8.ofNat k.digitChar.toNat = digit k := by decide
  exact hall n h

theorem ofNat_of_lt {n : Nat} (h : n < 10) : ofNat n = [digit n] := by
  rw [ofNat, Nat.toDigits_of_lt_base h, List.map_singleton, digitChar_toNat h]

theorem ofNat_of_le {n : Nat} (h : 10 ≤ n) : ofNat n = ofNat (n / 10) ++ [digit (n % 10)] := by
  rw [ofNat, Nat.toDigits_of_base_le (by decide) h, List.map_append, List.map_singleton,
    digitChar_toNat (Nat.mod_lt _ (by decide))]
  rfl

/-- Numbers are built by appending digits; their numerals are. -/
theorem ofNat_induction {P : Nat → Bytes → Prop} (hone : ∀ n < 10, P n [digit n])
    (hmore : ∀ n d, 0 < n → d < 10 → P n (ofNat n) → P (10 * n + d) (ofNat n ++ [digit d]))
    (n : Nat) :
    P n (ofNat n) := by
  induction n using Nat.strongRecOn with
  | ind n ih =>
      by_cases h : n < 10
      · rw [ofNat_of_lt h]
        exact hone n h
      · -- The last digit is the remainder; the digits before it are those of the quotient.
        have hle : 10 ≤ n := by omega
        have hshorter := hmore (n / 10) (n % 10) (by omega) (by omega) (ih (n / 10) (by omega))
        rwa [Nat.div_add_mod, ← ofNat_of_le hle] at hshorter

theorem all_isDigit_ofNat (n : Nat) : ∀ b ∈ ofNat n, isDigit b = true := by
  induction n using ofNat_induction with
  | hone n h => simpa using isDigit_digit h
  | hmore n d _ hd ih =>
      intro b hb
      rcases List.mem_append.mp hb with hb | hb
      · exact ih b hb
      · exact List.mem_singleton.mp hb ▸ isDigit_digit hd

/-- Only zero itself starts with a zero. -/
theorem head?_ofNat (n : Nat) : ∃ d, (ofNat n).head? = some d ∧ (d = 0x30 → ofNat n = [0x30]) := by
  suffices h : ∃ d, (ofNat n).head? = some d ∧ (0 < n → d ≠ 0x30) by
    obtain ⟨d, hd, hpos⟩ := h
    refine ⟨d, hd, fun hzero => ?_⟩
    obtain rfl : n = 0 := Nat.eq_zero_of_not_pos fun hn => hpos hn hzero
    decide
  induction n using ofNat_induction with
  | hone n h =>
      refine ⟨digit n, rfl, fun hpos hzero => ?_⟩
      have := toNat_digit h
      rw [hzero] at this
      simp at this
      omega
  | hmore n d hn _ ih =>
      obtain ⟨d', hd', hpos⟩ := ih
      exact ⟨d', by simp [hd'], fun _ => hpos hn⟩

end Decimal

namespace Json

namespace Numeral

theorem extend_append {m k : Nat} {ds : Bytes} (h : extend m ds = (k, [])) (es : Bytes) :
    extend m (ds ++ es) = extend k es := by
  induction ds generalizing m with
  | nil =>
      obtain rfl : m = k := congrArg Prod.fst h
      rfl
  | cons d ds ih =>
      rw [List.cons_append, extend]
      rw [extend] at h
      split at h
      · next hfits => rw [if_pos hfits, ih h]
      · cases h

theorem extend_ofNat (n : Nat) (h : n < 0x10000000000000000) :
    extend 0 (Decimal.ofNat n) = (n, []) := by
  induction n using Decimal.ofNat_induction with
  | hone n hn =>
      rw [extend, Decimal.toNat_digit_sub hn, if_pos (by omega), extend]
      simp
  | hmore n d _ hd ih =>
      rw [extend_append (ih (by omega)), extend, Decimal.toNat_digit_sub hd, if_pos h, extend]

end Numeral

/-- An integer as it is written. -/
def numeral : Int → Numeral
  | .ofNat n => { negative := false, whole := Decimal.ofNat n }
  | .negSucc n => { negative := true, whole := Decimal.ofNat (n + 1) }

theorem integer?_numeral {n : Int} (h : isWord n = true) : (numeral n).integer? = some n := by
  simp only [isWord, Bool.and_eq_true, decide_eq_true_eq] at h
  cases n with
  | ofNat n =>
      have hfits : n < 0x10000000000000000 := by
        have := h.2
        simp only [Int.ofNat_eq_natCast] at this
        omega
      simp [numeral, Numeral.integer?, Numeral.extend_ofNat n hfits]
  | negSucc n =>
      have hfits : n + 1 < 0x10000000000000000 := by
        have := h.1
        omega
      simp [numeral, Numeral.integer?, Numeral.extend_ofNat (n + 1) hfits]
      omega

/-- A number of 64 bits is what its numeral denotes. -/
theorem ofNumeral?_numeral {n : Int} (h : isWord n = true) :
    ofNumeral? (numeral n) = some (.number n) := by
  simp [ofNumeral?, integer?_numeral h, Option.filter, h]

end Json

end CacheAside

import CacheAside.Text.Utf8

/-!
# Layout of values on disk

A value on disk is its expiry, as a signed number of eight bytes with the least byte first, and then
its payload. An expiry of zero stands for never. Anything shorter than eight bytes is no value.
-/

namespace CacheAside.Layout

/-- The bytes of a number below `256 ^ count`, the least one first. -/
def littleEndian : Nat → Nat → Bytes
  | 0, _ => []
  | count + 1, n => UInt8.ofNat (n % 256) :: littleEndian count (n / 256)

/-- The number with the given bytes. -/
def ofLittleEndian : Bytes → Nat
  | [] => 0
  | b :: bs => b.toNat + 256 * ofLittleEndian bs

def headerLength : Nat := 8

def encode (expiry : Option Int64) (payload : Bytes) : Bytes :=
  littleEndian headerLength (expiry.getD 0).toUInt64.toNat ++ payload

/-- The signed number in a header. -/
def header (raw : Bytes) : Int64 := (UInt64.ofNat (ofLittleEndian (raw.take headerLength))).toInt64

/-- The expiry and the payload of a value. -/
def decode? (raw : Bytes) : Option (Option Int64 × Bytes) :=
  if raw.length < headerLength then none
  else some (if header raw = 0 then none else some (header raw), raw.drop headerLength)

theorem ofLittleEndian_littleEndian (count n : Nat) :
    ofLittleEndian (littleEndian count n) = n % Nat.pow 256 count := by
  induction count generalizing n with
  | zero => simp [littleEndian, ofLittleEndian, Nat.mod_one]
  | succ count ih =>
    have hb : (UInt8.ofNat (n % 256)).toNat = n % 256 := by simp
    have hpow : Nat.pow 256 (count + 1) = 256 * Nat.pow 256 count := Nat.mul_comm _ _
    rw [littleEndian, ofLittleEndian, ih, hb, hpow, Nat.mod_mul]

theorem littleEndian_ofLittleEndian (bs : Bytes) :
    littleEndian bs.length (ofLittleEndian bs) = bs := by
  induction bs with
  | nil => rfl
  | cons b bs ih =>
    have hb : b.toNat < 256 := b.toNat_lt
    have hmod : (b.toNat + 256 * ofLittleEndian bs) % 256 = b.toNat := by omega
    have hdiv : (b.toNat + 256 * ofLittleEndian bs) / 256 = ofLittleEndian bs := by omega
    simp [littleEndian, ofLittleEndian, hmod, hdiv, ih]

theorem length_littleEndian (count n : Nat) : (littleEndian count n).length = count := by
  induction count generalizing n with
  | zero => rfl
  | succ count ih => simp [littleEndian, ih]

theorem ofLittleEndian_lt (bs : Bytes) : ofLittleEndian bs < Nat.pow 256 bs.length := by
  have h := ofLittleEndian_littleEndian bs.length (ofLittleEndian bs)
  rw [littleEndian_ofLittleEndian] at h
  rw [h]
  exact Nat.mod_lt _ (Nat.pow_pos (by decide))

/-- Each byte holds the next eight bits. -/
theorem getElem?_littleEndian {count i : Nat} (h : i < count) (n : Nat) :
    (littleEndian count n)[i]? = some (UInt8.ofNat (n >>> (8 * i))) := by
  induction count generalizing i n with
  | zero => exact absurd h (Nat.not_lt_zero i)
  | succ count ih =>
    cases i with
    | zero => exact congrArg some UInt8.ofNat_mod_size
    | succ i =>
      have hbits : n / 256 = n >>> 8 := (Nat.shiftRight_eq_div_pow n 8).symm
      rw [littleEndian, List.getElem?_cons_succ, ih (Nat.lt_of_succ_lt_succ h), hbits,
        ← Nat.shiftRight_add, Nat.mul_succ, Nat.add_comm]

/-! ## Values -/

theorem take_encode (expiry : Option Int64) (payload : Bytes) :
    (encode expiry payload).take headerLength =
      littleEndian headerLength (expiry.getD 0).toUInt64.toNat :=
  List.take_left' (length_littleEndian _ _)

theorem drop_encode (expiry : Option Int64) (payload : Bytes) :
    (encode expiry payload).drop headerLength = payload :=
  List.drop_left' (length_littleEndian _ _)

theorem length_encode (expiry : Option Int64) (payload : Bytes) :
    (encode expiry payload).length = headerLength + payload.length := by
  rw [encode, List.length_append, length_littleEndian]

theorem header_encode (expiry : Option Int64) (payload : Bytes) :
    header (encode expiry payload) = expiry.getD 0 := by
  have hlt := (expiry.getD 0).toUInt64.toNat_lt
  rw [header, take_encode, ofLittleEndian_littleEndian,
    Nat.mod_eq_of_lt (by simpa [headerLength] using hlt)]
  simp

/-- Whatever eight bytes a value starts with, they are those of the number read from them. -/
theorem littleEndian_header {raw : Bytes} (h : headerLength ≤ raw.length) :
    littleEndian headerLength (header raw).toUInt64.toNat = raw.take headerLength := by
  have hlength : (raw.take headerLength).length = headerLength := List.length_take_of_le h
  have hlt := ofLittleEndian_lt (raw.take headerLength)
  rw [hlength] at hlt
  have hnumber : (header raw).toUInt64.toNat = ofLittleEndian (raw.take headerLength) := by
    rw [header, UInt64.toUInt64_toInt64]
    exact UInt64.toNat_ofNat_of_lt' hlt
  have hbytes := littleEndian_ofLittleEndian (raw.take headerLength)
  rwa [hlength, ← hnumber] at hbytes

theorem decode?_eq_none_iff {raw : Bytes} : decode? raw = none ↔ raw.length < headerLength := by
  unfold decode?
  split <;> simp_all

theorem decode?_encode {expiry : Option Int64} (h : expiry ≠ some 0) (payload : Bytes) :
    decode? (encode expiry payload) = some (expiry, payload) := by
  have hlong : ¬(encode expiry payload).length < headerLength := by
    rw [length_encode]
    omega
  rw [decode?, if_neg hlong, header_encode, drop_encode]
  cases expiry with
  | none => rfl
  | some t =>
    have ht : t ≠ 0 := fun ht => h (ht ▸ rfl)
    simp [ht]

/-- What a value is read as has one way to be written. -/
theorem encode_of_decode? {raw : Bytes} {expiry : Option Int64} {payload : Bytes}
    (h : decode? raw = some (expiry, payload)) : encode expiry payload = raw := by
  have hlong : headerLength ≤ raw.length := Nat.le_of_not_lt fun hshort => by
    rw [decode?_eq_none_iff.mpr hshort] at h
    cases h
  rw [decode?, if_neg (Nat.not_lt.mpr hlong)] at h
  obtain ⟨rfl, rfl⟩ := Prod.mk.inj (Option.some.inj h)
  -- Read as never or as a number, the expiry stands for the number in the header.
  have hexpiry : (if header raw = 0 then none else some (header raw)).getD 0 = header raw := by
    split <;> simp_all
  rw [encode, hexpiry, littleEndian_header hlong, List.take_append_drop]

end CacheAside.Layout

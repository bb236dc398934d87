/-!
# Expiry

When entries stop being readable. An entry written with a lifetime of zero seconds never does; any
other is readable as long as the clock has not reached its expiry.
-/

namespace CacheAside

/-- The expiry, in milliseconds, of an entry written now; the latest there is for one beyond. -/
def expiresAt (ttl : UInt32) (now : Int64) : Option Int64 :=
  if ttl = 0 then none
  else some (Int64.ofInt (min (now.toInt + 1000 * ttl.toNat) 0x7FFFFFFFFFFFFFFF))

/-- Whether an entry is readable. -/
def isLive (expiry : Option Int64) (now : Int64) : Bool :=
  match expiry with
  | none => true
  | some t => now < t

@[simp] theorem expiresAt_zero (now : Int64) : expiresAt 0 now = none := rfl

@[simp] theorem isLive_none (now : Int64) : isLive none now = true := rfl

/-- With a lifetime there is an expiry, at its end. -/
theorem expiresAt_eq_some {ttl : UInt32} (httl : ttl ≠ 0) (now : Int64) :
    ∃ t, expiresAt ttl now = some t ∧
      t.toInt = min (now.toInt + 1000 * ttl.toNat) 0x7FFFFFFFFFFFFFFF := by
  have hlow := Int64.le_toInt now
  exact ⟨_, if_neg httl, Int64.toInt_ofInt_of_le (by omega) (by omega)⟩

/-- Nothing expires at zero, as long as the clock is not below it. -/
theorem expiresAt_ne_zero {ttl : UInt32} {now : Int64} (hnow : 0 ≤ now) :
    expiresAt ttl now ≠ some 0 := by
  by_cases httl : ttl = 0
  · simp [httl]
  · obtain ⟨t, hexpiry, hend⟩ := expiresAt_eq_some httl now
    have hpos : 0 < ttl.toNat := UInt32.lt_iff_toNat_lt.mp (UInt32.pos_iff_ne_zero.mpr httl)
    have hle : 0 ≤ now.toInt := Int64.le_iff_toInt_le.mp hnow
    rw [hexpiry]
    rintro ⟨⟩
    have hzero : (0 : Int64).toInt = 0 := rfl
    omega

end CacheAside

import CacheAside.Json

/-!
# Equality of JSON values

Values are equal if they have the same form and hold equal values. Numbers are equal by value: of the
two zeros of a double one equals the other, although they are not written alike.
-/

namespace CacheAside.Json

mutual
def equal : Json → Json → Bool
  | .null, .null => true
  | .bool x, .bool y => x == y
  | .number x, .number y => x == y
  | .real x, .real y => x.equal y
  | .string x, .string y => x == y
  | .array xs, .array ys => equalItems xs ys
  | .object xs, .object ys => equalMembers xs ys
  | _, _ => false

def equalItems : List Json → List Json → Bool
  | [], [] => true
  | x :: xs, y :: ys => equal x y && equalItems xs ys
  | _, _ => false

/-- The members are in the order of their names. -/
def equalMembers : List (String × Json) → List (String × Json) → Bool
  | [], [] => true
  | (m, x) :: xs, (n, y) :: ys => m == n && equal x y && equalMembers xs ys
  | _, _ => false
end

mutual
theorem equal_self : ∀ v : Json, equal v v = true
  | .null => rfl
  | .bool b => by simp [equal]
  | .number n => by simp [equal]
  | .real x => by simp [equal]
  | .string s => by simp [equal]
  | .array vs => by rw [equal, equalItems_self vs]
  | .object ms => by rw [equal, equalMembers_self ms]

theorem equalItems_self : ∀ vs : List Json, equalItems vs vs = true
  | [] => rfl
  | v :: vs => by rw [equalItems, equal_self v, equalItems_self vs]; rfl

theorem equalMembers_self : ∀ ms : List (String × Json), equalMembers ms ms = true
  | [] => rfl
  | (m, v) :: ms => by rw [equalMembers, equal_self v, equalMembers_self ms]; simp
end

mutual
/-- Equal values are equal to the same values. -/
theorem equal_congr : ∀ (a : Json) {b : Json}, equal a b = true → ∀ c, equal a c = equal b c
  | .null, b, h, c => by
      cases b with
      | null => rfl
      | _ => simp [equal] at h
  | .bool x, b, h, c => by
      cases b with
      | bool y => rw [show x = y by simpa [equal] using h]
      | _ => simp [equal] at h
  | .number x, b, h, c => by
      cases b with
      | number y => rw [show x = y by simpa [equal] using h]
      | _ => simp [equal] at h
  | .real x, b, h, c => by
      cases b with
      | real y =>
          rw [equal] at h
          cases c with
          | real z => rw [equal, equal, Binary64.equal_congr h]
          | _ => simp [equal]
      | _ => simp [equal] at h
  | .string x, b, h, c => by
      cases b with
      | string y => rw [show x = y by simpa [equal] using h]
      | _ => simp [equal] at h
  | .array xs, b, h, c => by
      cases b with
      | array ys =>
          rw [equal] at h
          cases c with
          | array zs => rw [equal, equal, equalItems_congr xs h]
          | _ => simp [equal]
      | _ => simp [equal] at h
  | .object xs, b, h, c => by
      cases b with
      | object ys =>
          rw [equal] at h
          cases c with
          | object zs => rw [equal, equal, equalMembers_congr xs h]
          | _ => simp [equal]
      | _ => simp [equal] at h

theorem equalItems_congr : ∀ (as : List Json) {bs : List Json}, equalItems as bs = true →
    ∀ cs, equalItems as cs = equalItems bs cs
  | [], bs, h, cs => by
      cases bs with
      | nil => rfl
      | cons b bs => simp [equalItems] at h
  | a :: as, bs, h, cs => by
      cases bs with
      | nil => simp [equalItems] at h
      | cons b bs =>
          rw [equalItems, Bool.and_eq_true] at h
          cases cs with
          | nil => simp [equalItems]
          | cons c cs =>
              rw [equalItems, equalItems, equal_congr a h.1, equalItems_congr as h.2]

theorem equalMembers_congr : ∀ (as : List (String × Json)) {bs : List (String × Json)},
    equalMembers as bs = true → ∀ cs, equalMembers as cs = equalMembers bs cs
  | [], bs, h, cs => by
      cases bs with
      | nil => rfl
      | cons b bs => simp [equalMembers] at h
  | (m, a) :: as, bs, h, cs => by
      cases bs with
      | nil => simp [equalMembers] at h
      | cons b bs =>
          obtain ⟨n, b⟩ := b
          rw [equalMembers, Bool.and_eq_true, Bool.and_eq_true, beq_iff_eq] at h
          obtain ⟨⟨rfl, hab⟩, hrest⟩ := h
          cases cs with
          | nil => simp [equalMembers]
          | cons c cs =>
              rw [equalMembers, equalMembers, equal_congr a hab, equalMembers_congr as hrest]
end

instance : BEq Json := ⟨equal⟩

instance : EquivBEq Json where
  rfl := equal_self _
  symm {a _} h := (equal_congr a h a).symm.trans (equal_self a)
  trans {a _ c} h h' := (equal_congr a h c).trans h'

end CacheAside.Json

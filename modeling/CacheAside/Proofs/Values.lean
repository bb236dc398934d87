import CacheAside.Proofs.Documents

/-!
# Documents and their values

A text is before another if and only if its bytes are. Members that stand in the order of their
names stay as they are when they are put in place one by one, so the document of a value denotes
that value, unless it is nested too deep.
-/

namespace CacheAside

/-! ## The order of texts -/

theorem utf8_eq_flatMap (s : String) : utf8 s = s.toList.flatMap String.utf8EncodeChar := by
  rw [utf8, ← String.utf8Encode_toList, List.utf8Encode]
  simp

/-- Bytes made of small numbers are compared as the numbers are. -/
theorem cons_ofNat_lt_cons_ofNat_iff {a b : Nat} (ha : a < 256) (hb : b < 256) (r s : Bytes) :
    UInt8.ofNat a :: r < UInt8.ofNat b :: s ↔ a < b ∨ a = b ∧ r < s := by
  rw [List.cons_lt_cons_iff, UInt8.lt_iff_toNat_lt, ← UInt8.toNat_inj,
    UInt8.toNat_ofNat_of_lt' ha, UInt8.toNat_ofNat_of_lt' hb]

/-- Numbers are compared digit by digit, here by four digits to the base of 64. -/
theorem digits_lt {m n : Nat} (h : m < n) (hmax : n < 0x200000) :
    m / 262144 % 8 < n / 262144 % 8 ∨ m / 262144 % 8 = n / 262144 % 8 ∧
      (m / 4096 % 64 < n / 4096 % 64 ∨ m / 4096 % 64 = n / 4096 % 64 ∧
        (m / 64 % 64 < n / 64 % 64 ∨ m / 64 % 64 = n / 64 % 64 ∧ m % 64 < n % 64)) := by
  rw [Nat.mod_eq_of_lt (by omega : m / 262144 < 8), Nat.mod_eq_of_lt (by omega : n / 262144 < 8)]
  by_cases h3 : m / 262144 = n / 262144
  · by_cases h2 : m / 4096 = n / 4096
    · by_cases h1 : m / 64 = n / 64
      · exact .inr ⟨h3, .inr ⟨by rw [h2], .inr ⟨by rw [h1], by omega⟩⟩⟩
      · exact .inr ⟨h3, .inr ⟨by rw [h2], .inl (by omega)⟩⟩
    · exact .inr ⟨h3, .inl (by omega)⟩
  · exact .inl (by omega)

/-- A character that comes first has bytes that come first, whatever follows them. -/
theorem utf8EncodeChar_append_lt {c d : Char} (h : c < d) (r s : Bytes) :
    String.utf8EncodeChar c ++ r < String.utf8EncodeChar d ++ s := by
  have hlt : c.val.toNat < d.val.toNat := UInt32.lt_iff_toNat_lt.mp h
  have hmax : d.val.toNat < 0x110000 := by
    have := d.valid
    simp only [UInt32.isValidChar, Nat.isValidChar] at this
    omega
  have hdigits := digits_lt hlt (by omega)
  -- The cases are the lengths of the two encodings; the first byte tells the length.
  simp only [String.utf8EncodeChar]
  repeat' split
  all_goals
    simp (disch := omega) only [List.cons_append, List.nil_append, cons_ofNat_lt_cons_ofNat_iff]
    omega

theorem flatMap_utf8EncodeChar_lt {cs ds : List Char} (h : cs < ds) :
    cs.flatMap String.utf8EncodeChar < ds.flatMap String.utf8EncodeChar := by
  induction cs generalizing ds with
  | nil =>
      cases ds with
      | nil => simp at h
      | cons d ds =>
          obtain ⟨b, bs, hb⟩ := List.exists_cons_of_ne_nil (String.utf8EncodeChar_ne_nil (c := d))
          simp [hb]
  | cons c cs ih =>
      cases ds with
      | nil => simp at h
      | cons d ds =>
          rw [List.flatMap_cons, List.flatMap_cons]
          rcases List.cons_lt_cons_iff.mp h with hlt | ⟨rfl, htail⟩
          · exact utf8EncodeChar_append_lt hlt _ _
          · exact List.append_left_lt (ih htail)

theorem utf8_lt_utf8_iff {s t : String} : utf8 s < utf8 t ↔ s < t := by
  have hmono {s t : String} (h : s < t) : utf8 s < utf8 t := by
    rw [utf8_eq_flatMap, utf8_eq_flatMap]
    exact flatMap_utf8EncodeChar_lt (String.lt_iff.mp h)
  refine ⟨fun h => Decidable.byContradiction fun hst => ?_, hmono⟩
  by_cases hts : t < s
  · exact List.lt_asymm h (hmono hts)
  · obtain rfl : s = t := String.le_antisymm (String.not_lt.mp hts) (String.not_lt.mp hst)
    exact List.lt_irrefl _ h

namespace Json

/-! ## Members in order -/

theorem putMember_last {name : String} {v : Json} {ms : List (String × Json)}
    (h : ∀ m ∈ ms, m.1 < name) : putMember name v ms = ms ++ [(name, v)] := by
  induction ms with
  | nil => rfl
  | cons m ms ih =>
      obtain ⟨n, w⟩ := m
      have hn : n < name := h _ List.mem_cons_self
      have hne : name ≠ n := fun heq => String.lt_irrefl n (heq ▸ hn)
      rw [putMember, if_neg (String.lt_asymm hn), if_neg hne,
        ih fun m hm => h m (List.mem_cons_of_mem _ hm), List.cons_append]

/-! ## Values -/

mutual
/-- The members of each object stand in the order of their names, as bytes, and none twice. -/
def Ordered : Json → Prop
  | .array vs => OrderedItems vs
  | .object ms => ms.Pairwise (fun m n => utf8 m.1 < utf8 n.1) ∧ OrderedMembers ms
  | _ => True

def OrderedItems : List Json → Prop
  | [] => True
  | v :: vs => Ordered v ∧ OrderedItems vs

def OrderedMembers : List (String × Json) → Prop
  | [] => True
  | (_, v) :: ms => Ordered v ∧ OrderedMembers ms
end

mutual
/-- The document of a value denotes that value, unless it is nested deeper than is read. -/
theorem ofDocument?_document : (v : Json) → v.Integral → v.Ordered → (n : Nat) →
    ofDocument? n v.document = if v.depth ≤ n then some v else none
  | .null, _, _, n => by simp [document, ofDocument?, depth]
  | .bool b, _, _, n => by simp [document, ofDocument?, depth]
  | .number i, h, _, n => by
      simp only [Integral] at h
      simp [document, ofDocument?, depth, ofNumeral?_numeral h]
  | .real _, h, _, _ => h.elim
  | .string s, _, _, n => by simp [document, ofDocument?, depth, Quoted.resolve?_pieces]
  | .array vs, _, _, 0 => by simp [document, ofDocument?, depth]
  | .array vs, h, ho, n + 1 => by
      rw [document, ofDocument?, itemsOf?_documents vs h ho n, depth]
      by_cases hn : itemsDepth vs ≤ n
      · simp [hn]
      · simp [hn]
  | .object ms, _, _, 0 => by simp [document, ofDocument?, depth]
  | .object ms, h, ho, n + 1 => by
      rw [document, ofDocument?, membersOf?_memberDocuments ms h ho.2 n [] ho.1, depth]
      by_cases hn : membersDepth ms ≤ n
      · simp [hn]
      · simp [hn]

theorem itemsOf?_documents : (vs : List Json) → IntegralItems vs → OrderedItems vs → (n : Nat) →
    itemsOf? n (documents vs) = if itemsDepth vs ≤ n then some vs else none
  | [], _, _, n => by simp [documents, itemsOf?, itemsDepth]
  | v :: vs, h, ho, n => by
      rw [documents, itemsOf?, ofDocument?_document v h.1 ho.1 n, itemsOf?_documents vs h.2 ho.2 n]
      simp only [itemsDepth, Nat.max_le]
      by_cases hv : v.depth ≤ n
      · by_cases hvs : itemsDepth vs ≤ n
        · simp [hv, hvs]
        · simp [hv, hvs]
      · simp [hv]

theorem membersOf?_memberDocuments : (ms : List (String × Json)) → IntegralMembers ms →
    OrderedMembers ms → (n : Nat) → (done : List (String × Json)) →
    (done ++ ms).Pairwise (fun m n => utf8 m.1 < utf8 n.1) →
    membersOf? n (memberDocuments ms) done =
      if membersDepth ms ≤ n then some (done ++ ms) else none
  | [], _, _, n, done, _ => by simp [memberDocuments, membersOf?, membersDepth]
  | (name, v) :: ms, h, ho, n, done, horder => by
      -- The names in place are all smaller, so that the next member goes to the end.
      have hlast : putMember name v done = done ++ [(name, v)] := putMember_last fun m hm =>
        utf8_lt_utf8_iff.mp ((List.pairwise_append.mp horder).2.2 m hm _ List.mem_cons_self)
      have hrest := membersOf?_memberDocuments ms h.2 ho.2 n (done ++ [(name, v)])
        (by simpa using horder)
      rw [memberDocuments, membersOf?, Quoted.resolve?_pieces, ofDocument?_document v h.1 ho.1 n]
      simp only [membersDepth, Nat.max_le]
      by_cases hv : v.depth ≤ n
      · simp [hv, hlast, hrest]
      · simp [hv]
end

end Json

end CacheAside

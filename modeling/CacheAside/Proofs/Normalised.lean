import CacheAside.Proofs.Codecs

/-!
# Whatever is stored

What comes of bytes that the JSON codec has not written itself. Only the sentinel is the null entry.
A value keeps nothing of the way in which it was spelt: its members are in order, none is there
twice, and it is nested no deeper than is read. So it is stored in one form from then on.
-/

namespace CacheAside

/-! ## Integers as they are written -/

namespace Json

/-- The digits of a number that is written as an integer of 64 bits. A zero has no sign. -/
structure Numeral.IsWord (n : Numeral) : Prop where
  fraction : n.fraction = []
  exponent : n.exponent = none
  positive : n.negative = false → Decimal.toNat n.whole < 0x10000000000000000
  negative : n.negative = true →
    0 < Decimal.toNat n.whole ∧ Decimal.toNat n.whole ≤ 0x8000000000000000

namespace Numeral

theorem le_foldl_digits (digits : Bytes) (m : Nat) :
    m ≤ digits.foldl (fun n b => 10 * n + (b.toNat - 0x30)) m := by
  induction digits generalizing m with
  | nil => exact Nat.le_refl m
  | cons d digits ih =>
      rw [List.foldl_cons]
      exact Nat.le_trans (by omega) (ih _)

/-- All digits are taken in if the whole number fits. -/
theorem extend_eq_foldl (digits : Bytes) (m : Nat)
    (h : digits.foldl (fun n b => 10 * n + (b.toNat - 0x30)) m < 0x10000000000000000) :
    extend m digits = (digits.foldl (fun n b => 10 * n + (b.toNat - 0x30)) m, []) := by
  induction digits generalizing m with
  | nil => rfl
  | cons d digits ih =>
      rw [List.foldl_cons] at h ⊢
      rw [extend, if_pos (Nat.lt_of_le_of_lt (le_foldl_digits digits _) h), ih _ h]

theorem IsWord.exists_integer {n : Numeral} (h : n.IsWord) :
    ∃ i, n.integer? = some i ∧ isWord i = true := by
  have hfits : Decimal.toNat n.whole < 0x10000000000000000 := by
    cases hsign : n.negative with
    | false => exact h.positive hsign
    | true => exact Nat.lt_of_le_of_lt (h.negative hsign).2 (by decide)
  have hextend : extend 0 n.whole = (Decimal.toNat n.whole, []) := extend_eq_foldl n.whole 0 hfits
  cases hsign : n.negative with
  | false =>
      refine ⟨Decimal.toNat n.whole, by simp [integer?, h.fraction, h.exponent, hextend, hsign], ?_⟩
      simp only [isWord, Bool.and_eq_true, decide_eq_true_eq]
      omega
  | true =>
      obtain ⟨hpos, hmax⟩ := h.negative hsign
      refine ⟨-(Decimal.toNat n.whole : Int), ?_, ?_⟩
      · simp [integer?, h.fraction, h.exponent, hextend, hsign, Nat.ne_of_gt hpos]
      · simp only [isWord, Bool.and_eq_true, decide_eq_true_eq]
        omega

end Numeral

mutual
/-- All numbers in a document are written as integers of 64 bits. -/
def Document.Words : Document → Prop
  | .number n => n.IsWord
  | .array ds => Document.WordsItems ds
  | .object ms => Document.WordsMembers ms
  | .null | .bool _ | .string _ => True

def Document.WordsItems : List Document → Prop
  | [] => True
  | d :: ds => Document.Words d ∧ Document.WordsItems ds

def Document.WordsMembers : List (List Piece × Document) → Prop
  | [] => True
  | (_, d) :: ms => Document.Words d ∧ Document.WordsMembers ms
end

/-- All numbers in a text are written as integers of 64 bits. -/
def SpellsWords (bs : Bytes) : Prop := ∀ d, Document.parse? bs = some d → d.Words

/-! ## Values that have been read -/

/-- What a value is that has been read: without doubles, in order, and nested at most so deep. -/
structure Settled (n : Nat) (v : Json) : Prop where
  integral : v.Integral
  ordered : v.Ordered
  depth : v.depth ≤ n

/-- Members in the order of their names, none twice. -/
def InOrder (ms : List (String × Json)) : Prop := ms.Pairwise fun m m' => m.1 < m'.1

variable {n : Nat} {v : Json} {vs : List Json} {name : String} {ms : List (String × Json)}

theorem settled_array (h : ∀ v ∈ vs, v.Settled n) : (Json.array vs).Settled (n + 1) := by
  suffices hitems : IntegralItems vs ∧ OrderedItems vs ∧ itemsDepth vs ≤ n by
    exact ⟨hitems.1, hitems.2.1, Nat.succ_le_succ hitems.2.2⟩
  induction vs with
  | nil => exact ⟨trivial, trivial, Nat.zero_le n⟩
  | cons v vs ih =>
      obtain ⟨hv, hvs⟩ := List.forall_mem_cons.mp h
      obtain ⟨hintegral, hordered, hdepth⟩ := ih hvs
      exact ⟨⟨hv.integral, hintegral⟩, ⟨hv.ordered, hordered⟩, Nat.max_le.mpr ⟨hv.depth, hdepth⟩⟩

theorem settled_object (hms : InOrder ms) (h : ∀ m ∈ ms, m.2.Settled n) :
    (Json.object ms).Settled (n + 1) := by
  suffices hmembers : IntegralMembers ms ∧ OrderedMembers ms ∧ membersDepth ms ≤ n by
    exact ⟨hmembers.1, ⟨hms.imp utf8_lt_utf8_iff.mpr, hmembers.2.1⟩,
      Nat.succ_le_succ hmembers.2.2⟩
  clear hms
  induction ms with
  | nil => exact ⟨trivial, trivial, Nat.zero_le n⟩
  | cons m ms ih =>
      obtain ⟨hm, hms⟩ := List.forall_mem_cons.mp h
      obtain ⟨hintegral, hordered, hdepth⟩ := ih hms
      exact ⟨⟨hm.integral, hintegral⟩, ⟨hm.ordered, hordered⟩, Nat.max_le.mpr ⟨hm.depth, hdepth⟩⟩

theorem mem_putMember {m : String × Json} (h : m ∈ putMember name v ms) :
    m = (name, v) ∨ m ∈ ms := by
  induction ms with
  | nil => exact .inl (List.mem_singleton.mp h)
  | cons first ms ih =>
      rw [putMember] at h
      split at h
      · exact List.mem_cons.mp h
      split at h
      · exact (List.mem_cons.mp h).imp_right (List.mem_cons_of_mem _)
      · rcases List.mem_cons.mp h with rfl | h
        · exact .inr List.mem_cons_self
        · exact (ih h).imp_right (List.mem_cons_of_mem _)

/-- A member that is put in place keeps the order. -/
theorem inOrder_putMember (h : InOrder ms) : InOrder (putMember name v ms) := by
  induction ms with
  | nil => exact List.pairwise_singleton _ _
  | cons first ms ih =>
      obtain ⟨hfirst, hms⟩ := List.pairwise_cons.mp h
      rw [putMember]
      split
      · next hlt =>
          refine List.pairwise_cons.mpr ⟨fun m hm => ?_, h⟩
          rcases List.mem_cons.mp hm with rfl | hm
          · exact hlt
          · exact String.lt_trans hlt (hfirst m hm)
      next hlt =>
      split
      · next heq => exact List.pairwise_cons.mpr ⟨fun m hm => heq ▸ hfirst m hm, hms⟩
      · next hne =>
          refine List.pairwise_cons.mpr ⟨fun m hm => ?_, ih hms⟩
          rcases mem_putMember hm with rfl | hm
          · exact Decidable.byContradiction fun hnot => hne
              (String.le_antisymm (String.not_lt.mp hnot) (String.not_lt.mp hlt))
          · exact hfirst m hm

theorem ofNumeral?_of_isWord {i : Numeral} (h : i.IsWord) :
    ∃ k, ofNumeral? i = some (.number k) ∧ isWord k = true := by
  obtain ⟨k, hk, hword⟩ := h.exists_integer
  exact ⟨k, by simp [ofNumeral?, hk, Option.filter, hword], hword⟩

mutual
/-- What is read of integers is settled, however it has been spelt. -/
theorem settled_ofDocument? : (d : Document) → d.Words → {n : Nat} → {v : Json} →
    ofDocument? n d = some v → v.Settled n
  | .null, _, n, v, h | .bool _, _, n, v, h => by
      rw [ofDocument?] at h
      cases h
      exact ⟨trivial, trivial, Nat.zero_le n⟩
  | .number i, hd, n, v, h => by
      obtain ⟨k, hk, hword⟩ := ofNumeral?_of_isWord hd
      rw [ofDocument?, hk] at h
      cases h
      exact ⟨hword, trivial, Nat.zero_le n⟩
  | .string ps, _, n, v, h => by
      rw [ofDocument?] at h
      obtain ⟨s, -, rfl⟩ := Option.map_eq_some_iff.mp h
      exact ⟨trivial, trivial, Nat.zero_le n⟩
  | .array ds, _, 0, v, h | .object ms, _, 0, v, h => by simp [ofDocument?] at h
  | .array ds, hd, n + 1, v, h => by
      rw [ofDocument?] at h
      obtain ⟨vs, hvs, rfl⟩ := Option.map_eq_some_iff.mp h
      exact settled_array (settled_itemsOf? ds hd hvs)
  | .object ms, hd, n + 1, v, h => by
      rw [ofDocument?] at h
      obtain ⟨ms', hms, rfl⟩ := Option.map_eq_some_iff.mp h
      obtain ⟨horder, hsettled⟩ := settled_membersOf? ms hd hms .nil (List.forall_mem_nil _)
      exact settled_object horder hsettled

theorem settled_itemsOf? : (ds : List Document) → Document.WordsItems ds → {n : Nat} →
    {vs : List Json} → itemsOf? n ds = some vs → ∀ v ∈ vs, v.Settled n
  | [], _, n, vs, h => by
      rw [itemsOf?] at h
      cases h
      exact List.forall_mem_nil _
  | d :: ds, hd, n, vs, h => by
      rw [itemsOf?] at h
      split at h
      · next v vs hv hvs =>
          cases h
          exact List.forall_mem_cons.mpr
            ⟨settled_ofDocument? d hd.1 hv, settled_itemsOf? ds hd.2 hvs⟩
      · cases h

theorem settled_membersOf? : (ms : List (List Piece × Document)) → Document.WordsMembers ms →
    {n : Nat} → {done out : List (String × Json)} → membersOf? n ms done = some out →
    InOrder done → (∀ m ∈ done, m.2.Settled n) → InOrder out ∧ ∀ m ∈ out, m.2.Settled n
  | [], _, n, done, out, h, horder, hdone => by
      rw [membersOf?] at h
      cases h
      exact ⟨horder, hdone⟩
  | (ps, d) :: ms, hd, n, done, out, h, horder, hdone => by
      rw [membersOf?] at h
      split at h
      · next name v hname hv =>
          refine settled_membersOf? ms hd.2 h (inOrder_putMember horder) fun m hm => ?_
          rcases mem_putMember hm with rfl | hm
          · exact settled_ofDocument? d hd.1 hv
          · exact hdone m hm
      · cases h
end

end Json

/-! ## Entries that have been read -/

namespace Kind

/-- What is read as a value of any kind can be read again once it is stored. -/
theorem plain_of_read {k : Kind} {d : Json.Document} {v : k} (h : k.read d = .ok v)
    (hwords : k = .json → d.Words) : k.Plain v ∧ k.depth v ≤ Json.maxDepth := by
  cases k with
  | json =>
      simp only [read] at h
      cases hv : Json.ofDocument? Json.maxDepth d with
      | none => rw [hv] at h; cases h
      | some u =>
          rw [hv] at h
          cases h
          have hsettled := Json.settled_ofDocument? d (hwords rfl) hv
          exact ⟨⟨hsettled.integral, hsettled.ordered⟩, hsettled.depth⟩
  | compound | item => exact ⟨trivial, (by decide : 1 ≤ Json.maxDepth)⟩
  | word32 | word64 | int64 | string | slice | optionalWord32 | fragile =>
      exact ⟨trivial, Nat.zero_le _⟩

end Kind

namespace Codec

variable {k : Kind} {bs bs' : Bytes} {v : k}

theorem read_of_decode (h : json.decode k bs = .ok (.value v)) :
    ∃ d, Json.Document.parse? bs = some d ∧ k.read d = .ok v := by
  simp only [json, decodeJson, decodeValue] at h
  split at h
  · cases h
  cases hd : Json.Document.parse? bs with
  | none => rw [hd] at h; cases h
  | some d =>
      rw [hd] at h
      cases hv : k.read d with
      | error e => simp only [hv] at h; cases h
      | ok u =>
          simp only [hv] at h
          cases h
          exact ⟨d, rfl, hv⟩

theorem toJson_of_encode (h : json.encode (.value v) = .ok bs) :
    ∃ j, k.toJson v = .ok j ∧ j.render = bs := by
  simp only [json, encodeJson, encodeValue] at h
  cases hj : k.toJson v with
  | error e => rw [hj] at h; cases h
  | ok j =>
      rw [hj] at h
      exact ⟨j, rfl, Except.ok.inj h⟩

/-- What has been read is stored so that it is read again. -/
theorem decode_of_encode (h : json.decode k bs = .ok (.value v))
    (hwords : k = .json → Json.SpellsWords bs) (hencode : json.encode (.value v) = .ok bs') :
    json.decode k bs' = .ok (.value v) ∧ bs' ≠ sentinel := by
  obtain ⟨d, hd, hread⟩ := read_of_decode h
  obtain ⟨hplain, hdepth⟩ := Kind.plain_of_read hread fun hk => hwords hk d hd
  obtain ⟨j, hj, rfl⟩ := toJson_of_encode hencode
  obtain ⟨hintegral, hagain⟩ := Kind.read_toJson hplain hj
  rw [if_pos hdepth] at hagain
  refine ⟨by rw [decode_render hintegral, hagain], ?_⟩
  simpa [isSentinel] using (isSentinel_render hintegral).2

theorem decode_eq_null_iff : json.decode k bs = .ok .null ↔ bs = sentinel := by
  simp only [json, decodeJson, isSentinel, beq_iff_eq]
  by_cases h : bs = sentinel
  · simp [h]
  · rw [if_neg h]
    cases decodeValue k bs <;> simp [h]

theorem decode_eq_error {e : CodecError} (h : json.decode k bs = .error e) :
    ∃ reason, e = .decode reason := by
  simp only [json, decodeJson, decodeValue] at h
  split at h
  · cases h
  cases hd : Json.Document.parse? bs with
  | none => rw [hd] at h; cases h; exact ⟨_, rfl⟩
  | some d =>
      rw [hd] at h
      cases hv : k.read d with
      | error e' => simp only [hv] at h; cases h; exact ⟨_, rfl⟩
      | ok u => simp only [hv] at h; cases h

/-- Any bytes are the null entry, a value or refused, and only the sentinel is the null entry. A
value that can be stored is stored in one form, which is read as that value and never taken for the
null entry, in whatever way its bytes have spelt it. -/
theorem json_normalises (k : Kind) (bs : Bytes) :
    (json.decode k bs = .ok .null ↔ bs = sentinel) ∧
    json.decode .optionalWord32 (utf8 "null") = .ok (.value none) ∧
    json.decode .json (utf8 "null") = .ok (.value .null) ∧
    (∀ e, json.decode k bs = .error e → ∃ reason, e = .decode reason) ∧
    ∀ v : k, json.decode k bs = .ok (.value v) →
      (k.isRefused v = false → ∃ bs', json.encode (.value v) = .ok bs') ∧
      ∀ bs', (k = .json → Json.SpellsWords bs) → json.encode (.value v) = .ok bs' →
        bs' ≠ sentinel ∧
          ∃ e, json.decode k bs' = .ok e ∧ e = .value v ∧ json.encode e = .ok bs' := by
  refine ⟨decode_eq_null_iff, by rfl, by rfl, fun e h => decode_eq_error h, fun v h => ⟨?_, ?_⟩⟩
  · intro hrefused
    obtain ⟨j, hj⟩ := Kind.toJson_of_not_refused hrefused
    exact ⟨j.render, encode_value_of_toJson hj⟩
  · intro bs' hwords hencode
    obtain ⟨hdecode, hne⟩ := decode_of_encode h hwords hencode
    exact ⟨hne, .value v, hdecode, rfl, hencode⟩

/-- Blanks, an escape, a member in front of its place and one that is there twice are gone. -/
theorem json_normalises_of_duplicates :
    let bs := utf8 "\x7b \"b\" : [-1, 2], \"a\":0,\n\"b\":\"\\u0041\" \x7d"
    let v : Json := .object [("a", .number 0), ("b", .string "A")]
    json.decode .json bs = .ok (.value v) ∧ Json.SpellsWords bs ∧
      ∃ bs', json.encode (k := .json) (.value v) = .ok bs' ∧ bs' ≠ sentinel ∧
        json.decode .json bs' = .ok (.value v) := by
  intro bs v
  have hdecode : json.decode .json bs = .ok (.value v) := by rfl
  have hwords : Json.SpellsWords bs := by
    intro d hd
    have hparse : Json.Document.parse? bs = some (.object [
        ([.byte 0x62], .array [.number { negative := true, whole := utf8 "1" },
          .number { negative := false, whole := utf8 "2" }]),
        ([.byte 0x61], .number { negative := false, whole := utf8 "0" }),
        ([.byte 0x62], .string [.unit 0x41])]) := by rfl
    cases Option.some.inj (hd.symm.trans hparse)
    refine ⟨⟨?_, ?_, trivial⟩, ?_, trivial, trivial⟩ <;> constructor <;> decide
  obtain ⟨hencode, hagain⟩ := (json_normalises .json bs).2.2.2.2 v hdecode
  obtain ⟨bs', hbs⟩ := hencode (by rfl)
  obtain ⟨hne, e, he, rfl, -⟩ := hagain bs' (fun _ => hwords) hbs
  exact ⟨hdecode, hwords, bs', hbs, hne, he⟩

end Codec

end CacheAside

import CacheAside.Codec
import CacheAside.Proofs.Values

/-!
# Stored values read back

What the JSON codec stores for an entry of any kind is read back as that entry, and the stored form
of a value is never that of the null entry. The only values it refuses to store are negative fragile
numbers, and the only ones it stores and cannot read back are nested too deep.
-/

namespace CacheAside

namespace Json.Document

variable {n : Int} {low high : Int}

theorem intWithin?_number (hn : isWord n = true) (hlow : low ≤ n) (hhigh : n < high) :
    intWithin? low high (Json.number n).document = some n := by
  simp [document, intWithin?, integer?_numeral hn, hlow, hhigh]

theorem isWord_of_lt (hlow : 0 ≤ n) (hhigh : n < 0x10000000000000000) : isWord n = true := by
  simp only [isWord, Bool.and_eq_true, decide_eq_true_eq]
  omega

theorem word32?_number (x : UInt32) : word32? (Json.number x.toNat).document = some x := by
  have hx : (x.toNat : Int) < 0x100000000 := by
    have := x.toNat_lt
    omega
  rw [word32?, intWithin?_number (isWord_of_lt (by omega) (by omega)) (by omega) hx]
  simp

theorem word64?_number (x : UInt64) : word64? (Json.number x.toNat).document = some x := by
  have hx : (x.toNat : Int) < 0x10000000000000000 := by
    have := x.toNat_lt
    omega
  rw [word64?, intWithin?_number (isWord_of_lt (by omega) hx) (by omega) hx]
  simp

theorem isWord_toInt (x : Int64) : isWord x.toInt = true := by
  have hlow := x.le_toInt
  have hhigh := x.toInt_lt
  simp only [isWord, Bool.and_eq_true, decide_eq_true_eq]
  omega

theorem int64?_number (x : Int64) : int64? (Json.number x.toInt).document = some x := by
  have hx : int64? (Json.number x.toInt).document = (some x.toInt).map Int64.ofInt :=
    congrArg _ (intWithin?_number (isWord_toInt x) x.le_toInt x.toInt_lt)
  simpa using hx

theorem string?_string (s : String) : string? (Json.string s).document = some s :=
  Quoted.resolve?_pieces s

theorem mapM_string?_documents (parts : List String) :
    (documents (parts.map .string)).mapM string? = some parts := by
  induction parts with
  | nil => rfl
  | cons s parts ih => simp [documents, string?_string, ih]

end Json.Document

namespace Kind

open Json (maxDepth)

/-- Free JSON values have to be without doubles and in order; all other values are as they are. -/
def Plain : (k : Kind) → k → Prop
  | json, v => Json.Integral v ∧ Json.Ordered v
  | _, _ => True

/-- How deep arrays and objects are nested in the JSON form of a value. -/
def depth : (k : Kind) → k → Nat
  | json, v => Json.depth v
  | compound, _ | item, _ => 1
  | _, _ => 0

/-- Negative fragile numbers, which have no JSON form. -/
def isRefused : (k : Kind) → k → Bool
  | fragile, n => n < 0
  | _, _ => false

theorem integral_strings (parts : List String) : Json.IntegralItems (parts.map .string) := by
  induction parts with
  | nil => trivial
  | cons s parts ih => exact ⟨trivial, ih⟩

open Json.Document

theorem readItem_toJson (i : Item) : readItem (Json.object
    [("sku", .string i.sku), ("price", .number i.price.toNat)]).document = some i := by
  have hfields : fields? ["sku", "price"] (Json.object
      [("sku", .string i.sku), ("price", .number i.price.toNat)]).document =
        some [("sku", (Json.string i.sku).document),
          ("price", (Json.number i.price.toNat).document)] := by
    simp [Json.document, Json.memberDocuments, fields?, knownMembers?,
      Json.Quoted.resolve?_pieces]
  rw [readItem, hfields]
  simp [required?, List.lookup_cons, string?_string, word32?_number]

theorem ofParts_parts (c : CompoundId) : CompoundId.ofParts c.parts = .ok c := by
  rw [CompoundId.ofParts, dif_neg c.ne_nil]
  split
  · next heq => exact absurd (heq.symm.trans c.checked) nofun
  · rfl

theorem read_compound (c : CompoundId) :
    Kind.read .compound (Json.array (c.parts.map .string)).document = .ok c := by
  have hparts : readParts (Json.array (c.parts.map .string)).document = some c.parts :=
    mapM_string?_documents c.parts
  simp only [read, hparts, ofParts_parts]

theorem isWord_toNat (x : UInt32) : Json.isWord x.toNat = true := by
  have := x.toNat_lt
  exact isWord_of_lt (by omega) (by omega)

/-- The JSON form of a value has no doubles, and its document is read as that value, unless it is
nested too deep. -/
theorem read_toJson {k : Kind} {v : k} {j : Json} (hv : k.Plain v) (hj : k.toJson v = .ok j) :
    j.Integral ∧ k.read j.document = if k.depth v ≤ maxDepth then .ok v else .error .malformed := by
  cases k with
  | word32 =>
      obtain rfl := Except.ok.inj hj
      exact ⟨isWord_toNat v, congrArg ofOption (word32?_number v)⟩
  | word64 =>
      obtain rfl := Except.ok.inj hj
      exact ⟨isWord_of_lt (by omega) (Int.ofNat_lt.mpr v.toNat_lt),
        congrArg ofOption (word64?_number v)⟩
  | int64 =>
      obtain rfl := Except.ok.inj hj
      exact ⟨isWord_toInt v, congrArg ofOption (int64?_number v)⟩
  | string | slice =>
      obtain rfl := Except.ok.inj hj
      exact ⟨trivial, congrArg ofOption (string?_string v)⟩
  | compound =>
      obtain rfl := Except.ok.inj hj
      exact ⟨integral_strings v.parts, read_compound v⟩
  | item =>
      obtain rfl := Except.ok.inj hj
      exact ⟨⟨trivial, isWord_toNat v.price, trivial⟩, congrArg ofOption (readItem_toJson v)⟩
  | optionalWord32 =>
      cases v with
      | none =>
          obtain rfl := Except.ok.inj hj
          exact ⟨trivial, rfl⟩
      | some n =>
          obtain rfl := Except.ok.inj hj
          refine ⟨isWord_toNat n, ?_⟩
          have hread : option? word32? (Json.number n.toNat).document = some (some n) :=
            congrArg (Option.map some) (word32?_number n)
          exact congrArg ofOption hread
  | json =>
      obtain rfl := Except.ok.inj hj
      refine ⟨hv.1, ?_⟩
      -- Of all kinds only this one has values that are nested too deep.
      have hread := Json.ofDocument?_document v hv.1 hv.2 maxDepth
      by_cases hdepth : Json.depth v ≤ maxDepth
      · rw [if_pos hdepth] at hread
        exact (congrArg ofOption hread).trans (if_pos hdepth).symm
      · rw [if_neg hdepth] at hread
        exact (congrArg ofOption hread).trans (if_neg hdepth).symm
  | fragile =>
      simp only [toJson] at hj
      split at hj
      · cases hj
      · obtain rfl := Except.ok.inj hj
        exact ⟨isWord_toInt v, congrArg ofOption (int64?_number v)⟩

theorem toJson_of_refused {k : Kind} {v : k} (h : k.isRefused v = true) :
    ∃ reason, k.toJson v = .error reason := by
  cases k with
  | fragile => exact ⟨_, if_pos (of_decide_eq_true h)⟩
  | _ => cases h

theorem toJson_of_not_refused {k : Kind} {v : k} (h : k.isRefused v = false) :
    ∃ j, k.toJson v = .ok j := by
  cases k with
  | fragile => exact ⟨_, if_neg (of_decide_eq_false h)⟩
  | optionalWord32 => cases v <;> exact ⟨_, rfl⟩
  | _ => exact ⟨_, rfl⟩

end Kind

namespace Codec

variable {k : Kind}

theorem encode_value_of_toJson {v : k} {j : Json} (h : k.toJson v = .ok j) :
    json.encode (.value v) = .ok j.render := by
  simp only [json, encodeJson, encodeValue, h]

theorem isSentinel_render {j : Json} (h : j.Integral) :
    j.render.head? ≠ some 0x00 ∧ isSentinel j.render = false := by
  obtain ⟨b, rest, hb, hfirst⟩ := (Json.Document.text_render j h).eq_cons
  have hne : b ≠ 0x00 := by
    rintro rfl
    rcases hfirst with hblank | hopens
    · cases hblank
    · cases hopens
  simp [hb, isSentinel, sentinel, hne]

/-- What is read of the text of a value. -/
theorem decode_render {j : Json} (h : j.Integral) : json.decode k j.render =
    match k.read j.document with
    | .ok v => .ok (.value v)
    | .error _ => .error (.decode ("no value of " ++ k.typeName)) := by
  simp only [json, decodeJson, (isSentinel_render h).2, Bool.false_eq_true, ↓reduceIte, decodeValue,
    Json.Document.parse?_render h]
  cases k.read j.document <;> rfl

/-- The JSON codec reads back what it has stored. -/
theorem json_reads_back (k : Kind) :
    (json.encode (.null : Entry k) = .ok sentinel ∧ json.decode k sentinel = .ok .null) ∧
    (∀ o : Option k, json.encodeOption o = json.encode (Entry.ofOption o)) ∧
    ∀ v : k, k.Plain v →
      (k.isRefused v = true ∧ ∃ reason, json.encode (.value v) = .error (.encode reason)) ∨
      (k.isRefused v = false ∧ ∃ bytes, json.encode (.value v) = .ok bytes ∧
        bytes.head? ≠ some 0x00 ∧ bytes ≠ sentinel ∧
        (k.depth v ≤ Json.maxDepth → json.decode k bytes = .ok (.value v)) ∧
        (Json.maxDepth < k.depth v → ∃ reason, json.decode k bytes = .error (.decode reason))) := by
  refine ⟨⟨rfl, rfl⟩, fun _ => rfl, fun v hv => ?_⟩
  cases hrefused : k.isRefused v with
  | true =>
      obtain ⟨reason, hreason⟩ := Kind.toJson_of_refused hrefused
      exact .inl ⟨rfl, reason, by simp only [json, encodeJson, encodeValue, hreason]⟩
  | false =>
      obtain ⟨j, hj⟩ := Kind.toJson_of_not_refused hrefused
      obtain ⟨hintegral, hread⟩ := Kind.read_toJson hv hj
      obtain ⟨hhead, hsentinel⟩ := isSentinel_render hintegral
      have hdecode := decode_render (k := k) hintegral
      rw [hread] at hdecode
      refine .inr ⟨rfl, j.render, encode_value_of_toJson hj, hhead, ?_, fun hdepth => ?_,
        fun hdepth => ?_⟩
      · simpa [isSentinel] using hsentinel
      · rw [hdecode, if_pos hdepth]
      · rw [hdecode, if_neg (Nat.not_le.mpr hdepth)]
        exact ⟨_, rfl⟩

/-- A value with the limits of 64 bits, a text that starts as the sentinel does, and an object. -/
theorem json_reads_back_of_nested :
    let v : Json := .array [.number (-0x8000000000000000), .number 0xFFFFFFFFFFFFFFFF,
      .string "\x00cachet:null\"\\\n", .object [("", .null), ("é", .bool true)]]
    Kind.Plain .json v ∧ ∃ bytes, json.encode (k := .json) (.value v) = .ok bytes ∧
      bytes ≠ sentinel ∧ json.decode .json bytes = .ok (.value v) := by
  intro v
  have hv : Kind.Plain .json v := by
    have horder : utf8 "" < utf8 "é" := by decide
    simp [v, Kind.Plain, Json.Integral, Json.IntegralItems, Json.IntegralMembers, Json.Ordered,
      Json.OrderedItems, Json.OrderedMembers, Json.isWord, horder]
  refine ⟨hv, ?_⟩
  rcases (json_reads_back .json).2.2 v hv with ⟨hrefused, -⟩ | ⟨-, bytes, hbytes, -, hne, hread, -⟩
  · cases hrefused
  · exact ⟨bytes, hbytes, hne, hread (by decide)⟩

end Codec

end CacheAside

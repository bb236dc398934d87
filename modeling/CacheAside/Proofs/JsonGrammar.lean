import CacheAside.Proofs.Literals
import CacheAside.Proofs.Numerals
import Mathlib.Data.List.DropRight

/-!
# The grammar of JSON

Which texts spell which document, as RFC 8259 has it: blanks stand around values and names, and a
literal may be written in many ways. The parser reads every such text.
-/

namespace CacheAside.Json

/-! ## String literals -/

/-- What stands between the quotes of a literal. -/
inductive Quoted.Body : List Piece → Bytes → Prop
  | nil : Body [] []
  | plain {b : UInt8} {ps : List Piece} {bs : Bytes} :
      b ≠ quote → b ≠ backslash → ¬b < 0x20 → Body ps bs → Body (.byte b :: ps) (b :: bs)
  | short {e x : UInt8} {ps : List Piece} {bs : Bytes} :
      shortEscape? e = some x → Body ps bs → Body (.byte x :: ps) (backslash :: e :: bs)
  | unit {a b c d : UInt8} {u : Nat} {ps : List Piece} {bs : Bytes} :
      hexUnit? a b c d = some u → Body ps bs →
      Body (.unit u :: ps) (backslash :: 0x75 :: a :: b :: c :: d :: bs)

/-- The literal ends at its closing quote. -/
theorem Quoted.Body.scan {ps : List Piece} {bs : Bytes} (h : Body ps bs) (r : Bytes) :
    Quoted.scan (bs ++ quote :: r) = some (ps, r) := by
  induction h with
  | nil => exact scan_quote r
  | plain hquote hslash hlow _ ih =>
      rw [List.cons_append, scan_plain _ hquote hslash hlow, ih]
      rfl
  | short hx _ ih =>
      have he : ∀ e x : UInt8, shortEscape? e = some x → e ≠ 0x75 := by
        rintro e x hx rfl
        cases hx
      rw [List.cons_append, List.cons_append, scan_short _ (he _ _ hx) hx, ih]
      rfl
  | unit hu _ ih =>
      simp only [List.cons_append]
      rw [scan_unit _ hu, ih]
      rfl

/-! ## Numbers -/

/-- At least one digit. -/
structure IsDigits (ds : Bytes) : Prop where
  ne_nil : ds ≠ []
  digit : ∀ b ∈ ds, Decimal.isDigit b = true

/-- What is written for an exponent. -/
inductive Numeral.ExponentText : Option (Bool × Bytes) → Bytes → Prop
  | none : ExponentText none []
  | plain {e : UInt8} {ds : Bytes} : e = 0x65 ∨ e = 0x45 → IsDigits ds →
      ExponentText (some (false, ds)) (e :: ds)
  | plus {e : UInt8} {ds : Bytes} : e = 0x65 ∨ e = 0x45 → IsDigits ds →
      ExponentText (some (false, ds)) (e :: 0x2B :: ds)
  | minus {e : UInt8} {ds : Bytes} : e = 0x65 ∨ e = 0x45 → IsDigits ds →
      ExponentText (some (true, ds)) (e :: 0x2D :: ds)

/-- What is written for the digits behind a point. -/
def Numeral.fractionText : Bytes → Bytes
  | [] => []
  | d :: ds => 0x2E :: d :: ds

/-- The texts of a number. -/
structure Numeral.Text (n : Numeral) (bs : Bytes) : Prop where
  whole : IsDigits n.whole
  /-- Only zero itself starts with a zero. -/
  lead : n.whole.head? = some 0x30 → n.whole = [0x30]
  fraction : ∀ b ∈ n.fraction, Decimal.isDigit b = true
  text : ∃ exponent, ExponentText n.exponent exponent ∧
    bs = (if n.negative then [0x2D] else []) ++
      (n.whole ++ (fractionText n.fraction ++ exponent))

/-! ## Documents -/

namespace Document

mutual
/-- The texts of a document. -/
inductive Text : Document → Bytes → Prop
  | nullWord : Text .null (utf8 "null")
  | trueWord : Text (.bool true) (utf8 "true")
  | falseWord : Text (.bool false) (utf8 "false")
  | number {n : Numeral} {bs : Bytes} : n.Text bs → Text (.number n) bs
  | string {ps : List Piece} {bs : Bytes} : Quoted.Body ps bs →
      Text (.string ps) (Quoted.quote :: (bs ++ [Quoted.quote]))
  | emptyArray {blanks : Bytes} : (∀ b ∈ blanks, isBlankByte b = true) →
      Text (.array []) (0x5B :: (blanks ++ [0x5D]))
  | array {ds : List Document} {bs : Bytes} : ItemsText ds bs → Text (.array ds) (0x5B :: bs)
  | emptyObject {blanks : Bytes} : (∀ b ∈ blanks, isBlankByte b = true) →
      Text (.object []) (0x7B :: (blanks ++ [0x7D]))
  | object {ms : List (List Piece × Document)} {bs : Bytes} : MembersText ms bs →
      Text (.object ms) (0x7B :: bs)
  /-- Blanks may stand around a value. -/
  | before {d : Document} {b : UInt8} {bs : Bytes} : isBlankByte b = true → Text d bs →
      Text d (b :: bs)
  | behind {d : Document} {b : UInt8} {bs : Bytes} : isBlankByte b = true → Text d bs →
      Text d (bs ++ [b])

/-- The texts of the items of an array, at least one, with the closing bracket. -/
inductive ItemsText : List Document → Bytes → Prop
  | last {d : Document} {bs : Bytes} : Text d bs → ItemsText [d] (bs ++ [0x5D])
  | more {d : Document} {ds : List Document} {bs rest : Bytes} : Text d bs → ItemsText ds rest →
      ItemsText (d :: ds) (bs ++ 0x2C :: rest)

/-- The texts of the members of an object, at least one, with the closing brace. -/
inductive MembersText : List (List Piece × Document) → Bytes → Prop
  | last {ps : List Piece} {d : Document} {name bs : Bytes} : Text (.string ps) name → Text d bs →
      MembersText [(ps, d)] (name ++ 0x3A :: (bs ++ [0x7D]))
  | more {ps : List Piece} {d : Document} {ms : List (List Piece × Document)}
      {name bs rest : Bytes} : Text (.string ps) name → Text d bs → MembersText ms rest →
      MembersText ((ps, d) :: ms) (name ++ 0x3A :: (bs ++ 0x2C :: rest))
end

/-! ## Blanks and first bytes -/

/-- Bytes that a value starts with. -/
def opens (b : UInt8) : Bool :=
  b ∈ [0x22, 0x5B, 0x7B, 0x6E, 0x74, 0x66, 0x2D] || Decimal.isDigit b

theorem ne_of_opens {b x : UInt8} (h : opens b = true) (hx : opens x = false) : b ≠ x := by
  rintro rfl
  simp [h] at hx

theorem opens_of_numeric {b : UInt8} (h : b = 0x2D ∨ Decimal.isDigit b = true) :
    opens b = true := by
  rcases h with rfl | h
  · decide
  · simp [opens, h]

theorem skipBlanks_of_not_blank {b : UInt8} (h : isBlankByte b = false) (bs : Bytes) :
    skipBlanks (b :: bs) = b :: bs := by
  simp [skipBlanks, h]

theorem skipBlanks_of_opens {b : UInt8} (h : opens b = true) (bs : Bytes) :
    skipBlanks (b :: bs) = b :: bs := by
  refine skipBlanks_of_not_blank ?_ bs
  simp [isBlankByte, ne_of_opens h (show opens 0x20 = false by decide),
    ne_of_opens h (show opens 0x0A = false by decide),
    ne_of_opens h (show opens 0x0D = false by decide),
    ne_of_opens h (show opens 0x09 = false by decide)]

theorem skipBlanks_append {blanks : Bytes} (h : ∀ b ∈ blanks, isBlankByte b = true) (bs : Bytes) :
    skipBlanks (blanks ++ bs) = skipBlanks bs :=
  List.dropWhile_append_of_pos h

theorem skipBlanks_cons {b : UInt8} (h : isBlankByte b = true) (bs : Bytes) :
    skipBlanks (b :: bs) = skipBlanks bs := by
  simp [skipBlanks, h]

theorem skipBlanks_skipBlanks (bs : Bytes) : skipBlanks (skipBlanks bs) = skipBlanks bs :=
  List.dropWhile_idempotent isBlankByte bs

/-! ## Numbers -/

/-- What cannot belong to a number that stands before it. -/
def Ends (r : Bytes) : Prop :=
  ∀ b ∈ r.head?, Decimal.isDigit b = false ∧ b ≠ 0x2E ∧ b ≠ 0x65 ∧ b ≠ 0x45

theorem ends_nil : Ends [] := by simp [Ends]

theorem ends_of_blank {b : UInt8} (h : isBlankByte b = true) (r : Bytes) : Ends (b :: r) := by
  simp only [isBlankByte, Bool.or_eq_true, beq_iff_eq] at h
  rintro c ⟨⟩
  rcases h with ((rfl | rfl) | rfl) | rfl
  all_goals decide

theorem ends_of_closing {b : UInt8} (h : b ∈ [0x2C, 0x5D, 0x7D]) (r : Bytes) : Ends (b :: r) := by
  simp only [List.mem_cons, List.not_mem_nil, or_false] at h
  rintro c ⟨⟩
  rcases h with rfl | rfl | rfl
  all_goals decide

section
variable {n : Numeral} {ds bs r : Bytes} {exponent : Option (Bool × Bytes)}

theorem digits?_append (h : IsDigits ds) (hr : ∀ b ∈ r.head?, Decimal.isDigit b = false) :
    digits? (ds ++ r) = some (ds, r) := by
  have htake : r.takeWhile Decimal.isDigit = [] := by
    cases r with
    | nil => rfl
    | cons b r => simp [hr b rfl]
  have hdrop : r.dropWhile Decimal.isDigit = r := by
    cases r with
    | nil => rfl
    | cons b r => simp [hr b rfl]
  obtain ⟨d, ds, rfl⟩ := List.exists_cons_of_ne_nil h.ne_nil
  rw [digits?, List.takeWhile_append_of_pos h.digit, List.dropWhile_append_of_pos h.digit, htake,
    hdrop, List.append_nil]

theorem fraction?_append (h : ∀ b ∈ ds, Decimal.isDigit b = true)
    (hr : ∀ b ∈ r.head?, Decimal.isDigit b = false ∧ b ≠ 0x2E) :
    fraction? (Numeral.fractionText ds ++ r) = some (ds, r) := by
  cases ds with
  | nil =>
      cases r with
      | nil => rfl
      | cons b r =>
          have hb := (hr b rfl).2
          simp only [Numeral.fractionText, List.nil_append]
          unfold fraction?
          split
          · next heq => exact absurd (List.cons.inj heq).1 hb
          · rfl
  | cons d ds =>
      exact digits?_append ⟨List.cons_ne_nil d ds, h⟩ fun b hb => (hr b hb).1

theorem exponent?_append (h : Numeral.ExponentText exponent bs) (hr : Ends r) :
    exponent? (bs ++ r) = some (exponent, r) := by
  have hdigits : ∀ {ds : Bytes}, IsDigits ds → digits? (ds ++ r) = some (ds, r) :=
    fun hds => digits?_append hds fun b hb => (hr b hb).1
  cases h with
  | none =>
      cases r with
      | nil => rfl
      | cons b r => simp [exponent?, (hr b rfl).2.2]
  | plain he hds =>
      rename_i e ds
      -- A digit is no sign.
      obtain ⟨d, ds, rfl⟩ := List.exists_cons_of_ne_nil hds.ne_nil
      have hd := hds.digit d List.mem_cons_self
      have hplus : d ≠ 0x2B := by rintro rfl; cases hd
      have hminus : d ≠ 0x2D := by rintro rfl; cases hd
      have hrest := hdigits hds
      simp only [List.cons_append] at hrest ⊢
      simp only [exponent?, he, ↓reduceIte]
      split
      · next heq => exact absurd (List.cons.inj heq).1 hplus
      · next heq => exact absurd (List.cons.inj heq).1 hminus
      · rw [hrest]
        rfl
  | plus he hds =>
      simp only [List.cons_append, exponent?, he, ↓reduceIte, hdigits hds]
      rfl
  | minus he hds =>
      simp only [List.cons_append, exponent?, he, ↓reduceIte, hdigits hds]
      rfl

theorem head?_exponent (h : Numeral.ExponentText exponent bs) (hr : Ends r) :
    ∀ b ∈ (bs ++ r).head?, Decimal.isDigit b = false ∧ b ≠ 0x2E := by
  have hletter : ∀ {e : UInt8}, e = 0x65 ∨ e = 0x45 → Decimal.isDigit e = false ∧ e ≠ 0x2E := by
    rintro e (rfl | rfl)
    all_goals decide
  cases h with
  | none => exact fun b hb => ⟨(hr b hb).1, (hr b hb).2.1⟩
  | plain he | plus he | minus he =>
      rintro b ⟨⟩
      exact hletter he

theorem unsigned?_append (h : n.Text bs) (hr : Ends r) : ∃ rest, bs ++ r =
    (if n.negative then [0x2D] else []) ++ rest ∧
      unsigned? n.negative rest = some (.number n, r) := by
  obtain ⟨exponent, hexponent, rfl⟩ := h.text
  refine ⟨n.whole ++ (Numeral.fractionText n.fraction ++ (exponent ++ r)), by simp, ?_⟩
  have hbehind := head?_exponent hexponent hr
  have hwhole : ∀ b ∈ (Numeral.fractionText n.fraction ++ (exponent ++ r)).head?,
      Decimal.isDigit b = false := by
    cases n.fraction with
    | nil => exact fun b hb => (hbehind b hb).1
    | cons d ds =>
        rintro b ⟨⟩
        decide
  have hlead : ¬(n.whole.head? = some 0x30 ∧ n.whole ≠ [0x30]) := fun hzero =>
    hzero.2 (h.lead hzero.1)
  rw [unsigned?, digits?_append h.whole hwhole]
  simp only [if_neg hlead, fraction?_append h.fraction hbehind, exponent?_append hexponent hr]

theorem number?_append (h : n.Text bs) (hr : Ends r) :
    number? (bs ++ r) = some (.number n, r) := by
  obtain ⟨rest, htext, hunsigned⟩ := unsigned?_append h hr
  rw [htext]
  cases hnegative : n.negative with
  | true =>
      rw [hnegative] at hunsigned
      exact hunsigned
  | false =>
      rw [hnegative] at hunsigned htext
      -- A digit is no sign.
      obtain ⟨d, ds, hwhole⟩ := List.exists_cons_of_ne_nil h.whole.ne_nil
      have hd : Decimal.isDigit d = true := h.whole.digit d (by simp [hwhole])
      obtain ⟨exponent, -, rfl⟩ := h.text
      simp only [hnegative, Bool.false_eq_true, ↓reduceIte, List.nil_append, hwhole,
        List.cons_append] at htext
      rw [← htext] at hunsigned ⊢
      simp only [Bool.false_eq_true, ↓reduceIte, List.nil_append]
      unfold number?
      split
      · next heq =>
          obtain rfl := (List.cons.inj heq).1
          cases hd
      · exact hunsigned

theorem Numeral.Text.eq_cons (h : n.Text bs) :
    ∃ b rest, bs = b :: rest ∧ (b = 0x2D ∨ Decimal.isDigit b = true) := by
  obtain ⟨exponent, -, rfl⟩ := h.text
  obtain ⟨d, ds, hwhole⟩ := List.exists_cons_of_ne_nil h.whole.ne_nil
  cases n.negative with
  | true => exact ⟨0x2D, _, rfl, .inl rfl⟩
  | false =>
      have hd : Decimal.isDigit d = true := h.whole.digit d (by simp [hwhole])
      exact ⟨d, ds ++ (Numeral.fractionText n.fraction ++ exponent), by simp [hwhole], .inr hd⟩

theorem value?_number (h : n.Text bs) (hr : Ends r) (fuel : Nat) :
    value? (fuel + 1) (bs ++ r) = some (.number n, r) := by
  have hnumber := number?_append h hr
  obtain ⟨b, rest, rfl, hb⟩ := Numeral.Text.eq_cons h
  have hne (x : UInt8) (hx : x ≠ 0x2D ∧ Decimal.isDigit x = false) : b ≠ x := by
    rintro rfl
    simp [hx] at hb
  rw [← hnumber, List.cons_append, value?, skipBlanks_of_opens (opens_of_numeric hb)]
  simp only [hne Quoted.quote (by decide), hne 0x5B (by decide), hne 0x7B (by decide),
    hne 0x6E (by decide), hne 0x74 (by decide), hne 0x66 (by decide), ↓reduceIte]

end

/-! ## Reading -/

/-- No text is empty. -/
theorem Text.pos : {d : Document} → {bs : Bytes} → Text d bs → 0 < bs.length
  | _, _, .nullWord | _, _, .trueWord | _, _, .falseWord => by decide
  | _, _, .number h => by
      obtain ⟨b, rest, rfl, -⟩ := Numeral.Text.eq_cons h
      exact Nat.succ_pos _
  | _, _, .string _ | _, _, .emptyArray _ | _, _, .array _ | _, _, .emptyObject _
  | _, _, .object _ | _, _, .before _ _ => Nat.succ_pos _
  | _, _, .behind _ h => by
      rw [List.length_append]
      exact Nat.add_pos_left h.pos _

/-- Behind blanks, a text starts as its value does. -/
theorem Text.skipBlanks : {d : Document} → {bs : Bytes} → Text d bs →
    ∃ b rest, opens b = true ∧ ∀ r, Document.skipBlanks (bs ++ r) = b :: (rest ++ r)
  | _, _, .nullWord => ⟨0x6E, utf8 "ull", by decide, fun _ => rfl⟩
  | _, _, .trueWord => ⟨0x74, utf8 "rue", by decide, fun _ => rfl⟩
  | _, _, .falseWord => ⟨0x66, utf8 "alse", by decide, fun _ => rfl⟩
  | _, _, .number h => by
      obtain ⟨b, rest, rfl, hb⟩ := Numeral.Text.eq_cons h
      exact ⟨b, rest, opens_of_numeric hb, fun r => skipBlanks_of_opens (opens_of_numeric hb) _⟩
  | _, _, @Text.string _ bs _ =>
      ⟨Quoted.quote, bs ++ [Quoted.quote], by decide, fun _ => rfl⟩
  | _, _, @Text.emptyArray bs _ => ⟨0x5B, bs ++ [0x5D], by decide, fun _ => rfl⟩
  | _, _, @Text.array _ bs _ => ⟨0x5B, bs, by decide, fun _ => rfl⟩
  | _, _, @Text.emptyObject bs _ => ⟨0x7B, bs ++ [0x7D], by decide, fun _ => rfl⟩
  | _, _, @Text.object _ bs _ => ⟨0x7B, bs, by decide, fun _ => rfl⟩
  | _, _, .before hblank h => by
      obtain ⟨b, rest, hb, hskip⟩ := h.skipBlanks
      exact ⟨b, rest, hb, fun r => by rw [List.cons_append, skipBlanks_cons hblank, hskip]⟩
  | _, _, .behind (b := x) _ h => by
      obtain ⟨b, rest, hb, hskip⟩ := h.skipBlanks
      exact ⟨b, rest ++ [x], hb, fun r => by simp [hskip]⟩

theorem Text.eq_cons {d : Document} {bs : Bytes} (h : Text d bs) :
    ∃ b rest, bs = b :: rest ∧ (isBlankByte b = true ∨ Document.opens b = true) := by
  obtain ⟨b, rest, rfl⟩ := List.exists_cons_of_length_pos h.pos
  refine ⟨b, rest, rfl, ?_⟩
  cases hb : isBlankByte b with
  | true => exact .inl rfl
  | false =>
      obtain ⟨b', rest', hopens, hskip⟩ := h.skipBlanks
      have hfirst := hskip []
      rw [List.append_nil, skipBlanks_of_not_blank hb] at hfirst
      exact .inr ((List.cons.inj hfirst).1 ▸ hopens)

/-- Behind blanks, the text in a bracket starts as its first value or name does. -/
theorem ItemsText.opens {ds : List Document} {bs : Bytes} (h : ItemsText ds bs) (r : Bytes) :
    ∃ b rest, Document.opens b = true ∧ Document.skipBlanks (bs ++ r) = b :: rest := by
  cases h with
  | last h | more h =>
      obtain ⟨b, rest, hb, hskip⟩ := h.skipBlanks
      exact ⟨b, _, hb, by rw [List.append_assoc, hskip]⟩

theorem MembersText.opens {ms : List (List Piece × Document)} {bs : Bytes} (h : MembersText ms bs)
    (r : Bytes) :
    ∃ b rest, Document.opens b = true ∧ Document.skipBlanks (bs ++ r) = b :: rest := by
  cases h with
  | last h | more h =>
      obtain ⟨b, rest, hb, hskip⟩ := h.skipBlanks
      exact ⟨b, _, hb, by rw [List.append_assoc, hskip]⟩

section
variable {fuel : Nat} {bs r : Bytes} {ps : List Piece} {ds : List Document}
  {ms : List (List Piece × Document)}

theorem value?_skipBlanks (fuel : Nat) (bs : Bytes) :
    value? fuel (Document.skipBlanks bs) = value? fuel bs := by
  cases fuel with
  | zero => rw [value?, value?]
  | succ fuel => rw [value?, value?, skipBlanks_skipBlanks]

theorem items?_skipBlanks (fuel : Nat) (bs : Bytes) :
    items? fuel (Document.skipBlanks bs) = items? fuel bs := by
  cases fuel with
  | zero => rw [items?, items?]
  | succ fuel => rw [items?, items?, value?_skipBlanks]

theorem members?_skipBlanks (fuel : Nat) (bs : Bytes) :
    members? fuel (Document.skipBlanks bs) = members? fuel bs := by
  cases fuel with
  | zero => rw [members?, members?]
  | succ fuel => rw [members?, members?, skipBlanks_skipBlanks]

theorem members?_last {blanks behind rest tail : Bytes} {d : Document}
    (hskip : skipBlanks bs = Quoted.quote :: rest)
    (hscan : Quoted.scan rest = some (ps, blanks ++ 0x3A :: tail))
    (hblanks : ∀ b ∈ blanks, isBlankByte b = true)
    (hvalue : value? fuel tail = some (d, behind ++ 0x7D :: r))
    (hbehind : ∀ b ∈ behind, isBlankByte b = true) :
    members? (fuel + 1) bs = some ([(ps, d)], r) := by
  rw [members?, hskip, Quoted.quote]
  simp only [hscan, skipBlanks_append hblanks, hvalue, skipBlanks_append hbehind,
    skipBlanks_of_not_blank (show isBlankByte 0x3A = false by decide),
    skipBlanks_of_not_blank (show isBlankByte 0x7D = false by decide)]

theorem members?_more {blanks behind rest tail others : Bytes} {d : Document}
    (hskip : skipBlanks bs = Quoted.quote :: rest)
    (hscan : Quoted.scan rest = some (ps, blanks ++ 0x3A :: tail))
    (hblanks : ∀ b ∈ blanks, isBlankByte b = true)
    (hvalue : value? fuel tail = some (d, behind ++ 0x2C :: others))
    (hbehind : ∀ b ∈ behind, isBlankByte b = true) (h : members? fuel others = some (ms, r)) :
    members? (fuel + 1) bs = some ((ps, d) :: ms, r) := by
  rw [members?, hskip, Quoted.quote]
  simp only [hscan, skipBlanks_append hblanks, hvalue, skipBlanks_append hbehind, h,
    skipBlanks_of_not_blank (show isBlankByte 0x3A = false by decide),
    skipBlanks_of_not_blank (show isBlankByte 0x2C = false by decide)]

theorem value?_quote (h : Quoted.scan bs = some (ps, r)) :
    value? (fuel + 1) (Quoted.quote :: bs) = some (.string ps, r) := by
  rw [value?, skipBlanks_of_opens (by decide)]
  simp [h]

theorem value?_bracket (hopens : ∃ b rest, opens b = true ∧ skipBlanks bs = b :: rest)
    (h : items? fuel bs = some (ds, r)) : value? (fuel + 1) (0x5B :: bs) = some (.array ds, r) := by
  obtain ⟨b, rest, hb, hskip⟩ := hopens
  rw [← items?_skipBlanks, hskip] at h
  rw [value?, skipBlanks_of_opens (by decide)]
  simp only [show (0x5B : UInt8) ≠ Quoted.quote by decide, ↓reduceIte, hskip]
  split
  · next heq => exact absurd (List.cons.inj heq).1 (ne_of_opens hb (by decide))
  · rw [h]

theorem value?_brace (hopens : ∃ b rest, opens b = true ∧ skipBlanks bs = b :: rest)
    (h : members? fuel bs = some (ms, r)) :
    value? (fuel + 1) (0x7B :: bs) = some (.object ms, r) := by
  obtain ⟨b, rest, hb, hskip⟩ := hopens
  rw [← members?_skipBlanks, hskip] at h
  rw [value?, skipBlanks_of_opens (by decide)]
  simp only [show (0x7B : UInt8) ≠ Quoted.quote by decide, show (0x7B : UInt8) ≠ 0x5B by decide,
    ↓reduceIte, hskip]
  split
  · next heq => exact absurd (List.cons.inj heq).1 (ne_of_opens hb (by decide))
  · rw [h]

end

/-- A name ends at its closing quote; blanks may stand around it. -/
theorem Text.name {ps : List Piece} {d : Document} {bs : Bytes} (h : Text d bs)
    (hd : d = .string ps) (r : Bytes) : ∃ rest blanks, (∀ b ∈ blanks, isBlankByte b = true) ∧
      Document.skipBlanks (bs ++ r) = Quoted.quote :: rest ∧
        Quoted.scan rest = some (ps, blanks ++ r) :=
  match h, hd with
  | @Text.string _ bs hbody, rfl => by
      refine ⟨bs ++ Quoted.quote :: r, [], List.forall_mem_nil _, ?_, hbody.scan r⟩
      simp [skipBlanks_of_opens (show opens Quoted.quote = true by decide)]
  | .before hblank h, hd => by
      obtain ⟨rest, blanks, hblanks, hskip, hscan⟩ := h.name hd r
      exact ⟨rest, blanks, hblanks, by rw [List.cons_append, skipBlanks_cons hblank, hskip], hscan⟩
  | .behind (b := x) hblank h, hd => by
      obtain ⟨rest, blanks, hblanks, hskip, hscan⟩ := h.name hd (x :: r)
      refine ⟨rest, blanks ++ [x], ?_, by simpa using hskip, by simpa using hscan⟩
      exact List.forall_mem_append.mpr ⟨hblanks, List.forall_mem_singleton.mpr hblank⟩

mutual
/-- A text is read up to the blanks behind its value. The parser needs two steps for a byte. -/
theorem Text.read : {d : Document} → {bs : Bytes} → Text d bs → (fuel : Nat) → (r : Bytes) →
    2 * bs.length ≤ fuel + 1 → Ends r →
    ∃ blanks, (∀ b ∈ blanks, isBlankByte b = true) ∧
      value? (fuel + 1) (bs ++ r) = some (d, blanks ++ r)
  | _, _, .nullWord, _, _, _, _ | _, _, .trueWord, _, _, _, _ | _, _, .falseWord, _, _, _, _ =>
      ⟨[], List.forall_mem_nil _, rfl⟩
  | _, _, .number h, fuel, _, _, hr => ⟨[], List.forall_mem_nil _, value?_number h hr fuel⟩
  | _, _, .string h, _, r, _, _ => by
      refine ⟨[], List.forall_mem_nil _, ?_⟩
      rw [List.cons_append, List.append_assoc]
      exact value?_quote (h.scan r)
  | _, _, .emptyArray h, _, r, _, _ => by
      refine ⟨[], List.forall_mem_nil _, ?_⟩
      rw [List.cons_append, List.append_assoc, value?, skipBlanks_of_opens (by decide)]
      simp only [show (0x5B : UInt8) ≠ Quoted.quote by decide, ↓reduceIte, skipBlanks_append h,
        List.singleton_append, skipBlanks_of_not_blank (show isBlankByte 0x5D = false by decide),
        List.nil_append]
  | _, _, .array h, fuel, r, hfuel, _ => by
      rw [List.length_cons] at hfuel
      obtain ⟨k, rfl⟩ : ∃ k, fuel = k + 1 := ⟨fuel - 1, by omega⟩
      exact ⟨[], List.forall_mem_nil _, value?_bracket (h.opens r) (h.read k r (by omega))⟩
  | _, _, .emptyObject h, _, r, _, _ => by
      refine ⟨[], List.forall_mem_nil _, ?_⟩
      rw [List.cons_append, List.append_assoc, value?, skipBlanks_of_opens (by decide)]
      simp only [show (0x7B : UInt8) ≠ Quoted.quote by decide,
        show (0x7B : UInt8) ≠ 0x5B by decide, ↓reduceIte, skipBlanks_append h,
        List.singleton_append, skipBlanks_of_not_blank (show isBlankByte 0x7D = false by decide),
        List.nil_append]
  | _, _, .object h, fuel, r, hfuel, _ => by
      rw [List.length_cons] at hfuel
      obtain ⟨k, rfl⟩ : ∃ k, fuel = k + 1 := ⟨fuel - 1, by omega⟩
      exact ⟨[], List.forall_mem_nil _, value?_brace (h.opens r) (h.read k r (by omega))⟩
  | _, _, .before hblank h, fuel, r, hfuel, hr => by
      rw [List.length_cons] at hfuel
      obtain ⟨blanks, hblanks, hvalue⟩ := h.read fuel r (by omega) hr
      refine ⟨blanks, hblanks, ?_⟩
      rw [List.cons_append, ← value?_skipBlanks, skipBlanks_cons hblank, value?_skipBlanks, hvalue]
  | _, _, .behind (b := x) hblank h, fuel, r, hfuel, hr => by
      rw [List.length_append, List.length_singleton] at hfuel
      obtain ⟨blanks, hblanks, hvalue⟩ := h.read fuel (x :: r) (by omega) (ends_of_blank hblank r)
      refine ⟨blanks ++ [x], ?_, by simpa using hvalue⟩
      exact List.forall_mem_append.mpr ⟨hblanks, List.forall_mem_singleton.mpr hblank⟩

theorem ItemsText.read : {ds : List Document} → {bs : Bytes} → ItemsText ds bs → (fuel : Nat) →
    (r : Bytes) → 2 * bs.length ≤ fuel + 2 → items? (fuel + 1) (bs ++ r) = some (ds, r)
  | _, _, .last h, fuel, r, hfuel => by
      rw [List.length_append, List.length_singleton] at hfuel
      obtain ⟨k, rfl⟩ : ∃ k, fuel = k + 1 := ⟨fuel - 1, by have := h.pos; omega⟩
      obtain ⟨blanks, hblanks, hvalue⟩ := h.read k (0x5D :: r) (by omega)
        (ends_of_closing (by decide) r)
      rw [List.append_assoc, List.singleton_append, items?, hvalue]
      simp only [skipBlanks_append hblanks,
        skipBlanks_of_not_blank (show isBlankByte 0x5D = false by decide)]
  | _, _, @ItemsText.more _ _ _ rest h hrest, fuel, r, hfuel => by
      rw [List.length_append, List.length_cons] at hfuel
      obtain ⟨k, rfl⟩ : ∃ k, fuel = k + 1 := ⟨fuel - 1, by have := h.pos; omega⟩
      obtain ⟨blanks, hblanks, hvalue⟩ := h.read k (0x2C :: (rest ++ r)) (by omega)
        (ends_of_closing (by decide) _)
      have hitems := hrest.read k r (by omega)
      rw [List.append_assoc, List.cons_append, items?, hvalue]
      simp only [skipBlanks_append hblanks,
        skipBlanks_of_not_blank (show isBlankByte 0x2C = false by decide), hitems]

theorem MembersText.read : {ms : List (List Piece × Document)} → {bs : Bytes} →
    MembersText ms bs → (fuel : Nat) → (r : Bytes) → 2 * bs.length ≤ fuel + 2 →
    members? (fuel + 1) (bs ++ r) = some (ms, r)
  | _, _, @MembersText.last _ _ _ bs hname h, fuel, r, hfuel => by
      simp only [List.length_append, List.length_cons, List.length_nil] at hfuel
      obtain ⟨k, rfl⟩ : ∃ k, fuel = k + 1 := ⟨fuel - 1, by have := h.pos; omega⟩
      obtain ⟨rest, behind, hbehind, hskip, hscan⟩ :=
        hname.name rfl (0x3A :: (bs ++ 0x7D :: r))
      obtain ⟨blanks, hblanks, hvalue⟩ := h.read k (0x7D :: r) (by omega)
        (ends_of_closing (by decide) r)
      simp only [List.append_assoc, List.cons_append, List.nil_append]
      exact members?_last hskip hscan hbehind hvalue hblanks
  | _, _, @MembersText.more _ _ _ _ bs more hname h hrest, fuel, r, hfuel => by
      simp only [List.length_append, List.length_cons] at hfuel
      obtain ⟨k, rfl⟩ : ∃ k, fuel = k + 1 := ⟨fuel - 1, by have := h.pos; omega⟩
      obtain ⟨rest, behind, hbehind, hskip, hscan⟩ :=
        hname.name rfl (0x3A :: (bs ++ 0x2C :: (more ++ r)))
      obtain ⟨blanks, hblanks, hvalue⟩ := h.read k (0x2C :: (more ++ r)) (by omega)
        (ends_of_closing (by decide) _)
      have hmembers := hrest.read k r (by omega)
      simp only [List.append_assoc, List.cons_append]
      exact members?_more hskip hscan hbehind hvalue hblanks hmembers
end

/-- The parser reads every text, and as the grammar has it. -/
theorem parse?_of_text {d : Document} {bs : Bytes} (h : Text d bs) : parse? bs = some d := by
  obtain ⟨blanks, hblanks, hvalue⟩ := h.read (2 * bs.length + 1) [] (by omega) ends_nil
  rw [List.append_nil, List.append_nil] at hvalue
  have hrest := skipBlanks_append hblanks []
  rw [List.append_nil] at hrest
  rw [parse?, hvalue]
  simp only [hrest]
  rfl

end Document

end CacheAside.Json

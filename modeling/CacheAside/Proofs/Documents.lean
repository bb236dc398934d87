import CacheAside.Proofs.JsonGrammar

/-!
# Texts and their documents

The document of a value, and that parsing the text of the value gives it: a value is written as the
grammar has it.
-/

namespace CacheAside.Json

mutual
/-- What the text of a value says. -/
def document : Json → Document
  | .null => .null
  | .bool b => .bool b
  | .number n => .number (numeral n)
  | .real x => (Document.parse? (realText x)).getD .null
  | .string s => .string (Quoted.pieces s)
  | .array vs => .array (documents vs)
  | .object ms => .object (memberDocuments ms)

def documents : List Json → List Document
  | [] => []
  | v :: vs => document v :: documents vs

def memberDocuments : List (String × Json) → List (List Piece × Document)
  | [] => []
  | (name, v) :: ms => (Quoted.pieces name, document v) :: memberDocuments ms
end

mutual
/-- Values without doubles, whose integers fit 64 bits. -/
def Integral : Json → Prop
  | .number n => isWord n = true
  | .real _ => False
  | .array vs => IntegralItems vs
  | .object ms => IntegralMembers ms
  | .null | .bool _ | .string _ => True

def IntegralItems : List Json → Prop
  | [] => True
  | v :: vs => Integral v ∧ IntegralItems vs

def IntegralMembers : List (String × Json) → Prop
  | [] => True
  | (_, v) :: ms => Integral v ∧ IntegralMembers ms
end

theorem memberDocuments_eq_map (fs : List (String × Json)) :
    memberDocuments fs = fs.map fun f => (Quoted.pieces f.1, f.2.document) := by
  induction fs with
  | nil => rfl
  | cons f fs ih => rw [memberDocuments, ih, List.map_cons]

theorem integralMembers_of_forall {fs : List (String × Json)} (h : ∀ f ∈ fs, f.2.Integral) :
    IntegralMembers fs := by
  induction fs with
  | nil => trivial
  | cons f fs ih =>
      obtain ⟨hf, hfs⟩ := List.forall_mem_cons.mp h
      exact ⟨hf, ih hfs⟩

/-! ## Texts of values -/

theorem isDigits_ofNat (n : Nat) : IsDigits (Decimal.ofNat n) where
  ne_nil hnil := by
    obtain ⟨d, hd, -⟩ := Decimal.head?_ofNat n
    simp [hnil] at hd
  digit := Decimal.all_isDigit_ofNat n

theorem text_ofNat (negative : Bool) (n : Nat) :
    Numeral.Text { negative, whole := Decimal.ofNat n }
      ((if negative then [0x2D] else []) ++ Decimal.ofNat n) where
  whole := isDigits_ofNat n
  lead hzero := by
    obtain ⟨d, hd, hsingle⟩ := Decimal.head?_ofNat n
    exact hsingle (Option.some.inj (hd ▸ hzero))
  fraction := List.forall_mem_nil _
  text := ⟨[], .none, by simp [Numeral.fractionText]⟩

theorem text_numeral : (n : Int) → (numeral n).Text (Decimal.ofInt n)
  | .ofNat n => text_ofNat false n
  | .negSucc n => text_ofNat true (n + 1)

/-- The escaped bytes of a text spell its pieces. -/
theorem body_pieces (s : String) :
    Quoted.Body (Quoted.pieces s) ((utf8 s).flatMap Quoted.escape) := by
  rw [Quoted.pieces]
  induction utf8 s with
  | nil => exact .nil
  | cons b bs ih =>
      rw [List.map_cons, List.flatMap_cons]
      rcases Quoted.escape_cases b with ⟨e, hb, hescape, hpiece⟩ | ⟨hlow, hpiece, hescape⟩ |
        ⟨hquote, hslash, hlow, hescape, hpiece⟩
      · rw [hescape, hpiece]
        exact .short hb ih
      · rw [hescape, hpiece]
        exact .unit (Quoted.hexUnit?_control hlow) ih
      · rw [hescape, hpiece]
        exact .plain hquote hslash hlow ih

namespace Document

theorem text_string (s : String) : Text (.string (Quoted.pieces s)) (Quoted.render s) :=
  .string (body_pieces s)

mutual
/-- What a value is written as spells its document. -/
theorem text_render : (v : Json) → v.Integral → Text v.document v.render
  | .null, _ => .nullWord
  | .bool true, _ => .trueWord
  | .bool false, _ => .falseWord
  | .number n, _ => .number (text_numeral n)
  | .real _, h => h.elim
  | .string s, _ => text_string s
  | .array [], _ => .emptyArray (List.forall_mem_nil _)
  | .array (v :: vs), h => .array (itemsText_render (text_render v h.1) vs h.2)
  | .object [], _ => .emptyObject (List.forall_mem_nil _)
  | .object ((s, v) :: ms), h =>
      .object (membersText_render (text_string s) (text_render v h.1) ms h.2)

theorem itemsText_render {d : Document} {bs : Bytes} (hd : Text d bs) : (vs : List Json) →
    IntegralItems vs → ItemsText (d :: documents vs) (bs ++ renderItems vs)
  | [], _ => .last hd
  | v :: vs, h => .more hd (itemsText_render (text_render v h.1) vs h.2)

theorem membersText_render {ps : List Piece} {d : Document} {name bs : Bytes}
    (hname : Text (.string ps) name) (hd : Text d bs) : (ms : List (String × Json)) →
    IntegralMembers ms →
    MembersText ((ps, d) :: memberDocuments ms) (name ++ 0x3A :: (bs ++ renderMembers ms))
  | [], _ => .last hname hd
  | (s, v) :: ms, h =>
      .more hname hd (membersText_render (text_string s) (text_render v h.1) ms h.2)
end

/-- Parsing the text of a value gives its document. -/
theorem parse?_render {v : Json} (h : v.Integral) : parse? v.render = some v.document :=
  parse?_of_text (text_render v h)

end Document

end CacheAside.Json

import CacheAside.Json.Record
import CacheAside.Proofs.Values
import Mathlib.Data.List.Duplicate

/-!
# Records from documents

Which values documents denote, and what reading a record finds: its fields in an object, in any
order and among any other members, and in an array, side by side with their names.
-/

namespace CacheAside

namespace Json

/-! ## Values of documents -/

namespace Document

/-- A document that denotes a value, nested no deeper than is read. -/
def Means (d : Document) (v : Json) : Prop := ofDocument? maxDepth d = some v

theorem ofNumeral?_eq {n : Numeral} {v : Json} (h : ofNumeral? n = some v) :
    (∃ i, v = .number i ∧ n.integer? = some i) ∨ ∃ x, v = .real x := by
  unfold ofNumeral? at h
  split at h
  · next i hi => exact .inl ⟨i, (Option.some.inj h).symm, (Option.filter_eq_some_iff.mp hi).1⟩
  · obtain ⟨x, -, rfl⟩ := Option.map_eq_some_iff.mp h
    exact .inr ⟨x, rfl⟩

/-- The form of a document tells the form of its value. -/
theorem Means.cases {d : Document} {v : Json} (h : d.Means v) :
    match v with
    | .null => d = .null
    | .bool b => d = .bool b
    | .number i => ∃ n, d = .number n ∧ n.integer? = some i
    | .string s => ∃ ps, d = .string ps ∧ Quoted.resolve? ps = some s
    | .real _ | .array _ | .object _ => True := by
  unfold Means maxDepth at h
  cases d with
  | null | bool b =>
      obtain rfl := Option.some.inj h
      rfl
  | number n =>
      obtain ⟨i, rfl, hi⟩ | ⟨x, rfl⟩ := ofNumeral?_eq h
      · exact ⟨n, rfl, hi⟩
      · trivial
  | string ps =>
      obtain ⟨s, hs, rfl⟩ := Option.map_eq_some_iff.mp h
      exact ⟨ps, rfl, hs⟩
  | array ds | object ms =>
      obtain ⟨vs, -, rfl⟩ := Option.map_eq_some_iff.mp h
      trivial

section
variable {d : Document}

theorem Means.string? {s : String} (h : d.Means (.string s)) : d.string? = some s := by
  obtain ⟨ps, rfl, hs⟩ := h.cases
  exact hs

theorem Means.bool? {b : Bool} (h : d.Means (.bool b)) : d.bool? = some b := by
  obtain rfl : d = .bool b := h.cases
  rfl

theorem Means.word32? {x : UInt32} (h : d.Means (.number x.toNat)) : d.word32? = some x := by
  obtain ⟨n, rfl, hn⟩ := h.cases
  have hx := x.toNat_lt
  simp only [Document.word32?, intWithin?, hn, Option.filter_some]
  rw [if_pos (by simp; omega)]
  simp

theorem option?_word32?_of_means {ttl : Option UInt32}
    (h : d.Means (match ttl with | some n => .number n.toNat | none => .null)) :
    option? Document.word32? d = some ttl := by
  cases ttl with
  | none =>
      obtain rfl : d = .null := h.cases
      rfl
  | some n =>
      have hn := h.word32?
      obtain ⟨i, rfl, -⟩ := h.cases
      exact congrArg (Option.map some) hn

theorem means_document {v : Json} (hv : v.Integral) (ho : v.Ordered) (hd : v.depth ≤ maxDepth) :
    v.document.Means v := by
  rw [Means, ofDocument?_document v hv ho, if_pos hd]

end

/-! ## Fields of a record -/

/-- The names of members, as far as they are texts. -/
def names (ms : List (List Piece × Document)) : List (Option String) :=
  ms.map fun m => Quoted.resolve? m.1

theorem names_cons (m : List Piece × Document) (ms : List (List Piece × Document)) :
    names (m :: ms) = Quoted.resolve? m.1 :: names ms := rfl

section
variable {known : List String} {ms : List (List Piece × Document)}
  {fields : List (String × Document)} {name : String}

/-- One more member is a field that was not there yet, or no field at all. -/
theorem knownMembers?_cons_eq_some {m : List Piece × Document} :
    knownMembers? known (m :: ms) = some fields ↔
      ∃ other before, Quoted.resolve? m.1 = some other ∧ knownMembers? known ms = some before ∧
        (other ∈ known ∧ before.lookup other = none ∧ fields = (other, m.2) :: before ∨
          other ∉ known ∧ fields = before) := by
  rw [knownMembers?]
  cases Quoted.resolve? m.1 with
  | none => simp
  | some other =>
      cases knownMembers? known ms with
      | none => simp
      | some before =>
          simp only [Option.some.injEq, ↓existsAndEq, true_and]
          by_cases hother : other ∈ known
          · cases hbefore : before.lookup other with
            | none => simpa [hother, hbefore] using eq_comm
            | some d => simp [hother]
          · simpa [hother] using eq_comm

/-- A field is the member of its name. -/
theorem lookup_knownMembers? (h : knownMembers? known ms = some fields) (hname : name ∈ known) :
    fields.lookup name = (ms.find? fun m => Quoted.resolve? m.1 == some name).map Prod.snd := by
  induction ms generalizing fields with
  | nil =>
      obtain rfl := Option.some.inj h
      rfl
  | cons m ms ih =>
      obtain ⟨other, before, hother, hbefore, hfields⟩ := knownMembers?_cons_eq_some.mp h
      rw [List.find?_cons, hother, Option.some_beq_some]
      by_cases heq : other = name
      · obtain ⟨-, -, rfl⟩ | ⟨hno, -⟩ := hfields
        · simp [heq]
        · exact absurd (heq ▸ hname) hno
      · have hskip : fields.lookup name = before.lookup name := by
          obtain ⟨-, -, rfl⟩ | ⟨-, rfl⟩ := hfields
          · rw [List.lookup_cons, beq_false_of_ne (Ne.symm heq)]
          · rfl
        rw [hskip, ih hbefore, beq_false_of_ne heq]

theorem lookup_knownMembers?_eq_none (h : knownMembers? known ms = some fields)
    (hname : name ∈ known) : fields.lookup name = none ↔ some name ∉ names ms := by
  rw [lookup_knownMembers? h hname, Option.map_eq_none_iff, List.find?_eq_none]
  simp [names]

/-- The fields are found if every name is a text and no field stands twice. -/
theorem knownMembers?_of_once (hnames : none ∉ names ms)
    (honce : ∀ name ∈ known, ¬List.Duplicate (some name) (names ms)) :
    ∃ fields, knownMembers? known ms = some fields := by
  induction ms with
  | nil => exact ⟨[], rfl⟩
  | cons m ms ih =>
      rw [names_cons] at hnames honce
      obtain ⟨other, hother⟩ := Option.ne_none_iff_exists'.mp (List.ne_of_not_mem_cons hnames).symm
      obtain ⟨before, hbefore⟩ := ih (List.not_mem_of_not_mem_cons hnames) fun name hname h =>
        honce name hname (h.duplicate_cons _)
      by_cases hknown : other ∈ known
      · -- The field would stand twice if it were there already.
        have hfresh : before.lookup other = none :=
          (lookup_knownMembers?_eq_none hbefore hknown).mpr fun hmem =>
            honce other hknown (hother ▸ hmem.duplicate_cons_self)
        exact ⟨_, knownMembers?_cons_eq_some.mpr
          ⟨other, before, hother, hbefore, .inl ⟨hknown, hfresh, rfl⟩⟩⟩
      · exact ⟨_, knownMembers?_cons_eq_some.mpr
          ⟨other, before, hother, hbefore, .inr ⟨hknown, rfl⟩⟩⟩

/-- A field that stands twice is refused. -/
theorem knownMembers?_of_twice (hname : name ∈ known)
    (htwice : List.Duplicate (some name) (names ms)) : knownMembers? known ms = none := by
  refine Option.eq_none_iff_forall_ne_some.mpr fun fields h => ?_
  induction ms generalizing fields with
  | nil => exact htwice.elim_nil
  | cons m ms ih =>
      obtain ⟨other, before, hother, hbefore, hfields⟩ := knownMembers?_cons_eq_some.mp h
      rw [names_cons, hother] at htwice
      rcases List.duplicate_cons_iff.mp htwice with ⟨heq, hmem⟩ | htwice
      · obtain rfl := Option.some.inj heq
        obtain ⟨-, hfresh, -⟩ | ⟨hno, -⟩ := hfields
        · exact (lookup_knownMembers?_eq_none hbefore hname).mp hfresh hmem
        · exact hno hname
      · exact ih htwice before hbefore

end

/-- The member is found among the fields, or it is left out and may be. -/
def Found (defaults : List (String × Json)) (fields : List (String × Document))
    (m : String × Json) : Prop :=
  (∃ d, fields.lookup m.1 = some d ∧ d.Means m.2) ∨ fields.lookup m.1 = none ∧ m ∈ defaults

section
variable {defaults : List (String × Json)} {fields : List (String × Document)} {name : String}
  {v : Json} {α : Type} {read : Document → Option α} {x default : α}

theorem required?_of_found (h : Found defaults fields (name, v))
    (hread : ∀ d : Document, d.Means v → read d = some x) (hdefault : (name, v) ∉ defaults) :
    required? fields name read = some x := by
  obtain ⟨d, hlookup, hd⟩ | ⟨-, hmem⟩ := h
  · rw [required?, hlookup, Option.bind_some, hread d hd]
  · exact absurd hmem hdefault

theorem optional?_of_found (h : Found defaults fields (name, v))
    (hread : ∀ d : Document, d.Means v → read d = some x)
    (hdefault : (name, v) ∈ defaults → x = default) :
    optional? fields name read default = some x := by
  obtain ⟨d, hlookup, hd⟩ | ⟨hlookup, hmem⟩ := h
  · rw [optional?, hlookup]
    exact hread d hd
  · rw [optional?, hlookup, hdefault hmem]

/-- What the fields of an array are: names and items side by side. -/
theorem found_zip {fs : List (String × Json)} {ds : List Document}
    (hnames : (fs.map Prod.fst).Nodup)
    (hvalues : List.Forall₂ (fun d f => d.Means f.2) ds (fs.take ds.length))
    (hrest : ∀ f ∈ fs.drop ds.length, f ∈ defaults) :
    ∀ f ∈ fs, Found defaults ((fs.map Prod.fst).zip ds) f := by
  induction fs generalizing ds with
  | nil => exact List.forall_mem_nil _
  | cons g fs ih =>
      cases ds with
      | nil => exact fun f hf => .inr ⟨by simp, hrest f hf⟩
      | cons d ds =>
          obtain ⟨hd, hvalues⟩ := List.forall₂_cons.mp hvalues
          obtain ⟨hfresh, hnames⟩ := List.nodup_cons.mp hnames
          rw [List.map_cons, List.zip_cons_cons]
          refine List.forall_mem_cons.mpr ⟨.inl ⟨d, by simp, hd⟩, fun f hf => ?_⟩
          have hne : f.1 ≠ g.1 := fun heq => hfresh (heq ▸ List.mem_map_of_mem hf)
          rw [Found, List.lookup_cons, beq_false_of_ne hne]
          exact ih hnames hvalues hrest f hf

end

end Document

end Json

end CacheAside

import CacheAside.Options
import CacheAside.Proofs.Codecs
import CacheAside.Proofs.Records

/-!
# Texts of options

The JSON texts that spell the options of a call: objects whose members stand in any order and among
any others, and arrays of the first members. What is left out has its default.
-/

namespace CacheAside

open Json Document

/-! ## Options -/

theorem WriteBack.ofDocument?_of_means {w : WriteBack} {d : Document}
    (h : d.Means (.string w.name)) : WriteBack.ofDocument? d = some w := by
  obtain ⟨ps, rfl, hs⟩ := h.cases
  rw [WriteBack.ofDocument?, choice?, hs, Option.bind_some]
  cases w with
  | inline | detached => decide

namespace Options

/-- The options that a text spells. -/
def ofText? (bs : Bytes) : Option Options := (parse? bs).bind ofDocument?

/-- The members of the JSON form. -/
def members (o : Options) : List (String × Json) :=
  match o.toJson with
  | .object ms => ms
  | _ => []

/-- The members that may be left out, with what they are then taken to have. -/
def defaults : List (String × Json) :=
  [("ttl_seconds", .null), ("add_nulls_to_cache", .bool false),
    ("skip_nulls_in_result", .bool false), ("generate_keys_from_result", .bool false),
    ("read_directly_from_store", .bool false), ("write_back", .string "inline")]

section
variable {o : Options} {d : Document} {fields : List (String × Document)}

theorem nodup_memberNames : memberNames.Nodup := by decide

theorem map_fst_members (o : Options) : o.members.map Prod.fst = memberNames := rfl

theorem ofDocument?_of_found (hfields : d.fields? memberNames = some fields)
    (h : ∀ m ∈ o.members, Found defaults fields m) : ofDocument? d = some o := by
  simp only [members, toJson, List.forall_mem_cons] at h
  obtain ⟨hkeyspace, httl, haddNulls, hskipNulls, hkeys, hbypass, hwriteBack, -⟩ := h
  have hkeyspace : required? fields "namespace" string? = some o.keyspace :=
    required?_of_found hkeyspace (fun _ => Means.string?) (by simp [defaults])
  have hflag {name : String} {b : Bool} (h : Found defaults fields (name, .bool b)) :
      optional? fields name bool? false = some b :=
    optional?_of_found h (fun _ => Means.bool?) (by grind [defaults])
  have httl : optional? fields "ttl_seconds" (option? word32?) none = some o.ttl := by
    refine optional?_of_found httl (fun _ => option?_word32?_of_means) ?_
    cases o.ttl with
    | none => simp
    | some n => simp [defaults]
  have hwriteBack :
      optional? fields "write_back" WriteBack.ofDocument? .inline = some o.writeBack := by
    refine optional?_of_found hwriteBack (fun _ => WriteBack.ofDocument?_of_means) ?_
    cases o.writeBack with
    | inline => simp
    | detached => simp [defaults, WriteBack.name]
  rw [ofDocument?, hfields]
  simp only [Option.bind_eq_bind, Option.bind_some, hkeyspace, httl, hflag haddNulls,
    hflag hskipNulls, hflag hkeys, hflag hbypass, hwriteBack]
  rfl

/-! ## Objects and arrays that spell options -/

/-- The members of an object say what the options are, in any order and among any others. What the
others hold, and how deep, does not matter. -/
structure SpelledBy (o : Options) (ms : List (List Piece × Document)) : Prop where
  /-- Every name is a text. -/
  named : none ∉ names ms
  once : ∀ name ∈ memberNames, ¬List.Duplicate (some name) (names ms)
  value : ∀ m ∈ ms, ∀ f ∈ o.members, Quoted.resolve? m.1 = some f.1 → m.2.Means f.2
  /-- Only defaults are left out. -/
  rest : ∀ f ∈ o.members, some f.1 ∈ names ms ∨ f ∈ defaults

/-- The items of an array are the values of the first members, in their order. -/
structure ListedBy (o : Options) (ds : List Document) : Prop where
  values : List.Forall₂ (fun d f => d.Means f.2) ds (o.members.take ds.length)
  /-- Only defaults are left out. -/
  rest : ∀ f ∈ o.members.drop ds.length, f ∈ defaults

theorem mem_memberNames {f : String × Json} (h : f ∈ o.members) : f.1 ∈ memberNames :=
  map_fst_members o ▸ List.mem_map_of_mem h

theorem SpelledBy.ofDocument? {ms : List (List Piece × Document)} (h : o.SpelledBy ms) :
    ofDocument? (.object ms) = some o := by
  obtain ⟨fields, hfields⟩ := knownMembers?_of_once h.named h.once
  refine ofDocument?_of_found hfields fun f hf => ?_
  have hname := mem_memberNames hf
  cases hlookup : fields.lookup f.1 with
  | none =>
      have hleft := (lookup_knownMembers?_eq_none hfields hname).mp hlookup
      exact .inr ⟨hlookup, (h.rest f hf).resolve_left hleft⟩
  | some d =>
      have hfind := (lookup_knownMembers? hfields hname).symm.trans hlookup
      obtain ⟨m, hm, rfl⟩ := Option.map_eq_some_iff.mp hfind
      have hsame : Quoted.resolve? m.1 = some f.1 := by simpa using List.find?_some hm
      exact .inl ⟨m.2, hlookup, h.value m (List.mem_of_find?_eq_some hm) f hf hsame⟩

theorem ListedBy.ofDocument? {ds : List Document} (h : o.ListedBy ds) :
    ofDocument? (.array ds) = some o := by
  have hlength : ds.length ≤ memberNames.length := by
    rw [h.values.length_eq, ← map_fst_members o, List.length_map]
    exact List.length_take_le' _ _
  refine ofDocument?_of_found (if_pos hlength) ?_
  rw [← map_fst_members o]
  exact found_zip (map_fst_members o ▸ nodup_memberNames) h.values h.rest

theorem ofDocument?_of_unnamed {ms : List (List Piece × Document)}
    (h : some "namespace" ∉ names ms) : ofDocument? (.object ms) = none := by
  cases hfields : knownMembers? memberNames ms with
  | none => rw [Options.ofDocument?, fields?, hfields]; rfl
  | some fields =>
      have hlookup := (lookup_knownMembers?_eq_none hfields (by decide)).mpr h
      rw [Options.ofDocument?, fields?, hfields]
      simp only [Option.bind_eq_bind, Option.bind_some, required?, hlookup, Option.bind_none]

theorem ofDocument?_of_twice {ms : List (List Piece × Document)} {name : String}
    (hname : name ∈ memberNames) (htwice : List.Duplicate (some name) (names ms)) :
    ofDocument? (.object ms) = none := by
  rw [Options.ofDocument?, fields?, knownMembers?_of_twice hname htwice]
  rfl

/-! ## The JSON form -/

theorem names_memberDocuments (o : Options) :
    names (memberDocuments o.members) = memberNames.map some := by
  rw [memberDocuments_eq_map, names, List.map_map, ← map_fst_members o, List.map_map]
  exact List.map_congr_left fun f _ => Quoted.resolve?_pieces f.1

/-- No option is a double or a container. -/
theorem members_simple (o : Options) :
    ∀ f ∈ o.members, f.2.Integral ∧ f.2.Ordered ∧ f.2.depth = 0 := by
  simp only [members, toJson, List.forall_mem_cons, List.not_mem_nil, false_imp_iff,
    implies_true, and_true, Integral, Ordered, depth, true_and]
  cases o.ttl with
  | none => exact ⟨trivial, trivial, rfl⟩
  | some n => exact ⟨Kind.isWord_toNat n, trivial, rfl⟩

theorem spelledBy_members (o : Options) : o.SpelledBy (memberDocuments o.members) where
  named := by simp [names_memberDocuments]
  once name _ h := by
    rw [names_memberDocuments] at h
    exact h.not_nodup (nodup_memberNames.map fun _ _ => Option.some.inj)
  value m hm f hf hsame := by
    rw [memberDocuments_eq_map] at hm
    obtain ⟨g, hg, rfl⟩ := List.mem_map.mp hm
    have hname : g.1 = f.1 := Option.some.inj ((Quoted.resolve?_pieces g.1).symm.trans hsame)
    obtain rfl := List.inj_on_of_nodup_map (map_fst_members o ▸ nodup_memberNames) hg hf hname
    obtain ⟨hintegral, hordered, hdepth⟩ := members_simple o g hg
    exact means_document hintegral hordered (hdepth ▸ Nat.zero_le _)
  rest f hf := .inl (by
    rw [names_memberDocuments]
    exact List.mem_map_of_mem (mem_memberNames hf))

/-- The text that options are written as is an object of their members. -/
theorem text_toJson (o : Options) : Text (.object (memberDocuments o.members)) o.toJson.render :=
  text_render o.toJson (integralMembers_of_forall fun f hf => (members_simple o f hf).1)

/-! ## Texts -/

theorem ofText?_of_text {bs : Bytes} (h : Text d bs) : ofText? bs = ofDocument? d := by
  rw [ofText?, parse?_of_text h, Option.bind_some]

/-- Options survive their JSON form: as they are written, and as any object or array of what is
not left out. An object has to have the keyspace, and no option twice. -/
theorem ofText?_texts :
    (∀ o : Options, ofText? o.toJson.render = some o) ∧
    (∀ (o : Options) (ms : List (List Piece × Document)) (bs : Bytes), Text (.object ms) bs →
      o.SpelledBy ms → ofText? bs = some o) ∧
    (∀ (o : Options) (ds : List Document) (bs : Bytes), Text (.array ds) bs → o.ListedBy ds →
      ofText? bs = some o) ∧
    (∀ (ms : List (List Piece × Document)) (bs : Bytes), Text (.object ms) bs →
      some "namespace" ∉ names ms → ofText? bs = none) ∧
    (∀ (ms : List (List Piece × Document)) (bs : Bytes) (name : String), Text (.object ms) bs →
      name ∈ memberNames → List.Duplicate (some name) (names ms) → ofText? bs = none) := by
  refine ⟨fun o => ?_, fun o ms bs h hms => ?_, fun o ds bs h hds => ?_, fun ms bs h hms => ?_,
    fun ms bs name h hname htwice => ?_⟩
  · rw [ofText?_of_text (text_toJson o), (spelledBy_members o).ofDocument?]
  · rw [ofText?_of_text h, hms.ofDocument?]
  · rw [ofText?_of_text h, hds.ofDocument?]
  · rw [ofText?_of_text h, ofDocument?_of_unnamed hms]
  · rw [ofText?_of_text h, ofDocument?_of_twice hname htwice]

end

/-- Options with two members that are not left out. -/
def brief : Options := { keyspace := "n", ttl := some 5 }

/-- The members of `brief` behind another one, the name of the last with an escape. -/
def shuffledMembers : List (List Piece × Document) :=
  [(Quoted.pieces "x", .array [.null]), (Quoted.pieces "ttl_seconds", (Json.number 5).document),
    (.unit 0x6E :: Quoted.pieces "amespace", (Json.string "n").document)]

def shuffledText : Bytes :=
  utf8 "\x7b \"x\":[null],\"ttl_seconds\":5,\"\\u006eamespace\":\"n\"\x7d"

theorem names_shuffledMembers :
    names shuffledMembers = [some "x", some "ttl_seconds", some "namespace"] := by rfl

theorem text_shuffledMembers : Text (.object shuffledMembers) shuffledText :=
  .object (.more (.before (b := 0x20) rfl (text_string "x")) (.array (.last .nullWord))
    (.more (text_string "ttl_seconds") (.number (text_ofNat false 5))
      (.last (.string (.unit rfl (body_pieces "amespace"))) (text_string "n"))))

theorem spelledBy_shuffledMembers : brief.SpelledBy shuffledMembers where
  named := by simp [names_shuffledMembers]
  once name _ h := by
    rw [names_shuffledMembers] at h
    exact h.not_nodup (by decide)
  value m hm f hf hname := by
    simp only [members, toJson, brief, List.mem_cons, List.not_mem_nil, or_false] at hf
    simp only [shuffledMembers, List.mem_cons, List.not_mem_nil, or_false] at hm
    -- A member with the name of an option is the one with its value.
    rcases hm with rfl | rfl | rfl <;> rcases hf with rfl | rfl | rfl | rfl | rfl | rfl | rfl <;>
      first | rfl | exact absurd hname (by decide)
  rest := by simp [names_shuffledMembers, members, toJson, brief, defaults, WriteBack.name]

theorem ofText?_texts_of_brief :
    ofText? brief.toJson.render = some brief ∧
    ofText? shuffledText = some brief ∧
    ofText? (Json.array [.string "n", .number 5]).render = some brief ∧
    ofText? (Json.object [("ttl_seconds", .number 5)]).render = none ∧
    ofText? (Json.object [("namespace", .string "n"), ("namespace", .string "n")]).render = none :=
  ⟨ofText?_texts.1 brief,
    ofText?_texts.2.1 brief shuffledMembers _ text_shuffledMembers spelledBy_shuffledMembers,
    ofText?_texts.2.2.1 brief (documents [.string "n", .number 5]) _
      (text_render (.array _) ⟨trivial, rfl, trivial⟩)
      ⟨.cons rfl (.cons rfl .nil), fun _ => List.mem_cons_of_mem _⟩,
    ofText?_texts.2.2.2.1 (memberDocuments [("ttl_seconds", .number 5)]) _
      (text_render (.object _) ⟨rfl, trivial⟩) (by decide),
    ofText?_texts.2.2.2.2 (memberDocuments [("namespace", .string "n"), ("namespace", .string "n")])
      _ "namespace" (text_render (.object _) ⟨trivial, trivial, trivial⟩) (by decide)
      (.cons_mem (by decide))⟩

end Options

end CacheAside

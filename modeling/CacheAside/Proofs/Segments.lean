import CacheAside.Proofs.ReadsByKey
import CacheAside.Proofs.ReadsByPosition
import Mathlib.Data.List.Find

/-!
# Keys by segments

A key joins its identities with slashes, and an identity may hold slashes of its own. So a key does
not tell where one identity ends: it tells the segments between slashes, and no more. Compound
identities without slashes in their parts have keys of their own, and a batch read over different
ones keeps them apart. Others may share a key, and then also its value.
-/

namespace CacheAside

/-! ## Lists cut at a mark -/

section
variable {α : Type} [DecidableEq α]

theorem splitOn_intercalate_eq_flatMap (x : α) : ∀ {ls : List (List α)}, ls ≠ [] →
    ([x].intercalate ls).splitOn x = ls.flatMap (·.splitOn x)
  | [l], _ => by simp
  | l :: m :: ls, _ => by
      have ih := splitOn_intercalate_eq_flatMap x (List.cons_ne_nil m ls)
      rw [List.intercalate_cons_cons, List.append_assoc, List.singleton_append,
        List.splitOn_append_cons_self, ih]
      rfl

theorem splitOn_inj {x : α} {l m : List α} : l.splitOn x = m.splitOn x ↔ l = m :=
  ⟨fun h => by
    have hjoined := congrArg [x].intercalate h
    rwa [List.intercalate_splitOn, List.intercalate_splitOn] at hjoined,
    fun h => h ▸ rfl⟩

end

/-! ## What a key tells -/

namespace Key

/-- What stands between the slashes of an identity. -/
def segments (id : String) : List (List Char) := id.toList.splitOn '/'

theorem segments_inj {id id' : String} : segments id = segments id' ↔ id = id' :=
  splitOn_inj.trans String.toList_inj

theorem segments_intercalate {ids : List String} (hne : ids ≠ []) :
    segments (idSeparator.intercalate ids) = ids.flatMap segments := by
  rw [segments, String.toList_intercalate]
  refine (splitOn_intercalate_eq_flatMap '/' (by simpa using hne)).trans ?_
  rw [List.flatMap_map]
  rfl

/-- Whether identities have no slashes, and so are their own segments. -/
def Plain (ids : List String) : Prop := ∀ id ∈ ids, '/' ∉ id.toList

theorem Plain.flatMap_segments {ids : List String} (h : Plain ids) :
    ids.flatMap segments = ids.map String.toList := by
  rw [← List.flatMap_pure_eq_map]
  exact List.flatMap_congr fun id hid => List.splitOn_eq_singleton (h id hid)

theorem Plain.segments_inj {ids ids' : List String} (h : Plain ids) (h' : Plain ids') :
    ids.flatMap segments = ids'.flatMap segments ↔ ids = ids' := by
  rw [h.flatMap_segments, h'.flatMap_segments]
  exact List.map_inj_right fun a b => String.toList_inj.mp

theorem ne_nil_of_build {ns : String} {ids : List String} {k : Key} (h : build ns ids = .ok k) :
    ids ≠ [] := by
  rintro rfl
  unfold build at h
  split at h <;> cases h

/-- Keys of one keyspace are the same if and only if their identities have the same segments. -/
theorem eq_iff_of_build {ns : String} {ids ids' : List String} {k k' : Key}
    (h : build ns ids = .ok k) (h' : build ns ids' = .ok k') :
    k = k' ↔ ids.flatMap segments = ids'.flatMap segments := by
  obtain ⟨-, -, htext⟩ := build_eq_ok h
  obtain ⟨-, -, htext'⟩ := build_eq_ok h'
  rw [← segments_intercalate (ne_nil_of_build h), ← segments_intercalate (ne_nil_of_build h'),
    segments_inj]
  constructor
  · rintro rfl
    exact String.append_right_inj _ |>.mp (htext.symm.trans htext')
  · intro hpath
    cases k
    cases k'
    exact congrArg Key.mk (htext.trans (hpath ▸ htext'.symm))

end Key

/-! ## Compound identities -/

theorem Registry.lookup_of_not_isRegistered {r : Registry} {k : Kind}
    (h : r.isRegistered k = false) (x : k) : r.lookup x = none := by
  have hfind : ∀ entries : List ((k : Kind) × (k → String)),
      entries.any (·.1 == k) = false → find? k entries = none := by
    intro entries hentries
    induction entries with
    | nil => rfl
    | cons e entries ih =>
        obtain ⟨hne, hrest⟩ := Bool.or_eq_false_iff.mp hentries
        rw [find?, dif_neg (by simpa using hne), ih hrest]
  rw [lookup, hfind r.entries h, Option.map_none]

namespace KeyBuilder

variable {b : KeyBuilder} {ns : String} {x y : Kind.compound} {k k' : Key}

/-- The key of a compound identity without a rule of its own is built from its text. -/
theorem build_text_of_keyFor (hkind : b.registry.isRegistered .compound = false)
    (h : b.keyFor ns x = .ok k) : Key.build ns [x.text] = .ok k := by
  rw [keyFor, Registry.derive, Registry.lookup_of_not_isRegistered hkind, Option.getD_none,
    Kind.text, Registry.checkDerived] at h
  by_cases hblank : isBlank x.text = true
  · rw [if_pos hblank] at h
    cases h
  · rw [if_neg hblank] at h
    exact build_of_build h

theorem keyFor_compound_eq_iff (hkind : b.registry.isRegistered .compound = false)
    (hx : b.keyFor ns x = .ok k) (hy : b.keyFor ns y = .ok k') :
    k = k' ↔ x.parts.flatMap Key.segments = y.parts.flatMap Key.segments := by
  rw [Key.eq_iff_of_build (build_text_of_keyFor hkind hx) (build_text_of_keyFor hkind hy),
    List.flatMap_singleton, List.flatMap_singleton, CompoundId.text, CompoundId.text,
    Key.segments_intercalate x.ne_nil, Key.segments_intercalate y.ne_nil]

end KeyBuilder

theorem CompoundId.ext_parts {x y : CompoundId} (h : x.parts = y.parts) : x = y := by
  cases x
  cases y
  cases h
  rfl

namespace Cache

/-! ## Objects with keys of their own -/

section
variable {σ υ ε : Type} {κ τ : Kind} {c : Cache σ} {o : Options} {xs : List κ} {keyOf : κ → Key}
  {w : World σ υ}

theorem idxOf_map {x : κ} : ∀ {l : List κ}, (∀ y ∈ l, keyOf y = keyOf x ↔ (y == x) = true) →
    (l.map keyOf).idxOf (keyOf x) = l.idxOf x
  | [], _ => rfl
  | y :: l, h => by
      have ih := idxOf_map fun z hz => h z (List.mem_cons_of_mem _ hz)
      have hy : (keyOf y == keyOf x) = (y == x) := by
        rw [Bool.eq_iff_iff, beq_iff_eq]
        exact h y List.mem_cons_self
      rw [List.map_cons, List.idxOf_cons, List.idxOf_cons, ih, hy]

/-- What the answer of the source says about an object that it was asked for: the value at the
object's own place, or in the first row with the object's own key. -/
def sourced (c : Cache σ) (o : Options) (keyOf : κ → Key) (asked : List κ)
    (results : List (Option τ)) (x : κ) : Option τ :=
  if o.keysFromResults then
    (results.filterMap id).find? fun v =>
      (c.keys.keyForResult o.keyspace v).toOption == some (keyOf x)
  else (results[asked.idxOf x]?).join

/-- Matched by position, an object has the value at its own place. -/
theorem positional_eq_sourced (hunites : Unites keyOf xs) (hnodup : (xs.map keyOf).Nodup)
    (hposition : o.keysFromResults = false) {results : List (Option τ)} {s : Scene σ} {x : κ}
    (hx : x ∈ xs) :
    c.positional o (xs.map keyOf) s results (keyOf x) =
      (c.recalled o τ (xs.map keyOf) s (keyOf x)).getD
        (.ofOption (c.sourced o keyOf (c.askedObjects o τ xs keyOf s) results x)) := by
  have hinj : ∀ y ∈ c.askedObjects o τ xs keyOf s, keyOf y = keyOf x ↔ (y == x) = true := by
    intro y hy
    have hmem := askedObjects_subset c o τ xs keyOf s hy
    refine ⟨fun hkey => ?_, hunites y hmem x hx⟩
    rw [List.inj_on_of_nodup_map hnodup hmem hx hkey]
    exact BEq.rfl
  have hmissed := map_askedObjects c o τ xs keyOf s
  rw [eraseDups_of_nodup hnodup] at hmissed
  simp only [positional, sourced, hposition, Bool.false_eq_true, ↓reduceIte, ← hmissed,
    idxOf_map hinj]

/-- Matched by key, it has the value of the first row with its own key. -/
theorem matched_eq_sourced (hresults : o.keysFromResults = true) {results : List (Option τ)}
    {rowKey : τ → Key} {asked : List κ}
    (hrows : ∀ v ∈ results.filterMap id, c.keys.keyForResult o.keyspace v = .ok (rowKey v))
    (keys : List Key) (s : Scene σ) (x : κ) :
    c.matched o keys s rowKey (results.filterMap id) (keyOf x) =
      (c.recalled o τ keys s (keyOf x)).getD
        (.ofOption (c.sourced o keyOf asked results x)) := by
  have hfind : (results.filterMap id).find? (rowKey · == keyOf x) =
      (results.filterMap id).find? fun v =>
        (c.keys.keyForResult o.keyspace v).toOption == some (keyOf x) :=
    List.find?_congr fun v hv => by
      rw [hrows v hv]
      rfl
  rw [matched, sourced, if_pos hresults, hfind]

/-- Whichever way the results are matched, each object has what is its own. -/
theorem Recalls.eq_of_align {b : Batch κ τ} {s : Scene σ} (hb : c.Recalls o s b xs keyOf)
    (hnodup : (xs.map keyOf).Nodup) {results vs : List (Option τ)} {w' : World σ υ}
    (hrun : (match (if o.keysFromResults then c.alignByKey o b else c.alignByPosition o b)
        results w with
      | (.error e, w₁) => (.error (.refused e), w₁)
      | (.ok (writes, b), w₁) => Cache.finish (ε := ε) o b (c.writeBack o writes w₁)) =
        (.ok vs, w')) :
    vs = present o.skipNulls (xs.map fun x => (c.recalled o τ (xs.map keyOf) s (keyOf x)).getD
      (.ofOption (c.sourced o keyOf (c.askedObjects o τ xs keyOf s) results x))) := by
  by_cases hresults : o.keysFromResults = true
  · simp only [hresults, ↓reduceIte] at hrun
    cases hmap : (results.filterMap id).mapM (c.keys.keyForResult o.keyspace) with
    | error e =>
        obtain ⟨w₁, -, halign⟩ := alignByKey_eq_error (b := b) (w := w) hmap
        rw [halign] at hrun
        cases hrun
    | ok rowKeys =>
        obtain ⟨rowKey, hrows⟩ := exists_of_mapM_ok hmap
        obtain ⟨b', w₁, -, halign, hb', hfind⟩ := hb.alignByKey (w := w)
          fun v hv => hrows v (by simpa using hv)
        simp only [halign, finish_eq_ok hb' hfind] at hrun
        cases hrun
        rw [eraseDups_of_nodup hnodup]
        exact congrArg _ (List.map_congr_left fun x _ => matched_eq_sourced hresults hrows _ _ x)
  · have hposition : o.keysFromResults = false := by simpa using hresults
    simp only [hposition, Bool.false_eq_true, ↓reduceIte] at hrun
    by_cases hlength : results.length = (c.missedKeys o τ (xs.map keyOf).eraseDups s).length
    · obtain ⟨b', w₁, -, halign, hb', hfind⟩ := hb.alignByPosition (w := w) hlength
      simp only [halign, finish_eq_ok hb' hfind] at hrun
      cases hrun
      rw [eraseDups_of_nodup hnodup]
      exact congrArg _ (List.map_congr_left fun x hx =>
        positional_eq_sourced hb.keeps.unites hnodup hposition hx)
    · rw [hb.alignByPosition_eq_error hlength] at hrun
      cases hrun

/-- A batch read over objects with keys of their own asks the store for as many keys as there are
objects, and answers each of them with what there is under its own key or with what the source says
about it. -/
theorem readMany_of_nodup (hne : xs ≠ []) (henabled : c.config.disabled = false)
    (hkind : o.keysFromResults = true → c.registry.isRegistered τ = true)
    (hkeys : Batch.Assigns c.keys o.keyspace xs keyOf) (hnodup : (xs.map keyOf).Nodup) :
    let recalled (x : κ) := c.recalled o τ (xs.map keyOf) w.scene (keyOf x)
    let asked := xs.filter fun x => (recalled x).isNone
    ∃ w₁, c.store.Leads (bulkCalls o (xs.map keyOf))
        (c.readTally o τ (xs.map keyOf) w.scene) w w₁ ∧
      ∀ (source : List κ → Computation σ υ ε (List (Option τ))) (vs : List (Option τ))
        (w' : World σ υ), c.readMany o xs source w = (.ok vs, w') →
        ∃ results, (asked ≠ [] → ∃ w₂, source asked w₁ = (.ok results, w₂)) ∧
          vs = present o.skipNulls (xs.map fun x =>
            (recalled x).getD (.ofOption (c.sourced o keyOf asked results x))) := by
  intro recalled asked
  have hasked : c.askedObjects o τ xs keyOf w.scene = asked := askedObjects_eq_filter hnodup
  have hmissed : c.missedKeys o τ (xs.map keyOf) w.scene = asked.map keyOf := by
    rw [← hasked, map_askedObjects, eraseDups_of_nodup hnodup]
  obtain ⟨b, w₁, hb, hleads, hread⟩ := readMany_eq (ε := ε) (w := w) hne henabled hkeys hkind
  rw [eraseDups_of_nodup hnodup] at hleads
  refine ⟨w₁, hleads, fun source vs w' hrun => ?_⟩
  rw [hread, hasked, eraseDups_of_nodup hnodup, hmissed] at hrun
  by_cases hnone : asked = []
  · rw [if_pos (List.map_eq_nil_iff.mpr hnone), hb.finish] at hrun
    · cases hrun
      refine ⟨[], fun h => absurd hnone h, congrArg _ (List.map_congr_left fun x hx => ?_)⟩
      rw [eraseDups_of_nodup hnodup]
      have hsome : ¬(recalled x).isNone = true := List.filter_eq_nil_iff.mp hnone x hx
      obtain ⟨entry, hentry⟩ : ∃ entry, recalled x = some entry :=
        Option.ne_none_iff_exists'.mp (by simpa using hsome)
      rw [hentry]
      exact congrArg (·.getD Entry.null) hentry
    · rw [eraseDups_of_nodup hnodup, hmissed, hnone, List.map_nil]
  · rw [if_neg (by simpa using hnone)] at hrun
    rcases hsource : source asked w₁ with ⟨answer, w₂⟩
    rw [hsource] at hrun
    cases answer with
    | error e => cases hrun
    | ok results =>
        refine ⟨results, fun _ => ⟨w₂, rfl⟩, ?_⟩
        rw [hb.eq_of_align hnodup hrun, hasked]

end

/-! ## Batches of compound identities -/

section
variable {σ υ ε : Type} {τ : Kind} {c : Cache σ} {o : Options}

/-- Keys tell compound identities apart as far as their segments do. Identities without slashes in
their parts are told apart, and a batch read of different ones never answers one with what belongs
to another. -/
theorem readMany_of_compounds (henabled : c.config.disabled = false)
    (hcompound : c.registry.isRegistered .compound = false)
    (hkind : o.keysFromResults = true → c.registry.isRegistered τ = true) (w : World σ υ) :
    (∀ (ns : String) (ids ids' : List String) (k k' : Key),
      Key.build ns ids = .ok k → Key.build ns ids' = .ok k' →
        (k = k' ↔ ids.flatMap Key.segments = ids'.flatMap Key.segments) ∧
        (Key.Plain ids → Key.Plain ids' → ids ≠ ids' → k ≠ k')) ∧
    (∀ (ns : String) (x y : Kind.compound) (k k' : Key),
      c.keys.keyFor ns x = .ok k → c.keys.keyFor ns y = .ok k' →
        (k = k' ↔ x.parts.flatMap Key.segments = y.parts.flatMap Key.segments) ∧
        (Key.Plain x.parts → Key.Plain y.parts → x ≠ y → k ≠ k')) ∧
    ∀ (xs : List Kind.compound) (keyOf : Kind.compound → Key), xs ≠ [] → xs.Nodup →
      (∀ x ∈ xs, Key.Plain x.parts) → (∀ x ∈ xs, c.keys.keyFor o.keyspace x = .ok (keyOf x)) →
      let keys := xs.map keyOf
      let recalled (x : Kind.compound) := c.recalled o τ keys w.scene (keyOf x)
      let asked := xs.filter fun x => (recalled x).isNone
      keys.Nodup ∧ keys.length = xs.length ∧
      ∃ w₁, c.store.Leads (bulkCalls o keys) (c.readTally o τ keys w.scene) w w₁ ∧
        ∀ (source : List Kind.compound → Computation σ υ ε (List (Option τ)))
          (vs : List (Option τ)) (w' : World σ υ), c.readMany o xs source w = (.ok vs, w') →
          ∃ results, (asked ≠ [] → ∃ w₂, source asked w₁ = (.ok results, w₂)) ∧
            vs = present o.skipNulls (xs.map fun x =>
              (recalled x).getD (.ofOption (c.sourced o keyOf asked results x))) := by
  have hids : ∀ (ns : String) (ids ids' : List String) (k k' : Key),
      Key.build ns ids = .ok k → Key.build ns ids' = .ok k' →
        Key.Plain ids → Key.Plain ids' → ids ≠ ids' → k ≠ k' :=
    fun ns ids ids' k k' h h' hplain hplain' hne hkey =>
      hne ((hplain.segments_inj hplain').mp ((Key.eq_iff_of_build h h').mp hkey))
  have hcompounds : ∀ (ns : String) (x y : Kind.compound) (k k' : Key),
      c.keys.keyFor ns x = .ok k → c.keys.keyFor ns y = .ok k' →
        Key.Plain x.parts → Key.Plain y.parts → x ≠ y → k ≠ k' :=
    fun ns x y k k' hx hy hplain hplain' hne hkey =>
      hne (CompoundId.ext_parts ((hplain.segments_inj hplain').mp
        ((KeyBuilder.keyFor_compound_eq_iff hcompound hx hy).mp hkey)))
  refine ⟨fun ns ids ids' k k' h h' => ⟨Key.eq_iff_of_build h h', hids ns ids ids' k k' h h'⟩,
    fun ns x y k k' hx hy => ⟨KeyBuilder.keyFor_compound_eq_iff hcompound hx hy,
      hcompounds ns x y k k' hx hy⟩, fun xs keyOf hne hdistinct hplain hkeys => ?_⟩
  have hnodup : (xs.map keyOf).Nodup := hdistinct.map_on fun x hx y hy hkey => by
    by_contra hxy
    exact hcompounds o.keyspace x y _ _ (hkeys x hx) (hkeys y hy) (hplain x hx) (hplain y hy) hxy
      hkey
  exact ⟨hnodup, List.length_map _,
    readMany_of_nodup hne henabled hkind (Batch.assigns_of_ne (by decide) hkeys) hnodup⟩

/-- A part more makes another key, and the values stay apart. -/
theorem readMany_of_compounds_of_paths :
    let c : Cache MemoryStore := { store := .memory }
    let o : Options := { keyspace := "n" }
    let x : Kind.compound := (⟨["a", "b"], List.cons_ne_nil _ _, rfl⟩ : CompoundId)
    let y : Kind.compound := (⟨["a"], List.cons_ne_nil _ _, rfl⟩ : CompoundId)
    let w : World MemoryStore Unit := { scene := { contents := .empty, now := 0 }, outside := () }
    let source :
        List Kind.compound → Computation MemoryStore Unit Unit (List (Option Kind.word32)) :=
      fun asked w => (.ok (asked.map fun x => some (UInt32.ofNat x.parts.length)), w)
    c.keys.keyFor "n" x = .ok ⟨"n:a/b"⟩ ∧ c.keys.keyFor "n" y = .ok ⟨"n:a"⟩ ∧
      ∃ w', c.readMany o [x, y] source w = (.ok [some (2 : UInt32), some (1 : UInt32)], w') := by
  intro c o x y w source
  have hx : c.keys.keyFor "n" x = .ok ⟨"n:a/b"⟩ := by decide +kernel
  have hy : c.keys.keyFor "n" y = .ok ⟨"n:a"⟩ := by decide +kernel
  obtain ⟨-, -, hread⟩ := readMany_of_compounds (c := c) (o := o) (τ := .word32) (ε := Unit) rfl rfl
    (fun h => nomatch h) w
  obtain ⟨-, -, w₁, -, hanswer⟩ := hread [x, y]
    (fun z => if z = x then ⟨"n:a/b"⟩ else ⟨"n:a"⟩) (by decide) (by decide +kernel)
    (by unfold Key.Plain; decide +kernel) (by
      intro z hz
      rcases List.mem_cons.mp hz with rfl | hz
      · exact hx
      · rw [List.mem_singleton.mp hz]
        decide +kernel)
  rcases hrun : c.readMany o [x, y] source w with ⟨answer, w'⟩
  cases answer with
  | error e =>
      have hok : (c.readMany o [x, y] source w).1.isOk = true := by decide +kernel
      rw [hrun] at hok
      cases hok
  | ok vs =>
      obtain ⟨results, hsource, hvs⟩ := hanswer source vs w' hrun
      obtain ⟨w₂, hresults⟩ := hsource (by decide +kernel)
      cases hresults
      refine ⟨hx, hy, w', ?_⟩
      rw [hvs]
      congr 1

/-- With a slash inside a part two compound identities have one key: the batch asks for one of them
and answers both with its value. -/
theorem readMany_mixes_compounds :
    let c : Cache MemoryStore := { store := .memory }
    let o : Options := { keyspace := "n" }
    let x : Kind.compound := (⟨["a", "b"], List.cons_ne_nil _ _, rfl⟩ : CompoundId)
    let y : Kind.compound := (⟨["a/b"], List.cons_ne_nil _ _, rfl⟩ : CompoundId)
    let w : World MemoryStore Unit := { scene := { contents := .empty, now := 0 }, outside := () }
    let source :
        List Kind.compound → Computation MemoryStore Unit Unit (List (Option Kind.word32)) :=
      fun asked w => (.ok (asked.map fun x => some (UInt32.ofNat x.parts.length)), w)
    ["a", "b"] ≠ ["a/b"] ∧ Key.build "n" ["a", "b"] = .ok ⟨"n:a/b"⟩ ∧
      Key.build "n" ["a/b"] = .ok ⟨"n:a/b"⟩ ∧
      c.registry.isRegistered .compound = false ∧ x ≠ y ∧
      c.keys.keyFor "n" x = .ok ⟨"n:a/b"⟩ ∧ c.keys.keyFor "n" y = .ok ⟨"n:a/b"⟩ ∧
      (source [y] w).1.toOption = some [some (1 : UInt32)] ∧
      (c.readMany o [x, y] source w).1.toOption = some [some (2 : UInt32), some (2 : UInt32)] := by
  intro c o x y w source
  refine ⟨?_, ?_, ?_, ?_, ?_, ?_, ?_, ?_, ?_⟩
  all_goals decide +kernel

end

end Cache

end CacheAside

import CacheAside.Proofs.Batch

/-!
# Changes of a batch

A batch through any number of changes. They come in any order, and for any keys: what the batch
reports in the end depends on its objects, and on which keys have been given an entry and which one
first.
-/

namespace CacheAside.Batch

variable {κ τ : Kind} {kb : KeyBuilder} {ns : String} {xs : List κ} {keyOf : κ → Key}

/-! ## Asking for keys -/

/-- As `assign`, with the objects in their order whose keys are derived. -/
def assignAsking (kb : KeyBuilder) (ns : String) :
    List κ → List (κ × Key) → Except ConfigError (List (κ × Key)) × List κ
  | [], keyed => (.ok keyed, [])
  | x :: xs, keyed =>
    if (keyed.lookup x).isSome then assignAsking kb ns xs keyed
    else
      match kb.keyFor ns x with
      | .error e => (.error e, [x])
      | .ok key =>
        let (answer, asked) := assignAsking kb ns xs (keyed ++ [(x, key)])
        (answer, x :: asked)

theorem fst_assignAsking (kb : KeyBuilder) (ns : String) (xs : List κ) (keyed : List (κ × Key)) :
    (assignAsking kb ns xs keyed).1 = assign kb ns xs keyed := by
  induction xs generalizing keyed with
  | nil => rfl
  | cons x xs ih =>
      rw [assignAsking, assign]
      split
      · exact ih keyed
      · cases kb.keyFor ns x with
        | error e => rfl
        | ok key => exact ih _

/-- What keys are derived for is what gets one: each object once. -/
theorem assignAsking_of_ok {keyed keyed' : List (κ × Key)}
    (h : assign kb ns xs keyed = .ok keyed') :
    keyed'.map (·.1) = keyed.map (·.1) ++ (assignAsking kb ns xs keyed).2 := by
  induction xs generalizing keyed with
  | nil =>
      obtain rfl : keyed = keyed' := Except.ok.inj h
      simp [assignAsking]
  | cons x xs ih =>
      rw [assign] at h
      rw [assignAsking]
      split at h
      · next hx => rw [if_pos hx, ih h]
      · next hx =>
          rw [if_neg hx]
          cases hkey : kb.keyFor ns x with
          | error e => simp [hkey] at h
          | ok key =>
              rw [hkey] at h
              rw [ih h]
              simp

/-! ## Objects that are equal have one key -/

/-- What a choice leaves out can be asked for as well, if it does not fail. -/
theorem mapM_filter_eq_error {α β ε : Type} {f : α → Except ε β} {p : α → Bool} {l : List α}
    (h : ∀ x ∈ l, p x = false → ∃ b, f x = .ok b) {e : ε} :
    (l.filter p).mapM f = .error e ↔ l.mapM f = .error e := by
  induction l with
  | nil => rfl
  | cons a l ih =>
      have ih := ih fun x hx => h x (List.mem_cons_of_mem _ hx)
      cases ha : p a with
      | true =>
          rw [List.filter_cons_of_pos ha, List.mapM_cons, List.mapM_cons]
          cases f a with
          | error e' => rfl
          | ok b =>
              revert ih
              cases (l.filter p).mapM f <;> cases l.mapM f <;>
                simp [bind, Except.bind, pure, Except.pure]
      | false =>
          obtain ⟨b, hb⟩ := h a List.mem_cons_self ha
          rw [List.filter_cons_of_neg (by simp [ha]), ih, List.mapM_cons, hb]
          cases l.mapM f <;> simp [bind, Except.bind, pure, Except.pure]

/-- If it fails for equal members alike, it is enough to try the first of them. -/
theorem mapM_eraseDups_eq_error {α β ε : Type} [BEq α] [EquivBEq α] {f : α → Except ε β}
    {l : List α} (h : Unites f l) {e : ε} : l.eraseDups.mapM f = .error e ↔ l.mapM f = .error e := by
  induction l using thinning_induction fun b a : α => b == a with
  | nil => rfl
  | cons a l ih =>
      have ih := ih fun x hx y hy => h x (List.mem_cons_of_mem _ (List.mem_of_mem_filter hx)) y
        (List.mem_cons_of_mem _ (List.mem_of_mem_filter hy))
      rw [List.eraseDups_cons, List.mapM_cons, List.mapM_cons]
      cases ha : f a with
      | error e' => rfl
      | ok b =>
          rw [mapM_filter_eq_error fun x hx hxa => ⟨b, by
            rw [h x (List.mem_cons_of_mem _ hx) a List.mem_cons_self (by simpa using hxa), ha]⟩]
            at ih
          revert ih
          cases (l.filter fun x => !x == a).eraseDups.mapM f <;> cases l.mapM f <;>
            simp [bind, Except.bind, pure, Except.pure]

/-- Then each object of a batch has its own key, and the first one without a key is the first of
all objects. -/
theorem assigns_own_of_unites (h : Unites (kb.keyFor ns) xs) :
    (∀ keyOf : κ → Key, Assigns kb ns xs keyOf → ∀ x ∈ xs, kb.keyFor ns x = .ok (keyOf x)) ∧
    ∀ e, (build kb ns xs : Except ConfigError (Batch κ τ)) = .error e ↔
      ∃ before x rest, xs = before ++ x :: rest ∧
        (∀ y ∈ before, ∃ key, kb.keyFor ns y = .ok key) ∧ kb.keyFor ns x = .error e := by
  refine ⟨fun keyOf hassigns x hx => ?_, fun e => ?_⟩
  · obtain ⟨y, hy, hxy, hkey⟩ := hassigns.exists_first hx
    rw [h x hx y (eraseDups_subset xs hy) hxy, hkey]
  · rw [build_eq_error_iff, ← mapM_eq_error_iff, ← mapM_eq_error_iff, mapM_eraseDups_eq_error h]

/-! ## Runs -/

inductive Step (τ : Kind) where
  | resolve (key : Key) (entry : Entry τ)
  | markUnreadable (key : Key)

def Step.run : Step τ → Batch κ τ → Batch κ τ
  | .resolve key entry, b => b.resolve key entry
  | .markUnreadable key, b => b.markUnreadable key

def runAll (steps : List (Step τ)) (b : Batch κ τ) : Batch κ τ :=
  steps.foldl (fun b step => step.run b) b

/-- The entries that some steps are to give, in their order. -/
def given : List (Step τ) → List (Key × Entry τ)
  | [] => []
  | .resolve key entry :: steps => (key, entry) :: given steps
  | .markUnreadable _ :: steps => given steps

variable {b : Batch κ τ}

theorem Keeps.runAll (h : b.Keeps xs keyOf) (steps : List (Step τ)) :
    (b.runAll steps).Keeps xs keyOf := by
  induction steps generalizing b with
  | nil => exact h
  | cons step steps ih =>
      cases step with
      | resolve key entry => exact ih (h.resolve key entry)
      | markUnreadable key => exact ih (h.markUnreadable key)

/-- An entry that is there stays; else the first that is given to a key is the one. -/
theorem find?_runAll (steps : List (Step τ)) (b : Batch κ τ) (j : Key) :
    (b.runAll steps).resolved.find? j = (b.resolved.find? j).or ((given steps).lookup j) := by
  induction steps generalizing b with
  | nil => simp [Batch.runAll, given]
  | cons step steps ih =>
      have hrun : b.runAll (step :: steps) = (step.run b).runAll steps := rfl
      rw [hrun, ih]
      cases step with
      | resolve key entry =>
          rw [Step.run, find?_resolve, given, Option.or_assoc, List.lookup_cons]
          by_cases hj : j = key
          · simp [hj]
          · simp [hj, beq_false_of_ne hj]
      | markUnreadable key => rw [Step.run, markUnreadable_resolved, given]

theorem isUnreadable_runAll (steps : List (Step τ)) (b : Batch κ τ) (j : Key) :
    (b.runAll steps).isUnreadable j = true ↔
      b.isUnreadable j = true ∨ Step.markUnreadable j ∈ steps := by
  induction steps generalizing b with
  | nil => simp [Batch.runAll]
  | cons step steps ih =>
      have hrun : b.runAll (step :: steps) = (step.run b).runAll steps := rfl
      rw [hrun, ih]
      cases step with
      | resolve key entry => simp [Step.run]
      | markUnreadable key =>
          simp only [Step.run, isUnreadable_markUnreadable, Bool.or_eq_true, beq_iff_eq,
            List.mem_cons, Step.markUnreadable.injEq, or_assoc]

/-! ## Reports -/

/-- What a batch for some objects says after some changes. -/
structure Reports (b : Batch κ τ) (xs : List κ) (keyOf : κ → Key) (steps : List (Step τ)) :
    Prop where
  lookup : ∀ x ∈ xs, b.keyed.lookup x = some (keyOf x)
  keyed : b.keyed.map (·.1) = xs.eraseDups
  distinctKeys : b.distinctKeys = (xs.map keyOf).eraseDups
  nodup : b.distinctKeys.Nodup
  owns (key : Key) : b.owns key = true ↔ key ∈ xs.map keyOf
  /-- The first object with a key stands for it. -/
  representative (key : Key) (x : κ) :
    (key, x) ∈ b.representatives ↔ xs.find? (keyOf · == key) = some x
  /-- The first entry that a key has been given is its entry. -/
  entry (key : Key) : b.resolved.find? key = (given steps).lookup key
  unreadable (key : Key) : b.isUnreadable key = true ↔ Step.markUnreadable key ∈ steps
  /-- Keys that have been given no entry are missed, in their order. -/
  missedKeys : b.missed.map (·.1) = b.distinctKeys.filter fun key => key ∉ (given steps).map (·.1)
  missed : ∀ p ∈ b.missed, xs.find? (keyOf · == p.1) = some p.2
  assembles (skipNulls : Bool) :
    (∃ values, b.assemble skipNulls = .ok values) ↔ b.missed = []
  /-- There is a value for each object, or else none when the entry of its key is null. -/
  values : ∀ values, b.assemble false = .ok values →
    values = xs.map (fun x => ((given steps).lookup (keyOf x)).bind Entry.toOption) ∧
      b.assemble true = .ok (values.filter Option.isSome)

theorem mem_map_given (steps : List (Step τ)) (key : Key) :
    key ∈ (given steps).map (·.1) ↔ ((given steps).lookup key).isSome := by
  simp [List.lookup_isSome_iff]

theorem Keeps.mem_representatives (h : b.Keeps xs keyOf) {key : Key} {x : κ} :
    (key, x) ∈ b.representatives ↔ xs.find? (keyOf · == key) = some x := by
  rw [h.representatives, List.mem_map]
  constructor
  · rintro ⟨y, hy, hp⟩
    obtain ⟨rfl, rfl⟩ := Prod.mk.inj hp
    exact find?_of_mem_firsts hy
  · intro hfind
    obtain rfl : keyOf x = key := by simpa using List.find?_some hfind
    exact ⟨x, mem_firsts_iff.mpr hfind, rfl⟩

theorem present_false (entries : List (Entry τ)) :
    present false entries = entries.map Entry.toOption := by
  simp [present]

/-- Entries without a value are the null entries. -/
theorem present_true (entries : List (Entry τ)) :
    present true entries = (entries.map Entry.toOption).filter Option.isSome := by
  induction entries with
  | nil => rfl
  | cons e entries ih =>
      rw [present_cons, ih]
      cases e <;> rfl

/-- Without an entry for the key of an object, there is no value for it. -/
theorem Keeps.isSome_of_valuesOf (h : b.Keeps xs keyOf) {skipNulls : Bool} :
    ∀ {ys : List κ} {values : List (Option τ)}, ys ⊆ xs → b.valuesOf skipNulls ys = .ok values →
      ∀ y ∈ ys, (b.resolved.find? (keyOf y)).isSome
  | [], _, _, _, y, hy => by cases hy
  | y :: ys, values, hsub, hvalues, z, hz => by
      rw [valuesOf, h.lookup (hsub List.mem_cons_self)] at hvalues
      cases hentry : b.resolved.find? (keyOf y) with
      | none => simp [hentry] at hvalues
      | some entry =>
          cases hrest : b.valuesOf skipNulls ys with
          | error e => simp [hentry, hrest] at hvalues
          | ok rest =>
              rcases List.mem_cons.mp hz with rfl | hz
              · rw [hentry]
                rfl
              · exact h.isSome_of_valuesOf (List.subset_of_cons_subset hsub) hrest z hz

theorem Keeps.missed_eq_nil (h : b.Keeps xs keyOf) :
    b.missed = [] ↔ ∀ x ∈ xs, (b.resolved.find? (keyOf x)).isSome := by
  rw [h.missed, List.map_eq_nil_iff, List.filter_eq_nil_iff]
  constructor
  · intro hnone x hx
    obtain ⟨y, hy, hyx⟩ := List.mem_map.mp
      (mem_map_firsts.mpr (List.mem_map_of_mem (f := keyOf) hx))
    have hsome := hnone y hy
    rw [hyx] at hsome
    simpa [Option.isSome_iff_ne_none] using hsome
  · intro hall x hx
    simpa [Option.isSome_iff_ne_none] using hall x (firsts_subset keyOf xs hx)

/-- A batch whose keys all have an entry gives what these say, object by object. -/
theorem Keeps.assemble_of_isSome (h : b.Keeps xs keyOf)
    (hall : ∀ x ∈ xs, (b.resolved.find? (keyOf x)).isSome) :
    let values := xs.map fun x => (b.resolved.find? (keyOf x)).bind Entry.toOption
    b.assemble false = .ok values ∧ b.assemble true = .ok (values.filter Option.isSome) := by
  let entryOf : Key → Entry τ := fun key => (b.resolved.find? key).getD .null
  have hentry : ∀ x ∈ xs, b.resolved.find? (keyOf x) = some (entryOf (keyOf x)) := by
    intro x hx
    obtain ⟨entry, he⟩ := Option.isSome_iff_exists.mp (hall x hx)
    simp only [entryOf, he, Option.getD_some]
  have hvalues : (xs.map fun x => entryOf (keyOf x)).map Entry.toOption =
      xs.map fun x => (b.resolved.find? (keyOf x)).bind Entry.toOption := by
    rw [List.map_map]
    refine List.map_congr_left fun x hx => ?_
    rw [hentry x hx]
    rfl
  refine ⟨?_, ?_⟩
  · rw [h.assemble entryOf false hentry, present_false, hvalues]
  · rw [h.assemble entryOf true hentry, present_true, hvalues]

theorem new_of_build (hb : build kb ns xs = .ok b) : b.resolved = .empty ∧ b.unreadable = [] := by
  rw [build] at hb
  cases hassign : assign kb ns xs [] with
  | error e => simp [hassign] at hb
  | ok keyed =>
      rw [hassign] at hb
      cases hb
      exact ⟨rfl, rfl⟩

/-- What a batch reports when it has been built for some objects and changed after that. -/
theorem Keeps.reports_of_build (h : b.Keeps xs keyOf) (hb : build kb ns xs = .ok b)
    (steps : List (Step τ)) : (b.runAll steps).Reports xs keyOf steps := by
  obtain ⟨hnew, hreadable⟩ := new_of_build hb
  have hkeeps := h.runAll steps
  have hentry : ∀ key, (b.runAll steps).resolved.find? key = (given steps).lookup key := by
    intro key
    rw [find?_runAll, hnew, Table.find?_empty, Option.none_or]
  have hdistinct := hkeeps.distinctKeys
  exact {
    lookup := fun x hx => hkeeps.lookup hx
    keyed := by
      rw [hkeeps.keyed, List.map_map]
      exact List.map_id _
    distinctKeys := hdistinct
    nodup := hdistinct ▸ nodup_eraseDups _
    owns := fun key => by rw [hkeeps.owns, decide_eq_true_iff]
    representative := fun key x => hkeeps.mem_representatives
    entry := hentry
    unreadable := fun key => by
      rw [isUnreadable_runAll]
      simp [isUnreadable, hreadable]
    missedKeys := by
      rw [Batch.missed, Batch.distinctKeys, List.filter_map]
      refine congrArg _ (List.filter_congr fun p _ => ?_)
      rw [isResolved, hentry]
      have hgiven := mem_map_given steps p.1
      cases hp : ((given steps).lookup p.1).isSome <;> simp_all
    missed := fun p hp =>
      hkeeps.mem_representatives.mp (List.mem_of_mem_filter hp)
    assembles := fun skipNulls => by
      rw [hkeeps.missed_eq_nil]
      constructor
      · rintro ⟨values, hvalues⟩
        rw [Batch.assemble, hkeeps.objects] at hvalues
        exact hkeeps.isSome_of_valuesOf (fun _ hx => hx) hvalues
      · intro hall
        obtain ⟨hkept, hskipped⟩ := hkeeps.assemble_of_isSome hall
        cases skipNulls with
        | false => exact ⟨_, hkept⟩
        | true => exact ⟨_, hskipped⟩
    values := fun values hvalues => by
      have hall : ∀ x ∈ xs, ((b.runAll steps).resolved.find? (keyOf x)).isSome := by
        rw [Batch.assemble, hkeeps.objects] at hvalues
        exact hkeeps.isSome_of_valuesOf (fun _ hx => hx) hvalues
      obtain ⟨hkept, hskipped⟩ := hkeeps.assemble_of_isSome hall
      obtain rfl : _ = values := Except.ok.inj (hkept.symm.trans hvalues)
      exact ⟨List.map_congr_left fun x _ => by rw [hentry], hskipped⟩ }

/-- A batch for some objects can be built unless one of them has no key; the first of these says
why. It asks for the key of each different object once; if equal objects have one key, as values that
mean the same should, every object has its own. Whatever comes then, it reports what its objects and
the changes so far say. -/
theorem build_reports (kb : KeyBuilder) (ns : String) (xs : List κ) :
    (∀ b : Batch κ τ, build kb ns xs = .ok b → ∃ keyOf : κ → Key,
      Assigns kb ns xs keyOf ∧
      (Unites (kb.keyFor ns) xs → ∀ x ∈ xs, kb.keyFor ns x = .ok (keyOf x)) ∧
      assignAsking kb ns xs [] = (.ok b.keyed, xs.eraseDups) ∧
      ∀ steps : List (Step τ), (b.runAll steps).Reports xs keyOf steps) ∧
    ∀ e, ((build kb ns xs : Except ConfigError (Batch κ τ)) = .error e ↔
      ∃ before x rest, xs.eraseDups = before ++ x :: rest ∧
        (∀ y ∈ before, ∃ key, kb.keyFor ns y = .ok key) ∧ kb.keyFor ns x = .error e) ∧
      (Unites (kb.keyFor ns) xs → ((build kb ns xs : Except ConfigError (Batch κ τ)) = .error e ↔
        ∃ before x rest, xs = before ++ x :: rest ∧
          (∀ y ∈ before, ∃ key, kb.keyFor ns y = .ok key) ∧ kb.keyFor ns x = .error e)) := by
  refine ⟨fun b hb => ?_, fun e =>
    ⟨build_eq_error_iff kb ns xs e, fun h => (assigns_own_of_unites h).2 e⟩⟩
  obtain ⟨keyOf, hkeys, hkeeps⟩ := keeps_of_build hb
  have hassign : assign kb ns xs [] = .ok b.keyed := by
    have hbuild := hb
    rw [build] at hbuild
    cases hassign : assign kb ns xs [] with
    | error e => simp [hassign] at hbuild
    | ok keyed =>
        rw [hassign] at hbuild
        cases hbuild
        rfl
  have hasked : (assignAsking kb ns xs []).2 = xs.eraseDups := by
    have hkeyed := (hkeeps.reports_of_build hb []).keyed
    rw [← hkeyed]
    exact (assignAsking_of_ok hassign).symm
  exact ⟨keyOf, hkeys, fun h => (assigns_own_of_unites (τ := τ) h).1 keyOf hkeys,
    Prod.ext ((fst_assignAsking kb ns xs []).trans hassign) hasked, hkeeps.reports_of_build hb⟩

/-- Two of three objects share a key, and the entry that it gets last does not count. -/
theorem build_reports_of_shared_key :
    let registry := (Registry.empty.register .word32 ((IdentityRule.first 1).identity .word32)).2
    let xs : List Kind.word32 := [11, 2, 12]
    let b : Batch .word32 .word32 :=
      { objects := xs, keyed := [(11, ⟨"n:1"⟩), (2, ⟨"n:2"⟩), (12, ⟨"n:1"⟩)] }
    let steps : List (Step .word32) := [.resolve ⟨"n:1"⟩ (.value 7), .markUnreadable ⟨"n:2"⟩,
      .resolve ⟨"n:1"⟩ .null, .resolve ⟨"n:2"⟩ .null]
    build ⟨registry, Key.defaultMaxLength⟩ "n" xs = .ok b ∧
      (∃ keyOf, (b.runAll steps).Reports xs keyOf steps) ∧
      (b.runAll steps).assemble false = .ok [some 7, none, some 7] ∧
      (b.runAll steps).assemble true = .ok [some 7, some 7] := by
  intro registry xs b steps
  have hkeys : ∀ x ∈ xs, KeyBuilder.keyFor ⟨registry, Key.defaultMaxLength⟩ "n" x =
      .ok (if x = 2 then ⟨"n:2"⟩ else ⟨"n:1"⟩) := by
    intro x hx
    simp only [xs, List.mem_cons, List.not_mem_nil, or_false] at hx
    rcases hx with rfl | rfl | rfl <;> decide +kernel
  have hb : build ⟨registry, Key.defaultMaxLength⟩ "n" xs = .ok b :=
    build_eq_ok (assigns_of_ne (by decide) hkeys)
  obtain ⟨keyOf, -, -, -, hreports⟩ :=
    (build_reports ⟨registry, Key.defaultMaxLength⟩ "n" xs).1 b hb
  have hvalues : (b.runAll steps).assemble false = .ok [some 7, none, some 7] := by rfl
  exact ⟨hb, ⟨keyOf, hreports steps⟩, hvalues, ((hreports steps).values _ hvalues).2⟩

end CacheAside.Batch

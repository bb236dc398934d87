import CacheAside.Batch
import CacheAside.Proofs.Firsts
import CacheAside.Proofs.Keys

/-!
# The books of a batch

What a batch says about its objects and keys after any number of changes: whose key is whose never
changes, the first entry of a key stays, and a batch whose keys all have an entry can be assembled.
-/

namespace CacheAside

/-- The values of entries in their order, those without one left out on demand. -/
def present {τ : Kind} (skipNulls : Bool) (entries : List (Entry τ)) : List (Option τ) :=
  entries.filterMap fun e => if e.isNull && skipNulls then none else some e.toOption

namespace Batch

variable {κ τ : Kind} {b : Batch κ τ} {kb : KeyBuilder} {ns : String} {xs : List κ}
  {keyOf : κ → Key}

/-! ## Building -/

/-- The keys that a batch takes for those of its objects: of objects that are equal the first gives
them one key. -/
structure Assigns (kb : KeyBuilder) (ns : String) (xs : List κ) (keyOf : κ → Key) : Prop where
  first : ∀ x ∈ xs.eraseDups, kb.keyFor ns x = .ok (keyOf x)
  unites : Unites keyOf xs

/-- If equal objects have one key, each has its own in a batch. -/
theorem assigns_of_own (hkeys : ∀ x ∈ xs, kb.keyFor ns x = .ok (keyOf x))
    (hequal : Unites (kb.keyFor ns) xs) : Assigns kb ns xs keyOf where
  first x hx := hkeys x (eraseDups_subset xs hx)
  unites x hx y hy hxy := by
    have hsame := hequal x hx y hy hxy
    rw [hkeys x hx, hkeys y hy] at hsame
    exact Except.ok.inj hsame

/-- Only values of JSON can be equal and yet have different keys. -/
theorem unites_of_ne {β : Type} (hκ : κ ≠ .json) (f : κ → β) (xs : List κ) : Unites f xs :=
  fun _ _ _ _ h => congrArg f (Kind.eq_of_beq_of_ne hκ h)

theorem assigns_of_ne (hκ : κ ≠ .json) (hkeys : ∀ x ∈ xs, kb.keyFor ns x = .ok (keyOf x)) :
    Assigns kb ns xs keyOf :=
  assigns_of_own hkeys (unites_of_ne hκ _ xs)

/-- What the first of equal objects has for a key is what all of them get. -/
theorem exists_assigns (h : ∀ x ∈ xs.eraseDups, ∃ key, kb.keyFor ns x = .ok key) :
    ∃ keyOf : κ → Key, Assigns kb ns xs keyOf := by
  let own (x : κ) : Key := (kb.keyFor ns x).toOption.getD ⟨""⟩
  let keyOf (x : κ) : Key := ((xs.eraseDups.map fun y => (y, own y)).lookup x).getD ⟨""⟩
  refine ⟨keyOf, fun x hx => ?_, fun x _ y _ hxy => ?_⟩
  · obtain ⟨key, hkey⟩ := h x hx
    simp only [keyOf, lookup_map_of_pairwise (pairwise_eraseDups xs) hx, own, hkey]
    rfl
  · simp only [keyOf, lookup_congr hxy]

/-- An object of a batch has the key of one that is equal to it. -/
theorem Assigns.exists_first (h : Assigns kb ns xs keyOf) {x : κ} (hx : x ∈ xs) :
    ∃ y ∈ xs.eraseDups, (x == y) = true ∧ kb.keyFor ns y = .ok (keyOf x) := by
  obtain ⟨y, hy, hxy⟩ := exists_mem_eraseDups hx
  refine ⟨y, hy, hxy, ?_⟩
  rw [h.unites x hx y (eraseDups_subset xs hy) hxy]
  exact h.first y hy

/-- Objects with keys of their own are all different. -/
theorem Assigns.own (h : Assigns kb ns xs keyOf) (hnodup : (xs.map keyOf).Nodup) :
    ∀ x ∈ xs, kb.keyFor ns x = .ok (keyOf x) := by
  have hdifferent : xs.Pairwise fun x y => (x == y) = false := by
    refine (List.pairwise_map.mp hnodup).imp_of_mem fun {x y} hx hy hne => ?_
    cases hxy : x == y with
    | false => rfl
    | true => exact absurd (h.unites x hx y hy hxy) hne
  have hfirst := h.first
  rwa [eraseDups_of_pairwise hdifferent] at hfirst

/-- Keys are built for the objects that have none yet, for the first of those that are equal. -/
theorem assign_eq (xs : List κ) (keyed : List (κ × Key)) :
    let new := (xs.filter fun x => (keyed.lookup x).isNone).eraseDups
    assign kb ns xs keyed =
      (new.mapM (kb.keyFor ns)).map fun keys => keyed ++ new.zip keys := by
  induction xs generalizing keyed with
  | nil => simp [assign, Except.map, pure, Except.pure]
  | cons x xs ih =>
      intro new
      cases hx : keyed.lookup x with
      | some key => simpa [assign, new, hx] using ih keyed
      | none =>
          have hnew : new = x :: ((xs.filter fun y => (keyed.lookup y).isNone).filter
              fun y => !y == x).eraseDups := by
            simp [new, hx, List.eraseDups_cons]
          rw [assign, hx, hnew, List.mapM_cons]
          cases hkey : kb.keyFor ns x with
          | error e => rfl
          | ok key =>
              -- What is equal to the object has its key from now on.
              have hrest : xs.filter (fun y => ((keyed ++ [(x, key)]).lookup y).isNone) =
                  (xs.filter fun y => (keyed.lookup y).isNone).filter fun y => !y == x := by
                rw [List.filter_filter]
                refine List.filter_congr fun y _ => ?_
                rw [List.lookup_append, List.lookup_cons]
                cases y == x <;> cases keyed.lookup y <;> rfl
              simp only [Option.isSome_none, Bool.false_eq_true, ↓reduceIte, ih, hrest]
              generalize ((xs.filter fun y => (keyed.lookup y).isNone).filter
                fun y => !y == x).eraseDups = later
              cases later.mapM (kb.keyFor ns) with
              | error e => rfl
              | ok keys => simp [Except.map, bind, Except.bind, pure, Except.pure]

theorem build_eq (kb : KeyBuilder) (ns : String) (xs : List κ) :
    (build kb ns xs : Except ConfigError (Batch κ τ)) =
      (xs.eraseDups.mapM (kb.keyFor ns)).map fun keys =>
        { objects := xs, keyed := xs.eraseDups.zip keys } := by
  have hnew : xs.filter (fun x => (([] : List (κ × Key)).lookup x).isNone) = xs := by simp
  rw [build, assign_eq, hnew]
  cases xs.eraseDups.mapM (kb.keyFor ns) <;> rfl

theorem build_eq_ok (h : Assigns kb ns xs keyOf) :
    (build kb ns xs : Except ConfigError (Batch κ τ)) =
      .ok { objects := xs, keyed := xs.eraseDups.map fun x => (x, keyOf x) } := by
  rw [build_eq, mapM_eq_ok h.first, List.map_prod_left_eq_zip]
  rfl

/-- Of the two zeros of a double the first is given its key, and the other has none of its own. -/
example : (build ⟨.empty, Key.defaultMaxLength⟩ "n"
      ([.real .zero, .real (Binary64.neg .zero)] : List Kind.json) :
      Except ConfigError (Batch .json .word32)).toOption.map keyed =
    some [(.real .zero, ⟨"n:0.0"⟩)] := by
  rfl

theorem build_eq_error {x : κ} {e : ConfigError} (hx : x ∈ xs.eraseDups)
    (h : kb.keyFor ns x = .error e) :
    ∃ e, (build kb ns xs : Except ConfigError (Batch κ τ)) = .error e := by
  obtain ⟨e, he⟩ := mapM_eq_error h hx
  exact ⟨e, by rw [build_eq, he]; rfl⟩

/-- A batch cannot be built when one of its objects has no key, and the first such object says why.
Of objects that are equal only the first matters. -/
theorem build_eq_error_iff (kb : KeyBuilder) (ns : String) (xs : List κ) (e : ConfigError) :
    (build kb ns xs : Except ConfigError (Batch κ τ)) = .error e ↔
      ∃ before x rest, xs.eraseDups = before ++ x :: rest ∧
        (∀ y ∈ before, ∃ key, kb.keyFor ns y = .ok key) ∧ kb.keyFor ns x = .error e := by
  rw [← mapM_eq_error_iff, build_eq]
  cases xs.eraseDups.mapM (kb.keyFor ns) <;> simp [Except.map]

/-! ## Whose key is whose -/

/-- A batch for some objects with given keys. -/
structure Keeps (b : Batch κ τ) (xs : List κ) (keyOf : κ → Key) : Prop where
  objects : b.objects = xs
  keyed : b.keyed = xs.eraseDups.map fun x => (x, keyOf x)
  unites : Unites keyOf xs

/-- A batch that has been built keeps the keys of all its objects. -/
theorem keeps_of_build (h : build kb ns xs = .ok b) :
    ∃ keyOf : κ → Key, Assigns kb ns xs keyOf ∧ b.Keeps xs keyOf := by
  have hkeys : ∀ x ∈ xs.eraseDups, ∃ key, kb.keyFor ns x = .ok key := fun x hx => by
    cases hkey : kb.keyFor ns x with
    | ok key => exact ⟨key, rfl⟩
    | error e =>
        obtain ⟨e, he⟩ := build_eq_error (τ := τ) hx hkey
        cases h.symm.trans he
  obtain ⟨keyOf, hassigns⟩ := exists_assigns hkeys
  cases h.symm.trans (build_eq_ok hassigns)
  exact ⟨keyOf, hassigns, rfl, rfl, hassigns.unites⟩

theorem Keeps.representatives (h : b.Keeps xs keyOf) :
    b.representatives = (firsts keyOf xs).map fun x => (keyOf x, x) := by
  have hfirsts : b.representatives = firsts Prod.fst (b.keyed.map fun p => (p.2, p.1)) := rfl
  rw [hfirsts, h.keyed, List.map_map, firsts_map]
  exact congrArg _ (firsts_eraseDups h.unites)

/-- An object that stands for a missed key is one that the key has been built for. -/
theorem keyFor_of_missed {b' : Batch κ τ} (h : build kb ns xs = .ok b) (hkeyed : b'.keyed = b.keyed)
    {p : Key × κ} (hp : p ∈ b'.missed) : kb.keyFor ns p.2 = .ok p.1 := by
  obtain ⟨keyOf, hassigns, hkeeps⟩ := keeps_of_build h
  have hmem : p ∈ firsts Prod.fst (b'.keyed.map fun q => (q.2, q.1)) := List.mem_of_mem_filter hp
  rw [hkeyed, hkeeps.keyed, List.map_map] at hmem
  obtain ⟨x, hx, rfl⟩ := List.mem_map.mp (firsts_subset _ _ hmem)
  exact hassigns.first x hx

theorem Keeps.distinctKeys (h : b.Keeps xs keyOf) :
    b.distinctKeys = (xs.map keyOf).eraseDups := by
  rw [Batch.distinctKeys, h.representatives, List.map_map, ← map_firsts]
  rfl

theorem owns_eq (b : Batch κ τ) (key : Key) : b.owns key = decide (key ∈ b.distinctKeys) := by
  have hmem : key ∈ b.distinctKeys ↔ key ∈ (b.keyed.map fun p => (p.2, p.1)).map (·.1) :=
    mem_map_firsts
  rw [Bool.eq_iff_iff, decide_eq_true_iff, hmem]
  simp [owns]

theorem nodup_distinctKeys (b : Batch κ τ) : b.distinctKeys.Nodup := nodup_map_firsts _ _

theorem Keeps.owns (h : b.Keeps xs keyOf) (k : Key) : b.owns k = decide (k ∈ xs.map keyOf) := by
  rw [Bool.eq_iff_iff, decide_eq_true_iff, ← mem_map_eraseDups h.unites]
  simp [Batch.owns, h.keyed]

theorem Keeps.lookup (h : b.Keeps xs keyOf) {x : κ} (hx : x ∈ xs) :
    b.keyed.lookup x = some (keyOf x) := by
  obtain ⟨y, hy, hxy⟩ := exists_mem_eraseDups hx
  rw [h.keyed, lookup_congr hxy, lookup_map_of_pairwise (pairwise_eraseDups xs) hy,
    h.unites x hx y (eraseDups_subset xs hy) hxy]

/-! ## Entries -/

@[simp] theorem resolve_objects (b : Batch κ τ) (k : Key) (e : Entry τ) :
    (b.resolve k e).objects = b.objects := by unfold resolve; split <;> rfl

@[simp] theorem resolve_keyed (b : Batch κ τ) (k : Key) (e : Entry τ) :
    (b.resolve k e).keyed = b.keyed := by unfold resolve; split <;> rfl

@[simp] theorem resolve_unreadable (b : Batch κ τ) (k : Key) (e : Entry τ) :
    (b.resolve k e).unreadable = b.unreadable := by unfold resolve; split <;> rfl

@[simp] theorem isUnreadable_resolve (b : Batch κ τ) (k j : Key) (e : Entry τ) :
    (b.resolve k e).isUnreadable j = b.isUnreadable j := by simp [isUnreadable]

@[simp] theorem markUnreadable_objects (b : Batch κ τ) (k : Key) :
    (b.markUnreadable k).objects = b.objects := by unfold markUnreadable; split <;> rfl

@[simp] theorem markUnreadable_keyed (b : Batch κ τ) (k : Key) :
    (b.markUnreadable k).keyed = b.keyed := by unfold markUnreadable; split <;> rfl

@[simp] theorem markUnreadable_resolved (b : Batch κ τ) (k : Key) :
    (b.markUnreadable k).resolved = b.resolved := by unfold markUnreadable; split <;> rfl

theorem isUnreadable_markUnreadable (b : Batch κ τ) (k j : Key) :
    (b.markUnreadable k).isUnreadable j = (b.isUnreadable j || j == k) := by
  unfold markUnreadable isUnreadable
  split
  · by_cases hj : j = k <;> simp_all
  · by_cases hj : j = k <;> simp [hj]

/-- The first entry of a key stays. -/
theorem find?_resolve (b : Batch κ τ) (k j : Key) (e : Entry τ) :
    (b.resolve k e).resolved.find? j =
      (b.resolved.find? j).or (if j = k then some e else none) := by
  unfold resolve isResolved
  by_cases hj : j = k
  · subst hj
    cases hb : b.resolved.find? j <;> simp [hb, Table.find?_insert]
  · split
    · simp
    · simp [Ne.symm hj, Table.find?_insert]

theorem resolveAll_cons (b : Batch κ τ) (k : Key) (e : Entry τ) (es : List (Key × Entry τ)) :
    b.resolveAll ((k, e) :: es) = (b.resolve k e).resolveAll es := rfl

theorem find?_resolveAll (b : Batch κ τ) (es : List (Key × Entry τ)) (j : Key) :
    (b.resolveAll es).resolved.find? j = (b.resolved.find? j).or (es.lookup j) := by
  induction es generalizing b with
  | nil => simp [resolveAll]
  | cons p es ih =>
      obtain ⟨k, e⟩ := p
      rw [resolveAll_cons, ih, find?_resolve, Option.or_assoc, List.lookup_cons]
      by_cases hj : j = k
      · simp [hj]
      · have hne : (j == k) = false := by simpa using hj
        simp [hj, hne]

@[simp] theorem resolveAll_objects (b : Batch κ τ) (es : List (Key × Entry τ)) :
    (b.resolveAll es).objects = b.objects := by
  induction es generalizing b with
  | nil => rfl
  | cons p es ih => rw [resolveAll_cons, ih, resolve_objects]

@[simp] theorem resolveAll_keyed (b : Batch κ τ) (es : List (Key × Entry τ)) :
    (b.resolveAll es).keyed = b.keyed := by
  induction es generalizing b with
  | nil => rfl
  | cons p es ih => rw [resolveAll_cons, ih, resolve_keyed]

@[simp] theorem resolveAll_unreadable (b : Batch κ τ) (es : List (Key × Entry τ)) :
    (b.resolveAll es).unreadable = b.unreadable := by
  induction es generalizing b with
  | nil => rfl
  | cons p es ih => rw [resolveAll_cons, ih, resolve_unreadable]

theorem Keeps.resolve (h : b.Keeps xs keyOf) (k : Key) (e : Entry τ) :
    (b.resolve k e).Keeps xs keyOf := ⟨by simp [h.objects], by simp [h.keyed], h.unites⟩

theorem Keeps.markUnreadable (h : b.Keeps xs keyOf) (k : Key) :
    (b.markUnreadable k).Keeps xs keyOf := ⟨by simp [h.objects], by simp [h.keyed], h.unites⟩

theorem Keeps.resolveAll (h : b.Keeps xs keyOf) (es : List (Key × Entry τ)) :
    (b.resolveAll es).Keeps xs keyOf := ⟨by simp [h.objects], by simp [h.keyed], h.unites⟩

/-! ## What is missed, what comes out -/

/-- Missed are the keys without an entry, each with its first object. -/
theorem Keeps.missed (h : b.Keeps xs keyOf) :
    b.missed = ((firsts keyOf xs).filter fun x => (b.resolved.find? (keyOf x)).isNone).map
      fun x => (keyOf x, x) := by
  rw [Batch.missed, h.representatives, List.filter_map]
  congr 1
  refine List.filter_congr fun x _ => ?_
  cases hx : b.resolved.find? (keyOf x) <;> simp [isResolved, hx]

theorem present_cons (skipNulls : Bool) (e : Entry τ) (es : List (Entry τ)) :
    present skipNulls (e :: es) =
      if e.isNull && skipNulls then present skipNulls es
      else e.toOption :: present skipNulls es := by
  rw [present, List.filterMap_cons]
  split <;> rename_i h <;> split at h <;> simp_all [present]

theorem valuesOf_eq_ok (h : b.Keeps xs keyOf) {entryOf : Key → Entry τ} (skipNulls : Bool) :
    ∀ {ys : List κ}, ys ⊆ xs → (∀ y ∈ ys, b.resolved.find? (keyOf y) = some (entryOf (keyOf y))) →
    b.valuesOf skipNulls ys = .ok (present skipNulls (ys.map fun y => entryOf (keyOf y)))
  | [], _, _ => rfl
  | y :: ys, hsub, hall => by
      have ih := valuesOf_eq_ok h skipNulls (fun z hz => hsub (List.mem_cons_of_mem _ hz))
        fun z hz => hall z (List.mem_cons_of_mem _ hz)
      rw [valuesOf, h.lookup (hsub List.mem_cons_self)]
      simp only [hall y List.mem_cons_self, ih, List.map_cons, present_cons]

/-- A batch whose keys all have an entry gives one value for each object. -/
theorem Keeps.assemble (h : b.Keeps xs keyOf) (entryOf : Key → Entry τ) (skipNulls : Bool)
    (hall : ∀ x ∈ xs, b.resolved.find? (keyOf x) = some (entryOf (keyOf x))) :
    b.assemble skipNulls = .ok (present skipNulls (xs.map fun x => entryOf (keyOf x))) := by
  rw [Batch.assemble, h.objects]
  exact valuesOf_eq_ok h skipNulls (fun _ hx => hx) hall

end Batch

end CacheAside

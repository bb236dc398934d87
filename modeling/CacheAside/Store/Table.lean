import CacheAside.Key

/-!
# Tables

What a store holds, and what it answers to a question about many keys: at most one value per key,
in the order of the keys. `find?` is the view of a table; each operation has one law on it, and
`ext` says that a table is nothing more.
-/

namespace CacheAside

structure Table (α : Type) where
  entries : List (Key × α)
  sorted : entries.Pairwise fun a b => a.1 < b.1

namespace Table

variable {α β : Type}

/-! ## Lists of entries -/

def findIn (k : Key) : List (Key × α) → Option α
  | [] => none
  | (j, a) :: es => if j = k then some a else findIn k es

def insertIn (k : Key) (a : α) : List (Key × α) → List (Key × α)
  | [] => [(k, a)]
  | (j, b) :: es =>
    if k < j then (k, a) :: (j, b) :: es
    else if j = k then (k, a) :: es
    else (j, b) :: insertIn k a es

theorem mem_insertIn {k : Key} {a : α} {e : Key × α} :
    ∀ {es : List (Key × α)}, e ∈ insertIn k a es → e = (k, a) ∨ e ∈ es
  | [], h => by simpa [insertIn] using h
  | (j, b) :: es, h => by
    unfold insertIn at h
    split at h
    · simpa using h
    · split at h
      · rcases List.mem_cons.1 h with h | h
        · exact .inl h
        · exact .inr (List.mem_cons_of_mem _ h)
      · rcases List.mem_cons.1 h with h | h
        · exact .inr (h ▸ List.mem_cons_self)
        · exact (mem_insertIn h).imp id (List.mem_cons_of_mem _)

theorem sorted_insertIn {k : Key} {a : α} :
    ∀ {es : List (Key × α)}, es.Pairwise (fun x y => x.1 < y.1) →
      (insertIn k a es).Pairwise fun x y => x.1 < y.1
  | [], _ => by simp [insertIn]
  | (j, b) :: es, h => by
    obtain ⟨hj, hes⟩ := List.pairwise_cons.1 h
    unfold insertIn
    split
    · rename_i hkj
      refine List.pairwise_cons.2 ⟨fun e he => ?_, h⟩
      rcases List.mem_cons.1 he with rfl | he
      · exact hkj
      · exact Key.lt_trans hkj (hj e he)
    · rename_i hkj
      split
      · rename_i hjk
        exact List.pairwise_cons.2 ⟨fun e he => hjk ▸ hj e he, hes⟩
      · rename_i hjk
        refine List.pairwise_cons.2 ⟨fun e he => ?_, sorted_insertIn hes⟩
        rcases mem_insertIn he with rfl | he
        · exact Decidable.byContradiction fun hlt => hjk (Key.eq_of_not_lt hlt hkj)
        · exact hj e he

theorem findIn_insertIn {k j : Key} {a : α} :
    ∀ {es : List (Key × α)}, findIn j (insertIn k a es) = if k = j then some a else findIn j es
  | [] => by simp [insertIn, findIn]
  | (i, b) :: es => by
    unfold insertIn
    split
    · simp [findIn]
    · split
      · rename_i hik
        subst hik
        by_cases hij : i = j <;> simp [findIn, hij]
      · rename_i hik
        by_cases hij : i = j
        · subst hij
          simp [findIn, Ne.symm hik]
        · simp [findIn, hij, findIn_insertIn]

theorem findIn_eq_none {k : Key} :
    ∀ {es : List (Key × α)}, (∀ e ∈ es, k < e.1) → findIn k es = none
  | [], _ => rfl
  | (j, _) :: es, h => by
    have hne : j ≠ k := fun he => Key.lt_irrefl k (he ▸ h (j, _) List.mem_cons_self)
    simp [findIn, hne, findIn_eq_none fun e he => h e (List.mem_cons_of_mem _ he)]

theorem findIn_filter {p : Key × α → Bool} {k : Key} :
    ∀ {es : List (Key × α)}, es.Pairwise (fun x y => x.1 < y.1) →
      findIn k (es.filter p) = (findIn k es).filter fun a => p (k, a)
  | [], _ => rfl
  | (j, a) :: es, h => by
    obtain ⟨hj, hes⟩ := List.pairwise_cons.1 h
    have ih := findIn_filter (p := p) (k := k) hes
    by_cases hjk : j = k
    · subst hjk
      have hnone := findIn_eq_none hj
      cases hp : p (j, a) with
      | true => simp [findIn, hp, Option.filter]
      | false => simp [findIn, hp, ih, hnone, Option.filter]
    · cases hp : p (j, a) with
      | true => simp [findIn, hp, hjk, ih]
      | false => simp [findIn, hp, hjk, ih]

theorem findIn_eq_some {k : Key} {a : α} :
    ∀ {es : List (Key × α)}, es.Pairwise (fun x y => x.1 < y.1) →
      (findIn k es = some a ↔ (k, a) ∈ es)
  | [], _ => by simp [findIn]
  | (j, b) :: es, h => by
    obtain ⟨hj, hes⟩ := List.pairwise_cons.1 h
    by_cases hjk : j = k
    · subst hjk
      constructor
      · intro he
        simp only [findIn, ↓reduceIte, Option.some.injEq] at he
        exact he ▸ List.mem_cons_self
      · intro he
        rcases List.mem_cons.1 he with he | he
        · simp only [Prod.mk.injEq, true_and] at he
          simp [findIn, he]
        · exact absurd (hj _ he) (Key.lt_irrefl j)
    · have hne : ¬((k, a) = (j, b)) := fun he => hjk (congrArg Prod.fst he).symm
      simp [findIn, hjk, findIn_eq_some hes, hne]

/-- Lists in the order of their keys are equal as soon as they answer alike. -/
theorem eq_of_findIn :
    ∀ {es fs : List (Key × α)}, es.Pairwise (fun x y => x.1 < y.1) →
      fs.Pairwise (fun x y => x.1 < y.1) → (∀ k, findIn k es = findIn k fs) → es = fs
  | [], [], _, _, _ => rfl
  | [], (j, b) :: _, _, _, h => by simpa [findIn] using h j
  | (i, a) :: _, [], _, _, h => by simpa [findIn] using h i
  | (i, a) :: es, (j, b) :: fs, he, hf, h => by
    obtain ⟨hi, hes⟩ := List.pairwise_cons.1 he
    obtain ⟨hj, hfs⟩ := List.pairwise_cons.1 hf
    have hij : i = j := by
      refine Key.eq_of_not_lt (fun hlt => ?_) fun hlt => ?_
      · have hn : findIn i ((j, b) :: fs) = none := findIn_eq_none fun e he => by
          rcases List.mem_cons.1 he with rfl | he
          · exact hlt
          · exact Key.lt_trans hlt (hj e he)
        have := h i
        rw [hn] at this
        simp [findIn] at this
      · have hn : findIn j ((i, a) :: es) = none := findIn_eq_none fun e he => by
          rcases List.mem_cons.1 he with rfl | he
          · exact hlt
          · exact Key.lt_trans hlt (hi e he)
        have := h j
        rw [hn] at this
        simp [findIn] at this
    subst hij
    have hab : a = b := by simpa [findIn] using h i
    subst hab
    refine congrArg _ (eq_of_findIn hes hfs fun k => ?_)
    by_cases hik : i = k
    · subst hik
      rw [findIn_eq_none hi, findIn_eq_none hj]
    · simpa [findIn, hik] using h k

/-! ## Tables -/

def empty : Table α := ⟨[], .nil⟩

/-- The value of a key. -/
def find? (t : Table α) (k : Key) : Option α := findIn k t.entries

/-- Gives a key a value, in place of the one it may have. -/
def insert (t : Table α) (k : Key) (a : α) : Table α :=
  ⟨insertIn k a t.entries, sorted_insertIn t.sorted⟩

/-- Keeps some of the entries. -/
def filter (t : Table α) (p : Key → α → Bool) : Table α :=
  ⟨t.entries.filter fun e => p e.1 e.2, t.sorted.filter _⟩

/-- Takes a key out. -/
def erase (t : Table α) (k : Key) : Table α := t.filter fun j _ => j != k

/-- The number of keys. -/
def size (t : Table α) : Nat := t.entries.length

/-- The values that a function has for keys of a list. -/
def ofKeys (f : Key → Option α) (keys : List Key) : Table α :=
  keys.foldl (fun t k =>
    match f k with
    | some a => t.insert k a
    | none => t) empty

/-- The keys, in their order. -/
def keys (t : Table α) : List Key := t.entries.map (·.1)

@[simp] theorem find?_empty (k : Key) : (empty : Table α).find? k = none := rfl

theorem find?_insert (t : Table α) (k j : Key) (a : α) :
    (t.insert k a).find? j = if k = j then some a else t.find? j := findIn_insertIn

theorem find?_filter (t : Table α) (p : Key → α → Bool) (k : Key) :
    (t.filter p).find? k = (t.find? k).filter (p k) := findIn_filter t.sorted

theorem find?_erase (t : Table α) (k j : Key) :
    (t.erase k).find? j = if k = j then none else t.find? j := by
  rw [erase, find?_filter]
  by_cases h : k = j
  · subst h
    cases t.find? k <;> simp
  · cases t.find? j <;> simp [h, Ne.symm h]

theorem find?_foldl_insert (f : Key → Option α) (k : Key) (keys : List Key) (t : Table α) :
    (keys.foldl (fun t j =>
      match f j with
      | some a => t.insert j a
      | none => t) t).find? k = if k ∈ keys then (f k).or (t.find? k) else t.find? k := by
  induction keys generalizing t with
  | nil => simp
  | cons j js ih =>
    rw [List.foldl_cons, ih]
    by_cases hjk : j = k
    · subst hjk
      cases hf : f j <;> simp [find?_insert]
    · cases hf : f j <;> simp [find?_insert, hjk, Ne.symm hjk]

theorem find?_ofKeys (f : Key → Option α) (keys : List Key) (k : Key) :
    (ofKeys f keys).find? k = if k ∈ keys then f k else none := by
  simp [ofKeys, find?_foldl_insert]

/-- A table is what it answers. -/
theorem ext {t u : Table α} (h : ∀ k, t.find? k = u.find? k) : t = u := by
  cases t with
  | mk es hes =>
    cases u with
    | mk fs hfs =>
      obtain rfl := eq_of_findIn hes hfs h
      rfl

theorem find?_eq_some {t : Table α} {k : Key} {a : α} :
    t.find? k = some a ↔ (k, a) ∈ t.entries := findIn_eq_some t.sorted

end Table

end CacheAside

import CacheAside.Cache
import Mathlib.Data.List.Basic

/-!
# Valid keys

The keys of the objects of one call: all of them are built, or the call ends with an error. A key
that is built lies in the keyspace that it was built for.
-/

namespace CacheAside

section
variable {ε α β : Type} {f : α → Except ε β}

theorem eq_ok_of_toOption {x : Except ε α} {a : α} (h : x.toOption = some a) : x = .ok a := by
  cases x with
  | ok b => cases h; rfl
  | error e => cases h

theorem mapM_eq_ok {g : α → β} : ∀ {l : List α}, (∀ x ∈ l, f x = .ok (g x)) →
    l.mapM f = .ok (l.map g)
  | [], _ => rfl
  | x :: l, h => by
      have ih : l.mapM f = .ok (l.map g) := mapM_eq_ok fun y hy => h y (List.mem_cons_of_mem _ hy)
      rw [List.mapM_cons, h x List.mem_cons_self, ih]
      rfl

theorem mapM_eq_error {x : α} {e : ε} (hf : f x = .error e) : ∀ {l : List α}, x ∈ l →
    ∃ e, l.mapM f = .error e
  | y :: l, hx => by
      rw [List.mapM_cons]
      cases hy : f y with
      | error e => exact ⟨e, rfl⟩
      | ok b =>
          rcases List.mem_cons.mp hx with rfl | hx
          · simp [hf] at hy
          · obtain ⟨e, he⟩ := mapM_eq_error hf hx
            exact ⟨e, by rw [he]; rfl⟩

/-- The first failure is the one that counts. -/
theorem mapM_eq_error_iff {l : List α} {e : ε} : l.mapM f = .error e ↔
    ∃ before x rest, l = before ++ x :: rest ∧ (∀ y ∈ before, ∃ b, f y = .ok b) ∧
      f x = .error e := by
  induction l with
  | nil =>
      constructor
      · intro h
        cases h
      · rintro ⟨before, x, rest, h, -⟩
        simp at h
  | cons a l ih =>
      rw [List.mapM_cons]
      constructor
      · intro h
        cases ha : f a with
        | error e' =>
            rw [ha] at h
            cases h
            exact ⟨[], a, l, rfl, List.forall_mem_nil _, ha⟩
        | ok b =>
            have hl : l.mapM f = .error e := by
              rw [ha] at h
              cases hl : l.mapM f with
              | error e' => rw [hl] at h; cases h; rfl
              | ok bs => rw [hl] at h; cases h
            obtain ⟨before, x, rest, rfl, hbefore, hx⟩ := ih.mp hl
            exact ⟨a :: before, x, rest, rfl, List.forall_mem_cons.mpr ⟨⟨b, ha⟩, hbefore⟩, hx⟩
      · rintro ⟨before, x, rest, heq, hbefore, hx⟩
        cases before with
        | nil =>
            obtain ⟨rfl, rfl⟩ := List.cons.inj heq
            rw [hx]
            rfl
        | cons y before =>
            obtain ⟨rfl, rfl⟩ := List.cons.inj heq
            obtain ⟨⟨b, hb⟩, hbefore⟩ := List.forall_mem_cons.mp hbefore
            rw [hb, ih.mpr ⟨before, x, rest, rfl, hbefore, hx⟩]
            rfl

theorem mapM_singleton_error {x : α} {e : ε} : [x].mapM f = .error e ↔ f x = .error e := by
  rw [List.mapM_cons]
  cases f x with
  | error e' => simp [bind, Except.bind]
  | ok b => simp [bind, Except.bind, pure, Except.pure]

theorem eq_ok_of_mapM : ∀ {l : List α} {ys : List β}, l.mapM f = .ok ys →
    ∀ x ∈ l, ∃ y ∈ ys, f x = .ok y
  | [], _, _, _, hx => by cases hx
  | x :: l, ys, h, z, hz => by
      rw [List.mapM_cons] at h
      cases hx : f x with
      | error e => rw [hx] at h; cases h
      | ok b =>
          rw [hx] at h
          cases hl : l.mapM f with
          | error e => rw [hl] at h; cases h
          | ok bs =>
              rw [hl] at h
              cases h
              rcases List.mem_cons.mp hz with rfl | hz
              · exact ⟨b, List.mem_cons_self, hx⟩
              · obtain ⟨y, hy, hzy⟩ := eq_ok_of_mapM hl z hz
                exact ⟨y, List.mem_cons_of_mem _ hy, hzy⟩

theorem exists_of_mapM_ok [Inhabited β] {l : List α} {ys : List β} (h : l.mapM f = .ok ys) :
    ∃ g : α → β, ∀ x ∈ l, f x = .ok (g x) := by
  refine ⟨fun x => (f x).toOption.getD default, fun x hx => ?_⟩
  obtain ⟨y, -, hy⟩ := eq_ok_of_mapM h x hx
  simp only [hy]
  rfl

theorem mem_of_mapM_ok {l : List α} {ys : List β} (h : l.mapM f = .ok ys) {y : β} (hy : y ∈ ys) :
    ∃ x ∈ l, f x = .ok y := by
  have : Inhabited β := ⟨y⟩
  obtain ⟨g, hg⟩ := exists_of_mapM_ok h
  obtain rfl : l.map g = ys := Except.ok.inj ((mapM_eq_ok hg).symm.trans h)
  obtain ⟨x, hx, rfl⟩ := List.mem_map.mp hy
  exact ⟨x, hx, hg x hx⟩

end

namespace Key

instance : Inhabited Key := ⟨⟨""⟩⟩

/-- A key that is built has a keyspace that is not blank and holds no colon. -/
theorem build_eq_ok {ns : String} {ids : List String} {k : Key} (h : build ns ids = .ok k) :
    isBlank ns = false ∧ separator ∉ ns.toList ∧
      k.text = ns ++ separator.toString ++ idSeparator.intercalate ids := by
  unfold build at h
  cases hns : checkKeyspace ns with
  | error e => rw [hns] at h; cases h
  | ok u =>
      rw [hns] at h
      have hchecked : isBlank ns = false ∧ separator ∉ ns.toList := by
        unfold checkKeyspace at hns
        split at hns
        · cases hns
        · rename_i hblank
          split at hns
          · cases hns
          · rename_i hsep
            exact ⟨by simpa using hblank, by simpa using hsep⟩
      cases ids with
      | nil => cases h
      | cons id rest =>
          simp only at h
          split at h
          · cases h
          · cases h
            exact ⟨hchecked.1, hchecked.2, rfl⟩

theorem keyspace_build {ns : String} {ids : List String} {k : Key} (h : build ns ids = .ok k) :
    k.keyspace = ns := by
  obtain ⟨-, hsep, htext⟩ := build_eq_ok h
  have hall : ∀ c ∈ ns.toList, (c != separator) = true := fun c hc => by
    simpa using fun he : c = separator => hsep (he ▸ hc)
  have hlist : k.text.toList = ns.toList ++ separator :: (idSeparator.intercalate ids).toList := by
    simp [htext]
  rw [keyspace, hlist, List.takeWhile_append_of_pos hall]
  simp

end Key

namespace KeyBuilder

variable {b : KeyBuilder} {ns : String} {κ : Kind} {x : κ} {k : Key}

theorem build_of_build {ids : List String} (h : b.build ns ids = .ok k) :
    Key.build ns ids = .ok k := by
  unfold build at h
  split at h
  · cases h
  · rename_i key hkey
    split at h
    · cases h
    · cases h
      exact hkey

theorem build_of_keyFor (h : b.keyFor ns x = .ok k) : ∃ id, Key.build ns [id] = .ok k := by
  unfold keyFor at h
  split at h
  · cases h
  · exact ⟨_, build_of_build h⟩

theorem build_of_keyForResult (h : b.keyForResult ns x = .ok k) :
    ∃ id, Key.build ns [id] = .ok k := by
  unfold keyForResult at h
  split at h
  · cases h
  · exact ⟨_, build_of_build h⟩

theorem keyspace_keyFor (h : b.keyFor ns x = .ok k) : k.keyspace = ns := by
  obtain ⟨id, hid⟩ := build_of_keyFor h
  exact Key.keyspace_build hid

theorem keyspace_keyForResult (h : b.keyForResult ns x = .ok k) : k.keyspace = ns := by
  obtain ⟨id, hid⟩ := build_of_keyForResult h
  exact Key.keyspace_build hid

theorem byteSize_of_build {ids : List String} (h : b.build ns ids = .ok k) :
    k.byteSize ≤ b.maxLength.toNat := by
  unfold build at h
  split at h
  · cases h
  · split at h
    · cases h
    · cases h
      omega

theorem byteSize_keyFor (h : b.keyFor ns x = .ok k) : k.byteSize ≤ b.maxLength.toNat := by
  unfold keyFor at h
  split at h
  · cases h
  · exact byteSize_of_build h

theorem byteSize_keyForResult (h : b.keyForResult ns x = .ok k) :
    k.byteSize ≤ b.maxLength.toNat := by
  unfold keyForResult at h
  split at h
  · cases h
  · exact byteSize_of_build h

end KeyBuilder

/-- Options under which some object has a key pass their own check. -/
theorem Options.validate_of_keyFor {b : KeyBuilder} {o : Options} {κ : Kind} {x : κ} {k : Key}
    (h : b.keyFor o.keyspace x = .ok k) : o.validate = .ok () := by
  obtain ⟨id, hid⟩ := KeyBuilder.build_of_keyFor h
  simp [validate, (Key.build_eq_ok hid).1]

namespace Cache

variable {σ : Type} {c : Cache σ} {ns : String} {κ : Kind} {xs : List κ}

theorem keysFor_eq_ok {keyOf : κ → Key} (h : ∀ x ∈ xs, c.keys.keyFor ns x = .ok (keyOf x)) :
    c.keysFor ns xs = .ok (xs.map keyOf) := mapM_eq_ok h

end Cache

end CacheAside

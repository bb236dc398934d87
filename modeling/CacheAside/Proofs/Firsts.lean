import Mathlib.Data.List.Basic
import Mathlib.Data.List.Nodup

/-!
# First appearances

The members of a list that are the first with their mark, in their order. For marks that are cache
keys these are the objects that stand for the keys of a batch, and the rows that count.
-/

namespace CacheAside

variable {α β γ : Type} [DecidableEq β]

/-- The members that no earlier one has the mark of. -/
def firsts (g : α → β) (l : List α) : List α := l.eraseDupsBy fun a b => g a == g b

@[simp] theorem firsts_nil (g : α → β) : firsts g [] = [] := rfl

theorem firsts_cons (g : α → β) (a : α) (l : List α) :
    firsts g (a :: l) = a :: firsts g (l.filter fun b => !g b == g a) := by
  rw [firsts, List.eraseDupsBy_cons, firsts]
  congr 3
  funext b
  cases g b == g a <;> rfl

/-- Induction along a list that is thinned out: behind a member, those alike are gone. -/
theorem thinning_induction {motive : List α → Prop} (alike : α → α → Bool) (nil : motive [])
    (cons : ∀ a l, motive (l.filter fun b => !alike b a) → motive (a :: l)) : ∀ l, motive l
  | [] => nil
  | a :: l => cons a l (thinning_induction alike nil cons (l.filter fun b => !alike b a))
termination_by l => l.length
decreasing_by exact Nat.lt_succ_of_le (List.length_filter_le _ _)

/-- Induction along `firsts`: behind a member, those with its mark are gone. -/
theorem firsts_induction {motive : List α → Prop} (g : α → β) (nil : motive [])
    (cons : ∀ a l, motive (l.filter fun b => !g b == g a) → motive (a :: l)) : ∀ l, motive l :=
  thinning_induction (fun b a => g b == g a) nil cons

theorem map_firsts (g : α → β) (l : List α) : (firsts g l).map g = (l.map g).eraseDups := by
  induction l using firsts_induction g with
  | nil => rfl
  | cons a l ih =>
      rw [firsts_cons, List.map_cons, List.map_cons, List.eraseDups_cons, ih, List.filter_map]
      rfl

theorem firsts_map (g : γ → β) (h : α → γ) (l : List α) :
    firsts g (l.map h) = (firsts (g ∘ h) l).map h := by
  induction l using firsts_induction (g ∘ h) with
  | nil => rfl
  | cons a l ih =>
      rw [List.map_cons, firsts_cons, firsts_cons, List.map_cons, ← ih, List.filter_map]
      rfl

theorem firsts_subset (g : α → β) (l : List α) : firsts g l ⊆ l := by
  induction l using firsts_induction g with
  | nil => exact fun _ h => h
  | cons a l ih =>
      rw [firsts_cons]
      intro x hx
      rcases List.mem_cons.mp hx with rfl | hx
      · exact List.mem_cons_self
      · exact List.mem_cons_of_mem _ (List.mem_of_mem_filter (ih hx))

/-- No mark of a list is lost. -/
theorem mem_map_firsts {g : α → β} {l : List α} {b : β} :
    b ∈ (firsts g l).map g ↔ b ∈ l.map g := by
  rw [map_firsts, List.mem_eraseDups]

theorem nodup_map_firsts (g : α → β) (l : List α) : ((firsts g l).map g).Nodup := by
  induction l using firsts_induction g with
  | nil => exact .nil
  | cons a l ih =>
      rw [firsts_cons, List.map_cons, List.nodup_cons]
      refine ⟨fun h => ?_, ih⟩
      obtain ⟨x, hx, hxa⟩ := List.mem_map.mp (mem_map_firsts.mp h)
      simp [hxa] at hx

theorem nodup_eraseDups (l : List β) : l.eraseDups.Nodup := by
  rw [← List.map_id l, ← map_firsts]
  exact nodup_map_firsts id l

/-- One more member is a first if no member before it has its mark. -/
theorem firsts_concat (g : α → β) (l : List α) (a : α) :
    firsts g (l ++ [a]) = firsts g l ++ if g a ∈ l.map g then [] else [a] := by
  induction l using firsts_induction g with
  | nil => rfl
  | cons b l ih =>
      rw [List.cons_append, firsts_cons, firsts_cons, List.filter_append, List.cons_append]
      congr 1
      by_cases hab : g a = g b
      · simp [hab]
      · have hmem : g a ∈ (l.filter fun x => !g x == g b).map g ↔ g a ∈ l.map g := by
          simp only [List.mem_map, List.mem_filter]
          constructor
          · rintro ⟨x, ⟨hx, -⟩, hxa⟩
            exact ⟨x, hx, hxa⟩
          · rintro ⟨x, hx, hxa⟩
            exact ⟨x, ⟨hx, by simp [hxa, hab]⟩, hxa⟩
        have hsingle : [a].filter (fun x => !g x == g b) = [a] := by simp [hab]
        rw [hsingle, ih]
        simp only [hmem, List.map_cons, List.mem_cons, hab, false_or]

theorem firsts_of_nodup {g : α → β} {l : List α} (h : (l.map g).Nodup) : firsts g l = l := by
  induction l with
  | nil => rfl
  | cons a l ih =>
      obtain ⟨ha, hl⟩ := List.nodup_cons.mp h
      rw [firsts_cons, List.filter_eq_self.mpr fun b hb => ?_, ih hl]
      have hne : g b ≠ g a := fun hba => ha (hba ▸ List.mem_map_of_mem hb)
      simp [hne]

theorem eraseDups_of_nodup {l : List β} (h : l.Nodup) : l.eraseDups = l := by
  rw [← List.map_id l, ← map_firsts, firsts_of_nodup (by rwa [List.map_id])]

/-- Members with another mark do not matter to a search for a mark. -/
theorem find?_filter_mark {g : α → β} {a : α} {b : β} (hb : b ≠ g a) (l : List α) :
    (l.filter fun x => !g x == g a).find? (g · == b) = l.find? (g · == b) := by
  rw [List.find?_filter]
  congr 1
  funext x
  by_cases hx : g x = b
  · simp [hx, hb]
  · simp [hx]

/-- The firsts are what searches for their marks find. -/
theorem find?_of_mem_firsts {g : α → β} {l : List α} {x : α} (hx : x ∈ firsts g l) :
    l.find? (g · == g x) = some x := by
  induction l using firsts_induction g with
  | nil => cases hx
  | cons a l ih =>
      rw [firsts_cons] at hx
      rcases List.mem_cons.mp hx with rfl | hx
      · simp
      · have hxa : g x ≠ g a := by simpa using List.of_mem_filter (firsts_subset g _ hx)
        rw [List.find?_cons_of_neg (by simpa using hxa.symm), ← find?_filter_mark hxa, ih hx]

theorem mem_firsts_iff {g : α → β} {l : List α} {x : α} :
    x ∈ firsts g l ↔ l.find? (g · == g x) = some x := by
  refine ⟨find?_of_mem_firsts, fun hfind => ?_⟩
  obtain ⟨y, hy, hyx⟩ := List.mem_map.mp
    (mem_map_firsts.mpr (List.mem_map_of_mem (f := g) (List.mem_of_find?_eq_some hfind)))
  have hfirst := find?_of_mem_firsts hy
  rw [hyx, hfind] at hfirst
  exact Option.some.inj hfirst ▸ hy

/-- What searches for the marks of a list find, mark by mark, are its firsts. -/
theorem filterMap_find?_eq_firsts (g : α → β) (p : β → Bool) (l : List α) :
    ((l.map g).eraseDups.filter p).filterMap (fun b => l.find? (g · == b)) =
      (firsts g l).filter (p ∘ g) := by
  have hfind : ∀ x ∈ (firsts g l).filter (p ∘ g),
      ((fun b => l.find? (g · == b)) ∘ g) x = some x :=
    fun x hx => find?_of_mem_firsts (List.mem_of_mem_filter hx)
  rw [← map_firsts, List.filter_map, List.filterMap_map, List.filterMap_congr hfind]
  exact List.filterMap_some

/-- A choice by mark can be made before or after. -/
theorem filter_firsts (g : α → β) (p : β → Bool) (l : List α) :
    (firsts g l).filter (p ∘ g) = firsts g (l.filter (p ∘ g)) := by
  induction l using firsts_induction g with
  | nil => rfl
  | cons a l ih =>
      rw [firsts_cons, List.filter_cons, List.filter_cons, ih, List.filter_filter]
      by_cases ha : (p ∘ g) a = true
      · rw [if_pos ha, if_pos ha, firsts_cons, List.filter_filter]
        simp only [Bool.and_comm]
      · rw [if_neg ha, if_neg ha]
        congr 1
        refine List.filter_congr fun x _ => ?_
        by_cases hx : g x = g a
        · simpa [hx] using ha
        · simp [hx]

/-- Behind a member whose mark is new, those with its mark count as little as the ones marked before. -/
theorem firsts_filter_cons {g : α → β} {old new : List β} {a : α} (ha : g a ∉ old)
    (hnew : ∀ b, b ∈ new ↔ b ∈ old ∨ b = g a) (l : List α) :
    firsts g ((a :: l).filter fun x => decide (g x ∉ old)) =
      a :: firsts g (l.filter fun x => decide (g x ∉ new)) := by
  rw [List.filter_cons_of_pos (by simpa using ha), firsts_cons, List.filter_filter]
  congr 2
  refine List.filter_congr fun x _ => ?_
  rw [Bool.eq_iff_iff]
  simp [hnew, and_comm]

/-- Marks that tell the same members apart give the same firsts. -/
theorem firsts_congr {γ : Type} [DecidableEq γ] {g : α → β} {g' : α → γ} {l : List α}
    (h : ∀ a ∈ l, ∀ b ∈ l, g a = g b ↔ g' a = g' b) : firsts g l = firsts g' l := by
  induction l using firsts_induction g with
  | nil => rfl
  | cons a l ih =>
      have hbehind : l.filter (fun b => !g b == g a) = l.filter fun b => !g' b == g' a :=
        List.filter_congr fun b hb => by
          rw [Bool.eq_iff_iff]
          simp [h b (List.mem_cons_of_mem _ hb) a List.mem_cons_self]
      rw [firsts_cons, firsts_cons, ← hbehind, ih fun b hb d hd =>
        h b (List.mem_cons_of_mem _ (List.mem_of_mem_filter hb)) d
          (List.mem_cons_of_mem _ (List.mem_of_mem_filter hd))]

/-! ## Members that are equal to others

Of members that are equal, though not identical, `List.eraseDups` leaves the first. -/

section
variable [BEq α] {g : α → β} {l : List α} {a : α}

theorem eraseDups_subset (l : List α) : l.eraseDups ⊆ l := by
  induction l using thinning_induction fun b a : α => b == a with
  | nil => exact fun _ h => h
  | cons a l ih =>
      rw [List.eraseDups_cons]
      intro x hx
      rcases List.mem_cons.mp hx with rfl | hx
      · exact List.mem_cons_self
      · exact List.mem_cons_of_mem _ (List.mem_of_mem_filter (ih hx))

/-- No two members that are left are equal. -/
theorem pairwise_eraseDups [EquivBEq α] (l : List α) :
    l.eraseDups.Pairwise fun a b => (a == b) = false := by
  induction l using thinning_induction fun b a : α => b == a with
  | nil => exact .nil
  | cons a l ih =>
      rw [List.eraseDups_cons]
      refine .cons (fun b hb => ?_) ih
      rw [BEq.comm]
      simpa using List.of_mem_filter (eraseDups_subset _ hb)

theorem eraseDups_of_pairwise [EquivBEq α] (h : l.Pairwise fun a b => (a == b) = false) :
    l.eraseDups = l := by
  induction l with
  | nil => rfl
  | cons a l ih =>
      obtain ⟨ha, hl⟩ := List.pairwise_cons.mp h
      rw [List.eraseDups_cons, List.filter_eq_self.mpr fun b hb => ?_, ih hl]
      rw [BEq.comm, ha b hb]
      rfl

/-- Every member is equal to one that is left. -/
theorem exists_mem_eraseDups [EquivBEq α] (ha : a ∈ l) : ∃ b ∈ l.eraseDups, (a == b) = true := by
  induction l using thinning_induction fun b a : α => b == a with
  | nil => cases ha
  | cons c l ih =>
      rw [List.eraseDups_cons]
      by_cases hac : (a == c) = true
      · exact ⟨c, List.mem_cons_self, hac⟩
      · have hl : a ∈ l := (List.mem_cons.mp ha).resolve_left fun h => hac (h ▸ BEq.rfl)
        obtain ⟨b, hb, hab⟩ := ih (List.mem_filter.mpr ⟨hl, by simpa using hac⟩)
        exact ⟨b, List.mem_cons_of_mem _ hb, hab⟩

/-- Equal things are looked up alike. -/
theorem lookup_congr [EquivBEq α] {b : α} (h : (a == b) = true) (pairs : List (α × γ)) :
    pairs.lookup a = pairs.lookup b := by
  induction pairs with
  | nil => rfl
  | cons p pairs ih => rw [List.lookup_cons, List.lookup_cons, ih, BEq.congr_left h]

/-- A member is looked up where it stands, if no other is equal to it. -/
theorem lookup_map_of_pairwise [EquivBEq α] {f : α → γ}
    (h : l.Pairwise fun a b => (a == b) = false) (ha : a ∈ l) :
    (l.map fun x => (x, f x)).lookup a = some (f a) := by
  induction l with
  | nil => cases ha
  | cons b l ih =>
      obtain ⟨hb, hl⟩ := List.pairwise_cons.mp h
      rw [List.map_cons, List.lookup_cons]
      rcases List.mem_cons.mp ha with rfl | ha
      · simp
      · rw [BEq.comm, hb a ha]
        exact ih hl ha

/-- Equal members have one mark. -/
def Unites (g : α → β) (l : List α) : Prop := ∀ a ∈ l, ∀ b ∈ l, (a == b) = true → g a = g b

omit [DecidableEq β] in
theorem mem_map_eraseDups [EquivBEq α] (hg : Unites g l) {b : β} :
    b ∈ l.eraseDups.map g ↔ b ∈ l.map g := by
  refine ⟨fun hb => List.map_subset g (eraseDups_subset l) hb, fun hb => ?_⟩
  obtain ⟨a, ha, rfl⟩ := List.mem_map.mp hb
  obtain ⟨c, hc, hac⟩ := exists_mem_eraseDups ha
  exact List.mem_map.mpr ⟨c, hc, (hg a ha c (eraseDups_subset l hc) hac).symm⟩

/-- To leave members out that are equal to others does not change the firsts. -/
theorem firsts_eraseDups [EquivBEq α] (hg : Unites g l) : firsts g l.eraseDups = firsts g l := by
  induction l using thinning_induction fun b a : α => b == a with
  | nil => rfl
  | cons a l ih =>
      let q : β → Bool := fun b => !b == g a
      have hrest : Unites g (l.filter fun b => !b == a) := fun b hb c hc =>
        hg b (List.mem_cons_of_mem _ (List.mem_of_mem_filter hb)) c
          (List.mem_cons_of_mem _ (List.mem_of_mem_filter hc))
      calc firsts g (a :: l).eraseDups
          = a :: firsts g ((l.filter fun b => !b == a).eraseDups.filter (q ∘ g)) := by
            rw [List.eraseDups_cons, firsts_cons]; rfl
        _ = a :: (firsts g (l.filter fun b => !b == a)).filter (q ∘ g) := by
            rw [← filter_firsts, ih hrest]
        _ = a :: firsts g (l.filter (q ∘ g)) := by
            rw [filter_firsts, List.filter_filter]
            congr 2
            refine List.filter_congr fun x hx => ?_
            cases hxa : x == a with
            | false => simp
            | true => simp [q, hg x (List.mem_cons_of_mem _ hx) a List.mem_cons_self hxa]
        _ = firsts g (a :: l) := by rw [firsts_cons]; rfl

theorem eraseDups_map_eraseDups [EquivBEq α] (hg : Unites g l) :
    (l.eraseDups.map g).eraseDups = (l.map g).eraseDups := by
  rw [← map_firsts, ← map_firsts, firsts_eraseDups hg]

end

end CacheAside

import CacheAside.Proofs.InTurn

/-!
# Many as turns

Each kind of call is made for many objects at once or for one of them after the other, and if their
keys are different it does not matter which.
-/

namespace CacheAside

open Rig

variable {ε ρ : Type} {κ τ : Kind} {o : Options} {xs : List κ} {keyOf : κ → Key}
  {f : κ → Option τ}

/-! ## Invalidations -/

namespace Cache

section
variable {σ : Type} {c : Cache σ} {w : World σ (List κ)}

/-- What is counted and asked meanwhile makes no difference to a deletion. -/
theorem deleteOne_charge (key : Key) (cost : Stats) (asked : List κ) :
    c.deleteOne key (w.charge cost asked) =
      ((c.deleteOne key w).1, (c.deleteOne key w).2.charge cost asked) := by
  rcases hdelete : c.store.delete key w.scene with ⟨answer, scene⟩
  have hcall : w.call (c.store.delete key) = (answer, { w with scene }) := by
    rw [World.call, hdelete]
  have hcall' : (w.charge cost asked).call (c.store.delete key) =
      (answer, { w with scene }.charge cost asked) := by
    rw [World.call, World.charge, hdelete]
    rfl
  rw [deleteOne, deleteOne, hcall, hcall']
  cases answer with
  | ok removed =>
      cases removed with
      | true => exact congrArg _ (World.count_charge Stats.isCharge_addInvalidation cost asked)
      | false => rfl
  | error e =>
      let failed : World σ (List κ) := { w with scene }.log (.deleteFailed key e)
      exact congrArg _ (World.count_charge (w := failed) Stats.isCharge_addWriteFailure cost asked)

theorem deleteAll_charge (keys : List Key) (cost : Stats) (asked : List κ) :
    c.deleteAll keys (w.charge cost asked) =
      ((c.deleteAll keys w).1, (c.deleteAll keys w).2.charge cost asked) := by
  induction keys generalizing w with
  | nil => rfl
  | cons key keys ih => simp only [deleteAll, deleteOne_charge, ih]

theorem snd_deleteAll_append (keys keys' : List Key) :
    (c.deleteAll (keys ++ keys') w).2 = (c.deleteAll keys' (c.deleteAll keys w).2).2 := by
  induction keys generalizing w with
  | nil => rfl
  | cons key keys ih => exact ih

theorem invalidate_eq {x : κ} {key : Key} (henabled : c.config.disabled = false)
    (hvalid : o.validate = .ok ()) (hkey : c.keys.keyFor o.keyspace x = .ok key) :
    c.invalidate o x w = (.ok (c.deleteOne key w).1, (c.deleteOne key w).2) := by
  cases hremoved : (c.deleteOne key w).1 <;>
    simp [invalidate, henabled, hvalid, hkey, deleteAll, hremoved]

/-- Invalidations in turn delete one key each, and say whether it was there. -/
theorem invalidate_inTurn {ρ : Type} (henabled : c.config.disabled = false)
    (hvalid : o.validate = .ok ()) (hkeys : ∀ x ∈ xs, c.keys.keyFor o.keyspace x = .ok (keyOf x)) :
    ∃ flags : List Bool, flags.count true = (c.deleteAll (xs.map keyOf) w).1 ∧
      inTurn (xs.map fun x => (Request.wrapRefusal .flag (c.invalidate o x) :
        Outcome σ (List κ) ε (Reply ρ τ))) w =
          (flags.map fun flag => .ok (.flag flag), (c.deleteAll (xs.map keyOf) w).2) := by
  induction xs generalizing w with
  | nil => exact ⟨[], rfl, rfl⟩
  | cons x xs ih =>
      have hone := invalidate_eq (w := w) henabled hvalid (hkeys x List.mem_cons_self)
      simp only [List.map_cons, inTurn, Request.wrapRefusal, hone, deleteAll]
      rcases c.deleteOne (keyOf x) w with ⟨removed, w'⟩
      obtain ⟨flags, hcount, hturns⟩ := ih (w := w') fun y hy => hkeys y (List.mem_cons_of_mem _ hy)
      refine ⟨removed :: flags, ?_, ?_⟩
      · rw [← hcount]
        cases removed <;> simp
      · simp [hturns]

theorem invalidateByResult_eq {x : κ} (henabled : c.config.disabled = false)
    (hvalid : o.validate = .ok ()) (hkind : c.registry.isRegistered τ = true) {rowKey : τ → Key}
    (hkey : ∀ v ∈ f x, c.keys.keyForResult o.keyspace v = .ok (rowKey v)) :
    c.invalidateByResult o (askOne f x : Computation _ _ ε _) w =
      (.ok (f x), (c.deleteAll ((f x).toList.map rowKey) w).2.charge 0 [x]) := by
  have hcheck : c.checkResultKind τ = .ok () := if_pos hkind
  simp only [invalidateByResult, henabled, hvalid, hcheck, askOne_eq]
  cases hv : f x with
  | none => rfl
  | some v =>
      simp only [hkey v hv, deleteAll_charge]
      rfl

theorem invalidateByResult_inTurn (henabled : c.config.disabled = false)
    (hvalid : o.validate = .ok ()) (hkind : c.registry.isRegistered τ = true) {rowKey : τ → Key}
    (hkeys : ∀ v ∈ xs.filterMap f, c.keys.keyForResult o.keyspace v = .ok (rowKey v)) :
    inTurn (xs.map fun x => c.invalidateByResult o (askOne f x : Computation _ _ ε _)) w =
      ((xs.map f).map .ok, (c.deleteAll ((xs.filterMap f).map rowKey) w).2.charge 0 xs) := by
  induction xs generalizing w with
  | nil => simp [inTurn, deleteAll]
  | cons x xs ih =>
      have hone := invalidateByResult_eq (ε := ε) (w := w) henabled hvalid hkind
        fun v hv => hkeys v (List.mem_filterMap.mpr ⟨x, List.mem_cons_self, hv⟩)
      have hrest : ∀ v ∈ xs.filterMap f, c.keys.keyForResult o.keyspace v = .ok (rowKey v) :=
        fun v hv => by
          obtain ⟨y, hy, hfy⟩ := List.mem_filterMap.mp hv
          exact hkeys v (List.mem_filterMap.mpr ⟨y, List.mem_cons_of_mem _ hy, hfy⟩)
      have hkeys : (x :: xs).filterMap f = (f x).toList ++ xs.filterMap f := by
        rw [List.filterMap_cons]
        cases f x <;> rfl
      simp only [List.map_cons, inTurn, hone, ih hrest, hkeys, List.map_append,
        snd_deleteAll_append, deleteAll_charge, World.charge_charge]
      simp

end

section
variable {c : Cache Base} {w : World Base (List κ)} (henabled : c.config.disabled = false)
  (hvalid : o.validate = .ok ())
include henabled hvalid

theorem alike_invalidate (hkeys : ∀ x ∈ xs, c.keys.keyFor o.keyspace x = .ok (keyOf x))
    (hnodup : (xs.map keyOf).Nodup) :
    Alike (ε := ε) (ρ := ρ) (τ := τ) (Request.wrapRefusal .count (c.invalidateMany o xs) w)
      (inTurn (xs.map fun x => Request.wrapRefusal .flag (c.invalidate o x)) w) 0 := by
  obtain ⟨flags, hcount, hturns⟩ := invalidate_inTurn (ε := ε) (ρ := ρ) (τ := τ) (w := w) henabled
    hvalid hkeys
  have hmany : c.invalidateMany o xs w =
      (.ok (c.deleteAll (xs.map keyOf) w).1, (c.deleteAll (xs.map keyOf) w).2) := by
    simp [invalidateMany, henabled, hvalid, keysFor_eq_ok hkeys, eraseDups_of_nodup hnodup]
  rw [Request.wrapRefusal, hmany, hturns, ← hcount]
  refine ⟨⟨_, _, rfl, ?_, .count flags⟩, rfl⟩
  rw [List.map_map]
  rfl

theorem alike_invalidateByResult (hkind : c.registry.isRegistered τ = true) {rowKey : τ → Key}
    (hkeys : ∀ v ∈ xs.filterMap f, c.keys.keyForResult o.keyspace v = .ok (rowKey v))
    (hnodup : ((xs.filterMap f).map rowKey).Nodup) :
    Alike (ρ := ρ) (Request.wrap .values (c.invalidateManyByResult o (askAll f xs)) w)
      (inTurn (xs.map fun x => Request.wrap .value
        (c.invalidateByResult o (askOne f x : Computation _ _ ε _))) w) 0 := by
  have hcheck : c.checkResultKind τ = .ok () := if_pos hkind
  have hrows : (xs.map f).filterMap id = xs.filterMap f := by rw [List.filterMap_map]; rfl
  have hmany : c.invalidateManyByResult o (askAll f xs : Computation _ _ ε _) w =
      (.ok (xs.map f), (c.deleteAll ((xs.filterMap f).map rowKey) w).2.charge 0 xs) := by
    simp only [invalidateManyByResult, henabled, hvalid, hcheck, askAll_eq, hrows, mapM_eq_ok hkeys,
      eraseDups_of_nodup hnodup, deleteAll_charge]
    rfl
  have hturns := invalidateByResult_inTurn (ε := ε) (w := w) henabled hvalid hkind hkeys
  exact alike_of_values (congrArg Prod.fst hmany) (congrArg Prod.fst hturns)
    (by rw [hturns, hmany]; rfl)

end

end Cache

/-! ## All kinds of calls -/

/-- The kinds of calls that are made for one object or for many. -/
inductive Verb where
  | read
  | write
  | writeByResult
  | invalidate
  | invalidateByResult
  deriving DecidableEq

namespace Verb

section
variable {σ ε ρ : Type} {κ τ : Kind}

/-- The call for one object, with a data source that answers each object on its own. -/
def one (o : Options) (f : κ → Option τ) (x : κ) : Verb → Request σ (List κ) ε ρ κ τ
  | read => .read o x (askOne f x)
  | write => .write o x (askOne f x)
  | writeByResult => .writeByResult o (askOne f x)
  | invalidate => .invalidate o x
  | invalidateByResult => .invalidateByResult o (askOne f x)

/-- The call for many objects. -/
def many (o : Options) (f : κ → Option τ) (xs : List κ) : Verb → Request σ (List κ) ε ρ κ τ
  | read => .readMany o xs (askAll f)
  | write => .writeMany o xs (askAll f xs)
  | writeByResult => .writeManyByResult o (askAll f xs)
  | invalidate => .invalidateMany o xs
  | invalidateByResult => .invalidateManyByResult o (askAll f xs)

def isByResult : Verb → Bool
  | writeByResult | invalidateByResult => true
  | read | write | invalidate => false

/-- The key that a call has to do with: that of the object, or of the value if it has one. -/
def key? (c : Cache σ) (o : Options) (f : κ → Option τ) (x : κ) (verb : Verb) :
    Option (Except ConfigError Key) :=
  if verb.isByResult then (f x).map (c.keys.keyForResult o.keyspace)
  else some (c.keys.keyFor o.keyspace x)

end

variable {ε ρ : Type} {κ τ : Kind} {c : Cache Base} {o : Options} {xs : List κ} {f : κ → Option τ}
  {keys : List Key} {w : World Base (List κ)}

theorem exists_of_map_ok {α : Type} {g : α → Except ConfigError Key} {l : List α}
    (h : l.map g = keys.map .ok) : ∃ keyOf : α → Key, (∀ x ∈ l, g x = .ok (keyOf x)) ∧
      l.map keyOf = keys := by
  have hkeyOf : ∀ x ∈ l, g x = .ok ((g x).toOption.getD default) := fun x hx => by
    obtain ⟨key, -, hkey⟩ := List.mem_map.mp (h ▸ List.mem_map_of_mem hx : g x ∈ keys.map .ok)
    rw [← hkey]
    rfl
  refine ⟨fun x => (g x).toOption.getD default, hkeyOf, ?_⟩
  have hok : Function.Injective (Except.ok : Key → Except ConfigError Key) :=
    fun _ _ => Except.ok.inj
  refine List.map_injective_iff.mpr hok ?_
  rw [List.map_map, ← h]
  exact List.map_congr_left fun x hx => (hkeyOf x hx).symm

/-! ## Past the cache -/

/-- A call for many that goes past the cache comes to what its data source answers. -/
theorem alike_of_direct {many : Outcome Base (List κ) ε (List (Option τ))}
    {one : κ → Outcome Base (List κ) ε (Option τ)} (hmany : many w = (askAll f xs).direct w)
    (hone : ∀ x w, one x w = (askOne f x).direct w) :
    Alike (ρ := ρ) (Request.wrap .values many w)
      (inTurn (xs.map fun x => Request.wrap .value (one x)) w) 0 := by
  obtain rfl : one = fun x => (askOne f x).direct := funext fun x => funext (hone x)
  have hsame : Request.wrap .values many w =
      (Request.wrap .values (askAll f xs : Computation _ _ ε _).direct w :
        Except (Failure ε) (Reply ρ τ) × _) := by
    rw [Request.wrap, hmany]
    rfl
  rw [hsame]
  exact alike_of_sums (Cache.sumUp_direct 0) fun _ _ _ => Cache.sums_direct

section
variable (hdisabled : c.config.disabled = true)
include hdisabled

theorem readMany_of_disabled : c.readMany o xs (askAll f : _ → Computation _ _ ε _) w =
    (askAll f xs).direct w := by
  rw [Cache.readMany]
  split
  · rename_i hnil
    subst hnil
    simp [Computation.direct, askAll]
  · rfl

theorem invalidate_inTurn_of_disabled :
    inTurn (xs.map fun x => (Request.wrapRefusal .flag (c.invalidate o x) :
      Outcome Base (List κ) ε (Reply ρ τ))) w = (xs.map fun _ => .ok (.flag false), w) := by
  induction xs with
  | nil => rfl
  | cons x xs ih =>
      have hone : c.invalidate o x w = (.ok false, w) := if_pos hdisabled
      simp only [List.map_cons, inTurn, Request.wrapRefusal, hone]
      exact congrArg (fun turns => (_ :: turns.1, turns.2)) ih

theorem alike_of_disabled (verb : Verb) :
    Alike (ε := ε) (ρ := ρ) ((verb.many o f xs).run c w)
      (inTurn (xs.map fun x => (verb.one o f x).run c) w) 0 := by
  cases verb with
  | read => exact alike_of_direct (readMany_of_disabled hdisabled) fun x w => if_pos hdisabled
  | write => exact alike_of_direct (if_pos hdisabled) fun x w => if_pos hdisabled
  | writeByResult => exact alike_of_direct (if_pos hdisabled) fun x w => if_pos hdisabled
  | invalidate =>
      have hmany : c.invalidateMany o xs w = (.ok 0, w) := if_pos hdisabled
      simp only [many, one, Request.run]
      rw [Request.wrapRefusal, hmany, invalidate_inTurn_of_disabled hdisabled]
      refine ⟨⟨.count 0, xs.map fun _ => .flag false, rfl, ?_, ?_⟩, rfl⟩
      · rw [List.map_map]
        rfl
      · have hcount : (xs.map fun _ => false).count true = 0 :=
          List.count_eq_zero.mpr (by simp)
        have hgathers := Reply.Gathers.count (ρ := ρ) (τ := τ) (xs.map fun _ => false)
        rwa [hcount, List.map_map] at hgathers
  | invalidateByResult => exact alike_of_direct (if_pos hdisabled) fun x w => if_pos hdisabled

end

/-! ## Either way -/

/-- A call for many objects with different keys comes to the same as the calls for them in turn. The
exception are reads that fail: each call counts its own. A batch read takes objects that are equal
for one, so they must not have different keys. -/
theorem many_eq_inTurn (verb : Verb) (hstore : c.store = Base.store)
    (hinline : o.writeBack = .inline) (hnulls : o.addNulls = true) (hskip : o.skipNulls = false)
    (hposition : o.keysFromResults = false) (hvalid : o.validate = .ok ())
    (hkind : verb.isByResult = true → c.registry.isRegistered τ = true)
    (hkeys : xs.filterMap (verb.key? c o f) = keys.map .ok) (hdistinct : keys.Nodup)
    (hequal : verb = .read → Unites (c.keys.keyFor o.keyspace) xs) (w : World Base (List κ)) :
    ∃ extra, Alike (ε := ε) (ρ := ρ) ((verb.many o f xs).run c w)
        (inTurn (xs.map fun x => (verb.one o f x).run c) w) extra ∧
      (extra ≠ 0 → verb = .read ∧ o.bypass = false ∧ w.scene.contents.failsReads = true ∧
        1 < xs.length) := by
  cases hdisabled : c.config.disabled with
  | true => exact ⟨0, alike_of_disabled hdisabled verb, fun h => absurd rfl h⟩
  | false =>
      have hobjects (h : verb.isByResult = false) : ∃ keyOf : κ → Key,
          (∀ x ∈ xs, c.keys.keyFor o.keyspace x = .ok (keyOf x)) ∧ xs.map keyOf = keys :=
        exists_of_map_ok (by simp [← hkeys, key?, h])
      have hresults (h : verb.isByResult = true) : ∃ rowKey : τ → Key,
          (∀ v ∈ xs.filterMap f, c.keys.keyForResult o.keyspace v = .ok (rowKey v)) ∧
            (xs.filterMap f).map rowKey = keys :=
        exists_of_map_ok (by simp [← hkeys, key?, h, List.map_filterMap])
      cases verb with
      | read =>
          obtain ⟨keyOf, hkeyOf, rfl⟩ := hobjects rfl
          obtain ⟨extra, halike, hextra⟩ := Cache.alike_read hstore hinline hdisabled hnulls hskip
            hposition (Batch.assigns_of_own hkeyOf (hequal rfl)) hdistinct
          exact ⟨extra, halike, fun h => ⟨rfl, hextra h⟩⟩
      | write =>
          obtain ⟨keyOf, hkeyOf, rfl⟩ := hobjects rfl
          exact ⟨0, Cache.alike_write hstore hinline hdisabled hnulls hvalid hkeyOf hdistinct,
            fun h => absurd rfl h⟩
      | writeByResult =>
          obtain ⟨rowKey, hrowKey, rfl⟩ := hresults rfl
          exact ⟨0, Cache.alike_writeByResult hstore hinline hdisabled hvalid (hkind rfl) hrowKey
            hdistinct, fun h => absurd rfl h⟩
      | invalidate =>
          obtain ⟨keyOf, hkeyOf, rfl⟩ := hobjects rfl
          exact ⟨0, Cache.alike_invalidate hdisabled hvalid hkeyOf hdistinct,
            fun h => absurd rfl h⟩
      | invalidateByResult =>
          obtain ⟨rowKey, hrowKey, rfl⟩ := hresults rfl
          exact ⟨0, Cache.alike_invalidateByResult hdisabled hvalid (hkind rfl) hrowKey hdistinct,
            fun h => absurd rfl h⟩

theorem many_eq_inTurn_of_failed_reads :
    let c : Cache Base := { store := Base.store }
    let o : Options := { keyspace := "n", addNulls := true }
    let f : Kind.word32 → Option Kind.word32 := fun x => if x = (1 : UInt32) then some 7 else none
    let xs : List Kind.word32 := [(1 : UInt32), 2]
    let w : World Base (List Kind.word32) :=
      { scene := { contents := .recording { failures := { reads := true } }, now := 0 }
        outside := [] }
    ∃ extra, Alike (ε := Unit) (ρ := Unit) ((read.many o f xs).run c w)
      (inTurn (xs.map fun x => (read.one o f x).run c) w) extra := by
  intro c o f xs w
  have hkeys : xs.filterMap (read.key? c o f) =
      [(⟨"n:1"⟩ : Key), ⟨"n:2"⟩].map .ok := by decide +kernel
  obtain ⟨extra, halike, -⟩ := many_eq_inTurn (ε := Unit) (ρ := Unit) read (c := c) rfl rfl rfl rfl
    rfl (by decide +kernel) (fun h => by cases h) hkeys (by decide)
    (fun _ => Batch.unites_of_ne (by decide) _ xs) w
  exact ⟨extra, halike⟩

end Verb

end CacheAside

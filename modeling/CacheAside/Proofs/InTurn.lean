import CacheAside.Proofs.ReadsTogether
import CacheAside.Proofs.Requests

/-!
# Calls for many objects and calls in turn

A call for many objects with a key each, and the calls for one of them after the other, cannot be
told apart by what they answer, ask and leave behind; but where reads fail, the one asks the store
once and the others once each.
-/

namespace CacheAside

open Rig

section
variable {σ υ ε α β : Type}

/-- Makes calls in turn, whatever comes of each. -/
def inTurn : List (Outcome σ υ ε α) → World σ υ → List (Except (Failure ε) α) × World σ υ
  | [], w => ([], w)
  | call :: calls, w =>
    let (answer, w) := call w
    let (answers, w) := inTurn calls w
    (answer :: answers, w)

theorem inTurn_wrap (form : α → β) (calls : List (Outcome σ υ ε α)) (w : World σ υ) :
    inTurn (calls.map (Request.wrap form)) w =
      ((inTurn calls w).1.map (Except.map form), (inTurn calls w).2) := by
  induction calls generalizing w with
  | nil => rfl
  | cons call calls ih => simp [inTurn, ih, Request.wrap_eq]

end

variable {κ τ : Kind} {ε : Type} {c : Cache Base} {o : Options} {ttl : UInt32} {xs : List κ}
  {keyOf : κ → Key} {f : κ → Option τ} {v w : World Base (List κ)}

/-! ## Acts in turn -/

/-- Calls that come to acts which leave one another alone come to the acts together. -/
theorem inTurn_of_sums {call : κ → Outcome Base (List κ) ε (Option τ)}
    (act : κ → World Base (List κ) → Act κ τ) (hsums : ∀ x ∈ xs, ∀ w, (act x w).Sums ttl (call x) w)
    (hbare : ∀ x v w, World.bare v = w.bare → act x v = act x w)
    (halone : xs.Pairwise fun x y => ∀ w, act y (performAll ttl [act x w] w) = act y w) :
    (inTurn (xs.map call) w).1 = xs.map (fun x => .ok (act x w).value) ∧
      (inTurn (xs.map call) w).2.bare = (performAll ttl (xs.map (act · w)) w).bare := by
  induction xs generalizing w with
  | nil => simp [inTurn, performAll, Cache.runJob]
  | cons x xs ih =>
      obtain ⟨hx, halone⟩ := List.pairwise_cons.mp halone
      obtain ⟨hanswer, hafter⟩ := hsums x List.mem_cons_self w
      obtain ⟨hanswers, hend⟩ := ih (w := (call x w).2)
        (fun y hy => hsums y (List.mem_cons_of_mem _ hy)) halone
      have hlater : ∀ y ∈ xs, act y (call x w).2 = act y w := fun y hy => by
        rw [hbare y _ _ hafter, hx y hy]
      have hacts : xs.map (act · (call x w).2) = xs.map (act · w) := List.map_congr_left hlater
      -- So the later acts are those of the world from before the first call.
      refine ⟨?_, ?_⟩
      · simp only [List.map_cons, inTurn, hanswer, hanswers]
        exact congrArg _ (List.map_congr_left fun y hy => by rw [hlater y hy])
      · simp only [List.map_cons, inTurn]
        rw [hend, hacts, performAll_congr _ hafter, ← performAll_append]
        rfl

/-! ## The same, together and in turn -/

/-- An answer for many objects that says what the answers for each of them say. -/
inductive Reply.Gathers {ρ : Type} : Reply ρ τ → List (Reply ρ τ) → Prop
  | values (vs : List (Option τ)) : Gathers (.values vs) (vs.map .value)
  | count (flags : List Bool) : Gathers (.count (flags.count true)) (flags.map .flag)

/-- A call for many objects and calls in turn have come to the same: the same answers, the same
questions, and the same world but for the log, the record of store calls, and failed reads that the
calls in turn have counted on top. -/
structure Alike {ρ : Type} (together : Except (Failure ε) (Reply ρ τ) × World Base (List κ))
    (turns : List (Except (Failure ε) (Reply ρ τ)) × World Base (List κ)) (extra : Nat) :
    Prop where
  answers : ∃ reply replies, together.1 = .ok reply ∧ turns.1 = replies.map .ok ∧
    reply.Gathers replies
  world : turns.2.bare = (together.2.count Stats.addStoreError^[extra]).bare

variable {ρ : Type} {extra : Nat}

theorem alike_of_values {many : Outcome Base (List κ) ε (List (Option τ))}
    {one : κ → Outcome Base (List κ) ε (Option τ)} {values : List (Option τ)}
    (htogether : (many w).1 = .ok values) (hturns : (inTurn (xs.map one) w).1 = values.map .ok)
    (hworld : (inTurn (xs.map one) w).2.bare = ((many w).2.count Stats.addStoreError^[extra]).bare) :
    Alike (ρ := ρ) (Request.wrap .values many w)
      (inTurn (xs.map fun x => Request.wrap .value (one x)) w) extra := by
  have hwrap : (xs.map fun x => Request.wrap .value (one x)) =
      ((xs.map one).map (Request.wrap .value) : List (Outcome Base (List κ) ε (Reply ρ τ))) := by
    rw [List.map_map]
    rfl
  rw [hwrap, inTurn_wrap, Request.wrap_eq]
  refine ⟨⟨.values values, values.map .value, by rw [htogether]; rfl, ?_, .values values⟩, hworld⟩
  rw [hturns, List.map_map, List.map_map]
  rfl

theorem alike_of_sums {many : Outcome Base (List κ) ε (List (Option τ))}
    {one : κ → Outcome Base (List κ) ε (Option τ)} {act : κ → Act κ τ}
    (hmany : SumUp (xs.map act) ttl many w) (hone : ∀ x ∈ xs, ∀ w, (act x).Sums ttl (one x) w) :
    Alike (ρ := ρ) (Request.wrap .values many w)
      (inTurn (xs.map fun x => Request.wrap .value (one x)) w) 0 := by
  obtain ⟨hanswers, hworld⟩ := inTurn_of_sums (w := w) (fun x _ => act x) hone
    (fun _ _ _ _ => rfl) (List.pairwise_of_forall fun _ _ _ => rfl)
  refine alike_of_values hmany.1 ?_ (hworld.trans hmany.2.symm)
  rw [hanswers, List.map_map, List.map_map]
  rfl

/-! ## Reads -/

theorem World.count_addStoreError (n : Nat) :
    w.count (Stats.addStoreError^[n]) = w.charge (n • Stats.addStoreError 0) [] := by
  induction n with
  | zero => simp [World.count]
  | succ n ih =>
      rw [Function.iterate_succ', succ_nsmul, ← List.append_nil [], ← World.charge_charge, ← ih,
        ← World.count_eq_charge Stats.isCharge_addStoreError]
      rfl

namespace Cache

/-- The act of a read in some world. -/
def readActIn (c : Cache Base) (o : Options) (f : κ → Option τ) (keyOf : κ → Key) (x : κ)
    (w : World Base (List κ)) : Act κ τ :=
  (c.readAct f x (keyOf x) (c.found o τ (w.scene.view (keyOf x)))).paying
    (failCost o w.scene.contents.failsReads)

theorem readActIn_eq {x : κ} (h : v.scene.view (keyOf x) = w.scene.view (keyOf x)) :
    c.readActIn o f keyOf x v = c.readActIn o f keyOf x w := by
  have hfails : v.scene.contents.failsReads = w.scene.contents.failsReads :=
    congrArg View.fails h
  rw [readActIn, readActIn, h, hfails]

theorem key_of_readActIn {x : κ} {p : PendingWrite}
    (h : (c.readActIn o f keyOf x w).write = some p) : p.key = keyOf x := by
  unfold readActIn readAct Act.paying at h
  split at h
  · cases h
  · exact key_of_writeOf h

section
variable (hstore : c.store = Base.store) (hinline : o.writeBack = .inline)
  (henabled : c.config.disabled = false)
include hstore hinline henabled

/-- Reads in turn pay for a question each. -/
theorem read_inTurn (hnulls : o.addNulls = true) (hposition : o.keysFromResults = false)
    (hkeys : ∀ x ∈ xs, c.keys.keyFor o.keyspace x = .ok (keyOf x)) (hnodup : (xs.map keyOf).Nodup) :
    let acts := xs.map (c.batchAct o f keyOf (xs.map keyOf) w.scene)
    let turns := inTurn (xs.map fun x => c.read o x (askOne f x : Computation _ _ ε _)) w
    turns.1 = (acts.map (·.value)).map .ok ∧ turns.2.bare = (performAll (c.ttl o) acts
      (w.charge (xs.length • failCost o w.scene.contents.failsReads) [])).bare := by
  have hact : ∀ x ∈ xs, c.readActIn o f keyOf x w =
      (c.batchAct o f keyOf (xs.map keyOf) w.scene x).paying
        (failCost o w.scene.contents.failsReads) := fun x hx => by
    rw [readActIn, readAct_eq_batchAct hstore hnulls (List.mem_map_of_mem hx)]
  obtain ⟨hanswers, hworld⟩ := inTurn_of_sums (w := w)
    (c.readActIn o f keyOf) (fun x hx w => sums_read hstore hinline henabled hposition (hkeys x hx))
    (fun x v w h => readActIn_eq <| by
      rw [← Scene.view_bare, ← World.scene_bare, h, World.scene_bare, Scene.view_bare])
    -- A read writes under its own key at most, where the later ones do not look.
    ((List.pairwise_map.mp hnodup).imp fun hne w => readActIn_eq <|
      view_performAll_singleton fun p hp => key_of_readActIn hp ▸ hne)
  intro acts turns
  refine ⟨?_, ?_⟩
  · rw [hanswers, List.map_map, List.map_map]
    exact List.map_congr_left fun x hx => by rw [hact x hx]; rfl
  · rw [hworld, List.map_congr_left hact, performAll_paying]

theorem alike_read (hnulls : o.addNulls = true) (hskip : o.skipNulls = false)
    (hposition : o.keysFromResults = false)
    (hkeys : Batch.Assigns c.keys o.keyspace xs keyOf) (hnodup : (xs.map keyOf).Nodup) :
    ∃ extra, Alike (ρ := ρ) (Request.wrap .values (c.readMany o xs (askAll f)) w)
        (inTurn (xs.map fun x => Request.wrap .value
          (c.read o x (askOne f x : Computation _ _ ε _))) w) extra ∧
      (extra ≠ 0 → o.bypass = false ∧ w.scene.contents.failsReads = true ∧ 1 < xs.length) := by
  obtain ⟨hanswers, hworld⟩ := read_inTurn (ε := ε) (f := f) (w := w) hstore hinline henabled hnulls
    hposition (hkeys.own hnodup) hnodup
  let fails := w.scene.contents.failsReads
  let extra := if o.bypass = false ∧ fails = true then xs.length - 1 else 0
  have hextra : xs ≠ [] → xs.length • failCost o fails =
      failCost o fails + extra • Stats.addStoreError 0 := fun hne => by
    obtain ⟨n, hn⟩ := Nat.exists_eq_add_one.mpr (List.length_pos_iff.mpr hne)
    unfold extra failCost
    split
    · rw [hn, succ_nsmul', Nat.add_sub_cancel]
    · simp
  refine ⟨extra, ?_, ?_⟩
  · by_cases hne : xs = []
    · subst hne
      have hnone : (c.readMany o [] (askAll f) w : Except (Failure ε) _ × _) = (.ok [], w) :=
        if_pos rfl
      have hextra : extra = 0 := by simp [extra]
      exact alike_of_values (congrArg Prod.fst hnone) rfl (by rw [hnone, hextra]; rfl)
    · obtain ⟨htogether, hend⟩ := readMany_eq_performAll (ε := ε) (f := f) (w := w) hstore hinline
        henabled hnulls hskip hposition hne hkeys hnodup
      refine alike_of_values htogether hanswers ?_
      rw [hworld, hextra hne, World.count_addStoreError, World.bare_charge, hend,
        ← World.bare_charge, ← performAll_charge, World.charge_charge]
      rfl
  · intro hne
    simp only [extra, ne_eq, ite_eq_right_iff, not_forall] at hne
    obtain ⟨⟨hbypass, hfails⟩, hlength⟩ := hne
    exact ⟨hbypass, hfails, by omega⟩

/-! ## Writes -/

theorem alike_write (hnulls : o.addNulls = true) (hvalid : o.validate = .ok ())
    (hkeys : ∀ x ∈ xs, c.keys.keyFor o.keyspace x = .ok (keyOf x)) (hnodup : (xs.map keyOf).Nodup) :
    Alike (ρ := ρ) (Request.wrap .values (c.writeMany o xs (askAll f xs)) w)
      (inTurn (xs.map fun x => Request.wrap .value
        (c.write o x (askOne f x : Computation _ _ ε _))) w) 0 :=
  alike_of_sums (sumUp_writeMany hstore hinline henabled hnulls hvalid hkeys hnodup)
    fun x hx _ => sums_write hstore hinline henabled (hkeys x hx)

theorem alike_writeByResult (hvalid : o.validate = .ok ())
    (hkind : c.registry.isRegistered τ = true) {rowKey : τ → Key}
    (hkeys : ∀ v ∈ xs.filterMap f, c.keys.keyForResult o.keyspace v = .ok (rowKey v))
    (hnodup : ((xs.filterMap f).map rowKey).Nodup) :
    Alike (ρ := ρ) (Request.wrap .values (c.writeManyByResult o (askAll f xs)) w)
      (inTurn (xs.map fun x => Request.wrap .value
        (c.writeByResult o (askOne f x : Computation _ _ ε _))) w) 0 :=
  alike_of_sums (sumUp_writeManyByResult hstore hinline henabled hvalid hkind hkeys hnodup)
    fun x hx _ => sums_writeByResult hstore hinline henabled hvalid hkind
      fun v hv => hkeys v (List.mem_filterMap.mpr ⟨x, hx, hv⟩)

end

end Cache

end CacheAside

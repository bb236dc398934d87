import CacheAside.Proofs.Detached
import CacheAside.Proofs.InStep
import CacheAside.Proofs.ReadYourWrites

/-!
# Pending writes

The writes that a request ends with. They are the same whether they are made at once or left behind,
and no two of them go to one key.
-/

namespace CacheAside

variable {σ υ ε ρ α β : Type} {κ τ : Kind}

/-- Writes to different keys. -/
def Apart (writes : List PendingWrite) : Prop := (writes.map (·.key)).Nodup

theorem apart_of_length_le {writes : List PendingWrite} (h : writes.length ≤ 1) : Apart writes := by
  match writes, h with
  | [], _ => exact .nil
  | [p], _ => exact List.nodup_singleton _

/-! ## Rows -/

/-- Rows with different keys, each with at most one write, in their order. -/
structure Rows.Distinct (r : Rows τ) : Prop where
  keys : r.keys.Nodup
  writes : (r.writes.map (·.key)).Sublist r.keys

namespace Rows.Distinct

variable {r : Rows τ}

theorem empty : ({} : Rows τ).Distinct := ⟨.nil, .slnil⟩

theorem add (h : r.Distinct) {key : Key} (hkey : key ∉ r.keys) (v : τ) (bytes : Option Bytes) :
    (r.add key v bytes).Distinct where
  keys := by
    rw [Cache.keys_add, ← List.concat_eq_append]
    exact h.keys.concat hkey
  writes := by
    rw [Cache.keys_add, Rows.add, List.map_append]
    exact h.writes.append (by cases bytes <;> simp)

theorem apart (h : r.Distinct) : Apart r.writes := h.keys.sublist h.writes

end Rows.Distinct

theorem Lockstep.eq {p q : α × World σ υ} (h : Lockstep Eq p q) : p = q :=
  Prod.ext h.answer h.states

namespace Cache

variable {c : Cache σ} {o : Options} {w : World σ υ}

/-- A row whose key has been there is passed over. -/
theorem distinct_collectRows {ns : String} {note : Key → World σ υ → World σ υ} {vs : List τ}
    {done found : Rows τ} (h : done.Distinct)
    (hfound : (c.collectRows ns note vs done w).1 = .ok found) : found.Distinct := by
  induction vs generalizing done w with
  | nil => exact Except.ok.inj hfound ▸ h
  | cons v vs ih =>
      simp only [collectRows] at hfound
      split at hfound
      · cases hfound
      · split at hfound
        · exact ih h hfound
        · next hkey => exact ih (h.add hkey v _) hfound

/-! ## Alignment -/

theorem isResolved_resolveAll {b : Batch κ τ} {es : List (Key × Entry τ)} {key : Key} {e : Entry τ}
    (h : (key, e) ∈ es) : (b.resolveAll es).isResolved key = true := by
  rw [Batch.isResolved, Batch.find?_resolveAll, Option.isSome_or, Bool.or_eq_true]
  refine .inr (Option.isSome_iff_ne_none.mpr fun hnone => ?_)
  simpa using List.lookup_eq_none_iff.mp hnone _ h

theorem nodup_missed (b : Batch κ τ) : (b.missed.map (·.1)).Nodup :=
  (nodup_map_firsts Prod.fst _).sublist (List.filter_sublist.map _)

theorem apart_valueWrites (b : Batch κ τ) {pairs : List (Key × Option τ)}
    (h : (pairs.map (·.1)).Nodup) : Apart (c.valueWrites o b pairs w).1 := by
  rw [fst_valueWrites]
  exact nodup_keys_filterMap (fun _ _ hp => key_of_writeFor hp) h

theorem apart_alignByPosition {b b' : Batch κ τ} {results : List (Option τ)}
    {writes : List PendingWrite}
    (h : (c.alignByPosition o b results w).1 = .ok (writes, b')) : Apart writes := by
  unfold alignByPosition at h
  simp only at h
  split at h
  · next hlength =>
      obtain ⟨rfl, -⟩ := Prod.mk.inj (Except.ok.inj h)
      refine apart_valueWrites b ?_
      rw [List.map_fst_zip (Nat.le_of_eq hlength.symm)]
      exact nodup_missed b
  · cases h

/-- A missed key is written as null only if no row has it. -/
theorem apart_alignByKey {b b' : Batch κ τ} {results : List (Option τ)}
    {writes : List PendingWrite}
    (h : (c.alignByKey o b results w).1 = .ok (writes, b')) : Apart writes := by
  unfold alignByKey at h
  simp only at h
  split at h
  · cases h
  · next found w₁ hcollect =>
      have hfound : found.Distinct := distinct_collectRows .empty (congrArg Prod.fst hcollect)
      obtain ⟨rfl, -⟩ := Prod.mk.inj (Except.ok.inj h)
      have hnulls : ∀ empty : List Key, (empty.map fun key => (key, (none : Option τ))).map (·.1) =
          empty := fun empty => by rw [List.map_map]; exact List.map_id empty
      rw [Apart, List.map_append]
      refine hfound.apart.append (apart_valueWrites _ ?_) fun key hrow hnull => ?_
      · rw [hnulls]
        exact (nodup_missed b).filter _
      · obtain ⟨p, hp, rfl⟩ := List.mem_map.mp hnull
        have hempty := key_of_valueWrites hp
        rw [hnulls] at hempty
        obtain ⟨hmissed, hunresolved⟩ := List.mem_filter.mp hempty
        obtain ⟨row, hrow, hkey⟩ := List.mem_map.mp (hfound.writes.subset hrow)
        rw [isResolved_resolveAll (e := .value row.2)] at hunresolved
        · cases hunresolved
        · refine List.mem_map.mpr ⟨row, List.mem_filter.mpr ⟨hrow, ?_⟩, by rw [← hkey]⟩
          simpa [hkey] using hmissed

/-! ## The time of the writes -/

/-- What comes in front of the writes does not depend on when they are made. -/
theorem closes_eq (m m' : WriteBack) :
    c.Closes (fun _ => True) (Eq : World σ υ → World σ υ → Prop) (fun _ _ => True) m m' where
  encode _ _ _ _ h := by cases h; exact ⟨rfl, rfl⟩
  note _ _ _ _ h := by cases h; rfl
  write _ _ _ _ _ _ := trivial
  done _ _ _ := trivial

theorem alignByKey_inMode (c : Cache σ) (o : Options) (m : WriteBack) (b : Batch κ τ) :
    c.alignByKey (υ := υ) (o.inMode m) b = c.alignByKey o b :=
  funext fun results => funext fun w =>
    ((closes_eq m o.writeBack).alignByKey (o := o) b results (v := w) rfl).eq

theorem alignByPosition_inMode (c : Cache σ) (o : Options) (m : WriteBack) (b : Batch κ τ) :
    c.alignByPosition (υ := υ) (o.inMode m) b = c.alignByPosition o b :=
  funext fun results => funext fun w =>
    ((closes_eq m o.writeBack).alignByPosition (o := o) b results (v := w) rfl).eq

theorem firstWrites_inMode (c : Cache σ) (o : Options) (m : WriteBack)
    (pairs : List (Key × Option τ)) (w : World σ υ) :
    c.firstWrites (o.inMode m) pairs [] w = c.firstWrites o pairs [] w :=
  ((closes_eq m o.writeBack).firstWrites (o := o) pairs [] rfl).eq

/-- Two runs, of which one makes its writes at once and the other leaves them behind, end with the
same writes to different keys. -/
def EndApart (c : Cache σ) (o : Options) (p q : Except (Failure ε) α × World σ υ) : Prop :=
  ∃ writes, Apart writes ∧ ∃ answer w₁,
    p = (answer, c.writeBack (o.inMode .inline) writes w₁) ∧
    q = (answer, c.writeBack (o.inMode .detached) writes w₁)

theorem EndApart.wrap {f g : Outcome σ υ ε α} {form : α → β} (h : c.EndApart o (f w) (g w)) :
    c.EndApart o (Request.wrap form f w) (Request.wrap form g w) := by
  obtain ⟨writes, hapart, answer, w₁, hf, hg⟩ := h
  refine ⟨writes, hapart, answer.map form, w₁, ?_, ?_⟩
  · rw [Request.wrap_eq, hf]
  · rw [Request.wrap_eq, hg]

theorem endApart_self (p : Except (Failure ε) α × World σ υ) : c.EndApart o p p :=
  ⟨[], .nil, p.1, p.2, rfl, rfl⟩

theorem endApart_storeValue (answer : Except (Failure ε) α) (key : Key) (v : Option τ)
    (mode : WriteMode) :
    c.EndApart o (answer, c.storeValue (o.inMode .inline) key v mode w)
      (answer, c.storeValue (o.inMode .detached) key v mode w) := by
  rw [storeValue_eq, storeValue_eq]
  exact ⟨_, apart_of_length_le Option.length_toList_le, answer, _, rfl, rfl⟩

section
variable {x : κ} {xs : List κ} {compute : Computation σ υ ε (Option τ)}
  {computeMany : Computation σ υ ε (List (Option τ))}
  {source : List κ → Computation σ υ ε (List (Option τ))}

theorem endApart_read : c.EndApart o (c.read (o.inMode .inline) x compute w)
    (c.read (o.inMode .detached) x compute w) := by
  simp only [read, o.inMode_rest, lookup_inMode]
  split
  · exact endApart_self _
  rcases o.validate with e | u
  · exact endApart_self _
  simp only
  split
  · exact endApart_self _
  rcases c.keys.keyFor o.keyspace x with e | key
  · exact endApart_self _
  simp only
  rcases c.lookup o τ key w with ⟨e | stale, w₁⟩
  · exact endApart_self _
  simp only
  rcases compute (w₁.count (Stats.addMisses 1)) with ⟨e | v, w₂⟩
  · exact endApart_self _
  · exact endApart_storeValue _ key v _

theorem endApart_readMany : c.EndApart o (c.readMany (o.inMode .inline) xs source w)
    (c.readMany (o.inMode .detached) xs source w) := by
  simp only [readMany, o.inMode_rest, fetch_inMode, alignByKey_inMode, alignByPosition_inMode]
  split
  · exact endApart_self _
  split
  · exact endApart_self _
  rcases o.validate with e | u
  · exact endApart_self _
  simp only
  rcases (if o.keysFromResults then c.checkResultKind τ else .ok ()) with e | u
  · exact endApart_self _
  simp only
  rcases (Batch.build c.keys o.keyspace xs : Except ConfigError (Batch κ τ)) with e | b
  · exact endApart_self _
  simp only
  rcases c.fetch o b w with ⟨b₁, w₁⟩
  simp only
  generalize (w₁.count _).count _ = w₂
  split
  · exact endApart_self _
  generalize source _ w₂ = answered
  rcases answered with ⟨e | results, w₃⟩
  · exact endApart_self _
  simp only
  -- Whichever way the results are aligned, what is to be written goes to different keys.
  have hapart : ∀ writes b' w',
      (if o.keysFromResults then c.alignByKey o b₁ else c.alignByPosition o b₁) results w₃ =
        (.ok (writes, b'), w') → Apart writes := by
    intro writes b' w' halign
    split at halign
    · exact apart_alignByKey (congrArg Prod.fst halign)
    · exact apart_alignByPosition (congrArg Prod.fst halign)
  rcases halign : (if o.keysFromResults then c.alignByKey o b₁ else c.alignByPosition o b₁) results
    w₃ with ⟨e | ⟨writes, b₂⟩, w₄⟩
  · exact endApart_self _
  · simp only [finish, o.inMode_rest]
    cases b₂.assemble o.skipNulls <;> exact ⟨writes, hapart _ _ _ halign, _, w₄, rfl, rfl⟩

theorem endApart_write : c.EndApart o (c.write (o.inMode .inline) x compute w)
    (c.write (o.inMode .detached) x compute w) := by
  simp only [write, o.inMode_rest]
  split
  · exact endApart_self _
  rcases o.validate with e | u
  · exact endApart_self _
  rcases c.keys.keyFor o.keyspace x with e | key
  · exact endApart_self _
  rcases compute w with ⟨e | v, w₁⟩
  · exact endApart_self _
  · exact endApart_storeValue _ key v _

theorem endApart_writeByResult : c.EndApart o (c.writeByResult (o.inMode .inline) compute w)
    (c.writeByResult (o.inMode .detached) compute w) := by
  simp only [writeByResult, o.inMode_rest]
  split
  · exact endApart_self _
  rcases o.validate with e | u
  · exact endApart_self _
  rcases c.checkResultKind τ with e | u
  · exact endApart_self _
  rcases compute w with ⟨e | _ | v, w₁⟩
  · exact endApart_self _
  · exact endApart_self _
  simp only
  rcases c.keys.keyForResult o.keyspace v with e | key
  · exact endApart_self _
  · exact endApart_storeValue _ key (some v) _

theorem endApart_writeMany : c.EndApart o (c.writeMany (o.inMode .inline) xs computeMany w)
    (c.writeMany (o.inMode .detached) xs computeMany w) := by
  simp only [writeMany, o.inMode_rest, firstWrites_inMode]
  split
  · exact endApart_self _
  rcases o.validate with e | u
  · exact endApart_self _
  rcases c.keysFor o.keyspace xs with e | keys
  · exact endApart_self _
  rcases computeMany w with ⟨e | results, w₁⟩
  · exact endApart_self _
  simp only
  split
  · refine ⟨_, ?_, _, _, rfl, rfl⟩
    rw [overwrites_of_firstWrites]
    exact nodup_overwrites _ _
  · exact endApart_self _

theorem endApart_writeManyByResult :
    c.EndApart o (c.writeManyByResult (o.inMode .inline) computeMany w)
      (c.writeManyByResult (o.inMode .detached) computeMany w) := by
  simp only [writeManyByResult, o.inMode_rest]
  split
  · exact endApart_self _
  rcases o.validate with e | u
  · exact endApart_self _
  rcases c.checkResultKind τ with e | u
  · exact endApart_self _
  rcases computeMany w with ⟨e | results, w₁⟩
  · exact endApart_self _
  simp only
  rcases hcollect : c.collectRows o.keyspace (fun _ w => w) (results.filterMap id) {} w₁ with
    ⟨e | found, w₂⟩
  · exact endApart_self _
  · exact ⟨_, (distinct_collectRows .empty (congrArg Prod.fst hcollect)).apart, _, _, rfl, rfl⟩

end

/-! ## What is left behind -/

theorem pending_inline (o : Options) (writes : List PendingWrite) (w : World σ υ) :
    (c.writeBack (o.inMode .inline) writes w).pending = w.pending := by
  rw [writeBack_inline rfl, pending_runJob]

theorem pending_detached (o : Options) (writes : List PendingWrite)
    (hexecutor : (c.writeBack (o.inMode .detached) writes w).executor = true) :
    (c.writeBack (o.inMode .detached) writes w).pending =
      w.pending ++ if writes = [] then [] else [⟨writes, c.ttl o⟩] := by
  rw [executor_writeBack] at hexecutor
  by_cases hnil : writes = []
  · simp [writeBack, hnil]
  · simp [writeBack, hnil, Options.inMode, hexecutor, Cache.ttl, Options.ttlOr]

end Cache

namespace Request

variable {c : Cache σ} {w : World σ υ}

/-- A request ends with these writes, whenever they are to be made. -/
def Pends (c : Cache σ) (r : Request σ υ ε ρ κ τ) (w : World σ υ) (writes : List PendingWrite) :
    Prop :=
  ∃ answer w₁, ∀ m, (r.inMode m).run c w =
    (answer, c.writeBack (r.options.inMode m) writes w₁)

/-- Where something runs jobs later, a request has no other pending writes. -/
theorem Pends.unique {r : Request σ υ ε ρ κ τ} {writes writes' : List PendingWrite}
    (h : r.Pends c w writes) (h' : r.Pends c w writes')
    (hexecutor : ((r.inMode .detached).run c w).2.executor = true) : writes' = writes := by
  obtain ⟨answer, w₁, hrun⟩ := h
  obtain ⟨answer', w₂, hrun'⟩ := h'
  have hnow : w₁.pending = w₂.pending := by
    rw [← Cache.pending_inline r.options writes w₁, ← Cache.pending_inline r.options writes' w₂]
    exact congrArg (fun p : Except (Failure ε) (Reply ρ τ) × World σ υ => p.2.pending)
      ((hrun .inline).symm.trans (hrun' .inline))
  have hlater := congrArg (fun p : Except (Failure ε) (Reply ρ τ) × World σ υ => p.2.pending)
    ((hrun .detached).symm.trans (hrun' .detached))
  have hexecutor' := hexecutor
  rw [hrun] at hexecutor
  rw [hrun'] at hexecutor'
  simp only [Cache.pending_detached _ _ hexecutor, Cache.pending_detached _ _ hexecutor', hnow]
    at hlater
  have hjobs := List.append_cancel_left hlater
  -- Either run leaves one job behind with all of its writes, or none for none.
  by_cases hnil : writes = []
  · by_cases hnil' : writes' = []
    · rw [hnil, hnil']
    · simp [hnil, hnil'] at hjobs
  · by_cases hnil' : writes' = []
    · simp [hnil, hnil'] at hjobs
    · rw [if_neg hnil, if_neg hnil'] at hjobs
      exact congrArg Job.writes (List.singleton_inj.mp hjobs).symm

theorem exists_pends (c : Cache σ) (r : Request σ υ ε ρ κ τ) (w : World σ υ) :
    ∃ writes, r.Pends c w writes ∧ Apart writes := by
  have hends : c.EndApart r.options ((r.inMode .inline).run c w)
      ((r.inMode .detached).run c w) := by
    cases r with
    | read o x compute => exact Cache.endApart_read.wrap
    | readMany o xs source => exact Cache.endApart_readMany.wrap
    | write o x compute => exact Cache.endApart_write.wrap
    | writeMany o xs compute => exact Cache.endApart_writeMany.wrap
    | writeByResult o compute => exact Cache.endApart_writeByResult.wrap
    | writeManyByResult o compute => exact Cache.endApart_writeManyByResult.wrap
    -- To delete takes no notice of the time of the writes.
    | invalidate | invalidateMany | invalidateAround | invalidateManyAround
    | invalidateByResult | invalidateManyByResult => exact Cache.endApart_self _
  obtain ⟨writes, hapart, answer, w₁, hinline, hdetached⟩ := hends
  refine ⟨writes, ⟨answer, w₁, fun m => ?_⟩, hapart⟩
  cases m with
  | inline => exact hinline
  | detached => exact hdetached

end Request

end CacheAside

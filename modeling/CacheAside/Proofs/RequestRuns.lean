import CacheAside.Proofs.ReadsByKey
import CacheAside.Proofs.ReadsByPosition
import CacheAside.Proofs.RequestFaults

/-!
# Requests that fail

After its checks a request asks its source at most once, with at most one read or the deletes of an
early invalidation before it. If the source fails, or what it answers does not fit, nothing is
written, deleted or left behind.
-/

namespace CacheAside.Request

variable {σ υ ε ρ : Type} {κ τ : Kind} {c : Cache σ} {w : World σ υ}

/-! ## Verdicts -/

theorem resultCount_eq_ok {expected got : Nat} :
    resultCount expected got = .ok () ↔ got = expected := by
  unfold resultCount
  split
  · simpa
  · simpa

theorem resultCount_eq_error {expected got : Nat} {e : CacheError} :
    resultCount expected got = .error e ↔
      got ≠ expected ∧ .reconciliation (.lengthMismatch expected got) = e := by
  unfold resultCount
  split
  · rename_i h
    simp [h]
  · rename_i h
    simp [h]

theorem resultKeys_eq_error {o : Options} {vs : List τ} {e : CacheError}
    (h : resultKeys c o vs = .error e) :
    ∃ e', vs.mapM (c.keys.keyForResult o.keyspace) = .error e' ∧ .config e' = e := by
  unfold resultKeys at h
  cases hkeys : vs.mapM (c.keys.keyForResult o.keyspace) with
  | ok keys => simp [hkeys] at h
  | error e' => exact ⟨e', rfl, by simpa [hkeys] using h⟩

theorem resultKeys_eq_ok {o : Options} {vs : List τ} (h : resultKeys c o vs = .ok ()) :
    ∃ rowKey : τ → Key, ∀ v ∈ vs, c.keys.keyForResult o.keyspace v = .ok (rowKey v) := by
  unfold resultKeys at h
  cases hkeys : vs.mapM (c.keys.keyForResult o.keyspace) with
  | error e => simp [hkeys] at h
  | ok keys => exact exists_of_mapM_ok hkeys

/-! ## Other requests -/

/-- How a request goes on that asks its source, for `asked`, in the world `w₁`. -/
def Asks (c : Cache σ) (r : Request σ υ ε ρ κ τ) (w : World σ υ) (asked : List κ)
    (w₁ : World σ υ) : Prop :=
  ∃ source, r.source? asked = some source ∧
    (∀ e w₂, source w₁ = (.error e, w₂) → r.run c w = (.error (.source e), w₂)) ∧
    ∀ reply w₂, source w₁ = (.ok reply, w₂) →
      (∀ e, r.verdict c asked reply = .error e →
        ∃ w₃, c.store.Noted w₂ w₃ ∧ r.run c w = (.error (.refused e), w₃)) ∧
      (r.verdict c asked reply = .ok () → ∃ reply' w₃, r.run c w = (.ok reply', w₃))

theorem asks_of_compute {α : Type} {r : Request σ υ ε ρ κ τ} {asked : List κ} {w₁ : World σ υ}
    {compute : Computation σ υ ε α} {form : α → Reply ρ τ}
    (hsource : r.source? asked = some (compute.inForm form))
    (herror : ∀ e w₂, compute w₁ = (.error e, w₂) → r.run c w = (.error (.source e), w₂))
    (hbad : ∀ a w₂ e, compute w₁ = (.ok a, w₂) → r.verdict c asked (form a) = .error e →
      ∃ w₃, c.store.Noted w₂ w₃ ∧ r.run c w = (.error (.refused e), w₃))
    (hgood : ∀ a w₂, compute w₁ = (.ok a, w₂) → r.verdict c asked (form a) = .ok () →
      ∃ reply w₃, r.run c w = (.ok reply, w₃)) : r.Asks c w asked w₁ := by
  refine ⟨_, hsource, fun e w₂ h => herror e w₂ (Computation.eq_error_of_inForm h),
    fun reply w₂ h => ?_⟩
  obtain ⟨a, hcompute, rfl⟩ := Computation.exists_of_inForm h
  exact ⟨fun e => hbad a w₂ e hcompute, hgood a w₂ hcompute⟩

/-- A request for one result whose key matters. -/
theorem asks_of_result {r : Request σ υ ε ρ κ τ} {o : Options} {asked : List κ} {w₁ : World σ υ}
    {compute : Computation σ υ ε (Option τ)}
    (hsource : r.source? asked = some (compute.inForm .value))
    (hverdict : ∀ v, r.verdict c asked (.value v) = resultKeys c o v.toList)
    (herror : ∀ e w₂, compute w₁ = (.error e, w₂) → r.run c w = (.error (.source e), w₂))
    (hbad : ∀ v w₂ e, compute w₁ = (.ok (some v), w₂) →
      c.keys.keyForResult o.keyspace v = .error e →
      r.run c w = (.error (.refused (.config e)), w₂))
    (hnone : ∀ w₂, compute w₁ = (.ok none, w₂) → ∃ reply w₃, r.run c w = (.ok reply, w₃))
    (hsome : ∀ v w₂ key, compute w₁ = (.ok (some v), w₂) →
      c.keys.keyForResult o.keyspace v = .ok key → ∃ reply w₃, r.run c w = (.ok reply, w₃)) :
    r.Asks c w asked w₁ := by
  refine asks_of_compute hsource herror (fun v w₂ e hcall hv => ?_) fun v w₂ hcall hv => ?_
  · rw [hverdict] at hv
    obtain ⟨e', he', rfl⟩ := resultKeys_eq_error hv
    cases v with
    | none => cases he'
    | some v => exact ⟨w₂, .refl w₂, hbad v w₂ e' hcall (mapM_singleton_error.mp he')⟩
  · rw [hverdict] at hv
    obtain ⟨rowKey, hrows⟩ := resultKeys_eq_ok hv
    cases v with
    | none => exact hnone w₂ hcall
    | some v => exact hsome v w₂ (rowKey v) hcall (hrows v (by simp))

/-- What an invalidation by result does, if nothing is wrong with it: it asks its source and deletes
the keys of the rows in the answer. -/
def deletingRows {α : Type} (c : Cache σ) (o : Options) (form : α → Reply ρ τ) (rows : α → List τ)
    (compute : Computation σ υ ε α) : Outcome σ υ ε (Reply ρ τ) := fun w =>
  match compute w with
  | (.error e, w) => (.error (.source e), w)
  | (.ok a, w) =>
    match (rows a).mapM (c.keys.keyForResult o.keyspace) with
    | .error e => (.error (.refused (.config e)), w)
    | .ok keys => (.ok (form a), (c.deleteAll keys.eraseDups w).2)

section
variable (henabled : c.config.disabled = false)
include henabled

theorem asks_write {o : Options} {x : κ} {compute : Computation σ υ ε (Option τ)}
    (h : (write o x compute : Request σ υ ε ρ κ τ).Valid c) :
    (write o x compute : Request σ υ ε ρ κ τ).Asks c w [] w := by
  obtain ⟨key, hkey⟩ := h.objects x List.mem_cons_self
  have hvalid : o.validate = .ok () := h.options
  have hkey : c.keys.keyFor o.keyspace x = .ok key := hkey
  refine asks_of_compute rfl (fun e w₂ hsource => ?_) (fun v w₂ e _ hbad => by cases hbad)
    fun v w₂ hsource _ => ?_
  · simp [run, wrap, Cache.write, henabled, hvalid, hkey, hsource]
  · refine ⟨.value v, c.storeValue o key v .overwrite w₂, ?_⟩
    simp [run, wrap, Cache.write, henabled, hvalid, hkey, hsource]

theorem asks_writeMany {o : Options} {xs : List κ} {compute : Computation σ υ ε (List (Option τ))}
    (h : (writeMany o xs compute : Request σ υ ε ρ κ τ).Valid c) :
    (writeMany o xs compute : Request σ υ ε ρ κ τ).Asks c w [] w := by
  obtain ⟨keyOf, hkeyOf⟩ := h.exists_keyOf
  have hvalid : o.validate = .ok () := h.options
  have hkeys : c.keysFor o.keyspace xs = .ok (xs.map keyOf) := Cache.keysFor_eq_ok hkeyOf
  refine asks_of_compute rfl (fun e w₂ hsource => ?_) (fun results w₂ e hsource hbad => ?_)
    fun results w₂ hsource hgood => ?_
  · simp [run, wrap, Cache.writeMany, henabled, hvalid, hkeys, hsource]
  · obtain ⟨hlength, rfl⟩ := resultCount_eq_error.mp hbad
    refine ⟨w₂, .refl w₂, ?_⟩
    simp [run, wrap, Cache.writeMany, henabled, hvalid, hkeys, hsource, hlength]
  · have hlength : results.length = xs.length := resultCount_eq_ok.mp hgood
    let writes := c.firstWrites o ((xs.map keyOf).zip results) [] w₂
    refine ⟨.values results, c.writeBack o writes.1 writes.2, ?_⟩
    simp [run, wrap, Cache.writeMany, henabled, hvalid, hkeys, hsource, hlength, writes]

theorem asks_writeByResult {o : Options} {compute : Computation σ υ ε (Option τ)}
    (h : (writeByResult o compute : Request σ υ ε ρ κ τ).Valid c) :
    (writeByResult o compute : Request σ υ ε ρ κ τ).Asks c w [] w := by
  have hvalid : o.validate = .ok () := h.options
  have hcheck : c.checkResultKind τ = .ok () := by simp [Cache.checkResultKind, h.kind rfl]
  refine asks_of_result rfl (fun _ => rfl) (fun e w₂ hsource => ?_) (fun v w₂ e hsource hkey => ?_)
    (fun w₂ hsource => ?_) fun v w₂ key hsource hkey => ?_
  · simp [run, wrap, Cache.writeByResult, henabled, hvalid, hcheck, hsource]
  · simp [run, wrap, Cache.writeByResult, henabled, hvalid, hcheck, hsource, hkey, refuse]
  · refine ⟨.value none, w₂, ?_⟩
    simp [run, wrap, Cache.writeByResult, henabled, hvalid, hcheck, hsource]
  · refine ⟨.value (some v), c.storeValue o key (some v) .overwrite w₂, ?_⟩
    simp [run, wrap, Cache.writeByResult, henabled, hvalid, hcheck, hsource, hkey]

theorem asks_writeManyByResult {o : Options} {compute : Computation σ υ ε (List (Option τ))}
    (h : (writeManyByResult o compute : Request σ υ ε ρ κ τ).Valid c) :
    (writeManyByResult o compute : Request σ υ ε ρ κ τ).Asks c w [] w := by
  have hvalid : o.validate = .ok () := h.options
  have hcheck : c.checkResultKind τ = .ok () := by simp [Cache.checkResultKind, h.kind rfl]
  have hnote : ∀ (key : Key) (w : World σ υ), c.store.Noted w w := fun _ w => .refl w
  refine asks_of_compute rfl (fun e w₂ hsource => ?_) (fun results w₂ e hsource hbad => ?_)
    fun results w₂ hsource hgood => ?_
  · simp [run, wrap, Cache.writeManyByResult, henabled, hvalid, hcheck, hsource]
  · obtain ⟨e', he', rfl⟩ := resultKeys_eq_error hbad
    obtain ⟨w₃, hnoted, hcollect⟩ := Cache.collectRows_eq_error hnote {} w₂ he'
    refine ⟨w₃, hnoted, ?_⟩
    simp only [run, wrap, Cache.writeManyByResult, henabled, hvalid, hcheck, hsource, hcollect,
      refuse, Bool.false_eq_true, ↓reduceIte]
  · obtain ⟨rowKey, hrows⟩ := resultKeys_eq_ok hgood
    obtain ⟨w₃, -, hcollect⟩ := Cache.collectRows_of_keyed hnote w₂ hrows
    refine ⟨.values results,
      c.writeBack o (c.rowWrites rowKey (firsts rowKey (results.filterMap id))) w₃, ?_⟩
    simp only [run, wrap, Cache.writeManyByResult, henabled, hvalid, hcheck, hsource, hcollect,
      Bool.false_eq_true, ↓reduceIte]

theorem run_invalidate {o : Options} {x : κ}
    (h : (invalidate o x : Request σ υ ε ρ κ τ).Valid c) :
    let gone := c.deleteAll ((invalidate o x : Request σ υ ε ρ κ τ).keys c) w
    (invalidate o x : Request σ υ ε ρ κ τ).run c w = (.ok (.flag (decide (0 < gone.1))), gone.2) := by
  obtain ⟨keyOf, hkeyOf⟩ := h.exists_keyOf
  have hvalid : o.validate = .ok () := h.options
  have hkey : c.keys.keyFor o.keyspace x = .ok (keyOf x) := hkeyOf x List.mem_cons_self
  have hkeys : (invalidate o x : Request σ υ ε ρ κ τ).keys c = [keyOf x] := keys_eq hkeyOf
  simp [run, wrapRefusal, Cache.invalidate, henabled, hvalid, hkey, hkeys]

theorem run_invalidateMany {o : Options} {xs : List κ}
    (h : (invalidateMany o xs : Request σ υ ε ρ κ τ).Valid c) :
    let gone := c.deleteAll ((invalidateMany o xs : Request σ υ ε ρ κ τ).keys c) w
    (invalidateMany o xs : Request σ υ ε ρ κ τ).run c w = (.ok (.count gone.1), gone.2) := by
  obtain ⟨keyOf, hkeyOf⟩ := h.exists_keyOf
  have hvalid : o.validate = .ok () := h.options
  have hall : c.keysFor o.keyspace xs = .ok (xs.map keyOf) := Cache.keysFor_eq_ok hkeyOf
  have hkeys : (invalidateMany o xs : Request σ υ ε ρ κ τ).keys c = (xs.map keyOf).eraseDups :=
    keys_eq hkeyOf
  simp [run, wrapRefusal, Cache.invalidateMany, henabled, hvalid, hall, hkeys]

theorem run_invalidateByResult {o : Options} {compute : Computation σ υ ε (Option τ)}
    (h : (invalidateByResult o compute : Request σ υ ε ρ κ τ).Valid c) :
    (invalidateByResult o compute : Request σ υ ε ρ κ τ).run c w =
      deletingRows c o .value Option.toList compute w := by
  have hvalid : o.validate = .ok () := h.options
  have hcheck : c.checkResultKind τ = .ok () := by simp [Cache.checkResultKind, h.kind rfl]
  simp only [run, wrap, Cache.invalidateByResult, henabled, hvalid, hcheck, Bool.false_eq_true,
    ↓reduceIte, deletingRows]
  rcases compute w with ⟨e | _ | v, w₁⟩
  · rfl
  · rfl
  · cases hkey : c.keys.keyForResult o.keyspace v with
    | error e =>
        have hkeys : [v].mapM (c.keys.keyForResult o.keyspace) = .error e :=
          mapM_singleton_error.mpr hkey
        simp only [hkey, refuse, Option.toList_some, hkeys]
    | ok key =>
        have hkeys : [v].mapM (c.keys.keyForResult o.keyspace) = .ok [key] := by
          rw [List.mapM_cons, hkey]
          rfl
        simp only [hkey, Option.toList_some, hkeys]
        rfl

theorem run_invalidateManyByResult {o : Options} {compute : Computation σ υ ε (List (Option τ))}
    (h : (invalidateManyByResult o compute : Request σ υ ε ρ κ τ).Valid c) :
    (invalidateManyByResult o compute : Request σ υ ε ρ κ τ).run c w =
      deletingRows c o .values (·.filterMap id) compute w := by
  have hvalid : o.validate = .ok () := h.options
  have hcheck : c.checkResultKind τ = .ok () := by simp [Cache.checkResultKind, h.kind rfl]
  simp only [run, wrap, Cache.invalidateManyByResult, henabled, hvalid, hcheck, Bool.false_eq_true,
    ↓reduceIte, deletingRows]
  rcases compute w with ⟨e | results, w₁⟩
  · rfl
  · simp only
    cases (results.filterMap id).mapM (c.keys.keyForResult o.keyspace) <;> rfl

omit henabled in
theorem asks_of_deletingRows {α : Type} {r : Request σ υ ε ρ κ τ} {o : Options}
    {compute : Computation σ υ ε α} {form : α → Reply ρ τ} {rows : α → List τ}
    (hsource : r.source? [] = some (compute.inForm form))
    (hverdict : ∀ a, r.verdict c [] (form a) = resultKeys c o (rows a))
    (hrun : r.run c w = deletingRows c o form rows compute w) : r.Asks c w [] w := by
  refine asks_of_compute hsource (fun e w₂ h => ?_) (fun a w₂ e h hbad => ?_) fun a w₂ h hgood => ?_
  · rw [hrun, deletingRows, h]
  · rw [hverdict] at hbad
    obtain ⟨e', he', rfl⟩ := resultKeys_eq_error hbad
    exact ⟨w₂, .refl w₂, by rw [hrun, deletingRows, h]; simp only [he']⟩
  · rw [hverdict] at hgood
    obtain ⟨rowKey, hrows⟩ := resultKeys_eq_ok hgood
    refine ⟨form a, (c.deleteAll ((rows a).map rowKey).eraseDups w₂).2, ?_⟩
    rw [hrun, deletingRows, h]
    simp only [mapM_eq_ok hrows]

omit henabled in
/-- What an early invalidation does comes before the source, what a late one does after it. -/
theorem around_eq {α : Type} (timing : Timing) (keys : List Key) (compute : Computation σ υ ε α) :
    c.around timing keys compute w =
      match compute (if timing = .before then (c.deleteAll keys w).2 else w) with
      | (.error e, w₂) => (.error (.source e), w₂)
      | (.ok a, w₂) => (.ok a, if timing = .before then w₂ else (c.deleteAll keys w₂).2) := by
  cases timing with
  | before =>
      simp only [Cache.around, Computation.direct, ↓reduceIte]
      cases compute (c.deleteAll keys w).2 with
      | mk answer w₂ => cases answer <;> rfl
  | after =>
      simp only [Cache.around, Computation.direct, reduceCtorEq, ↓reduceIte]
      cases compute w with
      | mk answer w₂ => cases answer <;> rfl

omit henabled in
theorem asks_around {r : Request σ υ ε ρ κ τ} {compute : Computation σ υ ε ρ}
    (timing : Timing) (keys : List Key) (hsource : r.source? [] = some (compute.inForm .other))
    (hcalls : r.openingCalls c = if timing = .before then keys.map .delete else [])
    (hverdict : ∀ a, r.verdict c [] (.other a) = .ok ())
    (hrun : r.run c w = wrap .other (c.around timing keys compute) w) :
    ∃ w₁, c.store.Reaches (r.openingCalls c) w w₁ ∧ r.Asks c w [] w₁ := by
  refine ⟨if timing = .before then (c.deleteAll keys w).2 else w, ?_,
    asks_of_compute hsource (fun e w₂ h => ?_) (fun a w₂ e _ hbad => ?_) fun a w₂ h _ => ?_⟩
  · rw [hcalls]
    split
    · exact Cache.reaches_deleteAll keys
    · exact .refl w
  · rw [hrun, wrap, around_eq, h]
  · rw [hverdict] at hbad
    cases hbad
  · refine ⟨.other a, if timing = .before then w₂ else (c.deleteAll keys w₂).2, ?_⟩
    rw [hrun, wrap, around_eq, h]

theorem run_invalidateAround {o : Options} {x : κ} {timing : Timing}
    {compute : Computation σ υ ε ρ}
    (h : (invalidateAround o x timing compute : Request σ υ ε ρ κ τ).Valid c) :
    (invalidateAround o x timing compute : Request σ υ ε ρ κ τ).run c w = wrap .other (c.around
      timing ((invalidateAround o x timing compute : Request σ υ ε ρ κ τ).keys c) compute) w := by
  obtain ⟨keyOf, hkeyOf⟩ := h.exists_keyOf
  have hvalid : o.validate = .ok () := h.options
  have hkey : c.keys.keyFor o.keyspace x = .ok (keyOf x) := hkeyOf x List.mem_cons_self
  have hkeys : (invalidateAround o x timing compute : Request σ υ ε ρ κ τ).keys c = [keyOf x] :=
    keys_eq hkeyOf
  simp [run, wrap, Cache.invalidateAround, henabled, hvalid, hkey, hkeys]

theorem run_invalidateManyAround {o : Options} {xs : List κ} {timing : Timing}
    {compute : Computation σ υ ε ρ}
    (h : (invalidateManyAround o xs timing compute : Request σ υ ε ρ κ τ).Valid c) :
    (invalidateManyAround o xs timing compute : Request σ υ ε ρ κ τ).run c w = wrap .other (c.around
      timing ((invalidateManyAround o xs timing compute : Request σ υ ε ρ κ τ).keys c)
      compute) w := by
  obtain ⟨keyOf, hkeyOf⟩ := h.exists_keyOf
  have hvalid : o.validate = .ok () := h.options
  have hall : c.keysFor o.keyspace xs = .ok (xs.map keyOf) := Cache.keysFor_eq_ok hkeyOf
  have hkeys : (invalidateManyAround o xs timing compute : Request σ υ ε ρ κ τ).keys c =
      (xs.map keyOf).eraseDups := keys_eq hkeyOf
  simp [run, wrap, Cache.invalidateManyAround, henabled, hvalid, hall, hkeys]

theorem asks_invalidateAround {o : Options} {x : κ} {timing : Timing}
    {compute : Computation σ υ ε ρ}
    (h : (invalidateAround o x timing compute : Request σ υ ε ρ κ τ).Valid c) :
    ∃ w₁, c.store.Reaches
        ((invalidateAround o x timing compute : Request σ υ ε ρ κ τ).openingCalls c) w w₁ ∧
      (invalidateAround o x timing compute : Request σ υ ε ρ κ τ).Asks c w [] w₁ :=
  asks_around timing _ rfl (by cases timing <;> rfl) (fun _ => rfl)
    (run_invalidateAround henabled h)

theorem asks_invalidateManyAround {o : Options} {xs : List κ} {timing : Timing}
    {compute : Computation σ υ ε ρ}
    (h : (invalidateManyAround o xs timing compute : Request σ υ ε ρ κ τ).Valid c) :
    ∃ w₁, c.store.Reaches
        ((invalidateManyAround o xs timing compute : Request σ υ ε ρ κ τ).openingCalls c) w w₁ ∧
      (invalidateManyAround o xs timing compute : Request σ υ ε ρ κ τ).Asks c w [] w₁ :=
  asks_around timing _ rfl (by cases timing <;> rfl) (fun _ => rfl)
    (run_invalidateManyAround henabled h)

theorem asks_read {o : Options} {x : κ} {compute : Computation σ υ ε (Option τ)}
    (h : (read o x compute : Request σ υ ε ρ κ τ).Valid c) :
    ∃ w₁, c.store.Reaches ((read o x compute : Request σ υ ε ρ κ τ).openingCalls c) w w₁ ∧
      ((read o x compute : Request σ υ ε ρ κ τ).IsServed c w.scene →
        ∃ reply, (read o x compute : Request σ υ ε ρ κ τ).run c w = (.ok reply, w₁)) ∧
      (¬(read o x compute : Request σ υ ε ρ κ τ).IsServed c w.scene →
        (read o x compute : Request σ υ ε ρ κ τ).Asks c w [] w₁) := by
  obtain ⟨keyOf, hkeyOf⟩ := h.exists_keyOf
  have hvalid : o.validate = .ok () := h.options
  have hmode : o.keysFromResults = false := h.mode rfl
  have hkey : c.keys.keyFor o.keyspace x = .ok (keyOf x) := hkeyOf x List.mem_cons_self
  have hkeys : (read o x compute : Request σ υ ε ρ κ τ).keys c = [keyOf x] := keys_eq hkeyOf
  have hreaches : c.store.Reaches (Cache.getCalls o (keyOf x)) w (c.lookup o τ (keyOf x) w).2 :=
    Cache.reaches_lookup _
  have hentry := Cache.found?_lookup (c := c) (o := o) (τ := τ) (w := w) (keyOf x)
  simp only [openingCalls, IsServed, hkeys, List.flatMap_singleton, List.mem_singleton,
    forall_eq, ← hentry]
  rcases hlookup : c.lookup o τ (keyOf x) w with ⟨found, w'⟩
  rw [hlookup] at hreaches
  cases found with
  | hit entry =>
      refine ⟨w', hreaches, fun _ => ⟨.value entry.toOption, ?_⟩, fun hserved => ?_⟩
      · simp [run, wrap, Cache.read, henabled, hvalid, hmode, hkey, hlookup]
      · simp [Cache.Lookup.found?] at hserved
  | miss stale =>
      refine ⟨w'.count (Stats.addMisses 1), ?_, fun hserved => ?_, fun _ =>
        asks_of_compute rfl (fun e w₂ hsource => ?_) (fun v w₂ e _ hbad => by cases hbad)
          fun v w₂ hsource _ => ?_⟩
      · obtain ⟨tally, hleads⟩ := hreaches
        exact (hleads.count (Stats.addMisses 1)).reaches
      · simp [Cache.Lookup.found?] at hserved
      · simp [run, wrap, Cache.read, henabled, hvalid, hmode, hkey, hlookup, hsource]
      · refine ⟨.value v, c.storeValue o (keyOf x) v
          (if v.isSome || stale then .overwrite else .ifAbsent) w₂, ?_⟩
        simp [run, wrap, Cache.read, henabled, hvalid, hmode, hkey, hlookup, hsource]

theorem asks_readMany {o : Options} {xs : List κ}
    {source : List κ → Computation σ υ ε (List (Option τ))} (hne : xs ≠ [])
    (h : (readMany o xs source : Request σ υ ε ρ κ τ).Valid c) :
    ∃ asked w₁,
      c.store.Reaches ((readMany o xs source : Request σ υ ε ρ κ τ).openingCalls c) w w₁ ∧
      ((readMany o xs source : Request σ υ ε ρ κ τ).IsServed c w.scene →
        ∃ reply, (readMany o xs source : Request σ υ ε ρ κ τ).run c w = (.ok reply, w₁)) ∧
      (¬(readMany o xs source : Request σ υ ε ρ κ τ).IsServed c w.scene →
        (readMany o xs source : Request σ υ ε ρ κ τ).Asks c w asked w₁) := by
  obtain ⟨keyOf, hkeyOf⟩ := Batch.exists_assigns h.objects
  have hkeys : (readMany o xs source : Request σ υ ε ρ κ τ).keys c = (xs.map keyOf).eraseDups :=
    keys_readMany hkeyOf
  obtain ⟨b, w₁, hb, hleads, hread⟩ := Cache.readMany_eq (ε := ε) (c := c) (o := o) (τ := τ)
    (w := w) hne henabled hkeyOf h.kind
  have hcount : (c.askedObjects o τ xs keyOf w.scene).length =
      (c.missedKeys o τ (xs.map keyOf).eraseDups w.scene).length := by
    rw [← Cache.map_askedObjects, List.length_map]
  simp only [openingCalls, IsServed, hkeys]
  refine ⟨c.askedObjects o τ xs keyOf w.scene, w₁, hleads.reaches, fun hmissed => ?_,
    fun hmissed => asks_of_compute rfl (fun e w₂ hsource => ?_)
      (fun results w₂ e hsource hbad => ?_) fun results w₂ hsource hgood => ?_⟩
  · refine ⟨.values (present o.skipNulls (xs.map fun x =>
      (c.recalled o τ (xs.map keyOf).eraseDups w.scene (keyOf x)).getD .null)), ?_⟩
    rw [run, wrap, hread, if_pos hmissed, hb.finish hmissed]
  · rw [run, wrap, hread, if_neg hmissed, hsource]
  · rw [run, wrap, hread, if_neg hmissed, hsource]
    simp only [verdict] at hbad
    split at hbad
    · rename_i hresults
      obtain ⟨e', he', rfl⟩ := resultKeys_eq_error hbad
      obtain ⟨w₃, hnoted, halign⟩ := Cache.alignByKey_eq_error (b := b) (w := w₂) he'
      exact ⟨w₃, hnoted, by simp only [if_pos hresults, halign]⟩
    · rename_i hresults
      obtain ⟨hlength, rfl⟩ := resultCount_eq_error.mp hbad
      rw [hcount] at hlength ⊢
      exact ⟨w₂, .refl w₂, by simp only [if_neg hresults, hb.alignByPosition_eq_error hlength]⟩
  · rw [run, wrap, hread, if_neg hmissed, hsource]
    simp only [verdict] at hgood
    split at hgood
    · rename_i hresults
      obtain ⟨rowKey, hrows⟩ := resultKeys_eq_ok hgood
      have hvalues : ∀ v, some v ∈ results → c.keys.keyForResult o.keyspace v = .ok (rowKey v) :=
        fun v hv => hrows v (by simpa using hv)
      obtain ⟨b', w₃, -, halign, hb', hfind⟩ := hb.alignByKey (w := w₂) hvalues
      simp only [if_pos hresults, halign, Cache.finish_eq_ok hb' hfind]
      exact ⟨_, _, rfl⟩
    · rename_i hresults
      have hlength := resultCount_eq_ok.mp hgood
      rw [hcount] at hlength
      obtain ⟨b', w₃, -, halign, hb', hfind⟩ := hb.alignByPosition (w := w₂) hlength
      simp only [if_neg hresults, halign, Cache.finish_eq_ok hb' hfind]
      exact ⟨_, _, rfl⟩

theorem run_of_valid (r : Request σ υ ε ρ κ τ) (hempty : r.isEmptyRead = false) (h : r.Valid c) :
    ∃ asked w₁, c.store.Reaches (r.openingCalls c) w w₁ ∧
      (r.IsServed c w.scene → ∃ reply, r.run c w = (.ok reply, w₁)) ∧
      (¬r.IsServed c w.scene → r.Asks c w asked w₁) := by
  cases r with
  | read o x compute => exact ⟨[], asks_read henabled h⟩
  | readMany o xs source => exact asks_readMany henabled (by simpa [isEmptyRead] using hempty) h
  | write o x compute =>
      exact ⟨[], w, .refl w, False.elim, fun _ => asks_write henabled h⟩
  | writeMany o xs compute =>
      exact ⟨[], w, .refl w, False.elim, fun _ => asks_writeMany henabled h⟩
  | writeByResult o compute =>
      exact ⟨[], w, .refl w, False.elim, fun _ => asks_writeByResult henabled h⟩
  | writeManyByResult o compute =>
      exact ⟨[], w, .refl w, False.elim, fun _ => asks_writeManyByResult henabled h⟩
  | invalidateByResult o compute =>
      exact ⟨[], w, .refl w, False.elim, fun _ => asks_of_deletingRows rfl (fun _ => rfl)
        (run_invalidateByResult henabled h)⟩
  | invalidateManyByResult o compute =>
      exact ⟨[], w, .refl w, False.elim, fun _ => asks_of_deletingRows rfl (fun _ => rfl)
        (run_invalidateManyByResult henabled h)⟩
  | invalidateAround o x timing compute =>
      obtain ⟨w₁, hreaches, hasks⟩ := asks_invalidateAround (w := w) henabled h
      exact ⟨[], w₁, hreaches, False.elim, fun _ => hasks⟩
  | invalidateManyAround o xs timing compute =>
      obtain ⟨w₁, hreaches, hasks⟩ := asks_invalidateManyAround (w := w) henabled h
      exact ⟨[], w₁, hreaches, False.elim, fun _ => hasks⟩
  | invalidate o x =>
      exact ⟨[], _, Cache.reaches_deleteAll _, fun _ => ⟨_, run_invalidate henabled h⟩,
        fun hserved => absurd trivial hserved⟩
  | invalidateMany o xs =>
      exact ⟨[], _, Cache.reaches_deleteAll _, fun _ => ⟨_, run_invalidateMany henabled h⟩,
        fun hserved => absurd trivial hserved⟩

/-- A request that cannot be made changes nothing, and one with an object that has no valid key is
among these, whichever object that is, if equal ones have one key. Any other asks its source, if at
all, in a world that nothing but its opening calls leads to, and a failure leaves nothing behind. -/
theorem run_all_or_nothing (r : Request σ υ ε ρ κ τ) (w : World σ υ) :
    (r.isEmptyRead = true → r.run c w = (.ok (.values []), w)) ∧
    (r.isEmptyRead = false → r.Faulty c →
      ∃ e, r.run c w = (.error (.refused (.config e)), w)) ∧
    (∀ x ∈ r.objects, ∀ e, c.keys.keyFor r.options.keyspace x = .error e →
      Unites (c.keys.keyFor r.options.keyspace) r.objects → r.Faulty c) ∧
    (r.isEmptyRead = false → ¬r.Faulty c → ∃ asked w₁,
      c.store.Reaches (r.openingCalls c) w w₁ ∧
      (r.IsServed c w.scene → ∃ reply, r.run c w = (.ok reply, w₁)) ∧
      (¬r.IsServed c w.scene → r.Asks c w asked w₁)) := by
  refine ⟨fun hempty => ?_, run_of_faulty henabled r,
    fun x hx e h hequal => faulty_of_object hx h hequal,
    fun hempty h => run_of_valid henabled r hempty (valid_of_not_faulty h)⟩
  cases r with
  | readMany o xs source =>
      have hnil : xs = [] := by simpa [isEmptyRead] using hempty
      simp [run, wrap, Cache.readMany, hnil]
  | _ => simp [isEmptyRead] at hempty

end

theorem run_all_or_nothing_of_short_answer :
    let c : Cache MemoryStore := { store := .memory }
    let w : World MemoryStore Unit := { scene := { contents := .empty, now := 0 }, outside := () }
    let r : Request MemoryStore Unit Unit Unit .word32 .word32 :=
      .writeMany { keyspace := "n" } [(1 : UInt32), 2] fun w => (.ok [some (7 : UInt32)], w)
    ∃ w₁ w₂, c.store.Reaches [] w w₁ ∧ c.store.Noted w₁ w₂ ∧
      r.run c w = (.error (.refused (.reconciliation (.lengthMismatch 2 1))), w₂) := by
  intro c w r
  have hkeys : ∀ x ∈ ([1, 2] : List Kind.word32),
      c.keys.keyFor "n" x = .ok ⟨"n:" ++ toString x.toNat⟩ := by
    intro x hx
    simp only [List.mem_cons, List.not_mem_nil, or_false] at hx
    rcases hx with rfl | rfl <;> decide +kernel
  have hvalid : ¬r.Faulty c := fun h => by
    cases h with
    | options h =>
        have hblank : isBlank "n" = false := by decide +kernel
        simp [r, options, Options.validate, hblank] at h
    | object hx h => cases (hkeys _ hx).symm.trans h
    | kind h => cases h
    | mode h => cases h
  obtain ⟨-, -, -, hrun⟩ := run_all_or_nothing (c := c) rfl r w
  obtain ⟨asked, w₁, hreaches, -, hasks⟩ := hrun rfl hvalid
  obtain ⟨source, hsource, -, hok⟩ := hasks id
  obtain rfl := Option.some.inj hsource
  obtain ⟨w₂, hnoted, hbad⟩ := (hok _ w₁ rfl).1 _ rfl
  exact ⟨w₁, w₂, hreaches, hnoted, hbad⟩

end CacheAside.Request

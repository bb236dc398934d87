import CacheAside.Proofs.Soundness

/-!
# Operations on a sound world

What each operation does to a sound world when its source tells the truth: the world stays sound,
and a read gives the values of the function.
-/

namespace CacheAside

/-- A source that keeps a world as it should be, and answers as stated if it is. -/
def Computation.Safe {σ υ ε α : Type} (sound : World σ υ → Prop) (compute : Computation σ υ ε α)
    (answers : α → Prop) : Prop :=
  ∀ w, sound w → sound (compute w).2 ∧ ∀ a, (compute w).1 = .ok a → answers a

namespace Cache

variable {σ υ ε α : Type} {κ τ : Kind} {c : Cache σ} {o : Options} {w : World σ υ} {ns : String}
  {f : Key → Option τ} {J : σ → Int64 → Prop}

/-- The worlds that are sound for a function. -/
abbrev SoundFor (c : Cache σ) (ns : String) (f : Key → Option τ) (J : σ → Int64 → Prop)
    (w : World σ υ) : Prop := w.Sound (c.Agrees ns f) J

/-! ## Calls that ask -/

theorem isWrite_getCalls {key : Key} : ∀ call ∈ getCalls o key, call.isWrite = false := by
  intro call hcall
  unfold getCalls at hcall
  split at hcall
  · cases hcall
  · rw [List.mem_singleton.mp hcall]
    rfl

theorem isWrite_bulkCalls {keys : List Key} : ∀ call ∈ bulkCalls o keys, call.isWrite = false := by
  intro call hcall
  unfold bulkCalls at hcall
  split at hcall
  · cases hcall
  · rw [List.mem_singleton.mp hcall]
    rfl

/-! ## Values of keys that have been asked for -/

section
variable {keys : List Key} {s : Scene σ} {key : Key}
  (hrecall : ∀ e, c.recalled o τ keys s key = some e → e = .ofOption (f key)) (hkey : key ∈ keys)
include hrecall hkey

theorem getD_recalled_eq (hmissed : c.missedKeys o τ keys s = []) :
    (c.recalled o τ keys s key).getD .null = .ofOption (f key) := by
  obtain ⟨e, he⟩ := exists_recalled hkey hmissed
  rw [he, Option.getD_some, hrecall e he]

theorem positional_eq :
    c.positional o keys s ((c.missedKeys o τ keys s).map f) key = .ofOption (f key) := by
  unfold positional
  cases he : c.recalled o τ keys s key with
  | some e => exact hrecall e he
  | none =>
      have hlt := List.idxOf_lt_length_of_mem (mem_missedKeys.mpr ⟨hkey, he⟩)
      simp [hlt]

theorem matched_eq {rowKey : τ → Key} {rows : List τ} (hrows : ∀ v ∈ rows, f (rowKey v) = some v)
    (hall : ∀ v, key ∈ c.missedKeys o τ keys s → f key = some v → key ∈ rows.map rowKey) :
    c.matched o keys s rowKey rows key = .ofOption (f key) := by
  unfold matched
  cases he : c.recalled o τ keys s key with
  | some e => exact hrecall e he
  | none =>
      have hmark := isSome_find?_mark rowKey rows key
      cases hrow : rows.find? (rowKey · == key) with
      | some v =>
          have hv : rowKey v = key := by simpa using List.find?_some hrow
          have hf : f key = some v := hv ▸ hrows v (List.mem_of_find?_eq_some hrow)
          rw [hf]
          rfl
      | none =>
          cases hf : f key with
          | none => rfl
          | some v =>
              have hmem := hall v (mem_missedKeys.mpr ⟨hkey, he⟩) hf
              rw [hrow] at hmark
              simp [hmem] at hmark

end

/-- The keys of the rows as a function, which is all that the alignment asks for. -/
theorem exists_rowKey {results : List (Option τ)}
    (h : ∀ u, some u ∈ results → ∃ key, c.keys.keyForResult o.keyspace u = .ok key ∧
      f key = some u) :
    ∃ rowKey : τ → Key, ∀ u, some u ∈ results →
      c.keys.keyForResult o.keyspace u = .ok (rowKey u) ∧ f (rowKey u) = some u := by
  refine ⟨fun u => (c.keys.keyForResult o.keyspace u).toOption.getD default, fun u hu => ?_⟩
  obtain ⟨key, hkey, hf⟩ := h u hu
  simp only [hkey]
  exact ⟨rfl, hf⟩

/-- Rows that agree with the function and leave out no missed key that has a value are written back
as what it says. -/
theorem agrees_matchedWrites (hcodec : c.codec.Faithful ns f) {keys : List Key} {s : Scene σ}
    {rowKey : τ → Key} {rows : List τ} (hrows : ∀ v ∈ rows, f (rowKey v) = some v)
    (hall : ∀ key ∈ c.missedKeys o τ keys s, ∀ v, f key = some v → key ∈ rows.map rowKey) :
    ∀ p ∈ c.matchedWrites o keys s rowKey rows, c.Agrees ns f p.key p.bytes := by
  intro p hp
  rcases List.mem_append.mp hp with hp | hp
  · exact agrees_rowWrites hcodec (fun v hv => hrows v (firsts_subset rowKey rows hv)) p hp
  · refine agrees_writesFor hcodec (fun pair hpair => ?_) p hp
    obtain ⟨key, hkey, rfl⟩ := List.mem_map.mp hpair
    obtain ⟨hmissed, hnot⟩ := List.mem_filter.mp hkey
    cases hf : f key with
    | none => rfl
    | some v => exact absurd (hall key hmissed v hf) (by simpa using hnot)

section
variable (henabled : c.config.disabled = false) (hcodec : c.codec.Faithful ns f)
  (hstore : c.store.Honest (c.Agrees ns f) J) (h : c.SoundFor ns f J w)
include henabled hcodec hstore h

/-! ## One key -/

omit henabled in
theorem sound_storeValue {key : Key} {v : Option τ} (hv : v = f key) (mode : WriteMode) :
    c.SoundFor ns f J (c.storeValue o key v mode w) := by
  rw [storeValue_eq]
  refine sound_writeBack hstore (h.noted hstore (noted_encode key v)) fun p hp => ?_
  exact agrees_writeOf hcodec (hv ▸ Option.mem_toList.mp hp)

theorem read_transparent {x : κ} {key : Key} {compute : Computation σ υ ε (Option τ)}
    (hns : o.keyspace = ns) (hmode : o.keysFromResults = false)
    (hkey : c.keys.keyFor o.keyspace x = .ok key)
    (hcompute : compute.Safe (c.SoundFor ns f J) fun v => v = f key) :
    c.SoundFor ns f J (c.read o x compute w).2 ∧
      ((c.read o x compute w).1 = .ok (f key) ∨
        ∃ e w₁ w₂, compute w₁ = (.error e, w₂) ∧
          c.read o x compute w = (.error (.source e), w₂)) := by
  have hvalid : o.validate = .ok () := Options.validate_of_keyFor hkey
  have hkeyspace : key.keyspace = ns := hns ▸ KeyBuilder.keyspace_keyFor hkey
  have hreaches : c.store.Reaches (getCalls o key) w (c.lookup o τ key w).2 := reaches_lookup key
  have hentry := found?_lookup (c := c) (o := o) (τ := τ) (w := w) key
  simp only [read, henabled, hvalid, hmode, hkey, Bool.false_eq_true, ↓reduceIte]
  rcases hlookup : c.lookup o τ key w with ⟨found, w'⟩
  rw [hlookup] at hreaches hentry
  have hsound : c.SoundFor ns f J w' := h.reaches hstore hreaches isWrite_getCalls
  cases found with
  | hit entry =>
      have he : entry = .ofOption (f key) := eq_of_recalledOne hstore h hkeyspace hentry.symm
      exact ⟨hsound, .inl (by simp [he])⟩
  | miss stale =>
      obtain ⟨hsound', hanswer⟩ := hcompute _ (hsound.count (Stats.addMisses 1))
      rcases hcall : compute (w'.count (Stats.addMisses 1)) with ⟨answer, w''⟩
      rw [hcall] at hsound' hanswer
      simp only [hcall]
      cases answer with
      | error e => exact ⟨hsound', .inr ⟨e, _, w'', hcall, rfl⟩⟩
      | ok v =>
          have hv : v = f key := hanswer v rfl
          exact ⟨sound_storeValue hcodec hstore hsound' hv _, .inl (by rw [hv])⟩

theorem write_transparent {x : κ} {compute : Computation σ υ ε (Option τ)}
    (hcompute : ∀ key, c.keys.keyFor o.keyspace x = .ok key →
      compute.Safe (c.SoundFor ns f J) fun v => v = f key) :
    c.SoundFor ns f J (c.write o x compute w).2 := by
  simp only [write, henabled, Bool.false_eq_true, ↓reduceIte]
  split
  · exact h
  · split
    · exact h
    · rename_i key hkey
      obtain ⟨hsound, hanswer⟩ := hcompute key hkey w h
      rcases hcall : compute w with ⟨answer, w'⟩
      rw [hcall] at hsound hanswer
      cases answer with
      | error e => exact hsound
      | ok v => exact sound_storeValue hcodec hstore hsound (hanswer v rfl) .overwrite

theorem writeByResult_transparent {compute : Computation σ υ ε (Option τ)}
    (hcompute : compute.Safe (c.SoundFor ns f J) fun v => ∀ u, v = some u →
      ∀ key, c.keys.keyForResult o.keyspace u = .ok key → f key = some u) :
    c.SoundFor ns f J (c.writeByResult o compute w).2 := by
  simp only [writeByResult, henabled, Bool.false_eq_true, ↓reduceIte]
  split
  · exact h
  · split
    · exact h
    · obtain ⟨hsound, hanswer⟩ := hcompute w h
      rcases hcall : compute w with ⟨answer, w'⟩
      rw [hcall] at hsound hanswer
      match answer with
      | .error e => exact hsound
      | .ok none => exact hsound
      | .ok (some u) =>
          simp only
          split
          · exact hsound
          · rename_i key hkey
            have hu : some u = f key := (hanswer (some u) rfl u rfl key hkey).symm
            exact sound_storeValue hcodec hstore hsound hu .overwrite

/-! ## Many keys -/

theorem writeMany_transparent {xs : List κ} {compute : Computation σ υ ε (List (Option τ))}
    (hcompute : ∀ keys, c.keysFor o.keyspace xs = .ok keys →
      compute.Safe (c.SoundFor ns f J) fun results => results = keys.map f) :
    c.SoundFor ns f J (c.writeMany o xs compute w).2 := by
  simp only [writeMany, henabled, Bool.false_eq_true, ↓reduceIte]
  split
  · exact h
  · split
    · exact h
    · rename_i keys hkeys
      obtain ⟨hsound, hanswer⟩ := hcompute keys hkeys w h
      rcases hcall : compute w with ⟨answer, w'⟩
      rw [hcall] at hsound hanswer
      cases answer with
      | error e => exact hsound
      | ok results =>
          have hresults : results = keys.map f := hanswer results rfl
          have hpairs : ∀ p ∈ keys.zip results, p.2 = f p.1 := fun p hp => by
            rw [hresults, ← List.map_prod_left_eq_zip] at hp
            obtain ⟨key, -, rfl⟩ := List.mem_map.mp hp
            rfl
          simp only
          split
          · exact sound_writeBack hstore (hsound.noted hstore (noted_firstWrites _ _ _))
              (agrees_firstWrites hcodec _ _ hpairs)
          · exact hsound

theorem writeManyByResult_transparent {compute : Computation σ υ ε (List (Option τ))}
    (hcompute : compute.Safe (c.SoundFor ns f J) fun results => ∀ u, some u ∈ results →
      ∀ key, c.keys.keyForResult o.keyspace u = .ok key → f key = some u) :
    c.SoundFor ns f J (c.writeManyByResult o compute w).2 := by
  simp only [writeManyByResult, henabled, Bool.false_eq_true, ↓reduceIte]
  split
  · exact h
  · split
    · exact h
    · obtain ⟨hsound, hanswer⟩ := hcompute w h
      rcases hcall : compute w with ⟨answer, w'⟩
      rw [hcall] at hsound hanswer
      cases answer with
      | error e => exact hsound
      | ok results =>
          have hnote : ∀ (key : Key) (w : World σ υ), c.store.Noted w w := fun _ w => .refl w
          cases hkeyed : (results.filterMap id).mapM (c.keys.keyForResult o.keyspace) with
          | error e =>
              obtain ⟨w'', hnoted, hcollect⟩ := collectRows_eq_error hnote {} w' hkeyed
              simp only [hcollect]
              exact hsound.noted hstore hnoted
          | ok keys =>
              obtain ⟨rowKey, hrows⟩ := exists_of_mapM_ok hkeyed
              obtain ⟨w'', hnoted, hcollect⟩ := collectRows_of_keyed hnote w' hrows
              simp only [hcollect]
              refine sound_writeBack hstore (hsound.noted hstore hnoted)
                (agrees_rowWrites hcodec fun v hv => ?_)
              have hmem : v ∈ results.filterMap id := firsts_subset rowKey _ hv
              exact hanswer results rfl v (by simpa using hmem) _ (hrows v hmem)

/-- What a batch read gives if its source tells the truth about the objects that it is asked for. -/
theorem readMany_transparent {xs : List κ} {keyOf : κ → Key}
    {source : List κ → Computation σ υ ε (List (Option τ))} (hns : o.keyspace = ns)
    (hkeys : Batch.Assigns c.keys o.keyspace xs keyOf)
    (hkind : o.keysFromResults = true → c.registry.isRegistered τ = true)
    (hsource : ∀ asked ⊆ xs, (source asked).Safe (c.SoundFor ns f J) fun results =>
      if o.keysFromResults then
        (∀ u, some u ∈ results → ∃ key, c.keys.keyForResult o.keyspace u = .ok key ∧
          f key = some u) ∧
        ∀ x ∈ asked, ∀ v, f (keyOf x) = some v →
          ∃ u, some u ∈ results ∧ c.keys.keyForResult o.keyspace u = .ok (keyOf x)
      else results = asked.map (f ∘ keyOf)) :
    c.SoundFor ns f J (c.readMany o xs source w).2 ∧
      ((c.readMany o xs source w).1 =
          .ok (present o.skipNulls (xs.map fun x => .ofOption (f (keyOf x)))) ∨
        ∃ e w₁ w₂, ∃ asked ⊆ xs, source asked w₁ = (.error e, w₂) ∧
          c.readMany o xs source w = (.error (.source e), w₂)) := by
  by_cases hne : xs = []
  · subst hne
    exact ⟨by simpa [readMany] using h, .inl (by simp [readMany, present])⟩
  obtain ⟨b, w₁, hb, hleads, hread⟩ := readMany_eq (ε := ε) (c := c) (o := o) (τ := τ) (w := w) hne
    henabled hkeys hkind
  have hsound₁ : c.SoundFor ns f J w₁ := h.reaches hstore hleads.reaches isWrite_bulkCalls
  have hmem : ∀ x ∈ xs, keyOf x ∈ (xs.map keyOf).eraseDups := fun x hx => by
    simpa using ⟨x, hx, rfl⟩
  have hrecall : ∀ x ∈ xs, ∀ e, c.recalled o τ (xs.map keyOf).eraseDups w.scene (keyOf x) = some e →
      e = .ofOption (f (keyOf x)) := fun x hx e => by
    obtain ⟨y, -, -, hkey⟩ := hkeys.exists_first hx
    exact eq_of_recalled hstore h (hmem x hx) (hns ▸ KeyBuilder.keyspace_keyFor hkey)
  rw [hread]
  split
  · rename_i hmissed
    rw [hb.finish hmissed]
    refine ⟨hsound₁, .inl ?_⟩
    rw [List.map_congr_left fun x hx => getD_recalled_eq (hrecall x hx) (hmem x hx) hmissed]
  · have hsub := askedObjects_subset c o τ xs keyOf w.scene
    obtain ⟨hsound₂, hanswer⟩ := hsource _ hsub w₁ hsound₁
    rcases hcall : source (c.askedObjects o τ xs keyOf w.scene) w₁ with ⟨answer, w₂⟩
    rw [hcall] at hsound₂ hanswer
    cases answer with
    | error e => exact ⟨hsound₂, .inr ⟨e, w₁, w₂, _, hsub, hcall, rfl⟩⟩
    | ok results =>
        have hasked := hanswer results rfl
        split at hasked
        · rename_i hresults
          obtain ⟨hkeyed, hall⟩ := hasked
          obtain ⟨rowKey, hrowKey⟩ := exists_rowKey hkeyed
          obtain ⟨b', w₃, hnoted, halign, hb', hfind⟩ :=
            hb.alignByKey (w := w₂) fun u hu => (hrowKey u hu).1
          simp only [if_pos hresults, halign, finish_eq_ok hb' hfind]
          have hrows : ∀ v ∈ results.filterMap id, f (rowKey v) = some v := fun v hv =>
            (hrowKey v (by simpa using hv)).2
          have hmatched : ∀ key ∈ c.missedKeys o τ (xs.map keyOf).eraseDups w.scene,
              ∀ v, f key = some v → key ∈ (results.filterMap id).map rowKey := by
            intro key hkey v hv
            rw [← map_askedObjects] at hkey
            obtain ⟨x, hx, rfl⟩ := List.mem_map.mp hkey
            obtain ⟨u, hu, hukey⟩ := hall x hx v hv
            have hsame : rowKey u = keyOf x := by
              rw [(hrowKey u hu).1] at hukey
              exact Except.ok.inj hukey
            exact List.mem_map.mpr ⟨u, by simpa using hu, hsame⟩
          refine ⟨sound_writeBack hstore (hsound₂.noted hstore hnoted)
            (agrees_matchedWrites hcodec hrows hmatched), .inl ?_⟩
          rw [List.map_congr_left fun x hx => matched_eq (hrecall x hx) (hmem x hx) hrows
            fun v hkey hv => hmatched _ hkey v hv]
        · rename_i hresults
          have hmap : results = (c.missedKeys o τ (xs.map keyOf).eraseDups w.scene).map f := by
            rw [hasked, ← map_askedObjects, List.map_map]
          subst hmap
          obtain ⟨b', w₃, hnoted, halign, hb', hfind⟩ :=
            hb.alignByPosition (w := w₂) (List.length_map f)
          simp only [if_neg hresults, halign, finish_eq_ok hb' hfind]
          refine ⟨sound_writeBack hstore (hsound₂.noted hstore hnoted)
            (agrees_writesFor hcodec fun p hp => ?_), .inl ?_⟩
          · rw [← List.map_prod_left_eq_zip] at hp
            obtain ⟨key, -, rfl⟩ := List.mem_map.mp hp
            rfl
          · rw [List.map_congr_left fun x hx => positional_eq (hrecall x hx) (hmem x hx)]

/-! ## Invalidating -/

omit hcodec in
theorem invalidate_transparent {x : κ} : c.SoundFor ns f J (c.invalidate o x w).2 := by
  simp only [invalidate, henabled, Bool.false_eq_true, ↓reduceIte]
  split
  · exact h
  · split
    · exact h
    · exact sound_deleteAll hstore h _

omit hcodec in
theorem invalidateMany_transparent {xs : List κ} :
    c.SoundFor ns f J (c.invalidateMany o xs w).2 := by
  simp only [invalidateMany, henabled, Bool.false_eq_true, ↓reduceIte]
  split
  · exact h
  · split
    · exact h
    · exact sound_deleteAll hstore h _

omit henabled hcodec in
theorem around_transparent {compute : Computation σ υ ε α} (timing : Timing) (keys : List Key)
    (hcompute : compute.Safe (c.SoundFor ns f J) fun _ => True) :
    c.SoundFor ns f J (c.around timing keys compute w).2 := by
  cases timing with
  | before =>
      have hsound := (hcompute _ (sound_deleteAll hstore h keys)).1
      simp only [around, Computation.direct]
      rcases hcall : compute (c.deleteAll keys w).2 with ⟨answer, w'⟩
      rw [hcall] at hsound
      cases answer with
      | ok a => exact hsound
      | error e => exact hsound
  | after =>
      have hsound := (hcompute w h).1
      simp only [around, Computation.direct]
      rcases hcall : compute w with ⟨answer, w'⟩
      rw [hcall] at hsound
      cases answer with
      | ok a => exact sound_deleteAll hstore hsound keys
      | error e => exact hsound

omit hcodec in
theorem invalidateAround_transparent {x : κ} {timing : Timing} {compute : Computation σ υ ε α}
    (hcompute : compute.Safe (c.SoundFor ns f J) fun _ => True) :
    c.SoundFor ns f J (c.invalidateAround o x timing compute w).2 := by
  simp only [invalidateAround, henabled, Bool.false_eq_true, ↓reduceIte]
  split
  · exact h
  · split
    · exact h
    · exact around_transparent hstore h timing _ hcompute

omit hcodec in
theorem invalidateManyAround_transparent {xs : List κ} {timing : Timing}
    {compute : Computation σ υ ε α} (hcompute : compute.Safe (c.SoundFor ns f J) fun _ => True) :
    c.SoundFor ns f J (c.invalidateManyAround o xs timing compute w).2 := by
  simp only [invalidateManyAround, henabled, Bool.false_eq_true, ↓reduceIte]
  split
  · exact h
  · split
    · exact h
    · exact around_transparent hstore h timing _ hcompute

omit hcodec in
theorem invalidateByResult_transparent {compute : Computation σ υ ε (Option τ)}
    (hcompute : compute.Safe (c.SoundFor ns f J) fun _ => True) :
    c.SoundFor ns f J (c.invalidateByResult o compute w).2 := by
  simp only [invalidateByResult, henabled, Bool.false_eq_true, ↓reduceIte]
  split
  · exact h
  · split
    · exact h
    · have hsound := (hcompute w h).1
      rcases hcall : compute w with ⟨answer, w'⟩
      rw [hcall] at hsound
      match answer with
      | .error e => exact hsound
      | .ok none => exact hsound
      | .ok (some u) =>
          simp only
          split
          · exact hsound
          · exact sound_deleteAll hstore hsound _

omit hcodec in
theorem invalidateManyByResult_transparent {compute : Computation σ υ ε (List (Option τ))}
    (hcompute : compute.Safe (c.SoundFor ns f J) fun _ => True) :
    c.SoundFor ns f J (c.invalidateManyByResult o compute w).2 := by
  simp only [invalidateManyByResult, henabled, Bool.false_eq_true, ↓reduceIte]
  split
  · exact h
  · split
    · exact h
    · have hsound := (hcompute w h).1
      rcases hcall : compute w with ⟨answer, w'⟩
      rw [hcall] at hsound
      cases answer with
      | error e => exact hsound
      | ok results =>
          simp only
          split
          · exact hsound
          · exact sound_deleteAll hstore hsound _

end

end Cache

end CacheAside

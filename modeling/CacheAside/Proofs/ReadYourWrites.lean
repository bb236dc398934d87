import CacheAside.Proofs.Requests
import CacheAside.Proofs.ServedAgain
import CacheAside.Proofs.Soundness

/-!
# Reading what has been written

A call that writes through the cache attributes the values of its source to keys, those of key
objects or those of the values themselves. The first value of a key is what a read of that key gives
next, whatever object the read takes the key from.
-/

namespace CacheAside

open Rig

namespace Cache

variable {σ υ ε : Type} {κ τ : Kind} {c : Cache σ} {o : Options}

/-! ## The writes for attributed values -/

/-- Values with the keys of what they stand for; what has no key is left out. -/
def keyed {α : Type} (keyFor : α → Except ConfigError Key) (pairs : List (α × Option τ)) :
    List (Key × Option τ) :=
  pairs.filterMap fun p => (keyFor p.1).toOption.map fun key => (key, p.2)

theorem keyed_eq_map {α : Type} {keyFor : α → Except ConfigError Key} {keyOf : α → Key}
    {pairs : List (α × Option τ)} (h : ∀ p ∈ pairs, keyFor p.1 = .ok (keyOf p.1)) :
    keyed keyFor pairs = pairs.map fun p => (keyOf p.1, p.2) := by
  rw [keyed, ← List.filterMap_eq_map]
  exact List.filterMap_congr fun p hp => by rw [h p hp]; rfl

/-- For each key the write of its first value, over whatever is stored. -/
def overwrites (c : Cache σ) (nulls : Bool) (pairs : List (Key × Option τ)) : List PendingWrite :=
  (pairs.map (·.1)).eraseDups.filterMap fun key => (pairs.lookup key).bind fun v =>
    if v.isNone && !nulls then none else c.writeOf key v .overwrite

theorem overwrites_singleton (nulls : Bool) (key : Key) (v : Option τ) :
    c.overwrites nulls [(key, v)] =
      (if v.isNone && !nulls then none else c.writeOf key v .overwrite).toList := by
  have hkeys : ([(key, v)].map (·.1)).eraseDups = [key] := rfl
  rw [overwrites, hkeys, List.filterMap_cons, List.lookup_cons_self, Option.bind_some]
  cases (if v.isNone && !nulls then none else c.writeOf key v .overwrite) <;> rfl

theorem overwrites_of_firstWrites (pairs : List (Key × Option τ)) (w : World σ υ) :
    (c.firstWrites o pairs [] w).1 = c.overwrites o.addNulls pairs := by
  rw [firstWrites_eq, overwrites]
  refine List.filterMap_congr fun key _ => congrArg _ ?_
  funext v
  exact writeOver_eq key v

theorem overwrites_of_rows (nulls : Bool) (rowKey : τ → Key) (rows : List τ) :
    c.rowWrites rowKey (firsts rowKey rows) =
      c.overwrites nulls (rows.map fun v => (rowKey v, some v)) := by
  rw [rowWrites_eq (o := { keyspace := "", addNulls := nulls }), overwrites, List.map_map]
  refine List.filterMap_congr fun key _ => congrArg _ ?_
  funext v
  exact writeOver_eq key v

theorem key_of_overwrites {nulls : Bool} {pairs : List (Key × Option τ)} {key : Key}
    {p : PendingWrite} (h : ((pairs.lookup key).bind fun v =>
      if v.isNone && !nulls then none else c.writeOf key v .overwrite) = some p) : p.key = key := by
  obtain ⟨v, -, hwrite⟩ := Option.bind_eq_some_iff.mp h
  split at hwrite
  · cases hwrite
  · obtain ⟨bytes, -, rfl⟩ := Option.map_eq_some_iff.mp hwrite
    rfl

theorem nodup_overwrites (nulls : Bool) (pairs : List (Key × Option τ)) :
    ((c.overwrites nulls pairs).map (·.key)).Nodup :=
  nodup_keys_filterMap (fun _ _ hp => key_of_overwrites hp)
    (by rw [List.map_id']; exact nodup_eraseDups _)

/-- The first value of a key is among those that are written. -/
theorem mem_overwrites {nulls : Bool} {pairs : List (Key × Option τ)} {key : Key} {v : Option τ}
    (hfirst : pairs.lookup key = some v) (hnull : v = none → nulls = true) {bytes : Bytes}
    (hencode : c.codec.encodeOption v = .ok bytes) :
    ⟨key, bytes, .overwrite⟩ ∈ c.overwrites nulls pairs := by
  refine List.mem_filterMap.mpr ⟨key, ?_, ?_⟩
  · exact List.mem_eraseDups.mpr (List.mem_map.mpr ⟨(key, v), mem_of_lookup hfirst, rfl⟩)
  · rw [hfirst, Option.bind_some, if_neg, writeOf, hencode]
    · rfl
    · cases v with
      | none => simp [hnull rfl]
      | some v => simp

/-! ## What calls that write come to -/

section
variable {w w' : World σ υ}

/-- The writes for attributed values go back after the source has answered. -/
def WritesBack (c : Cache σ) (o : Options) (nulls : Bool) (pairs : List (Key × Option τ))
    (w w' : World σ υ) : Prop :=
  ∃ w₁, c.store.Noted w w₁ ∧ w' = c.writeBack o (c.overwrites nulls pairs) w₁

theorem writesBack_storeValue {nulls : Bool} {key : Key} {v : Option τ}
    (h : v.isNone = true → nulls = true) :
    c.WritesBack o nulls [(key, v)] w (c.storeValue o key v .overwrite w) := by
  refine ⟨(c.encode key v w).2, noted_encode key v, ?_⟩
  rw [storeValue_eq, overwrites_singleton, if_neg (by simpa using h)]

variable (henabled : c.config.disabled = false)
include henabled

theorem write_eq_ok {x : κ} {compute : Computation σ υ ε (Option τ)} {v : Option τ}
    (h : c.write o x compute w = (.ok v, w')) : ∃ w₁, compute w = (.ok v, w₁) ∧
      c.WritesBack o true (keyed (c.keys.keyFor o.keyspace) [(x, v)]) w₁ w' := by
  simp only [write, henabled, Bool.false_eq_true, ↓reduceIte] at h
  split at h
  · simp [refuse] at h
  · split at h
    · simp [refuse] at h
    · rename_i key hkey
      split at h
      · simp at h
      · rename_i v' w₁ hcompute
        obtain ⟨rfl, rfl⟩ : v' = v ∧ c.storeValue o key v' .overwrite w₁ = w' := by simpa using h
        refine ⟨w₁, hcompute, ?_⟩
        have hpairs : keyed (c.keys.keyFor o.keyspace) [(x, v')] = [(key, v')] := by
          simp [keyed, hkey, Except.toOption]
        rw [hpairs]
        exact writesBack_storeValue fun _ => rfl

theorem writeByResult_eq_ok {compute : Computation σ υ ε (Option τ)} {v : Option τ}
    (h : c.writeByResult o compute w = (.ok v, w')) : ∃ w₁, compute w = (.ok v, w₁) ∧
      c.WritesBack o o.addNulls (keyed (c.keys.keyForResult o.keyspace)
        (v.toList.map fun v => (v, some v))) w₁ w' := by
  simp only [writeByResult, henabled, Bool.false_eq_true, ↓reduceIte] at h
  split at h
  · simp [refuse] at h
  · split at h
    · simp [refuse] at h
    · split at h
      · simp at h
      · rename_i w₁ hcompute
        obtain ⟨rfl, rfl⟩ : none = v ∧ w₁ = w' := by simpa using h
        exact ⟨w₁, hcompute, w₁, .refl w₁, rfl⟩
      · rename_i a w₁ hcompute
        split at h
        · simp [refuse] at h
        · rename_i key hkey
          obtain ⟨rfl, rfl⟩ : some a = v ∧ c.storeValue o key (some a) .overwrite w₁ = w' := by
            simpa using h
          refine ⟨w₁, hcompute, ?_⟩
          have hpairs : keyed (c.keys.keyForResult o.keyspace)
              ((some a).toList.map fun v => (v, some v)) = [(key, some a)] := by
            simp [keyed, hkey, Except.toOption]
          rw [hpairs]
          exact writesBack_storeValue (by simp)

theorem writeMany_eq_ok {xs : List κ} {compute : Computation σ υ ε (List (Option τ))}
    {vs : List (Option τ)} (h : c.writeMany o xs compute w = (.ok vs, w')) :
    ∃ w₁, compute w = (.ok vs, w₁) ∧
      c.WritesBack o o.addNulls (keyed (c.keys.keyFor o.keyspace) (xs.zip vs)) w₁ w' := by
  simp only [writeMany, henabled, Bool.false_eq_true, ↓reduceIte] at h
  split at h
  · simp [refuse] at h
  · split at h
    · simp [refuse] at h
    · rename_i keys hkeys
      split at h
      · simp at h
      · rename_i vs' w₁ hcompute
        split at h
        · obtain ⟨rfl, hw'⟩ : vs' = vs ∧ c.writeBack o (c.firstWrites o (keys.zip vs') [] w₁).1
            (c.firstWrites o (keys.zip vs') [] w₁).2 = w' := by simpa using h
          refine ⟨w₁, hcompute, (c.firstWrites o (keys.zip vs') [] w₁).2,
            noted_firstWrites _ _ _, ?_⟩
          obtain ⟨keyOf, hkeyOf⟩ := exists_of_mapM_ok hkeys
          obtain rfl : xs.map keyOf = keys := by
            have hmap := keysFor_eq_ok hkeyOf
            rw [hkeys] at hmap
            simpa using hmap.symm
          have hpairs : keyed (c.keys.keyFor o.keyspace) (xs.zip vs') =
              (xs.map keyOf).zip vs' := by
            rw [keyed_eq_map fun p hp => hkeyOf p.1 (List.of_mem_zip hp).1, List.zip_map_left]
            rfl
          rw [hpairs, ← overwrites_of_firstWrites, hw']
        · simp at h

theorem writeManyByResult_eq_ok {compute : Computation σ υ ε (List (Option τ))}
    {vs : List (Option τ)} (h : c.writeManyByResult o compute w = (.ok vs, w')) :
    ∃ w₁, compute w = (.ok vs, w₁) ∧ c.WritesBack o o.addNulls (keyed
      (c.keys.keyForResult o.keyspace) ((vs.filterMap id).map fun v => (v, some v))) w₁ w' := by
  have hnote : ∀ (key : Key) (w : World σ υ), c.store.Noted w w := fun _ w => .refl w
  simp only [writeManyByResult, henabled, Bool.false_eq_true, ↓reduceIte] at h
  split at h
  · simp [refuse] at h
  · split at h
    · simp [refuse] at h
    · split at h
      · simp at h
      · rename_i vs' w₁ hcompute
        cases hrows : (vs'.filterMap id).mapM (c.keys.keyForResult o.keyspace) with
        | error e =>
            obtain ⟨w₂, -, hcollect⟩ := collectRows_eq_error hnote {} w₁ hrows
            rw [hcollect] at h
            simp [refuse] at h
        | ok keys =>
            obtain ⟨rowKey, hrowKey⟩ := exists_of_mapM_ok hrows
            obtain ⟨w₂, hnoted, hcollect⟩ := collectRows_of_keyed hnote w₁ hrowKey
            rw [hcollect] at h
            obtain ⟨rfl, hw'⟩ : vs' = vs ∧ c.writeBack o
              (c.rowWrites rowKey (firsts rowKey (vs'.filterMap id))) w₂ = w' := by simpa using h
            refine ⟨w₁, hcompute, w₂, hnoted, ?_⟩
            have hpairs : keyed (c.keys.keyForResult o.keyspace)
                ((vs'.filterMap id).map fun v => (v, some v)) =
                (vs'.filterMap id).map fun v => (rowKey v, some v) := by
              rw [keyed_eq_map fun p hp => ?_, List.map_map]
              · rfl
              · obtain ⟨v, hv, rfl⟩ := List.mem_map.mp hp
                exact hrowKey v hv
            rw [hpairs, ← overwrites_of_rows, hw']

end

end Cache

/-! ## Requests that write -/

namespace Request

variable {σ υ ε ρ : Type} {κ τ : Kind}

/-- Whether a request writes through the cache. -/
def isWrite : Request σ υ ε ρ κ τ → Bool
  | .write .. | .writeMany .. | .writeByResult .. | .writeManyByResult .. => true
  | _ => false

/-- Whether a request also writes that a key has no value. For one object that is always so. -/
def writesNulls : Request σ υ ε ρ κ τ → Bool
  | .write .. => true
  | r => r.options.addNulls

/-- The values of an answer with the keys they belong to, in order. -/
def attributed (c : Cache σ) : Request σ υ ε ρ κ τ → Reply ρ τ → List (Key × Option τ)
  | .write o x _, .value v => Cache.keyed (c.keys.keyFor o.keyspace) [(x, v)]
  | .writeMany o xs _, .values vs => Cache.keyed (c.keys.keyFor o.keyspace) (xs.zip vs)
  | .writeByResult o _, .value v =>
    Cache.keyed (c.keys.keyForResult o.keyspace) (v.toList.map fun v => (v, some v))
  | .writeManyByResult o _, .values vs =>
    Cache.keyed (c.keys.keyForResult o.keyspace) ((vs.filterMap id).map fun v => (v, some v))
  | _, _ => []

/-- The writes for an answer. -/
def writes (c : Cache σ) (r : Request σ υ ε ρ κ τ) (reply : Reply ρ τ) : List PendingWrite :=
  c.overwrites r.writesNulls (r.attributed c reply)

theorem wrap_eq_ok {α β : Type} {form : α → β} {outcome : Outcome σ υ ε α} {w w' : World σ υ}
    {b : β} (h : wrap form outcome w = (.ok b, w')) :
    ∃ a, outcome w = (.ok a, w') ∧ form a = b := by
  unfold wrap at h
  rcases houtcome : outcome w with ⟨answer, w₁⟩
  rw [houtcome] at h
  cases answer with
  | error e => simp at h
  | ok a =>
      obtain ⟨rfl, rfl⟩ : form a = b ∧ w₁ = w' := by simpa using h
      exact ⟨a, rfl, rfl⟩

theorem inForm_eq_ok {α β : Type} {form : α → β} {compute : Computation σ υ ε α}
    {w w' : World σ υ} {a : α} (h : compute w = (.ok a, w')) :
    compute.inForm form w = (.ok (form a), w') := by
  simp [Computation.inForm, h, Except.map]

/-- A request that writes returns what its source has answered, and writes back the values in it. -/
theorem writesBack_of_run {c : Cache σ} {r : Request σ υ ε ρ κ τ} {reply : Reply ρ τ}
    {w w' : World σ υ} (henabled : c.config.disabled = false) (hwrite : r.isWrite = true)
    (hrun : r.run c w = (.ok reply, w')) : ∃ source w₁, r.source? [] = some source ∧
      source w = (.ok reply, w₁) ∧
      c.WritesBack r.options r.writesNulls (r.attributed c reply) w₁ w' := by
  cases r with
  | write o x compute =>
      obtain ⟨v, hcall, rfl⟩ := wrap_eq_ok hrun
      obtain ⟨w₁, hcompute, hback⟩ := Cache.write_eq_ok henabled hcall
      exact ⟨_, w₁, rfl, inForm_eq_ok hcompute, hback⟩
  | writeMany o xs compute =>
      obtain ⟨vs, hcall, rfl⟩ := wrap_eq_ok hrun
      obtain ⟨w₁, hcompute, hback⟩ := Cache.writeMany_eq_ok henabled hcall
      exact ⟨_, w₁, rfl, inForm_eq_ok hcompute, hback⟩
  | writeByResult o compute =>
      obtain ⟨v, hcall, rfl⟩ := wrap_eq_ok hrun
      obtain ⟨w₁, hcompute, hback⟩ := Cache.writeByResult_eq_ok henabled hcall
      exact ⟨_, w₁, rfl, inForm_eq_ok hcompute, hback⟩
  | writeManyByResult o compute =>
      obtain ⟨vs, hcall, rfl⟩ := wrap_eq_ok hrun
      obtain ⟨w₁, hcompute, hback⟩ := Cache.writeManyByResult_eq_ok henabled hcall
      exact ⟨_, w₁, rfl, inForm_eq_ok hcompute, hback⟩
  | read | readMany | invalidate | invalidateMany | invalidateAround | invalidateManyAround
  | invalidateByResult | invalidateManyByResult => cases hwrite

/-- The first value that a request has for a key, if it is one that is kept. -/
structure Settles (c : Cache σ) (r : Request σ υ ε ρ κ τ) (reply : Reply ρ τ) (key : Key)
    (v : Option τ) : Prop where
  first : (r.attributed c reply).lookup key = some v
  value : v.isSome = true → c.codec.RoundTrips v
  null : v = none → r.writesNulls = true

/-! ## Reading it back -/

variable {c : Cache Base} {r : Request Base υ ε ρ κ τ} {reply : Reply ρ τ} {w w' : World Base υ}

/-- When the writes are back, a settled key shows its value. -/
theorem Settles.shown {key : Key} {v : Option τ} (h : r.Settles c reply key v)
    (hstore : c.store = Base.store) (hinline : r.options.writeBack = .inline)
    (hnull : c.codec.KeepsNull) (hready : w.scene.Ready (c.ttl r.options) (r.writes c reply))
    (hback : c.WritesBack r.options r.writesNulls (r.attributed c reply) w w') :
    c.shown τ (w'.scene.view key) = some (Entry.ofOption v) := by
  obtain ⟨w₁, hnoted, rfl⟩ := hback
  obtain ⟨es, hscene⟩ := hnoted.exists_logAll
  have hready' : w₁.scene.Ready (c.ttl r.options) (r.writes c reply) := hscene ▸ hready.logAll es
  obtain ⟨bytes, hencode, hdecode⟩ : c.codec.RoundTrips v := by
    cases v with
    | none => exact hnull τ
    | some v => exact h.value rfl
  have hmem : (⟨key, bytes, .overwrite⟩ : PendingWrite) ∈ r.writes c reply :=
    Cache.mem_overwrites h.first h.null hencode
  have hview := Cache.view_runJob_of_mem hready' (Cache.nodup_overwrites _ _) hmem
  rw [Cache.writeBack_inline hinline, hstore]
  rw [writes] at hview
  rw [hview]
  have hentry : c.entryIn? τ bytes = some (Entry.ofOption v) := by
    rw [Cache.entryIn?, hdecode]
    rfl
  exact hentry

/-- What a request has written is what reads of the same keys give, from the store alone. A batch
read takes for equal objects the key of the first (`Batch.assigns_of_own`). -/
theorem run_read_your_writes (hstore : c.store = Base.store) (henabled : c.config.disabled = false)
    (hnull : c.codec.KeepsNull) (hwrite : r.isWrite = true)
    (hinline : r.options.writeBack = .inline) (hrun : r.run c w = (.ok reply, w')) :
    ∃ source w₁, r.source? [] = some source ∧ source w = (.ok reply, w₁) ∧
      (w₁.scene.Ready (c.ttl r.options) (r.writes c reply) →
        ∀ v : World Base υ,
          (∀ key a, r.Settles c reply key a → v.scene.view key = w'.scene.view key) →
          ∀ (κ' : Kind) (o : Options), o.bypass = false →
            (∀ (ys : List κ') (keyOf : κ' → Key) (valueOf : Key → Option τ),
              (o.keysFromResults = true → c.registry.isRegistered τ = true) →
              Batch.Assigns c.keys o.keyspace ys keyOf →
              (∀ y ∈ ys, r.Settles c reply (keyOf y) (valueOf (keyOf y))) →
              let keys := (ys.map keyOf).eraseDups
              ∃ v', c.store.Leads (Cache.bulkReads keys) (Stats.addHits keys.length) v v' ∧
                ∀ source' : List κ' → Computation Base υ ε (List (Option τ)),
                  c.readMany o ys source' v = (.ok (present o.skipNulls
                    (ys.map fun y => Entry.ofOption (valueOf (keyOf y)))), v')) ∧
            (o.keysFromResults = false → ∀ (y : κ') (key : Key) (a : Option τ),
              c.keys.keyFor o.keyspace y = .ok key → r.Settles c reply key a →
              ∃ v', c.store.Leads [.get key] (Stats.addHits 1) v v' ∧
                ∀ compute' : Computation Base υ ε (Option τ),
                  c.read o y compute' v = (.ok a, v'))) := by
  obtain ⟨source, w₁, hsource, hanswer, hback⟩ := writesBack_of_run henabled hwrite hrun
  refine ⟨source, w₁, hsource, hanswer, fun hready v hkept κ' o hbypass => ?_⟩
  have hshown : ∀ key a, r.Settles c reply key a →
      c.shown τ (v.scene.view key) = some (Entry.ofOption a) := fun key a hsettles => by
    rw [hkept key a hsettles]
    exact hsettles.shown hstore hinline hnull hready hback
  constructor
  · intro ys keyOf valueOf hkind hkeys hys
    let entryOf (key : Key) : Entry τ := .ofOption (valueOf key)
    have hentries : ∀ y ∈ ys, c.shown τ (v.scene.view (keyOf y)) = some (entryOf (keyOf y)) :=
      fun y hy => hshown _ _ (hys y hy)
    exact Cache.readMany_of_shown hstore henabled hbypass hkeys hkind hentries
  · intro hposition y key a hkey hsettles
    obtain ⟨v', hleads, hread⟩ := Cache.read_of_shown (ε := ε) hstore henabled hbypass hposition
      hkey (hshown key a hsettles)
    exact ⟨v', hleads, fun compute' => by rw [hread compute', Entry.toOption_ofOption]⟩

/-- Rows go under their own keys, of two with one key the first, and are read back by texts. -/
theorem run_read_your_writes_of_rows :
    let c : Cache Base :=
      { store := Base.store, registry := ⟨[⟨.item, fun i : Kind.item => i.sku⟩]⟩ }
    let w : World Base Unit :=
      { scene := { contents := .memory .empty, now := 0 }, outside := () }
    let rows : List (Option Kind.item) := [some ⟨"a", 1⟩, none, some ⟨"a", 2⟩, some ⟨"b", 3⟩]
    let r : Request Base Unit Unit Unit .string .item :=
      .writeManyByResult { keyspace := "n" } fun w => (.ok rows, w)
    ∃ w', r.run c w = (.ok (.values rows), w') ∧
      ∃ w'', ∀ source : List Kind.string → Computation Base Unit Unit (List (Option Kind.item)),
        c.readMany { keyspace := "n" } ["b", "a"] source w' =
          (.ok [some (⟨"b", 3⟩ : Item), some (⟨"a", 1⟩ : Item)], w'') := by
  intro c w rows r
  have hrun : r.run c w = (.ok (.values rows), (r.run c w).2) := Prod.ext rfl rfl
  obtain ⟨source, w₁, hsource, hanswer, hread⟩ := run_read_your_writes rfl rfl
    Codec.keepsNull_json rfl rfl hrun
  obtain rfl := Option.some.inj hsource
  obtain rfl : w = w₁ := congrArg Prod.snd hanswer
  obtain ⟨hmany, -⟩ := hread ⟨by decide, by decide, trivial⟩ (r.run c w).2 (fun _ _ _ => rfl)
    .string { keyspace := "n" } rfl
  let keyOf (x : Kind.string) : Key := ⟨"n:" ++ x⟩
  let valueOf (key : Key) : Option Kind.item :=
    if key = ⟨"n:a"⟩ then some ⟨"a", 1⟩ else some ⟨"b", 3⟩
  have hkeys : ∀ y ∈ (["b", "a"] : List Kind.string), c.keys.keyFor "n" y = .ok (keyOf y) := by
    intro y hy
    simp only [List.mem_cons, List.not_mem_nil, or_false] at hy
    rcases hy with rfl | rfl <;> decide +kernel
  obtain ⟨w'', -, hagain⟩ := hmany ["b", "a"] keyOf valueOf (fun h => by cases h)
    (Batch.assigns_of_ne (by decide) hkeys) fun y hy => by
      simp only [List.mem_cons, List.not_mem_nil, or_false] at hy
      rcases hy with rfl | rfl <;>
        exact ⟨by decide +kernel, fun _ => ⟨_, rfl, by decide +kernel⟩, fun h => by cases h⟩
  exact ⟨_, hrun, w'', fun source => (hagain source).trans (by congr 1)⟩

end Request

end CacheAside

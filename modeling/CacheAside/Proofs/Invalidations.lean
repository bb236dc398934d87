import CacheAside.Proofs.Ledger

/-!
# What an invalidation removes

An invalidation deletes each of its keys once, whatever becomes of the others. The entries under
keys whose deletes go through are gone, all others are as they were, and what is counted is the live
entries that are gone. The deletes come before the data source is asked, or behind an answer of it.
-/

namespace CacheAside

open Rig

variable {υ : Type}

/-! ## One delete after another -/

/-- Whether a delete takes a live entry away, by what goes wrong with it. -/
def takes (live : Key → Bool) (failure : Key → Option StoreError) (key : Key) : Bool :=
  (failure key).isNone && live key

/-- The books of some deletes. -/
def Books.ofDeletes (live : Key → Bool) (failure : Key → Option StoreError) (keys : List Key) :
    Books where
  ledger := keys.map fun key => ⟨.delete key, (failure key).isSome, takes live failure key⟩
  log := keys.filterMap fun key => (failure key).map (.deleteFailed key)
  stats := {
    writeFailures := .ofNat (keys.countP fun key => (failure key).isSome)
    invalidations := .ofNat (keys.countP (takes live failure)) }

/-- From one world to another some keys have been deleted, each once and in their order. -/
structure World.Invalidated (layers : Layers) (w : World Ledgered υ) (keys : List Key)
    (failure : Key → Option StoreError) (w' : World Ledgered υ) : Prop where
  nodup : keys.Nodup
  books : w'.books = w.books ++ .ofDeletes w.below.isLive failure keys
  kept (key : Key) : w'.below.contents.kept key =
    if key ∈ keys ∧ failure key = none then none else w.below.contents.kept key
  /-- Deletes that take no time fail as planned. -/
  planned : layers.latency = none → ∀ plan, w.below.contents.planned = some plan → ∀ key ∈ keys,
    failure key = if key ∈ plan then some (RecordingStore.injected "delete") else none
  plan : w'.below.contents.planned = w.below.contents.planned
  now : w'.scene.now = w.scene.now
  aside : (w'.pending, w'.executor, w'.outside) = (w.pending, w.executor, w.outside)

section
variable {live live' : Key → Bool} {failures failures' : Key → Option StoreError} {keys : List Key}

theorem Books.ofDeletes_append (first second : List Key) :
    Books.ofDeletes live failures (first ++ second) =
      .ofDeletes live failures first ++ .ofDeletes live failures second := by
  simp only [Books.append_def, Books.ofDeletes, List.map_append, List.filterMap_append,
    List.countP_append, UInt64.ofNat_add]
  rfl

theorem takes_congr (h : ∀ key ∈ keys, live key = live' key ∧ failures key = failures' key) :
    ∀ key ∈ keys, takes live failures key = takes live' failures' key := fun key hkey => by
  rw [takes, takes, (h key hkey).1, (h key hkey).2]

theorem Books.ofDeletes_congr
    (h : ∀ key ∈ keys, live key = live' key ∧ failures key = failures' key) :
    Books.ofDeletes live failures keys = .ofDeletes live' failures' keys := by
  have htakes := takes_congr h
  have hposted : keys.map (fun key => Posting.mk (.delete key) (failures key).isSome
      (takes live failures key)) = keys.map fun key => ⟨.delete key, (failures' key).isSome,
      takes live' failures' key⟩ :=
    List.map_congr_left fun key hkey => by rw [(h key hkey).2, htakes key hkey]
  have hlogged : keys.filterMap (fun key => (failures key).map (Event.deleteFailed key)) =
      keys.filterMap fun key => (failures' key).map (.deleteFailed key) :=
    List.filterMap_congr fun key hkey => by rw [(h key hkey).2]
  have hfailed : keys.countP (fun key => (failures key).isSome) =
      keys.countP fun key => (failures' key).isSome :=
    List.countP_congr fun key hkey => by rw [(h key hkey).2]
  have htaken : keys.countP (takes live failures) = keys.countP (takes live' failures') :=
    List.countP_congr fun key hkey => by rw [htakes key hkey]
  simp only [Books.ofDeletes, hposted, hlogged, hfailed, htaken]

theorem Books.ofDeletes_singleton (failure : Option StoreError) (key : Key) :
    Books.ofDeletes live (fun _ => failure) [key] = {
      ledger := [⟨.delete key, failure.isSome, takes live (fun _ => failure) key⟩]
      log := (failure.map (.deleteFailed key)).toList
      stats := if failure.isSome then Stats.addWriteFailure 0
        else if live key then Stats.addInvalidation 0 else 0 } := by
  cases failure with
  | some e => rfl
  | none =>
      have htakes : takes live (fun _ => none) key = live key := rfl
      simp only [ofDeletes, List.map_cons, List.map_nil, List.countP_singleton, htakes]
      cases live key <;> rfl

end

namespace World.Invalidated

variable {layers : Layers} {w w₁ w₂ : World Ledgered υ} {key : Key} {keys : List Key}
  {failure : Option StoreError} {failures : Key → Option StoreError}

theorem nil (w : World Ledgered υ) : w.Invalidated layers [] failures w where
  nodup := .nil
  books := by
    have hnone : Books.ofDeletes w.below.isLive failures [] = {} := rfl
    simp [hnone, Books.append_def, World.books]
  kept key := (if_neg fun h => List.not_mem_nil h.1).symm
  planned _ _ _ _ h := absurd h List.not_mem_nil
  plan := rfl
  now := rfl
  aside := rfl

theorem isLive_eq (h : w.Invalidated layers keys failures w₁) (hkey : key ∉ keys) :
    w₁.below.isLive key = w.below.isLive key := by
  have hkept := h.kept key
  rw [if_neg fun hmem => hkey hmem.1] at hkept
  have hnow : w₁.below.now = w.below.now := h.now
  rw [Scene.isLive, Scene.isLive, Base.lookup_eq_kept, Base.lookup_eq_kept, hkept, hnow]

theorem cons_rest (h : w.Invalidated layers [key] (fun _ => failure) w₁) (hkey : key ∉ keys)
    (failures : Key → Option StoreError) :
    ∀ j ∈ keys, w₁.below.isLive j = w.below.isLive j ∧
      failures j = if j = key then failure else failures j := fun j hj => by
  have hne : j ≠ key := fun he => hkey (he ▸ hj)
  exact ⟨h.isLive_eq fun hmem => hne (List.mem_singleton.mp hmem), (if_neg hne).symm⟩

theorem cons (h : w.Invalidated layers [key] (fun _ => failure) w₁)
    (h' : w₁.Invalidated layers keys failures w₂) (hkey : key ∉ keys) :
    w.Invalidated layers (key :: keys) (fun j => if j = key then failure else failures j) w₂ := by
  have hne : ∀ j ∈ keys, j ≠ key := fun j hj he => hkey (he ▸ hj)
  have hfirst : ∀ j ∈ [key], w.below.isLive j = w.below.isLive j ∧
      failure = if j = key then failure else failures j := fun j hj =>
    ⟨rfl, (if_pos (List.mem_singleton.mp hj)).symm⟩
  have hrest := h.cons_rest hkey failures
  constructor
  case nodup => exact List.nodup_cons.mpr ⟨hkey, h'.nodup⟩
  case books =>
    rw [← List.singleton_append, Books.ofDeletes_append, ← Books.ofDeletes_congr hfirst,
      ← Books.ofDeletes_congr hrest, h'.books, h.books]
    simp only [Books.append_def, List.append_assoc, add_assoc]
  case kept =>
    intro j
    rw [h'.kept, h.kept]
    by_cases hj : j = key
    · subst hj
      simp [hkey]
    · simp [hj]
  case planned =>
    intro hl plan hplan
    have hplan₁ := h'.planned hl plan (h.plan.trans hplan)
    refine List.forall_mem_cons.mpr ⟨?_, fun j hj => ?_⟩
    · rw [if_pos rfl]
      exact h.planned hl plan hplan key List.mem_cons_self
    · rw [if_neg (hne j hj)]
      exact hplan₁ j hj
  case plan => exact h'.plan.trans h.plan
  case now => exact h'.now.trans h.now
  case aside => exact h'.aside.trans h.aside

theorem of_removed {answer : Except StoreError Bool}
    (h : Base.Removed key w.below answer w₁.below)
    (hheeds : layers.latency = none → ∀ plan, w.below.contents.planned = some plan →
      Base.failureOf answer =
        if key ∈ plan then some (RecordingStore.injected "delete") else none)
    (hcontents : w₂.below.contents = w₁.below.contents) (hnow : w₂.scene.now = w₁.scene.now)
    (haside : (w₂.pending, w₂.executor, w₂.outside) = (w.pending, w.executor, w.outside))
    (hbooks : w₂.books =
      w.books ++ .ofDeletes w.below.isLive (fun _ => Base.failureOf answer) [key]) :
    w.Invalidated layers [key] (fun _ => Base.failureOf answer) w₂ where
  nodup := List.nodup_singleton key
  books := hbooks
  kept j := by simpa [hcontents] using h.kept j
  planned hl plan hplan j hj := by
    obtain rfl := List.mem_singleton.mp hj
    exact hheeds hl plan hplan
  plan := hcontents ▸ h.planned
  now := hnow.trans h.now
  aside := haside

end World.Invalidated

theorem removes_of_removed {key : Key} {s s' : Scene Base} {answer : Except StoreError Bool}
    (h : Base.Removed key s answer s') : StoreCall.removes (.delete key) s s' =
      takes s.isLive (fun _ => Base.failureOf answer) key := by
  have hlive := congrArg Option.isSome (h.lookup key)
  simp only [StoreCall.removes, takes, Scene.isLive, hlive]
  cases answer <;> simp [Base.failureOf]

namespace Cache

variable {layers : Layers} {c : Cache Ledgered} {w : World Ledgered υ}

/-- A delete that fails leaves everything under its key, one that does not leaves nothing. -/
theorem invalidated_deleteOne (hstore : c.store = layers.outer.ledgered) (key : Key)
    (w : World Ledgered υ) : ∃ failure : Option StoreError,
      w.Invalidated layers [key] (fun _ => failure) (c.deleteOne key w).2 ∧
      (c.deleteOne key w).1 = takes w.below.isLive (fun _ => failure) key := by
  rcases hdelete : w.call (layers.outer.ledgered.delete key) with ⟨answer, w'⟩
  have hremoved := layers.removes_outer key w.below
  have hheeds := fun hl => layers.heeds_outer hl key w.below
  have hbooks := World.books_call hdelete hremoved.events
  have hanswer : (layers.outer.delete key w.below).1 = answer := congrArg Prod.fst hdelete
  have hbelow : (layers.outer.delete key w.below).2 = w'.below :=
    congrArg (fun r => r.2.below) hdelete
  have haside : (w'.pending, w'.executor, w'.outside) = (w.pending, w.executor, w.outside) :=
    (congrArg (fun r => (r.2.pending, r.2.executor, r.2.outside)) hdelete).symm
  rw [hanswer, hbelow] at hremoved
  rw [hanswer] at hheeds
  rw [removes_of_removed hremoved] at hbooks
  -- What is counted and logged behind the call changes nothing else.
  have hdone : ∀ v : World Ledgered υ, v.below.contents = w'.below.contents →
      v.scene.now = w'.scene.now → (v.pending, v.executor, v.outside) =
        (w'.pending, w'.executor, w'.outside) →
      v.books = w.books ++ .ofDeletes w.below.isLive (fun _ => Base.failureOf answer) [key] →
      w.Invalidated layers [key] (fun _ => Base.failureOf answer) v :=
    fun v hcontents hnow haside' hbooks =>
      .of_removed hremoved hheeds hcontents hnow (haside'.trans haside) hbooks
  rw [Books.ofDeletes_singleton] at hdone
  refine ⟨Base.failureOf answer, ?_⟩
  simp only [deleteOne, hstore, hdelete]
  rcases answer with e | _ | _
  · exact ⟨hdone _ rfl rfl rfl (World.books_count (World.books_log hbooks _)
      Stats.isCharge_addWriteFailure), rfl⟩
  · have hdead : w.below.isLive key = false := (hremoved.told false rfl).symm
    refine ⟨hdone _ rfl rfl rfl ?_, hdead.symm⟩
    rw [hbooks, hdead]
    rfl
  · have hlive : w.below.isLive key = true := (hremoved.told true rfl).symm
    refine ⟨hdone _ rfl rfl rfl ?_, hlive.symm⟩
    rw [World.books_count hbooks Stats.isCharge_addInvalidation, hlive]
    rfl

/-- Every key has its turn, whatever has become of those before it. -/
theorem invalidated_deleteAll (hstore : c.store = layers.outer.ledgered) :
    ∀ {keys : List Key}, keys.Nodup → ∀ w : World Ledgered υ, ∃ failures,
      w.Invalidated layers keys failures (c.deleteAll keys w).2 ∧
      (c.deleteAll keys w).1 = keys.countP (takes w.below.isLive failures)
  | [], _, w => ⟨fun _ => none, .nil w, rfl⟩
  | key :: keys, hnodup, w => by
      obtain ⟨hkey, hrest⟩ := List.nodup_cons.mp hnodup
      obtain ⟨failure, hone, hremoved⟩ := invalidated_deleteOne hstore key w
      obtain ⟨failures, hall, hcount⟩ := invalidated_deleteAll hstore hrest (c.deleteOne key w).2
      have htakes := takes_congr (hone.cons_rest hkey failures)
      refine ⟨_, hone.cons hall hkey, ?_⟩
      have hfirst : takes w.below.isLive (fun j => if j = key then failure else failures j) key =
          (c.deleteOne key w).1 := by
        rw [hremoved, takes, takes, if_pos rfl]
      have hsame : keys.countP (takes (c.deleteOne key w).2.below.isLive failures) =
          keys.countP (takes w.below.isLive fun j => if j = key then failure else failures j) :=
        List.countP_congr fun j hj => by rw [htakes j hj]
      simp only [deleteAll, hcount, List.countP_cons, hfirst, hsame]
      split <;> simp_all

end Cache

/-! ## Requests -/

namespace Request

variable {ε ρ : Type} {κ τ : Kind}

/-- When an invalidation deletes. Without a data source there is nothing to wait for. -/
def timing {σ : Type} : Request σ υ ε ρ κ τ → Timing
  | .invalidateAround _ _ timing _ | .invalidateManyAround _ _ timing _ => timing
  | .invalidate .. | .invalidateMany .. => .before
  | _ => .after

/-- The keys that an invalidation deletes behind an answer. -/
def keysBehind {σ : Type} (c : Cache σ) (r : Request σ υ ε ρ κ τ) (reply : Reply ρ τ) : List Key :=
  if r.isByResult then
    (reply.present.filterMap fun v => (c.keys.keyForResult r.options.keyspace v).toOption).eraseDups
  else r.keys c

/-- What an invalidation without a data source says of the number of live entries that are gone. -/
def countReply {σ : Type} (r : Request σ υ ε ρ κ τ) (count : Nat) : Reply ρ τ :=
  match r with
  | .invalidate .. => .flag (decide (0 < count))
  | _ => .count count

/-- How an invalidation goes on that asks its data source first. -/
def Late {σ : Type} (c : Cache σ) (r : Request σ υ ε ρ κ τ) (w : World σ υ) : Prop :=
  ∃ source, r.source? [] = some source ∧
    (∀ e w₁, source w = (.error e, w₁) → r.run c w = (.error (.source e), w₁)) ∧
    ∀ reply w₁, source w = (.ok reply, w₁) → r.verdict c [] reply = .ok () →
      r.run c w = (.ok reply, (c.deleteAll (r.keysBehind c reply) w₁).2)

section
variable {σ : Type} {c : Cache σ} {r : Request σ υ ε ρ κ τ} {w : World σ υ}
  (henabled : c.config.disabled = false)

theorem nodup_keys : (r.keys c).Nodup := nodup_eraseDups _

theorem nodup_keysBehind (reply : Reply ρ τ) : (r.keysBehind c reply).Nodup := by
  unfold keysBehind
  split <;> exact nodup_eraseDups _

theorem keysBehind_eq {reply : Reply ρ τ} {rowKey : τ → Key} (hby : r.isByResult = true)
    (hrows : ∀ v ∈ reply.present, c.keys.keyForResult r.options.keyspace v = .ok (rowKey v)) :
    r.keysBehind c reply = (reply.present.map rowKey).eraseDups := by
  have hmap : ∀ v ∈ reply.present,
      (c.keys.keyForResult r.options.keyspace v).toOption = some (rowKey v) :=
    fun v hv => by rw [hrows v hv]; rfl
  rw [keysBehind, if_pos hby, List.filterMap_congr hmap]
  exact congrArg List.eraseDups (congrFun List.filterMap_eq_map reply.present)

include henabled

theorem run_early (hr : r.isInvalidation = true) (hvalid : r.Valid c)
    (htiming : r.timing = .before) (w : World σ υ) :
    r.run c w = match r.source? [] with
      | some source => source.direct (c.deleteAll (r.keys c) w).2
      | none =>
        (.ok (r.countReply (c.deleteAll (r.keys c) w).1), (c.deleteAll (r.keys c) w).2) := by
  cases r with
  | invalidate o x => exact run_invalidate henabled hvalid
  | invalidateMany o xs => exact run_invalidateMany henabled hvalid
  | invalidateAround o x timing compute =>
      obtain rfl : timing = .before := htiming
      rw [run_invalidateAround henabled hvalid]
      exact Computation.inForm_direct Reply.other compute
  | invalidateManyAround o xs timing compute =>
      obtain rfl : timing = .before := htiming
      rw [run_invalidateManyAround henabled hvalid]
      exact Computation.inForm_direct Reply.other compute
  | invalidateByResult | invalidateManyByResult => cases htiming
  | _ => cases hr

omit henabled in
theorem late_of_compute {α : Type} {compute : Computation σ υ ε α} {form : α → Reply ρ τ}
    (hsource : r.source? [] = some (compute.inForm form))
    (herror : ∀ e w₁, compute w = (.error e, w₁) → r.run c w = (.error (.source e), w₁))
    (hgood : ∀ a w₁, compute w = (.ok a, w₁) → r.verdict c [] (form a) = .ok () →
      r.run c w = (.ok (form a), (c.deleteAll (r.keysBehind c (form a)) w₁).2)) : r.Late c w := by
  refine ⟨_, hsource, fun e w₁ h => herror e w₁ (Computation.eq_error_of_inForm h),
    fun reply w₁ h hverdict => ?_⟩
  obtain ⟨a, hcompute, rfl⟩ := Computation.exists_of_inForm h
  exact hgood a w₁ hcompute hverdict

omit henabled in
theorem late_of_around {compute : Computation σ υ ε ρ}
    (hsource : r.source? [] = some (compute.inForm .other))
    (hkeys : ∀ reply, r.keysBehind c reply = r.keys c)
    (hrun : r.run c w = wrap .other (c.around .after (r.keys c) compute) w) : r.Late c w := by
  refine late_of_compute hsource (fun e w₁ h => ?_) fun a w₁ h _ => ?_
  · simp only [hrun, wrap, around_eq, reduceCtorEq, ↓reduceIte, h]
  · simp only [hrun, wrap, around_eq, reduceCtorEq, ↓reduceIte, h, hkeys]

omit henabled in
theorem late_of_deletingRows {α : Type} {compute : Computation σ υ ε α} {form : α → Reply ρ τ}
    (hsource : r.source? [] = some (compute.inForm form)) (hby : r.isByResult = true)
    (hverdict : ∀ a, r.verdict c [] (form a) = resultKeys c r.options (form a).present)
    (hrun : r.run c w = deletingRows c r.options form (fun a => (form a).present) compute w) :
    r.Late c w := by
  refine late_of_compute hsource (fun e w₁ h => ?_) fun a w₁ h hgood => ?_
  · rw [hrun, deletingRows, h]
  · rw [hverdict] at hgood
    obtain ⟨rowKey, hrowKey⟩ := resultKeys_eq_ok hgood
    rw [hrun, deletingRows, h, keysBehind_eq hby hrowKey]
    simp only [mapM_eq_ok hrowKey]

theorem run_late (hr : r.isInvalidation = true) (hvalid : r.Valid c) (htiming : r.timing = .after)
    (w : World σ υ) : r.Late c w := by
  cases r with
  | invalidateAround o x timing compute =>
      obtain rfl : timing = .after := htiming
      exact late_of_around rfl (fun _ => rfl) (run_invalidateAround henabled hvalid)
  | invalidateManyAround o xs timing compute =>
      obtain rfl : timing = .after := htiming
      exact late_of_around rfl (fun _ => rfl) (run_invalidateManyAround henabled hvalid)
  | invalidateByResult o compute =>
      exact late_of_deletingRows rfl rfl (fun _ => rfl)
        (run_invalidateByResult henabled hvalid)
  | invalidateManyByResult o compute =>
      exact late_of_deletingRows rfl rfl (fun _ => rfl)
        (run_invalidateManyByResult henabled hvalid)
  | invalidate | invalidateMany => cases htiming
  | _ => cases hr

end

/-- An invalidation deletes each of its keys once, whatever becomes of the others, and no entry is
gone but those under keys whose deletes have gone through. It does so before its data source is
asked, whatever that says, or behind an answer of it; and it passes on what the data source says. -/
theorem run_invalidation (layers : Layers) (c : Cache Ledgered)
    (hstore : c.store = layers.outer.ledgered) (henabled : c.config.disabled = false)
    (r : Request Ledgered υ ε ρ κ τ) (hr : r.isInvalidation = true) (hvalid : r.Valid c)
    (w : World Ledgered υ) :
    (r.timing = .before → ∃ failure w₁, w.Invalidated layers (r.keys c) failure w₁ ∧
      r.run c w = match r.source? [] with
        | some source => source.direct w₁
        | none => (.ok (r.countReply ((r.keys c).countP (takes w.below.isLive failure))), w₁)) ∧
    (r.timing = .after → ∃ source, r.source? [] = some source ∧
      (∀ e w₁, source w = (.error e, w₁) → r.run c w = (.error (.source e), w₁)) ∧
      ∀ reply w₁, source w = (.ok reply, w₁) → r.verdict c [] reply = .ok () →
        ∃ failure w₂, w₁.Invalidated layers (r.keysBehind c reply) failure w₂ ∧
          r.run c w = (.ok reply, w₂)) := by
  refine ⟨fun htiming => ?_, fun htiming => ?_⟩
  · obtain ⟨failure, hinvalidated, hcount⟩ :=
      Cache.invalidated_deleteAll hstore (nodup_keys (r := r) (c := c)) w
    refine ⟨failure, _, hinvalidated, ?_⟩
    rw [run_early henabled hr hvalid htiming w, ← hcount]
    cases r.source? [] <;> rfl
  · obtain ⟨source, hsource, herror, hgood⟩ := run_late henabled hr hvalid htiming w
    refine ⟨source, hsource, herror, fun reply w₁ hreply hverdict => ?_⟩
    obtain ⟨failure, hinvalidated, -⟩ :=
      Cache.invalidated_deleteAll hstore (nodup_keysBehind reply) w₁
    exact ⟨failure, _, hinvalidated, hgood reply w₁ hreply hverdict⟩

/-- Of three keys one cannot be deleted, and the entry under another has expired. -/
theorem run_invalidation_of_failing_delete :
    let c : Cache Ledgered := { store := ({} : Layers).outer.ledgered }
    let m : MemoryStore := ⟨((Table.empty.insert ⟨"n:1"⟩ ⟨[1], none⟩).insert ⟨"n:2"⟩
      ⟨[2], none⟩).insert ⟨"n:3"⟩ ⟨[3], some 500⟩⟩
    let s : RecordingStore := { memory := m, failures := { deletes := [⟨"n:2"⟩] } }
    let w : World Ledgered Unit :=
      { scene := { contents := ⟨.recording s, []⟩, now := 1000 }, outside := () }
    let r : Request Ledgered Unit Unit Unit .word32 .word32 :=
      .invalidateMany { keyspace := "n" } [(2 : UInt32), 1, 3, 2]
    ∃ w₁, r.run c w = (.ok (.count 1), w₁) ∧
      w₁.books = {
        ledger := [⟨.delete ⟨"n:2"⟩, true, false⟩, ⟨.delete ⟨"n:1"⟩, false, true⟩,
          ⟨.delete ⟨"n:3"⟩, false, false⟩]
        log := [.deleteFailed ⟨"n:2"⟩ (RecordingStore.injected "delete")]
        stats := { writeFailures := 1, invalidations := 1 } } ∧
      w₁.below.contents.kept ⟨"n:2"⟩ = some (.inl ⟨[2], none⟩) := by
  intro c m s w r
  have hkeyOf : ∀ x ∈ ([2, 1, 3, 2] : List Kind.word32),
      c.keys.keyFor "n" x = .ok ⟨"n:" ++ toString x.toNat⟩ := by
    refine List.forall_mem_cons.mpr ⟨by decide +kernel, List.forall_mem_cons.mpr
      ⟨by decide +kernel, List.forall_mem_cons.mpr ⟨by decide +kernel, ?_⟩⟩⟩
    exact List.forall_mem_singleton.mpr (by decide +kernel)
  have hblank : isBlank "n" = false := by decide +kernel
  have hvalid : r.Valid c := {
    options := by simp [r, options, Options.validate, hblank]
    objects := fun x hx => ⟨_, hkeyOf x hx⟩
    kind := fun h => by cases h
    mode := fun h => by cases h }
  obtain ⟨failure, w₁, hinvalidated, hrun⟩ := (run_invalidation {} c rfl rfl r rfl hvalid w).1 rfl
  have hkeys : r.keys c = [⟨"n:2"⟩, ⟨"n:1"⟩, ⟨"n:3"⟩] := (keys_eq hkeyOf).trans (by decide +kernel)
  rw [hkeys] at hinvalidated hrun
  let planned : Key → Option StoreError := fun key =>
    if key ∈ s.failures.deletes then some (RecordingStore.injected "delete") else none
  have hplanned : ∀ key ∈ [⟨"n:2"⟩, ⟨"n:1"⟩, ⟨"n:3"⟩],
      w.below.isLive key = w.below.isLive key ∧ failure key = planned key :=
    fun key hkey => ⟨rfl, hinvalidated.planned rfl _ rfl key hkey⟩
  have hbooks := hinvalidated.books
  rw [Books.ofDeletes_congr hplanned] at hbooks
  have hcount : List.countP (takes w.below.isLive failure) [⟨"n:2"⟩, ⟨"n:1"⟩, ⟨"n:3"⟩] = 1 :=
    (List.countP_congr fun key hkey => by rw [takes_congr hplanned key hkey]).trans
      (show List.countP (takes w.below.isLive planned) _ = 1 by decide +kernel)
  refine ⟨w₁, ?_, ?_, ?_⟩
  · rw [hrun, hcount]
    rfl
  · rw [hbooks]
    simp only [Books.append_def, Books.mk.injEq]
    decide +kernel
  · rw [hinvalidated.kept, (hplanned ⟨"n:2"⟩ List.mem_cons_self).2]
    rfl

end Request

end CacheAside

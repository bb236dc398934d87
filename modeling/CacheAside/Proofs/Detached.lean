import CacheAside.Proofs.Turns

/-!
# Writes left behind

A call that leaves its writes behind compared with the same call that makes them at once. There is no
difference once they are made: right behind the call, without anything to leave them to, or, as
long as nobody looks, behind any number of calls.
-/

namespace CacheAside

/-- A world without its log. -/
def World.quiet {σ υ : Type} (w : World σ υ) : World σ υ :=
  { w with scene := { w.scene with events := [] } }

/-! ## Draining -/

namespace World

variable {σ υ υ' : Type} {w : World σ υ}

/-- What is counted and kept outside meanwhile. -/
def aside (w : World σ υ) (change : Stats → Stats) (outside : υ') : World σ υ' :=
  { w.withOutside outside with stats := change w.stats }

theorem count_aside {change change' : Stats → Stats} (h : Stats.IsCharge change)
    (h' : Stats.IsCharge change') (outside : υ') :
    (w.aside change outside).count change' = (w.count change').aside change outside := by
  have hswap : change' (change w.stats) = change (change' w.stats) := by
    rw [h', h w.stats, h (change' w.stats), h' w.stats, add_right_comm]
  simp only [aside, count, withOutside, hswap]

end World

namespace Cache

variable {σ υ υ' : Type} {store : Store σ} {v w : World σ υ}

theorem exists_drain (store : Store σ) (w : World σ υ) :
    ∃ scene stats, drain store w = { w with scene, stats, pending := [] } := by
  unfold drain
  generalize w.pending = jobs
  obtain ⟨scene, stats, pending, executor, outside⟩ := w
  induction jobs generalizing scene stats with
  | nil => exact ⟨scene, stats, rfl⟩
  | cons job jobs ih =>
      obtain ⟨scene', stats', hjob⟩ := exists_runJob store job
        ⟨scene, stats, [], executor, outside⟩
      rw [List.foldl_cons, hjob]
      exact ih scene' stats'

theorem pending_drain : (drain store w).pending = [] := by
  obtain ⟨scene, stats, hdrain⟩ := exists_drain store w
  rw [hdrain]

theorem executor_drain : (drain store w).executor = w.executor := by
  obtain ⟨scene, stats, hdrain⟩ := exists_drain store w
  rw [hdrain]

theorem outside_drain : (drain store w).outside = w.outside := by
  obtain ⟨scene, stats, hdrain⟩ := exists_drain store w
  rw [hdrain]

theorem drain_of_pending (h : w.pending = []) : drain store w = w := by
  obtain ⟨scene, stats, pending, executor, outside⟩ := w
  obtain rfl : pending = [] := h
  rfl

/-- A job that is left behind is made behind all others. -/
theorem drain_leave (job : Job) :
    drain store { w with pending := w.pending ++ [job] } = runJob store (drain store w) job :=
  List.foldl_append

theorem executor_writeBack {c : Cache σ} {o : Options} (writes : List PendingWrite) :
    (c.writeBack o writes w).executor = w.executor := by
  unfold writeBack
  split
  · rfl
  cases o.writeBack with
  | inline => exact executor_runJob _
  | detached =>
      simp only
      split
      · rfl
      · exact executor_runJob _

/-- To leave writes behind and make them is to make them behind what has been left. -/
theorem drain_writeBack {c : Cache σ} (h : w.executor = true) (o : Options)
    (writes : List PendingWrite) :
    drain c.store (c.writeBack (o.inMode .detached) writes w) =
      c.writeBack (o.inMode .inline) writes (drain c.store w) := by
  by_cases hnil : writes = []
  · rw [writeBack, writeBack, if_pos hnil, if_pos hnil]
  · rw [writeBack, writeBack, if_neg hnil, if_neg hnil]
    simp only [Options.inMode]
    rw [if_pos h]
    exact drain_leave _

theorem drain_matches {C : σ → σ → Prop} {L : List Event → List Event → Prop}
    {E : Bool → Bool → Prop} (hstore : store.Uniform (fun _ => True) C L) (hL : GrowTogether L)
    (h : v.Matches C L E w) : (drain store v).Matches C L E (drain store w) := by
  have hjobs : ∀ (jobs : List Job) {v w : World σ υ}, v.Matches C L E w →
      (jobs.foldl (runJob store) v).Matches C L E (jobs.foldl (runJob store) w) := by
    intro jobs
    induction jobs with
    | nil => exact fun h => h
    | cons job jobs ih => exact fun h => ih (runJob_matches hstore hL (fun _ _ => trivial) h)
  unfold drain
  rw [h.pending]
  exact hjobs _ ⟨h.scene, h.stats, rfl, h.executor, h.outside⟩

section
variable {change : Stats → Stats}

theorem applyWrite_aside (h : Stats.IsCharge change) (outside : υ') (ttl : UInt32)
    (p : PendingWrite) : applyWrite store ttl (w.aside change outside) p =
      (applyWrite store ttl w p).aside change outside := by
  obtain ⟨key, bytes, mode⟩ := p
  cases mode with
  | overwrite =>
      rcases hset : store.setSilently key ttl bytes w.scene with ⟨stored, scene⟩
      simp only [applyWrite, World.aside, World.withOutside, hset]
      cases stored with
      | true => exact World.count_aside (w := { w with scene }) h Stats.isCharge_addWrite outside
      | false =>
          exact World.count_aside (w := { w with scene }) h Stats.isCharge_addWriteFailure outside
  | ifAbsent =>
      rcases hadd : store.add key ttl bytes w.scene with ⟨answer, scene⟩
      simp only [applyWrite, World.call, World.aside, World.withOutside, hadd]
      cases answer with
      | ok added => exact World.count_aside (w := { w with scene }) h Stats.isCharge_addWrite outside
      | error e =>
          exact World.count_aside (w := World.log { w with scene } (.addFailed key e)) h
            Stats.isCharge_addWriteFailure outside

theorem runJob_aside (h : Stats.IsCharge change) (outside : υ') (job : Job) :
    runJob store (w.aside change outside) job = (runJob store w job).aside change outside := by
  obtain ⟨writes, ttl⟩ := job
  simp only [runJob]
  induction writes generalizing w with
  | nil => rfl
  | cons p writes ih => rw [List.foldl_cons, List.foldl_cons, applyWrite_aside h, ih]

theorem drain_aside (h : Stats.IsCharge change) (outside : υ') :
    drain store (w.aside change outside) = (drain store w).aside change outside := by
  have hjobs : ∀ (jobs : List Job) (w : World σ υ), jobs.foldl (runJob store)
      (w.aside change outside) = (jobs.foldl (runJob store) w).aside change outside := by
    intro jobs
    induction jobs with
    | nil => exact fun w => rfl
    | cons job jobs ih =>
        intro w
        rw [List.foldl_cons, List.foldl_cons, runJob_aside h, ih]
  exact hjobs w.pending { w with pending := [] }

end

end Cache

/-! ## Turns -/

namespace Turn

variable {σ υ ε ρ γ : Type} {c : Cache σ} {R : World σ υ → World σ υ → Prop}
  {m m' : WriteBack}

/-- If each turn keeps a relation of worlds, so do all, also when the turns of the two runs differ.
What the relation shows of a world is the same behind all turns. -/
theorem runAll_lockstep {d : Cache σ} {f g : Turn σ υ ε ρ → Turn σ υ ε ρ}
    (settle : World σ υ → World σ υ) (view : World σ υ → γ)
    (hview : ∀ v w, R v w → view v = view w) {turns : List (Turn σ υ ε ρ)}
    (hstep : ∀ turn ∈ turns, ∀ v w, R v w →
      Lockstep (fun v w => R (settle v) w) ((f turn).run c v) ((g turn).run d w))
    {v w : World σ υ} (h : R v w) :
    (runAll c settle (turns.map f) v).1.map (Prod.map id view) =
        (runAll d id (turns.map g) w).1.map (Prod.map id view) ∧
      R (runAll c settle (turns.map f) v).2 (runAll d id (turns.map g) w).2 := by
  induction turns generalizing v w with
  | nil => exact ⟨rfl, h⟩
  | cons turn turns ih =>
      obtain ⟨account, v', w', hv', hw', hworlds⟩ :=
        (hstep turn List.mem_cons_self v w h).exists_eq
      obtain ⟨hhistory, hfinal⟩ := ih (fun t ht => hstep t (List.mem_cons_of_mem _ ht)) hworlds
      simp only [List.map_cons, runAll, hv', hw', id_eq, Prod.map_apply]
      rw [hhistory, hview _ _ hworlds]
      exact ⟨rfl, hfinal⟩

theorem lockstep_call {κ τ : Kind} {R : World σ υ → World σ υ → Prop} {r : Request σ υ ε ρ κ τ}
    {v w : World σ υ} (hrun : Lockstep R ((r.inMode m).run c v) ((r.inMode m').run c w))
    (hasked : (r.inMode m).questions c v = (r.inMode m').questions c w) :
    Lockstep R (Turn.run c ((Turn.call r).inMode m) v) (Turn.run c ((Turn.call r).inMode m') w) := by
  simp only [run, inMode, hasked, hrun.answer]
  exact ⟨rfl, hrun.states⟩

end Turn

/-! ## Right behind the call -/

/-- Whether nothing is left behind, and whether there is something that runs jobs later. -/
structure World.Clear {σ υ : Type} (executor : Bool) (w : World σ υ) : Prop where
  pending : w.pending = []
  executor : w.executor = executor

/-- A data source that has no use for what runs jobs later. -/
def Computation.Tidy {σ υ ε α : Type} (compute : Computation σ υ ε α) : Prop :=
  ∀ w, (compute w).2.pending = w.pending ∧ (compute w).2.executor = w.executor

theorem Computation.Tidy.noting {σ υ ε α : Type} {κ : Kind} {compute : Computation σ υ ε α}
    (h : compute.Tidy) (asked : List κ) : (compute.noting asked).Tidy :=
  fun w => h (w.withOutside w.outside.1)

section
variable {σ υ ε ρ : Type} {κ τ : Kind} {c : Cache σ} {o : Options} {K : Key → Prop}
  {w w' : World σ υ} {executor : Bool}

theorem World.Clear.of_reaches {store : Store σ} {calls : List StoreCall} (h : w.Clear executor)
    (hreaches : store.Reaches calls w w') : w'.Clear executor := by
  obtain ⟨tally, hleads⟩ := hreaches
  exact ⟨hleads.pending.trans h.pending, hleads.executor.trans h.executor⟩

/-- Worlds that are the same once the jobs of the first are made. -/
structure World.Settles (store : Store σ) (v w : World σ υ) : Prop where
  drained : Cache.drain store v = w
  clear : w.Clear true

namespace Cache

theorem opens_clear : c.Opens o K (Twice (World.Clear (υ := υ) executor)) := opens_twice
  (fun _ key _ _ h => h.of_reaches (reaches_lookup key))
  (fun b _ _ h => h.of_reaches (reaches_fetch b)) (fun _ _ h => ⟨h.pending, h.executor⟩)
  fun _ _ h => ⟨h.pending, h.executor⟩

theorem deletes_clear : c.Deletes K (Twice (World.Clear (υ := υ) executor)) :=
  deletes_twice fun key _ _ h => h.of_reaches (reaches_deleteOne key)

theorem closes_settles :
    c.Closes K (Twice (World.Clear (υ := υ) true)) (World.Settles c.store) .detached .inline where
  encode key a v w h := by
    obtain ⟨rfl, h⟩ := h
    have hnoted : c.store.Noted v (c.encode key a v).2 := noted_encode key a
    obtain ⟨n, hleads⟩ := hnoted
    exact ⟨rfl, rfl, h.of_reaches hleads.reaches⟩
  note e v w _ h := by
    obtain ⟨rfl, h⟩ := h
    exact ⟨rfl, h.pending, h.executor⟩
  write o writes v w _ h := by
    obtain ⟨rfl, h⟩ := h
    refine ⟨by rw [drain_writeBack h.executor, drain_of_pending h.pending], ?_, ?_⟩
    · rw [writeBack_inline rfl, pending_runJob, h.pending]
    · rw [executor_writeBack, h.executor]
  done v w h := by
    obtain ⟨rfl, h⟩ := h
    exact ⟨drain_of_pending h.pending, h⟩

end Cache

namespace Request

variable {r : Request σ υ ε ρ κ τ}

theorem run_settles (hsource : r.Sources Computation.Tidy) (h : w.Clear true) :
    Lockstep (World.Settles c.store) ((r.inMode .detached).run c w) ((r.inMode .inline).run c w) := by
  refine r.run_lockstep (K := fun _ => True) (R := Cache.Twice (World.Clear true))
    (T := fun _ => Cache.Twice (World.Clear true)) ⟨fun _ => Cache.closes_settles, ?_⟩
    (fun _ => Cache.opens_clear) (fun _ => ⟨Cache.deletes_clear, fun _ => Cache.deletes_clear⟩)
    (fun _ _ _ _ => trivial) (hsource.relates fun values compute hcompute => ?_) ⟨rfl, h⟩
  · rintro v _ ⟨rfl, h⟩
    exact ⟨Cache.drain_of_pending h.pending, h⟩
  · rintro v _ ⟨rfl, h⟩
    exact ⟨rfl, rfl, (hcompute v).1.trans h.pending, (hcompute v).2.trans h.executor⟩

end Request

namespace Turn

theorem run_settles (turn : Turn σ υ ε ρ) (hsource : turn.Sources Computation.Tidy)
    (h : w.Clear true) : Lockstep (World.Settles c.store) ((turn.inMode .detached).run c w)
      ((turn.inMode .inline).run c w) := by
  cases turn with
  | call r =>
      refine lockstep_call (r.run_settles hsource h) ?_
      have hnotes := Request.run_settles (c := c) (r := r.noting)
        (w := w.withOutside (w.outside, []))
        (hsource.noting fun _ asked hcompute => hcompute.noting asked) ⟨h.pending, h.executor⟩
      rw [Request.questions, Request.questions, Request.noting_inMode, Request.noting_inMode,
        ← hnotes.states.drained, Cache.outside_drain]
  | drain =>
      exact ⟨rfl, Cache.drain_of_pending Cache.pending_drain, Cache.pending_drain,
        Cache.executor_drain.trans h.executor⟩
  | meanwhile change => exact ⟨rfl, Cache.drain_of_pending h.pending, h.pending, h.executor⟩

end Turn

end

/-! ## Nothing to leave writes to -/

namespace World

variable {σ υ : Type} {v w : World σ υ} {E : Bool → Bool → Prop}

theorem matches_of_quiet (h : v.quiet = w.quiet) : v.Matches (· = ·) AnyLogs (· = ·) w :=
  ⟨⟨(congrArg (·.scene.contents) h :), (congrArg (·.scene.now) h :),
    (congrArg (·.scene.patience) h :), trivial⟩, (congrArg (·.stats) h :),
    (congrArg (·.pending) h :), (congrArg (·.executor) h :), (congrArg (·.outside) h :)⟩

theorem Matches.quiet (h : v.Matches (· = ·) AnyLogs E w) (hexecutor : v.executor = w.executor) :
    v.quiet = w.quiet := by
  obtain ⟨⟨contents, now, patience, events⟩, stats, pending, executor, outside⟩ := v
  obtain ⟨⟨contents', now', patience', events'⟩, stats', pending', executor', outside'⟩ := w
  obtain ⟨⟨rfl, rfl, rfl, -⟩, rfl, rfl, -, rfl⟩ := h
  obtain rfl : executor = executor' := hexecutor
  rfl

end World

/-- Neither world has something that runs jobs later. -/
abbrev NoExecutors : Bool → Bool → Prop := fun a b => a = false ∧ b = false

/-- A data source that does not look at the log. -/
def Computation.Deaf {σ υ ε α : Type} (compute : Computation σ υ ε α) : Prop :=
  ∀ w, (compute w.quiet).1 = (compute w).1 ∧ (compute w.quiet).2.quiet = (compute w).2.quiet

section
variable {σ υ ε ρ α : Type} {κ τ : Kind} {c : Cache σ} {K : Key → Prop} {v w : World σ υ}

theorem Computation.Deaf.even {compute : Computation σ υ ε α} (h : compute.Deaf)
    (htidy : compute.Tidy) (ns : String) (values : α → List τ) :
    compute.Even (· = ·) AnyLogs NoExecutors (Request.ValuesAmong c (fun _ => True) ns)
      values := by
  intro v w hmatches
  have hquiet := hmatches.quiet (hmatches.executor.1.trans hmatches.executor.2.symm)
  have hafter : (compute v).2.quiet = (compute w).2.quiet := by rw [← (h v).2, ← (h w).2, hquiet]
  have hworlds := World.matches_of_quiet hafter
  refine ⟨by rw [← (h v).1, ← (h w).1, hquiet], ⟨hworlds.scene, hworlds.stats, hworlds.pending,
    ?_, hworlds.outside⟩, fun _ _ _ _ => trivial⟩
  exact ⟨(htidy v).2.trans hmatches.executor.1, (htidy w).2.trans hmatches.executor.2⟩

theorem Cache.closes_without {C : σ → σ → Prop} (hstore : c.store.Uniform K C AnyLogs) :
    c.Closes K (World.Matches (υ := υ) C AnyLogs NoExecutors)
      (World.Matches C AnyLogs NoExecutors) .detached .inline where
  encode key a _ _ h := encode_matches growTogether_true h key a
  note e _ _ _ h := h.log growTogether_true e
  write o writes v w hkeys h := by
    by_cases hnil : writes = []
    · rw [writeBack, writeBack, if_pos hnil, if_pos hnil]
      exact h
    rw [writeBack, writeBack, if_neg hnil, if_neg hnil]
    simp only [Options.inMode]
    rw [if_neg (by simp [h.executor.1])]
    have hlogged : (v.log .noExecutor).Matches C AnyLogs NoExecutors w :=
      ⟨⟨h.scene.contents, h.scene.now, h.scene.patience, trivial⟩, h.stats, h.pending, h.executor,
        h.outside⟩
    exact runJob_matches hstore growTogether_true hkeys hlogged
  done _ _ h := h

theorem Turn.run_without (hstore : c.store.Uniform (fun _ => True) (· = ·) AnyLogs)
    (turn : Turn σ υ ε ρ) (hsource : turn.Sources fun compute => compute.Tidy ∧ compute.Deaf)
    (h : v.Matches (· = ·) AnyLogs NoExecutors w) :
    Lockstep (World.Matches (· = ·) AnyLogs NoExecutors) ((turn.inMode .detached).run c v)
      ((turn.inMode .inline).run c w) := by
  cases turn with
  | call r =>
      have heven : r.Even (· = ·) AnyLogs NoExecutors
          (Request.ValuesAmong c (fun _ => True) r.options.keyspace) :=
        Request.Sources.relates (P := fun compute => compute.Tidy ∧ compute.Deaf) hsource
          fun values compute hcompute => hcompute.2.even hcompute.1 _ values
      exact lockstep_call
        (Request.run_even hstore growTogether_true (Cache.closes_without hstore)
          (fun _ _ _ _ => trivial) heven h)
        (Request.questions_even hstore growTogether_true (Cache.closes_without hstore)
          (fun _ _ _ _ => trivial) heven h)
  | drain => exact ⟨rfl, Cache.drain_matches hstore growTogether_true h⟩
  | meanwhile change =>
      obtain ⟨⟨hcontents, hnow, hpatience, -⟩, hstats, hpending, hexecutor, houtside⟩ := h
      simp only [inMode, run, World.meanwhile, hcontents, hnow]
      exact ⟨rfl, ⟨rfl, rfl, hpatience, trivial⟩, hstats, hpending, hexecutor, houtside⟩

end

/-! ## Behind any number of calls -/

/-- A data source that looks at nothing but what it keeps for itself. -/
def Computation.Secluded {σ υ ε α : Type} (compute : Computation σ υ ε α) : Prop :=
  ∃ f : υ → Except ε α × υ, ∀ w,
    compute w = ((f w.outside).1, { w with outside := (f w.outside).2 })

theorem Computation.Secluded.noting {σ υ ε α : Type} {κ : Kind} {compute : Computation σ υ ε α}
    (h : compute.Secluded) (asked : List κ) : (compute.noting asked).Secluded := by
  obtain ⟨f, hf⟩ := h
  refine ⟨fun outside => ((f outside.1).1, (f outside.1).2, outside.2 ++ [asked]), fun w => ?_⟩
  simp only [Computation.noting, hf]
  rfl

/-- Worlds that will be the same, but for the log, when the jobs of the first are made. -/
structure World.Owes {σ υ : Type} (store : Store σ) (v w : World σ υ) : Prop where
  drained : (Cache.drain store v).quiet = w.quiet
  paid : w.pending = []
  unowed : v.executor = false → v.pending = []

section
variable {σ υ ε ρ α : Type} {κ τ : Kind} {c : Cache σ} {o : Options} {K : Key → Prop}
  {store : Store σ} {v w : World σ υ}

namespace World.Owes

theorem executor (h : v.Owes store w) : v.executor = w.executor :=
  Cache.executor_drain.symm.trans (matches_of_quiet h.drained).executor

theorem outside (h : v.Owes store w) : v.outside = w.outside :=
  Cache.outside_drain.symm.trans (matches_of_quiet h.drained).outside

theorem log (hstore : store.Uniform (fun _ => True) (· = ·) AnyLogs) (h : v.Owes store w)
    (e : Event) : (v.log e).Owes store (w.log e) := by
  have hdrained := Cache.drain_matches hstore growTogether_true
    (matches_of_quiet (v := v.log e) (w := v) rfl)
  exact ⟨(hdrained.quiet hdrained.executor).trans h.drained, h.paid, h.unowed⟩

theorem aside {change : Stats → Stats} (hchange : Stats.IsCharge change) (h : v.Owes store w)
    {υ' : Type} (outside : υ') : (v.aside change outside).Owes store (w.aside change outside) := by
  refine ⟨?_, h.paid, h.unowed⟩
  rw [Cache.drain_aside hchange]
  exact congrArg (fun w => w.aside change outside) h.drained

theorem count {change : Stats → Stats} (hchange : Stats.IsCharge change) (h : v.Owes store w) :
    (v.count change).Owes store (w.count change) := by
  have hw : w.count change = w.aside change v.outside := by
    rw [h.outside]
    rfl
  rw [hw]
  exact h.aside hchange v.outside

end World.Owes

theorem Computation.Secluded.relates {compute : Computation σ υ ε α} (h : compute.Secluded)
    (values : α → List τ) :
    compute.Relates (World.Owes store) (fun _ => World.Owes store) values := by
  obtain ⟨f, hf⟩ := h
  intro v w howes
  rw [hf v, hf w, howes.outside]
  exact ⟨rfl, howes.aside Stats.isCharge_id (f w.outside).2⟩

namespace Cache

theorem opens_owes (hstore : c.store.Uniform (fun _ => True) (· = ·) AnyLogs)
    (hbypass : o.bypass = true) : c.Opens o K (World.Owes (υ := υ) c.store) where
  lookup τ key v w _ h := by
    rw [Cache.lookup, Cache.lookup, if_pos hbypass, if_pos hbypass]
    exact ⟨rfl, h⟩
  fetch b v w _ h := by
    rw [Cache.fetch, Cache.fetch, if_pos hbypass, if_pos hbypass]
    exact ⟨rfl, h.log hstore _⟩
  hits n _ _ h := h.count (Stats.isCharge_addHits n)
  misses n _ _ h := h.count (Stats.isCharge_addMisses n)

theorem closes_owes (hstore : c.store.Uniform (fun _ => True) (· = ·) AnyLogs) :
    c.Closes K (World.Owes (υ := υ) c.store) (World.Owes c.store) .detached .inline where
  encode key a v w h := by
    unfold Cache.encode
    cases c.codec.encodeOption a with
    | ok bytes => exact ⟨rfl, h⟩
    | error e => exact ⟨rfl, (h.log hstore _).count Stats.isCharge_addWriteFailure⟩
  note e v w _ h := h.log hstore e
  write o writes v w _ h := by
    have hpaid : (c.writeBack (o.inMode .inline) writes w).pending = [] := by
      rw [writeBack_inline rfl, pending_runJob, h.paid]
    cases hexecutor : v.executor with
    | true =>
        have hwritten := writeBack_matches (o := o.inMode .inline) hstore growTogether_true
          (fun p (_ : p ∈ writes) => trivial) (World.matches_of_quiet h.drained)
        refine ⟨?_, hpaid, fun hfalse => ?_⟩
        · rw [drain_writeBack hexecutor]
          exact hwritten.quiet hwritten.executor
        · rw [executor_writeBack, hexecutor] at hfalse
          cases hfalse
    | false =>
        -- Then the writes are made at once on both sides.
        have hv := h.unowed hexecutor
        have hquiet : v.quiet = w.quiet := by rw [← h.drained, drain_of_pending hv]
        have hmatches := World.matches_of_quiet hquiet
        have hwritten := (closes_without (c := c) hstore).write o writes v w (fun _ _ => trivial)
          ⟨hmatches.scene, hmatches.stats, hmatches.pending,
            ⟨hexecutor, h.executor ▸ hexecutor⟩, hmatches.outside⟩
        have hnone := hwritten.pending.trans hpaid
        refine ⟨?_, hpaid, fun _ => hnone⟩
        rw [drain_of_pending hnone]
        exact hwritten.quiet (hwritten.executor.1.trans hwritten.executor.2.symm)
  done _ _ h := h

end Cache

namespace Request

theorem isInvalidation_noting (r : Request σ υ ε ρ κ τ) :
    r.noting.isInvalidation = r.isInvalidation := by
  cases r <;> rfl

theorem isLookup_noting (r : Request σ υ ε ρ κ τ) : r.noting.isLookup = r.isLookup := by
  cases r <;> rfl

theorem run_owes (hstore : c.store.Uniform (fun _ => True) (· = ·) AnyLogs)
    {r : Request σ υ ε ρ κ τ} (hdeletes : r.isInvalidation = false)
    (hlookup : r.isLookup = true → r.options.bypass = true)
    (hsource : r.Sources Computation.Secluded) (h : v.Owes c.store w) :
    Lockstep (World.Owes c.store) ((r.inMode .detached).run c v) ((r.inMode .inline).run c w) := by
  refine r.run_lockstep (K := fun _ => True) (R := World.Owes c.store)
    (T := fun _ => World.Owes c.store)
    ⟨fun _ => Cache.closes_owes hstore, fun _ _ h => h⟩
    (fun hlooks => Cache.opens_owes hstore (hlookup hlooks)) (fun h => ?_)
    (fun _ _ _ _ => trivial) (hsource.relates fun values _ hcompute => hcompute.relates values) h
  rw [hdeletes] at h
  cases h

end Request

namespace Turn

/-- A call that neither reads nor deletes, or a draining. -/
def WritesOnly : Turn σ υ ε ρ → Prop
  | .call r => r.isInvalidation = false ∧ (r.isLookup = true → r.options.bypass = true)
  | .drain => True
  | .meanwhile _ => False

theorem run_owes (hstore : c.store.Uniform (fun _ => True) (· = ·) AnyLogs)
    {turn : Turn σ υ ε ρ} (hwrites : turn.WritesOnly) (hsource : turn.Sources Computation.Secluded)
    (h : v.Owes c.store w) : Lockstep (World.Owes c.store) ((turn.inMode .detached).run c v)
      ((turn.inMode .inline).run c w) := by
  cases turn with
  | call r =>
      refine lockstep_call (Request.run_owes hstore hwrites.1 hwrites.2 hsource h) ?_
      have hnotes := Request.run_owes (c := c) (r := r.noting) hstore
        (by rw [Request.isInvalidation_noting, hwrites.1])
        (by rw [Request.isLookup_noting, Request.options_noting]; exact hwrites.2)
        (hsource.noting fun _ asked hcompute => hcompute.noting asked)
        (h.aside Stats.isCharge_id (v.outside, ([] : List (List _))))
      rw [Request.questions, Request.questions, Request.noting_inMode, Request.noting_inMode,
        ← h.outside]
      exact congrArg Prod.snd hnotes.states.outside
  | drain =>
      refine ⟨rfl, ?_, Cache.pending_drain, fun _ => Cache.pending_drain⟩
      simp only [inMode, run]
      rw [Cache.drain_of_pending Cache.pending_drain, Cache.drain_of_pending h.paid, h.drained]
  | meanwhile change => exact hwrites.elim

open Rig

/-- To leave writes behind comes to the same as to make them at once: call by call if they are made
right behind each call; call by call, but for the log, if there is nothing to leave them to; and in
the end, but for the log, if they are made behind any number of calls that neither read nor delete. -/
theorem runAll_detached {υ ε ρ : Type} (layers : Layers) (trouble : Trouble)
    (c : Cache (Troubled Base)) (hstore : c.store = layers.outer.troubled trouble)
    (turns : List (Turn (Troubled Base) υ ε ρ)) (w : World (Troubled Base) υ)
    (hpending : w.pending = []) :
    let detached := turns.map (inMode .detached)
    let inline := turns.map (inMode .inline)
    (w.executor = true → (∀ turn ∈ turns, turn.Sources Computation.Tidy) →
      runAll c (Cache.drain c.store) detached w = runAll c id inline w) ∧
    (w.executor = false →
      (∀ turn ∈ turns, turn.Sources fun compute => compute.Tidy ∧ compute.Deaf) →
      (runAll c id detached w).1.map (Prod.map id World.quiet) =
          (runAll c id inline w).1.map (Prod.map id World.quiet) ∧
        (runAll c id detached w).2.quiet = (runAll c id inline w).2.quiet) ∧
    ((∀ turn ∈ turns, turn.WritesOnly ∧ turn.Sources Computation.Secluded) →
      (runAll c id detached w).1.map (·.1) = (runAll c id inline w).1.map (·.1) ∧
        (Cache.drain c.store (runAll c id detached w).2).quiet =
          (runAll c id inline w).2.quiet) := by
  intro detached inline
  have huniform : c.store.Uniform (fun _ => True) (· = ·) AnyLogs := by
    rw [hstore]
    exact layers.uniform_troubled trouble
  refine ⟨fun hexecutor hsource => ?_, fun hexecutor hsource => ?_, fun hsource => ?_⟩
  · have hstep : ∀ turn ∈ turns, ∀ v v', v = v' ∧ v'.Clear true →
        Lockstep (fun v v' => Cache.drain c.store v = v' ∧ v'.Clear true)
          ((turn.inMode .detached).run c v) ((turn.inMode .inline).run c v') := by
      rintro turn hturn v _ ⟨rfl, hclear⟩
      have hrun := turn.run_settles (c := c) (hsource turn hturn) hclear
      exact ⟨hrun.answer, hrun.states.drained, hrun.states.clear⟩
    obtain ⟨hhistory, hfinal⟩ := runAll_lockstep (R := fun v v' => v = v' ∧ v'.Clear true)
      (Cache.drain c.store) id (fun _ _ h => h.1) hstep ⟨rfl, hpending, hexecutor⟩
    simp only [Prod.map_id, List.map_id] at hhistory
    exact Prod.ext hhistory hfinal.1
  · have hview : ∀ v v' : World (Troubled Base) υ, v.Matches (· = ·) AnyLogs NoExecutors v' →
        v.quiet = v'.quiet := fun v v' h => h.quiet (h.executor.1.trans h.executor.2.symm)
    obtain ⟨hhistory, hfinal⟩ := runAll_lockstep (c := c) id World.quiet hview
      (fun turn hturn v v' h => turn.run_without huniform (hsource turn hturn) h)
      ⟨⟨rfl, rfl, rfl, trivial⟩, rfl, rfl, ⟨hexecutor, hexecutor⟩, rfl⟩
    exact ⟨hhistory, hview _ _ hfinal⟩
  · obtain ⟨hhistory, hfinal⟩ := runAll_lockstep (c := c) (R := World.Owes c.store)
      (v := w) (w := w) id (fun _ => ()) (fun _ _ _ => rfl)
      (fun turn hturn v v' h => run_owes huniform (hsource turn hturn).1 (hsource turn hturn).2 h)
      ⟨by rw [Cache.drain_of_pending hpending], hpending, fun _ => hpending⟩
    refine ⟨?_, hfinal.drained⟩
    have haccounts := congrArg (List.map Prod.fst) hhistory
    rwa [List.map_map, List.map_map] at haccounts

theorem runAll_detached_of_two_writes :
    let trouble : Trouble :=
      ⟨fun n => if n = 0 then some (.lost (.transport "down")) else none, fun _ => []⟩
    let c : Cache (Troubled Base) := { store := ({} : Layers).outer.troubled trouble }
    let w (executor : Bool) : World (Troubled Base) Unit :=
      { scene := { contents := ⟨.memory .empty, 0⟩, now := 0 }, executor, outside := () }
    let write (n : UInt32) : Turn (Troubled Base) Unit Unit Unit :=
      .call (.write { keyspace := "n" } (1 : UInt32) fun w => (.ok (some n), w) :
        Request _ _ _ _ .word32 .word32)
    let turns := [write 7, write 8]
    let detached := turns.map (inMode .detached)
    let inline := turns.map (inMode .inline)
    runAll c (Cache.drain c.store) detached (w true) = runAll c id inline (w true) ∧
      (runAll c id detached (w false)).2.quiet = (runAll c id inline (w false)).2.quiet ∧
      (Cache.drain c.store (runAll c id detached (w true)).2).quiet =
        (runAll c id inline (w true)).2.quiet := by
  intro trouble c w write turns detached inline
  have hturns {P : Turn (Troubled Base) Unit Unit Unit → Prop} (h : ∀ n, P (write n)) :
      ∀ turn ∈ turns, P turn :=
    List.forall_mem_cons.mpr ⟨h 7, List.forall_mem_singleton.mpr (h 8)⟩
  obtain ⟨heach, -, hlast⟩ := runAll_detached {} trouble c rfl turns (w true) rfl
  obtain ⟨-, hwithout, -⟩ := runAll_detached {} trouble c rfl turns (w false) rfl
  exact ⟨heach rfl (hturns fun n w => ⟨rfl, rfl⟩),
    (hwithout rfl (hturns fun n => ⟨fun w => ⟨rfl, rfl⟩, fun w => ⟨rfl, rfl⟩⟩)).2,
    (hlast (hturns fun n => ⟨⟨rfl, fun h => by cases h⟩,
      fun outside => (.ok (some n), outside), fun w => rfl⟩)).2⟩

end Turn

end

end CacheAside

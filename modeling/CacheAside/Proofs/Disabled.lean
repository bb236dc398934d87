import CacheAside.Proofs.Detached

/-!
# A cache that is switched off

A disabled cache passes each request on to its data source and passes back what that says. It does
so before it looks at anything else: options, keys and results are not checked, the store is not
called, nothing is counted, logged or left behind. So whatever else two disabled caches are made of,
nobody can tell them apart.
-/

namespace CacheAside

/-! ## One request -/

section
variable {σ υ ε ρ α β : Type} {κ τ : Kind} {c : Cache σ} {w : World σ υ}

theorem Computation.snd_direct (compute : Computation σ υ ε α) :
    (compute.direct w).2 = (compute w).2 := by
  unfold Computation.direct
  rcases compute w with ⟨_ | a, w'⟩ <;> rfl

theorem Computation.Secluded.inForm {compute : Computation σ υ ε α} (h : compute.Secluded)
    (form : α → β) : (compute.inForm form).Secluded := by
  obtain ⟨f, hf⟩ := h
  exact ⟨fun outside => ((f outside).1.map form, (f outside).2), fun w => by
    simp only [Computation.inForm, hf w]⟩

namespace Request

/-- What a request is answered at once when there is no cache: an invalidation has nothing to
delete, and a batch read of nothing nothing to ask for. -/
def answerAtOnce? : Request σ υ ε ρ κ τ → Option (Reply ρ τ)
  | .readMany _ xs _ => if xs = [] then some (.values []) else none
  | .invalidate .. => some (.flag false)
  | .invalidateMany .. => some (.count 0)
  | _ => none

/-- What a data source is told that is asked for everything. -/
def told : Request σ υ ε ρ κ τ → List κ
  | .readMany _ xs _ => xs
  | _ => []

/-- A disabled cache asks the data source for everything, once, and does nothing else. -/
theorem run_of_disabled (hdisabled : c.config.disabled = true) (r : Request σ υ ε ρ κ τ)
    (hasks : r.answerAtOnce? = none) (w : World σ υ) :
    ∃ source, r.source? r.objects = some source ∧ r.run c w = source.direct w := by
  cases r with
  | invalidate | invalidateMany => cases hasks
  | readMany o xs source =>
      have hne : xs ≠ [] := by simpa [answerAtOnce?] using hasks
      refine ⟨_, rfl, ?_⟩
      rw [← Computation.inForm_direct]
      simp only [run, wrap_eq, Cache.readMany, hdisabled, if_neg hne, ↓reduceIte, objects]
  | read | write | writeMany | writeByResult | writeManyByResult | invalidateAround
  | invalidateManyAround | invalidateByResult | invalidateManyByResult =>
      refine ⟨_, rfl, ?_⟩
      rw [← Computation.inForm_direct]
      simp only [run, wrap_eq, Cache.read, Cache.write, Cache.writeMany, Cache.writeByResult,
        Cache.writeManyByResult, Cache.invalidateAround, Cache.invalidateManyAround,
        Cache.invalidateByResult, Cache.invalidateManyByResult, hdisabled, ↓reduceIte]

theorem run_at_once (hdisabled : c.config.disabled = true) {r : Request σ υ ε ρ κ τ}
    {reply : Reply ρ τ} (hreply : r.answerAtOnce? = some reply) (w : World σ υ) :
    r.run c w = (.ok reply, w) := by
  cases r with
  | invalidate | invalidateMany =>
      cases hreply
      simp only [run, wrapRefusal, Cache.invalidate, Cache.invalidateMany, hdisabled, ↓reduceIte]
  | readMany o xs source =>
      obtain ⟨hnil, rfl⟩ : xs = [] ∧ Reply.values [] = reply := by
        simpa [answerAtOnce?] using hreply
      simp only [run, wrap_eq, Cache.readMany, if_pos hnil]
      rfl
  | _ => cases hreply

theorem answerAtOnce?_noting (r : Request σ υ ε ρ κ τ) :
    r.noting.answerAtOnce? = r.answerAtOnce? := by
  cases r <;> rfl

theorem source?_noting {r : Request σ υ ε ρ κ τ} {source : Computation σ υ ε (Reply ρ τ)}
    (h : r.source? r.objects = some source) :
    r.noting.source? r.noting.objects = some (source.noting r.told) := by
  cases r with
  | invalidate | invalidateMany => cases h
  | _ => cases h; rfl

/-- The data source is asked once, or not at all. -/
theorem questions_of_disabled (hdisabled : c.config.disabled = true) (r : Request σ υ ε ρ κ τ)
    (w : World σ υ) : r.questions c w = if r.answerAtOnce? = none then [r.told] else [] := by
  rw [questions]
  cases hreply : r.answerAtOnce? with
  | some reply =>
      rw [run_at_once hdisabled ((answerAtOnce?_noting r).trans hreply)]
      rfl
  | none =>
      obtain ⟨source, hsource, -⟩ := run_of_disabled hdisabled r hreply w
      obtain ⟨noting, hnoting, hrun⟩ := run_of_disabled hdisabled r.noting
        ((answerAtOnce?_noting r).trans hreply) (w.withOutside (w.outside, []))
      obtain rfl : noting = source.noting r.told :=
        Option.some.inj (hnoting.symm.trans (source?_noting hsource))
      rw [hrun, Computation.snd_direct]
      rfl

theorem Sources.source? {r : Request σ υ ε ρ κ τ} (h : r.Sources Computation.Secluded)
    {asked : List κ} {source : Computation σ υ ε (Reply ρ τ)}
    (hasked : r.source? asked = some source) : source.Secluded := by
  cases r with
  | readMany o xs compute =>
      cases hasked
      exact Computation.Secluded.inForm (h asked) _
  | invalidate | invalidateMany => cases hasked
  | _ =>
      cases hasked
      exact Computation.Secluded.inForm h _

/-- Before a data source that looks at nothing but its own a disabled cache is no more than a
function of that, whatever cache it is. -/
theorem exists_run_eq {r : Request σ υ ε ρ κ τ} (hsource : r.Sources Computation.Secluded) :
    ∃ f : υ → Except (Failure ε) (Reply ρ τ) × υ, ∀ c : Cache σ, c.config.disabled = true → ∀ w,
      r.run c w = ((f w.outside).1, { w with outside := (f w.outside).2 }) := by
  cases hreply : r.answerAtOnce? with
  | some reply =>
      exact ⟨fun outside => (.ok reply, outside),
        fun c hdisabled w => run_at_once hdisabled hreply w⟩
  | none =>
      cases hasked : r.source? r.objects with
      | none => cases r <;> cases hasked <;> cases hreply
      | some source =>
          obtain ⟨f, hf⟩ := hsource.source? hasked
          refine ⟨fun outside => ((f outside).1.mapError .source, (f outside).2),
            fun c hdisabled w => ?_⟩
          obtain ⟨source', hsource', hrun⟩ := run_of_disabled hdisabled r hreply w
          obtain rfl : source' = source := Option.some.inj (hsource'.symm.trans hasked)
          simp only [hrun, Computation.direct, hf w]
          cases (f w.outside).1 <;> rfl

end Request

end

/-! ## Any number of turns -/

namespace Turn

variable {σ υ ε ρ : Type} {c d : Cache σ} {v w : World σ υ}

def isCall : Turn σ υ ε ρ → Bool
  | .call _ => true
  | .drain | .meanwhile _ => false

/-- Worlds that differ in their stores, with nothing left behind in either. -/
structure Apart (v w : World σ υ) : Prop where
  stats : v.stats = w.stats
  outside : v.outside = w.outside
  pending : v.pending = [] ∧ w.pending = []

/-- Two disabled caches take a turn alike. -/
theorem run_apart (hc : c.config.disabled = true) (hd : d.config.disabled = true)
    {turn : Turn σ υ ε ρ} (hsource : turn.Sources Computation.Secluded) (h : Apart v w) :
    Lockstep Apart (turn.run c v) (turn.run d w) := by
  cases turn with
  | call r =>
      obtain ⟨f, hf⟩ := Request.exists_run_eq hsource
      simp only [run, hf c hc, hf d hd, Request.questions_of_disabled hc,
        Request.questions_of_disabled hd, h.outside]
      exact ⟨rfl, h.stats, rfl, h.pending⟩
  | drain =>
      simp only [run, Cache.drain_of_pending h.pending.1, Cache.drain_of_pending h.pending.2]
      exact ⟨rfl, h⟩
  | meanwhile change => exact ⟨rfl, h.stats, h.outside, h.pending⟩

/-- A call of a disabled cache changes nothing but what its data source keeps. -/
theorem run_call_eq (hc : c.config.disabled = true) {turn : Turn σ υ ε ρ}
    (hcall : turn.isCall = true) (hsource : turn.Sources Computation.Secluded) (w : World σ υ) :
    (turn.run c w).2 = { w with outside := (turn.run c w).2.outside } := by
  cases turn with
  | call r =>
      obtain ⟨f, hf⟩ := Request.exists_run_eq hsource
      simp only [run, hf c hc]
  | drain | meanwhile => cases hcall

/-- What each turn keeps is true behind all of them. -/
theorem runAll_keeps {I : World σ υ → Prop} {turns : List (Turn σ υ ε ρ)}
    (hstep : ∀ turn ∈ turns, ∀ w, I w → I (turn.run c w).2) (h : I w) :
    ∀ p ∈ (runAll c id turns w).1, I p.2 := by
  induction turns generalizing w with
  | nil => exact fun _ hp => nomatch hp
  | cons turn turns ih =>
      have hnext := hstep turn List.mem_cons_self w h
      intro p hp
      rcases List.mem_cons.mp hp with rfl | hp
      · exact hnext
      · exact ih (fun t ht => hstep t (List.mem_cons_of_mem _ ht)) hnext p hp

/-- A disabled cache asks its data source for everything, once, passes on what that says and does
nothing else; only what needs no data source is answered at once. So two disabled caches, whatever
their stores, registries and codecs, give one account of a session and leave the same counters. -/
theorem runAll_disabled (hc : c.config.disabled = true) (hd : d.config.disabled = true) :
    (∀ {κ τ : Kind} (r : Request σ υ ε ρ κ τ) (w : World σ υ),
      (∀ reply, r.answerAtOnce? = some reply →
        r.run c w = (.ok reply, w) ∧ r.questions c w = []) ∧
      (r.answerAtOnce? = none → ∃ source, r.source? r.objects = some source ∧
        r.run c w = source.direct w ∧ r.questions c w = [r.told])) ∧
    ∀ turns : List (Turn σ υ ε ρ), (∀ turn ∈ turns, turn.Sources Computation.Secluded) →
      (∀ v w : World σ υ, v.stats = w.stats → v.outside = w.outside → v.pending = [] →
        w.pending = [] →
        (runAll c id turns v).1.map (Prod.map id fun w => (w.stats, w.outside)) =
          (runAll d id turns w).1.map (Prod.map id fun w => (w.stats, w.outside))) ∧
      ((∀ turn ∈ turns, turn.isCall = true) → ∀ w : World σ υ, ∀ p ∈ (runAll c id turns w).1,
        p.2 = { w with outside := p.2.outside }) := by
  refine ⟨fun r w => ⟨fun reply hreply => ?_, fun hasks => ?_⟩, fun turns hsource =>
    ⟨fun v w hstats houtside hv hw => ?_, fun hcalls w => ?_⟩⟩
  · exact ⟨Request.run_at_once hc hreply w, by
      rw [Request.questions_of_disabled hc, hreply, if_neg (by simp)]⟩
  · obtain ⟨source, hasked, hrun⟩ := Request.run_of_disabled hc r hasks w
    exact ⟨source, hasked, hrun, by rw [Request.questions_of_disabled hc, if_pos hasks]⟩
  · have hviews : ∀ v w : World σ υ, Apart v w → (v.stats, v.outside) = (w.stats, w.outside) :=
      fun v w h => by rw [h.stats, h.outside]
    have hrun := (runAll_lockstep (f := id) (g := id) id (fun w => (w.stats, w.outside)) hviews
      (fun turn hturn v w h => run_apart hc hd (hsource turn hturn) h)
      (⟨hstats, houtside, hv, hw⟩ : Apart v w)).1
    rwa [List.map_id] at hrun
  · exact runAll_keeps (I := fun w' => w' = { w with outside := w'.outside })
      (fun turn hturn w' hw' => by
        rw [run_call_eq hc (hcalls turn hturn) (hsource turn hturn) w', hw']) rfl

/-- One of the caches holds the value under the key, the other fails whatever it is asked; without a
keyspace neither could have answered. -/
theorem runAll_disabled_of_blank_keyspace :
    let c : Cache Rig.Base := { store := Rig.Base.store, config := { disabled := true } }
    let d : Cache Rig.Base := { c with
      registry := (Registry.empty.register .word32 (IdentityRule.canonical.identity .word32)).2 }
    let world (contents : Rig.Base) : World Rig.Base Nat :=
      { scene := { contents, now := 0 }, outside := 0 }
    let v := world (.memory (MemoryStore.empty.put 0 ⟨"n:1"⟩ 0 [0x35]))
    let w := world (.recording { failures := { reads := true, writes := true } })
    let source : List Kind.word32 →
        Computation Rig.Base Nat Unit (List (Option Kind.word32)) :=
      fun asked w => (.ok (asked.map some), { w with outside := w.outside + 1 })
    let request (keyspace : String) : Request Rig.Base Nat Unit Unit .word32 .word32 :=
      .readMany { keyspace } [(1 : UInt32), 2, 1] source
    let turns := [Turn.call (request ""), .call (request "n")]
    (request "").run c v =
        (.ok (.values [some (1 : UInt32), some (2 : UInt32), some (1 : UInt32)]),
          { v with outside := 1 }) ∧
      (request "").questions c v = [[(1 : UInt32), 2, 1]] ∧
      (runAll c id turns v).1.map (Prod.map id fun w => (w.stats, w.outside)) =
        (runAll d id turns w).1.map (Prod.map id fun w => (w.stats, w.outside)) := by
  intro c d world v w source request turns
  obtain ⟨hrequest, hsession⟩ := runAll_disabled (ε := Unit) (ρ := Unit) (υ := Nat)
    (c := c) (d := d) rfl rfl
  obtain ⟨asked, hasked, hrun, hquestions⟩ := (hrequest (request "") v).2 rfl
  cases hasked
  have hsecluded : ∀ turn ∈ turns, turn.Sources Computation.Secluded := by
    intro turn hturn
    simp only [turns, List.mem_cons, List.not_mem_nil, or_false] at hturn
    rcases hturn with rfl | rfl <;>
      exact fun asked => ⟨fun n => (.ok (asked.map some), n + 1), fun w => rfl⟩
  exact ⟨hrun.trans rfl, hquestions, (hsession turns hsecluded).1 v w rfl rfl rfl rfl⟩

end Turn

end CacheAside

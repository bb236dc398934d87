import CacheAside.Proofs.Requests
import CacheAside.Proofs.Transparency
import CacheAside.Proofs.Trouble

/-!
# Sessions

Calls of a cache in any order, with anything that may happen in between: queued writes are made,
time passes, expired entries are removed. As long as the sources tell the truth, the cache cannot be
told from them.
-/

namespace CacheAside

open Rig (Base Layers)

variable {σ υ ε ρ : Type} {κ τ : Kind}

/-! ## Requests and truth -/

namespace Request

/-- A request for valid keys whose source says what the function says, as far as that matters. A
batch read takes for equal objects the key of the first (`Batch.assigns_of_own`). -/
def Truthful (c : Cache σ) (ns : String) (f : Key → Option τ) (sound : World σ υ → Prop) :
    Request σ υ ε ρ κ τ → Prop
  | .read o x compute => o.keyspace = ns ∧ o.keysFromResults = false ∧
    ∃ key, c.keys.keyFor o.keyspace x = .ok key ∧ compute.Safe sound fun v => v = f key
  | .readMany o xs source => o.keyspace = ns ∧
    (o.keysFromResults = true → c.registry.isRegistered τ = true) ∧
    ∃ keyOf : κ → Key, Batch.Assigns c.keys o.keyspace xs keyOf ∧
      ∀ asked ⊆ xs, (source asked).Safe sound fun results =>
        if o.keysFromResults then
          (∀ u, some u ∈ results → ∃ key, c.keys.keyForResult o.keyspace u = .ok key ∧
            f key = some u) ∧
          ∀ x ∈ asked, ∀ v, f (keyOf x) = some v →
            ∃ u, some u ∈ results ∧ c.keys.keyForResult o.keyspace u = .ok (keyOf x)
        else results = asked.map (f ∘ keyOf)
  | .write o x compute => ∀ key, c.keys.keyFor o.keyspace x = .ok key →
    compute.Safe sound fun v => v = f key
  | .writeMany o xs compute => ∀ keys, c.keysFor o.keyspace xs = .ok keys →
    compute.Safe sound fun results => results = keys.map f
  | .writeByResult o compute => compute.Safe sound fun v => ∀ u, v = some u →
    ∀ key, c.keys.keyForResult o.keyspace u = .ok key → f key = some u
  | .writeManyByResult o compute => compute.Safe sound fun results => ∀ u, some u ∈ results →
    ∀ key, c.keys.keyForResult o.keyspace u = .ok key → f key = some u
  | .invalidate .. | .invalidateMany .. => True
  | .invalidateAround _ _ _ compute | .invalidateManyAround _ _ _ compute =>
    compute.Safe sound fun _ => True
  | .invalidateByResult _ compute => compute.Safe sound fun _ => True
  | .invalidateManyByResult _ compute => compute.Safe sound fun _ => True

/-- What a read answers: the values of the function under the keys of the objects, or at once the
failure of the source that was asked. -/
def Shows (c : Cache σ) (f : Key → Option τ) :
    Request σ υ ε ρ κ τ → Except (Failure ε) (Reply ρ τ) × World σ υ → Prop
  | .read o x compute, (outcome, w) =>
    (∃ key, c.keys.keyFor o.keyspace x = .ok key ∧ outcome = .ok (.value (f key))) ∨
    ∃ e w', compute w' = (.error e, w) ∧ outcome = .error (.source e)
  | .readMany o xs source, (outcome, w) =>
    (∃ keyOf : κ → Key, Batch.Assigns c.keys o.keyspace xs keyOf ∧
      outcome = .ok (.values (present o.skipNulls (xs.map fun x => .ofOption (f (keyOf x)))))) ∨
    ∃ e w', ∃ asked ⊆ xs, source asked w' = (.error e, w) ∧ outcome = .error (.source e)
  | _, _ => True

/-- A truthful request keeps a world sound, and shows nothing but the truth. -/
theorem run_truthful {c : Cache σ} {ns : String} {f : Key → Option τ} {J : σ → Int64 → Prop}
    (henabled : c.config.disabled = false) (hcodec : c.codec.Faithful ns f)
    (hstore : c.store.Honest (c.Agrees ns f) J) {w : World σ υ} (h : c.SoundFor ns f J w)
    (r : Request σ υ ε ρ κ τ) (hr : r.Truthful c ns f (c.SoundFor ns f J)) :
    c.SoundFor ns f J (r.run c w).2 ∧ r.Shows c f (r.run c w) := by
  cases r with
  | read o x compute =>
      obtain ⟨hns, hmode, key, hkey, hcompute⟩ := hr
      obtain ⟨hsound, houtcome⟩ := Cache.read_transparent henabled hcodec hstore h hns hmode hkey
        hcompute
      rw [run, wrap_eq]
      refine ⟨hsound, ?_⟩
      rcases houtcome with hok | ⟨e, w₁, w₂, hfailed, herror⟩
      · exact .inl ⟨key, hkey, by rw [hok]; rfl⟩
      · rw [herror]
        exact .inr ⟨e, w₁, hfailed, rfl⟩
  | readMany o xs source =>
      obtain ⟨hns, hkind, keyOf, hkeys, hsource⟩ := hr
      obtain ⟨hsound, houtcome⟩ := Cache.readMany_transparent henabled hcodec hstore h hns hkeys
        hkind hsource
      rw [run, wrap_eq]
      refine ⟨hsound, ?_⟩
      rcases houtcome with hok | ⟨e, w₁, w₂, asked, hsub, hfailed, herror⟩
      · exact .inl ⟨keyOf, hkeys, by rw [hok]; rfl⟩
      · rw [herror]
        exact .inr ⟨e, w₁, asked, hsub, hfailed, rfl⟩
  | write o x compute =>
      exact ⟨by rw [run, wrap_eq]; exact Cache.write_transparent henabled hcodec hstore h hr,
        trivial⟩
  | writeMany o xs compute =>
      exact ⟨by rw [run, wrap_eq]; exact Cache.writeMany_transparent henabled hcodec hstore h hr,
        trivial⟩
  | writeByResult o compute =>
      exact ⟨by
        rw [run, wrap_eq]
        exact Cache.writeByResult_transparent henabled hcodec hstore h hr, trivial⟩
  | writeManyByResult o compute =>
      exact ⟨by
        rw [run, wrap_eq]
        exact Cache.writeManyByResult_transparent henabled hcodec hstore h hr, trivial⟩
  | invalidate o x =>
      exact ⟨by rw [run, snd_wrapRefusal]; exact Cache.invalidate_transparent henabled hstore h,
        trivial⟩
  | invalidateMany o xs =>
      exact ⟨by rw [run, snd_wrapRefusal]; exact Cache.invalidateMany_transparent henabled hstore h,
        trivial⟩
  | invalidateAround o x timing compute =>
      exact ⟨by rw [run, wrap_eq]; exact Cache.invalidateAround_transparent henabled hstore h hr,
        trivial⟩
  | invalidateManyAround o xs timing compute =>
      exact ⟨by
        rw [run, wrap_eq]
        exact Cache.invalidateManyAround_transparent henabled hstore h hr, trivial⟩
  | invalidateByResult o compute =>
      exact ⟨by rw [run, wrap_eq]; exact Cache.invalidateByResult_transparent henabled hstore h hr,
        trivial⟩
  | invalidateManyByResult o compute =>
      exact ⟨by
        rw [run, wrap_eq]
        exact Cache.invalidateManyByResult_transparent henabled hstore h hr, trivial⟩

end Request

/-! ## Moves -/

/-- What happens in a session on a store in trouble. -/
inductive Move (υ ε ρ : Type) (τ : Kind) where
  | call {κ : Kind} (r : Request (Troubled Base) υ ε ρ κ τ)
  /-- The queued writes are made. -/
  | drain
  /-- The clock goes on, if it is not there yet. -/
  | advance (time : Int64)
  | purge

/-- A request and what came of it. -/
structure Exchange (υ ε ρ : Type) (τ : Kind) where
  kind : Kind
  request : Request (Troubled Base) υ ε ρ kind τ
  outcome : Except (Failure ε) (Reply ρ τ) × World (Troubled Base) υ

namespace World

variable {υ : Type}

def advance (w : World (Troubled Base) υ) (time : Int64) : World (Troubled Base) υ :=
  { w with scene := { w.scene with now := if w.scene.now ≤ time then time else w.scene.now } }

/-- Removes expired entries, if the store can. -/
def purge (w : World (Troubled Base) υ) : World (Troubled Base) υ :=
  match w.scene.contents.contents.purge w.scene.now with
  | .ok (count, contents) =>
    let scene := w.scene.withContents { w.scene.contents with contents }
    { w with scene := scene.logAll (contents.purgeEvents count) }
  | .error _ => w

end World

namespace Move

variable {υ ε ρ : Type} {τ : Kind} {c : Cache (Troubled Base)}

/-- Makes a move, and notes what comes of it. -/
def run (c : Cache (Troubled Base)) :
    Move υ ε ρ τ → World (Troubled Base) υ → List (Exchange υ ε ρ τ) × World (Troubled Base) υ
  | .call r, w =>
    let outcome := r.run c w
    ([⟨_, r, outcome⟩], outcome.2)
  | .drain, w => ([], Cache.drain c.store w)
  | .advance time, w => ([], w.advance time)
  | .purge, w => ([], w.purge)

/-- Makes moves in turn. -/
def runAll (c : Cache (Troubled Base)) :
    List (Move υ ε ρ τ) → World (Troubled Base) υ →
      List (Exchange υ ε ρ τ) × World (Troubled Base) υ
  | [], w => ([], w)
  | move :: moves, w =>
    let (noted, w) := move.run c w
    let (later, w) := runAll c moves w
    (noted ++ later, w)

/-- The readable entries of a store in trouble agree with a function. -/
def Consistent (c : Cache (Troubled Base)) (ns : String) (f : Key → Option τ)
    (contents : Troubled Base) (now : Int64) : Prop :=
  contents.contents.Consistent (c.Agrees ns f) now

def Truthful (c : Cache (Troubled Base)) (ns : String) (f : Key → Option τ) :
    Move υ ε ρ τ → Prop
  | .call r => r.Truthful c ns f (c.SoundFor ns f (Consistent c ns f))
  | .drain | .advance _ | .purge => True

theorem run_truthful {ns : String} {f : Key → Option τ} (henabled : c.config.disabled = false)
    (hcodec : c.codec.Faithful ns f)
    (hstore : c.store.Honest (c.Agrees ns f) (Consistent c ns f)) {w : World (Troubled Base) υ}
    (h : c.SoundFor ns f (Consistent c ns f) w) (move : Move υ ε ρ τ)
    (hmove : move.Truthful c ns f) :
    c.SoundFor ns f (Consistent c ns f) (move.run c w).2 ∧
      ∀ x ∈ (move.run c w).1, x.request.Shows c f x.outcome := by
  cases move with
  | call r =>
      obtain ⟨hsound, hshows⟩ := r.run_truthful henabled hcodec hstore h hmove
      refine ⟨hsound, fun x hx => ?_⟩
      rw [List.mem_singleton.mp hx]
      exact hshows
  | drain => exact ⟨h.drain hstore, fun x hx => by cases hx⟩
  | advance time =>
      refine ⟨⟨?_, h.pending⟩, fun x hx => by cases hx⟩
      simp only [run, World.advance]
      split
      · rename_i hle
        exact Base.Consistent.later h.holds hle
      · exact h.holds
  | purge =>
      refine ⟨?_, fun x hx => by cases hx⟩
      simp only [run, World.purge]
      split
      · rename_i hpurge
        exact ⟨Base.Consistent.purge h.holds hpurge, h.pending⟩
      · exact h

/-- Whatever goes wrong with the store, a session whose sources tell the truth shows nothing else,
and leaves nothing else behind. -/
theorem runAll_transparent {layers : Layers} (hlayers : layers.extra = none) {trouble : Trouble}
    (hstore : c.store = layers.outer.troubled trouble) (henabled : c.config.disabled = false)
    {ns : String} {f : Key → Option τ} (hcodec : c.codec.Faithful ns f)
    (moves : List (Move υ ε ρ τ)) (hmoves : ∀ move ∈ moves, move.Truthful c ns f)
    (w : World (Troubled Base) υ) (h : c.SoundFor ns f (Consistent c ns f) w) :
    (∀ x ∈ (runAll c moves w).1, x.request.Shows c f x.outcome) ∧
      c.SoundFor ns f (Consistent c ns f) (runAll c moves w).2 := by
  have hhonest : c.store.Honest (c.Agrees ns f) (Consistent c ns f) := by
    rw [hstore]
    exact (layers.honest_outer hlayers).troubled trouble
  -- Over the moves; that the world is sound is what carries from one to the next.
  induction moves generalizing w with
  | nil => exact ⟨fun x hx => absurd hx List.not_mem_nil, h⟩
  | cons move moves ih =>
      obtain ⟨hsound, hshows⟩ := run_truthful henabled hcodec hhonest h move
        (hmoves move List.mem_cons_self)
      obtain ⟨hlater, hend⟩ := ih (fun m hm => hmoves m (List.mem_cons_of_mem _ hm)) _ hsound
      refine ⟨fun x hx => ?_, hend⟩
      rcases List.mem_append.mp hx with hx | hx
      · exact hshows x hx
      · exact hlater x hx

theorem runAll_transparent_of_two_reads :
    let layers : Layers := { latency := some { set := some 1 }, deadline := some 5 }
    let trouble : Trouble := ⟨fun n => if n = 0 then some (.lost (.transport "gone")) else none,
      fun _ => [(⟨"n:9"⟩, [0x39])]⟩
    let c : Cache (Troubled Base) := { store := layers.outer.troubled trouble }
    let f : Key → Option Kind.word32 := fun key => if key = ⟨"n:1"⟩ then some 7 else none
    let source : List Kind.word32 →
        Computation (Troubled Base) Unit Unit (List (Option Kind.word32)) := fun asked w =>
      (.ok (asked.map fun x => if x = (1 : UInt32) then some 7 else none), w)
    let o : Options := { keyspace := "n" }
    let read : Move Unit Unit Unit .word32 := .call (.readMany o [(1 : UInt32), 2, 1] source)
    ∀ x ∈ (runAll c [read, .drain, .advance 5, .purge, read]
        { scene := { contents := ⟨.memory .empty, 0⟩, now := 0 }, outside := () }).1,
      x.request.Shows c f x.outcome := by
  intro layers trouble c f source o read
  have hcodec : c.codec.Faithful "n" f := by
    intro key bytes e _ hencode hdecode
    by_cases hkey : key = ⟨"n:1"⟩
    · have hf : f key = some 7 := if_pos hkey
      have hvalue : c.codec.encodeOption (some (7 : UInt32) : Option Kind.word32) = .ok [0x37] := by
        decide +kernel
      have hback : c.codec.decode .word32 [0x37] = .ok (.value (7 : UInt32)) := by decide +kernel
      rw [hf, hvalue] at hencode
      cases hencode
      rw [hback] at hdecode
      cases hdecode
      rw [hf]
      rfl
    · have hf : f key = none := if_neg hkey
      rw [hf] at hencode
      cases hencode
      have hback : c.codec.decode .word32 sentinel = .ok .null := by decide +kernel
      rw [hback] at hdecode
      cases hdecode
      rw [hf]
      rfl
  have htrue : ∀ x ∈ ([1, 2, 1] : List Kind.word32),
      (if x = (1 : UInt32) then some 7 else none : Option Kind.word32) =
        f ⟨"n:" ++ toString (x : UInt32).toNat⟩ := by
    intro x hx
    simp only [List.mem_cons, List.not_mem_nil, or_false] at hx
    rcases hx with rfl | rfl | rfl <;> decide +kernel
  have hread : read.Truthful c "n" f := by
    refine ⟨rfl, ⟨fun hresults => ?_, fun x => ⟨"n:" ++ toString (x : UInt32).toNat⟩,
      Batch.assigns_of_ne (by decide) ?_, ?_⟩⟩
    · cases hresults
    · intro x hx
      simp only [List.mem_cons, List.not_mem_nil, or_false] at hx
      rcases hx with rfl | rfl | rfl <;> decide +kernel
    · intro asked hasked w hw
      refine ⟨hw, fun results hresults => ?_⟩
      cases hresults
      exact List.map_congr_left fun x hx => htrue x (hasked hx)
  refine (runAll_transparent (c := c) rfl rfl rfl hcodec _ (fun move hmove => ?_) _ ⟨?_, ?_⟩).1
  · simp only [List.mem_cons, List.not_mem_nil, or_false] at hmove
    rcases hmove with rfl | rfl | rfl | rfl | rfl
    · exact hread
    · trivial
    · trivial
    · trivial
    · exact hread
  · intro key bytes hfound
    cases hfound
  · intro job hjob
    cases hjob

end Move

end CacheAside

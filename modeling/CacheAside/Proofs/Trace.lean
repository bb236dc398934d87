import CacheAside.Cache
import Mathlib.Logic.Function.Iterate

/-!
# What a world has been through

`Trace` relates two scenes by the store calls that lead from one to the other, for every store and
whatever it answers; `Leads` does so for worlds and says what has been counted. A call that fails or
finds nothing is in the trace all the same, so a step that leaves no trace has not called the store.
-/

namespace CacheAside

namespace Store

variable {σ υ : Type} {store : Store σ} {s t u : Scene σ} {w w₁ w₂ w₃ : World σ υ}
  {calls calls₁ calls₂ : List StoreCall} {tally tally₁ tally₂ : Stats → Stats}

inductive Trace (store : Store σ) : List StoreCall → Scene σ → Scene σ → Prop
  | refl (s : Scene σ) : Trace store [] s s
  | log {calls : List StoreCall} {s t : Scene σ} (e : Event) :
      Trace store calls s t → Trace store calls s (t.log e)
  | get {calls : List StoreCall} {s t : Scene σ} (key : Key) :
      Trace store calls s t → Trace store (calls ++ [.get key]) s (store.get key t).2
  | getMany {calls : List StoreCall} {s t : Scene σ} (keys : List Key) :
      Trace store calls s t → Trace store (calls ++ [.getMany keys]) s (store.getMany keys t).2
  | set {calls : List StoreCall} {s t : Scene σ} (key : Key) (ttl : UInt32) (bytes : Bytes) :
      Trace store calls s t → Trace store (calls ++ [.set key ttl]) s (store.set key ttl bytes t).2
  | add {calls : List StoreCall} {s t : Scene σ} (key : Key) (ttl : UInt32) (bytes : Bytes) :
      Trace store calls s t → Trace store (calls ++ [.add key ttl]) s (store.add key ttl bytes t).2
  | delete {calls : List StoreCall} {s t : Scene σ} (key : Key) :
      Trace store calls s t → Trace store (calls ++ [.delete key]) s (store.delete key t).2

theorem Trace.trans (h₁ : store.Trace calls₁ s t) (h₂ : store.Trace calls₂ t u) :
    store.Trace (calls₁ ++ calls₂) s u := by
  induction h₂ with
  | refl => simpa using h₁
  | log e _ ih => exact (ih h₁).log e
  | get key _ ih => rw [← List.append_assoc]; exact (ih h₁).get key
  | getMany keys _ ih => rw [← List.append_assoc]; exact (ih h₁).getMany keys
  | set key ttl bytes _ ih => rw [← List.append_assoc]; exact (ih h₁).set key ttl bytes
  | add key ttl bytes _ ih => rw [← List.append_assoc]; exact (ih h₁).add key ttl bytes
  | delete key _ ih => rw [← List.append_assoc]; exact (ih h₁).delete key

/-- A scene that no store call leads to differs by what has been logged. -/
theorem Trace.eq_logAll (h : store.Trace calls s t) (hcalls : calls = []) :
    ∃ es, t = s.logAll es := by
  induction h with
  | refl s => exact ⟨[], by simp [Scene.logAll]⟩
  | log e _ ih =>
      obtain ⟨es, rfl⟩ := ih hcalls
      exact ⟨es ++ [e], by simp [Scene.logAll, Scene.log]⟩
  | get | getMany | set | add | delete => simp at hcalls

/-! ## The record of a recording store -/

theorem calls_recorded {α : Type} (call : StoreCall) (operation : String)
    (fails : FailurePlan → Bool) {onMemory : Call MemoryStore α} (s : Scene RecordingStore) :
    (recorded call operation fails onMemory s).2.contents.calls = s.contents.calls ++ [call] := by
  simp only [recorded]
  cases fails (s.contents.record call).failures with
  | true => rfl
  | false => rfl

/-! ## Worlds -/

/-- From `w` to `w'` by store calls, logging and counting alone. -/
structure Leads (store : Store σ) (calls : List StoreCall) (tally : Stats → Stats)
    (w w' : World σ υ) : Prop where
  scene : store.Trace calls w.scene w'.scene
  stats : w'.stats = tally w.stats
  pending : w'.pending = w.pending
  executor : w'.executor = w.executor
  outside : w'.outside = w.outside

theorem Leads.refl (w : World σ υ) : store.Leads [] id w w := ⟨.refl _, rfl, rfl, rfl, rfl⟩

theorem Leads.trans (h₁ : store.Leads calls₁ tally₁ w₁ w₂) (h₂ : store.Leads calls₂ tally₂ w₂ w₃) :
    store.Leads (calls₁ ++ calls₂) (tally₂ ∘ tally₁) w₁ w₃ :=
  ⟨h₁.scene.trans h₂.scene, by rw [h₂.stats, h₁.stats]; rfl, h₂.pending.trans h₁.pending,
    h₂.executor.trans h₁.executor, h₂.outside.trans h₁.outside⟩

theorem Leads.log (h : store.Leads calls tally w₁ w₂) (e : Event) :
    store.Leads calls tally w₁ (w₂.log e) :=
  ⟨h.scene.log e, h.stats, h.pending, h.executor, h.outside⟩

theorem Leads.count (h : store.Leads calls tally₁ w₁ w₂) (change : Stats → Stats) :
    store.Leads calls (change ∘ tally₁) w₁ (w₂.count change) :=
  ⟨h.scene, by simp [World.count, h.stats], h.pending, h.executor, h.outside⟩

theorem leads_get (key : Key) : store.Leads [.get key] id w (w.call (store.get key)).2 :=
  ⟨(Trace.refl w.scene).get key, rfl, rfl, rfl, rfl⟩

theorem leads_getMany (keys : List Key) :
    store.Leads [.getMany keys] id w (w.call (store.getMany keys)).2 :=
  ⟨(Trace.refl w.scene).getMany keys, rfl, rfl, rfl, rfl⟩

theorem leads_delete (key : Key) : store.Leads [.delete key] id w (w.call (store.delete key)).2 :=
  ⟨(Trace.refl w.scene).delete key, rfl, rfl, rfl, rfl⟩

/-- As `Leads`, whatever has been counted. -/
def Reaches (store : Store σ) (calls : List StoreCall) (w w' : World σ υ) : Prop :=
  ∃ tally, store.Leads calls tally w w'

theorem Leads.reaches (h : store.Leads calls tally w₁ w₂) : store.Reaches calls w₁ w₂ := ⟨tally, h⟩

theorem Reaches.refl (w : World σ υ) : store.Reaches [] w w := ⟨id, .refl w⟩

theorem Reaches.trans (h₁ : store.Reaches calls₁ w₁ w₂) (h₂ : store.Reaches calls₂ w₂ w₃) :
    store.Reaches (calls₁ ++ calls₂) w₁ w₃ := by
  obtain ⟨tally₁, h₁⟩ := h₁
  obtain ⟨tally₂, h₂⟩ := h₂
  exact ⟨_, h₁.trans h₂⟩

/-- Nothing has happened but that some values had no bytes. -/
def Noted (store : Store σ) (w w' : World σ υ) : Prop :=
  ∃ n : Nat, store.Leads [] (Stats.addWriteFailure^[n]) w w'

theorem Noted.refl (w : World σ υ) : store.Noted w w := ⟨0, .refl w⟩

theorem Noted.trans (h₁ : store.Noted w₁ w₂) (h₂ : store.Noted w₂ w₃) : store.Noted w₁ w₃ := by
  obtain ⟨m, h₁⟩ := h₁
  obtain ⟨n, h₂⟩ := h₂
  exact ⟨n + m, by rw [Function.iterate_add]; exact h₁.trans h₂⟩

theorem Noted.exists_logAll (h : store.Noted w₁ w₂) : ∃ es, w₂.scene = w₁.scene.logAll es := by
  obtain ⟨n, hleads⟩ := h
  exact hleads.scene.eq_logAll rfl

theorem Noted.log (h : store.Noted w₁ w₂) (e : Event) : store.Noted w₁ (w₂.log e) := by
  obtain ⟨n, h⟩ := h
  exact ⟨n, h.log e⟩

end Store

end CacheAside

import CacheAside.Proofs.NullWrites

/-!
# Deletes

What a delete comes to, through whatever layers: it removes the entry under its key and says whether
that was to be read, or it fails and leaves all entries as they are. It reports nothing, and it does
not look at other keys.
-/

namespace CacheAside.Rig

namespace Base

/-- The keys whose deletes are to fail. Entries on disk have no such plan. -/
def planned : Base → Option (List Key)
  | memory _ => some []
  | recording r => some r.failures.deletes
  | disk _ => none

/-- What has gone wrong with a delete. -/
def failureOf : Except StoreError Bool → Option StoreError
  | .ok _ => none
  | .error e => some e

/-- What has become of a delete. -/
structure Removed (key : Key) (s : Scene Base) (answer : Except StoreError Bool)
    (s' : Scene Base) : Prop where
  told : ∀ removed, answer = .ok removed → removed = (s.contents.lookup s.now key).isSome
  kept (j : Key) : s'.contents.kept j =
    if j = key ∧ failureOf answer = none then none else s.contents.kept j
  now : s'.now = s.now
  events : s'.events = s.events
  planned : s'.contents.planned = s.contents.planned

def Removes (key : Key) (erase : Call Base Bool) : Prop :=
  ∀ s, Removed key s (erase s).1 (erase s).2

/-- A delete that fails when that is planned, and for no other reason. -/
def Heeds (key : Key) (erase : Call Base Bool) : Prop :=
  ∀ s plan, s.contents.planned = some plan → failureOf (erase s).1 =
    if key ∈ plan then some (RecordingStore.injected "delete") else none

variable {key : Key} {s s' : Scene Base} {answer : Except StoreError Bool} {erase : Call Base Bool}

theorem Removed.lookup (h : Removed key s answer s') (j : Key) :
    s'.contents.lookup s'.now j =
      if j = key ∧ failureOf answer = none then none else s.contents.lookup s.now j := by
  rw [lookup_eq_kept, lookup_eq_kept, h.now, h.kept]
  split <;> rfl

theorem removed_of_error (e : StoreError) (patience : Option Nat) :
    Removed key s (.error e) { s with patience } where
  told removed h := by cases h
  kept j := (if_neg fun h => by cases h.2).symm
  now := rfl
  events := rfl
  planned := rfl

theorem Removed.of_patience {patience : Option Nat}
    (h : Removed key { s with patience } answer s') (patience' : Option Nat) :
    Removed key s answer { s' with patience := patience' } where
  told := h.told
  kept := h.kept
  now := h.now
  events := h.events
  planned := h.planned

theorem Removed.of_error {e : StoreError} (h : Removed key s (.error e) s') (e' : StoreError) :
    Removed key s (.error e') s' where
  told removed h' := by cases h'
  kept j := (h.kept j).trans (by simp only [failureOf, reduceCtorEq])
  now := h.now
  events := h.events
  planned := h.planned

/-! ## Layers -/

theorem Removes.delayed (h : Removes key erase) (delay : Option Nat) :
    Removes key (Store.delayed delay erase) := by
  intro s
  unfold Store.delayed
  split
  · exact removed_of_error .stalled _
  · exact h s
  · split
    · exact (h _).of_patience _
    · exact removed_of_error .stalled _

theorem Removes.within (h : Removes key erase) (limit : Nat) (operation : String) :
    Removes key (Store.within limit operation erase) := by
  intro s
  have hcall : ∀ allowed patience, Removed key s (erase { s with patience := some allowed }).1
      { (erase { s with patience := some allowed }).2 with patience } :=
    fun allowed patience => (h { s with patience := some allowed }).of_patience patience
  have hfailed : ∀ allowed patience e e', (erase { s with patience := some allowed }).1 = .error e →
      Removed key s (.error e') { (erase { s with patience := some allowed }).2 with patience } :=
    fun allowed patience e e' he => (he ▸ hcall allowed patience).of_error e'
  rcases hpatience : s.patience with _ | p
  all_goals
    simp only [Store.within, hpatience]
    split
    · split <;> exact hfailed _ _ _ _ ‹_›
    · exact hcall _ _

theorem Heeds.within (h : Heeds key erase) (limit : Nat) (operation : String) :
    Heeds key (Store.within limit operation erase) := by
  intro s plan hplan
  have hcall : ∀ allowed, failureOf (erase { s with patience := some allowed }).1 =
      if key ∈ plan then some (RecordingStore.injected "delete") else none :=
    fun allowed => h _ plan hplan
  have hpatient : ∀ allowed, (erase { s with patience := some allowed }).1 ≠ .error .stalled := by
    intro allowed hstalled
    have hfailure := hcall allowed
    rw [hstalled] at hfailure
    split at hfailure <;> cases hfailure
  rcases hpatience : s.patience with _ | p
  all_goals
    simp only [Store.within, hpatience]
    split
    · exact absurd ‹_› (hpatient _)
    · exact hcall _

/-! ## The three stores -/

theorem removed_memory (m : MemoryStore) (now : Int64) (patience : Option Nat)
    (events : List Event) :
    Removed key ⟨.memory m, now, patience, events⟩ (.ok (m.delete now key).1)
      ⟨.memory (m.delete now key).2, now, patience, events⟩ where
  told removed h := (Except.ok.inj h).symm
  kept j := by
    have herased := Table.find?_erase m.table key j
    simp only [kept, MemoryStore.delete, herased, failureOf, and_true, eq_comm (a := j)]
    split <;> rfl
  now := rfl
  events := rfl
  planned := rfl

theorem removes_store (key : Key) : Removes key (store.delete key) := by
  rintro ⟨contents, now, patience, events⟩
  cases contents with
  | memory m => exact removed_memory m now patience events
  | recording r =>
      have hrecorded : Store.recording.delete key = Store.recorded (.delete key) "delete"
        (·.deletes.contains key) (Store.memory.delete key) := rfl
      simp only [store, through, Scene.withContents, hrecorded]
      cases hfails : (fun plan : FailurePlan => plan.deletes.contains key) r.failures with
      | true =>
          rw [Store.recorded_of_fails hfails]
          exact { removed_of_error _ patience with }
      | false =>
          rw [Store.recorded_of_not_fails hfails]
          exact { removed_memory r.memory now patience events with planned := rfl }
  | disk d =>
      simp only [store, through, Scene.withContents, Store.disk, Store.attempt, DiskStore.delete]
      cases hcommit : DiskStore.commit (d.table.erase key) (d.file.eraseAll? [key]) with
      | error e => exact { removed_of_error _ patience with }
      | ok d' =>
          refine ⟨fun removed h => (Except.ok.inj h).symm, fun j => ?_, rfl, rfl, rfl⟩
          have herased := Table.find?_erase d.table key j
          simp only [kept, DiskStore.table_of_commit hcommit, herased, failureOf, and_true,
            eq_comm (a := j)]
          split <;> rfl

theorem heeds_store (key : Key) : Heeds key (store.delete key) := by
  rintro ⟨contents, now, patience, events⟩ plan hplan
  cases contents with
  | memory m =>
      cases hplan
      rfl
  | recording r =>
      cases hplan
      have hrecorded : Store.recording.delete key = Store.recorded (.delete key) "delete"
        (·.deletes.contains key) (Store.memory.delete key) := rfl
      simp only [store, through, Scene.withContents, hrecorded]
      cases hfails : (fun plan : FailurePlan => plan.deletes.contains key) r.failures with
      | true =>
          rw [Store.recorded_of_fails hfails, if_pos (List.contains_iff_mem.mp hfails)]
          rfl
      | false =>
          have hkey : key ∉ r.failures.deletes := fun h =>
            Bool.false_ne_true (hfails.symm.trans (List.contains_iff_mem.mpr h))
          rw [Store.recorded_of_not_fails hfails, if_neg hkey]
          rfl
  | disk d => cases hplan

end Base

/-- A delete behind layers is still one. -/
theorem Layers.removes_outer (l : Layers) (key : Key) : Base.Removes key (l.outer.delete key) :=
  l.outer_of (P := fun store => Base.Removes key (store.delete key)) (Base.removes_store key)
    (fun _ latency h => h.delayed latency.delete) (fun _ _ _ h => h)
    fun _ limit h => h.within limit "delete"

/-- A delete that takes no time goes as planned. -/
theorem Layers.heeds_outer (l : Layers) (hl : l.latency = none) (key : Key) :
    Base.Heeds key (l.outer.delete key) := by
  have hinner : Base.Heeds key (l.inner.delete key) := by
    simp only [Layers.inner, hl]
    cases l.extra <;> exact Base.heeds_store key
  unfold Layers.outer
  cases l.deadline with
  | none => exact hinner
  | some limit => exact hinner.within limit "delete"

end CacheAside.Rig

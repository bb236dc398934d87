import CacheAside.Proofs.Histories
import CacheAside.Proofs.Lookups
import CacheAside.Proofs.Steps
import Mathlib.Algebra.BigOperators.Group.List.Basic

/-!
# Worlds without a record

What is left of a world when nobody looks at the log or at the calls that have been recorded. Store
calls act on that much, and what a call counts and asks can be put before the writes it makes.
-/

namespace CacheAside

/-! ## Counting -/

namespace Stats

instance : Zero Stats := ⟨{}⟩

instance : Add Stats where
  add s t :=
    { hits := s.hits + t.hits, misses := s.misses + t.misses
      storeErrors := s.storeErrors + t.storeErrors, writes := s.writes + t.writes
      writeFailures := s.writeFailures + t.writeFailures
      invalidations := s.invalidations + t.invalidations }

theorem add_def (s t : Stats) : s + t =
    { hits := s.hits + t.hits, misses := s.misses + t.misses
      storeErrors := s.storeErrors + t.storeErrors, writes := s.writes + t.writes
      writeFailures := s.writeFailures + t.writeFailures
      invalidations := s.invalidations + t.invalidations } := rfl

theorem zero_def : (0 : Stats) = {} := rfl

instance : AddCommMonoid Stats where
  add_assoc s t u := by simp [add_def, UInt64.add_assoc]
  zero_add s := by simp [add_def, zero_def]
  add_zero s := by simp [add_def, zero_def]
  add_comm s t := by simp [add_def, UInt64.add_comm]
  nsmul := nsmulRec

theorem addHits_succ (n : Nat) : addHits (n + 1) 0 = addHits n 0 + addHits 1 0 := by
  simp [addHits, add_def, zero_def]

theorem addMisses_succ (n : Nat) : addMisses (n + 1) 0 = addMisses n 0 + addMisses 1 0 := by
  simp [addMisses, add_def, zero_def]

/-- A change that adds the same to all statistics. -/
def IsCharge (change : Stats → Stats) : Prop := ∀ s, change s = s + change 0

theorem isCharge_id : IsCharge id := fun s => (add_zero s).symm

theorem IsCharge.comp {change change' : Stats → Stats} (h : IsCharge change)
    (h' : IsCharge change') : IsCharge (change ∘ change') := fun s => by
  rw [Function.comp_apply, Function.comp_apply, h, h' s, add_assoc, ← h]

theorem isCharge_addHits (n : Nat) : IsCharge (addHits n) := fun s => by
  simp [addHits, add_def, zero_def]

theorem isCharge_addMisses (n : Nat) : IsCharge (addMisses n) := fun s => by
  simp [addMisses, add_def, zero_def]

theorem isCharge_addStoreError : IsCharge addStoreError := fun s => by
  simp [addStoreError, add_def, zero_def]

theorem isCharge_addWrite : IsCharge addWrite := fun s => by simp [addWrite, add_def, zero_def]

theorem isCharge_addWriteFailure : IsCharge addWriteFailure := fun s => by
  simp [addWriteFailure, add_def, zero_def]

theorem isCharge_addInvalidation : IsCharge addInvalidation := fun s => by
  simp [addInvalidation, add_def, zero_def]

end Stats

/-! ## Worlds -/

namespace World

variable {σ υ : Type} {κ : Type} {w : World σ (List κ)}

/-- What is counted and what is asked of a data source that keeps its questions. -/
def charge (w : World σ (List κ)) (cost : Stats) (asked : List κ) : World σ (List κ) :=
  { w with stats := w.stats + cost, outside := w.outside ++ asked }

@[simp] theorem charge_zero : w.charge 0 [] = w := by simp [charge]

@[simp] theorem charge_charge (cost cost' : Stats) (asked asked' : List κ) :
    (w.charge cost asked).charge cost' asked' = w.charge (cost + cost') (asked ++ asked') := by
  simp [charge, add_assoc]

theorem count_eq_charge {change : Stats → Stats} (h : Stats.IsCharge change) :
    w.count change = w.charge (change 0) [] := by
  simp [charge, count, ← h w.stats]

theorem count_charge {change : Stats → Stats} (h : Stats.IsCharge change) (cost : Stats)
    (asked : List κ) : (w.charge cost asked).count change = (w.count change).charge cost asked := by
  rw [count_eq_charge h, count_eq_charge h, charge_charge, charge_charge, add_comm]
  simp

end World

namespace Rig

/-- The contents without the record of calls. -/
def Base.forget : Base → Base
  | memory m => memory m
  | recording r => recording { r with calls := [] }
  | disk d => disk d

/-- Whether reads are to fail. -/
def Base.failsReads : Base → Bool
  | recording r => r.failures.reads
  | memory _ | disk _ => false

end Rig

open Rig

/-- A scene without log and record. -/
def Scene.bare (s : Scene Base) : Scene Base :=
  { s with contents := s.contents.forget, events := [] }

/-- A world without log and record. -/
def World.bare {υ : Type} (w : World Base υ) : World Base υ := { w with scene := w.scene.bare }

namespace Store

variable {α : Type} {made : StoreCall} {operation : String} {fails : FailurePlan → Bool}
  {onMemory : Call MemoryStore α} {r : RecordingStore} {now : Int64} {patience : Option Nat}
  {events : List Event}

theorem recorded_of_fails (h : fails r.failures = true) :
    recorded made operation fails onMemory ⟨r, now, patience, events⟩ =
      (.error (RecordingStore.injected operation), ⟨r.record made, now, patience, events⟩) :=
  if_pos h

theorem recorded_of_not_fails (h : fails r.failures = false) :
    recorded made operation fails onMemory ⟨r, now, patience, events⟩ =
      let (answer, s) := onMemory ⟨r.memory, now, patience, events⟩
      (answer, s.withContents { r.record made with memory := s.contents }) :=
  if_neg (by simpa [RecordingStore.record] using h)

end Store

namespace Rig.Base

variable {α : Type} {key : Key} {s t : Scene Base}

/-- A call that needs no more than the bare scene. -/
def Plain (call : Call Base α) : Prop :=
  ∀ s, (call s.bare).1 = (call s).1 ∧ (call s.bare).2.bare = (call s).2.bare

theorem Plain.congr {call : Call Base α} (h : Plain call) (hst : s.bare = t.bare) :
    (call s).1 = (call t).1 ∧ (call s).2.bare = (call t).2.bare := by
  rw [← (h s).1, ← (h s).2, ← (h t).1, ← (h t).2, hst]
  exact ⟨rfl, rfl⟩

/-- A call that has no use for the log. -/
def Mute {σ : Type} (call : Call σ α) : Prop := ∀ s : Scene σ,
  (call { s with events := [] }).1 = (call s).1 ∧
    { (call { s with events := [] }).2 with events := [] } = { (call s).2 with events := [] }

theorem mute_attempt (change : DiskStore → Int64 → Except DiskError (α × DiskStore)) :
    Mute (Store.attempt change) := by
  intro s
  unfold Store.attempt
  cases change s.contents s.now <;> exact ⟨rfl, rfl⟩

/-- A call is plain if it is mute where nothing is recorded, and recorded as a mute one else. -/
theorem plain_through (call : {σ : Type} → Store σ → Call σ α) {onMemory : Call MemoryStore α}
    {made : StoreCall} {operation : String} {fails : FailurePlan → Bool}
    (hrecording : call Store.recording = Store.recorded made operation fails onMemory)
    (hmemory : Mute (call Store.memory)) (honMemory : Mute onMemory)
    (hdisk : Mute (call Store.disk)) : Plain (through call) := by
  rintro ⟨contents, now, patience, events⟩
  cases contents with
  | memory m =>
      obtain ⟨hanswer, hafter⟩ := hmemory ⟨m, now, patience, events⟩
      exact ⟨hanswer, congrArg (fun s => (s.withContents (.memory s.contents)).bare) hafter⟩
  | disk d =>
      obtain ⟨hanswer, hafter⟩ := hdisk ⟨d, now, patience, events⟩
      exact ⟨hanswer, congrArg (fun s => (s.withContents (.disk s.contents)).bare) hafter⟩
  | recording r =>
      -- The record of calls gets longer, but does not tell whether a call fails.
      obtain ⟨hanswer, hafter⟩ := honMemory ⟨r.memory, now, patience, events⟩
      simp only [through, hrecording, Scene.bare, forget, Scene.withContents]
      cases hfails : fails r.failures with
      | true =>
          rw [Store.recorded_of_fails hfails,
            Store.recorded_of_fails (r := ⟨r.memory, [], _⟩) hfails]
          exact ⟨rfl, rfl⟩
      | false =>
          rw [Store.recorded_of_not_fails hfails,
            Store.recorded_of_not_fails (r := ⟨r.memory, [], _⟩) hfails]
          have hbare := congrArg (fun s : Scene MemoryStore =>
            (⟨.recording ⟨s.contents, [], r.failures⟩, s.now, s.patience, []⟩ : Scene Base)) hafter
          exact ⟨hanswer, hbare⟩

theorem plain_set (key : Key) (ttl : UInt32) (bytes : Bytes) : Plain (store.set key ttl bytes) :=
  plain_through (·.set key ttl bytes) rfl (fun _ => ⟨rfl, rfl⟩) (fun _ => ⟨rfl, rfl⟩)
    (mute_attempt _)

theorem plain_add (key : Key) (ttl : UInt32) (bytes : Bytes) : Plain (store.add key ttl bytes) :=
  plain_through (·.add key ttl bytes) rfl (fun _ => ⟨rfl, rfl⟩) (fun _ => ⟨rfl, rfl⟩)
    (mute_attempt _)

end Rig.Base

/-! ## What reads say -/

theorem DiskStore.lookup_put {d d' : DiskStore} {now later : Int64} {j key : Key} {ttl : UInt32}
    {bytes : Bytes} (hne : j ≠ key) (h : d.put now j ttl bytes = .ok d') :
    d'.lookup later key = d.lookup later key := by
  rw [lookup, table_of_put h, Table.find?_insert, if_neg hne, lookup]

namespace Store

variable {j key : Key} {shown : Option Bytes}

/-! A write leaves other keys alone. -/

theorem safe_set_memory (hne : j ≠ key) (ttl : UInt32) (bytes : Bytes) :
    Safe (fun m now => m.lookup now key = shown) (memory.set j ttl bytes) fun _ => True :=
  fun s hs => ⟨by rw [← hs]; exact (MemoryStore.lookup_put ttl bytes).trans (if_neg hne),
    fun _ _ => trivial⟩

theorem safe_add_memory (hne : j ≠ key) (ttl : UInt32) (bytes : Bytes) :
    Safe (fun m now => m.lookup now key = shown) (memory.add j ttl bytes) fun _ => True := by
  refine fun s hs => ⟨?_, fun _ _ => trivial⟩
  simp only [memory, MemoryStore.add]
  split
  · exact hs
  · exact ((MemoryStore.lookup_put ttl bytes).trans (if_neg hne)).trans hs

theorem safe_set_disk (hne : j ≠ key) (ttl : UInt32) (bytes : Bytes) :
    Safe (fun d now => d.lookup now key = shown) (disk.set j ttl bytes) fun _ => True := by
  apply safe_attempt (J := fun d now => d.lookup now key = shown)
  intro d now a d' hd hchange
  cases hput : d.put now j ttl bytes with
  | error e => simp [hput, Except.map] at hchange
  | ok d'' =>
      obtain rfl : d'' = d' := by simpa [hput, Except.map] using hchange
      exact (DiskStore.lookup_put hne hput).trans hd

theorem safe_add_disk (hne : j ≠ key) (ttl : UInt32) (bytes : Bytes) :
    Safe (fun d now => d.lookup now key = shown) (disk.add j ttl bytes) fun _ => True := by
  apply safe_attempt (J := fun d now => d.lookup now key = shown)
  intro d now a d' hd hchange
  unfold DiskStore.add at hchange
  split at hchange
  · cases hchange
    exact hd
  · split at hchange
    · rename_i hput
      cases hchange
      exact (DiskStore.lookup_put hne hput).trans hd
    · cases hchange

end Store

namespace Rig.Base

variable {α : Type} {j key : Key} {shown : Option Bytes} {s : Scene Base}

theorem safe_set (hne : j ≠ key) (ttl : UInt32) (bytes : Bytes) :
    Store.Safe (fun b now => lookup b now key = shown) (store.set j ttl bytes) fun _ => True :=
  safe_through (·.set j ttl bytes) (Store.safe_set_memory hne ttl bytes)
    ((Store.safe_set_memory hne ttl bytes).recorded (.set j ttl) "set" (·.writes))
    (Store.safe_set_disk hne ttl bytes)

theorem safe_add (hne : j ≠ key) (ttl : UInt32) (bytes : Bytes) :
    Store.Safe (fun b now => lookup b now key = shown) (store.add j ttl bytes) fun _ => True :=
  safe_through (·.add j ttl bytes) (Store.safe_add_memory hne ttl bytes)
    ((Store.safe_add_memory hne ttl bytes).recorded (.add j ttl) "add" (·.writes))
    (Store.safe_add_disk hne ttl bytes)

/-- No call changes which calls are to fail. -/
theorem failsReads_through (call : {σ : Type} → Store σ → Call σ α) {onMemory : Call MemoryStore α}
    {made : StoreCall} {operation : String} {fails : FailurePlan → Bool}
    (hrecording : call Store.recording = Store.recorded made operation fails onMemory) :
    (through call s).2.contents.failsReads = s.contents.failsReads := by
  obtain ⟨contents, now, patience, events⟩ := s
  cases contents with
  | memory m => rfl
  | disk d => rfl
  | recording r =>
      simp only [through, hrecording, Scene.withContents]
      cases hfails : fails r.failures with
      | true => rw [Store.recorded_of_fails hfails]; rfl
      | false => rw [Store.recorded_of_not_fails hfails]; rfl

theorem fst_get (key : Key) : (store.get key s).1 = if s.contents.failsReads
    then .error (RecordingStore.injected "get") else .ok (s.contents.lookup s.now key) := by
  obtain ⟨contents, now, patience, events⟩ := s
  cases contents with
  | memory m => rfl
  | disk d => rfl
  | recording r =>
      obtain ⟨memory, calls, reads, writes, deletes⟩ := r
      cases reads <;> rfl

theorem fst_getMany (keys : List Key) : ∃ found : Table Bytes,
    (store.getMany keys s).1 = (if s.contents.failsReads
      then .error (RecordingStore.injected "get_bulk") else .ok found) ∧
    ∀ key ∈ keys, found.find? key = s.contents.lookup s.now key := by
  obtain ⟨contents, now, patience, events⟩ := s
  refine ⟨Table.ofKeys (contents.lookup now) keys, ?_, fun key hkey => ?_⟩
  · cases contents with
    | memory m => rfl
    | disk d => rfl
    | recording r =>
        obtain ⟨memory, calls, reads, writes, deletes⟩ := r
        cases reads <;> rfl
  · rw [Table.find?_ofKeys, if_pos hkey]

theorem bare_get (key : Key) : (store.get key s).2.bare = s.bare := by
  obtain ⟨contents, now, patience, events⟩ := s
  cases contents with
  | memory m => rfl
  | disk d => rfl
  | recording r =>
      obtain ⟨memory, calls, reads, writes, deletes⟩ := r
      cases reads <;> rfl

theorem bare_getMany (keys : List Key) : (store.getMany keys s).2.bare = s.bare := by
  obtain ⟨contents, now, patience, events⟩ := s
  cases contents with
  | memory m => rfl
  | disk d => rfl
  | recording r =>
      obtain ⟨memory, calls, reads, writes, deletes⟩ := r
      cases reads <;> rfl

end Rig.Base

end CacheAside

import CacheAside.Proofs.Confined
import CacheAside.Proofs.Lookups
import CacheAside.Proofs.ReadAlike

/-!
# Purging

A purge takes out what can no longer be read, and nothing else. The clock does not go back, so what
has expired stays expired, and a store that has been purged answers like one that has not, whatever
else is done to both.
-/

namespace CacheAside

namespace Table

variable {α : Type}

/-- Entries that are counted by their keys. -/
theorem size_filter_eq (t : Table α) {p : Key → α → Bool} {q : Key → Bool}
    (h : ∀ key a, t.find? key = some a → p key a = q key) :
    (t.filter p).size = (t.keys.filter q).length := by
  rw [size, filter, keys, List.filter_map, List.length_map]
  exact congrArg List.length (List.filter_congr fun e he => h e.1 e.2 (find?_eq_some.mpr he))

theorem filter_filter_self (t : Table α) (p : Key → α → Bool) :
    (t.filter p).filter p = t.filter p := ext fun key => by
  rw [find?_filter, find?_filter, Option.filter_filter]
  simp

theorem filter_not_filter (t : Table α) (p : Key → α → Bool) :
    (t.filter p).filter (fun key a => !p key a) = .empty := ext fun key => by
  rw [find?_filter, find?_filter]
  cases t.find? key with
  | none => rfl
  | some a => cases hp : p key a <;> simp [Option.filter, hp]

end Table

/-! ## One purge -/

namespace MemoryStore

variable {m m' : MemoryStore} {now : Int64}

theorem purge_purge (m : MemoryStore) (now : Int64) :
    (m.purge now).2.purge now = (0, (m.purge now).2) := by
  simp only [purge, size, m.table.filter_filter_self fun _ v => v.isLive now, Nat.sub_self]

theorem agree_purge {since : Int64} (h : AgreeFrom since m.lookup m'.lookup) (hle : since ≤ now) :
    AgreeFrom now (m.purge now).2.lookup m'.lookup := fun later hlater key => by
  rw [lookup_purge hlater, h later (Int64.le_trans hle hlater)]

end MemoryStore

namespace DiskStore

variable {d d' : DiskStore} {now : Int64}

/-- What a purge takes out could not be read any more, and never will be. -/
theorem agree_purge {since : Int64} (h : AgreeFrom since d.lookup d'.lookup) (hle : since ≤ now)
    (file : Pages.File) :
    AgreeFrom now (lookup ⟨d.table.filter fun _ raw => (payload? now raw).isSome, file⟩)
      d'.lookup := by
  intro later hlater key
  rw [← h later (Int64.le_trans hle hlater), lookup, lookup, Table.find?_filter]
  cases d.table.find? key with
  | none => rfl
  | some raw =>
      cases hnow : payload? now raw with
      | some bytes => simp [Option.filter, hnow]
      | none =>
          have hnever : payload? later raw = none := by
            cases hlook : payload? later raw with
            | none => rfl
            | some bytes => cases hnow.symm.trans (payload?_of_le hlater hlook)
          simp [Option.filter, hnow, hnever]

theorem purge_eq (d : DiskStore) (now : Int64) : d.purge now =
    (commit (d.table.filter fun _ raw => (payload? now raw).isSome)
      (d.file.eraseAll? (d.table.filter fun _ raw => (payload? now raw).isNone).keys)).map
      ((d.table.filter fun _ raw => (payload? now raw).isNone).size, ·) := by
  simp only [purge]
  cases commit (d.table.filter fun _ raw => (payload? now raw).isSome)
    (d.file.eraseAll? (d.table.filter fun _ raw => (payload? now raw).isNone).keys) <;> rfl

end DiskStore

namespace Rig

/-- The keys of all entries, readable or not. -/
def Base.keys : Base → List Key
  | .memory m => m.table.keys
  | .recording r => r.memory.table.keys
  | .disk d => d.table.keys

/-- What a purge that goes through has done: it has removed the entries that could not be read, and
no other. -/
structure Purged (before : Base) (now : Int64) (count : Nat) (after : Base) : Prop where
  count : count = (before.keys.filter fun key => (before.lookup now key).isNone).length
  kept : ∀ key, after.kept key =
    (before.kept key).filter fun _ => (before.lookup now key).isSome
  again : after.purge now = .ok (0, after)

theorem purged_memory (m : MemoryStore) (now : Int64) :
    Purged (.memory m) now (m.purge now).1 (.memory (m.purge now).2) where
  count := by
    have hsum := m.table.size_filter_add fun _ v => v.isLive now
    have hdead := m.table.size_filter_eq (p := fun _ v => !v.isLive now)
      (q := fun key => (m.lookup now key).isNone) fun key v hfind => by
        rw [MemoryStore.lookup_of_find? hfind]
        cases v.isLive now <;> rfl
    simp only [MemoryStore.purge, MemoryStore.size]
    rw [← hsum, Nat.add_sub_cancel_left]
    exact hdead
  kept key := by
    simp only [Base.kept, Base.lookup, MemoryStore.purge, Table.find?_filter]
    cases hfind : m.table.find? key with
    | none => rfl
    | some v =>
        rw [MemoryStore.lookup_of_find? hfind]
        cases hlive : v.isLive now <;> simp [Option.filter, hlive]
  again := by simp only [Base.purge, MemoryStore.purge_purge]

theorem purged_disk {d d' : DiskStore} {now : Int64} {count : Nat}
    (h : d.purge now = .ok (count, d')) : Purged (.disk d) now count (.disk d') := by
  rw [DiskStore.purge_eq] at h
  generalize hfile : d.file.eraseAll? _ = file at h
  cases file with
  | none => cases h
  | some file =>
      cases h
      refine ⟨?_, fun key => ?_, ?_⟩
      · exact d.table.size_filter_eq fun key raw hfind => by
          rw [Base.lookup, DiskStore.lookup, hfind]
          rfl
      · simp only [Base.kept, Base.lookup, DiskStore.lookup, Table.find?_filter]
        cases d.table.find? key with
        | none => rfl
        | some raw => cases hlive : DiskStore.payload? now raw <;> simp [Option.filter, hlive]
      · have hkept := d.table.filter_filter_self fun _ raw => (DiskStore.payload? now raw).isSome
        have hdead := d.table.filter_not_filter fun _ raw => (DiskStore.payload? now raw).isSome
        simp only [Option.not_isSome] at hdead
        simp only [Base.purge, DiskStore.purge_eq, hkept, hdead]
        rfl

theorem purged_of_ok {b after : Base} {now : Int64} {count : Nat}
    (h : b.purge now = .ok (count, after)) : Purged b now count after := by
  cases b with
  | memory m =>
      cases h
      exact purged_memory m now
  | recording r =>
      cases h
      have hmemory := purged_memory r.memory now
      refine ⟨hmemory.count, hmemory.kept, ?_⟩
      exact congrArg (fun p => Except.ok (p.1, Base.recording { r with memory := p.2 }))
        (MemoryStore.purge_purge r.memory now)
  | disk d =>
      cases hpurge : d.purge now with
      | error e => simp [Base.purge, hpurge, Except.map] at h
      | ok purged =>
          simp only [Base.purge, hpurge, Except.map, Except.ok.injEq, Prod.mk.injEq] at h
          obtain ⟨rfl, rfl⟩ := h
          exact purged_disk hpurge

theorem run_purge {s : Scene Base} {count : Nat} {after : Base}
    (h : s.contents.purge s.now = .ok (count, after)) :
    (Action.purge.run s).1 = .ok (.count count) ∧ (Action.purge.run s).2.contents = after := by
  simp [Action.run, Action.purged, h, Scene.logAll]

theorem exists_purge {s : Scene Base} (hroom : Unfilled (Action.purge.run s).1) :
    ∃ count after, s.contents.purge s.now = .ok (count, after) := by
  cases hpurge : s.contents.purge s.now with
  | ok purged => exact ⟨purged.1, purged.2, rfl⟩
  | error e =>
      refine absurd ?_ hroom
      simp only [Action.run, Action.purged, hpurge]
      cases hs : s.contents with
      | memory | recording => simp [hs, Base.purge] at hpurge
      | disk d =>
          rw [hs, Base.purge, DiskStore.purge_eq] at hpurge
          generalize d.file.eraseAll? _ = file at hpurge
          cases file with
          | some file => cases hpurge
          | none =>
              cases hpurge
              rfl

theorem Base.Alike.purge {b b' after : Base} {since now : Int64} {count : Nat}
    (h : Base.Alike since b b') (hle : since ≤ now) (hpurge : b.purge now = .ok (count, after)) :
    Base.Alike now after b' := by
  cases h with
  | memory h =>
      cases hpurge
      exact .memory (MemoryStore.agree_purge h hle)
  | @disk d d' h =>
      rw [Base.purge, DiskStore.purge_eq] at hpurge
      generalize d.file.eraseAll? _ = file at hpurge
      cases file with
      | none => cases hpurge
      | some file =>
          cases hpurge
          exact .disk (DiskStore.agree_purge h hle file)

/-! ## Runs -/

/-- The run without its purges. -/
def unpurged (run : List (Int64 × Action)) : List (Int64 × Action) :=
  run.filter fun e => !e.2.isPurge

theorem runAll_append (done rest : List (Int64 × Action)) (s : Scene Base) :
    (runAll (done ++ rest) s).1 = (runAll done s).1 ++ (runAll rest (runAll done s).2).1 := by
  induction done generalizing s with
  | nil => rfl
  | cons e done ih => simp only [List.cons_append, runAll, ih]

theorem Base.Alike.of_le {b b' : Base} {since later : Int64} (h : Base.Alike since b b')
    (hle : since ≤ later) : Base.Alike later b b' := by
  cases h with
  | memory h => exact .memory (h.of_le hle)
  | disk h => exact .disk (h.of_le hle)

theorem runAll_unpurged : ∀ {run : List (Int64 × Action)} {s t : Scene Base} {since : Int64},
    Base.Alike since s.contents t.contents → (since :: run.map Prod.fst).Pairwise (· ≤ ·) →
    (∀ e ∈ run, e.2.counts = false) → (∀ r ∈ (runAll run s).1, Unfilled r.answer) →
    (∀ r ∈ (runAll (unpurged run) t).1, Unfilled r.answer) →
    (runAll (unpurged run) t).1 = (runAll run s).1.filter fun r => !r.action.isPurge
  | [], _, _, _, _, _, _, _, _ => rfl
  | (now, action) :: run, s, t, since, h, hclock, hcounts, hs, ht => by
      obtain ⟨hsince, hclock⟩ := List.pairwise_cons.mp hclock
      have hle : since ≤ now := hsince now List.mem_cons_self
      obtain ⟨hcount, hrest⟩ := List.forall_mem_cons.mp hcounts
      obtain ⟨hfirst, hs⟩ := List.forall_mem_cons.mp hs
      cases hpurge : action.isPurge with
      | true =>
          obtain rfl : action = .purge := by cases action <;> first | rfl | cases hpurge
          have hskip : unpurged ((now, .purge) :: run) = unpurged run := rfl
          rw [hskip] at ht ⊢
          obtain ⟨count, after, hpurged⟩ := exists_purge (s := { s with now }) hfirst
          have hafter := (run_purge (s := { s with now }) hpurged).2
          have halike : Base.Alike now (Action.purge.run { s with now }).2.contents
              t.contents := hafter.symm ▸ h.purge hle hpurged
          rw [runAll_unpurged halike hclock hrest hs ht]
          rfl
      | false =>
          have hkeep : unpurged ((now, action) :: run) = (now, action) :: unpurged run := by
            rw [unpurged, List.filter_cons_of_pos (by simp [hpurge])]
            rfl
          rw [hkeep] at ht ⊢
          obtain ⟨hfirst', ht⟩ := List.forall_mem_cons.mp ht
          obtain ⟨hanswer, hafter⟩ := Base.Alike.run (s := { s with now }) (t := { t with now })
            (h.of_le hle) rfl hcount hpurge hfirst hfirst'
          have hruns := runAll_unpurged hafter hclock hrest hs ht
          simp only [runAll, List.filter_cons, hpurge, hruns, hanswer]
          rfl

/-- Purges are invisible: a run in which they are left out is answered the same, at every time. Each
of them removes exactly the entries that cannot be read, and leaves nothing to the next one. -/
theorem runAll_purged (run : List (Int64 × Action)) (s : Scene Base)
    (hstore : (∃ m, s.contents = .memory m) ∨ ∃ d, s.contents = .disk d)
    (hclock : (run.map Prod.fst).Pairwise (· ≤ ·)) (hcounts : ∀ e ∈ run, e.2.counts = false)
    (hroom : ∀ r ∈ (runAll run s).1, Unfilled r.answer)
    (hroom' : ∀ r ∈ (runAll (unpurged run) s).1, Unfilled r.answer) :
    (runAll (unpurged run) s).1 = (runAll run s).1.filter (fun r => !r.action.isPurge) ∧
    ∀ done now rest, run = done ++ (now, .purge) :: rest →
      let before : Scene Base := { (runAll done s).2 with now }
      let after := (Action.purge.run before).2
      ∃ count, (Action.purge.run before).1 = .ok (.count count) ∧
        count = (before.contents.keys.filter fun key =>
          (before.contents.lookup now key).isNone).length ∧
        (∀ key, after.contents.kept key = (before.contents.kept key).filter fun _ =>
          (before.contents.lookup now key).isSome) ∧
        (Action.purge.run { after with now }).1 = .ok (.count 0) := by
  have hfirst : (Int64.minValue :: run.map Prod.fst).Pairwise (· ≤ ·) :=
    List.pairwise_cons.mpr ⟨fun t _ => Int64.minValue_le t, hclock⟩
  have halike : Base.Alike Int64.minValue s.contents s.contents := by
    rcases hstore with ⟨m, hs⟩ | ⟨d, hs⟩ <;> rw [hs]
    · exact .memory (.refl _)
    · exact .disk (.refl _)
  refine ⟨runAll_unpurged halike hfirst hcounts hroom hroom', fun done now rest hsplit => ?_⟩
  subst hsplit
  intro before after
  have hunfilled : Unfilled (Action.purge.run before).1 := by
    rw [runAll_append] at hroom
    exact hroom _ (List.mem_append_right _ List.mem_cons_self)
  obtain ⟨count, contents, hpurge⟩ := exists_purge hunfilled
  obtain ⟨hanswer, hafter⟩ := run_purge hpurge
  obtain ⟨hcount, hkept, hagain⟩ := purged_of_ok hpurge
  have hsecond : after.contents.purge now = .ok (0, contents) :=
    (congrArg (Base.purge · now) hafter).trans hagain
  exact ⟨count, hanswer, hcount, fun key => (congrArg (Base.kept · key) hafter).trans (hkept key),
    (run_purge (s := { after with now }) hsecond).1⟩

/-- Of three entries one is too short for its header and one has expired. -/
theorem runAll_purged_of_truncated :
    let d : DiskStore := ⟨((Table.empty.insert ⟨"a:1"⟩ [1, 2]).insert ⟨"a:2"⟩
      (Layout.encode (some 5000) [7])).insert ⟨"a:3"⟩ (Layout.encode none [9]), {}⟩
    let s : Scene Base := { contents := .disk d, now := 0 }
    let run : List (Int64 × Action) := [(5000, .purge), (5000, .add ⟨"a:1"⟩ 0 [8]),
      (6000, .deleteMany [⟨"a:2"⟩, ⟨"a:3"⟩]), (6000, .purge)]
    d.size = 3 ∧ (Action.purge.run { s with now := 5000 }).1 = .ok (.count 2) ∧
      (runAll (unpurged run) s).1 = (runAll run s).1.filter fun r => !r.action.isPurge := by
  intro d s run
  have hunfilled {history : List Record} (h : (history.all (·.answer.isOk)) = true) :
      ∀ r ∈ history, Unfilled r.answer := fun r hr hfull => by
    have hok := List.all_eq_true.mp h r hr
    rw [hfull] at hok
    cases hok
  obtain ⟨hsame, hpurges⟩ := runAll_purged run s (.inr ⟨d, rfl⟩) (by decide) (by decide)
    (hunfilled (by decide +kernel)) (hunfilled (by decide +kernel))
  obtain ⟨count, hanswer, hcount, -⟩ := hpurges [] 5000 _ rfl
  obtain rfl : count = 2 := hcount.trans (by decide +kernel)
  exact ⟨by decide +kernel, hanswer, hsame⟩

end Rig

end CacheAside

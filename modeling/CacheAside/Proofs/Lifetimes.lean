import CacheAside.Proofs.ManyKeys
import CacheAside.Proofs.Purging

/-!
# Lifetimes on disk

What an entry on disk says of its end is in the header of its value, where zero says that there is
none. No lifetime comes to zero, so an entry that is to end has its deadline there for as long as it
is on disk, and one that is not to end is readable whatever the clock says.
-/

namespace CacheAside

theorem DiskStore.payload?_encode_eq {expiry : Option Int64} (h : expiry ≠ some 0)
    (payload : Bytes) (now : Int64) : payload? now (Layout.encode expiry payload) =
      if isLive expiry now then some payload else none := by
  rw [payload?, Layout.decode?_encode h]

namespace Rig

/-! ## Writes that go through -/

namespace Record

/-- It has written these bytes, and not failed. -/
def Writes (r : Record) (key : Key) (ttl : UInt32) (bytes : Bytes) : Prop :=
  r.answer.isOk = true ∧ r.Stores key ttl bytes

/-- It has failed, or has not settled what is under the key. -/
def Spares (r : Record) (key : Key) : Prop := r.answer.isOk = true → ¬r.Settles key

end Record

namespace Action

variable {action : Action} {s : Scene Base} {d : DiskStore} {key : Key} {ttl : UInt32}
  {bytes : Bytes}

/-- What fails on disk changes nothing there. -/
theorem contents_of_failed (hs : s.contents = .disk d) (h : (action.run s).1.isOk = false) :
    (action.run s).2.contents = s.contents := by
  obtain ⟨hanswer, hcontents⟩ := run_disk_eq hs action
  rw [hanswer] at h
  rw [hcontents, hs]
  cases haction : action.onDisk d s.now with
  | ok done =>
      rw [haction] at h
      cases h
  | error e => rfl

/-- What goes through has what it leaves on disk. -/
theorem onDisk_of_ok (hs : s.contents = .disk d) (h : (action.run s).1.isOk = true) :
    ∃ answer d', action.onDisk d s.now = .ok (answer, d') ∧ (action.run s).1 = .ok answer ∧
      (action.run s).2.contents = .disk d' := by
  cases haction : action.onDisk d s.now with
  | ok done => exact ⟨done.1, done.2, rfl, run_disk hs haction⟩
  | error e =>
      rw [(run_disk_eq hs action).1, haction] at h
      cases h

theorem onDisk_set {now : Int64} {d' : DiskStore} {answer : Answer}
    (h : (set key ttl bytes).onDisk d now = .ok (answer, d')) :
    d.put now key ttl bytes = .ok d' := by
  cases hput : d.put now key ttl bytes with
  | error e => simp [onDisk, hput, Except.map] at h
  | ok d'' =>
      obtain ⟨-, rfl⟩ : Answer.nothing = answer ∧ d'' = d' := by
        simpa [onDisk, hput, Except.map] using h
      rfl

/-- An add that goes through has added nothing, or has written as any other write. -/
theorem onDisk_add {now : Int64} {d' : DiskStore} {answer : Answer}
    (h : (add key ttl bytes).onDisk d now = .ok (answer, d')) :
    answer = .flag false ∧ d' = d ∨ answer = .flag true ∧ d.put now key ttl bytes = .ok d' := by
  rw [onDisk, DiskStore.add_eq] at h
  cases hfound : (d.lookup now key).isSome with
  | true =>
      obtain ⟨rfl, rfl⟩ : Answer.flag false = answer ∧ d = d' := by
        simpa [hfound, Except.map] using h
      exact .inl ⟨rfl, rfl⟩
  | false =>
      cases hput : d.put now key ttl bytes with
      | error e => simp [hfound, hput, Except.map] at h
      | ok d'' =>
          obtain ⟨rfl, rfl⟩ : Answer.flag true = answer ∧ d'' = d' := by
            simpa [hfound, hput, Except.map] using h
          exact .inr ⟨rfl, rfl⟩

theorem kept_of_writes (hs : s.contents = .disk d)
    (h : Record.Writes ⟨s.now, action, (action.run s).1⟩ key ttl bytes) :
    (action.run s).2.contents.kept key =
      some (.inr (Layout.encode (expiresAt ttl s.now) bytes)) := by
  obtain ⟨hok, hstores⟩ := h
  obtain ⟨answer, d', haction, hanswer, hcontents⟩ := onDisk_of_ok hs hok
  have hput : d.put s.now key ttl bytes = .ok d' := by
    rcases hstores with hset | ⟨hadd, hadded⟩
    · obtain rfl : action = .set key ttl bytes := hset
      exact onDisk_set haction
    · obtain rfl : action = .add key ttl bytes := hadd
      rcases onDisk_add haction with ⟨rfl, -⟩ | ⟨-, hput⟩
      · cases hanswer.symm.trans hadded
      · exact hput
  rw [hcontents, Base.kept, DiskStore.table_of_put hput, Table.find?_insert, if_pos rfl]
  rfl

/-- What does not settle a key leaves there what it finds, unless it is a purge and finds it
expired. -/
theorem kept_of_spares (hs : s.contents = .disk d)
    (h : Record.Spares ⟨s.now, action, (action.run s).1⟩ key) :
    (action.run s).2.contents.kept key = s.contents.kept key ∨
      (action.run s).2.contents.kept key = none ∧ s.contents.lookup s.now key = none := by
  cases hok : (action.run s).1.isOk with
  | false => exact .inl (by rw [contents_of_failed hs hok])
  | true =>
      have hunsettled := h hok
      cases action with
      | get j => exact .inl ((Base.separates_store.get j key).eq s)
      | getMany keys => exact .inl ((Base.separates_store.getMany keys key).eq s)
      | set j ttl bytes =>
          have hne : j ≠ key := fun hj => hunsettled (.inl ⟨ttl, bytes, .inl (hj ▸ rfl)⟩)
          exact .inl ((Base.separates_store.set j ttl bytes key hne).eq s)
      | add j ttl bytes =>
          by_cases hj : j = key
          · -- It has found the key occupied: it would have settled it otherwise.
            obtain ⟨answer, d', haction, hanswer, hcontents⟩ := onDisk_of_ok hs hok
            rcases onDisk_add haction with ⟨-, rfl⟩ | ⟨rfl, -⟩
            · exact .inl (by rw [hcontents, hs])
            · exact absurd (.inl ⟨ttl, bytes, .inr ⟨hj ▸ rfl, hanswer⟩⟩) hunsettled
          · exact .inl ((Base.separates_store.add j ttl bytes key hj).eq s)
      | delete j =>
          have hne : j ≠ key := fun hj => hunsettled (.inr hj)
          exact .inl ((Base.separates_store.delete j key hne).eq s)
      | deleteMany keys =>
          have hkeys : key ∉ keys := fun hkeys => hunsettled (.inr hkeys)
          have hsame : (Base.store.deleteMany keys s).2.contents.kept key =
              s.contents.kept key := by
            rcases Base.deleteMany_of_disk hs keys with ⟨t, hcall, hwithout⟩ | ⟨-, hcall⟩
            · rw [hcall, hwithout, if_neg hkeys]
            · rw [hcall]
          exact .inl hsame
      | purge =>
          have hunfilled : Unfilled (purge.run s).1 := fun hfull => by
            rw [hfull] at hok
            cases hok
          obtain ⟨count, after, hpurge⟩ := exists_purge hunfilled
          rw [(run_purge hpurge).2, (purged_of_ok hpurge).kept]
          cases hfound : s.contents.lookup s.now key with
          | none => exact .inr ⟨by simp, rfl⟩
          | some found => exact .inl (by cases s.contents.kept key <;> rfl)
      | clear => exact absurd (.inr trivial) hunsettled
      | size | isEmpty => exact .inl rfl

end Action

/-! ## Values since they were written -/

/-- The value is under the key, or a purge has found it expired at one of some times. -/
def Stays (key : Key) (raw : Bytes) (times : List Int64) (b : Base) : Prop :=
  b.kept key = some (.inr raw) ∨
    b.kept key = none ∧ ∃ t ∈ times, DiskStore.payload? t raw = none

section
variable {key : Key} {raw bytes : Bytes} {times : List Int64} {b : Base} {s : Scene Base}
  {d : DiskStore} {ttl : UInt32} {expiry : Option Int64} {now : Int64}

theorem Stays.step (h : Stays key raw times s.contents) (hs : s.contents = .disk d)
    (hnow : s.now ∈ times) {action : Action}
    (hspares : Record.Spares ⟨s.now, action, (action.run s).1⟩ key) :
    Stays key raw times (action.run s).2.contents := by
  rcases Action.kept_of_spares hs hspares with hkept | ⟨hgone, hlookup⟩
  · rwa [Stays, hkept]
  · refine .inr ⟨hgone, ?_⟩
    rcases h with hkept | ⟨-, hexpired⟩
    · rw [Base.lookup_eq_kept, hkept] at hlookup
      exact ⟨s.now, hnow, hlookup⟩
    · exact hexpired

theorem Stays.runAll : ∀ {run : List (Int64 × Action)} {s : Scene Base} {d : DiskStore},
    Stays key raw times s.contents → s.contents = .disk d → (∀ e ∈ run, e.1 ∈ times) →
    (∀ r ∈ (runAll run s).1, r.Spares key) →
    Stays key raw times (runAll run s).2.contents ∧
      ∃ d', (runAll run s).2.contents = .disk d'
  | [], _, d, h, hs, _, _ => ⟨h, d, hs⟩
  | (now, action) :: run, s, d, h, hs, htimes, hspares => by
      obtain ⟨hnow, htimes⟩ := List.forall_mem_cons.mp htimes
      obtain ⟨hfirst, hspares⟩ := List.forall_mem_cons.mp hspares
      have hstays := Stays.step (s := { s with now }) h hs hnow hfirst
      have hdisk := (Action.run_disk_eq (s := { s with now }) hs action).2
      exact Stays.runAll (s := (action.run { s with now }).2) hstays hdisk htimes hspares

theorem Base.lookup_of_kept (hne : expiry ≠ some 0)
    (h : b.kept key = some (.inr (Layout.encode expiry bytes))) (now : Int64) :
    b.lookup now key = if isLive expiry now then some bytes else none := by
  rw [lookup_eq_kept, h, Option.bind_some, readable, DiskStore.payload?_encode_eq hne]

theorem Stays.lookup_eq_some (hne : expiry ≠ some 0)
    (h : Stays key (Layout.encode expiry bytes) times b)
    (hlive : ∀ t ∈ now :: times, isLive expiry t = true) : b.lookup now key = some bytes := by
  rcases h with hkept | ⟨-, t, ht, hexpired⟩
  · rw [Base.lookup_of_kept hne hkept, if_pos (hlive now List.mem_cons_self)]
  · rw [DiskStore.payload?_encode_eq hne, if_pos (hlive t (List.mem_cons_of_mem _ ht))] at hexpired
    cases hexpired

theorem Stays.lookup_eq_none (hne : expiry ≠ some 0)
    (h : Stays key (Layout.encode expiry bytes) times b) (hdead : ¬isLive expiry now = true) :
    b.lookup now key = none := by
  rcases h with hkept | ⟨hgone, -⟩
  · rw [Base.lookup_of_kept hne hkept, if_neg hdead]
  · rw [Base.lookup_eq_kept, hgone]
    rfl

theorem Stays.decode? (hne : expiry ≠ some 0)
    (h : Stays key (Layout.encode expiry bytes) times b) (hraw : b.kept key = some (.inr raw)) :
    Layout.decode? raw = some (expiry, bytes) := by
  rcases h with hkept | ⟨hgone, -⟩
  · obtain rfl : raw = Layout.encode expiry bytes := by simpa [hkept] using hraw.symm
    exact Layout.decode?_encode hne bytes
  · rw [hgone] at hraw
    cases hraw

/-- A run that does not concern a key spares it, whatever comes of it. -/
theorem spares_of_unconcerned : ∀ {run : List (Int64 × Action)} {s : Scene Base},
    (∀ e ∈ run, ¬e.2.Concerns key) → ∀ r ∈ (runAll run s).1, r.Spares key
  | [], _, _ => fun r hr => absurd hr List.not_mem_nil
  | _ :: _, _, h => by
      obtain ⟨hfirst, hrest⟩ := List.forall_mem_cons.mp h
      exact List.forall_mem_cons.mpr
        ⟨fun _ => Record.not_settles hfirst, spares_of_unconcerned hrest⟩

/-- What has become of an entry on disk since it was written, given the times of what has been done
since. -/
structure Lasts (key : Key) (ttl : UInt32) (bytes : Bytes) (written : Int64)
    (times : List Int64) (s : Scene Base) : Prop where
  /-- Without a lifetime it is readable, whatever the clock says. -/
  unlimited : ttl = 0 → ∀ now,
    ((Action.get key).run { s with now }).1 = .ok (.bytes (some bytes))
  /-- With one it has a deadline, which its header says as long as it is there. From then on it
  cannot be read; before, it can, if nothing has been done at the deadline or later. -/
  limited : ttl ≠ 0 → ∃ deadline : Int64,
    deadline.toInt = min (written.toInt + 1000 * ttl.toNat) 0x7FFFFFFFFFFFFFFF ∧
    (∀ raw, s.contents.kept key = some (.inr raw) →
      Layout.decode? raw = some (some deadline, bytes)) ∧
    (∀ now, deadline ≤ now → ((Action.get key).run { s with now }).1 = .ok (.bytes none)) ∧
    ((∀ t ∈ times, t < deadline) → ∀ now < deadline,
      ((Action.get key).run { s with now }).1 = .ok (.bytes (some bytes)))

theorem Action.get_of_disk (hs : s.contents = .disk d) (key : Key) (now : Int64) :
    ((get key).run { s with now }).1 = .ok (.bytes (s.contents.lookup now key)) := by
  rw [(run_disk_eq (s := { s with now }) hs (get key)).1, hs]
  rfl

theorem Stays.lasts {written : Int64} (hwritten : 0 ≤ written) (hs : s.contents = .disk d)
    (h : Stays key (Layout.encode (expiresAt ttl written) bytes) times s.contents) :
    Lasts key ttl bytes written times s := by
  have hne : expiresAt ttl written ≠ some 0 := expiresAt_ne_zero hwritten
  constructor
  case unlimited =>
    intro httl now
    have hnever : expiresAt ttl written = none := by rw [httl, expiresAt_zero]
    rw [Action.get_of_disk hs, h.lookup_eq_some hne fun t _ => by rw [hnever, isLive_none]]
  case limited =>
    intro httl
    obtain ⟨deadline, hexpiry, hend⟩ := expiresAt_eq_some httl written
    have hlive : ∀ t, isLive (expiresAt ttl written) t = true ↔ t < deadline := fun t => by
      rw [hexpiry, isLive, decide_eq_true_iff]
    refine ⟨deadline, hend, fun raw hraw => hexpiry ▸ h.decode? hne hraw, fun now hnow => ?_,
      fun htimes now hnow => ?_⟩
    · have hdead : ¬isLive (expiresAt ttl written) now = true := fun hnow' =>
        Int64.not_lt.mpr hnow ((hlive now).mp hnow')
      rw [Action.get_of_disk hs, h.lookup_eq_none hne hdead]
    · have hready : ∀ t ∈ now :: times, isLive (expiresAt ttl written) t = true :=
        List.forall_mem_cons.mpr ⟨(hlive now).mpr hnow, fun t ht => (hlive t).mpr (htimes t ht)⟩
      rw [Action.get_of_disk hs, h.lookup_eq_some hne hready]

end

/-- Values on disk are written and read in one way, which leaves no room for an expiry at zero, and
none is written. So an entry that is written with a lifetime is never one without an end, and one
that is written without a lifetime never ends, whatever is done that does not settle its key. -/
theorem layout_keeps_lifetimes :
    (∀ expiry payload, expiry ≠ some 0 →
      Layout.decode? (Layout.encode expiry payload) = some (expiry, payload)) ∧
    (∀ raw : Bytes, 8 ≤ raw.length → ∃ expiry payload,
      Layout.decode? raw = some (expiry, payload) ∧ Layout.encode expiry payload = raw) ∧
    (∀ raw : Bytes, raw.length < 8 → Layout.decode? raw = none) ∧
    (∀ (expiry : Option Int64) (payload : Bytes),
      (∀ i < 8, (Layout.encode expiry payload)[i]? =
        some (UInt8.ofNat ((expiry.getD 0).toUInt64.toNat >>> (8 * i)))) ∧
      (Layout.encode expiry payload).drop 8 = payload) ∧
    (∀ (ttl : UInt32) (now : Int64), 0 ≤ now → expiresAt ttl now ≠ some 0) ∧
    ∀ (s : Scene Base) (d : DiskStore) (write : Action) (key : Key) (ttl : UInt32) (bytes : Bytes)
      (run : List (Int64 × Action)), s.contents = .disk d → 0 ≤ s.now →
      Record.Writes ⟨s.now, write, (write.run s).1⟩ key ttl bytes →
      (∀ r ∈ (runAll run (write.run s).2).1, r.Spares key) →
      Lasts key ttl bytes s.now (run.map Prod.fst) (runAll run (write.run s).2).2 := by
  refine ⟨fun expiry payload h => Layout.decode?_encode h payload, fun raw hlong => ?_,
    fun raw => Layout.decode?_eq_none_iff.mpr, fun expiry payload => ⟨fun i hi => ?_, ?_⟩,
    fun ttl now => expiresAt_ne_zero, ?_⟩
  · obtain ⟨⟨expiry, payload⟩, hdecode⟩ := Option.ne_none_iff_exists'.mp fun hnone =>
      Nat.not_lt.mpr hlong (Layout.decode?_eq_none_iff.mp hnone)
    exact ⟨expiry, payload, hdecode, Layout.encode_of_decode? hdecode⟩
  · rw [Layout.encode, List.getElem?_append_left (by rwa [Layout.length_littleEndian])]
    exact Layout.getElem?_littleEndian hi _
  · exact Layout.drop_encode expiry payload
  · intro s d write key ttl bytes run hs hnow hwrites hspares
    obtain ⟨hstays, d', hdisk⟩ := Stays.runAll (.inl (Action.kept_of_writes hs hwrites))
      (Action.run_disk_eq hs write).2
      (fun e he => List.mem_map_of_mem he) hspares
    exact hstays.lasts hnow hdisk

/-- An entry is written over a value that is too short, and then purged or not. -/
theorem layout_keeps_lifetimes_of_purged :
    let d : DiskStore := ⟨Table.empty.insert ⟨"a:1"⟩ [1, 2], {}⟩
    let s : Scene Base := { contents := .disk d, now := 0 }
    let write (ttl : UInt32) : Action := .set ⟨"a:1"⟩ ttl [7]
    let run : List (Int64 × Action) := [(500, .delete ⟨"a:2"⟩), (1000, .purge)]
    ((some (-2) : Option Int64) ≠ some 0 ∧
      Layout.decode? (Layout.encode (some (-2)) [7]) = some (some (-2), [7])) ∧
    (8 ≤ (List.replicate 9 0 : Bytes).length ∧ ∃ expiry payload,
      Layout.decode? (List.replicate 9 0) = some (expiry, payload) ∧
        Layout.encode expiry payload = List.replicate 9 0) ∧
    (([1, 2] : Bytes).length < 8 ∧ Layout.decode? [1, 2] = none) ∧
    (Layout.encode (some (-2)) [7])[1]? = some 255 ∧
    ((0 : Int64) ≤ 0 ∧ expiresAt 1 0 ≠ some 0) ∧
    ∀ ttl ∈ [0, 1],
      Record.Writes ⟨0, write ttl, ((write ttl).run s).1⟩ ⟨"a:1"⟩ ttl [7] ∧
      (∀ r ∈ (runAll run ((write ttl).run s).2).1, r.Spares ⟨"a:1"⟩) ∧
      Lasts ⟨"a:1"⟩ ttl [7] 0 [500, 1000] (runAll run ((write ttl).run s).2).2 := by
  intro d s write run
  obtain ⟨hread, hwrite, hshort, hbytes, hzero, hlasts⟩ := layout_keeps_lifetimes
  refine ⟨⟨by decide, hread _ _ (by decide)⟩, ⟨by decide, hwrite _ (by decide)⟩,
    ⟨by decide, hshort _ (by decide)⟩, ?_, ⟨by decide, hzero 1 0 (by decide)⟩, fun ttl httl => ?_⟩
  · exact ((hbytes (some (-2)) [7]).1 1 (by decide)).trans (by decide)
  · have hwrites : Record.Writes ⟨0, write ttl, ((write ttl).run s).1⟩ ⟨"a:1"⟩ ttl [7] := by
      refine ⟨?_, .inl rfl⟩
      rcases List.mem_pair.mp httl with rfl | rfl <;> decide +kernel
    have hspares : ∀ r ∈ (runAll run ((write ttl).run s).2).1, r.Spares ⟨"a:1"⟩ :=
      spares_of_unconcerned (by simp [run, Action.Concerns])
    exact ⟨hwrites, hspares,
      hlasts s d (write ttl) ⟨"a:1"⟩ ttl [7] run rfl (by decide) hwrites hspares⟩

/-- On a clock below zero an expiry may come to zero, and is then read as never. -/
example : expiresAt 1 (-1000) = some 0 ∧
    Layout.decode? (Layout.encode (some 0) [7]) = some (none, [7]) := by decide

end Rig

end CacheAside

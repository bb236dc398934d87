import CacheAside.Proofs.DiskAsMemory
import CacheAside.Proofs.Histories

/-!
# Stores that can be read alike

Two stores may hold different entries and still answer every question alike from some time on, if
they differ in what can no longer be read. Whatever is then done to both comes to the same, as long
as nobody counts the entries and the map on disk has room.
-/

namespace CacheAside

/-! ## What can be read from a time on -/

/-- What can be read from a time on is the same. -/
def AgreeFrom (since : Int64) (f g : Int64 → Key → Option Bytes) : Prop :=
  ∀ now, since ≤ now → ∀ key, f now key = g now key

namespace AgreeFrom

variable {since later now : Int64} {f g f' g' : Int64 → Key → Option Bytes}

theorem refl (f : Int64 → Key → Option Bytes) : AgreeFrom since f f := fun _ _ _ => rfl

theorem at_once (h : AgreeFrom now f g) (key : Key) : f now key = g now key :=
  h now (Int64.le_refl _) key

theorem of_le (h : AgreeFrom since f g) (hle : since ≤ later) : AgreeFrom later f g :=
  fun now hnow => h now (Int64.le_trans hle hnow)

/-- The same change on both sides. -/
theorem changed (h : AgreeFrom since f g) {p : Key → Prop} [DecidablePred p]
    {u : Int64 → Option Bytes}
    (hf : ∀ now key, f' now key = if p key then u now else f now key)
    (hg : ∀ now key, g' now key = if p key then u now else g now key) : AgreeFrom since f' g' :=
  fun now hnow key => by rw [hf, hg, h now hnow key]

end AgreeFrom

/-! ## Entries in memory -/

namespace MemoryStore

variable {m m' : MemoryStore} {now : Int64}

theorem lookup_of_find? {key : Key} {v : StoredValue} (h : m.table.find? key = some v) :
    m.lookup now key = if v.isLive now then some v.bytes else none := by
  rw [lookup, h]

theorem agree_put (h : AgreeFrom now m.lookup m'.lookup) (key : Key) (ttl : UInt32)
    (bytes : Bytes) :
    AgreeFrom now (m.put now key ttl bytes).lookup (m'.put now key ttl bytes).lookup :=
  h.changed (p := (key = ·)) (fun _ _ => lookup_put ttl bytes) fun _ _ => lookup_put ttl bytes

theorem agree_delete (h : AgreeFrom now m.lookup m'.lookup) (key : Key) :
    AgreeFrom now (m.delete now key).2.lookup (m'.delete now key).2.lookup := by
  have hdelete : ∀ (m : MemoryStore) (later : Int64) (j : Key),
      (m.delete now key).2.lookup later j = if key = j then none else m.lookup later j :=
    fun _ _ _ => lookup_delete
  exact h.changed (hdelete m) (hdelete m')

theorem agree_deleteAll (h : AgreeFrom now m.lookup m'.lookup) (keys : List Key) :
    (m.deleteAll now keys).1 = (m'.deleteAll now keys).1 ∧
      AgreeFrom now (m.deleteAll now keys).2.lookup (m'.deleteAll now keys).2.lookup := by
  induction keys generalizing m m' with
  | nil => exact ⟨rfl, h⟩
  | cons key keys ih =>
      obtain ⟨hcount, hrest⟩ := ih (agree_delete h key)
      have hremoved : (m.delete now key).1 = (m'.delete now key).1 :=
        congrArg Option.isSome (h.at_once key)
      exact ⟨by simp only [deleteAll, hremoved, hcount], hrest⟩

end MemoryStore

/-! ## Entries on disk -/

namespace DiskStore

variable {d d' : DiskStore} {now later : Int64} {key : Key}

/-! ### What a change leaves readable -/

theorem lookup_insert (raw : Bytes) (file : Pages.File) (j : Key) :
    lookup ⟨d.table.insert key raw, file⟩ later j =
      if key = j then payload? later raw else d.lookup later j := by
  rw [lookup, Table.find?_insert]
  split <;> rfl

theorem lookup_erase (file : Pages.File) (j : Key) :
    lookup ⟨d.table.erase key, file⟩ later j = if key = j then none else d.lookup later j := by
  rw [lookup, Table.find?_erase]
  split <;> rfl

theorem agree_erase (h : AgreeFrom now d.lookup d'.lookup) (key : Key) (file file' : Pages.File) :
    AgreeFrom now (lookup ⟨d.table.erase key, file⟩) (lookup ⟨d'.table.erase key, file'⟩) :=
  h.changed (p := (key = ·)) (u := fun _ => none) (fun _ _ => lookup_erase file _)
    fun _ _ => lookup_erase file' _

/-- Keys that go in one change: as many of them were readable on both sides. -/
theorem agree_without (h : AgreeFrom now d.lookup d'.lookup) (keys : List Key)
    (file file' : Pages.File) :
    (without now d.table keys).1 = (without now d'.table keys).1 ∧
      AgreeFrom now (lookup ⟨(without now d.table keys).2, file⟩)
        (lookup ⟨(without now d'.table keys).2, file'⟩) := by
  induction keys generalizing d d' with
  | nil => exact ⟨rfl, h⟩
  | cons key keys ih =>
      obtain ⟨hcount, hrest⟩ := ih (agree_erase h key d.file d'.file)
      have hfound : (d.table.find? key).bind (payload? now) =
          (d'.table.find? key).bind (payload? now) := h.at_once key
      exact ⟨by simp only [without, hcount, hfound], hrest⟩

/-! ### Changes of two stores -/

/-- Two changes that come to the same: one failure, or one answer and contents that agree from then
on. -/
inductive SameChange {α : Type} (now : Int64) :
    Except DiskError (α × DiskStore) → Except DiskError (α × DiskStore) → Prop
  | error (e : DiskError) : SameChange now (.error e) (.error e)
  | ok (answer : α) {d d' : DiskStore} (h : AgreeFrom now d.lookup d'.lookup) :
      SameChange now (.ok (answer, d)) (.ok (answer, d'))

theorem SameChange.map {α β : Type} {x y : Except DiskError (α × DiskStore)}
    (h : SameChange now x y) (form : α → β) :
    SameChange now (x.map (Prod.map form id)) (y.map (Prod.map form id)) := by
  cases h with
  | error e => exact .error e
  | ok answer h => exact .ok (form answer) h

section
variable {α : Type} (answer : α)

/-- Unless the map is full, a change of the file goes through. -/
theorem commit_same {table table' : Table Bytes} {file file' : Option Pages.File}
    (h : ∀ f f', AgreeFrom now (lookup ⟨table, f⟩) (lookup ⟨table', f'⟩))
    (hroom : (commit table file).map (answer, ·) ≠ .error full)
    (hroom' : (commit table' file').map (answer, ·) ≠ .error full) :
    SameChange now ((commit table file).map (answer, ·))
      ((commit table' file').map (answer, ·)) := by
  cases file with
  | none => exact absurd rfl hroom
  | some f =>
      cases file' with
      | none => exact absurd rfl hroom'
      | some f' => exact .ok answer (h f f')

theorem put_same (h : AgreeFrom now d.lookup d'.lookup) (key : Key) (ttl : UInt32)
    (payload : Bytes) (hroom : (d.put now key ttl payload).map (answer, ·) ≠ .error full)
    (hroom' : (d'.put now key ttl payload).map (answer, ·) ≠ .error full) :
    SameChange now ((d.put now key ttl payload).map (answer, ·))
      ((d'.put now key ttl payload).map (answer, ·)) := by
  unfold put putRaw at hroom hroom' ⊢
  by_cases hkey : key.byteSize = 0 ∨ maxKeyLength < key.byteSize
  · rw [if_pos hkey, if_pos hkey]
    exact .error invalidKey
  · rw [if_neg hkey] at hroom hroom' ⊢
    rw [if_neg hkey]
    refine commit_same answer (fun f f' => ?_) hroom hroom'
    exact h.changed (p := (key = ·)) (fun _ _ => lookup_insert _ f _)
      fun _ _ => lookup_insert _ f' _

end

theorem add_eq (d : DiskStore) (now : Int64) (key : Key) (ttl : UInt32) (payload : Bytes) :
    d.add now key ttl payload = if (d.lookup now key).isSome then .ok (false, d)
      else (d.put now key ttl payload).map (true, ·) := by
  unfold add
  cases d.put now key ttl payload <;> rfl

theorem delete_eq (d : DiskStore) (now : Int64) (key : Key) : d.delete now key =
    (commit (d.table.erase key) (d.file.eraseAll? [key])).map ((d.lookup now key).isSome, ·) := by
  unfold delete
  cases commit (d.table.erase key) (d.file.eraseAll? [key]) <;> rfl

theorem deleteMany_eq (d : DiskStore) (now : Int64) (keys : List Key) : d.deleteMany now keys =
    (commit (without now d.table keys).2 (d.file.eraseAll? keys)).map
      ((without now d.table keys).1, ·) := by
  simp only [deleteMany]
  cases commit (without now d.table keys).2 (d.file.eraseAll? keys) <;> rfl

theorem add_same (h : AgreeFrom now d.lookup d'.lookup) (key : Key) (ttl : UInt32) (payload : Bytes)
    (hroom : d.add now key ttl payload ≠ .error full)
    (hroom' : d'.add now key ttl payload ≠ .error full) :
    SameChange now (d.add now key ttl payload) (d'.add now key ttl payload) := by
  rw [add_eq] at hroom hroom' ⊢
  rw [add_eq, ← h.at_once key]
  rw [← h.at_once key] at hroom'
  split
  · exact .ok false h
  · rename_i hfound
    rw [if_neg hfound] at hroom hroom'
    exact put_same true h key ttl payload hroom hroom'

end DiskStore

namespace Rig

namespace Action

/-- Whether the answer of an action depends on how much is stored. -/
def counts : Action → Bool
  | size | isEmpty => true
  | _ => false

def isPurge : Action → Bool
  | purge => true
  | _ => false

theorem onMemory_of_agree {m m' : MemoryStore} {now : Int64}
    (h : AgreeFrom now m.lookup m'.lookup) {action : Action} (hcounts : action.counts = false)
    (hpurge : action.isPurge = false) :
    (action.onMemory m now).1 = (action.onMemory m' now).1 ∧
      AgreeFrom now (action.onMemory m now).2.lookup (action.onMemory m' now).2.lookup := by
  cases action with
  | get key => exact ⟨congrArg Answer.bytes (h.at_once key), h⟩
  | getMany keys =>
      exact ⟨congrArg (fun f => Answer.table (Table.ofKeys f keys)) (funext h.at_once), h⟩
  | set key ttl bytes => exact ⟨rfl, MemoryStore.agree_put h key ttl bytes⟩
  | add key ttl bytes =>
      simp only [onMemory, MemoryStore.add, h.at_once key]
      split
      · exact ⟨rfl, h⟩
      · exact ⟨rfl, MemoryStore.agree_put h key ttl bytes⟩
  | delete key =>
      exact ⟨congrArg (fun found => Answer.flag (Option.isSome found)) (h.at_once key),
        MemoryStore.agree_delete h key⟩
  | deleteMany keys =>
      obtain ⟨hcount, hrest⟩ := MemoryStore.agree_deleteAll h keys
      exact ⟨congrArg Answer.count hcount, hrest⟩
  | clear => exact ⟨rfl, .refl _⟩
  | purge => cases hpurge
  | size | isEmpty => cases hcounts

theorem onDisk_of_agree {d d' : DiskStore} {now : Int64} (h : AgreeFrom now d.lookup d'.lookup)
    {action : Action} (hcounts : action.counts = false) (hpurge : action.isPurge = false)
    (hroom : action.onDisk d now ≠ .error DiskStore.full)
    (hroom' : action.onDisk d' now ≠ .error DiskStore.full) :
    DiskStore.SameChange now (action.onDisk d now) (action.onDisk d' now) := by
  have hfull {α : Type} {x : Except DiskError (α × DiskStore)} {form : α → Answer}
      (hx : x.map (Prod.map form id) ≠ .error DiskStore.full) : x ≠ .error DiskStore.full :=
    fun hfull => hx (by rw [hfull]; rfl)
  cases action with
  | get key =>
      simp only [onDisk, h.at_once key]
      exact .ok _ h
  | getMany keys =>
      simp only [onDisk, DiskStore.lookupMany, funext h.at_once]
      exact .ok _ h
  | set key ttl bytes =>
      exact (DiskStore.put_same () h key ttl bytes (hfull hroom) (hfull hroom')).map _
  | add key ttl bytes =>
      exact (DiskStore.add_same h key ttl bytes (hfull hroom) (hfull hroom')).map _
  | delete key =>
      simp only [onDisk, DiskStore.delete_eq, h.at_once key] at hroom hroom' ⊢
      exact (DiskStore.commit_same _ (DiskStore.agree_erase h key) (hfull hroom)
        (hfull hroom')).map _
  | deleteMany keys =>
      have hcount := (DiskStore.agree_without h keys d.file d'.file).1
      simp only [onDisk, DiskStore.deleteMany_eq, hcount] at hroom hroom' ⊢
      exact (DiskStore.commit_same _ (fun f f' => (DiskStore.agree_without h keys f f').2)
        (hfull hroom) (hfull hroom')).map _
  | clear => exact .ok _ h
  | purge => cases hpurge
  | size | isEmpty => cases hcounts

end Action

/-! ## Two stores -/

/-- Contents of one kind that can be read alike from a time on. -/
inductive Base.Alike (since : Int64) : Base → Base → Prop
  | memory {m m' : MemoryStore} (h : AgreeFrom since m.lookup m'.lookup) :
      Alike since (.memory m) (.memory m')
  | disk {d d' : DiskStore} (h : AgreeFrom since d.lookup d'.lookup) :
      Alike since (.disk d) (.disk d')

/-- An action that has not met a full map. -/
def Unfilled (answer : Except StoreError Answer) : Prop :=
  answer ≠ .error DiskStore.full.toStoreError

theorem Unfilled.onDisk {action : Action} {s : Scene Base} {d : DiskStore}
    (h : Unfilled (action.run s).1) (hs : s.contents = .disk d) :
    action.onDisk d s.now ≠ .error DiskStore.full :=
  fun hfull => h ((Action.run_disk_eq hs action).1.trans (by rw [hfull]; rfl))

/-- What is done to two stores that can be read alike comes to the same. -/
theorem Base.Alike.run {s t : Scene Base} (h : Base.Alike s.now s.contents t.contents)
    (hnow : t.now = s.now) {action : Action} (hcounts : action.counts = false)
    (hpurge : action.isPurge = false) (hs : Unfilled (action.run s).1)
    (ht : Unfilled (action.run t).1) :
    (action.run s).1 = (action.run t).1 ∧
      Base.Alike s.now (action.run s).2.contents (action.run t).2.contents := by
  obtain ⟨contents, now, patience, events⟩ := s
  obtain ⟨contents', now', patience', events'⟩ := t
  obtain rfl : now = now' := hnow.symm
  cases h with
  | memory h =>
      obtain ⟨hanswer, hafter⟩ := Action.onMemory_of_agree h hcounts hpurge
      rw [Action.run_memory rfl, Action.run_memory rfl]
      exact ⟨congrArg Except.ok hanswer, .memory hafter⟩
  | @disk d d' h =>
      have hchange := Action.onDisk_of_agree h hcounts hpurge (hs.onDisk rfl) (ht.onDisk rfl)
      obtain ⟨hanswer, hafter⟩ := Action.run_disk_eq
        (s := ⟨.disk d, now, patience, events⟩) rfl action
      obtain ⟨hanswer', hafter'⟩ := Action.run_disk_eq
        (s := ⟨.disk d', now, patience', events'⟩) rfl action
      rw [hanswer, hanswer', hafter, hafter']
      generalize action.onDisk d now = x at hchange
      generalize action.onDisk d' now = y at hchange
      cases hchange with
      | error e => exact ⟨rfl, .disk h⟩
      | ok answer hagree => exact ⟨rfl, .disk hagree⟩

end Rig

end CacheAside

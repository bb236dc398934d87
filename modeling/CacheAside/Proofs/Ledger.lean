import CacheAside.Proofs.Encodings
import CacheAside.Proofs.Removal
import CacheAside.Proofs.Uniform

/-!
# The ledger

A layer outside all others that books each store call: whether it has failed, and whether a live
entry is gone with it. Step by step the statistics and the warnings agree with these books, with what
data sources tally, and with the bytes that have been met and hold no entry.
-/

namespace CacheAside

open Rig

/-! ## Stores in memory -/

/-- Whether a live entry is under a key. -/
def Scene.isLive (s : Scene Base) (key : Key) : Bool := (s.contents.lookup s.now key).isSome

namespace Rig.Base

variable {α : Type} {b : Base} {call : Call Base α} {erase : Call Base Bool} {key : Key}
  {L : List Event → List Event → Prop}

/-- Entries in memory, with a record or without. -/
def InMemory : Base → Prop
  | memory _ | recording _ => True
  | disk _ => False

/-- A call on entries in memory that reports nothing. -/
def Silent (call : Call Base α) : Prop :=
  ∀ s, s.contents.InMemory → (call s).2.contents.InMemory ∧ (call s).2.events = s.events

/-- What a delete answers, if there was a live entry before or not, and there is behind it. -/
def Tells (before behind : Bool) : Except StoreError Bool → Prop
  | .ok removed => removed = before ∧ behind = false
  | .error _ => behind = before

/-- A delete of entries in memory that says whether a live one is gone. -/
def Erases (key : Key) (erase : Call Base Bool) : Prop :=
  ∀ s, s.contents.InMemory → Tells (s.isLive key) ((erase s).2.isLive key) (erase s).1

/-- Contents in memory that match. -/
def MatchesInMemory (b b' : Base) : Prop := b.Matches (fun _ => True) b' ∧ b.InMemory

theorem even_through_inMemory (call : {σ : Type} → Store σ → Call σ α)
    (hmemory : Store.Even (MemoryStore.Matches fun _ => True) L (call Store.memory))
    (hrecording : Store.Even (Store.RecordingMatch fun _ => True) L (call Store.recording)) :
    Store.Even MatchesInMemory L (through call) := by
  rintro ⟨contents, now, patience, events⟩ ⟨contents', now', patience', events'⟩ hst
  have hcontents := hst.contents
  match contents, contents', hcontents with
  | memory m, memory m', hm =>
      obtain ⟨answer, s', t', hs', ht', hmatches⟩ :=
        (hmemory _ _ (hst.withContents hm.1)).exists_eq
      simp only [through, hs', ht']
      exact ⟨rfl, hmatches.withContents ⟨hmatches.contents, trivial⟩⟩
  | recording r, recording r', hr =>
      obtain ⟨answer, s', t', hs', ht', hmatches⟩ :=
        (hrecording _ _ (hst.withContents hr.1)).exists_eq
      simp only [through, hs', ht']
      exact ⟨rfl, hmatches.withContents ⟨hmatches.contents, trivial⟩⟩
  | disk d, _, hd => exact hd.2.elim

theorem uniform_inMemory : store.Uniform (fun _ => True) MatchesInMemory L where
  get key hkey := even_through_inMemory (·.get key) (Store.uniform_memory.get key hkey)
    (Store.uniform_recording.get key hkey)
  getMany keys hkeys := even_through_inMemory (·.getMany keys)
    (Store.uniform_memory.getMany keys hkeys) (Store.uniform_recording.getMany keys hkeys)
  set key ttl bytes hkey := even_through_inMemory (·.set key ttl bytes)
    (Store.uniform_memory.set key ttl bytes hkey) (Store.uniform_recording.set key ttl bytes hkey)
  add key ttl bytes hkey := even_through_inMemory (·.add key ttl bytes)
    (Store.uniform_memory.add key ttl bytes hkey) (Store.uniform_recording.add key ttl bytes hkey)
  delete key hkey := even_through_inMemory (·.delete key) (Store.uniform_memory.delete key hkey)
    (Store.uniform_recording.delete key hkey)

theorem silent_of_even (h : ∀ L, Store.Even MatchesInMemory L call) : Silent call := by
  intro s hs
  have hself : s.contents.Matches (fun _ => True) s.contents := by
    match s.contents, hs with
    | memory m, _ => exact fun _ _ => rfl
    | recording r, _ => exact ⟨fun _ _ => rfl, rfl, rfl⟩
  have hstep := h (fun es _ => es = s.events) s s ⟨⟨hself, hs⟩, rfl, rfl, rfl⟩
  exact ⟨hstep.states.contents.2, hstep.states.events⟩

theorem Removes.erases (h : Removes key erase) : Erases key erase := by
  intro s _
  have hlookup := (h s).lookup key
  unfold Tells
  split
  · rename_i removed hanswer
    rw [hanswer, if_pos ⟨rfl, rfl⟩] at hlookup
    exact ⟨(h s).told removed hanswer, congrArg Option.isSome hlookup⟩
  · rename_i e hanswer
    rw [hanswer, if_neg fun h => Option.some_ne_none e h.2] at hlookup
    exact congrArg Option.isSome hlookup

end Rig.Base

/-! ## Books -/

/-- A store call that has been made, and what has become of it. -/
structure Posting where
  call : StoreCall
  failed : Bool
  /-- Whether a live entry is gone with it. -/
  removed : Bool
  deriving DecidableEq

namespace Posting

def isFailedRead (p : Posting) : Bool :=
  p.failed && match p.call with
    | .get _ | .getMany _ => true
    | _ => false

def isFailedWrite (p : Posting) : Bool := p.failed && p.call.isWrite

/-- A write that the store has taken, and be it that the key was not free. -/
def isAcceptedWrite (p : Posting) : Bool := !p.failed && p.call.isWrite

def isFailedDelete (p : Posting) : Bool :=
  p.failed && match p.call with
    | .delete _ => true
    | _ => false

end Posting

/-- Contents with the store calls so far. -/
structure Ledgered where
  contents : Base
  ledger : List Posting := []

/-- Whether a live entry is gone with a store call, a delete. -/
def StoreCall.removes (call : StoreCall) (before behind : Scene Base) : Bool :=
  match call with
  | .delete key => before.isLive key && !behind.isLive key
  | .get _ | .getMany _ | .set .. | .add .. => false

namespace Store

variable {α : Type}

/-- A call that is booked. -/
def booking (call : StoreCall) (made : Call Base α) : Call Ledgered α := fun s =>
  let before := s.withContents s.contents.contents
  let (answer, behind) := made before
  (answer, behind.withContents
    ⟨behind.contents, s.contents.ledger ++ [⟨call, !answer.isOk, call.removes before behind⟩]⟩)

def ledgered (store : Store Base) : Store Ledgered where
  get key := booking (.get key) (store.get key)
  getMany keys := booking (.getMany keys) (store.getMany keys)
  set key ttl bytes := booking (.set key ttl) (store.set key ttl bytes)
  add key ttl bytes := booking (.add key ttl) (store.add key ttl bytes)
  delete key := booking (.delete key) (store.delete key)
  deleteMany keys := deleteEach (fun key => booking (.delete key) (store.delete key)) keys 0

end Store

/-- What is known of a session: its store calls, its log and its statistics. -/
structure Books where
  ledger : List Posting := []
  log : List Event := []
  stats : Stats := 0

/-- A counter shows a number, as long as that is below 2^64. -/
def Shows (counter : UInt64) (n : Nat) : Prop := n < UInt64.size → counter.toNat = n

theorem Shows.add {a b : UInt64} {m n : Nat} (h : Shows a m) (h' : Shows b n) :
    Shows (a + b) (m + n) := by
  intro hlt
  rw [UInt64.toNat_add, h (by omega), h' (by omega)]
  exact Nat.mod_eq_of_lt hlt

theorem shows_ofNat (n : Nat) : Shows (.ofNat n) n := fun hlt => UInt64.toNat_ofNat_of_lt hlt

namespace Books

instance : Append Books where
  append b b' := ⟨b.ledger ++ b'.ledger, b.log ++ b'.log, b.stats + b'.stats⟩

/-- Failed writes and deletes, and the values that cannot be encoded. -/
def failures (b : Books) (unencoded : Nat) : Nat :=
  b.ledger.countP Posting.isFailedWrite + b.ledger.countP Posting.isFailedDelete + unencoded

/-- The statistics, but for hits and misses, and the warnings agree with the store calls and the
numbers of values that cannot be encoded and of bytes that cannot be decoded. -/
structure Balanced (b : Books) (unencoded undecodable : Nat) : Prop where
  storeErrors : Shows b.stats.storeErrors (b.ledger.countP Posting.isFailedRead)
  writes : Shows b.stats.writes (b.ledger.countP Posting.isAcceptedWrite)
  writeFailures : Shows b.stats.writeFailures (b.failures unencoded)
  invalidations : Shows b.stats.invalidations (b.ledger.countP Posting.removed)
  warnings : b.log.countP Event.isWarning = b.ledger.countP Posting.isFailedRead +
    b.failures unencoded + undecodable

/-- What the statistics have to be, but for hits and misses. -/
def due (b : Books) (unencoded : Nat) : Stats where
  storeErrors := .ofNat (b.ledger.countP Posting.isFailedRead)
  writes := .ofNat (b.ledger.countP Posting.isAcceptedWrite)
  writeFailures := .ofNat (b.failures unencoded)
  invalidations := .ofNat (b.ledger.countP Posting.removed)

variable {b b' : Books} {k l m n : Nat}

theorem Balanced.of_due (h : { b.stats with hits := 0, misses := 0 } = b.due n)
    (hwarnings : b.log.countP Event.isWarning = b.ledger.countP Posting.isFailedRead +
      b.failures n + k) : b.Balanced n k where
  storeErrors := (congrArg Stats.storeErrors h :) ▸ shows_ofNat _
  writes := (congrArg Stats.writes h :) ▸ shows_ofNat _
  writeFailures := (congrArg Stats.writeFailures h :) ▸ shows_ofNat _
  invalidations := (congrArg Stats.invalidations h :) ▸ shows_ofNat _
  warnings := hwarnings

theorem failures_append (b b' : Books) (m n : Nat) :
    (b ++ b').failures (m + n) = b.failures m + b'.failures n := by
  have hledger : (b ++ b').ledger = b.ledger ++ b'.ledger := rfl
  simp only [failures, hledger, List.countP_append]
  omega

theorem Balanced.append (h : b.Balanced m k) (h' : b'.Balanced n l) :
    (b ++ b').Balanced (m + n) (k + l) := by
  have hledger : (b ++ b').ledger = b.ledger ++ b'.ledger := rfl
  have hlog : (b ++ b').log = b.log ++ b'.log := rfl
  constructor
  · rw [hledger, List.countP_append]
    exact h.storeErrors.add h'.storeErrors
  · rw [hledger, List.countP_append]
    exact h.writes.add h'.writes
  · rw [failures_append]
    exact h.writeFailures.add h'.writeFailures
  · rw [hledger, List.countP_append]
    exact h.invalidations.add h'.invalidations
  · have hwarnings := h.warnings
    have hwarnings' := h'.warnings
    simp only [hledger, hlog, List.countP_append, failures_append]
    omega

theorem append_def (b b' : Books) :
    b ++ b' = ⟨b.ledger ++ b'.ledger, b.log ++ b'.log, b.stats + b'.stats⟩ := rfl

end Books

/-! ## Steps -/

/-- A store that reports nothing and says of a delete whether a live entry is gone. -/
structure Store.Accountable (store : Store Base) : Prop where
  get (key : Key) : Base.Silent (store.get key)
  getMany (keys : List Key) : Base.Silent (store.getMany keys)
  set (key : Key) (ttl : UInt32) (bytes : Bytes) : Base.Silent (store.set key ttl bytes)
  add (key : Key) (ttl : UInt32) (bytes : Bytes) : Base.Silent (store.add key ttl bytes)
  delete (key : Key) : Base.Silent (store.delete key)
  erases (key : Key) : Base.Erases key (store.delete key)

theorem Rig.Layers.accountable_outer (l : Layers) : l.outer.Accountable where
  get key := Base.silent_of_even fun _ => (l.uniform_outer_of Base.uniform_inMemory).get key trivial
  getMany keys := Base.silent_of_even fun _ =>
    (l.uniform_outer_of Base.uniform_inMemory).getMany keys fun _ _ => trivial
  set key ttl bytes := Base.silent_of_even fun _ =>
    (l.uniform_outer_of Base.uniform_inMemory).set key ttl bytes trivial
  add key ttl bytes := Base.silent_of_even fun _ =>
    (l.uniform_outer_of Base.uniform_inMemory).add key ttl bytes trivial
  delete key := Base.silent_of_even fun _ =>
    (l.uniform_outer_of Base.uniform_inMemory).delete key trivial
  erases key := (l.removes_outer key).erases

namespace World

variable {υ α : Type} {v w : World Ledgered υ}

def books (w : World Ledgered υ) : Books := ⟨w.scene.contents.ledger, w.scene.events, w.stats⟩

/-- From one world to another there is that much more in the books. The entries are in memory, and
outside nothing has changed. -/
structure Enters (w : World Ledgered υ) (b : Books) (v : World Ledgered υ) : Prop where
  books : v.books = w.books ++ b
  inMemory : v.scene.contents.contents.InMemory
  outside : v.outside = w.outside

theorem books_log {b : Books} (h : v.books = w.books ++ b) (e : Event) :
    (v.log e).books = w.books ++ { b with log := b.log ++ [e] } := by
  have hlog : (v.log e).books = { v.books with log := v.books.log ++ [e] } := rfl
  rw [hlog, h]
  simp [Books.append_def]

theorem books_count {b : Books} (h : v.books = w.books ++ b) {change : Stats → Stats}
    (hchange : Stats.IsCharge change) :
    (v.count change).books = w.books ++ { b with stats := change b.stats } := by
  have hcount : (v.count change).books = { v.books with stats := change v.books.stats } := rfl
  rw [hcount, h]
  simp only [Books.append_def]
  rw [hchange, hchange b.stats, add_assoc]

theorem Enters.log {b : Books} (h : w.Enters b v) (e : Event) :
    w.Enters { b with log := b.log ++ [e] } (v.log e) :=
  ⟨books_log h.books e, h.inMemory, h.outside⟩

theorem Enters.count {b : Books} (h : w.Enters b v) {change : Stats → Stats}
    (hchange : Stats.IsCharge change) :
    w.Enters { b with stats := change b.stats } (v.count change) :=
  ⟨books_count h.books hchange, h.inMemory, h.outside⟩

/-- The scene below the books. -/
def below (w : World Ledgered υ) : Scene Base := w.scene.withContents w.scene.contents.contents

/-- A call that reports nothing is one more in the books. -/
theorem books_call {made : Call Base α} {call : StoreCall} {answer : Except StoreError α}
    (hcall : w.call (Store.booking call made) = (answer, v))
    (hevents : (made w.below).2.events = w.scene.events) :
    v.books = w.books ++ { ledger := [⟨call, !answer.isOk, call.removes w.below v.below⟩] } := by
  have hanswer : (made w.below).1 = answer := congrArg Prod.fst hcall
  have hbelow : (made w.below).2 = v.below := congrArg (fun r => r.2.below) hcall
  have hbooks : ⟨w.scene.contents.ledger ++ [⟨call, !(made w.below).1.isOk,
      call.removes w.below (made w.below).2⟩], (made w.below).2.events, w.stats⟩ = v.books :=
    congrArg (fun r => r.2.books) hcall
  rw [hevents, hanswer, hbelow] at hbooks
  rw [← hbooks]
  simp [Books.append_def, books]

end World

/-- The books agree with what has been tallied, but for so many values that are still to be encoded
and cannot be, and with so many bytes met that cannot be decoded. The entries are in memory. -/
structure World.InOrder {υ : Type} (met owed : Nat) (w : World Ledgered (υ × Nat)) : Prop where
  balanced : ∃ n, n + owed = w.outside.2 ∧ w.books.Balanced n met
  inMemory : w.scene.contents.contents.InMemory

namespace World.InOrder

section
variable {υ α : Type} {v w : World Ledgered (υ × Nat)} {k m n met : Nat} {b : Books}

theorem refl (h : w.InOrder met n) : w.Enters {} w :=
  ⟨by simp [Books.append_def, books], h.inMemory, rfl⟩

theorem of_enters (h : w.InOrder met (n + m)) (hv : w.Enters b v) (hb : b.Balanced m k) :
    v.InOrder (met + k) n := by
  obtain ⟨settled, hsettled, hbalanced⟩ := h.balanced
  refine ⟨⟨settled + m, ?_, hv.books ▸ hbalanced.append hb⟩, hv.inMemory⟩
  rw [hv.outside, ← hsettled]
  omega

/-- An entry about no value settles nothing. -/
theorem enter (h : w.InOrder met n) (hv : w.Enters b v) (hb : b.Balanced 0 0) : v.InOrder met n :=
  h.of_enters (m := 0) hv hb

theorem call (h : w.InOrder met n) {made : Call Base α} (hmade : Base.Silent made)
    {call : StoreCall} {answer : Except StoreError α}
    (hcall : w.call (Store.booking call made) = (answer, v)) :
    w.Enters { ledger := [⟨call, !answer.isOk, call.removes w.below v.below⟩] } v := by
  obtain ⟨hmemory, hevents⟩ := hmade w.below h.inMemory
  have hbelow : (made w.below).2 = v.below := congrArg (fun r => r.2.below) hcall
  have houtside : w.outside = v.outside := congrArg (fun r => r.2.outside) hcall
  rw [hbelow] at hmemory
  exact ⟨books_call hcall hevents, hmemory, houtside.symm⟩

end

variable {υ : Type} {κ τ : Kind} {c : Cache Ledgered} {o : Options} {store : Store Base}
  {w : World Ledgered (υ × Nat)} {n met : Nat} {v : Option τ}

/-- To encode a value settles it. -/
theorem encode (h : w.InOrder met (n + c.unencoded [v])) (key : Key) :
    (c.encode key v w).2.InOrder met n := by
  unfold Cache.encode
  cases hencode : c.codec.encodeOption v with
  | ok bytes =>
      rw [c.unencoded_of_ok hencode] at h
      exact h
  | error e =>
      rw [c.unencoded_of_error hencode] at h
      exact h.of_enters (k := 0)
        ((h.refl.log (.unencodable key e)).count Stats.isCharge_addWriteFailure) (.of_due rfl rfl)

theorem decode (h : w.InOrder met n) (key : Key) (bytes : Bytes) :
    (c.decode τ key bytes w).2.InOrder (met + c.undecodable τ [bytes]) n := by
  unfold Cache.decode Cache.undecodable
  rw [List.countP_singleton, Cache.entryIn?]
  cases c.codec.decode τ bytes with
  | ok entry => exact h
  | error e => exact h.of_enters (m := 0) (h.refl.log (.undecodable key)) (.of_due rfl rfl)

theorem absorb (h : w.InOrder met n) (found : List (Key × Bytes)) (b : Batch κ τ) :
    (c.absorb found b w).2.InOrder
      (met + c.undecodable τ ((found.filter fun e => b.owns e.1).map (·.2))) n := by
  induction found generalizing b w met with
  | nil => exact h
  | cons e found ih =>
      obtain ⟨key, bytes⟩ := e
      rw [Cache.absorb]
      split
      · rename_i howns
        have hdecode := h.decode (c := c) (τ := τ) key bytes
        rw [List.filter_cons, if_pos howns, List.map_cons, Cache.undecodable_cons, ← Nat.add_assoc]
        rcases hdecoded : c.decode τ key bytes w with ⟨entry, w'⟩
        rw [hdecoded] at hdecode
        cases entry with
        | some entry => simpa using ih hdecode (b.resolve key entry)
        | none => simpa using ih hdecode (b.markUnreadable key)
      · rename_i howns
        rw [List.filter_cons, if_neg howns]
        exact ih h b

theorem note (h : w.InOrder met n) {e : Event} (he : e.isWarning = false) :
    (w.log e).InOrder met n := by
  refine h.enter (h.refl.log e) ?_
  cases e with
  | hit | bypassed | nullSkipped | unmatchedResult | noExecutor | purged => exact .of_due rfl rfl
  | undecodable | getFailed | bulkGetFailed | unencodable | setFailed | addFailed | deleteFailed
  | truncated => cases he

theorem addHits (h : w.InOrder met n) (hits : Nat) : (w.count (Stats.addHits hits)).InOrder met n :=
  h.enter (h.refl.count (Stats.isCharge_addHits hits)) (.of_due rfl rfl)

theorem addMisses (h : w.InOrder met n) (misses : Nat) :
    (w.count (Stats.addMisses misses)).InOrder met n :=
  h.enter (h.refl.count (Stats.isCharge_addMisses misses)) (.of_due rfl rfl)

/-! ## Store calls -/

section
variable (hstore : store.Accountable)
include hstore

theorem applyWrite (h : w.InOrder met n) (ttl : UInt32) (p : PendingWrite) :
    (Cache.applyWrite store.ledgered ttl w p).InOrder met n := by
  obtain ⟨key, bytes, mode⟩ := p
  cases mode with
  | overwrite =>
      rcases hset : store.ledgered.set key ttl bytes w.scene with ⟨answer, scene⟩
      have hmade : w.call (store.ledgered.set key ttl bytes) = (answer, { w with scene }) := by
        rw [World.call, hset]
      have hcall := h.call (hstore.set key ttl bytes) hmade
      simp only [Cache.applyWrite, Store.setSilently, hset]
      cases answer with
      | ok u => exact h.enter (hcall.count Stats.isCharge_addWrite) (.of_due rfl rfl)
      | error e =>
          exact h.enter ((hcall.log _).count Stats.isCharge_addWriteFailure) (.of_due rfl rfl)
  | ifAbsent =>
      rcases hadd : w.call (store.ledgered.add key ttl bytes) with ⟨answer, w'⟩
      have hcall := h.call (hstore.add key ttl bytes) hadd
      simp only [Cache.applyWrite, hadd]
      cases answer with
      | ok added => exact h.enter (hcall.count Stats.isCharge_addWrite) (.of_due rfl rfl)
      | error e =>
          exact h.enter ((hcall.log _).count Stats.isCharge_addWriteFailure) (.of_due rfl rfl)

theorem deleteOne (h : w.InOrder met n) (hc : c.store = store.ledgered) (key : Key) :
    (c.deleteOne key w).2.InOrder met n := by
  rcases hdelete : w.call (store.ledgered.delete key) with ⟨answer, w'⟩
  have hcall := h.call (hstore.delete key) hdelete
  have htells := hstore.erases key w.below h.inMemory
  have hanswer : (store.delete key w.below).1 = answer := congrArg Prod.fst hdelete
  have hbelow : (store.delete key w.below).2 = w'.below := congrArg (fun r => r.2.below) hdelete
  rw [hanswer, hbelow] at htells
  have hremoves : StoreCall.removes (.delete key) w.below w'.below =
      (w.below.isLive key && !w'.below.isLive key) := rfl
  simp only [Cache.deleteOne, hc, hdelete]
  rcases answer with e | _ | _
  · have hleft : w'.below.isLive key = w.below.isLive key := htells
    rw [hremoves, hleft, Bool.and_not_self] at hcall
    exact h.enter ((hcall.log _).count Stats.isCharge_addWriteFailure) (.of_due rfl rfl)
  · rw [hremoves, ← htells.1] at hcall
    exact h.enter hcall (.of_due rfl rfl)
  · rw [hremoves, ← htells.1, htells.2] at hcall
    exact h.enter (hcall.count Stats.isCharge_addInvalidation) (.of_due rfl rfl)

theorem lookup (h : w.InOrder met n) (hc : c.store = store.ledgered) (key : Key) :
    (c.lookup o τ key w).2.InOrder
      (met + c.undecodable τ (c.answerOne o key w.scene).toList) n := by
  unfold Cache.lookup Cache.answerOne
  split
  · exact h
  have hanswer : (w.call (store.ledgered.get key)).1 = (store.ledgered.get key w.scene).1 := rfl
  rcases hget : w.call (store.ledgered.get key) with ⟨answer, w'⟩
  have hcall := h.call (hstore.get key) hget
  rw [hget] at hanswer
  rw [hc, hget, ← hanswer]
  match answer with
  | .error e =>
      exact h.enter ((hcall.log _).count Stats.isCharge_addStoreError) (.of_due rfl rfl)
  | .ok none => exact h.enter hcall (.of_due rfl rfl)
  | .ok (some bytes) =>
      have hasked : w'.InOrder met n := h.enter hcall (.of_due rfl rfl)
      have hdecode := hasked.decode (c := c) (τ := τ) key bytes
      rcases hdecoded : c.decode τ key bytes w' with ⟨entry, w''⟩
      rw [hdecoded] at hdecode
      simp only [hdecoded]
      cases entry with
      | none => exact hdecode
      | some entry => exact (hdecode.note (e := .hit key entry.isNull) rfl).addHits 1

theorem fetch (h : w.InOrder met n) (hc : c.store = store.ledgered) (b : Batch κ τ) :
    (c.fetch o b w).2.InOrder (met + c.undecodable τ (b.distinctKeys.filterMap fun key =>
      (c.bulkAnswer o b.distinctKeys w.scene).bind (·.find? key))) n := by
  unfold Cache.fetch Cache.bulkAnswer
  split
  · simpa [Cache.undecodable] using h.note (e := .bypassed o.keyspace) rfl
  have hanswer : (w.call (store.ledgered.getMany b.distinctKeys)).1 =
      (store.ledgered.getMany b.distinctKeys w.scene).1 := rfl
  rcases hget : w.call (store.ledgered.getMany b.distinctKeys) with ⟨answer, w'⟩
  have hcall := h.call (hstore.getMany b.distinctKeys) hget
  rw [hget] at hanswer
  rw [hc, hget, ← hanswer]
  cases answer with
  | error e =>
      have hfailed := (hcall.log (.bulkGetFailed o.keyspace b.distinctKeys.length e)).count
        Stats.isCharge_addStoreError
      simpa [Except.toOption, Cache.undecodable] using h.enter hfailed (.of_due rfl rfl)
  | ok found =>
      have hasked : w'.InOrder met n := h.enter hcall (.of_due rfl rfl)
      have habsorb := hasked.absorb (c := c) found.entries b
      have howns : (fun e : Key × Bytes => b.owns e.1) =
          fun e => decide (e.1 ∈ b.distinctKeys) := funext fun e => b.owns_eq e.1
      rw [howns, Cache.undecodable,
        (perm_filterMap_find? found b.nodup_distinctKeys).countP_eq] at habsorb
      exact habsorb

theorem runJob (h : w.InOrder met n) (job : Job) :
    (Cache.runJob store.ledgered w job).InOrder met n :=
  List.foldlRecOn (motive := World.InOrder met n) _ _ h fun _ h p _ => h.applyWrite hstore job.ttl p

theorem drain (h : w.InOrder met n) : (Cache.drain store.ledgered w).InOrder met n :=
  List.foldlRecOn (motive := World.InOrder met n) _ _ ⟨h.balanced, h.inMemory⟩
    fun _ h job _ => h.runJob hstore job

theorem writeBack (h : w.InOrder met n) (hc : c.store = store.ledgered)
    (writes : List PendingWrite) : (c.writeBack o writes w).InOrder met n := by
  unfold Cache.writeBack
  split
  · exact h
  rw [hc]
  cases o.writeBack with
  | inline => exact h.runJob hstore _
  | detached =>
      simp only
      split
      · exact ⟨h.balanced, h.inMemory⟩
      · exact (h.note (e := .noExecutor) rfl).runJob hstore _

end

end World.InOrder

end CacheAside

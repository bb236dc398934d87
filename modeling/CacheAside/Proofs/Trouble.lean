import CacheAside.Proofs.Honest

/-!
# Stores in trouble

A store whose calls go wrong as they please: one never arrives, of another only the answer is lost,
and answers about many keys hold entries that nobody asked for. Such a store is as honest as it was.
-/

namespace CacheAside

/-- What becomes of a store call that goes wrong. -/
inductive Mishap where
  /-- The call does not reach the store. -/
  | lost (e : StoreError)
  /-- The call is made, but its answer does not come back. -/
  | unanswered (e : StoreError)

/-- What goes wrong, by the number of calls made before. -/
structure Trouble where
  mishap : Nat → Option Mishap
  /-- Entries that an answer about many keys holds besides, for keys that were not asked for. -/
  foreign : Nat → List (Key × Bytes)

/-- Contents with the number of calls so far. -/
structure Troubled (σ : Type) where
  contents : σ
  calls : Nat := 0

namespace Store

variable {σ α : Type} {store : Store σ} {good : Key → Bytes → Prop} {J : σ → Int64 → Prop}

/-- A call that may go wrong. -/
def meeting (trouble : Trouble) (call : Call σ α) : Call (Troubled σ) α := fun s =>
  let calls := s.contents.calls + 1
  match trouble.mishap s.contents.calls with
  | some (.lost e) => (.error e, s.withContents { s.contents with calls })
  | some (.unanswered e) =>
    let s' := (call (s.withContents s.contents.contents)).2
    (.error e, s'.withContents ⟨s'.contents, calls⟩)
  | none =>
    let (answer, s') := call (s.withContents s.contents.contents)
    (answer, s'.withContents ⟨s'.contents, calls⟩)

/-- Puts entries into a table, but for some keys. -/
def insertForeign (keys : List Key) (entries : List (Key × Bytes)) (t : Table Bytes) :
    Table Bytes :=
  entries.foldl (fun t e => if e.1 ∈ keys then t else t.insert e.1 e.2) t

def troubled (trouble : Trouble) (store : Store σ) : Store (Troubled σ) where
  get key := meeting trouble (store.get key)
  getMany keys s :=
    let (answer, s') := meeting trouble (store.getMany keys) s
    (answer.map (insertForeign keys (trouble.foreign s.contents.calls)), s')
  set key ttl bytes := meeting trouble (store.set key ttl bytes)
  add key ttl bytes := meeting trouble (store.add key ttl bytes)
  delete key := meeting trouble (store.delete key)
  deleteMany keys := meeting trouble (store.deleteMany keys)

theorem Safe.meeting {call : Call σ α} {answers : α → Prop} (h : Safe J call answers)
    (trouble : Trouble) :
    Safe (fun t now => J t.contents now) (meeting trouble call) answers := by
  intro s hs
  obtain ⟨hs', hanswer⟩ := h (s.withContents s.contents.contents) hs
  unfold Store.meeting
  match trouble.mishap s.contents.calls with
  | none => exact ⟨hs', hanswer⟩
  | some (.lost e) => exact ⟨hs, fun a ha => by cases ha⟩
  | some (.unanswered e) => exact ⟨hs', fun a ha => by cases ha⟩

theorem find?_insertForeign {keys : List Key} {key : Key} (hkey : key ∈ keys)
    (entries : List (Key × Bytes)) (t : Table Bytes) :
    (insertForeign keys entries t).find? key = t.find? key := by
  induction entries generalizing t with
  | nil => rfl
  | cons e entries ih =>
      rw [insertForeign, List.foldl_cons, ← insertForeign, ih]
      split
      · rfl
      · rename_i hmem
        have hne : e.1 ≠ key := fun he => hmem (he ▸ hkey)
        rw [Table.find?_insert, if_neg hne]

theorem Honest.troubled (h : store.Honest good J) (trouble : Trouble) :
    (store.troubled trouble).Honest good fun t now => J t.contents now where
  get key := (h.get key).meeting trouble
  getMany keys s hs := by
    obtain ⟨hs', hanswer⟩ := (h.getMany keys).meeting trouble s hs
    refine ⟨hs', fun t ht key hkey bytes hbytes => ?_⟩
    rcases hmeeting : Store.meeting trouble (store.getMany keys) s with ⟨answer, s'⟩
    rw [hmeeting] at hanswer
    simp only [Store.troubled, hmeeting] at ht
    cases answer with
    | error e => cases ht
    | ok found =>
        cases ht
        rw [find?_insertForeign hkey] at hbytes
        exact hanswer found rfl key hkey bytes hbytes
  set key ttl bytes hgood := (h.set key ttl bytes hgood).meeting trouble
  add key ttl bytes hgood := (h.add key ttl bytes hgood).meeting trouble
  delete key := (h.delete key).meeting trouble

end Store

end CacheAside

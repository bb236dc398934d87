import CacheAside.Key
import CacheAside.Pages.Edit

/-!
# Files of pages

The state of a file between changes: a tree of slots by their keys, and the records of freed pages,
which are in a tree of their own. A change ends with the records brought up to date. That takes and
frees pages in turn, so it goes on until nothing moves. A change fails as a whole when no page is
left, and then the file stays as it was.
-/

namespace CacheAside.Pages

instance : TreeKey Key := ⟨Key.byteSize, fun a b => decide (a < b)⟩

structure File where
  /-- The number of the last change. -/
  number : Nat := 0
  /-- The first page that has never been used. The first two hold the state of the file itself. -/
  next : Nat := 2
  slots : Option (Tree Key) := none
  /-- The tree of the records. -/
  index : Option (Tree Nat) := none
  records : List (Nat × List Nat) := []

/-! ## Saving the records -/

/-- The bytes of a list of pages: their number, then they themselves. -/
def listLength (count : Nat) : Nat := 8 * (count + 1)

/-- The most pages that a list on one page can have. -/
def listLimit : Nat := room / 8 - 1

/-- How far the records have been saved. -/
structure Saving where
  index : Option (Tree Nat)
  /-- The last record taken out because its pages are in the pool. -/
  removed : Nat := 0
  /-- How many of the pages that this change frees have been saved. -/
  saved : Nat := 0
  /-- The record that is to keep what is left in the pool, or the last one of several. -/
  target : Nat := 0
  /-- The places in that record, and in all of them. -/
  targetRoom : Int := 0
  totalRoom : Int := 0
  /-- Whether room for more pages than there are in the pool is to be given up once more. -/
  shrinks : Bool := true

namespace Saving

def setRecord (number : Nat) (pages : List Nat) : Edit Unit := modify fun c =>
  { c with records :=
      c.records.filter (fun r => decide (r.1 < number)) ++ (number, pages) ::
        c.records.filter fun r => decide (number < r.1) }

/-- Takes the first record out. -/
def removeFirst (s : Saving) : Edit Saving := do
  let c ← get
  match c.records, s.index with
  | (number, _) :: records, some t =>
    set { c with records }
    let index ← t.erase false number
    return { s with index, removed := number, target := number, targetRoom := 0, totalRoom := 0 }
  | _, _ => failure

/-- Writes the record of this change, again as long as writing it frees more pages. -/
def saveFreed : Nat → Saving → Edit Saving
  | 0, _ => failure
  | rounds + 1, s => do
    let c ← get
    let index ← Tree.put c.number (listLength c.freed.length) s.index
    let s := { s with index := some index, saved := c.freed.length }
    if s.saved < (← get).freed.length then saveFreed rounds s else return s

/-- Makes room for what is left in the pool; `left` is its size. -/
def makeRoom (s : Saving) (left : Int) : Edit Saving := do
  let nextTarget := s.totalRoom < left ∧ listLimit ≤ s.targetRoom ∧ 1 < s.target
  let target := if nextTarget then s.target - 1 else s.target
  let others := if nextTarget then s.totalRoom else s.totalRoom - s.targetRoom
  let wanted := left - others
  let count : Int :=
    if listLimit < wanted ∧ 1 < target then
      let share := wanted / target
      share + (listLimit - share % (listLimit + 1))
    else max wanted 0
  let index ← Tree.put target (listLength count.toNat) s.index
  setRecord target (List.replicate count.toNat 0)
  return { s with index := some index, target, targetRoom := count, totalRoom := others + count }

/-- Saves until nothing moves. The first argument bounds the number of rounds. -/
def run : Nat → Saving → Edit Saving
  | 0, _ => failure
  | rounds + 1, s => do
    let c ← get
    if s.removed < c.seen then run rounds (← s.removeFirst)
    else if s.saved < c.freed.length then
      let index ← if s.saved = 0 then s.index.mapM (Tree.touch fun _ => false) else pure s.index
      run rounds (← saveFreed pageCount { s with index })
    else
      let left : Int := c.pool.length + c.spare.length
      if s.totalRoom < left then run rounds (← s.makeRoom left)
      else if s.totalRoom = left ∨ !s.shrinks then return s
      else run rounds (← { s with shrinks := false }.makeRoom left)

/-- Hands the pages of the pool out to the first records, which have places for them, and says which
of those have got fewer. A place that is left is no page and goes. -/
def handOut (pool : List Nat) : List (Nat × List Nat) → List (Nat × List Nat) × List (Nat × Nat)
  | [] => ([], [])
  | (number, places) :: records =>
    let (filled, short) := handOut (pool.drop places.length) records
    if pool.isEmpty then ((number, places.filter (· ≠ 0)) :: filled, short)
    else
      let pages := pool.take places.length
      ((number, pages) :: filled,
        if pages.length < places.length then (number, pages.length) :: short else short)

end Saving

/-- Brings the records up to date and gives their tree. -/
def saveRecords (index : Option (Tree Nat)) : Edit (Option (Tree Nat)) := do
  let c ← get
  let index ← if c.seen = 0 then pure index else index.mapM (Tree.touch fun _ => true)
  if c.seen = 0 then modify fun c => { c with freed := c.spare ++ c.freed, spare := [] }
  let s ← Saving.run (4 * pageCount) { index }
  let c ← get
  let pool := insertPages c.spare c.pool
  let (records, short) := Saving.handOut pool c.records
  set { c with records, pool := [], spare := [] }
  let index ← short.foldlM
    (fun index (number, count) => some <$> Tree.put number (listLength count) index) s.index
  if 0 < s.saved then
    Saving.setRecord c.number (insertPages (← get).freed [])
  return index

namespace File

/-- Makes a change of the slots. One that writes no page is none. -/
def change? (f : File) (edit : Option (Tree Key) → Edit (Option (Tree Key))) : Option File := do
  let (slots, c) ← edit f.slots { number := f.number + 1, next := f.next, records := f.records }
  if c.written.isEmpty then return f
  else
    let (index, c) ← saveRecords f.index c
    return { number := c.number, next := c.next, slots, index, records := c.records }

/-- Writes a value of some length. -/
def put? (f : File) (key : Key) (length : Nat) : Option File :=
  f.change? fun slots => some <$> Tree.put key length slots

/-- Removes some keys in turn, if they are there. -/
def eraseAll? (f : File) (keys : List Key) : Option File :=
  f.change? fun slots => keys.foldlM
    (fun slots key =>
      match slots with
      | some t => if (t.find? key Tree.maxHeight).isSome then t.erase true key else pure slots
      | none => pure none) slots

end File

end CacheAside.Pages

/-!
# Pages and changes

A file is a row of pages of one size, a fixed number of them. A change never writes over a page that
an earlier change has left in use: it takes pages that are free, and frees those that it replaces.
Pages that a change frees stay as they are until the change after next, and are then reclaimed from
the records that tell which change freed which pages. `Edit` is a step of a change; it fails when no
page is left.
-/

namespace CacheAside.Pages

/-- The bytes of a page. -/
def pageSize : Nat := 4096

/-- The bytes at the start of a page, or of several in a row, that hold no data. -/
def headerSize : Nat := 16

/-- The number of pages there are. -/
def pageCount : Nat := 1024

/-- Pages in a row. -/
structure Run where
  first : Nat
  count : Nat
  deriving DecidableEq

/-- The pages of a run. -/
def Run.pages (r : Run) : List Nat := List.range' r.first r.count

/-- The number of pages in a row that hold some bytes. -/
def pagesFor (length : Nat) : Nat := (headerSize - 1 + length) / pageSize + 1

/-- Puts a page in its place among ascending ones. -/
def insertPage (page : Nat) : List Nat → List Nat
  | [] => [page]
  | p :: ps => if page ≤ p then page :: p :: ps else p :: insertPage page ps

/-- Puts pages, in whatever order, in their places among ascending ones. -/
def insertPages (pages others : List Nat) : List Nat := pages.foldr insertPage others

/-- The first pages in a row among ascending ones, and all the others. -/
def takeRun? (count : Nat) : List Nat → Option (Nat × List Nat)
  | [] => none
  | p :: ps =>
    if (p :: ps)[count - 1]? = some (p + count - 1) then some (p, ps.drop (count - 1))
    else (takeRun? count ps).map fun (q, rest) => (q, p :: rest)

/-- A change on its way. Lists of pages that are not said to be ordered otherwise ascend. -/
structure Change where
  /-- Changes are numbered. -/
  number : Nat
  /-- The first page that has never been used. -/
  next : Nat
  /-- The pages freed and not reclaimed so far, by the number of the change that freed them. -/
  records : List (Nat × List Nat)
  /-- The last record read, or zero. -/
  seen : Nat := 0
  /-- The pages reclaimed and not used yet. -/
  pool : List Nat := []
  /-- The pages written by this change, in no order; of a run the first one. -/
  written : List Nat := []
  /-- The pages that this change frees, in no order. -/
  freed : List Nat := []
  /-- Pages written by this change and given up again, the last one first. -/
  spare : List Nat := []

namespace Change

/-- The next record to be read. The change right before this one is too recent. -/
def nextRecord? (c : Change) : Option (Nat × List Nat) :=
  c.records.find? fun (number, _) => c.seen < number && number + 1 < c.number

/-- Takes pages in a row out of the pool, reading more records as long as there are none, or else
from the end of those in use. The first argument bounds the number of records. -/
def takePages? (count : Nat) : Nat → Change → Option (Nat × Change)
  | records, c =>
    match takeRun? count c.pool with
    | some (p, pool) => some (p, { c with pool })
    | none =>
      let fresh : Option (Nat × Change) :=
        if c.next + count < pageCount then some (c.next, { c with next := c.next + count }) else none
      match records, c.nextRecord? with
      | records + 1, some (number, pages) =>
        takePages? count records { c with seen := number, pool := insertPages pages c.pool }
      | _, _ => fresh

end Change

/-- A step of a change, with a result of type `α`. -/
abbrev Edit (α : Type) := StateT Change Option α

namespace Edit

/-- Pages in a row to write to, given by the first one. -/
def allocate (count : Nat) : Edit Nat := do
  let c ← get
  match count, c.spare with
  | 1, p :: spare =>
    set { c with spare }
    return p
  | _, _ =>
    let (p, c) ← c.takePages? count c.records.length
    set { c with written := p :: c.written }
    return p

def isWritten (page : Nat) : Edit Bool := do return (← get).written.contains page

/-- Frees pages. -/
def free (pages : List Nat) : Edit Unit := modify fun c => { c with freed := pages ++ c.freed }

/-- A page that this change may write to, in place of another. -/
def own (page : Nat) : Edit Nat := do
  if ← isWritten page then return page
  else
    let p ← allocate 1
    free [page]
    return p

/-- Gives up a run. One that this change has written goes back to the pool it came from. -/
def dropRun (r : Run) : Edit Unit := do
  let c ← get
  if c.seen ≠ 0 ∧ c.written.contains r.first then
    set { c with written := c.written.erase r.first, pool := insertPages r.pages c.pool }
  else free r.pages

/-- Gives up a page of a tree. Unless it may be `reused`, one that this change has written is freed
like any other. -/
def dropPage (reused : Bool) (page : Nat) : Edit Unit := do
  if reused && (← isWritten page) then modify fun c => { c with spare := page :: c.spare }
  else free [page]

end Edit

end CacheAside.Pages

import CacheAside.Pages.Change

/-!
# Trees of pages

Search trees whose nodes are pages. A leaf holds slots, which keep a short value next to its key and
a long one in a run of pages; a branch holds links, of which all but the first have the least key
below them. What is stored in a slot is no concern of the tree, only how long it is.
-/

namespace CacheAside.Pages

/-- What a tree has to know about keys. -/
class TreeKey (κ : Type) where
  size : κ → Nat
  before : κ → κ → Bool

/-- Keys that are numbers take a word of 64 bits. -/
instance : TreeKey Nat := ⟨fun _ => 8, fun a b => decide (a < b)⟩

structure Slot (κ : Type) where
  key : κ
  length : Nat
  /-- The pages of a long value. -/
  run : Option Run
  deriving DecidableEq

inductive Tree (κ : Type) where
  | leaf (page : Nat) (slots : List (Slot κ))
  | branch (page : Nat) (links : List (Option κ × Tree κ))

/-- A child of a branch and the key in front of it. -/
abbrev Link (κ : Type) := Option κ × Tree κ

/-- A branch with one of its links taken out. -/
structure Frame (κ : Type) where
  page : Nat
  /-- The links to the left, the nearest one first. -/
  before : List (Link κ)
  key : Option κ
  /-- The links to the right. -/
  after : List (Link κ)

variable {κ : Type}

/-- The branch with a child in place of the one taken out. -/
def Frame.fill (f : Frame κ) (child : Tree κ) : List (Link κ) :=
  f.before.reverse ++ (f.key, child) :: f.after

/-- The tree around a node; the frames start with the parent. -/
def rebuild (node : Tree κ) : List (Frame κ) → Tree κ
  | [] => node
  | f :: fs => rebuild (.branch f.page (f.fill node)) fs

/-! ## Room on a page -/

/-- The bytes of a page that slots or links may take. -/
def room : Nat := pageSize - headerSize

/-- The bytes a slot may take that keeps its value. Two of that size fit a page. -/
def slotLimit : Nat := room / 2 - 2

def even (n : Nat) : Nat := n + n % 2

variable [TreeKey κ]

/-- Whether a value is too long for its slot. -/
def isLong (key : κ) (length : Nat) : Bool := slotLimit < 8 + TreeKey.size key + length

/-- The bytes that a slot takes. In place of a long value it has the number of a page. -/
def Slot.space (s : Slot κ) : Nat :=
  even (8 + TreeKey.size s.key + if s.run.isSome then 8 else s.length) + 2

/-- The bytes that a link takes. -/
def linkSpace (l : Link κ) : Nat := even (8 + (l.1.map TreeKey.size).getD 0) + 2

def total (sizes : List Nat) : Nat := sizes.foldr (· + ·) 0

/-- How many sizes from the start fit some bytes together. -/
def fitting : Nat → List Nat → Nat
  | _, [] => 0
  | bytes, n :: ns => if n ≤ bytes then fitting (bytes - n) ns + 1 else 0

/-- Where to divide a full page whose newest part is at the given place: how many parts stay. Among
few parts, or when the new one is large or the last, the place is looked for from the side of the new
one. -/
def divideAt (isLeaf : Bool) (sizes : List Nat) (newest : Nat) : Nat :=
  let last := sizes.length - 1
  let middle := (last + 1) / 2
  if last < 32 ∨ room / 16 < sizes.getD newest 0 ∨ last ≤ newest then
    if last ≤ newest then min (fitting room sizes) (last - 1)
    else if newest ≤ middle then min (fitting room sizes) (middle + if isLeaf then 1 else 0)
    else max (last - fitting room sizes.reverse) middle + 1
  else middle

namespace Tree

def page : Tree κ → Nat
  | leaf page _ => page
  | branch page _ => page

/-- The bytes in use on the page of a node. -/
def space : Tree κ → Nat
  | leaf _ slots => total (slots.map Slot.space)
  | branch _ links => total (links.map linkSpace)

/-- The number of slots or links. -/
def count : Tree κ → Nat
  | leaf _ slots => slots.length
  | branch _ links => links.length

def isLeaf : Tree κ → Bool
  | leaf .. => true
  | branch .. => false

/-- The least number of slots or links of a node that is not a root. -/
def leastCount (t : Tree κ) : Nat := if t.isLeaf then 1 else 2

/-- Whether a page is not nearly empty: a quarter of a leaf is in use. -/
def isFilled (t : Tree κ) : Bool := (if t.isLeaf then 250 else 1) ≤ 1000 * t.space / room

/-- No tree has more levels. -/
def maxHeight : Nat := 32

/-- The least key. -/
def least? : Nat → Tree κ → Option κ
  | _, leaf _ [] => none
  | _, leaf _ (s :: _) => some s.key
  | 0, branch .. => none
  | _ + 1, branch _ [] => none
  | height + 1, branch _ ((_, t) :: _) => least? height t

/-- Divides the links of a branch in front of the first one, not counting the very first, that the
test is true of: the links before, the nearest first, and those after. -/
def splitLinks (stop : κ → Bool) : List (Link κ) → List (Link κ) → List (Link κ) × List (Link κ)
  | before, [] => (before, [])
  | [], l :: ls => splitLinks stop [l] ls
  | before, (some s, t) :: ls =>
    if stop s then (before, (some s, t) :: ls) else splitLinks stop ((some s, t) :: before) ls
  | before, (none, t) :: ls => splitLinks stop ((none, t) :: before) ls

/-- The slot of a key. -/
def find? (key : κ) : Nat → Tree κ → Option (Slot κ)
  | _, leaf _ slots =>
    slots.find? fun s => !(TreeKey.before key s.key || TreeKey.before s.key key)
  | 0, branch .. => none
  | height + 1, branch _ links =>
    match splitLinks (TreeKey.before key) [] links with
    | ((_, t) :: _, _) => find? key height t
    | ([], _) => none

/-- Says where the long value of a key begins. -/
def setFirst (key : κ) (first : Nat) : Nat → Tree κ → Tree κ
  | _, leaf page slots =>
    leaf page (slots.map fun s =>
      if TreeKey.before key s.key || TreeKey.before s.key key then s
      else { s with run := s.run.map fun r => { r with first } })
  | 0, t => t
  | height + 1, branch page links =>
    match splitLinks (TreeKey.before key) [] links with
    | ((k, t) :: before, after) =>
      branch page (before.reverse ++ (k, setFirst key first height t) :: after)
    | ([], _) => branch page links

end Tree

end CacheAside.Pages

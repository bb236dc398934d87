import CacheAside.Pages.Tree

/-!
# Changes of trees

Writing and removing slots. On the way down every page is replaced by one that the change owns. A
page that is too full is divided, and its parent gets one more link; a page that is nearly empty gets
a slot or a link of a neighbour, or is merged with it, and its parent loses a link.
-/

namespace CacheAside.Pages

variable {κ : Type} [TreeKey κ]

/-- A leaf and the branches above it, the parent first. -/
structure Path (κ : Type) where
  page : Nat
  slots : List (Slot κ)
  frames : List (Frame κ)

namespace Tree

/-- Goes down to a leaf and owns every page on the way. At a branch it stays to the left of the first
key that the test is true of. -/
def descend (stop : κ → Bool) : Nat → Tree κ → List (Frame κ) → Edit (Path κ)
  | _, leaf page slots, frames => do return { page := ← Edit.own page, slots, frames }
  | 0, branch .., _ => failure
  | height + 1, branch page links, frames => do
    let page ← Edit.own page
    match splitLinks stop [] links with
    | ((key, t) :: before, after) => descend stop height t ({ page, before, key, after } :: frames)
    | ([], _) => failure

/-- Owns the pages down to a leaf and changes nothing. -/
def touch (stop : κ → Bool) (t : Tree κ) : Edit (Tree κ) := do
  let path ← t.descend stop maxHeight []
  return rebuild (.leaf path.page path.slots) path.frames

/-- Puts the two halves of a divided node in place, with the least key of the right one. -/
def raise : List (Frame κ) → Tree κ → κ → Tree κ → Edit (Tree κ)
  | [], left, key, right => do
    return .branch (← Edit.allocate 1) [(none, left), (some key, right)]
  | f :: fs, left, key, right => do
    let links := f.before.reverse ++ (f.key, left) :: (some key, right) :: f.after
    if total (links.map linkSpace) ≤ room then return rebuild (.branch f.page links) fs
    else
      let page ← Edit.allocate 1
      match links.splitAt (divideAt false (links.map linkSpace) (f.before.length + 1)) with
      | (kept, (some key, t) :: moved) =>
        raise fs (.branch f.page kept) key (.branch page ((none, t) :: moved))
      | _ => failure

/-- Puts a branch in place one of whose keys has changed. -/
def replaceBranch (page : Nat) (links : List (Link κ)) (changed : Nat) (frames : List (Frame κ)) :
    Edit (Tree κ) := do
  if total (links.map linkSpace) ≤ room then return rebuild (.branch page links) frames
  else
    let right ← Edit.allocate 1
    match links.splitAt (divideAt false (links.map linkSpace) changed) with
    | (kept, (some key, t) :: moved) =>
      raise frames (.branch page kept) key (.branch right ((none, t) :: moved))
    | _ => failure

/-- Puts a leaf in place that has a new slot between the others. -/
def insertSlot (path : Path κ) (before : List (Slot κ)) (s : Slot κ) (after : List (Slot κ)) :
    Edit (Tree κ) := do
  let slots := before ++ s :: after
  if total (slots.map Slot.space) ≤ room then
    return rebuild (.leaf path.page slots) path.frames
  else
    let page ← Edit.allocate 1
    match slots.splitAt (divideAt true (slots.map Slot.space) before.length) with
    | (kept, t :: moved) => raise path.frames (.leaf path.page kept) t.key (.leaf page (t :: moved))
    | (_, []) => failure

/-- Writes a slot that is not there, and the value into pages of its own if it is long. -/
def putNew (path : Path κ) (before : List (Slot κ)) (key : κ) (length : Nat)
    (after : List (Slot κ)) : Edit (Tree κ) := do
  if isLong key length then
    let count := pagesFor length
    let t ← insertSlot path before ⟨key, length, some ⟨0, count⟩⟩ after
    let first ← Edit.allocate count
    return t.setFirst key first maxHeight
  else insertSlot path before ⟨key, length, none⟩ after

/-- Writes a slot, over the one that may be there. A run that this change has written itself is kept
if it is long enough. -/
def put (key : κ) (length : Nat) : Option (Tree κ) → Edit (Tree κ)
  | none => do
    let page ← Edit.allocate 1
    putNew { page, slots := [], frames := [] } [] key length []
  | some t => do
    let path ← t.descend (TreeKey.before key) maxHeight []
    let before := path.slots.takeWhile fun s => TreeKey.before s.key key
    match path.slots.drop before.length with
    | [] => putNew path before key length []
    | s :: after =>
      let same (s : Slot κ) : Tree κ :=
        rebuild (.leaf path.page (before ++ s :: after)) path.frames
      if TreeKey.before key s.key then putNew path before key length (s :: after)
      else
        match s.run with
        | none => if s.length = length then return same s else putNew path before key length after
        | some r =>
          if pagesFor length ≤ r.count && (← Edit.isWritten r.first) then
            return same { s with length }
          else
            Edit.dropRun r
            putNew path before key length after

/-- Puts a node in place that may have become too empty. The first argument says whether pages given
up may be used again by the same change. -/
def settle (reused : Bool) : List (Frame κ) → Tree κ → Edit (Option (Tree κ))
  | frames, node => do
    if node.isFilled && node.leastCount ≤ node.count then return some (rebuild node frames)
    else
      match frames with
      | [] =>
        match node with
        | leaf page [] =>
          Edit.free [page]
          return none
        | branch page [(_, t)] =>
          Edit.free [page]
          return some t
        | node => return some node
      | f :: fs =>
        match f.before, f.after with
        | [], [] => failure
        | [], (_, right) :: after =>
          if right.isFilled && right.leastCount < right.count then
            let page ← Edit.own right.page
            match node, right with
            | leaf p slots, leaf _ (s :: t :: moved) =>
              some <$> replaceBranch f.page
                ((f.key, leaf p (slots ++ [s])) :: (some t.key, leaf page (t :: moved)) :: after) 1 fs
            | branch p links, branch _ ((_, s) :: (k, t) :: moved) =>
              some <$> replaceBranch f.page
                ((f.key, branch p (links ++ [(s.least? maxHeight, s)])) ::
                  (k, branch page ((none, t) :: moved)) :: after) 1 fs
            | _, _ => failure
          else
            Edit.dropPage reused right.page
            match node, right with
            | leaf p slots, leaf _ others =>
              settle reused fs (branch f.page ((f.key, leaf p (slots ++ others)) :: after))
            | branch p links, branch _ ((_, t) :: others) =>
              settle reused fs (branch f.page
                ((f.key, branch p (links ++ (t.least? maxHeight, t) :: others)) :: after))
            | _, _ => failure
        | (key, left) :: before, after =>
          let page ← Edit.own left.page
          if left.isFilled && left.leastCount < left.count then
            match left, node with
            | leaf _ others, leaf p slots =>
              match others.getLast? with
              | some s =>
                some <$> replaceBranch f.page
                  (before.reverse ++ (key, leaf page others.dropLast) ::
                    (some s.key, leaf p (s :: slots)) :: after) (before.length + 1) fs
              | none => failure
            | branch _ others, branch p ((_, t) :: links) =>
              match others.getLast? with
              | some (k, s) =>
                some <$> replaceBranch f.page
                  (before.reverse ++ (key, branch page others.dropLast) ::
                    (k, branch p ((none, s) :: (t.least? maxHeight, t) :: links)) :: after)
                  (before.length + 1) fs
              | none => failure
            | _, _ => failure
          else
            Edit.dropPage reused node.page
            match left, node with
            | leaf _ others, leaf _ slots =>
              settle reused fs
                (branch f.page (before.reverse ++ (key, leaf page (others ++ slots)) :: after))
            | branch _ others, branch _ ((_, t) :: links) =>
              settle reused fs (branch f.page
                (before.reverse ++
                  (key, branch page (others ++ (t.least? maxHeight, t) :: links)) :: after))
            | _, _ => failure

/-- Removes the slot of a key that is there. -/
def erase (reused : Bool) (key : κ) (t : Tree κ) : Edit (Option (Tree κ)) := do
  let path ← t.descend (TreeKey.before key) maxHeight []
  let before := path.slots.takeWhile fun s => TreeKey.before s.key key
  match path.slots.drop before.length with
  | [] => failure
  | s :: after =>
    match s.run with
    | some r => Edit.dropRun r
    | none => pure ()
    settle reused path.frames (.leaf path.page (before ++ after))

end Tree

end CacheAside.Pages

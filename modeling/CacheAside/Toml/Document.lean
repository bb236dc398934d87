import CacheAside.Toml.Number
import CacheAside.Toml.Text

/-!
# TOML documents

`Toml.parse?` accepts the documents of TOML 1.0 and gives the members of their root table. Arrays
and inline tables may be nested 79 levels deep.
-/

namespace CacheAside.Toml

def maxDepth : Nat := 79

/-- What follows a word, if the text starts with it. -/
def afterWord? : List Char → List Char → Option (List Char)
  | [], cs => some cs
  | w :: ws, c :: cs => if w = c then afterWord? ws cs else none
  | _ :: _, [] => none

/-- A value that holds no other values. -/
def scalar? (cs : List Char) : Option (Scalar × List Char) :=
  match cs with
  | [] => none
  | c :: _ =>
    if c = '"' ∨ c = '\'' then (string? cs).map fun (s, r) => (.string s, r)
    else if c = 't' then (afterWord? ['t', 'r', 'u', 'e'] cs).map (Scalar.boolean true, ·)
    else if c = 'f' then (afterWord? ['f', 'a', 'l', 's', 'e'] cs).map (Scalar.boolean false, ·)
    else if c = 'i' ∨ c = 'n' then special? cs
    else number? cs

mutual
/-- A value and what follows it. The first argument bounds the number of steps, the second how
deep values may still be nested. -/
def value? : Nat → Nat → List Char → Option (Node × List Char)
  | 0, _, _ => none
  | fuel + 1, depth, cs =>
    match cs, depth with
    | '[' :: _, 0 => none
    | '{' :: _, 0 => none
    | '[' :: r, depth + 1 =>
      (items? fuel depth (skipLines false r)).map fun (vs, r) => (.array vs, r)
    | '{' :: r, depth + 1 =>
      match skipTabs r with
      | '}' :: r => some (.table .inline [], r)
      | r => (pairs? fuel depth [] r).map fun (ms, r) => (.table .inline ms, r)
    | cs, _ => (scalar? cs).map fun (s, r) => (.scalar s, r)

/-- The items of an array and what follows the closing bracket; a comma may stand before it. -/
def items? : Nat → Nat → List Char → Option (List Node × List Char)
  | 0, _, _ => none
  | fuel + 1, depth, cs =>
    match cs with
    | ']' :: r => some ([], r)
    | cs =>
      match value? fuel depth cs with
      | none => none
      | some (v, r) =>
        match skipLines false r with
        | ',' :: r => (items? fuel depth (skipLines false r)).map fun (vs, r) => (v :: vs, r)
        | ']' :: r => some ([v], r)
        | _ => none

/-- The pairs of an inline table, at least one, and what follows the closing brace. -/
def pairs? : Nat → Nat → Members → List Char → Option (Members × List Char)
  | 0, _, _, _ => none
  | fuel + 1, depth, ms, cs =>
    match key? cs with
    | some (path, name, '=' :: r) =>
      match value? fuel depth (skipTabs r) with
      | none => none
      | some (v, r) =>
        match ms.insert path name v with
        | none => none
        | some ms =>
          match skipTabs r with
          | ',' :: r => pairs? fuel depth ms r
          | '}' :: r => some (ms, r)
          | _ => none
    | _ => none
end

/-- A document read so far: its root table, and the path of the table that is open. -/
structure Progress where
  root : Members := []
  path : List String := []

/-- A header, behind its opening brackets. -/
def header? (p : Progress) (element : Bool) (cs : List Char) : Option (Progress × List Char) :=
  match key? cs with
  | none => none
  | some (path, name, r) =>
    let close := if element then [']', ']'] else [']']
    match afterWord? close r with
    | none => none
    | some r =>
      let change := if element then Members.openElement name else Members.openTable name
      match p.root.modifyAt change path, afterLine? r with
      | some root, some r => some (⟨root, path ++ [name]⟩, r)
      | _, _ => none

/-- A line with a key and a value. -/
def pair? (p : Progress) (cs : List Char) : Option (Progress × List Char) :=
  match key? cs with
  | some (path, name, '=' :: r) =>
    match value? (2 * r.length + 2) maxDepth (skipTabs r) with
    | none => none
    | some (v, r) =>
      match p.root.modifyAt (Members.insert path name v) p.path, afterLine? r with
      | some root, some r => some ({ p with root }, r)
      | _, _ => none
  | _ => none

/-- The rest of a document, line by line. The first argument bounds the number of lines. -/
def lines? : Nat → Progress → List Char → Option Progress
  | 0, _, _ => none
  | fuel + 1, p, cs =>
    match skipTabs cs with
    | [] => some p
    | '[' :: '[' :: r =>
      match header? p true r with
      | some (p, r) => lines? fuel p r
      | none => none
    | '[' :: r =>
      match header? p false r with
      | some (p, r) => lines? fuel p r
      | none => none
    | c :: r =>
      if c = '#' ∨ c = '\n' ∨ c = '\r' then
        match afterLine? (c :: r) with
        | some r => lines? fuel p r
        | none => none
      else
        match pair? p (c :: r) with
        | some (p, r) => lines? fuel p r
        | none => none

/-- The root table of a document. A byte order mark may come first. -/
def parse? (source : String) : Option Members :=
  let cs := match source.toList with
    | '\uFEFF' :: cs => cs
    | cs => cs
  (lines? (cs.length + 1) {} cs).map (·.root)

end CacheAside.Toml

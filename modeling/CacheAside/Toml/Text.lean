/-!
# Lines, strings and keys of TOML

Readers for the parts of a TOML text that hold no other values. Each gives what it read and the
characters behind it, or nothing if the text does not have the form.
-/

namespace CacheAside.Toml

def isTab (c : Char) : Bool := c == ' ' || c == '\t'

def skipTabs (cs : List Char) : List Char := cs.dropWhile isTab

/-- Characters that may stand in a comment: all but the control characters other than tab. -/
def isPrintable (c : Char) : Bool :=
  c == '\t' || (0x20 ≤ c.val && c.val ≤ 0x7E) || 0x80 ≤ c.val

/-- What follows a line end: a line feed, alone or behind a carriage return. -/
def afterNewline? : List Char → Option (List Char)
  | '\n' :: cs => some cs
  | '\r' :: '\n' :: cs => some cs
  | _ => none

/-- What follows the rest of a line on which nothing more is said but perhaps a comment. -/
def afterLine? (cs : List Char) : Option (List Char) :=
  let cs := skipTabs cs
  let cs := match cs with
    | '#' :: comment => comment.dropWhile isPrintable
    | _ => cs
  match cs with
  | [] => some []
  | _ => afterNewline? cs

/-- Skips blanks, line ends and comments, as between the items of an array. The first argument says
that a comment is being skipped. -/
def skipLines : Bool → List Char → List Char
  | _, [] => []
  | _, '\n' :: cs => skipLines false cs
  | _, '\r' :: '\n' :: cs => skipLines false cs
  | true, c :: cs => if isPrintable c then skipLines true cs else c :: cs
  | false, c :: cs =>
    if isTab c then skipLines false cs
    else if c = '#' then skipLines true cs
    else c :: cs

/-! ## Strings -/

def hexValue? (c : Char) : Option Nat :=
  if c.isDigit then some (c.toNat - 48)
  else if 'a' ≤ c ∧ c ≤ 'f' then some (c.toNat - 87)
  else if 'A' ≤ c ∧ c ≤ 'F' then some (c.toNat - 55)
  else none

/-- The character with the code point that hexadecimal digits spell. -/
def codePoint? (digits : List Char) : Option Char :=
  match digits.mapM hexValue? with
  | none => none
  | some ds =>
    let n := ds.foldl (fun n d => 16 * n + d) 0
    if n < 0xD800 ∨ (0xE000 ≤ n ∧ n < 0x110000) then some (Char.ofNat n) else none

/-- What a backslash and a letter stand for. -/
def escaped? (c : Char) : Option Char :=
  if c = 'b' then some '\x08'
  else if c = 't' then some '\t'
  else if c = 'n' then some '\n'
  else if c = 'f' then some '\x0c'
  else if c = 'r' then some '\r'
  else if c = '"' then some '"'
  else if c = '\\' then some '\\'
  else none

/-- Puts a character in front of what was read. -/
def prepend (c : Char) : Option (List Char × List Char) → Option (List Char × List Char)
  | some (s, r) => some (c :: s, r)
  | none => none

/-- A string on one line, behind its opening quote. -/
def basic? : List Char → Option (List Char × List Char)
  | [] => none
  | '"' :: r => some ([], r)
  | '\\' :: 'u' :: a :: b :: c :: d :: r =>
    match codePoint? [a, b, c, d] with
    | some x => prepend x (basic? r)
    | none => none
  | '\\' :: 'U' :: a :: b :: c :: d :: e :: f :: g :: h :: r =>
    match codePoint? [a, b, c, d, e, f, g, h] with
    | some x => prepend x (basic? r)
    | none => none
  | '\\' :: e :: r =>
    match escaped? e with
    | some x => prepend x (basic? r)
    | none => none
  | c :: r => if isPrintable c && c != '\\' then prepend c (basic? r) else none

/-- A string over several lines, behind its opening quotes. The first argument says that a backslash
at the end of a line is swallowing blanks and line ends. -/
def basicLines? : Bool → List Char → Option (List Char × List Char)
  | _, [] => none
  | true, '\r' :: '\n' :: r => basicLines? true r
  | true, '\n' :: r => basicLines? true r
  | true, ' ' :: r => basicLines? true r
  | true, '\t' :: r => basicLines? true r
  | _, '"' :: '"' :: '"' :: '"' :: '"' :: r => some (['"', '"'], r)
  | _, '"' :: '"' :: '"' :: '"' :: r => some (['"'], r)
  | _, '"' :: '"' :: '"' :: r => some ([], r)
  | _, '\\' :: 'u' :: a :: b :: c :: d :: r =>
    match codePoint? [a, b, c, d] with
    | some x => prepend x (basicLines? false r)
    | none => none
  | _, '\\' :: 'U' :: a :: b :: c :: d :: e :: f :: g :: h :: r =>
    match codePoint? [a, b, c, d, e, f, g, h] with
    | some x => prepend x (basicLines? false r)
    | none => none
  | _, '\\' :: e :: r =>
    if (afterNewline? (skipTabs (e :: r))).isSome then basicLines? true (e :: r)
    else
      match escaped? e with
      | some x => prepend x (basicLines? false r)
      | none => none
  | _, '\r' :: '\n' :: r => prepend '\n' (basicLines? false r)
  | _, '\n' :: r => prepend '\n' (basicLines? false r)
  | _, c :: r => if isPrintable c && c != '\\' then prepend c (basicLines? false r) else none

/-- A string without escapes on one line, behind its opening quote. -/
def literal? : List Char → Option (List Char × List Char)
  | [] => none
  | '\'' :: r => some ([], r)
  | c :: r => if isPrintable c then prepend c (literal? r) else none

/-- A string without escapes over several lines, behind its opening quotes. -/
def literalLines? : List Char → Option (List Char × List Char)
  | [] => none
  | '\'' :: '\'' :: '\'' :: '\'' :: '\'' :: r => some (['\'', '\''], r)
  | '\'' :: '\'' :: '\'' :: '\'' :: r => some (['\''], r)
  | '\'' :: '\'' :: '\'' :: r => some ([], r)
  | '\r' :: '\n' :: r => prepend '\n' (literalLines? r)
  | '\n' :: r => prepend '\n' (literalLines? r)
  | c :: r => if isPrintable c then prepend c (literalLines? r) else none

/-- A line end right behind opening quotes is no part of the string. -/
def dropNewline (cs : List Char) : List Char := (afterNewline? cs).getD cs

/-- A string in any of the four forms. -/
def string? (cs : List Char) : Option (String × List Char) :=
  let read := match cs with
    | '"' :: '"' :: '"' :: r => basicLines? false (dropNewline r)
    | '"' :: r => basic? r
    | '\'' :: '\'' :: '\'' :: r => literalLines? (dropNewline r)
    | '\'' :: r => literal? r
    | _ => none
  read.map fun (s, r) => (String.ofList s, r)

/-! ## Keys -/

def isBareKeyChar (c : Char) : Bool := c.isAlphanum || c == '-' || c == '_'

def simpleKey? : List Char → Option (String × List Char)
  | '"' :: r => (basic? r).map fun (s, r) => (String.ofList s, r)
  | '\'' :: r => (literal? r).map fun (s, r) => (String.ofList s, r)
  | cs =>
    let bare := cs.takeWhile isBareKeyChar
    if bare.isEmpty then none else some (String.ofList bare, cs.dropWhile isBareKeyChar)

/-- Keys joined by points; blanks may stand around each. The first argument bounds their number. -/
def dottedKey? : Nat → List Char → Option (List String × List Char)
  | 0, _ => none
  | fuel + 1, cs =>
    match simpleKey? (skipTabs cs) with
    | none => none
    | some (k, r) =>
      match skipTabs r with
      | '.' :: r =>
        match dottedKey? fuel r with
        | some (ks, r) => some (k :: ks, r)
        | none => none
      | r => some ([k], r)

/-- A dotted key may have at most this many parts. -/
def maxKeyParts : Nat := 79

/-- The parts of a dotted key: all but the last, and the last. -/
def key? (cs : List Char) : Option (List String × String × List Char) :=
  match dottedKey? maxKeyParts cs with
  | none => none
  | some (ks, r) =>
    match ks.getLast? with
    | some k => some (ks.dropLast, k, r)
    | none => none

end CacheAside.Toml

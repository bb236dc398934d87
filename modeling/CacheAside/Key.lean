import CacheAside.Error
import CacheAside.Text.Blank

/-!
# Cache keys

A key is written `keyspace:id/id/…`. The first colon separates the keyspace from the identity path,
so a keyspace holds none; identities may hold colons and slashes. `Key.build` checks the keyspace
first, then that there is an identity, then the identities in turn.
-/

namespace CacheAside

/-- The text under which a store keeps one entry. -/
structure Key where
  text : String
  deriving DecidableEq

namespace Key

/-- Keys are ordered as their texts, which is the order of their UTF-8 bytes. -/
instance : LT Key := ⟨fun a b => a.text < b.text⟩

instance (a b : Key) : Decidable (a < b) := inferInstanceAs (Decidable (a.text < b.text))

theorem lt_irrefl (a : Key) : ¬a < a := String.lt_irrefl a.text

theorem lt_trans {a b c : Key} (hab : a < b) (hbc : b < c) : a < c := String.lt_trans hab hbc

theorem eq_of_not_lt {a b : Key} (hab : ¬a < b) (hba : ¬b < a) : a = b := by
  have h : a.text = b.text := String.le_antisymm (String.not_lt.1 hba) (String.not_lt.1 hab)
  cases a; cases b; exact congrArg Key.mk h

/-- The length that counts against limits: UTF-8 bytes. -/
def byteSize (k : Key) : Nat := k.text.utf8ByteSize

/-- Splits the keyspace off. -/
def separator : Char := ':'

/-- Joins the identities of a compound key. -/
def idSeparator : String := "/"

/-- The longest key accepted unless configured otherwise, in bytes. -/
def defaultMaxLength : UInt64 := 250

def checkKeyspace (keyspace : String) : Except ConfigError Unit :=
  if isBlank keyspace then
    .error (.invalidValue "namespace" keyspace "namespace must not be empty")
  else if keyspace.toList.contains separator then
    .error (.invalidValue "namespace" keyspace "namespace must not contain the ':' separator")
  else if hasForbiddenChar keyspace then
    .error (.invalidValue "namespace" keyspace
      "namespace must not contain whitespace or control characters")
  else .ok ()

def checkIdentity (id : String) : Except ConfigError Unit :=
  if isBlank id then
    .error (.invalidValue "id" id "identity must not be empty or whitespace")
  else if hasForbiddenChar id then
    .error (.invalidValue "id" id "identity must not contain whitespace or control characters")
  else .ok ()

/-- Checks identities in turn; the first bad one is reported. -/
def checkIdentities : List String → Except ConfigError Unit
  | [] => .ok ()
  | id :: ids =>
    match checkIdentity id with
    | .error e => .error e
    | .ok () => checkIdentities ids

/-- The key of a keyspace and the identities of one cacheable unit. -/
def build (keyspace : String) (ids : List String) : Except ConfigError Key :=
  match checkKeyspace keyspace with
  | .error e => .error e
  | .ok () =>
    match ids with
    | [] => .error (.missingRequired "ids")
    | id :: rest =>
      match checkIdentities (id :: rest) with
      | .error e => .error e
      | .ok () => .ok ⟨keyspace ++ separator.toString ++ idSeparator.intercalate (id :: rest)⟩

/-- What stands before the first colon. -/
def keyspace (k : Key) : String := String.ofList (k.text.toList.takeWhile (· != separator))

/-- What stands behind the first colon. -/
def idPath (k : Key) : String := String.ofList ((k.text.toList.dropWhile (· != separator)).drop 1)

end Key

end CacheAside

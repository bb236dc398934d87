/-!
# The tree of a TOML document

Tables remember how they came into being, because that decides how they may still grow: a dotted key
extends only tables that dotted keys made, and a header defines a table only once.
-/

namespace CacheAside.Toml

inductive Scalar where
  | string (s : String)
  | integer (n : Int)
  | float (literal : String)
  | boolean (b : Bool)
  | dateTime (literal : String)
  deriving DecidableEq

/-- How a table came into being. -/
inductive Origin where
  /-- Written out in braces; complete from the start. -/
  | inline
  /-- Defined by its own header. -/
  | header
  /-- Named on the way to a table with a longer header. -/
  | implied
  /-- Named on the way to the value of a dotted key. -/
  | dotted
  deriving DecidableEq

inductive Node where
  | scalar (s : Scalar)
  | array (items : List Node)
  | table (origin : Origin) (members : List (String × Node))
  /-- An array of tables, one per header in double brackets. -/
  | tables (elements : List (List (String × Node)))

abbrev Members := List (String × Node)

namespace Members

/-- Puts another node in the place of the one with this name. -/
def replace (name : String) (node : Node) (ms : Members) : Members :=
  ms.map fun m => if m.1 = name then (name, node) else m

/-- Adds the value of a dotted key. Neither the value nor a complete table may be there already, and
the table that gets the value has to be one that dotted keys made. -/
def insert : List String → String → Node → Members → Option Members
  | [], name, node, ms =>
    if (ms.lookup name).isSome then none else some (ms ++ [(name, node)])
  | p :: path, name, node, ms =>
    match ms.lookup p with
    | none => (insert path name node []).map fun inner => ms ++ [(p, .table .dotted inner)]
    | some (.table .dotted inner) =>
      (insert path name node inner).map fun inner => ms.replace p (.table .dotted inner)
    | some (.table .implied inner) =>
      if path.isEmpty then none
      else (insert path name node inner).map fun inner => ms.replace p (.table .implied inner)
    | some (.tables elements) =>
      if path.isEmpty then none
      else
        match elements.getLast? with
        | none => none
        | some inner =>
          (insert path name node inner).map fun inner =>
            ms.replace p (.tables (elements.dropLast ++ [inner]))
    | _ => none

/-- Changes the table at the end of a header's path; of an array of tables that is the last one.
Tables that are missing on the way come into being. -/
def modifyAt (change : Members → Option Members) : List String → Members → Option Members
  | [], ms => change ms
  | p :: path, ms =>
    match ms.lookup p with
    | none => (modifyAt change path []).map fun inner => ms ++ [(p, .table .implied inner)]
    | some (.table .inline _) => none
    | some (.table origin inner) =>
      (modifyAt change path inner).map fun inner => ms.replace p (.table origin inner)
    | some (.tables elements) =>
      match elements.getLast? with
      | none => none
      | some inner =>
        (modifyAt change path inner).map fun inner =>
          ms.replace p (.tables (elements.dropLast ++ [inner]))
    | _ => none

/-- Opens a table with a header. -/
def openTable (name : String) (ms : Members) : Option Members :=
  match ms.lookup name with
  | none => some (ms ++ [(name, .table .header [])])
  | some (.table .implied inner) => some (ms.replace name (.table .header inner))
  | _ => none

/-- Opens the next table of an array of tables. -/
def openElement (name : String) (ms : Members) : Option Members :=
  match ms.lookup name with
  | none => some (ms ++ [(name, .tables [[]])])
  | some (.tables elements) => some (ms.replace name (.tables (elements ++ [[]])))
  | _ => none

end Members

end CacheAside.Toml

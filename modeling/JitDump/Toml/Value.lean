/-! # Configuration documents

A document is a tree of tables. What may be added to a table later depends on how it came to be:
by a header, in braces, as the parent of a table with a header, or by a dotted key. -/

namespace JitDump.Toml

/-- How a table came to be. -/
inductive Origin where
  | header
  | braces
  | parent
  | dotted
deriving DecidableEq, Repr

inductive Value where
  | boolean (b : Bool)
  | number
  | text
  /-- A date, a time or both. -/
  | moment
  | array (items : List Value)
  | table (origin : Origin) (fields : List (String × Value))
  /-- The tables under one header in double brackets, the latest first. -/
  | tables (latest : List (String × Value)) (earlier : List (List (String × Value)))
deriving Repr

/-- The fields of a table in the order in which they came. -/
abbrev Fields := List (String × Value)

namespace Fields

def get? (fields : Fields) (key : String) : Option Value := fields.lookup key

/-- Gives a key a value, at its place if it has one and at the end if it has none. -/
def set (fields : Fields) (key : String) (v : Value) : Fields :=
  match fields with
  | [] => [(key, v)]
  | (k, old) :: rest => if k = key then (k, v) :: rest else (k, old) :: set rest key v

/-- Adds the value of a dotted key. The tables in front of its last part are found or made; the
last of them must be one that dotted keys made, and the key must be new. -/
def putDotted (fields : Fields) (path : List String) (key : String) (v : Value) : Option Fields :=
  match path with
  | [] => if (fields.get? key).isSome then none else some (fields.set key v)
  | part :: later =>
    let through (origin : Origin) (inner : Fields) : Option Fields :=
      if later.isEmpty && origin != .dotted then none else putDotted inner later key v
    match fields.get? part with
    | none => do some (fields.set part (.table .dotted (← through .dotted [])))
    | some (.table .header _) | some (.table .braces _) => none
    | some (.table origin inner) => do
      some (fields.set part (.table origin (← through origin inner)))
    | some (.tables latest earlier) => do
      some (fields.set part (.tables (← through .header latest) earlier))
    | some _ => none

/-- Changes what stands under a header. The tables in front of its last part are found or made,
and under a header in double brackets the latest table counts. -/
def under (fields : Fields) (path : List String) (key : String)
    (change : Option Value → Option Value) : Option Fields :=
  match path with
  | [] => do some (fields.set key (← change (fields.get? key)))
  | part :: later =>
    match fields.get? part with
    | none => do some (fields.set part (.table .parent (← under [] later key change)))
    | some (.table .braces _) => none
    | some (.table origin inner) => do
      some (fields.set part (.table origin (← under inner later key change)))
    | some (.tables latest earlier) => do
      some (fields.set part (.tables (← under latest later key change) earlier))
    | some _ => none

end Fields

end JitDump.Toml

import TypeResolution.Toml.Value

/-!
# Tables under construction

The lines of a document, and the pairs of an inline table, add to tables that are still open, and
what may be added depends on how a table came about: by a header, only on the way to a header's
table, or by a key with points. `Node` is a value together with this knowledge; `Node.toValue`
forgets it.
-/

namespace TypeResolution.Toml

/-- How a table came about. -/
inductive Origin where
  /-- a header or, for the whole document, its beginning -/
  | defined
  /-- only the way to another table in a header -/
  | implied
  /-- a key with points -/
  | dotted
  deriving DecidableEq

/-- A value or table under construction. -/
inductive Node where
  /-- a value, to which nothing can be added -/
  | leaf (v : Value)
  /-- a table -/
  | table (origin : Origin) (fields : List (String × Node))
  /-- a list of tables, of which only the last one is open -/
  | tables (closed : List Value) (last : List (String × Node))

/-- The named parts of a table under construction. -/
abbrev Fields := List (String × Node)

namespace Node

mutual
/-- The finished value. -/
def toValue : Node → Value
  | .leaf v => v
  | .table _ fields => .table (fieldValues fields)
  | .tables closed last => .array (closed ++ [.table (fieldValues last)])

/-- The finished values of named parts. -/
def fieldValues : List (String × Node) → List (String × Value)
  | [] => []
  | (k, n) :: rest => (k, toValue n) :: fieldValues rest
end

end Node

namespace Fields

/-- The part of a name. -/
def get? (fields : Fields) (k : String) : Option Node := List.lookup k fields

/-- The parts with another one under a name, in its old place or behind the others. -/
def put (k : String) (n : Node) : Fields → Fields
  | [] => [(k, n)]
  | (j, m) :: rest => if j = k then (k, n) :: rest else (j, m) :: put k n rest

/-- The finished table. -/
def toValue (fields : Fields) : Value := .table (Node.fieldValues fields)

/-! ## Pairs -/

/-- Adds a value under a key whose last part is `k`, where `path` is the way to it. The key must be
new. Its way may lead through tables that no header defines; the table at its end must itself have
come about by a key with points. -/
def addPair (k : String) (v : Value) : (path : List String) → Fields → Option Fields
  | [], fields =>
    match get? fields k with
    | none => some (fields ++ [(k, .leaf v)])
    | some _ => none
  | part :: path, fields =>
    match get? fields part with
    | none => (addPair k v path []).map fun sub => put part (.table .dotted sub) fields
    | some (.table .dotted sub) =>
      (addPair k v path sub).map fun sub => put part (.table .dotted sub) fields
    | some (.table .implied sub) =>
      if path = [] then none
      else (addPair k v path sub).map fun sub => put part (.table .implied sub) fields
    | some (.tables closed last) =>
      if path = [] then none
      else (addPair k v path last).map fun last => put part (.tables closed last) fields
    | some (.table .defined _) => none
    | some (.leaf _) => none

/-- A key with points and its value. -/
abbrev Pair := List String × Value

/-- Adds pairs in order. -/
def addPairs (pairs : List Pair) (fields : Fields) : Option Fields :=
  pairs.foldlM
    (fun fields p =>
      match p.1.getLast? with
      | none => none
      | some k => addPair k p.2 p.1.dropLast fields)
    fields

/-! ## Sections -/

/-- Changes the table at the end of a header's way. Missing tables on the way are made; of a list of
tables, the way goes through the last one. -/
def descend (change : Fields → Option Fields) : (path : List String) → Fields → Option Fields
  | [], fields => change fields
  | part :: path, fields =>
    match get? fields part with
    | none => (descend change path []).map fun sub => put part (.table .implied sub) fields
    | some (.table origin sub) =>
      (descend change path sub).map fun sub => put part (.table origin sub) fields
    | some (.tables closed last) =>
      (descend change path last).map fun last => put part (.tables closed last) fields
    | some (.leaf _) => none

/-- Defines the table `k` by a header and its pairs. Only a table that was on the way of an earlier
header may exist already. -/
def defineTable (k : String) (pairs : List Pair) (fields : Fields) : Option Fields :=
  match get? fields k with
  | none => (addPairs pairs []).map fun sub => put k (.table .defined sub) fields
  | some (.table .implied sub) =>
    (addPairs pairs sub).map fun sub => put k (.table .defined sub) fields
  | some _ => none

/-- Adds a table to the list `k` by a header and its pairs. -/
def appendTable (k : String) (pairs : List Pair) (fields : Fields) : Option Fields :=
  match get? fields k with
  | none => (addPairs pairs []).map fun sub => put k (.tables [] sub) fields
  | some (.tables closed last) =>
    (addPairs pairs []).map fun sub =>
      put k (.tables (closed ++ [Fields.toValue last]) sub) fields
  | some _ => none

end Fields

end TypeResolution.Toml

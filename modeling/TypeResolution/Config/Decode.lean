import TypeResolution.Config.Basic
import TypeResolution.Toml.Document
import TypeResolution.Toml.Shape

/-!
# Reading configurations from TOML

Every entry is read from a value of the right shape; a value of a wrong shape anywhere makes the
whole document unreadable, and names that mean nothing are ignored.

Some entries may be written in several ways. The ways are tried in a fixed order, and the first one
that has all of its own fields, well-formed, is taken, whatever else is there. The plain records
(types, arrays, patterns, producers) may also be written as lists of their fields in order; a list
has to go at least up to the last field that has no default, and what is behind the last field is
ignored.
-/

namespace TypeResolution

open Toml (Value)

/-! ## Fields -/

/-- The fields of a record as they are written: by name, or in the order of their declaration. -/
inductive Written where
  /-- by name -/
  | byName (fields : List (String × Value))
  /-- in order -/
  | inOrder (items : List Value)

namespace Written

/-- The fields of a record, if the value can be one. -/
def ofValue? : Value → Option Written
  | .table fields => some (.byName fields)
  | .datetime _ => some (.byName [])
  | .array items => some (.inOrder items)
  | _ => none

/-- The value of a field, given its name and its position. -/
def get? (w : Written) (name : String) (position : Nat) : Option Value :=
  match w with
  | .byName fields => List.lookup name fields
  | .inOrder items => items[position]?

/-- A field that has to be there. -/
def required {α : Type} (w : Written) (name : String) (position : Nat)
    (read : Value → Option α) : Option α :=
  (w.get? name position).bind read

/-- A field that has a default. -/
def withDefault {α : Type} (w : Written) (name : String) (position : Nat)
    (read : Value → Option α) (default : α) : Option α :=
  match w.get? name position with
  | none => some default
  | some v => read v

/-- A field that may be missing from fields by name, but not from fields in order. -/
def optional {α : Type} (w : Written) (name : String) (position : Nat)
    (read : Value → Option α) : Option (Option α) :=
  match w, w.get? name position with
  | _, some v => (read v).map some
  | .byName _, none => some none
  | .inOrder _, none => none

end Written

/-- A field of a table that has to be there. -/
def requiredField {α : Type} (fields : List (String × Value)) (name : String)
    (read : Value → Option α) : Option α :=
  (List.lookup name fields).bind read

/-- A field of a table that has a default. -/
def defaultField {α : Type} (fields : List (String × Value)) (name : String)
    (read : Value → Option α) (default : α) : Option α :=
  match List.lookup name fields with
  | none => some default
  | some v => read v

/-! ## Fixed names -/

/-- The variance of a name. -/
def varianceNamed? : String → Option Variance
  | "invariant" => some .invariant
  | "covariant" => some .covariant
  | "contravariant" => some .contravariant
  | "ambivariant" => some .ambivariant
  | _ => none

/-- The kind of a name. -/
def kindNamed? : String → Option Kind
  | "class" => some .classType
  | "interface" => some .interfaceType
  | "struct" => some .structType
  | _ => none

/-- The marker of a name. -/
def markerNamed? : String → Option Marker
  | "array" => some .array
  | "pointer" => some .pointer
  | "byref" => some .byRef
  | "value" => some .valueType
  | "reference" => some .referenceType
  | _ => none

/-- The direction of a name. -/
def directionNamed? : String → Option Direction
  | "any" => some .any
  | "following" => some .following
  | "preceding" => some .preceding
  | _ => none

/-- The kind of producer of a name. -/
def producerKindNamed? : String → Option ProducerKind
  | "constructor" => some .constructor
  | "factory" => some .factory
  | _ => none

/-- The variance of an entry that may have one. -/
def varianceField (fields : List (String × Value)) : Option Variance :=
  defaultField fields "variance" (Value.nameOf? varianceNamed?) .invariant

/-! ## Types -/

/-- A generic parameter: its name alone, or a table. -/
def ParamEntry.ofValue? (v : Value) : Option ParamEntry :=
  match v with
  | .string name => some { name }
  | _ =>
    v.fields?.bind fun fields => do
      let name ← requiredField fields "name" Value.text?
      let variance ← varianceField fields
      let bounds ← defaultField fields "bounds" Value.texts? []
      return { name, variance, bounds }

/-- A declared type. -/
def TypeEntry.ofValue? (v : Value) : Option TypeEntry := do
  let w ← Written.ofValue? v
  let name ← w.required "name" 0 Value.text?
  let kind ← w.withDefault "kind" 1 (Value.fieldName? kindNamed?) .classType
  let params ← w.withDefault "params" 2 (Value.listOf? ParamEntry.ofValue?) []
  let base ← w.optional "base" 3 Value.text?
  let interfaces ← w.withDefault "interfaces" 4 Value.texts? []
  return { name, kind, params, base, interfaces }

/-- What arrays inherit from. -/
def ArrayEntry.ofValue? (v : Value) : Option ArrayEntry := do
  let w ← Written.ofValue? v
  let base ← w.optional "base" 0 Value.text?
  let interfaces ← w.withDefault "interfaces" 1 Value.texts? []
  return { base, interfaces }

/-! ## Constraints -/

namespace ConstraintEntry

/-- The fields of a constraint whose own values are constraints again, read as lists of them. -/
abbrev Parts := List (String × Option (List ConstraintEntry))

/-- Constraints in a field that may be missing. -/
def partsOrNone (parts : Parts) (name : String) : Option (List ConstraintEntry) :=
  match List.lookup name parts with
  | none => some []
  | some found => found

/-- Constraints in a field that has to be there. -/
def requiredParts (parts : Parts) (name : String) : Option (List ConstraintEntry) :=
  (List.lookup name parts).join

/-- A constraint written as a table: a parameter, a definition, a type, a marker, a rank or a
negation, whichever comes first in this order. -/
def ofFields? (fields : List (String × Value)) (parts : Parts) : Option ConstraintEntry :=
  let param : Option ConstraintEntry := do
    return .param (← requiredField fields "param" Value.text?) (← varianceField fields)
  let definition : Option ConstraintEntry := do
    let name ← requiredField fields "def" Value.text?
    return .definition name (← partsOrNone parts "args") (← varianceField fields)
  let type : Option ConstraintEntry := do
    return .type (← requiredField fields "type" Value.text?) (← varianceField fields)
  let marker : Option ConstraintEntry := do
    let m ← requiredField fields "marker" (Value.nameOf? markerNamed?)
    return .marker m (← partsOrNone parts "args") (← varianceField fields)
  let rank : Option ConstraintEntry :=
    (requiredField fields "rank" (Value.natBelow? (Nat.pow 2 32))).map .rank
  let negation : Option ConstraintEntry := (requiredParts parts "not").map .negation
  param <|> definition <|> type <|> marker <|> rank <|> negation

mutual
/-- A constraint: a bare text, or a table. -/
def ofValue? : Value → Option ConstraintEntry
  | .string text => some (.short text)
  | .table fields => ofFields? fields (partsOf fields)
  | _ => none

/-- A list of constraints. -/
def listOfValue? : Value → Option (List ConstraintEntry)
  | .array items => ofValues? items
  | _ => none

/-- Constraints one by one, all of which must be readable. -/
def ofValues? : List Value → Option (List ConstraintEntry)
  | [] => some []
  | v :: vs =>
    match ofValue? v with
    | none => none
    | some k => (ofValues? vs).map (k :: ·)

/-- Each field read as a list of constraints. -/
def partsOf : List (String × Value) → Parts
  | [] => []
  | (name, v) :: rest => (name, listOfValue? v) :: partsOf rest
end

end ConstraintEntry

/-- A slot: a list of constraints, a table with such a list, or a single constraint. -/
def SlotEntry.ofValue? (v : Value) : Option SlotEntry :=
  let many : Option SlotEntry :=
    (ConstraintEntry.listOfValue? v).map fun constraints => { constraints }
  let detailed : Option SlotEntry :=
    v.fields?.bind fun fields => do
      let constraints ← requiredField fields "constraints" ConstraintEntry.listOfValue?
      let definitive ← defaultField fields "definitive" Value.flag? false
      return { constraints, definitive }
  let one : Option SlotEntry :=
    (ConstraintEntry.ofValue? v).map fun constraint => { constraints := [constraint] }
  many <|> detailed <|> one

/-! ## Patterns -/

/-- A parameter of a producer: a plain name, or a directive. -/
def ArgEntry.ofValue? (v : Value) : Option ArgEntry :=
  match v with
  | .string "optional" => some .optional
  | .string "required" => some .required
  | _ =>
    v.fields?.bind fun fields => do
      let types ← requiredField fields "specialize" ConstraintEntry.listOfValue?
      let direction ← defaultField fields "direction" (Value.nameOf? directionNamed?) .any
      let isGlobal ← defaultField fields "global" Value.flag? false
      let definitive ← defaultField fields "definitive" Value.flag? false
      let isSequence ← defaultField fields "sequence" Value.flag? false
      let hasDefault ← defaultField fields "default" Value.flag? false
      return .specialize types direction isGlobal definitive isSequence hasDefault

/-- A producer. -/
def ProducerEntry.ofValue? (v : Value) : Option ProducerEntry := do
  let w ← Written.ofValue? v
  let kind ← w.withDefault "kind" 0 (Value.fieldName? producerKindNamed?) .constructor
  let definitive ← w.withDefault "definitive" 1 Value.flag? false
  let params ← w.withDefault "params" 2 (Value.listOf? ArgEntry.ofValue?) []
  let fail ← w.optional "fail" 3 Value.text?
  let yields ← w.withDefault "yields" 4 (Value.natBelow? (Nat.pow 2 64)) 1
  return { kind, definitive, params, fail, yields }

/-- A pattern. -/
def PatternEntry.ofValue? (v : Value) : Option PatternEntry := do
  let w ← Written.ofValue? v
  let template ← w.required "template" 0 Value.text?
  let definitive ← w.withDefault "definitive" 1 Value.flag? false
  let slots ← w.withDefault "slots" 2 (Value.listOf? SlotEntry.ofValue?) []
  let producers ← w.withDefault "producers" 3 (Value.listOf? ProducerEntry.ofValue?) []
  return { template, definitive, slots, producers }

namespace Config

/-- A field of the document that may be missing. -/
def optionalField {α : Type} (fields : List (String × Value)) (name : String)
    (read : Value → Option α) : Option (Option α) :=
  match List.lookup name fields with
  | none => some none
  | some v => (read v).map some

/-- The configuration that a document holds. -/
def ofValue? (v : Value) : Option Config :=
  v.fields?.bind fun fields => do
    let types ← defaultField fields "types" (Value.listOf? TypeEntry.ofValue?) []
    let arrays ← optionalField fields "arrays" ArrayEntry.ofValue?
    let patterns ← defaultField fields "patterns" (Value.listOf? PatternEntry.ofValue?) []
    let fallback ← optionalField fields "fallback" PatternEntry.ofValue?
    let expectedFailures ← optionalField fields "expected_failures" Value.texts?
    return { types, arrays, patterns, fallback, expectedFailures }

/-- The configuration that a text of TOML holds. -/
def parse? (src : String) : Option Config := (Toml.parse? src).bind ofValue?

end Config

end TypeResolution

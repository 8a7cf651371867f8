import TypeResolution.Definition
import TypeResolution.Ty.Arguments

/-!
# Markers: definitions that stand in for structural types

Arrays, pointers and by-reference types have no definition that a constraint could name. Eight
definitions at the front of every catalog stand in for them:

* `ArrayMarker<TRank, T>` for arrays, with the rank encoded as a type;
* `PointerMarker<T>` and `ByRefMarker<T>`;
* `ValueTypeMarker` and `ReferenceTypeMarker`, which accept any value or reference type;
* `IRank`, `RankZero` and `RankSucc<N>`, out of which ranks are built in unary.

`nominalForm` writes a structural type over its stand-in and `structuralForm` reads it back.
-/

namespace TypeResolution

/-- What a stand-in definition stands for. -/
inductive Marker where
  /-- an array, over an encoded rank and an element type -/
  | array
  /-- a pointer -/
  | pointer
  /-- a by-reference type -/
  | byRef
  /-- any value type -/
  | valueType
  /-- any reference type -/
  | referenceType
  deriving DecidableEq

/-! ## The stand-in definitions -/

/-- `IRank`, which all rank encodings implement. -/
def rankInterface : DefIndex := 0

/-- `RankZero`, the encoding of no dimension. -/
def rankZero : DefIndex := 1

/-- `RankSucc<N>`, the encoding of one dimension more. -/
def rankSucc : DefIndex := 2

namespace Marker

/-- The number of the definition that stands in for a marker. -/
def definition : Marker → DefIndex
  | .array => 3
  | .pointer => 4
  | .byRef => 5
  | .valueType => 6
  | .referenceType => 7

/-- The marker that a definition stands in for. -/
def ofDefinition? : DefIndex → Option Marker
  | 3 => some .array
  | 4 => some .pointer
  | 5 => some .byRef
  | 6 => some .valueType
  | 7 => some .referenceType
  | _ => none

theorem ofDefinition?_definition (m : Marker) : ofDefinition? m.definition = some m := by
  cases m <;> rfl

/-- The number of arguments of a stand-in. -/
def arity : Marker → Nat
  | .array => 2
  | .pointer => 1
  | .byRef => 1
  | .valueType => 0
  | .referenceType => 0

/-- Whether the marker looks at the kind of a candidate alone. -/
def isKind : Marker → Bool
  | .valueType => true
  | .referenceType => true
  | _ => false

end Marker

/-- A rank argument has to be a rank encoding. -/
def rankParam (name : String) : TypeParam :=
  { name, bounds := [.implements (.nominal rankInterface)] }

/-- The definitions that every catalog begins with, in the order of their numbers. -/
def standIns : List Definition :=
  [ { name := "IRank", kind := .interfaceType },
    { name := "RankZero", kind := .structType, interfaces := [.nominal rankInterface] },
    { name := "RankSucc`1", kind := .structType, params := [rankParam "N"],
      interfaces := [.nominal rankInterface] },
    { name := "ArrayMarker`2", params := [rankParam "TRank", { name := "T" }] },
    { name := "PointerMarker`1", params := [{ name := "T" }] },
    { name := "ByRefMarker`1", params := [{ name := "T" }] },
    { name := "ValueTypeMarker" },
    { name := "ReferenceTypeMarker" } ]

theorem standIns_arity (m : Marker) :
    (standIns[m.definition]?).map Definition.arity = some m.arity := by
  cases m <;> rfl

/-! ## Ranks as types -/

/-- A rank in unary: one `RankSucc` for each dimension around `RankZero`. -/
def rankEncoding : Nat → Ty
  | 0 => .nominal rankZero
  | n + 1 => .named rankSucc [rankEncoding n]

/-- Reads an encoded rank, or `none` if the type encodes none. -/
def readRank? : Ty → Option Nat
  | .named d [] => if d = rankZero then some 0 else none
  | .named d [t] => if d = rankSucc then (readRank? t).map (· + 1) else none
  | _ => none

theorem readRank?_rankEncoding (n : Nat) : readRank? (rankEncoding n) = some n := by
  induction n with
  | zero => rfl
  | succ n ih => simp [rankEncoding, readRank?, ih]

/-! ## The nominal view of a type -/

namespace Ty

/-- The definition that a type is an instance of; structural types answer with their stand-in. -/
def head? : Ty → Option DefIndex
  | .param _ => none
  | .named d _ => some d
  | .array .. => some Marker.array.definition
  | .pointer _ => some Marker.pointer.definition
  | .byRef _ => some Marker.byRef.definition

/-- The arguments that `head?` is applied to; an array gives its encoded rank and its element. -/
def headArgs : Ty → List Ty
  | .param _ => []
  | .named _ ts => ts
  | .array n t => [rankEncoding n, t]
  | .pointer t => [t]
  | .byRef t => [t]

/-- A structural type written over its stand-in; other types stay as they are. -/
def nominalForm : Ty → Ty
  | .array n t => .named Marker.array.definition [rankEncoding n, t]
  | .pointer t => .named Marker.pointer.definition [t]
  | .byRef t => .named Marker.byRef.definition [t]
  | t => t

/-- The structural type that a stand-in over some arguments denotes, or `none` if the definition
or the number of arguments is not that of a structural stand-in. An array needs at least one
dimension. -/
def structural? : DefIndex → List Ty → Option (Except ArgumentError Ty)
  | d, [rank, elem] =>
    if d = Marker.array.definition then
      match readRank? rank with
      | some (n + 1) => some (.ok (.array (n + 1) elem))
      | _ => some (.error (.malformedRank rank))
    else none
  | d, [elem] =>
    if d = Marker.pointer.definition then some (.ok (.pointer elem))
    else if d = Marker.byRef.definition then some (.ok (.byRef elem))
    else none
  | _, _ => none

/-- Reads a structural type back from its stand-in; other types stay as they are. -/
def structuralForm : Ty → Except ArgumentError Ty
  | .named d ts =>
    match Marker.ofDefinition? d with
    | some m =>
      if m.isKind then .ok (.named d ts)
      else
        match checkArgs d m.arity ts with
        | .error e => .error e
        | .ok () => (structural? d ts).getD (.ok (.named d ts))
    | none => .ok (.named d ts)
  | t => .ok t

end Ty

end TypeResolution

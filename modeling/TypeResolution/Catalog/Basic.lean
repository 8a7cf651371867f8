import TypeResolution.Marker

/-!
# The catalog: the universe of declared types

A catalog numbers its definitions in the order of their registration. The stand-ins of
`TypeResolution.Marker` come first and keep their names, kinds and parameters; this is a field of
the structure, so a stand-in's number means the same in every catalog. Arrays have no definition of
their own, so what they inherit from is recorded beside the definitions.
-/

namespace TypeResolution

/-- Declared types, and what all arrays inherit from. -/
structure Catalog where
  /-- the definitions in registration order -/
  defs : List Definition
  /-- the base of every array -/
  arrayBase : Option Ty := none
  /-- the interfaces of arrays with one dimension, parameter 0 being the element -/
  arrayInterfaces : List Ty := []
  /-- the stand-ins come first -/
  standIns_first :
    (defs.take standIns.length).map Definition.signature = standIns.map Definition.signature

namespace Catalog

/-- The catalog of some definitions behind the stand-ins. -/
def ofDefs (ds : List Definition) : Catalog where
  defs := standIns ++ ds
  standIns_first := by simp

/-- The catalog with the stand-ins alone. -/
def empty : Catalog := ofDefs []

theorem standIns_le (c : Catalog) : standIns.length ≤ c.defs.length := by
  have h := congrArg List.length c.standIns_first
  simp only [List.length_map, List.length_take] at h
  omega

/-- The definition of a number. Numbers that were never given out answer with an empty class. -/
def definition (c : Catalog) (d : DefIndex) : Definition := c.defs.getD d { name := "" }

/-- The name of a definition. -/
def name (c : Catalog) (d : DefIndex) : String := (c.definition d).name

/-- The number of parameters of a definition. -/
def arity (c : Catalog) (d : DefIndex) : Nat := (c.definition d).arity

/-- Definitions with their numbers, in registration order. -/
def entries (c : Catalog) : List (Definition × DefIndex) := c.defs.zipIdx

/-- The definition of that very name; of two, the one registered last. -/
def lookup? (c : Catalog) (name : String) : Option DefIndex :=
  (c.entries.reverse.find? (·.1.name == name)).map (·.2)

/-- A definition applied to its own parameters. -/
def openInstance (c : Catalog) (d : DefIndex) : Ty := .named d ((List.range (c.arity d)).map .param)

/-! ## Registration -/

/-- The number that the next definition gets. -/
def nextIndex (c : Catalog) : DefIndex := c.defs.length

/-- Registers a definition under the number `nextIndex`. -/
def add (c : Catalog) (d : Definition) : Catalog where
  defs := c.defs ++ [d]
  arrayBase := c.arrayBase
  arrayInterfaces := c.arrayInterfaces
  standIns_first := by rw [List.take_append_of_le_length c.standIns_le, c.standIns_first]

/-- Gives a registered definition another base, if there is one, and further interfaces. -/
def extend (c : Catalog) (d : DefIndex) (base : Option Ty) (interfaces : List Ty) : Catalog where
  defs := c.defs.modify d (·.extend base interfaces)
  arrayBase := c.arrayBase
  arrayInterfaces := c.arrayInterfaces
  standIns_first := by
    rw [← c.standIns_first]
    apply List.ext_getElem?
    intro i
    simp only [List.getElem?_map, List.getElem?_take, List.getElem?_modify]
    split
    · cases h : c.defs[i]? with
      | none => simp
      | some e => by_cases hd : d = i <;> simp [hd, Definition.signature_extend]
    · rfl

/-- Declares what arrays inherit from, in place of what was declared before. -/
def withArrays (c : Catalog) (base : Option Ty) (interfaces : List Ty) : Catalog :=
  { c with arrayBase := base, arrayInterfaces := interfaces }

/-! ## Kinds -/

/-- Whether a type is a value type: an instance of a struct. -/
def isValueType (c : Catalog) : Ty → Bool
  | .named d _ => (c.definition d).kind == .structType
  | _ => false

/-- Whether a type is a reference type: an instance of a class or an interface, or an array. -/
def isReferenceType (c : Catalog) : Ty → Bool
  | .named d _ => (c.definition d).kind != .structType
  | .array .. => true
  | _ => false

end Catalog

end TypeResolution

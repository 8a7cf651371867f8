import TypeResolution.Config.Basic
import TypeResolution.Expr.Reading

/-!
# The catalog of a configuration

Types may mention each other in any order, so they are registered first, by name, kind and
parameters, and read afterwards: base, interfaces and bounds of one type after another, and then
what arrays inherit from. Only names and numbers of parameters matter for the reading.
-/

namespace TypeResolution

/-- Why a configuration cannot be used. -/
inductive BuildError where
  /-- it is no document of the right shape -/
  | unreadable
  /-- a text in it denotes no type -/
  | type (error : ReadingError)
  /-- two types have one name -/
  | duplicateType (name : String)
  /-- a pattern is not valid -/
  | pattern (template : String) (error : ResolutionError)

/-- The message of an error; an unreadable document has none of its own. -/
def BuildError.message? (c : Catalog) : BuildError → Option String
  | .unreadable => none
  | .type error => some (error.message c)
  | .duplicateType name => some ("type " ++ quoted name ++ " is declared twice")
  | .pattern template _ => some ("invalid pattern " ++ quoted template)

/-! ## Registering -/

/-- The name that a type is registered under: generic types get an arity suffix, unless their name
has a back-tick already. -/
def TypeEntry.registeredName (e : TypeEntry) : String :=
  if e.params.isEmpty || e.name.contains aritySeparator then e.name
  else nameWithArity e.name e.params.length

/-- A parameter without its bounds. -/
def ParamEntry.header (p : ParamEntry) : TypeParam := { name := p.name, variance := p.variance }

/-- A type without the types that it mentions. -/
def TypeEntry.header (e : TypeEntry) : Definition :=
  { name := e.registeredName, kind := e.kind, params := e.params.map ParamEntry.header }

/-- Registers the headers of types. No name may be taken already. -/
def Config.registerHeaders (c : Catalog) : List TypeEntry → Except BuildError Catalog
  | [] => .ok c
  | e :: es =>
    match c.lookup? e.registeredName with
    | some _ => .error (.duplicateType e.registeredName)
    | none => Config.registerHeaders (c.add e.header) es

/-! ## Reading -/

/-- Reads a type inside a definition. -/
def Config.readType (c : Catalog) (src : String) : Except BuildError Ty :=
  (c.readOpen src).mapError .type

/-- Reads a type that may be missing. -/
def Config.readType? (c : Catalog) : Option String → Except BuildError (Option Ty)
  | none => .ok none
  | some src => (Config.readType c src).map some

/-- Reads a bound. -/
def Config.readBound (c : Catalog) (src : String) : Except BuildError Bound :=
  if src = "class" then .ok .referenceType
  else if src = "struct" then .ok .valueType
  else (Config.readType c src).map .implements

/-- Reads a parameter with its bounds. -/
def ParamEntry.read (c : Catalog) (p : ParamEntry) : Except BuildError TypeParam :=
  (p.bounds.mapM (Config.readBound c)).map fun bounds => { p.header with bounds }

/-- Reads a type with all that it mentions. -/
def TypeEntry.read (c : Catalog) (e : TypeEntry) : Except BuildError Definition := do
  let base ← Config.readType? c e.base
  let interfaces ← e.interfaces.mapM (Config.readType c)
  let params ← e.params.mapM (ParamEntry.read c)
  return { e.header with params, base, interfaces }

/-- The catalog of a configuration. -/
def Config.catalog (config : Config) : Except BuildError Catalog := do
  let headers ← Config.registerHeaders .empty config.types
  let defs ← config.types.mapM (TypeEntry.read headers)
  match config.arrays with
  | none => return .ofDefs defs
  | some arrays =>
    let base ← Config.readType? headers arrays.base
    let interfaces ← arrays.interfaces.mapM (Config.readType headers)
    return (Catalog.ofDefs defs).withArrays base interfaces

end TypeResolution

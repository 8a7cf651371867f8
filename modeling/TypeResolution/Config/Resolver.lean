import TypeResolution.CallRecord
import TypeResolution.Config.Catalog
import TypeResolution.Resolver.Basic

/-!
# The resolver of a configuration

Over the catalog of a configuration, all patterns are built in order, then the fallback; only then
are they registered, which is when they are validated, the fallback last.
-/

namespace TypeResolution

/-- Building from a configuration: something that may be wrong, and may need fuel to find out. -/
abbrev Building (α : Type) := ExceptT BuildError Option α

/-- Reads a closed type. -/
def Config.readClosedType (c : Catalog) (fuel : Nat) (src : String) : Building Ty :=
  ExceptT.mk ((c.readClosed fuel src).map (Except.mapError .type))

/-! ## Constraints -/

namespace ConstraintEntry

mutual
/-- The constraint that an entry describes. -/
def build (c : Catalog) (fuel : Nat) : ConstraintEntry → Building Constraint
  | .short text => if text = "_" then pure .wildcard else pure (.named text)
  | .param name v => pure (.param name v)
  | .definition name args v =>
    match c.find? name (some args.length) with
    | none => throw (.type (.unknown name args.length))
    | some d => return .instanceOf d v (← buildAll c fuel args)
  | .type src v => do
    let t ← Config.readClosedType c fuel src
    return (Constraint.ofType c t).withVariance v
  | .marker m args v => return .instanceOf m.definition v (← buildAll c fuel args)
  | .rank n => pure (.rank n)
  | .negation inner => return .negation (← buildAll c fuel inner)

/-- The constraints that entries describe, one by one. -/
def buildAll (c : Catalog) (fuel : Nat) : List ConstraintEntry → Building (List Constraint)
  | [] => pure []
  | e :: es => return (← build c fuel e) :: (← buildAll c fuel es)
end

end ConstraintEntry

/-- The slot that an entry describes. -/
def SlotEntry.build (c : Catalog) (fuel : Nat) (e : SlotEntry) : Building Slot := do
  let constraints ← ConstraintEntry.buildAll c fuel e.constraints
  return { constraints, definitive := e.definitive }

/-! ## Producers -/

/-- The parameter that an entry describes. -/
def ArgEntry.build (c : Catalog) (fuel : Nat) : ArgEntry → Building Parameter
  | .optional => pure .optional
  | .required => pure .required
  | .specialize types direction isGlobal definitive isSequence hasDefault => do
    let types ← ConstraintEntry.buildAll c fuel types
    return .specialize { types, direction, isGlobal, definitive, isSequence } hasDefault

/-- What a configured producer does: it records its call, unless it is configured to fail. -/
def ProducerEntry.call (c : Catalog) (e : ProducerEntry) (t : Ty)
    (args : List (Argument CallRecord)) : Production CallRecord (Except Failure CallRecord) :=
  match e.fail with
  | some category => pure (.error ⟨.ofName category, "configured to fail"⟩)
  | none => CallRecord.record c t args

/-- The producer that an entry describes. -/
def ProducerEntry.build (c : Catalog) (fuel : Nat) (e : ProducerEntry) :
    Building (Producer CallRecord) := do
  let params ← e.params.mapM (ArgEntry.build c fuel)
  match e.kind with
  | .constructor => return .ofConstructor params e.definitive (e.call c)
  | .factory =>
    return .ofFactory params e.definitive fun t args => do
      return (← e.call c t args).map fun b => .many (List.replicate e.yields b)

/-- The producer of a pattern that declares none: it takes no arguments. -/
def Config.soleConstructor (c : Catalog) : Producer CallRecord :=
  .ofConstructor [] false (CallRecord.record c)

/-! ## Patterns -/

/-- The template that a text denotes: the definition of a bare name, whatever its arity, or else a
closed type. -/
def Config.readTemplate (c : Catalog) (fuel : Nat) (src : String) : Building Template := do
  match Expr.parse src with
  | .error e => throw (.type (.parse e))
  | .ok e =>
    let definition? :=
      match e with
      | .named name [] => c.find? name none
      | _ => none
    match definition? with
    | some d => return .definition d
    | none => return .closed (← Config.readClosedType c fuel src)

/-- The pattern that an entry describes. -/
def PatternEntry.build (c : Catalog) (fuel : Nat) (e : PatternEntry) :
    Building (Pattern CallRecord) := do
  let template ← Config.readTemplate c fuel e.template
  let slots ← e.slots.mapM (SlotEntry.build c fuel)
  let producers ← e.producers.mapM (ProducerEntry.build c fuel)
  let producers := if producers.isEmpty then [Config.soleConstructor c] else producers
  return { template, slots, producers, definitive := e.definitive }

/-- Registers patterns that have been built, each with its entry. -/
def Config.registerPatterns (r : Resolver CallRecord) :
    List (PatternEntry × Pattern CallRecord) → Except BuildError (Resolver CallRecord)
  | [] => .ok r
  | (e, p) :: rest =>
    match r.register p with
    | .error error => .error (.pattern e.template error)
    | .ok r => Config.registerPatterns r rest

/-- Registers the fallback, if there is one. -/
def Config.registerFallback (r : Resolver CallRecord) :
    Option (PatternEntry × Pattern CallRecord) → Except BuildError (Resolver CallRecord)
  | none => .ok r
  | some (e, p) => (r.registerFallback (some p)).mapError (.pattern e.template)

/-- The resolver of a configuration over its catalog. -/
def Config.resolver (config : Config) (c : Catalog) (fuel : Nat) :
    Building (Resolver CallRecord) := do
  let patterns ← config.patterns.mapM fun e => return (e, ← e.build c fuel)
  let fallback ← config.fallback.mapM fun e => return (e, ← e.build c fuel)
  let r ← ExceptT.mk (some (Config.registerPatterns { catalog := c } patterns))
  let r ← ExceptT.mk (some (Config.registerFallback r fallback))
  match config.expectedFailures with
  | none => return r
  | some names => return r.expecting (some (names.map Failure.Category.ofName))

end TypeResolution

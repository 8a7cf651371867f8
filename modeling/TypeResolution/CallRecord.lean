import TypeResolution.Catalog.Rendering
import TypeResolution.Pattern.Producer

/-!
# Records of calls

The values that a configuration's producers build: a record of the closed type that was asked for
and of the arguments of the call. Sequences are taken to their end while the record is made, so an
error in a nested resolution is a failure of the call.
-/

namespace TypeResolution

mutual
/-- A record of one call of a producer. -/
inductive CallRecord where
  /-- the closed type and the arguments -/
  | mk (ty : Ty) (args : List RecordedArg)

/-- A recorded argument. -/
inductive RecordedArg where
  /-- a value -/
  | value (b : CallRecord)
  /-- the producer's default -/
  | default
  /-- all values of a sequence -/
  | sequence (bs : List CallRecord)
end

namespace CallRecord

/-! ## Recording -/

/-- The record of one argument at a position, or the failure that recording it ran into. -/
def recordArg (c : Catalog) (position : Nat) :
    Argument CallRecord → Production CallRecord (Except Failure RecordedArg)
  | .value b => pure (.ok (.value b))
  | .default => pure (.ok .default)
  | .sequence _ => do
    let d ← Production.driving position Search.takeAll
    match d.ending with
    | .error e => return .error (e.asFailure c)
    | .ok _ => return .ok (.sequence d.values)

/-- The records of the arguments from a position on, or the first failure. -/
def recordArgs (c : Catalog) (position : Nat) :
    List (Argument CallRecord) → Production CallRecord (Except Failure (List RecordedArg))
  | [] => pure (.ok [])
  | arg :: args => do
    match ← recordArg c position arg with
    | .error f => return .error f
    | .ok b => return (← recordArgs c (position + 1) args).map (b :: ·)

/-- The record of a call. -/
def record (c : Catalog) (t : Ty) (args : List (Argument CallRecord)) :
    Production CallRecord (Except Failure CallRecord) := do
  return (← recordArgs c 0 args).map (.mk t)

/-! ## Writing -/

/-- Texts in parentheses, or nothing if there are none. -/
def parenthesized : List String → String
  | [] => ""
  | texts => "(" ++ commaSeparated texts ++ ")"

mutual
/-- A built value as it is written, for instance `Wrapper<int>(Match<int>, default, [a, b])`. -/
def render (c : Catalog) : CallRecord → String
  | .mk t args => c.render t ++ parenthesized (renderArgs c args)

/-- Recorded arguments as they are written. -/
def renderArgs (c : Catalog) : List RecordedArg → List String
  | [] => []
  | arg :: args => renderArg c arg :: renderArgs c args

/-- A recorded argument as it is written. -/
def renderArg (c : Catalog) : RecordedArg → String
  | .value b => render c b
  | .default => "default"
  | .sequence bs => "[" ++ commaSeparated (renderAll c bs) ++ "]"

/-- CallRecord values as they are written, one by one. -/
def renderAll (c : Catalog) : List CallRecord → List String
  | [] => []
  | b :: bs => render c b :: renderAll c bs
end

end CallRecord

end TypeResolution

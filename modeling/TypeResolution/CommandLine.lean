import TypeResolution.Config.Decode
import TypeResolution.Config.Resolver
import TypeResolution.Resolver.Resolution

/-!
# The command line

`-c FILE` names the catalog file, `-a` asks for all values instead of the first, `-v` for a report
beside the values; everything else is a candidate, and so is all that stands behind `--`. Letters
of flags may be written together, and options may follow candidates.

Reading the arguments and answering them are pure; the outer layer fetches the file in between.
-/

namespace TypeResolution

/-- What the program was asked to do. -/
structure Options where
  /-- the catalog file -/
  catalog : String
  /-- whether all values are wanted -/
  all : Bool
  /-- whether a report is wanted -/
  verbose : Bool
  /-- the candidates as they were written -/
  candidates : List String

/-- What is wrong with the arguments. -/
inductive UsageError where
  /-- there is no such flag -/
  | unknownFlag (arg : String)
  /-- a flag is given twice -/
  | repeatedFlag (name : String)
  /-- the catalog has no value -/
  | missingValue
  /-- the catalog is not given -/
  | missingCatalog

/-- The message of a usage error. -/
def UsageError.message : UsageError → String
  | .unknownFlag arg => "unexpected argument " ++ quoted arg
  | .repeatedFlag name => "the argument " ++ quoted name ++ " cannot be used multiple times"
  | .missingValue => "a value is required for `--catalog`"
  | .missingCatalog => "the argument `--catalog` is required"

namespace Options

/-! ## Reading the arguments -/

/-- What has been read of the arguments. -/
structure Draft where
  /-- the catalog file, if it has been given -/
  catalog : Option String := none
  /-- whether all values are wanted -/
  all : Bool := false
  /-- whether a report is wanted -/
  verbose : Bool := false
  /-- the candidates so far -/
  candidates : List String := []

namespace Draft

/-- Takes the catalog's value. -/
def withCatalog (d : Draft) (value : String) : Except UsageError Draft :=
  if value.isEmpty then .error .missingValue
  else if d.catalog.isSome then .error (.repeatedFlag "--catalog")
  else .ok { d with catalog := some value }

/-- Takes the flag for all values. -/
def withAll (d : Draft) : Except UsageError Draft :=
  if d.all then .error (.repeatedFlag "--all") else .ok { d with all := true }

/-- Takes the flag for a report. -/
def withVerbose (d : Draft) : Except UsageError Draft :=
  if d.verbose then .error (.repeatedFlag "--verbose") else .ok { d with verbose := true }

/-- Takes a candidate. -/
def withCandidate (d : Draft) (text : String) : Draft :=
  { d with candidates := d.candidates ++ [text] }

/-- Takes letters written together. The catalog's value is what follows its letter, without an
equals sign in front; `true` means that it is the next argument. -/
def withLetters (d : Draft) : List Char → Except UsageError (Draft × Bool)
  | [] => .ok (d, false)
  | 'a' :: cs => do withLetters (← d.withAll) cs
  | 'v' :: cs => do withLetters (← d.withVerbose) cs
  | 'c' :: [] => .ok (d, true)
  | 'c' :: '=' :: cs => do return (← d.withCatalog (String.ofList cs), false)
  | 'c' :: cs => do return (← d.withCatalog (String.ofList cs), false)
  | c :: _ => .error (.unknownFlag ("-" ++ String.singleton c))

/-- Takes a flag with a long name; `true` means that the catalog's value is the next argument. -/
def withName (d : Draft) (name : List Char) : Except UsageError (Draft × Bool) :=
  let unknown : UsageError := .unknownFlag ("--" ++ String.ofList name)
  match name.span (· != '=') with
  | (flag, []) =>
    if flag = "catalog".toList then .ok (d, true)
    else if flag = "all".toList then do return (← d.withAll, false)
    else if flag = "verbose".toList then do return (← d.withVerbose, false)
    else .error unknown
  | (flag, _ :: value) =>
    if flag = "catalog".toList then do return (← d.withCatalog (String.ofList value), false)
    else .error unknown

end Draft

/-- How an argument looks. -/
inductive Look where
  /-- two dashes alone: only candidates follow -/
  | separator
  /-- a flag with a long name -/
  | name (cs : List Char)
  /-- letters of flags -/
  | letters (cs : List Char)
  /-- anything else -/
  | plain

/-- The look of an argument. A single dash is no flag. -/
def look (arg : String) : Look :=
  match arg.toList with
  | ['-'] => .plain
  | ['-', '-'] => .separator
  | '-' :: '-' :: cs => .name cs
  | '-' :: cs => .letters cs
  | _ => .plain

/-- Takes arguments from left to right; while `awaiting`, the catalog's value has to come. -/
def draft (d : Draft) (awaiting : Bool) : List String → Except UsageError Draft
  | [] => if awaiting then .error .missingValue else .ok d
  | arg :: args =>
    match look arg, awaiting with
    | .plain, true => do draft (← d.withCatalog arg) false args
    | .plain, false => draft (d.withCandidate arg) false args
    | _, true => .error .missingValue
    | .separator, false => .ok { d with candidates := d.candidates ++ args }
    | .name cs, false => do
      let (d, awaiting) ← d.withName cs
      draft d awaiting args
    | .letters cs, false => do
      let (d, awaiting) ← d.withLetters cs
      draft d awaiting args

/-- The options that arguments mean. -/
def parse (args : List String) : Except UsageError Options := do
  let d ← draft {} false args
  match d.catalog with
  | none => .error .missingCatalog
  | some catalog =>
    return { catalog, all := d.all, verbose := d.verbose, candidates := d.candidates }

end Options

/-! ## Answering -/

/-- What the program prints and how it exits. -/
structure Report where
  /-- the lines of the standard output -/
  output : List String := []
  /-- the lines of the report -/
  notes : List String := []
  /-- what went wrong, if anything did -/
  complaint : Option String := none
  /-- the exit code -/
  exitCode : Nat

namespace Report

/-- The report of bad arguments. -/
def ofUsage (e : UsageError) : Report := { complaint := some e.message, exitCode := 2 }

/-- The report of anything else that went wrong. -/
def failure (notes : List String) (message : String) : Report :=
  { notes, complaint := some message, exitCode := 1 }

/-- The complaint where the fuel ran out. -/
def outOfFuel : String := "the question has no answer within the limit of steps"

/-- The message of a configuration's error. -/
def configMessage (c : Catalog) (e : BuildError) : String :=
  (e.message? c).getD "the catalog file is not readable"

end Report

/-- Reads candidates in order, up to the first that is none. -/
def readCandidates (c : Catalog) (fuel : Nat) :
    List String → Fueled (Except ReadingError (List Ty))
  | [] => some (.ok [])
  | src :: srcs =>
    match c.readClosed fuel src with
    | none => none
    | some (.error e) => some (.error e)
    | some (.ok t) => (readCandidates c fuel srcs).map (Except.map (t :: ·))

/-- The values that are wanted: all, or at most the first. -/
def wantedValues (r : Resolver CallRecord) (fuel : Nat) (all : Bool) (candidates : List Ty) :
    Fueled (Except ResolutionError (List CallRecord)) :=
  if all then r.allValues fuel candidates
  else (r.firstValue fuel candidates).map (Except.map Option.toList)

/-- The report of a resolution. -/
def Options.answer (o : Options) (r : Resolver CallRecord) (fuel : Nat) : Report :=
  let c := r.catalog
  match readCandidates c fuel o.candidates with
  | none => .failure [] Report.outOfFuel
  | some (.error e) => .failure [] (e.message c)
  | some (.ok candidates) =>
    let note := "candidates: [" ++ commaSeparated (candidates.map c.render) ++ "]"
    let notes := if o.verbose then [note] else []
    match wantedValues r fuel o.all candidates with
    | none => .failure notes Report.outOfFuel
    | some (.error e) => .failure notes (e.message c)
    | some (.ok values) =>
      let count := "resolved " ++ toString values.length ++ " value(s)"
      let notes := if o.verbose then notes ++ [count] else notes
      if values.isEmpty then { notes := notes ++ ["no pattern matched"], exitCode := 1 }
      else { output := values.map (CallRecord.render c), notes, exitCode := 0 }

/-- The report for the contents of the catalog file, or for a file that cannot be read. -/
def Options.run (o : Options) (fuel : Nat) : (contents : Option String) → Report
  | none => .failure [] ("failed to read " ++ o.catalog)
  | some contents =>
    match Config.parse? contents with
    | none => .failure [] (Report.configMessage .empty .unreadable)
    | some config =>
      match config.catalog with
      | .error e => .failure [] (Report.configMessage .empty e)
      | .ok c =>
        match (config.resolver c fuel).run with
        | none => .failure [] Report.outOfFuel
        | some (.error e) => .failure [] (Report.configMessage c e)
        | some (.ok r) => o.answer r fuel

end TypeResolution

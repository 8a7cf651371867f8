import TypeResolution.Resolver.Calls
import TypeResolution.Unification.Match

/-!
# Resolution

A resolution goes through the patterns of a window in order. For each, every set of bindings under
which the slots accept the candidates closes the template to a type, and the type's instances are
the values found. `search` resolves candidates with all patterns and, if they give nothing, with
the fallback.

Nested resolutions make this a recursion that need not end (a pattern may ask for itself), so it is
bounded by fuel, of which every level of nesting takes one unit.
-/

namespace TypeResolution.Resolver

variable {V : Type} (r : Resolver V)

/-! ## Templates -/

/-- The definition of a template, with the bindings to start from. -/
def openTemplate : Template → Except ResolutionError (DefIndex × Bindings)
  | .definition d => .ok (d, [])
  | .closed t =>
    match t.head? with
    | some d =>
      if t.isClosed then
        .ok (d, Bindings.bindAll [] ((r.catalog.definition d).params.map (·.name)) t.headArgs)
      else .error (.openTemplate t)
    | none => .error (.openTemplate t)

/-- The types that the parameters of a definition are bound to, if all are bound. -/
def boundArgs? (b : Bindings) (params : List TypeParam) : Option (List Ty) :=
  params.mapM fun param => b.get? param.name

/-- The closed type that a definition has under some bindings. There is none if a parameter is not
bound, or if the bounds refuse the arguments. -/
def closedUnder (fuel : Nat) (d : DefIndex) (b : Bindings) : Fueled (Option Ty) :=
  match boundArgs? b (r.catalog.definition d).params with
  | none => some none
  | some args => (r.catalog.instantiate fuel d args).map Except.toOption

/-- The values of a definition under some bindings. -/
def valuesOf (fuel : Nat) (nested : Nested V) (place : Place) (p : Pattern V) (d : DefIndex)
    (b : Bindings) : Search (Event V) ResolutionError V :=
  match r.closedUnder fuel d b with
  | none => .exhausted
  | some none => .done
  | some (some t) => r.callProducers fuel nested place p b t

/-! ## Patterns -/

/-- The values that a pattern gives for some candidates. -/
def tryPattern (fuel : Nat) (nested : Nested V) (place : Place) (candidates : List Ty)
    (p : Pattern V) : Search (Event V) ResolutionError V :=
  match r.openTemplate p.template with
  | .error e => .failed e
  | .ok (d, b) =>
    (slotBindings r.catalog fuel p.slots candidates b).bind (r.valuesOf fuel nested place p d)

/-- The values that patterns give one after another, each with its position. -/
def tryPatterns (fuel : Nat) (nested : Nested V) (window : Window) (candidates : List Ty) :
    List (Pattern V × Nat) → Search (Event V) ResolutionError V
  | [] => .done
  | (p, index) :: rest =>
    (r.tryPattern fuel nested ⟨index, window⟩ candidates p).andThen p.definitive fun _ =>
      tryPatterns fuel nested window candidates rest

/-- The values that the patterns of a window give for some candidates. -/
def searchWindow : (fuel : Nat) → Nested V
  | 0, _, _ => .exhausted
  | fuel + 1, candidates, window =>
    r.tryPatterns fuel (searchWindow fuel) window candidates (window.select r.patterns)

/-! ## Whole resolutions -/

/-- The values that the fallback gives. It is closed without looking at any candidate, and its
nested resolutions see the whole pattern list, behind which it stands. -/
def searchFallback (fuel : Nat) : Search (Event V) ResolutionError V :=
  match r.fallback with
  | none => .done
  | some p =>
    let length := r.patterns.length
    match r.openTemplate p.template with
    | .error e => .failed e
    | .ok (d, b) =>
      r.valuesOf fuel (r.searchWindow fuel) ⟨length, .whole length⟩ p d b

/-- The values that some candidates resolve to. -/
def search (fuel : Nat) (candidates : List Ty) : Search (Event V) ResolutionError V :=
  (r.searchWindow fuel candidates (.whole r.patterns.length)).orElse fun _ =>
    r.searchFallback fuel

/-- The record of a resolution whose values go to a consumer. -/
def resolve (fuel : Nat) (stop : List V → Bool) (candidates : List Ty) :
    Search.Transcript (Event V) ResolutionError V :=
  (r.search fuel candidates).run stop

/-- All values that some candidates resolve to, or the error that ended the resolution. -/
def allValues (fuel : Nat) (candidates : List Ty) : Fueled (Except ResolutionError (List V)) :=
  let t := r.resolve fuel Search.takeAll candidates
  t.ending.map (Except.map fun _ => t.items)

/-- The first value that some candidates resolve to; nothing behind it is computed. -/
def firstValue (fuel : Nat) (candidates : List Ty) :
    Fueled (Except ResolutionError (Option V)) :=
  let t := r.resolve fuel (Search.takeAtMost 1) candidates
  t.ending.map (Except.map fun _ => t.items.head?)

end TypeResolution.Resolver

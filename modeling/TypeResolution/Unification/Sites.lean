import TypeResolution.Constraint.SingleType
import TypeResolution.Ty.Matching

/-!
# Sites: where a candidate meets a definition

A candidate may be related to several instances of a constraint's target. The arguments of such an
instance are a *site*. Some sites lie above the candidate: its own ancestors that are instances of
the target. Others lie below it: instances of the target that have the candidate among their
ancestors, found by matching the ancestors of the open target with the candidate.

Variance says which are used: sites above for descendants of the target, sites below for
ancestors, those found both ways for the type itself, and those found either way for both.
-/

namespace TypeResolution

/-- The arguments of one instance of a constraint's target. -/
abbrev Site := List Ty

variable (c : Catalog) (fuel : Nat)

/-- Sites above the candidate, in the order of its ancestors. -/
def sitesAbove (candidate : Ty) (target : DefIndex) : Fueled (List Site) :=
  (c.ancestors fuel candidate).map fun above =>
    (above.filter fun t => t.head? == some target).map Ty.headArgs

/-- What each sub-constraint alone says about its argument. -/
def knownArgs (b : Bindings) : List Constraint → Fueled Assignment
  | [] => some []
  | k :: ks =>
    match k.singleType c fuel b with
    | none => none
    | some known => (knownArgs b ks).map (known :: ·)

/-- The rank that an array site below the candidate is built for: the one that the rank argument is
known to be, or else the candidate's own. -/
def wantedRank? (candidate : Ty) (known : Assignment) : Option Nat :=
  let fixed := known.head?.join.bind readRank?
  match candidate with
  | .array n _ => fixed <|> some n
  | _ => fixed

/-- The open ancestors of a target, with what is known of its arguments; `none` if an array is
wanted whose rank nothing fixes. The array stand-in has no ancestors of its own: arrays take theirs
from the catalog, for each rank apart. -/
def openAncestors (candidate : Ty) (target : DefIndex) (known : Assignment) :
    Fueled (Option (List Ty × Assignment)) :=
  if Marker.ofDefinition? target = some .array then
    match wantedRank? candidate known with
    | none => some none
    | some n =>
      (c.ancestors fuel (.array n (.param 1))).map fun above =>
        some (above, known.set 0 (some (rankEncoding n)))
  else (c.ancestorsOfDefinition fuel target).map fun above => some (above, known)

/-- The site at which an open ancestor becomes the candidate with the given arguments. What the
ancestor leaves open is taken from what is known; if that is open too, there is no site. -/
def solveSite? (actual : List Ty) (known : Assignment) (ancestor : Ty) : Option Site :=
  if ancestor.headArgs.length = actual.length then
    (Ty.assignAll? ancestor.headArgs actual (known.map fun _ => none)).bind fun solved =>
      (solved.zip known).mapM fun p => p.1 <|> p.2
  else none

/-- Sites below the candidate, in the order of the target's ancestors. -/
def sitesBelow (candidate : Ty) (target : DefIndex) (args : List Constraint) (b : Bindings) :
    Fueled (List Site) :=
  match candidate.head? with
  | none => some []
  | some d =>
    match knownArgs c fuel b args with
    | none => none
    | some known =>
      (openAncestors c fuel candidate target known).map fun
        | none => []
        | some (above, known) =>
          (above.filter fun t => t.head? == some d).filterMap
            (solveSite? candidate.headArgs known)

/-- The first occurrence of each site. -/
def distinctSites : List Site → List Site
  | [] => []
  | s :: rest => s :: (distinctSites rest).filter fun r => decide (r ≠ s)

/-- The sites that a constraint on `target` uses under the variance in force. -/
def sites (candidate : Ty) (target : DefIndex) (v : Variance) (args : List Constraint)
    (b : Bindings) : Fueled (List Site) :=
  Option.map distinctSites <|
    match v with
    | .covariant => sitesAbove c fuel candidate target
    | .contravariant => sitesBelow c fuel candidate target args b
    | .invariant =>
      match sitesBelow c fuel candidate target args b with
      | none => none
      | some below =>
        (sitesAbove c fuel candidate target).map fun above =>
          above.filter fun s => decide (s ∈ below)
    | .ambivariant =>
      match sitesAbove c fuel candidate target with
      | none => none
      | some above =>
        (sitesBelow c fuel candidate target args b).map fun below => above ++ below

end TypeResolution

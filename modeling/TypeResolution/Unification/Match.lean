import TypeResolution.Unification.Sites
import TypeResolution.Search

/-!
# Matching candidates with slots

`slotBindings` finds every set of bindings under which all slots accept their candidates. It goes
from left to right and back: each constraint is a search over the bindings that it can be met
with, and the constraints behind it go on from each of them in turn.

An instance constraint goes through the sites of its target. At each site the sub-constraints are
unified with the site's arguments, the instance is rebuilt from what they gave, and the rebuilt
type is compared with the candidate once more, because unification may have bound names that change
what the site means.
-/

namespace TypeResolution

variable {ν : Type} (c : Catalog) (fuel : Nat)

/-- Finds what a fuelled test lets through. -/
def Search.guard {ε α : Type} (test : Fueled Bool) (a : α) : Search ν ε α :=
  match test with
  | none => .exhausted
  | some true => .single a
  | some false => .done

/-- Goes on with the structural form of a type, or fails if it has none. -/
def withStructural {α : Type} (t : Ty) (f : Ty → Search ν ResolutionError α) :
    Search ν ResolutionError α :=
  match t.structuralForm with
  | .error e => .failed (.instantiate e)
  | .ok t => f t

/-- Whether a rebuilt type is a relative of the candidate in the direction of the variance in
force. -/
def isRelative (v : Variance) (result candidate : Ty) : Fueled Bool :=
  match v with
  | .invariant => some (decide (result = candidate))
  | .covariant => c.isAssignable fuel result candidate
  | .contravariant => c.isAssignable fuel candidate result
  | .ambivariant =>
    Fueled.or (c.isAssignable fuel result candidate) fun _ => c.isAssignable fuel candidate result

/-- Whether `ancestor` is one of the ancestors of `t`. -/
def inherits (t ancestor : Ty) : Fueled Bool :=
  (c.ancestors fuel t).map fun above => decide (ancestor ∈ above)

/-- Whether a candidate is a relative of the type that a parameter is bound to. -/
def related (v : Variance) (candidate bound : Ty) : Fueled Bool :=
  match v with
  | .invariant => some (decide (candidate = bound))
  | .covariant => inherits c fuel candidate bound
  | .contravariant => inherits c fuel bound candidate
  | .ambivariant =>
    Fueled.or (inherits c fuel candidate bound) fun _ => inherits c fuel bound candidate

/-- A later occurrence of a parameter: finds the type that it is bound to, if the candidate is a
relative of it. -/
def compareBound (v : Variance) (candidate bound : Ty) : Search ν ResolutionError Ty :=
  withStructural candidate fun candidate =>
    withStructural bound fun bound => .guard (related c fuel v candidate bound) bound

/-- Rebuilds the instance of a target from the arguments that unification gave. A type that the
bounds refuse, or that is no relative of the candidate, is not found. -/
def rebuild (v : Variance) (target : DefIndex) (candidate : Ty) (args : List Ty) :
    Search ν ResolutionError Ty :=
  match c.instantiate fuel target args with
  | none => .exhausted
  | some (.error _) => .done
  | some (.ok result) => .guard (isRelative c fuel v result candidate) result

/-- Finds the instances of a target that the candidate can be unified with, where `unify` unifies
the sub-constraints with a site under the variance in force. The kind markers look at the candidate
alone and find it. -/
def unifyInstance (outer v : Variance) (target : DefIndex) (args : List Constraint)
    (unify : Variance → Site → Search ν ResolutionError (Bindings × List Ty))
    (b : Bindings) (candidate : Ty) : Search ν ResolutionError (Bindings × Ty) :=
  withStructural candidate fun candidate =>
    match Marker.ofDefinition? target with
    | some .valueType => if c.isValueType candidate then .single (b, candidate) else .done
    | some .referenceType => if c.isReferenceType candidate then .single (b, candidate) else .done
    | _ =>
      match checkArgCount c target args.length with
      | .error e => .failed e
      | .ok () =>
        let inForce := outer.nest v
        match sites c fuel candidate target inForce args b with
        | none => .exhausted
        | some found =>
          Search.bindList found fun site =>
            (unify inForce site).bind fun p =>
              (rebuild c fuel inForce target candidate p.2).map fun result => (p.1, result)

/-! ## Arguments -/

mutual
/-- Unifies a constraint with an argument in structural form: finds bindings and the type that the
argument stands for under them. -/
def unifyArg (outer : Variance) (arg : Ty) (b : Bindings) :
    Constraint → Search ν ResolutionError (Bindings × Ty)
  | .wildcard => .single (b, arg)
  | .param name v =>
    match b.get? name with
    | none => .single (b.bind name arg, arg)
    | some bound => (compareBound c fuel (outer.nest v) arg bound).map fun t => (b, t)
  | .instanceOf target v args =>
    unifyInstance c fuel outer v target args
      (fun inForce site => unifySite inForce site b args) b arg
  | .negation inner => .failed (.unsupportedConstraint (.negation inner) .argument)

/-- Unifies constraints with the arguments of a site, position by position, as far as both
reach. -/
def unifySite (outer : Variance) (site : Site) (b : Bindings) :
    List Constraint → Search ν ResolutionError (Bindings × List Ty)
  | [] => .single (b, [])
  | k :: ks =>
    match site with
    | [] => .single (b, [])
    | arg :: rest =>
      withStructural arg fun arg =>
        (unifyArg outer arg b k).bind fun p =>
          (unifySite outer rest p.1 ks).map fun q => (q.1, p.2 :: q.2)
end

/-! ## Slots -/

mutual
/-- Finds the bindings under which one constraint accepts a candidate. -/
def matchOne (outer : Variance) (candidate : Ty) (b : Bindings) :
    Constraint → Search ν ResolutionError Bindings
  | .wildcard => .single b
  | .param name v =>
    match b.get? name with
    | none => .single (b.bind name candidate)
    | some bound => (compareBound c fuel (outer.nest v) candidate bound).map fun _ => b
  | .instanceOf target v args =>
    (unifyInstance c fuel outer v target args
      (fun inForce site => unifySite c fuel inForce site b args) b candidate).map (·.1)
  | .negation inner => (matchAll outer candidate b inner).ifNone fun _ => .single b

/-- Finds the bindings under which all constraints accept one candidate. -/
def matchAll (outer : Variance) (candidate : Ty) (b : Bindings) :
    List Constraint → Search ν ResolutionError Bindings
  | [] => .single b
  | k :: ks => (matchOne outer candidate b k).bind fun b => matchAll outer candidate b ks
end

/-- Finds the bindings under which every slot accepts the candidate at its position. Candidates
beyond the last slot are ignored; a slot without a candidate accepts nothing. -/
def slotBindings : List Slot → List Ty → Bindings → Search ν ResolutionError Bindings
  | [], _, b => .single b
  | _ :: _, [], _ => .done
  | slot :: slots, candidate :: rest, b =>
    (matchAll c fuel .ambivariant candidate b slot.constraints).choose slot.definitive fun b =>
      slotBindings slots rest b

end TypeResolution

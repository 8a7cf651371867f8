import TypeResolution.Proofs.Search.Listing
import TypeResolution.Unification.Match

/-!
# The solutions of slots, as lists

Matching read without laziness: for each constraint the list of its solutions, and for a
conjunction, a site or a row of slots the backtracking product of such lists from left to right. A
definitive slot keeps, of the solutions of its constraints, the first one that extends to a solution
of all slots; a negation has one solution if its inside has none.

`listing_slotBindings` says that the lazy matcher finds exactly these lists, interruptions included.

The definitions repeat those of the matcher with lists in place of searches. They are the form in
which solutions are counted, compared and taken apart elsewhere, by the lemmas about rows of
listings; and as the two are equal, nothing that is shown of the lists has to be shown again of the
matcher.
-/

namespace TypeResolution

variable {ν : Type} (c : Catalog) (fuel : Nat)

/-! ## Constraints on an instance -/

/-- What the structural form of a type leads to, or the error if it has none. -/
def structuralSolutions {α : Type} (t : Ty) (f : Ty → Listing ResolutionError α) :
    Listing ResolutionError α :=
  match t.structuralForm with
  | .error e => .failed (.instantiate e)
  | .ok t => f t

/-- One item if a fuelled test passes, and none otherwise. -/
def Listing.guard {ε α : Type} (test : Fueled Bool) (a : α) : Listing ε α :=
  .ofFueled test fun passes => if passes then .one a else .nothing

/-- The type that a parameter is bound to, if the candidate is a relative of it. -/
def boundSolutions (v : Variance) (candidate bound : Ty) : Listing ResolutionError Ty :=
  structuralSolutions candidate fun candidate =>
    structuralSolutions bound fun bound => .guard (related c fuel v candidate bound) bound

/-- The instance of a target over some arguments, if there is one and it is a relative of the
candidate. -/
def rebuiltSolutions (v : Variance) (target : DefIndex) (candidate : Ty) (args : List Ty) :
    Listing ResolutionError Ty :=
  .ofFueled (c.instantiate fuel target args) fun
    | .error _ => .nothing
    | .ok result => .guard (isRelative c fuel v result candidate) result

/-- The instances of a target that the candidate can be unified with: site after site, for every
solution of the sub-constraints the instance rebuilt from it. -/
def instanceSolutions (outer v : Variance) (target : DefIndex) (args : List Constraint)
    (solve : Variance → Site → Listing ResolutionError (Bindings × List Ty))
    (b : Bindings) (candidate : Ty) : Listing ResolutionError (Bindings × Ty) :=
  structuralSolutions candidate fun candidate =>
    match Marker.ofDefinition? target with
    | some .valueType => if c.isValueType candidate then .one (b, candidate) else .nothing
    | some .referenceType => if c.isReferenceType candidate then .one (b, candidate) else .nothing
    | _ =>
      match checkArgCount c target args.length with
      | .error e => .failed e
      | .ok () =>
        let inForce := outer.nest v
        .ofFueled (sites c fuel candidate target inForce args b) fun found =>
          .concat <| found.map fun site =>
            (false, (solve inForce site).each false fun p =>
              (rebuiltSolutions c fuel inForce target candidate p.2).map fun result =>
                (p.1, result))

mutual
/-- The solutions of a constraint on an argument in structural form. -/
def argSolutions (outer : Variance) (arg : Ty) (b : Bindings) :
    Constraint → Listing ResolutionError (Bindings × Ty)
  | .wildcard => .one (b, arg)
  | .param name v =>
    match b.get? name with
    | none => .one (b.bind name arg, arg)
    | some bound => (boundSolutions c fuel (outer.nest v) arg bound).map fun t => (b, t)
  | .instanceOf target v args =>
    instanceSolutions c fuel outer v target args
      (fun inForce site => siteSolutions inForce site b args) b arg
  | .negation inner => .failed (.unsupportedConstraint (.negation inner) .argument)

/-- The solutions of constraints on the arguments of a site. -/
def siteSolutions (outer : Variance) (site : Site) (b : Bindings) :
    List Constraint → Listing ResolutionError (Bindings × List Ty)
  | [] => .one (b, [])
  | k :: ks =>
    match site with
    | [] => .one (b, [])
    | arg :: rest =>
      structuralSolutions arg fun arg =>
        (argSolutions outer arg b k).each false fun p =>
          (siteSolutions outer rest p.1 ks).map fun q => (q.1, p.2 :: q.2)
end

/-! ## Slots -/

mutual
/-- The solutions of one constraint on a candidate. -/
def constraintSolutions (outer : Variance) (candidate : Ty) (b : Bindings) :
    Constraint → Listing ResolutionError Bindings
  | .wildcard => .one b
  | .param name v =>
    match b.get? name with
    | none => .one (b.bind name candidate)
    | some bound => (boundSolutions c fuel (outer.nest v) candidate bound).map fun _ => b
  | .instanceOf target v args =>
    (instanceSolutions c fuel outer v target args
      (fun inForce site => siteSolutions c fuel inForce site b args) b candidate).map (·.1)
  | .negation inner => (conjunctionSolutions outer candidate b inner).ifNone (.one b)

/-- The solutions of several constraints on one candidate. -/
def conjunctionSolutions (outer : Variance) (candidate : Ty) (b : Bindings) :
    List Constraint → Listing ResolutionError Bindings
  | [] => .one b
  | k :: ks =>
    (constraintSolutions outer candidate b k).each false fun b =>
      conjunctionSolutions outer candidate b ks
end

/-- The solutions of a row of slots. -/
def slotSolutions : List Slot → List Ty → Bindings → Listing ResolutionError Bindings
  | [], _, b => .one b
  | _ :: _, [], _ => .nothing
  | slot :: slots, candidate :: rest, b =>
    (conjunctionSolutions c fuel .ambivariant candidate b slot.constraints).each slot.definitive
      fun b => slotSolutions slots rest b

/-! ## The matcher finds the solutions

One equation for each function of the matcher, by recursion along the constraint. What the
combinators of searches list is known, so each case rewrites one function into the other. -/

/-- A guard lists its item if the test holds. -/
@[simp] theorem listing_guard {ε α : Type} (test : Fueled Bool) (a : α) :
    (Search.guard test a : Search ν ε α).listing = .guard test a := by
  rcases test with _ | _ | _ <;> rfl

/-- A type is read first, and an error in reading it is listed. -/
theorem listing_withStructural {α : Type} (t : Ty) (f : Ty → Search ν ResolutionError α) :
    (withStructural t f).listing = structuralSolutions t fun t => (f t).listing := by
  rw [withStructural, structuralSolutions]
  cases t.structuralForm with
  | error e => rfl
  | ok t => rfl

/-- A bound name is compared with the candidate once. -/
theorem listing_compareBound (v : Variance) (candidate bound : Ty) :
    (compareBound c fuel v candidate bound : Search ν _ _).listing =
      boundSolutions c fuel v candidate bound := by
  simp only [compareBound, boundSolutions, listing_withStructural, listing_guard]

/-- An instance is rebuilt once. -/
theorem listing_rebuild (v : Variance) (target : DefIndex) (candidate : Ty) (args : List Ty) :
    (rebuild c fuel v target candidate args : Search ν _ _).listing =
      rebuiltSolutions c fuel v target candidate args := by
  rw [rebuild, rebuiltSolutions]
  rcases c.instantiate fuel target args with _ | _ | result
  · rfl
  · rfl
  · exact listing_guard _ _

/-- An instance constraint lists its solutions, provided its sub-constraints do. -/
theorem listing_unifyInstance (outer v : Variance) (target : DefIndex) (args : List Constraint)
    {unify : Variance → Site → Search ν ResolutionError (Bindings × List Ty)}
    {solve : Variance → Site → Listing ResolutionError (Bindings × List Ty)}
    (h : ∀ inForce site, (unify inForce site).listing = solve inForce site)
    (b : Bindings) (candidate : Ty) :
    (unifyInstance c fuel outer v target args unify b candidate).listing =
      instanceSolutions c fuel outer v target args solve b candidate := by
  rw [unifyInstance, instanceSolutions, listing_withStructural]
  congr 1
  funext candidate
  rcases Marker.ofDefinition? target with _ | _ | _ | _ | _ | _
  case some.valueType => cases c.isValueType candidate <;> rfl
  case some.referenceType => cases c.isReferenceType candidate <;> rfl
  all_goals
    rcases checkArgCount c target args.length with e | _
    · rfl
    · dsimp only
      rcases sites c fuel candidate target (outer.nest v) args b with _ | found
      · rfl
      · simp only [Listing.ofFueled, Search.listing_bindList, Search.listing_bind,
          Search.listing_map, h, listing_rebuild]

mutual
/-- A sub-constraint finds its solutions in an argument. -/
theorem listing_unifyArg (outer : Variance) (arg : Ty) (b : Bindings) : (k : Constraint) →
    (unifyArg c fuel outer arg b k : Search ν _ _).listing = argSolutions c fuel outer arg b k
  | .wildcard => rfl
  | .param name v => by
    rw [unifyArg, argSolutions]
    cases b.get? name with
    | none => rfl
    | some bound => simp only [Search.listing_map, listing_compareBound]
  | .instanceOf target v args => by
    rw [unifyArg, argSolutions]
    exact listing_unifyInstance c fuel outer v target args
      (fun inForce site => listing_unifySite inForce site b args) b arg
  | .negation inner => rfl

/-- Sub-constraints find their solutions along a site. -/
theorem listing_unifySite (outer : Variance) (site : Site) (b : Bindings) :
    (ks : List Constraint) →
    (unifySite c fuel outer site b ks : Search ν _ _).listing =
      siteSolutions c fuel outer site b ks
  | [] => by cases site <;> rfl
  | k :: ks => by
    cases site with
    | nil => rfl
    | cons arg rest =>
      simp only [unifySite, siteSolutions, listing_withStructural, Search.listing_bind,
        Search.listing_map, listing_unifyArg outer _ b k, listing_unifySite outer rest _ ks]
end

mutual
/-- A constraint of a slot finds its solutions. -/
theorem listing_matchOne (outer : Variance) (candidate : Ty) (b : Bindings) : (k : Constraint) →
    (matchOne c fuel outer candidate b k : Search ν _ _).listing =
      constraintSolutions c fuel outer candidate b k
  | .wildcard => rfl
  | .param name v => by
    rw [matchOne, constraintSolutions]
    cases b.get? name with
    | none => rfl
    | some bound => simp only [Search.listing_map, listing_compareBound]
  | .instanceOf target v args => by
    rw [matchOne, constraintSolutions, Search.listing_map]
    rw [listing_unifyInstance c fuel outer v target args
      (fun inForce site => listing_unifySite c fuel inForce site b args) b candidate]
  | .negation inner => by
    rw [matchOne, constraintSolutions, Search.listing_ifNone,
      listing_matchAll outer candidate b inner, Search.listing_single]

/-- The constraints of a slot find theirs one after another. -/
theorem listing_matchAll (outer : Variance) (candidate : Ty) (b : Bindings) :
    (ks : List Constraint) →
    (matchAll c fuel outer candidate b ks : Search ν _ _).listing =
      conjunctionSolutions c fuel outer candidate b ks
  | [] => rfl
  | k :: ks => by
    simp only [matchAll, conjunctionSolutions, Search.listing_bind,
      listing_matchOne outer candidate b k, listing_matchAll outer candidate _ ks]
end

/-- **Matching is the backtracking product**: the lazy matcher finds the solutions of the slots, in
order, and is interrupted where their list is. -/
theorem listing_slotBindings (slots : List Slot) (candidates : List Ty) (b : Bindings) :
    (slotBindings c fuel slots candidates b : Search ν _ _).listing =
      slotSolutions c fuel slots candidates b := by
  induction slots generalizing candidates b with
  | nil => rfl
  | cons slot slots ih =>
    cases candidates with
    | nil => rfl
    | cons candidate rest =>
      simp only [slotBindings, slotSolutions, Search.listing_choose, listing_matchAll, ih]

end TypeResolution

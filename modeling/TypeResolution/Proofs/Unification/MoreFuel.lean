import TypeResolution.Proofs.Catalog.MoreFuel
import TypeResolution.Unification.Match

/-!
# More fuel for matching

The types that constraints stand for, the sites of a candidate and, with them, every search for
bindings stay the same under more fuel: the search goes on where it lacked fuel before.

Fuel is spent in two places only, the walk over the hierarchy and the instantiation of definitions
with bounds. So for every function of matching there is one lemma here, its name that of the
function with `_le`, and each reduces to the lemmas about the functions that it calls. For bounded
answers the order is `Fueled.Le`: the question is asked with less fuel, is either open or answered
alike, and in the first case there is nothing to show. For searches it is `Search.Le`, which all
combinators respect.

Nothing here mentions resolutions. What makes these take part is that `slotBindings_le` has the same
form as the lemmas above it.
-/

namespace TypeResolution

variable {ν : Type} (c : Catalog) {n m : Nat}

/-! ## The type that a constraint stands for

A constraint that stands for a single type is read in two ways, leniently for the arguments of a
candidate (`singleType`) and strictly for directives (`requireType`). Both instantiate definitions
from the inside to the outside, so a missing answer for an argument is a missing answer for the
whole. -/

namespace Constraint

mutual
/-- What is known of a type stays known under more fuel, and so does that nothing is known of it. -/
theorem singleType_le (h : n ≤ m) (b : Bindings) : (k : Constraint) →
    (singleType c n b k).Le (singleType c m b k)
  | .wildcard => .refl _
  | .negation _ => .refl _
  | .param .. => .refl _
  | .instanceOf target _ args => by
    rw [singleType, singleType]
    split
    · exact .refl _
    · rcases (singleTypes_le h b args).none_or_some with ha | ⟨known, ha, ha'⟩
      · rw [ha]
        exact .none _
      · rw [ha, ha']
        cases known with
        | none => exact .refl _
        | some ts => exact (c.instantiate_le h target ts).map _

/-- The same for a list of constraints, which is read up to the first that stands for no single
type. -/
theorem singleTypes_le (h : n ≤ m) (b : Bindings) : (ks : List Constraint) →
    (singleTypes c n b ks).Le (singleTypes c m b ks)
  | [] => .refl _
  | k :: ks => by
    rw [singleTypes, singleTypes]
    rcases (singleType_le h b k).none_or_some with hk | ⟨known, hk, hk'⟩
    · rw [hk]
      exact .none _
    · rw [hk, hk']
      cases known with
      | none => exact .refl _
      | some t => exact (singleTypes_le h b ks).map _
end

mutual
/-- What a directive builds does not depend on the fuel, and neither does the error that it ends
with. -/
theorem requireType_le (h : n ≤ m) (b : Bindings) : (k : Constraint) →
    (requireType c n b k).Le (requireType c m b k)
  | .wildcard => .refl _
  | .negation _ => .refl _
  | .param .. => .refl _
  | .instanceOf target _ args => by
    rw [requireType, requireType]
    rcases (requireTypes_le h b args).none_or_some with ha | ⟨required, ha, ha'⟩
    · rw [ha]
      exact .none _
    · rw [ha, ha']
      cases required with
      | error e => exact .refl _
      | ok ts => exact (c.instantiate_le h target ts).map _

/-- The same for a list of constraints, which is read up to the first error. -/
theorem requireTypes_le (h : n ≤ m) (b : Bindings) : (ks : List Constraint) →
    (requireTypes c n b ks).Le (requireTypes c m b ks)
  | [] => .refl _
  | k :: ks => by
    rw [requireTypes, requireTypes]
    rcases (requireType_le h b k).none_or_some with hk | ⟨required, hk, hk'⟩
    · rw [hk]
      exact .none _
    · rw [hk, hk']
      cases required with
      | error e => exact .refl _
      | ok t => exact (requireTypes_le h b ks).map _
end

end Constraint

/-! ## Sites

The sites of a candidate are those of its ancestors, or of the types below it, that are instances of
the target. All of this is read off walks over the hierarchy. -/

/-- Which positions of a constraint's arguments are known stays so. -/
theorem knownArgs_le (h : n ≤ m) (b : Bindings) (ks : List Constraint) :
    (knownArgs c n b ks).Le (knownArgs c m b ks) := by
  induction ks with
  | nil => exact .refl _
  | cons k ks ih =>
    rw [knownArgs, knownArgs]
    -- an open question about the first argument leaves the rest unasked
    rcases (Constraint.singleType_le c h b k).none_or_some with hk | ⟨known, hk, hk'⟩
    · rw [hk]
      exact .none _
    · rw [hk, hk']
      exact ih.map _

/-- The ancestors of a definition, with its parameters left open. For arrays they are those of a
type with a rank that the known positions may fix. -/
theorem openAncestors_le (h : n ≤ m) (candidate : Ty) (target : DefIndex) (known : Assignment) :
    (openAncestors c n candidate target known).Le (openAncestors c m candidate target known) := by
  rw [openAncestors, openAncestors]
  split
  · cases wantedRank? candidate known with
    | none => exact .refl _
    | some rank => exact (c.ancestors_le h _).map _
  · exact (c.ancestorsOfDefinition_le h target).map _

/-- Sites above a candidate are found by one walk over its ancestors. -/
theorem sitesAbove_le (h : n ≤ m) (candidate : Ty) (target : DefIndex) :
    (sitesAbove c n candidate target).Le (sitesAbove c m candidate target) :=
  (c.ancestors_le h candidate).map _

/-- Sites below a candidate need the known positions first, and then the ancestors of the target. -/
theorem sitesBelow_le (h : n ≤ m) (candidate : Ty) (target : DefIndex) (args : List Constraint)
    (b : Bindings) :
    (sitesBelow c n candidate target args b).Le (sitesBelow c m candidate target args b) := by
  rw [sitesBelow, sitesBelow]
  cases candidate.head? with
  | none => exact .refl _
  | some d =>
    dsimp only
    rcases (knownArgs_le c h b args).none_or_some with hk | ⟨known, hk, hk'⟩
    · rw [hk]
      exact .none _
    · rw [hk, hk']
      exact (openAncestors_le c h candidate target known).map _

/-- **The sites of a candidate do not depend on the fuel** that finds them. -/
theorem sites_le (h : n ≤ m) (candidate : Ty) (target : DefIndex) (v : Variance)
    (args : List Constraint) (b : Bindings) :
    (sites c n candidate target v args b).Le (sites c m candidate target v args b) := by
  unfold sites
  apply Fueled.Le.map
  -- up, down, either or both: the variance says which walks are made
  cases v with
  | covariant => exact sitesAbove_le c h candidate target
  | contravariant => exact sitesBelow_le c h candidate target args b
  | invariant =>
    dsimp only
    rcases (sitesBelow_le c h candidate target args b).none_or_some with hb | ⟨below, hb, hb'⟩
    · rw [hb]
      exact .none _
    · rw [hb, hb']
      exact (sitesAbove_le c h candidate target).map _
  | ambivariant =>
    dsimp only
    rcases (sitesAbove_le c h candidate target).none_or_some with ha | ⟨above, ha, ha'⟩
    · rw [ha]
      exact .none _
    · rw [ha, ha']
      exact (sitesBelow_le c h candidate target args b).map _

/-! ## Tests on the candidate

Each of them asks about ancestors or about assignability, in one direction or in both. -/

/-- Whether a rebuilt instance is related to the candidate, as the variance in force has it. -/
theorem isRelative_le (h : n ≤ m) (v : Variance) (result candidate : Ty) :
    (isRelative c n v result candidate).Le (isRelative c m v result candidate) := by
  unfold isRelative
  cases v with
  | invariant => exact .refl _
  | covariant => exact c.isAssignable_le h result candidate
  | contravariant => exact c.isAssignable_le h candidate result
  | ambivariant =>
    exact (c.isAssignable_le h result candidate).or (c.isAssignable_le h candidate result)

/-- Whether one type is among the ancestors of another. -/
theorem inherits_le (h : n ≤ m) (t ancestor : Ty) :
    (inherits c n t ancestor).Le (inherits c m t ancestor) :=
  (c.ancestors_le h t).map _

/-- Whether a candidate is related to a type that is bound already. -/
theorem related_le (h : n ≤ m) (v : Variance) (candidate bound : Ty) :
    (related c n v candidate bound).Le (related c m v candidate bound) := by
  unfold related
  cases v with
  | invariant => exact .refl _
  | covariant => exact inherits_le c h candidate bound
  | contravariant => exact inherits_le c h bound candidate
  | ambivariant => exact (inherits_le c h candidate bound).or (inherits_le c h bound candidate)

/-- A test that is answered under less fuel is answered the same under more, so it lets the same
item pass. -/
theorem Search.guard_le {ε α : Type} {test test' : Fueled Bool} (h : test.Le test') (a : α) :
    (Search.guard test a : Search ν ε α).Le (Search.guard test' a) := by
  rcases h with rfl | rfl
  · exact .exhausted _
  · exact .refl _

/-- The structural form of a type takes no fuel to read. -/
theorem withStructural_le {α : Type} (t : Ty) {f f' : Ty → Search ν ResolutionError α}
    (hf : ∀ t, (f t).Le (f' t)) : (withStructural t f).Le (withStructural t f') := by
  rw [withStructural, withStructural]
  cases t.structuralForm with
  | error e => exact .refl _
  | ok t => exact hf t

/-- A name that occurs again is compared with what it is bound to. Both types are read in structural
form before. -/
theorem compareBound_le (h : n ≤ m) (v : Variance) (candidate bound : Ty) :
    (compareBound c n v candidate bound : Search ν _ _).Le (compareBound c m v candidate bound) :=
  withStructural_le candidate fun candidate =>
    withStructural_le bound fun bound => Search.guard_le (related_le c h v candidate bound) bound

/-- An instance is rebuilt before it is compared, and a bound that is missed is no answer but an
error. -/
theorem rebuild_le (h : n ≤ m) (v : Variance) (target : DefIndex) (candidate : Ty)
    (args : List Ty) :
    (rebuild c n v target candidate args : Search ν _ _).Le
      (rebuild c m v target candidate args) := by
  rw [rebuild, rebuild]
  rcases (c.instantiate_le h target args).none_or_some with hi | ⟨answer, hi, hi'⟩
  · rw [hi]
    exact .exhausted _
  · rw [hi, hi']
    cases answer with
    | error e => exact .refl _
    | ok result => exact Search.guard_le (isRelative_le c h v result candidate) result

/-! ## Matching -/

/-- An instance constraint goes on under more fuel, provided its sub-constraints do. -/
theorem unifyInstance_le (h : n ≤ m) (outer v : Variance) (target : DefIndex)
    (args : List Constraint)
    {unify unify' : Variance → Site → Search ν ResolutionError (Bindings × List Ty)}
    (hu : ∀ inForce site, (unify inForce site).Le (unify' inForce site))
    (b : Bindings) (candidate : Ty) :
    (unifyInstance c n outer v target args unify b candidate).Le
      (unifyInstance c m outer v target args unify' b candidate) := by
  rw [unifyInstance, unifyInstance]
  refine withStructural_le candidate fun candidate => ?_
  -- the kinds of types are decided without fuel; every other target has sites to go through
  rcases Marker.ofDefinition? target with _ | _ | _ | _ | _ | _
  case some.valueType => exact .refl _
  case some.referenceType => exact .refl _
  all_goals
    rcases checkArgCount c target args.length with e | _
    · exact .refl _
    · dsimp only
      rcases (sites_le c h candidate target (outer.nest v) args b).none_or_some
        with hs | ⟨found, hs, hs'⟩
      · rw [hs]
        exact .exhausted _
      · rw [hs, hs']
        exact .bindList found fun site => (hu _ site).bind fun p =>
          (rebuild_le c h _ target candidate p.2).map _

mutual
/-- An argument is matched the same under more fuel. This recursion and the next are one, along the
constraints. -/
theorem unifyArg_le (h : n ≤ m) (outer : Variance) (arg : Ty) (b : Bindings) : (k : Constraint) →
    (unifyArg c n outer arg b k : Search ν _ _).Le (unifyArg c m outer arg b k)
  | .wildcard => .refl _
  | .param name v => by
    rw [unifyArg, unifyArg]
    cases b.get? name with
    | none => exact .refl _
    | some bound => exact (compareBound_le c h _ arg bound).map _
  | .instanceOf target v args => by
    rw [unifyArg, unifyArg]
    exact unifyInstance_le c h outer v target args
      (fun inForce site => unifySite_le h inForce site b args) b arg
  | .negation _ => .refl _

/-- The arguments of a site are matched one after another. -/
theorem unifySite_le (h : n ≤ m) (outer : Variance) (site : Site) (b : Bindings) :
    (ks : List Constraint) →
    (unifySite c n outer site b ks : Search ν _ _).Le (unifySite c m outer site b ks)
  | [] => by
    rw [unifySite, unifySite]
    exact .refl _
  | k :: ks => by
    cases site with
    | nil =>
      rw [unifySite, unifySite]
      exact .refl _
    | cons arg rest =>
      rw [unifySite, unifySite]
      exact withStructural_le arg fun arg => (unifyArg_le h outer arg b k).bind fun p =>
        (unifySite_le h outer rest p.1 ks).map _
end

mutual
/-- A constraint at its outermost place is matched the same. A negation is decided by whether the
inner search finds something, which it does not stop doing. -/
theorem matchOne_le (h : n ≤ m) (outer : Variance) (candidate : Ty) (b : Bindings) :
    (k : Constraint) →
    (matchOne c n outer candidate b k : Search ν _ _).Le (matchOne c m outer candidate b k)
  | .wildcard => .refl _
  | .param name v => by
    rw [matchOne, matchOne]
    cases b.get? name with
    | none => exact .refl _
    | some bound => exact (compareBound_le c h _ candidate bound).map _
  | .instanceOf target v args => by
    rw [matchOne, matchOne]
    exact (unifyInstance_le c h outer v target args
      (fun inForce site => unifySite_le c h inForce site b args) b candidate).map _
  | .negation inner => by
    rw [matchOne, matchOne]
    exact (matchAll_le h outer candidate b inner).ifNone (.refl _)

/-- The constraints of a slot are matched one after another. -/
theorem matchAll_le (h : n ≤ m) (outer : Variance) (candidate : Ty) (b : Bindings) :
    (ks : List Constraint) →
    (matchAll c n outer candidate b ks : Search ν _ _).Le (matchAll c m outer candidate b ks)
  | [] => .refl _
  | k :: ks => by
    rw [matchAll, matchAll]
    exact (matchOne_le h outer candidate b k).bind fun b => matchAll_le h outer candidate b ks
end

/-- **Matching slots goes on under more fuel** where it lacked fuel before, and is the same
otherwise. -/
theorem slotBindings_le (h : n ≤ m) (slots : List Slot) (candidates : List Ty) (b : Bindings) :
    (slotBindings c n slots candidates b : Search ν _ _).Le
      (slotBindings c m slots candidates b) := by
  induction slots generalizing candidates b with
  | nil => exact .refl _
  | cons slot slots ih =>
    cases candidates with
    | nil => exact .refl _
    | cons candidate rest =>
      exact (matchAll_le c h .ambivariant candidate b slot.constraints).choose slot.definitive
        fun b => ih rest b

end TypeResolution

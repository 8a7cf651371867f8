import TypeResolution.Proofs.Unification.Validity

/-!
# Matching blames no producer

Matching slots and building the candidates of a directive call no producer, and whatever goes wrong
there, the error is about a type or a constraint. So an error that blames a producer comes from a
call (`blameless_slotSolutions`, `requireTypes_blameless`). Unlike
`failsOnly_slotSolutions` this assumes nothing of the slots or of the candidates.

The lemmas are needed where a failure is traced to the call that it came from. There the errors of
calls are what is looked for, and those of matching are only to be told apart from them; so it is
enough to know what they are not, and nothing has to be known of the resolver.
-/

namespace TypeResolution

/-- The error says that a producer failed. -/
def ResolutionError.BlamesProducer : ResolutionError → Prop
  | .producer .. => True
  | _ => False

namespace Listing

variable {α : Type}

/-- No error that interrupts the listing blames a producer. -/
def Blameless (l : Listing ResolutionError α) : Prop := l.FailsOnly fun e => ¬e.BlamesProducer

end Listing

open Listing

variable (c : Catalog) (fuel : Nat)

/-! ## Matching

The functions of matching, from the inside to the outside. Each passes on the errors of those that
it calls, and adds errors about types and constraints only. -/

/-- A wrong number of arguments is the constraint's own error. -/
theorem checkArgCount_blameless {c : Catalog} {target : DefIndex} {found : Nat}
    {e : ResolutionError} (h : checkArgCount c target found = .error e) : ¬e.BlamesProducer := by
  rw [checkArgCount] at h
  split at h
  · cases h
  · obtain rfl := Except.error.inj h
    exact not_false

/-- A type that cannot be read in structural form has a malformed rank. -/
theorem blameless_structuralSolutions {α : Type} (t : Ty) {f : Ty → Listing ResolutionError α}
    (hf : ∀ u, (f u).Blameless) : (structuralSolutions t f).Blameless := by
  rw [structuralSolutions]
  cases t.structuralForm with
  | error e => exact failsOnly_failed not_false
  | ok u => exact hf u

/-- Comparing a candidate with a bound type goes wrong only in reading the two. -/
theorem blameless_boundSolutions (v : Variance) (candidate bound : Ty) :
    (boundSolutions c fuel v candidate bound).Blameless :=
  blameless_structuralSolutions candidate fun _ =>
    blameless_structuralSolutions bound fun _ => failsOnly_guard _ _

/-- An instance constraint adds the number of its arguments to what may be wrong, provided that its
sub-constraints blame no producer. -/
theorem blameless_instanceSolutions (outer v : Variance) (target : DefIndex)
    (ks : List Constraint) {solve : Variance → Site → Listing ResolutionError (Bindings × List Ty)}
    (hsolve : ∀ inForce site, (solve inForce site).Blameless) (b : Bindings) (candidate : Ty) :
    (instanceSolutions c fuel outer v target ks solve b candidate).Blameless := by
  refine blameless_structuralSolutions candidate fun u => ?_
  -- the kinds of types are tested without any error
  rcases Marker.ofDefinition? target with _ | _ | _ | _ | _ | _
  case some.valueType =>
    dsimp only
    split <;> exact failsOnly_ofList _
  case some.referenceType =>
    dsimp only
    split <;> exact failsOnly_ofList _
  all_goals
    rcases hcheck : checkArgCount c target ks.length with e | _
    · exact failsOnly_failed (checkArgCount_blameless hcheck)
    · refine failsOnly_ofFueled fun found _ => failsOnly_concat fun p hp => ?_
      obtain ⟨site, -, rfl⟩ := List.mem_map.mp hp
      exact (hsolve _ site).each false fun _ _ => (failsOnly_rebuiltSolutions fuel _ _ _ _).map _

mutual
/-- An argument's constraint blames no producer. A negation there is unsupported, which is an error
about the constraint. -/
theorem blameless_argSolutions (outer : Variance) (arg : Ty) (b : Bindings) : (k : Constraint) →
    (argSolutions c fuel outer arg b k).Blameless
  | .wildcard => failsOnly_one _
  | .param name v => by
    rw [argSolutions]
    split
    · exact failsOnly_one _
    · exact (blameless_boundSolutions c fuel _ arg _).map _
  | .instanceOf target v args => by
    rw [argSolutions]
    exact blameless_instanceSolutions c fuel outer v target args
      (fun inForce site => blameless_siteSolutions inForce site b args) b arg
  | .negation inner => failsOnly_failed not_false

/-- Nor do the constraints of a site, argument by argument. -/
theorem blameless_siteSolutions (outer : Variance) (site : Site) (b : Bindings) :
    (ks : List Constraint) → (siteSolutions c fuel outer site b ks).Blameless
  | [] => by
    rw [siteSolutions]
    exact failsOnly_one _
  | k :: ks => by
    cases site with
    | nil =>
      rw [siteSolutions]
      exact failsOnly_one _
    | cons arg rest =>
      rw [siteSolutions]
      refine blameless_structuralSolutions arg fun u => ?_
      exact (blameless_argSolutions outer u b k).each false fun p _ =>
        (blameless_siteSolutions outer rest p.1 ks).map _
end

mutual
/-- A constraint at its outermost place blames no producer. -/
theorem blameless_constraintSolutions (outer : Variance) (candidate : Ty) (b : Bindings) :
    (k : Constraint) → (constraintSolutions c fuel outer candidate b k).Blameless
  | .wildcard => failsOnly_one _
  | .param name v => by
    rw [constraintSolutions]
    split
    · exact failsOnly_one _
    · exact (blameless_boundSolutions c fuel _ candidate _).map _
  | .instanceOf target v args => by
    rw [constraintSolutions]
    exact (blameless_instanceSolutions c fuel outer v target args
      (fun inForce site => blameless_siteSolutions c fuel inForce site b args) b candidate).map _
  | .negation inner => by
    rw [constraintSolutions]
    exact (blameless_conjunctionSolutions outer candidate b inner).ifNone (failsOnly_one _)

/-- Nor do the constraints of a slot. -/
theorem blameless_conjunctionSolutions (outer : Variance) (candidate : Ty) (b : Bindings) :
    (ks : List Constraint) → (conjunctionSolutions c fuel outer candidate b ks).Blameless
  | [] => failsOnly_one _
  | k :: ks => by
    rw [conjunctionSolutions]
    exact (blameless_constraintSolutions outer candidate b k).each false fun b' _ =>
      blameless_conjunctionSolutions outer candidate b' ks
end

/-- **Matching slots blames no producer.** -/
theorem blameless_slotSolutions (slots : List Slot) (candidates : List Ty) (b : Bindings) :
    (slotSolutions c fuel slots candidates b).Blameless := by
  induction slots generalizing candidates b with
  | nil => exact failsOnly_one _
  | cons slot slots ih =>
    cases candidates with
    | nil => exact failsOnly_nothing
    | cons candidate rest =>
      exact (blameless_conjunctionSolutions c fuel _ candidate b slot.constraints).each
        slot.definitive fun b' _ => ih rest b'

/-! ## Directives

What a directive builds may miss a bound, lack a name, or be no type at all. -/

variable {c fuel} {b : Bindings}

mutual
/-- **Building a type blames no producer.** What is left open by a constraint is an error about it,
and a missed bound is one about the type. -/
theorem requireType_blameless : (k : Constraint) → {e : ResolutionError} →
    k.requireType c fuel b = some (.error e) → ¬e.BlamesProducer
  | .wildcard, e, h => by
    obtain rfl := Except.error.inj (Option.some.inj h)
    exact not_false
  | .negation inner, e, h => by
    obtain rfl := Except.error.inj (Option.some.inj h)
    exact not_false
  | .param name v, e, h => by
    rw [Constraint.requireType] at h
    split at h
    · cases h
    · obtain rfl := Except.error.inj (Option.some.inj h)
      exact not_false
  | .instanceOf target v args, e, h => by
    rw [Constraint.requireType] at h
    split at h
    · cases h
    · next e' he' =>
      obtain rfl := Except.error.inj (Option.some.inj h)
      exact requireTypes_blameless args he'
    · obtain ⟨result, -, herror⟩ := Option.map_eq_some_iff.mp h
      cases result with
      | ok u => cases herror
      | error e' =>
        obtain rfl := Except.error.inj herror
        exact not_false

/-- **Building the candidates of a directive blames no producer.** -/
theorem requireTypes_blameless : (ks : List Constraint) → {e : ResolutionError} →
    Constraint.requireTypes c fuel b ks = some (.error e) → ¬e.BlamesProducer
  | [], e, h => by cases h
  | k :: ks, e, h => by
    rw [Constraint.requireTypes] at h
    split at h
    · cases h
    · next e' he' =>
      obtain rfl := Except.error.inj (Option.some.inj h)
      exact requireType_blameless k he'
    · obtain ⟨rest, hrest, herror⟩ := Option.map_eq_some_iff.mp h
      cases rest with
      | ok ts => cases herror
      | error e' =>
        obtain rfl := Except.error.inj herror
        exact requireTypes_blameless ks hrest
end

end TypeResolution

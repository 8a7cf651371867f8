import TypeResolution.Constraint.Validation
import TypeResolution.Proofs.Catalog.Arity
import TypeResolution.Proofs.Unification.TypesMet

/-!
# What checked constraints cannot run into

Matching repeats the checks that constraints went through when they were registered: it fails at a
negation that stands below another constraint and at a wrong number of arguments, and it fails at
types that cannot be read. For checked constraints and candidates that apply definitions at their
arity the first two never happen, and of the third only one thing is left, an array stand-in over
something that encodes no rank (`failsOnly_slotSolutions`). The same holds for the candidates that
directives build, but for the bounds of instances and for names that are not bound
(`requireTypes_error`).

The proofs follow two things through a match. One is that the constraint in question has been
checked, which its parts then are as well; the other is that the types in question apply definitions
at their arity, which holds of whatever matching meets since these types form a closed set
(`Catalog.DeclaredAtArity.matchClosed`).
-/

namespace TypeResolution

/-! ## Errors of a listing

A listing fails with at most one error, its interruption, so "all errors that can come up" is a
statement about one place. The combinators pass errors on and make none of their own. -/

namespace Listing

variable {ε α β : Type} {P Q : ε → Prop}

/-- Only an error that satisfies `P` interrupts the listing, if an error does. -/
def FailsOnly (P : ε → Prop) (l : Listing ε α) : Prop :=
  ∀ e, l.interruption = some (.failed e) → P e

/-- What is said of the errors may be weakened. -/
theorem FailsOnly.mono {l : Listing ε α} (h : l.FailsOnly P) (hPQ : ∀ e, P e → Q e) :
    l.FailsOnly Q :=
  fun e he => hPQ e (h e he)

/-- A list that is complete has no error. -/
theorem failsOnly_ofList (as : List α) : (ofList as : Listing ε α).FailsOnly P :=
  fun _ h => by cases h

/-- Nothing at all has no error. -/
theorem failsOnly_nothing : (nothing : Listing ε α).FailsOnly P := failsOnly_ofList []

/-- Nor has a single item. -/
theorem failsOnly_one (a : α) : (one a : Listing ε α).FailsOnly P := failsOnly_ofList [a]

/-- A lack of fuel is not an error. -/
theorem failsOnly_exhausted : (exhausted : Listing ε α).FailsOnly P := fun _ h => by cases h

/-- A listing that is an error has this one. -/
theorem failsOnly_failed {e : ε} (h : P e) : (failed e : Listing ε α).FailsOnly P := by
  intro e' he'
  obtain rfl := Interruption.failed.inj (Option.some.inj he')
  exact h

/-- Changing items changes no errors. -/
theorem FailsOnly.map {l : Listing ε α} (h : l.FailsOnly P) (f : α → β) : (l.map f).FailsOnly P := h

/-- Of two listings in a row it is the first that is interrupted whose error comes up. -/
theorem FailsOnly.append {l m : Listing ε α} (hl : l.FailsOnly P) (hm : m.FailsOnly P) :
    (l.append m).FailsOnly P := by
  rcases l with ⟨as, _ | i⟩
  · exact hm
  · exact hl

/-- A definitive listing may even hide the error of what follows it. -/
theorem FailsOnly.andThen (definitive : Bool) {l m : Listing ε α} (hl : l.FailsOnly P)
    (hm : m.FailsOnly P) : (l.andThen definitive m).FailsOnly P := by
  rw [Listing.andThen]
  split
  · exact hl
  · exact hl.append hm

/-- In a row of listings the error is that of one of them. -/
theorem failsOnly_concat {ls : List (Bool × Listing ε α)} (h : ∀ p ∈ ls, p.2.FailsOnly P) :
    (concat ls).FailsOnly P := by
  induction ls with
  | nil => exact failsOnly_nothing
  | cons p ls ih =>
    obtain ⟨hp, hls⟩ := List.forall_mem_cons.mp h
    exact hp.andThen p.1 (ih hls)

/-- What the items lead to fails like one of them, or the items end with an error of their own. -/
theorem FailsOnly.each (definitive : Bool) {l : Listing ε α} (hl : l.FailsOnly P)
    {f : α → Listing ε β} (hf : ∀ a ∈ l.items, (f a).FailsOnly P) :
    (l.each definitive f).FailsOnly P := by
  refine failsOnly_concat fun p hp => ?_
  rcases List.mem_append.mp hp with hp | hp
  · obtain ⟨a, ha, rfl⟩ := List.mem_map.mp hp
    exact hf a ha
  · exact List.mem_singleton.mp hp ▸ hl

/-- Behind an answer there are the errors of what it leads to, and without one there are none. -/
theorem failsOnly_ofFueled {x : Fueled α} {f : α → Listing ε β}
    (h : ∀ a, x = some a → (f a).FailsOnly P) : (ofFueled x f).FailsOnly P := by
  cases x with
  | none => exact failsOnly_exhausted
  | some a => exact h a rfl

/-- A test whether a listing is empty fails like the listing, or like what follows it. -/
theorem FailsOnly.ifNone {l : Listing ε α} (hl : l.FailsOnly P) {m : Listing ε β}
    (hm : m.FailsOnly P) : (l.ifNone m).FailsOnly P := by
  rcases l with ⟨_ | ⟨a, as⟩, _ | i⟩
  · exact hm
  · exact hl
  · exact failsOnly_nothing
  · exact failsOnly_nothing

/-- A test does not fail. -/
theorem failsOnly_guard (test : Fueled Bool) (a : α) :
    (Listing.guard test a : Listing ε α).FailsOnly P := by
  refine failsOnly_ofFueled fun passes _ => ?_
  cases passes with
  | true => exact failsOnly_one a
  | false => exact failsOnly_nothing

end Listing

/-! ## Checked constraints

What a check that succeeded says, read off the check case by case. These are the only places where
its definition is opened. -/

namespace Constraint

variable {c : Catalog} {role : Role}

/-- A list of constraints is checked by checking each of them. -/
theorem checkAll_ok {ks : List Constraint} (h : checkAll c role ks = .ok ()) :
    ∀ k ∈ ks, k.check c role = .ok () := by
  induction ks with
  | nil => exact fun k hk => absurd hk List.not_mem_nil
  | cons k ks ih =>
    rw [checkAll] at h
    split at h
    · cases h
    · next hk => exact List.forall_mem_cons.mpr ⟨hk, ih h⟩

/-- A wildcard is refused in a directive, as nothing could be built for it. -/
theorem check_wildcard_ok (h : check c role .wildcard = .ok ()) : role ≠ .directive := by
  rintro rfl
  cases h

/-- A negation is accepted at the outermost place of a slot only, and what stands under it is
checked as if it stood there. -/
theorem check_negation_ok {inner : List Constraint} (h : check c role (.negation inner) = .ok ()) :
    role = .slot ∧ ∀ k ∈ inner, k.check c .slot = .ok () := by
  rw [check] at h
  split at h
  · cases h
  · next hrole => exact ⟨Decidable.not_not.mp hrole, checkAll_ok h⟩

/-- A checked instance constraint has as many arguments as its target takes, and these are
checked. -/
theorem check_instanceOf_ok {target : DefIndex} {v : Variance} {args : List Constraint}
    (h : check c role (.instanceOf target v args) = .ok ()) :
    c.arity target = args.length ∧ ∀ k ∈ args, k.check c (argumentRole role) = .ok () := by
  rw [check] at h
  split at h
  · cases h
  · split at h
    · cases h
    · next hcount =>
      refine ⟨?_, checkAll_ok h⟩
      rw [checkArgCount] at hcount
      split at hcount
      · assumption
      · cases hcount

/-- Kind markers take no argument. -/
theorem arity_eq_zero_of_isKindMarker (c : Catalog) {target : DefIndex}
    (h : isKindMarker target = true) : c.arity target = 0 := by
  rw [isKindMarker] at h
  split at h
  · next m hm =>
    rw [Marker.eq_definition hm, c.arity_definition]
    cases m with
    | valueType => rfl
    | referenceType => rfl
    | _ => cases h
  · cases h

/-- A directive builds one type for each of its constraints. -/
theorem length_requireTypes {fuel : Nat} {b : Bindings} {ks : List Constraint} {ts : List Ty}
    (h : requireTypes c fuel b ks = some (.ok ts)) : ts.length = ks.length := by
  induction ks generalizing ts with
  | nil =>
    obtain rfl := Except.ok.inj (Option.some.inj h)
    rfl
  | cons k ks ih =>
    rw [requireTypes] at h
    split at h
    · cases h
    · cases h
    -- neither an error nor a lack of fuel, so there is a type for the first constraint
    · obtain ⟨rest, hrest, h⟩ := Option.map_eq_some_iff.mp h
      cases rest with
      | error e => cases h
      | ok us =>
        obtain rfl := Except.ok.inj h
        exact congrArg (· + 1) (ih hrest)

/-! ### Names

Two lists of names belong to a constraint: all names that it mentions, and those that matching it
binds. They differ under negations, where names are matched and forgotten. -/

mutual
/-- The names that a constraint mentions. -/
def names : Constraint → List String
  | .wildcard => []
  | .param name _ => [name]
  | .instanceOf _ _ args => namesAll args
  | .negation inner => namesAll inner

/-- The names that constraints mention. -/
def namesAll : List Constraint → List String
  | [] => []
  | k :: ks => names k ++ namesAll ks
end

mutual
/-- The names that a constraint mentions outside of negations. -/
def bindingNames : Constraint → List String
  | .wildcard => []
  | .param name _ => [name]
  | .instanceOf _ _ args => bindingNamesAll args
  | .negation _ => []

/-- The names that constraints mention outside of negations. -/
def bindingNamesAll : List Constraint → List String
  | [] => []
  | k :: ks => bindingNames k ++ bindingNamesAll ks
end

/-- The names that two lists of constraints bind are those of the first and those of the second. -/
theorem bindingNamesAll_append (ks ls : List Constraint) :
    bindingNamesAll (ks ++ ls) = bindingNamesAll ks ++ bindingNamesAll ls := by
  induction ks with
  | nil => rfl
  | cons k ks ih => rw [List.cons_append, bindingNamesAll, ih, bindingNamesAll, List.append_assoc]

/-- The names of a list of constraints are those of its elements. -/
theorem namesAll_eq_flatMap (ks : List Constraint) : namesAll ks = ks.flatMap names := by
  induction ks with
  | nil => rfl
  | cons k ks ih => rw [namesAll, ih, List.flatMap_cons]

end Constraint

/-! ## Types at their arity

From here on the candidates apply definitions at their arity, and so do the types that names are
bound to. Each function of matching fails with a malformed rank or not at all. -/

/-- Matching does not leave the types that apply definitions at their arity. -/
theorem Catalog.DeclaredAtArity.matchClosed {c : Catalog} (hc : c.DeclaredAtArity) :
    c.MatchClosed (fun _ => True) (c.AtArity 0) where
  reading _ _ ht hread := ht.of_structuralForm hread
  headArgs _ ht := ht.headArgs
  inherited _ _ ht ha := ht.of_inherits hc ha
  built _ _ _ _ hargs ht := .of_instance hargs ht

/-- The error of an array stand-in over something that encodes no rank. -/
def ResolutionError.IsMalformedRank (e : ResolutionError) : Prop :=
  ∃ rank, e = .instantiate (.malformedRank rank)

section Errors

variable {c : Catalog} (hc : c.DeclaredAtArity) (fuel : Nat)

/-- A type at its arity has a structural form unless it is an array stand-in whose rank is
malformed. -/
theorem failsOnly_structuralSolutions {α : Type} {t : Ty} (ht : c.AtArity 0 t)
    {f : Ty → Listing ResolutionError α}
    (hf : ∀ u, t.structuralForm = .ok u → (f u).FailsOnly ResolutionError.IsMalformedRank) :
    (structuralSolutions t f).FailsOnly ResolutionError.IsMalformedRank := by
  rw [structuralSolutions]
  cases hread : t.structuralForm with
  | error e =>
    obtain ⟨rank, rfl⟩ := ht.structuralForm_error hread
    exact Listing.failsOnly_failed ⟨rank, rfl⟩
  | ok u => exact hf u hread

/-- A comparison with a bound type reads two types, and what is read is compared without an error.
-/
theorem failsOnly_boundSolutions {candidate bound : Ty} (hu : c.AtArity 0 candidate)
    (ht : c.AtArity 0 bound) (v : Variance) :
    (boundSolutions c fuel v candidate bound).FailsOnly ResolutionError.IsMalformedRank :=
  failsOnly_structuralSolutions hu fun _ _ =>
    failsOnly_structuralSolutions ht fun _ _ => Listing.failsOnly_guard _ _

/-- Rebuilding an instance makes no error: a missed bound only means that there is no solution. -/
theorem failsOnly_rebuiltSolutions (v : Variance) (target : DefIndex) (candidate : Ty)
    (args : List Ty) {P : ResolutionError → Prop} :
    (rebuiltSolutions c fuel v target candidate args).FailsOnly P := by
  refine Listing.failsOnly_ofFueled fun result _ => ?_
  cases result with
  | error e => exact Listing.failsOnly_nothing
  | ok result => exact Listing.failsOnly_guard _ _

include hc

/-- An instance constraint with the right number of arguments fails like its sub-constraints do.
They are matched with the sites of the candidate, which consist of types at their arity. -/
theorem failsOnly_instanceSolutions {outer v : Variance} {target : DefIndex}
    {ks : List Constraint} (hcount : c.arity target = ks.length)
    {solve : Variance → Site → Listing ResolutionError (Bindings × List Ty)}
    (hsolve : ∀ inForce site, (∀ x ∈ site, c.AtArity 0 x) →
      (solve inForce site).FailsOnly ResolutionError.IsMalformedRank)
    {b : Bindings} (hb : b.In (c.AtArity 0)) {candidate : Ty} (hu : c.AtArity 0 candidate) :
    (instanceSolutions c fuel outer v target ks solve b candidate).FailsOnly
      ResolutionError.IsMalformedRank := by
  refine failsOnly_structuralSolutions hu fun u hread => ?_
  -- the kinds of types are tested, all other targets have sites
  rcases Marker.ofDefinition? target with _ | _ | _ | _ | _ | _
  case some.valueType =>
    dsimp only
    split <;> exact Listing.failsOnly_ofList _
  case some.referenceType =>
    dsimp only
    split <;> exact Listing.failsOnly_ofList _
  all_goals
    rw [checkArgCount, if_pos hcount]
    refine Listing.failsOnly_ofFueled fun found hfound => Listing.failsOnly_concat fun p hp => ?_
    obtain ⟨site, hsite, rfl⟩ := List.mem_map.mp hp
    have hmem := hc.matchClosed.mem_sites hb (hu.of_structuralForm hread)
      (fun k _ => k.over_true) hfound site hsite
    exact (hsolve _ site hmem.1).each false fun _ _ =>
      (failsOnly_rebuiltSolutions fuel _ _ _ _).map _

mutual
/-- A checked argument fails with a malformed rank only. In particular it is no negation, whose
check would have failed. -/
theorem failsOnly_argSolutions {outer : Variance} {arg : Ty} (harg : c.AtArity 0 arg)
    {b : Bindings} (hb : b.In (c.AtArity 0)) : (k : Constraint) → k.check c .argument = .ok () →
    (argSolutions c fuel outer arg b k).FailsOnly ResolutionError.IsMalformedRank
  | .wildcard, _ => Listing.failsOnly_one _
  | .param name v, _ => by
    rw [argSolutions]
    split
    · exact Listing.failsOnly_one _
    · next bound hbound => exact (failsOnly_boundSolutions fuel harg (hb name bound hbound) _).map _
  | .instanceOf target v args, hk => by
    obtain ⟨hcount, hargs⟩ := Constraint.check_instanceOf_ok hk
    rw [argSolutions]
    exact failsOnly_instanceSolutions hc fuel hcount
      (fun inForce site hsite => failsOnly_siteSolutions hsite hb args hargs) hb harg
  | .negation inner, hk => by cases (Constraint.check_negation_ok hk).1

/-- The arguments of a site fail with a malformed rank only. -/
theorem failsOnly_siteSolutions {outer : Variance} {site : Site}
    (hsite : ∀ x ∈ site, c.AtArity 0 x) {b : Bindings} (hb : b.In (c.AtArity 0)) :
    (ks : List Constraint) → (∀ k ∈ ks, k.check c .argument = .ok ()) →
    (siteSolutions c fuel outer site b ks).FailsOnly ResolutionError.IsMalformedRank
  | [], _ => by
    rw [siteSolutions]
    exact Listing.failsOnly_one _
  | k :: ks, hks => by
    obtain ⟨hk, hks⟩ := List.forall_mem_cons.mp hks
    cases site with
    | nil =>
      rw [siteSolutions]
      exact Listing.failsOnly_one _
    | cons arg rest =>
      obtain ⟨harg, hrest⟩ := List.forall_mem_cons.mp hsite
      rw [siteSolutions]
      refine failsOnly_structuralSolutions harg fun u hread => ?_
      have hu := harg.of_structuralForm hread
      refine (failsOnly_argSolutions hu hb k hk).each false fun p hp => ?_
      have hin := (hc.matchClosed.in_argSolutions hu hb k k.over_true hp).1
      exact (failsOnly_siteSolutions hrest hin ks hks).map _
end

mutual
/-- So do the constraints of a slot, at their outermost place. A negation may stand here, and what
stands under it was checked too. -/
theorem failsOnly_constraintSolutions {outer : Variance} {candidate : Ty}
    (hu : c.AtArity 0 candidate) {b : Bindings} (hb : b.In (c.AtArity 0)) :
    (k : Constraint) → k.check c .slot = .ok () →
    (constraintSolutions c fuel outer candidate b k).FailsOnly ResolutionError.IsMalformedRank
  | .wildcard, _ => Listing.failsOnly_one _
  | .param name v, _ => by
    rw [constraintSolutions]
    split
    · exact Listing.failsOnly_one _
    · next bound hbound => exact (failsOnly_boundSolutions fuel hu (hb name bound hbound) _).map _
  | .instanceOf target v args, hk => by
    obtain ⟨hcount, hargs⟩ := Constraint.check_instanceOf_ok hk
    rw [constraintSolutions]
    exact (failsOnly_instanceSolutions hc fuel hcount (fun inForce site hsite =>
      failsOnly_siteSolutions hc fuel hsite hb args hargs) hb hu).map _
  | .negation inner, hk => by
    rw [constraintSolutions]
    exact (failsOnly_conjunctionSolutions hu hb inner (Constraint.check_negation_ok hk).2).ifNone
      (Listing.failsOnly_one _)

/-- And so do they one after another. -/
theorem failsOnly_conjunctionSolutions {outer : Variance} {candidate : Ty}
    (hu : c.AtArity 0 candidate) {b : Bindings} (hb : b.In (c.AtArity 0)) :
    (ks : List Constraint) → (∀ k ∈ ks, k.check c .slot = .ok ()) →
    (conjunctionSolutions c fuel outer candidate b ks).FailsOnly ResolutionError.IsMalformedRank
  | [], _ => Listing.failsOnly_one _
  | k :: ks, hks => by
    obtain ⟨hk, hks⟩ := List.forall_mem_cons.mp hks
    rw [conjunctionSolutions]
    refine (failsOnly_constraintSolutions hu hb k hk).each false fun b' hb' => ?_
    have hin := hc.matchClosed.in_constraintSolutions hu hb k k.over_true hb'
    exact failsOnly_conjunctionSolutions hu hin ks hks
end

/-- **Checked slots fail only at a malformed rank.** -/
theorem failsOnly_slotSolutions {slots : List Slot}
    (hslots : ∀ s ∈ slots, ∀ k ∈ s.constraints, k.check c .slot = .ok ()) {candidates : List Ty}
    (hcandidates : ∀ t ∈ candidates, c.AtArity 0 t) {b : Bindings} (hb : b.In (c.AtArity 0)) :
    (slotSolutions c fuel slots candidates b).FailsOnly ResolutionError.IsMalformedRank := by
  induction slots generalizing candidates b with
  | nil => exact Listing.failsOnly_one _
  | cons slot slots ih =>
    obtain ⟨hslot, hslots⟩ := List.forall_mem_cons.mp hslots
    cases candidates with
    | nil => exact Listing.failsOnly_nothing
    | cons candidate rest =>
      obtain ⟨hu, hrest⟩ := List.forall_mem_cons.mp hcandidates
      refine (failsOnly_conjunctionSolutions hc fuel hu hb slot.constraints hslot).each
        slot.definitive fun b' hb' => ?_
      have hin := hc.matchClosed.in_conjunctionSolutions hu hb slot.constraints
        (fun k _ => k.over_true) hb'
      exact ih hslots hrest hin

end Errors

/-! ## Directives

Directives build types from the inside to the outside, and the check cannot know all that this
takes: a name may be unbound, and bounds are met or missed by the types that names are bound to. -/

/-- The errors that checks cannot rule out: a name of `lacking` is not bound, an argument misses a
bound or is no rank, or a producer fails. -/
inductive ResolutionError.LeftOpen (lacking : String → Prop) : ResolutionError → Prop where
  /-- a name is not bound -/
  | unbound {x : String} (hx : lacking x) : LeftOpen lacking (.unboundParameter x)
  /-- an argument misses a bound -/
  | bound (d : DefIndex) (param : String) (arg : Ty) :
      LeftOpen lacking (.instantiate (.bound d param arg))
  /-- the rank of an array stand-in is malformed -/
  | malformedRank (rank : Ty) : LeftOpen lacking (.instantiate (.malformedRank rank))
  /-- a producer fails -/
  | producer (t : Ty) (failure : Failure) : LeftOpen lacking (.producer t failure)

namespace ResolutionError

variable {lacking lacking' : String → Prop} {e : ResolutionError}

/-- More names may be said to be lacking. -/
theorem LeftOpen.mono (h : e.LeftOpen lacking) (hsub : ∀ x, lacking x → lacking' x) :
    e.LeftOpen lacking' := by
  cases h with
  | unbound hx => exact .unbound (hsub _ hx)
  | bound d param arg => exact .bound d param arg
  | malformedRank rank => exact .malformedRank rank
  | producer t failure => exact .producer t failure

/-- A malformed rank is one of the errors that checks leave open. -/
theorem IsMalformedRank.leftOpen (h : e.IsMalformedRank) : e.LeftOpen lacking := by
  obtain ⟨rank, rfl⟩ := h
  exact .malformedRank rank

end ResolutionError

section Directives

variable {c : Catalog} {fuel : Nat} {b : Bindings}

mutual
/-- Building a type fails only as checks leave open, and if it lacks a name then one that the
constraint mentions and that nothing is bound to. -/
theorem requireType_error (hc : c.DeclaredAtArity) (hb : b.In (c.AtArity 0)) : (k : Constraint) →
    k.check c .directive = .ok () → {e : ResolutionError} →
    k.requireType c fuel b = some (.error e) → e.LeftOpen fun x => x ∈ k.names ∧ b.get? x = none
  | .wildcard, hk, _, _ => absurd rfl (Constraint.check_wildcard_ok hk)
  | .negation inner, hk, _, _ => by cases (Constraint.check_negation_ok hk).1
  | .param name v, _, e, h => by
    rw [Constraint.requireType] at h
    split at h
    · cases h
    · next hname =>
      obtain rfl := Except.error.inj (Option.some.inj h)
      exact .unbound ⟨List.mem_singleton_self name, hname⟩
  | .instanceOf target v args, hk, e, h => by
    obtain ⟨hcount, hargs⟩ := Constraint.check_instanceOf_ok hk
    rw [Constraint.requireType] at h
    split at h
    · cases h
    -- an argument could not be built, so its error is passed on
    · next e' he' =>
      obtain rfl := Except.error.inj (Option.some.inj h)
      exact (requireTypes_error hc hb args hargs he').mono fun x hx => hx
    · next ts hts =>
      obtain ⟨result, hresult, herror⟩ := Option.map_eq_some_iff.mp h
      cases result with
      | ok u => cases herror
      | error e' =>
        obtain rfl := Except.error.inj herror
        have hclosed : ∀ t ∈ ts, t.isClosed = true := fun t ht =>
          (hc.matchClosed.mem_requireTypes hb args (fun k _ => k.over_true) hts t ht).isClosed
        have hlength : ts.length = c.arity target :=
          (Constraint.length_requireTypes hts).trans hcount.symm
        rcases Catalog.instantiate_error hlength hclosed hresult with
          ⟨param, arg, rfl⟩ | ⟨rank, rfl⟩
        · exact .bound target param arg
        · exact .malformedRank rank

/-- **What a checked directive reports**: a name that is not bound, or an argument that its
definition refuses. -/
theorem requireTypes_error (hc : c.DeclaredAtArity) (hb : b.In (c.AtArity 0)) :
    (ks : List Constraint) → (∀ k ∈ ks, k.check c .directive = .ok ()) → {e : ResolutionError} →
    Constraint.requireTypes c fuel b ks = some (.error e) →
    e.LeftOpen fun x => x ∈ Constraint.namesAll ks ∧ b.get? x = none
  | [], _, e, h => by cases h
  | k :: ks, hks, e, h => by
    obtain ⟨hk, hks⟩ := List.forall_mem_cons.mp hks
    rw [Constraint.requireTypes] at h
    split at h
    · cases h
    · next e' he' =>
      obtain rfl := Except.error.inj (Option.some.inj h)
      exact (requireType_error hc hb k hk he').mono fun x hx => ⟨List.mem_append_left _ hx.1, hx.2⟩
    · obtain ⟨rest, hrest, herror⟩ := Option.map_eq_some_iff.mp h
      cases rest with
      | ok ts => cases herror
      | error e' =>
        obtain rfl := Except.error.inj herror
        exact (requireTypes_error hc hb ks hks hrest).mono fun x hx =>
          ⟨List.mem_append_right _ hx.1, hx.2⟩
end

end Directives

end TypeResolution

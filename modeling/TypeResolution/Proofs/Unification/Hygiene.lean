import TypeResolution.Catalog.BaseLibrary
import TypeResolution.Proofs.Unification.InPlace
import TypeResolution.Proofs.Unification.Validity

/-!
# Bindings are hygienic

Which names a solution binds can be read off the slots: the names that were bound before, and those
that the slots mention outside of negations. What is bound inside of a negation is gone when the
negation is done, and a name that stands in several places is bound once. The types of the names
that were bound before stay what they are.

A missing name would be the harm that a short site could do, since unification goes through a site
and the sub-constraints side by side and ends where either ends. But then there are too few
arguments to rebuild the instance from, and the site finds nothing (`adds_siteSolutions`). The one
exception are kind markers, which look at the candidate alone; names in their arguments, if they had
any, would not be bound. Checked slots have no such arguments (`binds_slotSolutions`).

The program that works in one environment leaves nothing behind either
(`slotBindings_hygienic`).

That names are bound exactly is shown in both directions at once (`Adds`): what a solution binds is
what was bound and what is mentioned. By recursion on the constraint, with sites beside it.
-/

namespace TypeResolution

/-! ## Names

The names that a constraint binds are those it mentions outside of negations. For kind markers this
is an over-approximation unless their arguments are bare, which is what a check on slots makes sure
of. -/

namespace Constraint

mutual
/-- Whether the kind markers that a constraint mentions outside of negations have no arguments. -/
def kindsBare : Constraint → Bool
  | .wildcard => true
  | .param .. => true
  | .instanceOf target _ args => (!isKindMarker target || args.isEmpty) && allKindsBare args
  | .negation _ => true

/-- Whether the kind markers that constraints mention outside of negations have no arguments. -/
def allKindsBare : List Constraint → Bool
  | [] => true
  | k :: ks => k.kindsBare && allKindsBare ks
end

variable {c : Catalog}

mutual
/-- The check of a constraint finds kind markers with arguments, since they are declared without
parameters. -/
theorem kindsBare_of_check {role : Role} : (k : Constraint) → k.check c role = .ok () →
    k.kindsBare = true
  | .wildcard, _ => rfl
  | .param .., _ => rfl
  | .negation _, _ => rfl
  | .instanceOf target v args, h => by
    obtain ⟨hcount, hargs⟩ := check_instanceOf_ok h
    rw [kindsBare, allKindsBare_of_check args hargs, Bool.and_true]
    cases hkind : isKindMarker target with
    | false => rfl
    | true =>
      rw [arity_eq_zero_of_isKindMarker c hkind] at hcount
      rw [List.length_eq_zero_iff.mp hcount.symm]
      rfl

/-- The same for a list of constraints. -/
theorem allKindsBare_of_check {role : Role} : (ks : List Constraint) →
    (∀ k ∈ ks, k.check c role = .ok ()) → allKindsBare ks = true
  | [], _ => rfl
  | k :: ks, h => by
    obtain ⟨hk, hks⟩ := List.forall_mem_cons.mp h
    rw [allKindsBare, kindsBare_of_check k hk, allKindsBare_of_check ks hks]
    rfl
end

end Constraint

namespace Bindings

/-- Some type is bound to each of the names. -/
def Binds (b : Bindings) (names : List String) : Prop := ∀ x ∈ names, b.get? x ≠ none

/-- Extending bindings keeps names bound. -/
theorem Binds.extend {b e : Bindings} {names : List String} (h : b.Binds names)
    (he : e.Extends b) : e.Binds names := by
  intro x hx
  obtain ⟨t, ht⟩ := Option.ne_none_iff_exists'.mp (h x hx)
  rw [he x t ht]
  exact Option.some_ne_none t

/-- Two lists of names are bound if both are. -/
theorem Binds.append {b : Bindings} {names names' : List String} (h : b.Binds names)
    (h' : b.Binds names') : b.Binds (names ++ names') :=
  fun x hx => (List.mem_append.mp hx).elim (h x) (h' x)

/-- One name is bound if it has a type. -/
theorem binds_singleton {b : Bindings} {x : String} {t : Ty} (h : b.get? x = some t) :
    b.Binds [x] := by
  intro y hy
  rw [List.mem_singleton.mp hy, h]
  exact Option.some_ne_none t

/-- The names that `e` binds are those that `b` binds and the given ones. -/
def Adds (e b : Bindings) (names : List String) : Prop :=
  ∀ x, e.get? x ≠ none ↔ b.get? x ≠ none ∨ x ∈ names

/-- Adding no name changes nothing. -/
theorem Adds.refl (b : Bindings) : b.Adds b [] := fun _ =>
  (or_iff_left List.not_mem_nil).symm

/-- Names that were added are bound. -/
theorem Adds.binds {e b : Bindings} {names : List String} (h : e.Adds b names) : e.Binds names :=
  fun x hx => (h x).mpr (.inr hx)

/-- What is added in two steps is added together. -/
theorem Adds.trans {e f b : Bindings} {xs ys : List String} (he : e.Adds f ys) (hf : f.Adds b xs) :
    e.Adds b (xs ++ ys) := by
  intro x
  rw [he x, hf x, List.mem_append, or_assoc]

/-- A name that is bound already is not added. -/
theorem adds_of_get? {b : Bindings} {x : String} {t : Ty} (h : b.get? x = some t) :
    b.Adds b [x] := by
  exact fun y => ⟨.inl, fun hy => hy.elim id (binds_singleton h y)⟩

/-- Binding a name adds it. -/
theorem adds_bind (b : Bindings) (x : String) (t : Ty) : (b.bind x t).Adds b [x] := by
  intro y
  rw [List.mem_singleton]
  by_cases hy : y = x
  · rw [hy, get?_bind_self]
    exact ⟨fun _ => .inr rfl, fun _ => Option.some_ne_none t⟩
  · rw [get?_bind_of_ne b t hy]
    exact (or_iff_left hy).symm

end Bindings

/-! ## Names that a solution binds

The listing of a constraint is taken apart along its solutions. A parameter binds its name or finds
it bound; an instance binds what its arguments bind, at some site. -/

section

variable (c : Catalog) (fuel : Nat)

mutual
/-- A solution of a sub-constraint adds the names that this binds. -/
theorem adds_argSolutions {outer : Variance} {arg : Ty} {b : Bindings} {p : Bindings × Ty} :
    (k : Constraint) → k.kindsBare = true → p ∈ (argSolutions c fuel outer arg b k).items →
    p.1.Adds b k.bindingNames
  | .wildcard, _, h => by
    rw [argSolutions] at h
    rw [List.mem_singleton.mp h]
    exact .refl b
  | .param name v, _, h => by
    rw [argSolutions] at h
    split at h
    · rw [List.mem_singleton.mp h]
      exact b.adds_bind name arg
    -- The name was bound before, so nothing new is bound, but the name is among those that are.
    · next bound hbound =>
      obtain ⟨t, -, rfl⟩ := List.mem_map.mp h
      exact Bindings.adds_of_get? hbound
  | .instanceOf target v args, hbare, h => by
    rw [Constraint.kindsBare, Bool.and_eq_true] at hbare
    obtain ⟨htarget, hargs⟩ := hbare
    rw [argSolutions] at h
    obtain ⟨u, -, ⟨hkind, rfl⟩ | ⟨hcount, site, ts, hts, hinstance, -⟩⟩ :=
      mem_instanceSolutions c fuel h
    · -- a kind marker has no arguments to bind names in
      rw [hkind] at htarget
      rw [Constraint.bindingNames, List.isEmpty_iff.mp htarget]
      exact .refl b
    · have hlength : ts.length = args.length := (c.length_of_instantiate hinstance).trans hcount
      exact adds_siteSolutions args hargs hts hlength
  | .negation inner, _, h => absurd h List.not_mem_nil

/-- A solution at a site that has an argument for each sub-constraint binds the names of all. -/
theorem adds_siteSolutions {outer : Variance} {site : Site} {b : Bindings}
    {q : Bindings × List Ty} : (ks : List Constraint) → Constraint.allKindsBare ks = true →
    q ∈ (siteSolutions c fuel outer site b ks).items → q.2.length = ks.length →
    q.1.Adds b (Constraint.bindingNamesAll ks)
  | [], _, h, _ => by
    rw [siteSolutions] at h
    rw [List.mem_singleton.mp h]
    exact .refl b
  | k :: ks, hbare, h, hlength => by
    rw [Constraint.allKindsBare, Bool.and_eq_true] at hbare
    cases site with
    | nil =>
      -- the site is too short
      rw [siteSolutions] at h
      rw [List.mem_singleton.mp h] at hlength
      cases hlength
    | cons arg rest =>
      rw [siteSolutions] at h
      obtain ⟨u, -, h⟩ := mem_structuralSolutions h
      obtain ⟨p, hp, h⟩ := Listing.mem_each h
      obtain ⟨q, hq, rfl⟩ := List.mem_map.mp h
      have hfirst := adds_argSolutions k hbare.1 hp
      exact (adds_siteSolutions ks hbare.2 hq (Nat.succ.inj hlength)).trans hfirst
end

/-- So does a solution of a constraint that stands in a slot. -/
theorem adds_constraintSolutions {outer : Variance} {candidate : Ty} {b e : Bindings}
    {k : Constraint} (hbare : k.kindsBare = true)
    (h : e ∈ (constraintSolutions c fuel outer candidate b k).items) : e.Adds b k.bindingNames := by
  cases k with
  | wildcard =>
    rw [constraintSolutions] at h
    rw [List.mem_singleton.mp h]
    exact .refl b
  | param name v =>
    rw [constraintSolutions] at h
    split at h
    · rw [List.mem_singleton.mp h]
      exact b.adds_bind name candidate
    · next bound hbound =>
      obtain ⟨t, -, rfl⟩ := List.mem_map.mp h
      exact Bindings.adds_of_get? hbound
  | instanceOf target v args =>
    -- an instance is matched alike in a slot and below another constraint
    rw [constraintSolutions] at h
    obtain ⟨p, hp, rfl⟩ := List.mem_map.mp h
    rw [← argSolutions] at hp
    exact adds_argSolutions c fuel _ hbare hp
  | negation inner =>
    -- whatever the inside binds, the negation goes on with the bindings of before
    rw [constraintSolutions] at h
    rw [List.mem_singleton.mp (Listing.mem_ifNone h)]
    exact .refl b

/-- A solution of all constraints of a slot adds the names of all. -/
theorem adds_conjunctionSolutions {outer : Variance} {candidate : Ty} {b e : Bindings}
    {ks : List Constraint} (hbare : Constraint.allKindsBare ks = true)
    (h : e ∈ (conjunctionSolutions c fuel outer candidate b ks).items) :
    e.Adds b (Constraint.bindingNamesAll ks) := by
  induction ks generalizing b with
  | nil =>
    rw [conjunctionSolutions] at h
    rw [List.mem_singleton.mp h]
    exact .refl b
  | cons k ks ih =>
    rw [Constraint.allKindsBare, Bool.and_eq_true] at hbare
    rw [conjunctionSolutions] at h
    obtain ⟨b', hb', h⟩ := Listing.mem_each h
    exact (ih hbare.2 h).trans (adds_constraintSolutions c fuel hbare.1 hb')

/-- So does a solution of all slots. -/
theorem adds_slotSolutions {slots : List Slot}
    (hbare : ∀ s ∈ slots, Constraint.allKindsBare s.constraints = true) {candidates : List Ty}
    {b e : Bindings} (h : e ∈ (slotSolutions c fuel slots candidates b).items) :
    e.Adds b (Constraint.bindingNamesAll (slots.flatMap (·.constraints))) := by
  induction slots generalizing candidates b with
  | nil =>
    rw [slotSolutions] at h
    rw [List.mem_singleton.mp h]
    exact .refl b
  | cons slot slots ih =>
    obtain ⟨hslot, hslots⟩ := List.forall_mem_cons.mp hbare
    cases candidates with
    | nil => exact absurd h List.not_mem_nil
    | cons candidate rest =>
      obtain ⟨b', hb', h⟩ := Listing.mem_each h
      rw [List.flatMap_cons, Constraint.bindingNamesAll_append]
      exact (ih hslots h).trans (adds_conjunctionSolutions c fuel hslot hb')

/-- Checked slots leave no name unbound. -/
theorem binds_slotSolutions {slots : List Slot}
    (hslots : ∀ s ∈ slots, ∀ k ∈ s.constraints, k.check c .slot = .ok ()) {candidates : List Ty}
    {b e : Bindings} (h : e ∈ (slotSolutions c fuel slots candidates b).items) :
    e.Binds (Constraint.bindingNamesAll (slots.flatMap (·.constraints))) := by
  have hbare : ∀ s ∈ slots, Constraint.allKindsBare s.constraints = true := fun s hs =>
    Constraint.allKindsBare_of_check s.constraints (hslots s hs)
  exact (adds_slotSolutions c fuel hbare h).binds

/-! ## Hygiene

Three statements in one: about the sets of bindings that are delivered, about the environment that
is left behind, and about the environments in which the consumer is called. The last two are about
the program with one environment. -/

/-- **Matching is hygienic.** Every solution keeps the bindings of before and adds the names that
the slots mention outside of negations, no more and no less. In one environment, matching comes to
the same: the continuation is handed such environments only, and whatever it answers, the
environment is the one of before when the matching returns. -/
theorem slotBindings_hygienic {ν : Type} {slots : List Slot}
    (hbare : ∀ s ∈ slots, Constraint.allKindsBare s.constraints = true) (candidates : List Ty)
    (b : Bindings) :
    (∀ (stop : List Bindings → Bool),
      ∀ e ∈ ((slotBindings c fuel slots candidates b : Search ν _ _).run stop).items,
        e.Extends b ∧ e.Adds b (Constraint.bindingNamesAll (slots.flatMap (·.constraints)))) ∧
    ∀ (σ : Type) (k : InPlace.Continuation Bindings σ), InPlace.Restores id k → ∀ m : σ,
      InPlace.matchSlots c fuel slots candidates σ k b m =
          ⟨b, (slotBindings c fuel slots candidates b : Search ν _ _).feed k.replies m⟩ ∧
        ∀ e ∈ (InPlace.matchSlots c fuel slots candidates (σ × List Bindings)
            (InPlace.recording k) b (m, [])).reply.1.2,
          e.Extends b ∧ e.Adds b (Constraint.bindingNamesAll (slots.flatMap (·.constraints))) := by
  have hmem : ∀ e ∈ (slotBindings c fuel slots candidates b : Search ν _ _).listing.items,
      e.Extends b ∧
        e.Adds b (Constraint.bindingNamesAll (slots.flatMap (·.constraints))) := by
    intro e he
    rw [listing_slotBindings] at he
    exact ⟨extends_slotSolutions c fuel he, adds_slotSolutions c fuel hbare he⟩
  -- What is delivered is a beginning of what is listed. The program calls its continuation with the
  -- same environments, as it is the matcher.
  refine ⟨fun stop e he => ?_, fun σ k hk m => ⟨?_, fun e he => ?_⟩⟩
  · exact hmem e ((Search.runFrom_items_prefix stop [] _).subset he)
  · rw [hk.eq_restoring]
    exact InPlace.matchSlots_eq c fuel slots candidates b σ m k.replies
  · rw [hk.recording.eq_restoring, InPlace.matchSlots_eq (ν := ν),
      InPlace.replies_recording] at he
    obtain ⟨taken, htaken, heq⟩ := Search.feed_recording k.replies
      (slotBindings c fuel slots candidates b : Search ν _ _) m []
    rw [heq] at he
    exact hmem e (htaken.subset he)

end

/-- A sequence that is no pointer, and then an element of it. -/
def sequenceAndElement : List Slot :=
  [⟨[.instanceOf 11 .covariant [.named "T"], .negation [.marker .pointer [.named "P"]]], true⟩,
    ⟨[.named "T"], false⟩]

/-- An array of strings and a string are matched in one way, which binds `T` and not `P`, and a
continuation that has seen enough leaves the environment without either. -/
theorem sequenceAndElement_hygienic :
    let env : Bindings := [("U", .nominal 19)]
    let extended := env.bind "T" (.nominal 18)
    let candidates : List Ty := [.array 1 (.nominal 18), .nominal 18]
    (∀ s ∈ sequenceAndElement, Constraint.allKindsBare s.constraints = true) ∧
      (extended.Extends env ∧ extended.Adds env ["T", "T"]) ∧
      InPlace.matchSlots .baseLibrary 9 sequenceAndElement candidates Nat
          (InPlace.restoring id fun _ n => (n + 1, some (.ok .stopped))) env 0 =
        ⟨env, (1, some (.ok .stopped))⟩ := by
  intro env extended candidates
  have hbare : ∀ s ∈ sequenceAndElement, Constraint.allKindsBare s.constraints = true := by decide
  have hitems : ((slotBindings .baseLibrary 9 sequenceAndElement candidates env :
      Search Empty _ _).run Search.takeAll).items = [extended] := by
    decide +kernel
  obtain ⟨hfound, hplace⟩ :=
    slotBindings_hygienic (ν := Empty) .baseLibrary 9 hbare candidates env
  refine ⟨hbare, hfound Search.takeAll _ (hitems ▸ List.mem_singleton_self _), ?_⟩
  rw [(hplace Nat _ (fun _ _ => rfl) 0).1]
  rfl

end TypeResolution

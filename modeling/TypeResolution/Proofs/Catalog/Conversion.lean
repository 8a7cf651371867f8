import TypeResolution.Proofs.Catalog.Assignability

/-!
# Assignability one step at a time

There are three ways for a source to be assignable to a target: the source inherits the target, both
are arrays whose elements are assignable, or the source inherits an instance of the target's
definition whose arguments are convertible to those of the target. The last two ask about other
types, so they are stated for any relation `R` in place of assignability (`ArrayRelated`,
`InstanceRelated`).

Under some fuel the parts are related under less fuel (`AssignableIn.cases`), which is what
inductions over an answer go by. Without fuel, if all questions come to an answer, assignability is
related by its own parts (`assignable_iff`).

The relations are the same in both uses, and all of them are monotone in `R`. So what is shown of
the parts under some fuel can be read as being about the parts without fuel.
-/

namespace TypeResolution

open Filter

namespace Fueled

variable {α : Type} {p : α → Fueled Bool} {as : List α}

/-- All tests of a row pass together. -/
theorem all_eq_true_iff : all p as = some true ↔ ∀ a ∈ as, p a = some true := by
  induction as with
  | nil => exact iff_of_true rfl fun a ha => absurd ha List.not_mem_nil
  | cons a as ih =>
    rw [all, List.forall_mem_cons]
    rcases p a with _ | _ | _
    · simp
    · simp
    · simp [ih]

end Fueled

/-! ## Types that are related part by part

Arguments are compared in the direction of their parameter's variance, and only reference types are
compared at all: of a value type nothing but itself will do. Arrays are compared as if their element
were a covariant parameter. -/

/-- How two arguments are related at a parameter: forth, back, either way, or not at all. -/
def Variance.Directs (R : Ty → Ty → Prop) : Variance → Ty → Ty → Prop
  | .invariant, _, _ => False
  | .covariant, t, u => R t u
  | .contravariant, t, u => R u t
  | .ambivariant, t, u => R t u ∨ R u t

/-- What holds in the direction of a variance holds of a larger relation in that direction. -/
theorem Variance.Directs.mono {R S : Ty → Ty → Prop} (hRS : ∀ t u, R t u → S t u) {v : Variance}
    {t u : Ty} (h : v.Directs R t u) : v.Directs S t u := by
  cases v with
  | invariant => exact h
  | covariant => exact hRS t u h
  | contravariant => exact hRS u t h
  | ambivariant => exact h.imp (hRS t u) (hRS u t)

/-- The elements of a list at some position in three lists at once. -/
theorem mem_zip_zip_iff {α β γ : Type} {as : List α} {bs : List β} {cs : List γ} {a : α} {b : β}
    {e : γ} : (a, b, e) ∈ as.zip (bs.zip cs) ↔
      ∃ i : Nat, as[i]? = some a ∧ bs[i]? = some b ∧ cs[i]? = some e := by
  simp only [List.mem_iff_getElem?, List.getElem?_zip_eq_some]

namespace Catalog

section

variable (c : Catalog) (R : Ty → Ty → Prop)

/-- Arguments at a parameter of some variance are the same, or they are reference types that are
related as the variance directs. -/
def ArgumentRelated (v : Variance) (t u : Ty) : Prop :=
  t = u ∨ c.isReferenceType t = true ∧ c.isReferenceType u = true ∧ v.Directs R t u

/-- Lists of arguments are related one by one, as far as there are parameters for them. -/
structure ArgumentsRelated (params : List TypeParam) (ts us : List Ty) : Prop where
  /-- the lists are equally long -/
  length_eq : ts.length = us.length
  /-- arguments at a parameter are related as its variance directs -/
  related : ∀ (i : Nat) p t u, params[i]? = some p → ts[i]? = some t → us[i]? = some u →
    c.ArgumentRelated R p.variance t u

/-- Instances of one generic definition are related by their arguments. -/
def InstanceRelated (target source : Ty) : Prop :=
  ∃ d ts us, target = .named d ts ∧ source = .named d us ∧ ts ≠ [] ∧
    c.ArgumentsRelated R (c.definition d).params ts us

/-- Arrays of one rank are related by their elements, if the source holds references. -/
def ArrayRelated (target source : Ty) : Prop :=
  ∃ n t u, target = .array n t ∧ source = .array n u ∧ c.isReferenceType u = true ∧ R t u

/-- The target is assignable under some fuel. -/
def AssignableIn (fuel : Nat) (target source : Ty) : Prop :=
  c.isAssignable fuel target source = some true

end

variable {c : Catalog} {R S : Ty → Ty → Prop}

/-- Arguments stay related in a larger relation. -/
theorem ArgumentRelated.mono (hRS : ∀ t u, R t u → S t u) {v : Variance} {t u : Ty}
    (h : c.ArgumentRelated R v t u) : c.ArgumentRelated S v t u := by
  rcases h with h | ⟨ht, hu, h⟩
  · exact .inl h
  · exact .inr ⟨ht, hu, h.mono hRS⟩

/-- Instances stay related in a larger relation. -/
theorem InstanceRelated.mono (hRS : ∀ t u, R t u → S t u) {target source : Ty}
    (h : c.InstanceRelated R target source) : c.InstanceRelated S target source := by
  obtain ⟨d, ts, us, htarget, hsource, hne, hargs⟩ := h
  refine ⟨d, ts, us, htarget, hsource, hne, hargs.length_eq, ?_⟩
  intro i p t u hp ht hu
  exact (hargs.related i p t u hp ht hu).mono hRS

/-- Arrays stay related in a larger relation. -/
theorem ArrayRelated.mono (hRS : ∀ t u, R t u → S t u) {target source : Ty}
    (h : c.ArrayRelated R target source) : c.ArrayRelated S target source := by
  obtain ⟨n, t, u, htarget, hsource, hreference, h⟩ := h
  exact ⟨n, t, u, htarget, hsource, hreference, hRS t u h⟩

/-! ## What the tests of the parts say

The tests are given `assignable` as a function that may run out of fuel. If they affirm, then they
were affirmed by the parts, so they decide the relations over what that function affirms. -/

section

variable {assignable : Ty → Ty → Fueled Bool}

/-- Between different reference types the variance says what is asked. -/
theorem argumentConvertible_of_ne {v : Variance} {t u : Ty} (hne : t ≠ u)
    (ht : c.isReferenceType t = true) (hu : c.isReferenceType u = true) :
    c.argumentConvertible assignable v t u =
      match v with
      | .invariant => some false
      | .covariant => assignable t u
      | .contravariant => assignable u t
      | .ambivariant => Fueled.or (assignable t u) fun _ => assignable u t := by
  rw [argumentConvertible.eq_def, if_neg hne, ht, hu]
  rfl

/-- Arguments that pass their test are related. -/
theorem argumentRelated_of_convertible {v : Variance} {t u : Ty}
    (h : c.argumentConvertible assignable v t u = some true) :
    c.ArgumentRelated (fun t u => assignable t u = some true) v t u := by
  rw [argumentConvertible.eq_def] at h
  split at h
  · next heq => exact .inl heq
  · split at h
    · next hreferences =>
      rw [Bool.and_eq_true] at hreferences
      refine .inr ⟨hreferences.1, hreferences.2, ?_⟩
      -- For unequal references the variance decides which questions are asked: one for covariance,
      -- the one the other way for contravariance, either for ambivariance, none for invariance.
      cases v with
      | invariant => cases h
      | covariant => exact h
      | contravariant => exact h
      | ambivariant => exact Fueled.or_eq_true h
    · cases h

/-- Two instances pass their test if they are of the same definition, with arguments, and all of
these pass. -/
theorem instanceConvertible_iff {target source : Ty} :
    c.instanceConvertible assignable target source = some true ↔
      ∃ d ts us, target = .named d ts ∧ source = .named d us ∧ ts ≠ [] ∧ ts.length = us.length ∧
        ∀ (i : Nat) p t u, (c.definition d).params[i]? = some p → ts[i]? = some t →
          us[i]? = some u →
          c.argumentConvertible assignable p.variance t u = some true := by
  constructor
  · intro h
    -- Only names are tested. The list that is gone through holds the parameters together with both
    -- lists of arguments, so membership in it is having an index in all three.
    cases target with
    | named d ts =>
      cases source with
      | named e us =>
        rw [instanceConvertible] at h
        split at h
        · next hsame =>
          obtain ⟨rfl, hlength, hne⟩ := hsame
          refine ⟨d, ts, us, rfl, rfl, hne, hlength, ?_⟩
          intro i p t u hp ht hu
          exact Fueled.all_eq_true_iff.mp h (p, t, u) (mem_zip_zip_iff.mpr ⟨i, hp, ht, hu⟩)
        · cases h
      | _ => cases h
    | _ => cases h
  · rintro ⟨d, ts, us, rfl, rfl, hne, hlength, hargs⟩
    rw [instanceConvertible, if_pos ⟨rfl, hlength, hne⟩]
    apply Fueled.all_eq_true_iff.mpr
    rintro ⟨p, t, u⟩ hmem
    obtain ⟨i, hp, ht, hu⟩ := mem_zip_zip_iff.mp hmem
    exact hargs i p t u hp ht hu

/-- Instances that pass their test are related. -/
theorem instanceRelated_of_convertible {target source : Ty}
    (h : c.instanceConvertible assignable target source = some true) :
    c.InstanceRelated (fun t u => assignable t u = some true) target source := by
  obtain ⟨d, ts, us, htarget, hsource, hne, hlength, hargs⟩ := instanceConvertible_iff.mp h
  refine ⟨d, ts, us, htarget, hsource, hne, hlength, ?_⟩
  intro i p t u hp ht hu
  exact argumentRelated_of_convertible (hargs i p t u hp ht hu)

/-- Two arrays pass if they have the same rank, the source has references for elements, and the
elements pass. -/
theorem arrayConvertible_iff {target source : Ty} :
    c.arrayConvertible assignable target source = some true ↔
      c.ArrayRelated (fun t u => assignable t u = some true) target source := by
  constructor
  · intro h
    cases target with
    | array m t =>
      cases source with
      | array n u =>
        rw [arrayConvertible] at h
        split at h
        · next hsame =>
          obtain ⟨rfl, hreference⟩ := hsame
          exact ⟨m, t, u, rfl, rfl, hreference, h⟩
        · cases h
      | _ => cases h
    | _ => cases h
  · rintro ⟨n, t, u, rfl, rfl, hreference, h⟩
    rw [arrayConvertible, if_pos ⟨rfl, hreference⟩]
    exact h

end

/-! ## One step

What is assignable under some fuel is so under more. The steps need one more unit of fuel than the
parts, and finitely many parts have a common amount. -/

/-- Assignable under some fuel is assignable. -/
theorem AssignableIn.assignable {fuel : Nat} {target source : Ty}
    (h : c.AssignableIn fuel target source) : c.Assignable target source := ⟨fuel, h⟩

/-- **How a type is assignable under some fuel**: by inheritance, or by parts that are assignable
under less. -/
theorem AssignableIn.cases {fuel : Nat} {target source : Ty}
    (h : c.AssignableIn (fuel + 1) target source) :
    c.Inherits source target ∨ c.ArrayRelated (c.AssignableIn fuel) target source ∨
      ∃ a, c.Inherits source a ∧ c.InstanceRelated (c.AssignableIn fuel) target a := by
  rw [AssignableIn, isAssignable] at h
  split at h
  · next heq => exact .inl (heq ▸ .refl c source)
  · rcases Fueled.or_eq_true h with harray | hany
    · exact .inr (.inl (arrayConvertible_iff.mp harray))
    · split at hany
      · cases hany
      · next above habove =>
        obtain ⟨a, ha, htest⟩ := Fueled.any_eq_true hany
        have hinherits := (mem_ancestors_iff habove).mp ha
        split at htest
        · next heq => exact .inl (heq ▸ hinherits)
        · exact .inr (.inr ⟨a, hinherits, instanceRelated_of_convertible htest⟩)

/-- What is assignable is affirmed from some fuel on. -/
theorem Assignable.eventually {target source : Ty} (h : c.Assignable target source) :
    ∀ᶠ fuel in atTop, c.isAssignable fuel target source = some true := by
  obtain ⟨fuel, h⟩ := h
  exact Fueled.eventually_eq_some (fun h => c.isAssignable_le h target source) h

/-- A type is assignable if no answer says otherwise. -/
theorem AssignabilityEnds.assignable_of_ne_false (hends : c.AssignabilityEnds) {target source : Ty}
    (h : ∀ᶠ fuel in atTop, c.isAssignable (fuel + 1) target source ≠ some false) :
    c.Assignable target source := by
  obtain ⟨answer, hanswer⟩ := hends.settled target source
  obtain ⟨fuel, hanswer, hne⟩ := (((tendsto_add_atTop_nat 1).eventually hanswer).and h).exists
  cases answer with
  | false => exact absurd hanswer hne
  | true => exact ⟨fuel + 1, hanswer⟩

/-- If all questions end, then related arguments pass their test from some fuel on. -/
theorem AssignabilityEnds.eventually_argumentConvertible (hends : c.AssignabilityEnds)
    {v : Variance} {t u : Ty} (h : c.ArgumentRelated c.Assignable v t u) :
    ∀ᶠ fuel in atTop, c.argumentConvertible (c.isAssignable fuel) v t u = some true := by
  by_cases heq : t = u
  · apply Eventually.of_forall
    intro fuel
    rw [argumentConvertible.eq_def, if_pos heq]
  obtain ⟨ht, hu, h⟩ := h.resolve_left heq
  simp only [argumentConvertible_of_ne heq ht hu]
  -- In an ambivariant position the first question is asked first, and it has to end before the
  -- second one counts. That is what the hypothesis is for.
  cases v with
  | invariant => exact h.elim
  | covariant => exact h.eventually
  | contravariant => exact h.eventually
  | ambivariant =>
    rcases h with hforth | hback
    · filter_upwards [hforth.eventually] with fuel hforth
      rw [hforth, Fueled.or]
    · -- the first of the two tests has an answer too, whichever it is
      obtain ⟨answer, hforth⟩ := hends.settled t u
      filter_upwards [hforth, hback.eventually] with fuel hforth hback
      rw [hforth, hback]
      cases answer <;> rfl

/-- So do instances with related arguments. -/
theorem AssignabilityEnds.eventually_instanceConvertible (hends : c.AssignabilityEnds)
    {target source : Ty} (h : c.InstanceRelated c.Assignable target source) :
    ∀ᶠ fuel in atTop, c.instanceConvertible (c.isAssignable fuel) target source = some true := by
  obtain ⟨d, ts, us, rfl, rfl, hne, hargs⟩ := h
  have hall : ∀ᶠ fuel in atTop, ∀ q ∈ (c.definition d).params.zip (ts.zip us),
      c.argumentConvertible (c.isAssignable fuel) q.1.variance q.2.1 q.2.2 = some true := by
    refine eventually_forall_mem ?_
    rintro ⟨p, t, u⟩ hmem
    obtain ⟨i, hp, ht, hu⟩ := mem_zip_zip_iff.mp hmem
    exact hends.eventually_argumentConvertible (hargs.related i p t u hp ht hu)
  filter_upwards [hall] with fuel hall
  refine instanceConvertible_iff.mpr ⟨d, ts, us, rfl, rfl, hne, hargs.length_eq, ?_⟩
  intro i p t u hp ht hu
  exact hall (p, t, u) (mem_zip_zip_iff.mpr ⟨i, hp, ht, hu⟩)

/-- Arrays with related elements are assignable. -/
theorem AssignabilityEnds.assignable_of_arrays (hends : c.AssignabilityEnds) {target source : Ty}
    (h : c.ArrayRelated c.Assignable target source) : c.Assignable target source := by
  obtain ⟨n, t, u, rfl, rfl, hreference, h⟩ := h
  apply hends.assignable_of_ne_false
  -- a negative answer would be one about the elements
  filter_upwards [h.eventually] with fuel h hfalse
  rw [isAssignable] at hfalse
  split at hfalse
  · cases hfalse
  · obtain ⟨harray, -⟩ := Fueled.or_eq_false hfalse
    rw [arrayConvertible, if_pos ⟨rfl, hreference⟩, h] at harray
    cases harray

/-- A source is assignable to an instance that is related to one it inherits. -/
theorem AssignabilityEnds.assignable_of_instances (hends : c.AssignabilityEnds)
    {target source a : Ty} (ha : c.Inherits source a)
    (h : c.InstanceRelated c.Assignable target a) :
    c.Assignable target source := by
  apply hends.assignable_of_ne_false
  -- a negative answer would be one about every ancestor
  filter_upwards [hends.eventually_instanceConvertible h] with fuel h hfalse
  rw [isAssignable] at hfalse
  split at hfalse
  · cases hfalse
  · obtain ⟨-, hany⟩ := Fueled.or_eq_false hfalse
    split at hany
    · cases hany
    · next above habove =>
      have htest := Fueled.any_eq_false hany a ((mem_ancestors_iff habove).mpr ha)
      split at htest
      · cases htest
      · rw [h] at htest
        cases htest

/-- **When a type is assignable**: it inherits the target, or both are arrays of assignable
references, or it inherits an instance of the target's definition with convertible arguments. -/
theorem AssignabilityEnds.assignable_iff (hends : c.AssignabilityEnds) {target source : Ty} :
    c.Assignable target source ↔
      c.Inherits source target ∨ c.ArrayRelated c.Assignable target source ∨
        ∃ a, c.Inherits source a ∧ c.InstanceRelated c.Assignable target a := by
  constructor
  · rintro ⟨fuel, h⟩
    cases fuel with
    | zero => cases h
    | succ fuel =>
      have hless : ∀ t u, c.AssignableIn fuel t u → c.Assignable t u :=
        fun _ _ => AssignableIn.assignable
      rcases AssignableIn.cases h with h | h | ⟨a, ha, h⟩
      · exact .inl h
      · exact .inr (.inl (h.mono hless))
      · exact .inr (.inr ⟨a, ha, h.mono hless⟩)
  · rintro (h | h | ⟨a, ha, h⟩)
    · exact hends.assignable_of_inherits h
    · exact hends.assignable_of_arrays h
    · exact hends.assignable_of_instances ha h

end Catalog

end TypeResolution

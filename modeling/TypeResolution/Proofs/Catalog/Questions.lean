import TypeResolution.Proofs.Catalog.FiniteAncestry
import TypeResolution.Proofs.Catalog.Lineage

/-!
# The questions that assignability asks itself

Whether a type is assignable to another may depend on whether others are: the elements of arrays,
and the arguments of the target beside those of an instance that the source inherits. Elements are
smaller, and so are the arguments of the target. Those of the inherited instance need not be, and a
contravariant parameter changes the sides. So the questions may go around in a circle even if every
walk over the hierarchy ends: with a contravariant `N<Z>` and a class `C : N<N<C>>`, whether `C` is
assignable to `N<C>` is asked in order to answer whether it is.

* A question from which no chain of questions goes on forever is answered (`settled_of_acc`).
* There is no such chain if types can be *measured* as targets and as sources so that each question
  leads to smaller ones (`Measured.wellFounded`). Catalogs without contravariance have such
  measures, and so have catalogs whose declared types apply a definition to bare parameters and
  non-generic types, a class that implements a contravariant interface of itself included.
-/

namespace TypeResolution

open Filter

namespace Catalog

variable {c : Catalog}

/-! ## From a question to the next

A question is a pair of types, target and source. It is asked by another one if answering that one
may depend on it: at the elements of two arrays, or at an argument where the target and something
that the source inherits differ. The variance there decides on which side each of the two arguments
comes to stand. -/

/-- Two instances of a definition differ at a parameter of variance `v`, where the first has `t` and
the second has `u`, both of which are reference types. -/
def DifferAt (c : Catalog) (target source : Ty) (v : Variance) (t u : Ty) : Prop :=
  ∃ d ts us p, target = .named d ts ∧ source = .named d us ∧ ts.length = us.length ∧
    (p, t, u) ∈ (c.definition d).params.zip (ts.zip us) ∧ p.variance = v ∧
      t ≠ u ∧ c.isReferenceType t = true ∧ c.isReferenceType u = true

/-- The first question, of a target and a source, may have to be answered for the second. -/
inductive AskedBy (c : Catalog) : Ty × Ty → Ty × Ty → Prop where
  /-- arrays are compared by their elements -/
  | elements {n : Nat} {t u : Ty} (hne : t ≠ u) (hreference : c.isReferenceType u = true) :
      AskedBy c (t, u) (.array n t, .array n u)
  /-- instances are compared by the arguments where they differ -/
  | forth {target source a t u : Ty} {v : Variance} (hne : target ≠ source)
      (ha : c.Inherits source a) (hdiffer : c.DifferAt target a v t u)
      (hv : v = .covariant ∨ v = .ambivariant) : AskedBy c (t, u) (target, source)
  /-- the other way around if the parameter is contravariant -/
  | back {target source a t u : Ty} {v : Variance} (hne : target ≠ source)
      (ha : c.Inherits source a) (hdiffer : c.DifferAt target a v t u)
      (hv : v = .contravariant ∨ v = .ambivariant) : AskedBy c (u, t) (target, source)

section

variable {assignable : Nat → Ty → Ty → Fueled Bool}

/-- The test of two arrays is answered if the question about their elements is. -/
theorem settled_arrayConvertible {target source : Ty}
    (h : ∀ n t u, target = .array n t → source = .array n u → c.isReferenceType u = true →
      Fueled.Settled fun fuel => assignable fuel t u) :
    Fueled.Settled fun fuel => c.arrayConvertible (assignable fuel) target source := by
  cases target with
  | array m t =>
    cases source with
    | array n u =>
      simp only [arrayConvertible]
      split
      · next hsame => exact h m t u rfl (hsame.1 ▸ rfl) hsame.2
      · exact .const false
    | _ => exact .const false
  | _ => exact .const false

/-- A question about arguments is settled if those that the variance leads to are. -/
theorem settled_argumentConvertible {v : Variance} {t u : Ty}
    (h : t ≠ u → c.isReferenceType t = true → c.isReferenceType u = true →
      (v = .covariant ∨ v = .ambivariant → Fueled.Settled fun fuel => assignable fuel t u) ∧
        (v = .contravariant ∨ v = .ambivariant → Fueled.Settled fun fuel => assignable fuel u t)) :
    Fueled.Settled fun fuel => c.argumentConvertible (assignable fuel) v t u := by
  simp only [argumentConvertible]
  split
  · exact .const true
  · next hne =>
    split
    · next hreferences =>
      rw [Bool.and_eq_true] at hreferences
      obtain ⟨hforth, hback⟩ := h hne hreferences.1 hreferences.2
      cases v with
      | invariant => exact .const false
      | covariant => exact hforth (.inl rfl)
      | contravariant => exact hback (.inl rfl)
      | ambivariant => exact (hforth (.inr rfl)).or (hback (.inr rfl))
    · exact .const false

/-- The test of two instances is answered if the questions about the arguments at which they differ
are. -/
theorem settled_instanceConvertible {target source : Ty}
    (h : ∀ v t u, c.DifferAt target source v t u →
      (v = .covariant ∨ v = .ambivariant → Fueled.Settled fun fuel => assignable fuel t u) ∧
        (v = .contravariant ∨ v = .ambivariant → Fueled.Settled fun fuel => assignable fuel u t)) :
    Fueled.Settled fun fuel => c.instanceConvertible (assignable fuel) target source := by
  cases target with
  | named d ts =>
    cases source with
    | named e us =>
      simp only [instanceConvertible]
      split
      · next hsame =>
        obtain ⟨rfl, hlength, -⟩ := hsame
        -- All parameters are tested one after another. Each of them leads to its own questions, and
        -- these are the ones that the hypothesis answers.
        refine .all ?_
        intro p hp
        apply settled_argumentConvertible
        intro hne ht hu
        apply h
        exact ⟨d, ts, us, p.1, rfl, rfl, hlength, hp, rfl, hne, ht, hu⟩
      · exact .const false
    | _ => exact .const false
  | _ => exact .const false

end

/-- A question is answered if all questions are that may have to be answered for it. -/
theorem HierarchyEnds.settled_isAssignable (hends : c.HierarchyEnds) {target source : Ty}
    (h : ∀ t u, c.AskedBy (t, u) (target, source) →
      Fueled.Settled fun fuel => c.isAssignable fuel t u) :
    Fueled.Settled fun fuel => c.isAssignable fuel target source := by
  -- Equal types need no further answer. Otherwise there are two tests, each answered from some fuel
  -- on: the one of arrays, and the one of the instances that the source inherits, for which the
  -- walk over its ancestors has to end first.
  by_cases hne : target = source
  · refine .of_eq_some (n := 1) (fun h => c.isAssignable_le h target source) (a := true) ?_
    rw [hne, isAssignable_self]
  obtain ⟨above, habove⟩ := hends.settled source
  have harray : Fueled.Settled fun fuel =>
      c.arrayConvertible (c.isAssignable fuel) target source := by
    refine settled_arrayConvertible ?_
    rintro n t u rfl rfl hreference
    exact h t u (.elements (fun heq => hne (heq ▸ rfl)) hreference)
  have hinstance : ∀ a, c.Inherits source a → Fueled.Settled fun fuel =>
      c.instanceConvertible (c.isAssignable fuel) target a := by
    intro a ha
    apply settled_instanceConvertible
    intro v t u hdiffer
    constructor
    · intro hv
      exact h t u (.forth hne ha hdiffer hv)
    · intro hv
      exact h u t (.back hne ha hdiffer hv)
  have hany : Fueled.Settled fun fuel => Fueled.any (fun ancestor =>
      if ancestor = target then some true
      else c.instanceConvertible (c.isAssignable fuel) target ancestor) above := by
    refine .any fun a ha => ?_
    split
    · exact .const true
    · obtain ⟨fuel, habove⟩ := habove.exists
      exact hinstance a ((mem_ancestors_iff habove).mp ha)
  obtain ⟨answer, hor⟩ := harray.or hany
  obtain ⟨fuel, hor, habove⟩ := (hor.and habove).exists
  dsimp only at habove
  refine .of_eq_some (n := fuel + 1) (fun h => c.isAssignable_le h target source) (a := answer) ?_
  rw [isAssignable, habove, if_neg hne]
  exact hor

/-- **A question is answered if no chain of questions goes on forever from it.** -/
theorem settled_of_acc (hends : c.HierarchyEnds) {q : Ty × Ty} (h : Acc c.AskedBy q) :
    Fueled.Settled fun fuel => c.isAssignable fuel q.1 q.2 := by
  induction h with
  | intro q _ ih => exact hends.settled_isAssignable fun t u hasked => ih (t, u) hasked

/-- If no chain of questions goes on forever, all of them are answered. -/
theorem assignabilityEnds_of_wellFounded (hends : c.HierarchyEnds) (h : WellFounded c.AskedBy) :
    c.AssignabilityEnds := by
  intro target source
  obtain ⟨answer, hanswer⟩ := settled_of_acc hends (h.apply (target, source))
  obtain ⟨fuel, hanswer⟩ := hanswer.exists
  exact ⟨fuel, answer, hanswer⟩

/-! ## Measures

Chains are ruled out by two measures, one for the target and one for the source, that go down
together. A covariant argument stays on its side, a contravariant one changes it, so each measure is
compared with itself or with the other one. An ambivariant parameter asks both questions. -/

/-- Measures of types, one for targets and one for sources, under which each question is larger than
those that are asked for it: whatever becomes a part of the next question on the side of the target
is smaller than the target, and on the side of the source it is no larger than the source. -/
structure Measured (c : Catalog) (asTarget asSource : Ty → Nat) : Prop where
  /-- elements of arrays stay on their sides -/
  elements : ∀ n t, asTarget t < asTarget (.array n t) ∧ asSource t ≤ asSource (.array n t)
  /-- arguments stay on their sides at covariant parameters -/
  forth : ∀ target source a v t u, c.Inherits source a → c.DifferAt target a v t u →
    v = .covariant ∨ v = .ambivariant → asTarget t < asTarget target ∧ asSource u ≤ asSource source
  /-- arguments change sides at contravariant parameters -/
  back : ∀ target source a v t u, c.Inherits source a → c.DifferAt target a v t u →
    v = .contravariant ∨ v = .ambivariant →
      asSource t < asTarget target ∧ asTarget u ≤ asSource source

/-- No chain of questions goes on forever if there are measures that they lower. -/
theorem Measured.wellFounded {asTarget asSource : Ty → Nat} (h : c.Measured asTarget asSource) :
    WellFounded c.AskedBy := by
  refine Subrelation.wf ?_ (measure fun q : Ty × Ty => asTarget q.1 + asSource q.2).wf
  rintro ⟨t, u⟩ ⟨target, source⟩ hasked
  show asTarget t + asSource u < asTarget target + asSource source
  cases hasked with
  | @elements n _ _ _ _ =>
    obtain ⟨htarget, -⟩ := h.elements n t
    obtain ⟨-, hsource⟩ := h.elements n u
    omega
  | forth _ ha hdiffer hv =>
    obtain ⟨htarget, hsource⟩ := h.forth _ _ _ _ _ _ ha hdiffer hv
    omega
  | back _ ha hdiffer hv =>
    obtain ⟨htarget, hsource⟩ := h.back _ _ _ _ _ _ ha hdiffer hv
    omega

/-- The arguments of two instances that differ. -/
theorem DifferAt.mem_args {target source t u : Ty} {v : Variance}
    (h : c.DifferAt target source v t u) : t ∈ target.args ∧ u ∈ source.args := by
  obtain ⟨d, ts, us, p, rfl, rfl, -, hp, -⟩ := h
  exact List.of_mem_zip (List.of_mem_zip hp).2

/-- **Without contravariance assignability comes to an answer**: each question leads to questions
about smaller targets. -/
theorem assignabilityEnds_of_covariant (hends : c.HierarchyEnds)
    (hparams : ∀ d, ∀ p ∈ (c.definition d).params,
      p.variance ≠ .contravariant ∧ p.variance ≠ .ambivariant) : c.AssignabilityEnds := by
  have hmeasured : c.Measured Ty.depth fun _ => 0 := by
    refine ⟨fun n t => ⟨?_, Nat.le_refl 0⟩, ?_, ?_⟩
    · rw [Ty.depth]
      exact Nat.lt_succ_self _
    · intro target source a v t u _ hdiffer _
      exact ⟨Ty.depth_lt_of_mem_args hdiffer.mem_args.1, Nat.le_refl 0⟩
    · rintro target source a v t u _ ⟨d, ts, us, p, -, -, -, hp, rfl, -⟩ hv
      obtain ⟨hcontravariant, hambivariant⟩ := hparams d p (List.of_mem_zip hp).1
      exact (hv.elim hcontravariant hambivariant).elim
  exact assignabilityEnds_of_wellFounded hends hmeasured.wellFounded

/-! ## Shallow declarations

If declared types apply a definition to bare parameters and to non-generic types only, then nothing
that is inherited has deeper arguments than the type has itself. So each question leads to questions
about types that are less deep together, whichever way around. -/

/-- The arguments of every declared type are bare parameters and non-generic types. -/
structure Shallow (c : Catalog) : Prop where
  /-- the bases and interfaces of definitions -/
  declared : ∀ d, ∀ s ∈ c.declared d, s.isShallow = true
  /-- the base of arrays -/
  arrayBase : ∀ s ∈ c.arrayBase, s.isShallow = true
  /-- the interfaces of arrays -/
  arrayInterfaces : ∀ s ∈ c.arrayInterfaces, s.isShallow = true

/-- The type itself, or an instance whose arguments are less deep unless they have no depth. -/
def NoDeeper (t a : Ty) : Prop := a = t ∨ ∃ d us, a = .named d us ∧ ∀ u ∈ us, u.depth ≤ t.depth - 1

/-- The arguments of what is no deeper are less deep than the type. -/
theorem NoDeeper.depth_le {t a : Ty} (h : NoDeeper t a) : ∀ u ∈ a.args, u.depth ≤ t.depth - 1 := by
  rcases h with rfl | ⟨d, us, rfl, hus⟩
  · exact fun u hu => Nat.le_sub_one_of_lt (Ty.depth_lt_of_mem_args hu)
  · exact hus

/-- A shallow declaration over arguments of bounded depth has arguments of bounded depth. -/
theorem noDeeper_subst {s t : Ty} (hs : s.isShallow = true) {σ : List Ty}
    (hσ : ∀ u ∈ σ, u.depth ≤ t.depth - 1) : NoDeeper t (s.subst σ) := by
  obtain ⟨d, us, rfl, hus⟩ := Ty.exists_of_isShallow hs
  refine .inr ⟨d, us.map (Ty.subst σ), by rw [Ty.subst, Ty.substAll_eq_map], fun x hx => ?_⟩
  obtain ⟨u, hu, rfl⟩ := List.mem_map.mp hx
  rcases Ty.cases_of_depth_eq_zero (hus u hu) with ⟨i, rfl⟩ | ⟨e, rfl⟩
  · rw [Ty.subst, List.getD_eq_getElem?_getD]
    rcases hi : σ[i]? with _ | x
    · exact Nat.zero_le _
    · exact hσ x (List.mem_of_getElem? hi)
  · exact Nat.zero_le _

/-- A shallow step does not lead to deeper arguments. -/
theorem Shallow.noDeeper_step (hc : c.Shallow) {t s b : Ty} (hs : NoDeeper t s)
    (hb : c.HasBase s b ∨ c.Declares s b) : NoDeeper t b := by
  rcases step_cases hb with ⟨d, ts, r, rfl, hr, rfl⟩ | ⟨n, elem, rfl, hbase | ⟨-, r, hr, rfl⟩⟩
  · exact noDeeper_subst (hc.declared d r hr) hs.depth_le
  · obtain ⟨d, us, rfl, hus⟩ := Ty.exists_of_isShallow (hc.arrayBase b hbase)
    exact .inr ⟨d, us, rfl, fun u hu => hus u hu ▸ Nat.zero_le _⟩
  · refine noDeeper_subst (hc.arrayInterfaces r hr) fun u hu => ?_
    obtain rfl := List.mem_singleton.mp hu
    rcases hs with rfl | ⟨d, us, heq, -⟩
    · rw [Ty.depth, Nat.add_sub_cancel]
    · cases heq

/-- So no type that is inherited has arguments deeper than the type that inherits it. -/
theorem Shallow.depth_le (hc : c.Shallow) {t a : Ty} (h : c.Inherits t a) :
    ∀ u ∈ a.args, u.depth ≤ t.depth := by
  have hnoDeeper : NoDeeper t a := h.induction (.inl rfl)
    (fun s b hs hb => hc.noDeeper_step hs (.inl hb)) fun s i hs hi => hc.noDeeper_step hs (.inr hi)
  exact fun u hu => Nat.le_trans (hnoDeeper.depth_le u hu) (Nat.sub_le _ _)

/-- Depth is a measure for both sides. -/
theorem Shallow.measured (hc : c.Shallow) : c.Measured Ty.depth Ty.depth := by
  have hparts : ∀ target source a v t u, c.Inherits source a → c.DifferAt target a v t u →
      t.depth < target.depth ∧ u.depth ≤ source.depth := by
    intro target source a v t u ha hdiffer
    obtain ⟨ht, hu⟩ := hdiffer.mem_args
    exact ⟨Ty.depth_lt_of_mem_args ht, hc.depth_le ha u hu⟩
  refine ⟨fun n t => ?_, fun target source a v t u ha hdiffer _ => hparts _ _ _ v t u ha hdiffer,
    fun target source a v t u ha hdiffer _ => hparts _ _ _ v t u ha hdiffer⟩
  rw [Ty.depth]
  exact ⟨Nat.lt_succ_self _, Nat.le_succ _⟩

/-- In a shallow hierarchy whose walks end all questions are answered. -/
theorem Shallow.assignabilityEnds (hc : c.Shallow) (hends : c.HierarchyEnds) :
    c.AssignabilityEnds :=
  assignabilityEnds_of_wellFounded hends hc.measured.wellFounded

/-- Flat declarations are shallow. -/
theorem Flat.shallow (hc : c.Flat) : c.Shallow :=
  ⟨fun d s hs => Ty.isShallow_of_isFlat (hc.declared d s hs),
    fun s hs => Ty.isShallow_of_isFlat (hc.arrayBase s hs),
    fun s hs => Ty.isShallow_of_isFlat (hc.arrayInterfaces s hs)⟩

/-- **In a hierarchy of flat declarations assignability comes to an answer.** -/
theorem Flat.assignabilityEnds (hc : c.Flat) (hends : c.HierarchyEnds) : c.AssignabilityEnds :=
  hc.shallow.assignabilityEnds hends

/-! ## Which questions are answered

The theorem collects what has been shown: questions without an endless chain, catalogs without
contravariance, and catalogs with shallow declarations. -/

/-- **Assignability comes to an answer wherever its questions come to an end**, in every hierarchy
whose walks end: a question is answered if no chain of questions goes on forever from it. So all
questions are answered if no parameter is contravariant in any way, or if the declarations are
shallow. -/
theorem isAssignable_answers (hends : c.HierarchyEnds) :
    (∀ target source, Acc c.AskedBy (target, source) →
      ∃ fuel answer, c.isAssignable fuel target source = some answer) ∧
    ((∀ d, ∀ p ∈ (c.definition d).params,
      p.variance ≠ .contravariant ∧ p.variance ≠ .ambivariant) → c.AssignabilityEnds) ∧
    (c.Shallow → c.AssignabilityEnds) := by
  refine ⟨?_, ?_, ?_⟩
  · intro target source hacc
    obtain ⟨answer, hanswer⟩ := settled_of_acc hends hacc
    obtain ⟨fuel, hanswer⟩ := hanswer.exists
    exact ⟨fuel, answer, hanswer⟩
  · intro hparams
    exact assignabilityEnds_of_covariant hends hparams
  · intro hshallow
    exact hshallow.assignabilityEnds hends

/-- A contravariant interface `IComparable<T>`, and a class `Money` that implements it of itself. -/
def comparables : Catalog :=
  ofDefs
    [ { name := "IComparable`1", kind := .interfaceType,
        params := [{ name := "T", variance := .contravariant }] },
      { name := "Money", interfaces := [.named 8 [.nominal 9]] } ]

/-- The declared types of the comparables apply definitions to non-generic types. -/
theorem comparables_shallow : comparables.Shallow where
  declared := comparables.forall_declared (by decide)
  arrayBase := by decide
  arrayInterfaces := by decide

/-- Each definition of the comparables inherits from earlier ones. -/
theorem comparables_acyclic : comparables.Acyclic id where
  declared := comparables.forall_declared (by decide)
  arrayBase := by decide
  arrayInterfaces := by decide

/-- A class may implement a contravariant interface of itself. -/
theorem comparables_answers : comparables.HierarchyEnds ∧ comparables.AssignabilityEnds :=
  ⟨comparables_acyclic.hierarchyEnds,
    (isAssignable_answers comparables_acyclic.hierarchyEnds).2.2 comparables_shallow⟩

/-! ## A question that is asked forever -/

/-- A contravariant interface `N<Z>`, and a class `C` that implements `N<N<C>>`. -/
def selfApplied : Catalog :=
  ofDefs
    [ { name := "N`1", kind := .interfaceType,
        params := [{ name := "Z", variance := .contravariant }] },
      { name := "C", interfaces := [.named 8 [.named 8 [.nominal 9]]] } ]

/-- The hierarchy of the self-applied class has no circle, so it is not the walks that do not end.
-/
theorem selfApplied_acyclic : selfApplied.Acyclic id where
  declared := selfApplied.forall_declared (by decide)
  arrayBase := by decide
  arrayInterfaces := by decide

/-- **Walks that end do not make assignability come to an answer**: whether `C` is assignable to
`N<C>` depends on whether it is. -/
theorem selfApplied_never_answers :
    selfApplied.HierarchyEnds ∧
      ¬ ∃ fuel answer, selfApplied.isAssignable fuel (.named 8 [.nominal 9]) (.nominal 9) =
        some answer := by
  refine ⟨selfApplied_acyclic.hierarchyEnds, ?_⟩
  rintro ⟨fuel, answer, hanswer⟩
  induction fuel generalizing answer with
  | zero => cases hanswer
  | succ fuel ih =>
    have hunknown : selfApplied.isAssignable fuel (.named 8 [.nominal 9]) (.nominal 9) = none :=
      Option.eq_none_iff_forall_ne_some.mpr ih
    -- the parameter is contravariant, so the arguments are compared the other way around
    have haround : selfApplied.instanceConvertible (selfApplied.isAssignable fuel)
        (.named 8 [.nominal 9]) (.named 8 [.named 8 [.nominal 9]]) = none := by
      have hargument : selfApplied.argumentConvertible (selfApplied.isAssignable fuel)
          .contravariant (.nominal 9) (.named 8 [.nominal 9]) = none := by
        rw [argumentConvertible, if_neg (by decide), if_pos (by decide)]
        exact hunknown
      rw [instanceConvertible, if_pos (by decide)]
      exact congrArg (fun holds => Fueled.all (fun _ => holds) [()]) hargument
    have hself : selfApplied.instanceConvertible (selfApplied.isAssignable fuel)
        (.named 8 [.nominal 9]) (.nominal 9) = some false := rfl
    rw [isAssignable, if_neg (by decide)] at hanswer
    rcases habove : selfApplied.ancestors fuel (.nominal 9) with _ | above
    · rw [habove] at hanswer
      cases hanswer
    · obtain rfl : above = [.nominal 9, .named 8 [.named 8 [.nominal 9]]] :=
        Fueled.eq_of_answers (fun h => selfApplied.ancestors_le h _) habove (m := 3) rfl
      rw [habove] at hanswer
      dsimp only [Fueled.any] at hanswer
      rw [if_neg (by decide), hself, if_neg (by decide), haround] at hanswer
      cases hanswer

end Catalog

end TypeResolution

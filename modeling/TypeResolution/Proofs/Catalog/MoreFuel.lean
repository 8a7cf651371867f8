import TypeResolution.Catalog.Instantiation
import TypeResolution.Proofs.Search.MoreFuel

/-!
# More fuel for questions about a catalog

The walk over the hierarchy, assignability and instantiation give the same answer under more fuel.
Assignability recurses through two others, so its step is shown for any two tests of which the
second knows more (`Le.instanceConvertible`), and the recursion feeds itself in.

Lack of fuel is an answer of its own, `none`, and it is the least one. So what is to be shown is
that every function is monotone in its fuel with respect to the order in which `none` stands below
everything. An answer, once there is one, then stays.
-/

namespace TypeResolution.Catalog

variable (c : Catalog) {n m : Nat}

/-! ## The hierarchy

Fuel counts steps here, of the chain and of the walk. What the walk has found by then has no
influence on how the order is shown, so both lists are arbitrary. -/

/-- More fuel for the base chain does not change an answer. -/
theorem basesFrom_le (h : n ≤ m) (seen : List Ty) (t : Ty) :
    (c.basesFrom n seen t).Le (c.basesFrom m seen t) := by
  induction n generalizing m seen t with
  | zero => exact .none _
  | succ n ih =>
    obtain ⟨m, rfl⟩ : ∃ k, m = k + 1 := ⟨m - 1, by omega⟩
    rw [basesFrom, basesFrom]
    cases c.declaredBase? t with
    | none => exact .refl _
    | some base =>
      dsimp only
      split
      · exact .refl _
      · exact (ih (by omega) (base :: seen) base).map _

/-- More fuel for the walk over the interfaces does not, either. -/
theorem addInterfaces_le (h : n ≤ m) (found pending : List Ty) :
    (c.addInterfaces n found pending).Le (c.addInterfaces m found pending) := by
  -- With nothing pending the walk needs no fuel, so this case comes up on both sides of the
  -- induction.
  induction n generalizing m found pending with
  | zero =>
    cases pending with
    | nil =>
      rw [addInterfaces, addInterfaces]
      exact .refl _
    | cons t pending =>
      rw [addInterfaces]
      exact .none _
  | succ n ih =>
    obtain ⟨m, rfl⟩ : ∃ k, m = k + 1 := ⟨m - 1, by omega⟩
    cases pending with
    | nil =>
      rw [addInterfaces, addInterfaces]
      exact .refl _
    | cons t pending =>
      rw [addInterfaces, addInterfaces]
      split
      · exact ih (by omega) found pending
      · exact ih (by omega) (found ++ [t]) _

/-- **The ancestors of a type do not depend on the fuel** that finds them. -/
theorem ancestors_le (h : n ≤ m) (t : Ty) : (c.ancestors n t).Le (c.ancestors m t) := by
  rw [ancestors, ancestors, bases, bases]
  rcases (c.basesFrom_le h [t] t).none_or_some with hb | ⟨bases, hb, hb'⟩
  · rw [hb]
    exact .none _
  · rw [hb, hb']
    dsimp only
    rcases (c.addInterfaces_le h [t] ((t :: bases).flatMap c.declaredInterfaces)).none_or_some
      with hi | ⟨found, hi, hi'⟩
    · rw [hi]
      exact .none _
    · rw [hi, hi']
      exact .refl _

/-- The ancestors of a definition's open instance are found with more fuel as well. -/
theorem ancestorsOfDefinition_le (h : n ≤ m) (d : DefIndex) :
    (c.ancestorsOfDefinition n d).Le (c.ancestorsOfDefinition m d) :=
  c.ancestors_le h (c.openInstance d)

/-! ## Assignability

Let `q` answer whatever `p` answers, and in the same way. Then the tests that are made of `q` know
more than those of `p`. -/

section

variable {p q : Ty → Ty → Fueled Bool}
  (hpq : ∀ target source, (p target source).Le (q target source))

include hpq

/-- The test of one argument respects this order. -/
theorem argumentConvertible_le (v : Variance) (target source : Ty) :
    (c.argumentConvertible p v target source).Le (c.argumentConvertible q v target source) := by
  unfold argumentConvertible
  split
  · exact .refl _
  · split
    · cases v with
      | invariant => exact .refl _
      | covariant => exact hpq target source
      | contravariant => exact hpq source target
      | ambivariant => exact (hpq target source).or (hpq source target)
    · exact .refl _

/-- The test of two instances respects it. -/
theorem instanceConvertible_le (target source : Ty) :
    (c.instanceConvertible p target source).Le (c.instanceConvertible q target source) := by
  unfold instanceConvertible
  split
  · split
    · exact Fueled.Le.all (fun _ => c.argumentConvertible_le hpq _ _ _) _
    · exact .refl _
  · exact .refl _

/-- The test of two arrays respects it. -/
theorem arrayConvertible_le (target source : Ty) :
    (c.arrayConvertible p target source).Le (c.arrayConvertible q target source) := by
  unfold arrayConvertible
  split
  · split
    · exact hpq _ _
    · exact .refl _
  · exact .refl _

end

/-- **Assignability does not depend on the fuel** that decides it. -/
theorem isAssignable_le (h : n ≤ m) (target source : Ty) :
    (c.isAssignable n target source).Le (c.isAssignable m target source) := by
  induction n generalizing m target source with
  | zero => exact .none _
  | succ n ih =>
    obtain ⟨m, rfl⟩ : ∃ k, m = k + 1 := ⟨m - 1, by omega⟩
    have hle : n ≤ m := by omega
    have hrec := fun target source => ih hle target source
    rw [isAssignable, isAssignable]
    split
    · exact .refl _
    · refine (c.arrayConvertible_le hrec target source).or ?_
      rcases (c.ancestors_le hle source).none_or_some with ha | ⟨above, ha, ha'⟩
      · rw [ha]
        exact .none _
      · rw [ha, ha']
        refine .any (fun ancestor => ?_) above
        split
        · exact .refl _
        · exact c.instanceConvertible_le hrec target ancestor

/-! ## Instantiation

The bounds of a definition are checked one by one, by asking for assignability. The first that is
missed is reported, and there is a first only if those before it have been answered. -/

/-- Whether one bound is met is answered alike with more fuel. -/
theorem meets_le (h : n ≤ m) (args : List Ty) (arg : Ty) (bound : Bound) :
    (c.meets n args arg bound).Le (c.meets m args arg bound) := by
  cases bound with
  | referenceType => exact .refl _
  | valueType => exact .refl _
  | implements required => exact c.isAssignable_le h _ _

/-- So is the search for the first one that is missed. -/
theorem firstMissed_le (h : n ≤ m) (args : List Ty) (params : List (TypeParam × Ty)) :
    (c.firstMissed n args params).Le (c.firstMissed m args params) := by
  induction params with
  | nil => exact .refl _
  | cons q rest ih =>
    obtain ⟨param, arg⟩ := q
    rw [firstMissed, firstMissed]
    rcases (Fueled.Le.all (fun bound => c.meets_le h args arg bound) param.bounds).none_or_some
      with hb | ⟨met, hb, hb'⟩
    · rw [hb]
      exact .none _
    · rw [hb, hb']
      cases met with
      | false => exact .refl _
      | true => exact ih

/-- **Instantiation does not depend on the fuel** that its bounds are checked with. -/
theorem instantiate_le (h : n ≤ m) (d : DefIndex) (args : List Ty) :
    (c.instantiate n d args).Le (c.instantiate m d args) := by
  rw [instantiate, instantiate]
  split
  · exact .refl _
  · split
    · exact .refl _
    · dsimp only
      rcases (c.firstMissed_le h (args.map storedArg)
        ((c.definition d).params.zip (args.map storedArg))).none_or_some with hf | ⟨missed, hf, hf'⟩
      · rw [hf]
        exact .none _
      · rw [hf, hf']
        exact .refl _

end TypeResolution.Catalog

import TypeResolution.Proofs.Catalog.Questions
import TypeResolution.Proofs.Catalog.VarianceSafety

/-!
# When assignability is transitive

Not in every catalog: where arrays are lists of their elements, a `string[]` stands for an
`object[]`, and an `object[]` for a list of objects, but a `string[]` for a list of strings only.
Arrays are covariant and lists are not. Assignability is transitive if the declarations respect the
variance of parameters (`VarianceSafe.assignable_trans`).

Conversions then carry over to what is inherited, where they may sit deeper inside than before. So a
chain of two answers does not become shorter by following it upwards. What becomes shorter are the
answers that a conversion was built from, which is why the induction is on *near* types: types that
are convertible by parts, in parts, and so on (`Near`).

So there are two inductions inside of each other. The outer one is on the fuel of both answers
together (`ComposeUpTo`), the inner one takes near types apart on one side. When an answer is
followed up to what the source inherits, fuel is given up; when near types are compared argument by
argument, it is not, but the types become parts.
-/

namespace TypeResolution.Catalog

open Relation

variable {c : Catalog}

/-! ## Near types

Assignability under bounded fuel is the base, and near types are what can be built on it by relating
parts. The constructors take the relation of the parts as a parameter, because the predicate would
occur under a quantifier otherwise. -/

/-- The least relation that holds where `B` does and of what is related part by part. -/
inductive Near (c : Catalog) (B : Ty → Ty → Prop) : Ty → Ty → Prop
  /-- types that `B` relates -/
  | base {t u : Ty} (h : B t u) : Near c B t u
  /-- instances whose arguments are near -/
  | instances {R : Ty → Ty → Prop} (hR : ∀ t u, R t u → Near c B t u) {t u : Ty}
      (h : c.InstanceRelated R t u) : Near c B t u
  /-- arrays whose elements are near -/
  | arrays {R : Ty → Ty → Prop} (hR : ∀ t u, R t u → Near c B t u) {t u : Ty}
      (h : c.ArrayRelated R t u) : Near c B t u

/-- Near types are related by the base, or part by part by nearness. -/
theorem Near.cases {B : Ty → Ty → Prop} {t u : Ty} (h : c.Near B t u) :
    B t u ∨ c.PartsRelated (c.Near B) t u := by
  cases h with
  | base h => exact .inl h
  | instances hR h => exact .inr (.inr (.inl (h.mono hR)))
  | arrays hR h => exact .inr (.inr (.inr (h.mono hR)))

/-- Near types are assignable if those are that they are built from. -/
theorem Near.assignable (hends : c.AssignabilityEnds) {B : Ty → Ty → Prop}
    (hB : ∀ t u, B t u → c.Assignable t u) {t u : Ty} (h : c.Near B t u) : c.Assignable t u := by
  induction h with
  | base h => exact hB _ _ h
  | instances _ h ih => exact hends.assignable_of_instances (.refl c _) (h.mono ih)
  | arrays _ h ih => exact hends.assignable_of_arrays (h.mono ih)

/-- Only reference types are assignable from reference types. -/
theorem VarianceSafe.isReferenceType_of_assignable (hc : c.VarianceSafe)
    (hends : c.AssignabilityEnds) {t u : Ty} (h : c.Assignable t u)
    (hu : c.isReferenceType u = true) : c.isReferenceType t = true := by
  rcases hends.assignable_iff.mp h with h | ⟨n, t, u, rfl, rfl, -⟩ | ⟨a, ha, h⟩
  · exact hc.isReferenceType_of_inherits h hu
  · rfl
  · -- whether an instance is a reference type is up to its definition
    obtain ⟨d, ts, us, rfl, rfl, -⟩ := h
    have hreference := hc.isReferenceType_of_inherits ha hu
    exact hreference

/-- Under some fuel a type is near another: by answers that were reached under it, in parts. -/
abbrev NearIn (c : Catalog) (fuel : Nat) : Ty → Ty → Prop := c.Near (c.AssignableIn fuel)

/-- If all questions end, near types are assignable. -/
theorem Near.assignable_in (hends : c.AssignabilityEnds) {n : Nat} {t u : Ty}
    (h : c.NearIn n t u) : c.Assignable t u :=
  h.assignable hends fun _ _ => AssignableIn.assignable

/-- So are types that are related by near parts. -/
theorem PartsRelated.assignable (hends : c.AssignabilityEnds) {n : Nat} {t u : Ty}
    (h : c.PartsRelated (c.NearIn n) t u) : c.Assignable t u := by
  rcases h with rfl | h | h
  · exact hends.assignable_of_inherits (.refl c t)
  · exact Near.assignable_in hends (.instances (fun _ _ h => h) h)
  · exact Near.assignable_in hends (.arrays (fun _ _ h => h) h)

/-- Nearness is a conversion in the sense in which declarations respect it. -/
theorem VarianceSafe.compatible_nearIn (hc : c.VarianceSafe) (hends : c.AssignabilityEnds)
    (n : Nat) : c.Compatible (c.NearIn n) where
  instances h := .instances (fun _ _ h => h) h
  arrays h := .arrays (fun _ _ h => h) h
  references h := hc.isReferenceType_of_assignable hends (h.assignable_in hends)

/-! ## Transitivity

An answer is one of three things: the source inherits the target, both are arrays, or an inherited
instance has convertible arguments. Composing two answers means to go through the cases of the
second, and to carry the first one along to what the second one inherits. -/

/-- What a type is assignable to, all that inherit from it are. -/
theorem VarianceSafe.assignable_of_inherits (hc : c.VarianceSafe) (hends : c.AssignabilityEnds)
    {a e e' : Ty} (h : c.Assignable a e') (he : c.Inherits e e') : c.Assignable a e := by
  rcases hends.assignable_iff.mp h with h | h | ⟨x, hx, h⟩
  · exact hends.assignable_of_inherits (hc.interfacesBaseless.inherits_trans he h)
  · -- arrays are inherited by themselves only
    obtain ⟨n, t, u, rfl, rfl, hu, h⟩ := h
    rcases hc.eq_or_named he with rfl | ⟨d, ts, heq⟩
    · exact hends.assignable_of_arrays ⟨n, t, u, rfl, rfl, hu, h⟩
    · cases heq
  · exact hends.assignable_of_instances (hc.interfacesBaseless.inherits_trans he hx) h

/-- Conversions of arguments compose if the relations do that they are built from. -/
theorem VarianceSafe.instanceRelated_comp (hc : c.VarianceSafe) {R S Q : Ty → Ty → Prop}
    (hR : ∀ t u, R t u → Q t u) (hS : ∀ t u, S t u → Q t u)
    (hRS : ∀ t u w, R t u → S u w → Q t w) (hSR : ∀ t u w, S t u → R u w → Q t w) {a b e : Ty}
    (hab : c.InstanceRelated R a b) (hbe : c.InstanceRelated S b e) : c.InstanceRelated Q a e := by
  obtain ⟨d, ts, us, rfl, rfl, hne, hab⟩ := hab
  obtain ⟨d', us', ws, heq, rfl, -, hbe⟩ := hbe
  obtain ⟨rfl, rfl⟩ := Ty.named.inj heq
  refine ⟨d, ts, ws, rfl, rfl, hne, hab.length_eq.trans hbe.length_eq, ?_⟩
  intro i p t w hp ht hw
  have hi : i < us.length := hab.length_eq ▸ (List.getElem?_eq_some_iff.mp ht).1
  have hu := List.getElem?_eq_getElem hi
  have hambivariant := hc.params d p (List.mem_of_getElem? hp)
  rcases hab.related i p t _ hp ht hu with rfl | ⟨ht', hu', htu⟩
  · exact (hbe.related i p _ w hp hu hw).mono hS
  · rcases hbe.related i p _ w hp hu hw with rfl | ⟨-, hw', huw⟩
    · exact .inr ⟨ht', hu', htu.mono hR⟩
    · refine .inr ⟨ht', hw', ?_⟩
      cases hv : p.variance with
      | ambivariant => exact absurd hv hambivariant
      | invariant =>
        rw [hv] at htu
        exact htu.elim
      | covariant =>
        rw [hv] at htu huw
        exact hRS t _ w htu huw
      | contravariant =>
        -- the way back, in the opposite order
        rw [hv] at htu huw
        exact hSR w _ t huw htu

/-- Answers that were reached under bounded fuel compose with near types on either side. -/
structure ComposeUpTo (c : Catalog) (bound : Nat) : Prop where
  /-- with near types at the source -/
  near_source : ∀ k n a b e, k + n ≤ bound →
    c.AssignableIn k a b → c.NearIn n b e → c.Assignable a e
  /-- with near types at the target -/
  near_target : ∀ k n a b e, k + n ≤ bound →
    c.NearIn n a b → c.AssignableIn k b e → c.Assignable a e

section

variable (hc : c.VarianceSafe) (hends : c.AssignabilityEnds) {bound k n : Nat} {a b e : Ty}

include hc hends

/-- A conversion by answers composes with one by near types. -/
theorem ComposeUpTo.assignable_of_instances (ih : c.ComposeUpTo bound) (hbound : k + n ≤ bound)
    (hab : c.InstanceRelated (c.AssignableIn k) a b) (hbe : c.PartsRelated (c.NearIn n) b e) :
    c.Assignable a e := by
  have hanswer : ∀ t u, c.AssignableIn k t u → c.Assignable t u := by
    intro t u h
    exact h.assignable
  rcases hbe with rfl | hbe | ⟨m, x, y, rfl, -⟩
  · exact hends.assignable_of_instances (.refl c b) (hab.mono hanswer)
  · refine hends.assignable_of_instances (.refl c e)
      (hc.instanceRelated_comp hanswer ?_ ?_ ?_ hab hbe)
    · exact fun _ _ => Near.assignable_in hends
    · exact fun t u w htu huw => ih.near_source k n t u w hbound htu huw
    · exact fun t u w htu huw => ih.near_target k n t u w hbound htu huw
  · obtain ⟨d, ts, us, -, heq, -⟩ := hab
    cases heq

/-- Near types at the source. Whatever made `a` assignable from `b` is found again above `e`. If
`b` is near `e` by an answer, that answer was reached under fuel for a step more than its parts. -/
theorem VarianceSafe.near_source (ih : ∀ m < bound, c.ComposeUpTo m) (hbound : k + n ≤ bound)
    (hab : c.AssignableIn k a b) (hbe : c.NearIn n b e) : c.Assignable a e := by
  -- If the second step is an answer itself, it is taken apart with less fuel. If it is by parts,
  -- then the first step decides, and what it inherits is carried over.
  rcases hbe.cases with hbe | hbe
  · cases n with
    | zero => cases hbe
    | succ n =>
      have hstep := (ih (k + n) (by omega)).near_source k n
      rcases hbe.cases with he | he | ⟨e', he', hinstance⟩
      · exact hc.assignable_of_inherits hends hab.assignable he
      · exact hstep a b e (Nat.le_refl _) hab (.arrays (fun _ _ => .base) he)
      · have hae' := hstep a b e' (Nat.le_refl _) hab (.instances (fun _ _ => .base) hinstance)
        exact hc.assignable_of_inherits hends hae' he'
  · have hR := hc.compatible_nearIn hends n
    cases k with
    | zero => cases hab
    | succ k =>
      have hstep := ih (k + n) (by omega)
      rcases hab.cases with hb | harray | ⟨b', hb', hinstance⟩
      · obtain ⟨e', he', hrelated⟩ := hc.inherits_related hR hbe hb
        exact hc.assignable_of_inherits hends (hrelated.assignable hends) he'
      · obtain ⟨m, x, y, rfl, rfl, hy, hxy⟩ := harray
        rcases hbe with rfl | ⟨d, ts, us, heq, -⟩ | ⟨m', y', z, heq, rfl, hz, hyz⟩
        · exact hab.assignable
        · cases heq
        · obtain ⟨rfl, rfl⟩ := Ty.array.inj heq
          have hxz := hstep.near_source k n x y z (Nat.le_refl _) hxy hyz
          exact hends.assignable_of_arrays ⟨m, x, z, rfl, rfl, hz, hxz⟩
      · obtain ⟨e', he', hrelated⟩ := hc.inherits_related hR hbe hb'
        have hae' := hstep.assignable_of_instances hc hends (Nat.le_refl _) hinstance hrelated
        exact hc.assignable_of_inherits hends hae' he'

/-- Near types at the target. The middle type is an array or an instance, of which the parts are
near; or it is near by an answer, which is a case of near types at the source. -/
theorem VarianceSafe.near_target (ih : ∀ m < bound, c.ComposeUpTo m) (hbound : k + n ≤ bound)
    (hab : c.NearIn n a b) (hbe : c.AssignableIn k b e) : c.Assignable a e := by
  have hassignable := hab.assignable_in hends
  -- The same with the sides exchanged. A first step that is an answer is the case that has been
  -- treated.
  rcases hab.cases with hab | hab
  · exact hc.near_source hends ih (Nat.add_comm k n ▸ hbound) hab (.base hbe)
  · cases k with
    | zero => cases hbe
    | succ k =>
      have hstep := ih (k + n) (by omega)
      rcases hbe.cases with hb | ⟨m, y, z, rfl, rfl, hz, hyz⟩ | ⟨e', he', hinstance⟩
      · exact hc.assignable_of_inherits hends hassignable hb
      · rcases hab with rfl | ⟨d, ts, us, -, heq, -⟩ | ⟨m', x, y', rfl, heq, -, hxy⟩
        · exact hbe.assignable
        · cases heq
        · obtain ⟨rfl, rfl⟩ := Ty.array.inj heq
          have hxz := hstep.near_target k n x y z (Nat.le_refl _) hxy hyz
          exact hends.assignable_of_arrays ⟨m, x, z, rfl, rfl, hz, hxz⟩
      · rcases hab with rfl | hab | ⟨m, x, y, -, rfl, -⟩
        · exact hbe.assignable
        · refine hends.assignable_of_instances he'
            (hc.instanceRelated_comp ?_ ?_ ?_ ?_ hab hinstance)
          · exact fun _ _ => Near.assignable_in hends
          · exact fun _ _ => AssignableIn.assignable
          · exact fun t u w htu huw => hstep.near_target k n t u w (Nat.le_refl _) htu huw
          · exact fun t u w htu huw => hstep.near_source k n t u w (Nat.le_refl _) htu huw
        · obtain ⟨d, ts, us, heq, -⟩ := hinstance
          cases heq

/-- Answers compose with near types up to any bound on the fuel. -/
theorem VarianceSafe.composeUpTo (bound : Nat) : c.ComposeUpTo bound := by
  induction bound using Nat.strongRecOn with
  | ind bound ih =>
    constructor
    · intro k n a b e hbound hab hbe
      exact hc.near_source hends ih hbound hab hbe
    · intro k n a b e hbound hab hbe
      exact hc.near_target hends ih hbound hab hbe

end

/-- **Assignability is transitive in hierarchies that respect variance**, where it comes to an
answer. -/
theorem VarianceSafe.assignable_trans (hc : c.VarianceSafe) (hends : c.AssignabilityEnds)
    {a b e : Ty} (hab : c.Assignable a b) (hbe : c.Assignable b e) : c.Assignable a e := by
  obtain ⟨k, hab⟩ := hab
  obtain ⟨n, hbe⟩ := hbe
  exact (hc.composeUpTo hends (k + n)).near_source k n a b e (Nat.le_refl _) hab (.base hbe)

/-- A root class, covariant sequences and contravariant comparers, strings that compare any objects,
and arrays that are sequences of their elements. -/
def sequences : Catalog :=
  (ofDefs
    [ { name := "object" },
      { name := "IEnumerable`1", kind := .interfaceType,
        params := [{ name := "T", variance := .covariant }] },
      { name := "IComparer`1", kind := .interfaceType,
        params := [{ name := "T", variance := .contravariant }] },
      { name := "string", base := some (.nominal 8), interfaces := [.named 10 [.nominal 8]] } ]
  ).withArrays (some (.nominal 8)) [.named 9 [.param 0]]

/-- The sequences of the example declare their interfaces in covariant places. -/
theorem sequences_varianceSafe : sequences.VarianceSafe where
  params := sequences.forall_params (by decide)
  declared := sequences.forall_declared (by decide)
  arrayInterfaces := by decide
  arrayBase := by decide
  references := sequences.forall_declared (by decide)
  arrayReferences := by decide
  interfaces := by
    have hbaseless : ∀ d, ∀ s ∈ sequences.declared d,
        s ∈ (sequences.definition d).interfaces → sequences.declaredBase? s = none :=
      sequences.forall_declared (by decide)
    exact fun d s hs => hbaseless d s (sequences.mem_declared_of_interface hs) hs
  interfacesOfArrays := by decide

/-- Their hierarchy has no circle. -/
theorem sequences_acyclic :
    sequences.Acyclic fun d => if d = Marker.array.definition then 100 else d where
  declared := sequences.forall_declared (by decide)
  arrayBase := by decide
  arrayInterfaces := by decide

/-- Its declared types are shallow. -/
theorem sequences_shallow : sequences.Shallow where
  declared := sequences.forall_declared (by decide)
  arrayBase := by decide
  arrayInterfaces := by decide

/-- An array of strings is a sequence of objects, since it is an array of objects. -/
theorem sequences_chain :
    sequences.VarianceSafe ∧ sequences.AssignabilityEnds ∧
      sequences.Assignable (.named 9 [.nominal 8]) (.array 1 (.nominal 8)) ∧
      sequences.Assignable (.array 1 (.nominal 8)) (.array 1 (.nominal 11)) ∧
      sequences.Assignable (.named 9 [.nominal 8]) (.array 1 (.nominal 11)) := by
  have hends := sequences_shallow.assignabilityEnds sequences_acyclic.hierarchyEnds
  have hforth : sequences.Assignable (.named 9 [.nominal 8]) (.array 1 (.nominal 8)) :=
    ⟨10, by decide⟩
  have harrays : sequences.Assignable (.array 1 (.nominal 8)) (.array 1 (.nominal 11)) :=
    ⟨10, by decide⟩
  exact ⟨sequences_varianceSafe, hends, hforth, harrays,
    sequences_varianceSafe.assignable_trans hends hforth harrays⟩

/-! ## Arrays as lists -/

/-- **Arrays that are lists of their elements break transitivity**: in the base library, which has
no ambivariant parameter and in which every question comes to an answer, an `object[]` is assignable
to `IList<object>` and a `string[]` to `object[]`, but no `string[]` to `IList<object>`. -/
theorem arraysAsLists_not_transitive :
    baseLibrary.AssignabilityEnds ∧
      (∀ d, ∀ p ∈ (baseLibrary.definition d).params, p.variance ≠ .ambivariant) ∧
      baseLibrary.Assignable (.named 12 [.nominal 8]) (.array 1 (.nominal 8)) ∧
      baseLibrary.Assignable (.array 1 (.nominal 8)) (.array 1 (.nominal 18)) ∧
      ¬ baseLibrary.Assignable (.named 12 [.nominal 8]) (.array 1 (.nominal 18)) := by
  refine ⟨baseLibrary_flat.assignabilityEnds baseLibrary_acyclic.hierarchyEnds,
    baseLibrary.forall_params (by decide), ⟨10, by decide⟩, ⟨10, by decide⟩, ?_⟩
  rintro ⟨fuel, h⟩
  have hfalse : baseLibrary.isAssignable 10 (.named 12 [.nominal 8]) (.array 1 (.nominal 18)) =
      some false := by decide
  have hsame := Fueled.eq_of_answers (fun h => baseLibrary.isAssignable_le h _ _) hfalse h
  cases hsame

end TypeResolution.Catalog

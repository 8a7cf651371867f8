import TypeResolution.Proofs.Catalog.FiniteAncestry
import TypeResolution.Proofs.Catalog.Lineage

/-!
# When inheriting is transitive

The walk over the ancestors of a type takes bases and interfaces differently. It follows the base
chain from the type itself, and it goes on from an interface only to the interfaces that this one
extends. So what a type inherits is closed under declared interfaces whatever the catalog is
(`Inherits.declares`), but an interface may have a base of its own, and this base the walk does not
look at (`basedInterface_not_closed`).

That is all that can go wrong. What the ancestors of a type inherit is inherited by the type exactly
if the bases of its ancestors are (`ancestors_closed_iff`), and a catalog in which nothing with a
base is declared as an interface has a transitive hierarchy (`InterfacesBaseless.inherits_trans`).
-/

namespace TypeResolution.Catalog

open Relation

variable {c : Catalog}

/-- The interfaces of what a type inherits are inherited. -/
theorem Inherits.declares {t a i : Ty} (h : c.Inherits t a) (hi : c.Declares a i) :
    c.Inherits t i := by
  obtain ⟨link, hlink, hreach⟩ := h
  exact ⟨link, hlink, hreach.tail hi⟩

/-- The base of a type is inherited. -/
theorem inherits_of_hasBase {t b : Ty} (h : c.HasBase t b) : c.Inherits t b :=
  ⟨b, .single h, .refl⟩

/-- If a type inherits the bases of all that it inherits, it inherits what these inherit. -/
theorem Inherits.trans_of_bases {t a x : Ty} (h : c.Inherits t a)
    (hbases : ∀ s b, c.Inherits t s → c.HasBase s b → c.Inherits t b) (hx : c.Inherits a x) :
    c.Inherits t x := by
  refine hx.induction h ?_ ?_
  · intro s b hs hb
    exact hbases s b hs hb
  · intro s i hs hi
    exact hs.declares hi

/-! ## Interfaces without bases

The condition is about declarations only: what a definition declares for an interface is a type of a
definition that has no base. It is not enough to ask it of the interfaces as they are declared.
Putting arguments in may turn a bare parameter into a type with a base, and for this reason an
interface must not be a parameter. -/

variable (c) in
/-- Nothing that is declared as an interface has a base. What a bare parameter stands for may have
one, so bare parameters are excluded too. -/
structure InterfacesBaseless : Prop where
  /-- the interfaces of definitions -/
  declared : ∀ d, ∀ s ∈ (c.definition d).interfaces, s.head? ≠ none ∧ c.declaredBase? s = none
  /-- the interfaces of arrays -/
  arrayInterfaces : ∀ s ∈ c.arrayInterfaces, s.head? ≠ none ∧ c.declaredBase? s = none

/-- A declared type without a base has none whatever is put in for its parameters. -/
theorem declaredBase?_subst_eq_none {s : Ty} (h : s.head? ≠ none ∧ c.declaredBase? s = none)
    (σ : List Ty) : c.declaredBase? (s.subst σ) = none := by
  obtain ⟨hhead, hbase⟩ := h
  cases s with
  | param i => exact absurd rfl hhead
  | named d ts =>
    rw [declaredBase?, Option.map_eq_none_iff] at hbase
    rw [Ty.subst, declaredBase?, hbase, Option.map_none]
  | array rank elem => exact hbase
  | pointer elem => rfl
  | byRef elem => rfl

namespace InterfacesBaseless

/-- Whatever is put in, no declared interface has a base. -/
theorem not_hasBase (hc : c.InterfacesBaseless) {t i b : Ty} (hi : c.Declares t i) :
    ¬ c.HasBase i b := by
  have hnone : c.declaredBase? i = none := by
    rcases hi.cases with ⟨d, ts, s, rfl, hs, rfl⟩ | ⟨elem, s, rfl, hs, rfl⟩
    · exact declaredBase?_subst_eq_none (hc.declared d s hs) ts
    · exact declaredBase?_subst_eq_none (hc.arrayInterfaces s hs) [elem]
  exact fun hb => absurd (hnone.symm.trans hb) (Option.some_ne_none b).symm

/-- Only types of the base chain have bases, and these are on the chain as well. -/
theorem inherits_base (hc : c.InterfacesBaseless) {t a b : Ty} (h : c.Inherits t a)
    (hb : c.HasBase a b) : c.Inherits t b := by
  obtain ⟨link, hlink, hreach⟩ := h
  rcases ReflTransGen.cases_tail hreach with rfl | ⟨s, -, hs⟩
  · exact ⟨b, hlink.tail hb, .refl⟩
  · exact absurd hb (hc.not_hasBase hs)

/-- **Without bases of interfaces inheriting is transitive.** -/
theorem inherits_trans (hc : c.InterfacesBaseless) {t a x : Ty} (h : c.Inherits t a)
    (hx : c.Inherits a x) : c.Inherits t x :=
  h.trans_of_bases (fun _ _ hs hb => hc.inherits_base hs hb) hx

end InterfacesBaseless

/-! ## The walks

The walks themselves may run out of fuel, so the closure is stated of types whose walks come to
their end, for the type itself and for each of its ancestors. -/

variable (c) in
/-- The walk over the ancestors of `t` lists all that the walks over these list. -/
def ClosedAt (t : Ty) : Prop := ∀ a, c.HasAncestor t a → ∀ x, c.HasAncestor a x → c.HasAncestor t x

/-- **The hierarchy is transitive but for the bases of interfaces.** In a catalog in which the walks
come to their ends, the ancestors of the ancestors of a type are ancestors of the type exactly if
the bases of its ancestors are. If nothing that is declared as an interface has a base, this is so
for every type. -/
theorem ancestors_closed_iff (hends : c.HierarchyEnds) :
    (∀ t, c.ClosedAt t ↔ ∀ a b, c.HasAncestor t a → c.HasBase a b → c.HasAncestor t b) ∧
      (c.InterfacesBaseless → ∀ t, c.ClosedAt t) := by
  simp only [ClosedAt, hends.hasAncestor_iff]
  refine ⟨fun t => ⟨?_, ?_⟩, ?_⟩
  · intro hclosed a b ha hb
    exact hclosed a ha b (inherits_of_hasBase hb)
  · intro hbases a ha x hx
    exact ha.trans_of_bases hbases hx
  · intro hc t a ha x hx
    exact hc.inherits_trans ha hx

/-- The interfaces of the base library extend interfaces only. So what an array of strings inherits
is closed: it inherits `IList` of strings, and with it the sequences that this extends. -/
theorem baseLibrary_closed :
    baseLibrary.HierarchyEnds ∧ baseLibrary.InterfacesBaseless ∧
      baseLibrary.ClosedAt (.array 1 (.nominal 18)) ∧
      baseLibrary.HasAncestor (.array 1 (.nominal 18)) (.named 12 [.nominal 18]) ∧
      baseLibrary.HasAncestor (.named 12 [.nominal 18]) (.nominal 10) := by
  have hdeclared : ∀ d < baseLibrary.defs.length, ∀ s ∈ (baseLibrary.definition d).interfaces,
      s.head? ≠ none ∧ baseLibrary.declaredBase? s = none := by decide
  have hbaseless : baseLibrary.InterfacesBaseless :=
    ⟨fun d s hs => by
      by_cases hd : d < baseLibrary.defs.length
      · exact hdeclared d hd s hs
      · rw [baseLibrary.definition_of_length_le (Nat.le_of_not_lt hd)] at hs
        exact absurd hs List.not_mem_nil, by decide⟩
  have hends := baseLibrary_acyclic.hierarchyEnds
  exact ⟨hends, hbaseless, (ancestors_closed_iff hends).2 hbaseless _,
    ⟨9, _, rfl, by decide⟩, ⟨9, _, rfl, by decide⟩⟩

/-! ## An interface with a base -/

/-- A class `B`, an interface `I` with the base `B`, and a class `C` with the interface `I`. -/
def basedInterface : Catalog :=
  ofDefs
    [ { name := "B" }, { name := "I", kind := .interfaceType, base := some (.nominal 8) },
      { name := "C", interfaces := [.nominal 9] } ]

/-- **The base of an interface is not inherited**: `C` has the ancestor `I` and `I` has the ancestor
`B`, but `C` has not. -/
theorem basedInterface_not_closed :
    basedInterface.HierarchyEnds ∧ basedInterface.HasAncestor (.nominal 10) (.nominal 9) ∧
      basedInterface.HasAncestor (.nominal 9) (.nominal 8) ∧
      ¬ basedInterface.HasAncestor (.nominal 10) (.nominal 8) := by
  have hflat : basedInterface.Flat :=
    ⟨basedInterface.forall_declared (by decide), by decide, by decide⟩
  have hwalk : basedInterface.ancestors 9 (.nominal 10) = some [.nominal 10, .nominal 9] := by
    decide
  refine ⟨hflat.hierarchyEnds, ⟨9, _, hwalk, by decide⟩, ⟨9, _, rfl, by decide⟩, ?_⟩
  rintro ⟨fuel, above, habove, hmem⟩
  obtain rfl := Fueled.eq_of_answers (fun h => basedInterface.ancestors_le h _) hwalk habove
  exact absurd hmem (by decide)

end TypeResolution.Catalog

import Mathlib.Data.List.Nodup
import Mathlib.Logic.Relation
import TypeResolution.Proofs.Catalog.Termination

/-!
# What the walk over the hierarchy lists

The walk lists the ancestors of a type in a certain order, and it leaves out what it has listed
before. As a set they are easily described: go up the base chain for a while, then from interface to
interface (`Inherits`). The headline is `mem_ancestors_iff`: a walk that comes to its end has listed
exactly what is inherited in this sense, and nothing else.

Both parts of the walk go on until nothing new comes up, so what they list is closed under their
steps; for the interfaces this is read off the relation `Walk`, which is the walk without its fuel.

The base chain is followed with a list of what was seen, the interfaces with a list of what was
found. Neither list is part of the result's meaning. It only keeps the walk from going round in
circles, and for a set of types that is closed under a step it does not matter in which order they
were visited.
-/

namespace TypeResolution.Catalog

open Relation

variable (c : Catalog)

/-! ## Steps

There are two kinds of steps up, to the base and to a declared interface. Inheriting goes any number
of steps along bases first and then along interfaces. It is not the transitive closure of both
together, since interfaces are not asked for their bases. -/

/-- `b` is the declared base of `t`. -/
def HasBase (t b : Ty) : Prop := c.declaredBase? t = some b

/-- `t` declares the interface `i`. -/
def Declares (t i : Ty) : Prop := i ∈ c.declaredInterfaces t

/-- `t` is an instance of `a` through inheritance: `a` is reached from a type of the base chain by
declared interfaces. The bases of an interface do not count. -/
def Inherits (t a : Ty) : Prop :=
  ∃ link, ReflTransGen c.HasBase t link ∧ ReflTransGen c.Declares link a

/-- Every type inherits itself. -/
theorem Inherits.refl (t : Ty) : c.Inherits t t := ⟨t, .refl, .refl⟩

/-- What passes from a type to its base and to its interfaces passes to all that it inherits. -/
theorem Inherits.induction {c : Catalog} {t a : Ty} (h : c.Inherits t a) {P : Ty → Prop}
    (ht : P t) (hbase : ∀ s b, P s → c.HasBase s b → P b)
    (hinterface : ∀ s i, P s → c.Declares s i → P i) : P a := by
  obtain ⟨link, hlink, ha⟩ := h
  have hP : P link := by
    clear ha
    induction hlink with
    | refl => exact ht
    | tail _ hstep ih => exact hbase _ _ ih hstep
  induction ha with
  | refl => exact hP
  | tail _ hstep ih => exact hinterface _ _ ih hstep

/-! ## The base chain

The chain is a list of types, each of which is the base of the one before. It ends at a type without
a base, or before a base that has been seen. -/

/-- Everything in the chain is reached by going up from its start. -/
theorem reachable_of_mem_basesFrom {fuel : Nat} {seen bases : List Ty} {t : Ty}
    (h : c.basesFrom fuel seen t = some bases) : ∀ b ∈ bases, ReflTransGen c.HasBase t b := by
  induction fuel generalizing seen t bases with
  | zero => cases h
  | succ fuel ih =>
    rw [basesFrom] at h
    split at h
    · rw [← Option.some.inj h]
      exact fun b hb => absurd hb List.not_mem_nil
    · next base hbase =>
      split at h
      · rw [← Option.some.inj h]
        exact fun b hb => absurd hb List.not_mem_nil
      · obtain ⟨rest, hrest, rfl⟩ := Option.map_eq_some_iff.mp h
        have hstep : ReflTransGen c.HasBase t base := .single hbase
        refine List.forall_mem_cons.mpr ⟨hstep, fun b hb => ?_⟩
        exact hstep.trans (ih hrest b hb)

/-- The base of every type on the chain is on the chain or was seen before. -/
theorem closed_basesFrom {fuel : Nat} {seen bases : List Ty} {t : Ty}
    (h : c.basesFrom fuel seen t = some bases) :
    ∀ x ∈ t :: bases, ∀ b, c.HasBase x b → b ∈ seen ∨ b ∈ bases := by
  -- What has been seen is generalized, and its bases have to be in the chain or seen. So the
  -- hypothesis of the induction is met by adding the new base to what has been seen.
  induction fuel generalizing seen t bases with
  | zero => cases h
  | succ fuel ih =>
    rw [basesFrom] at h
    split at h
    · next hnone =>
      obtain rfl := Option.some.inj h
      intro x hx b hb
      rw [List.mem_singleton.mp hx, HasBase, hnone] at hb
      cases hb
    · next base hbase =>
      split at h
      · next hseen =>
        obtain rfl := Option.some.inj h
        intro x hx b hb
        rw [List.mem_singleton.mp hx, HasBase, hbase] at hb
        exact .inl (Option.some.inj hb ▸ hseen)
      · obtain ⟨rest, hrest, rfl⟩ := Option.map_eq_some_iff.mp h
        intro x hx b hb
        rcases List.mem_cons.mp hx with rfl | hx
        · rw [HasBase, hbase] at hb
          exact .inr (Option.some.inj hb ▸ List.mem_cons_self)
        · rcases ih hrest x hx b hb with hseen | hmem
          · rcases List.mem_cons.mp hseen with rfl | hseen
            · exact .inr List.mem_cons_self
            · exact .inl hseen
          · exact .inr (List.mem_cons_of_mem base hmem)

/-- The chain holds nothing twice, and nothing that was seen before. -/
theorem nodup_basesFrom {fuel : Nat} {seen bases : List Ty} {t : Ty}
    (h : c.basesFrom fuel seen t = some bases) : bases.Nodup ∧ ∀ b ∈ bases, b ∉ seen := by
  induction fuel generalizing seen t bases with
  | zero => cases h
  | succ fuel ih =>
    rw [basesFrom] at h
    split at h
    · rw [← Option.some.inj h]
      exact ⟨List.nodup_nil, fun b hb => absurd hb List.not_mem_nil⟩
    · next base hbase =>
      split at h
      · rw [← Option.some.inj h]
        exact ⟨List.nodup_nil, fun b hb => absurd hb List.not_mem_nil⟩
      · next hnew =>
        obtain ⟨rest, hrest, rfl⟩ := Option.map_eq_some_iff.mp h
        obtain ⟨hnodup, hunseen⟩ := ih hrest
        refine ⟨List.nodup_cons.mpr ⟨fun hmem => ?_, hnodup⟩, ?_⟩
        · exact hunseen base hmem List.mem_cons_self
        · refine List.forall_mem_cons.mpr ⟨hnew, fun b hb hseen => ?_⟩
          exact hunseen b hb (List.mem_cons_of_mem base hseen)

/-- The chain of a type holds exactly the types that are reached from it by bases. -/
theorem mem_bases_iff {fuel : Nat} {t : Ty} {bases : List Ty} (h : c.bases fuel t = some bases)
    {b : Ty} : b ∈ t :: bases ↔ ReflTransGen c.HasBase t b := by
  constructor
  · intro hb
    rcases List.mem_cons.mp hb with rfl | hb
    · exact .refl
    · exact c.reachable_of_mem_basesFrom h b hb
  · intro hb
    induction hb with
    | refl => exact List.mem_cons_self
    | tail _ hstep ih =>
      rcases c.closed_basesFrom h _ ih _ hstep with hseen | hmem
      · exact List.mem_singleton.mp hseen ▸ List.mem_cons_self
      · exact List.mem_cons_of_mem t hmem

variable {c} in
/-- The interfaces that the links of the chain declare are inherited. -/
theorem inherits_of_mem_links {fuel : Nat} {t i : Ty} {bases : List Ty}
    (h : c.bases fuel t = some bases) (hi : i ∈ (t :: bases).flatMap c.declaredInterfaces) :
    c.Inherits t i := by
  obtain ⟨link, hlink, hdeclared⟩ := List.mem_flatMap.mp hi
  exact ⟨link, (c.mem_bases_iff h).mp hlink, .single hdeclared⟩

/-! ## Interfaces

A walk visits the pending types in order. One that was found before is skipped together with its
interfaces, and any other is listed, with its interfaces put in front of what is pending. The
relation has a constructor for each of the three cases, and all that is said of the walk is proved
by induction on it. -/

/-- The walk over interfaces without its fuel: from `found`, with the types `pending` still to be
visited, it comes to list `all`. -/
inductive Walk : (found pending all : List Ty) → Prop
  /-- nothing is left to visit -/
  | done (found : List Ty) : Walk found [] found
  /-- the next type is listed already -/
  | skip {found pending all : List Ty} {t : Ty} (ht : t ∈ found) (h : Walk found pending all) :
      Walk found (t :: pending) all
  /-- the next type is new, so its interfaces come next -/
  | visit {found pending all : List Ty} {t : Ty} (ht : t ∉ found)
      (h : Walk (found ++ [t]) (c.declaredInterfaces t ++ pending) all) :
      Walk found (t :: pending) all

variable {c}

/-- What the recursion on fuel answers is what the walk ends with. -/
theorem walk_of_addInterfaces {fuel : Nat} {found pending all : List Ty}
    (h : c.addInterfaces fuel found pending = some all) : c.Walk found pending all := by
  induction fuel generalizing found pending with
  | zero =>
    cases pending with
    | nil =>
      rw [addInterfaces] at h
      exact Option.some.inj h ▸ .done found
    | cons t pending => cases h
  | succ fuel ih =>
    cases pending with
    | nil =>
      rw [addInterfaces] at h
      exact Option.some.inj h ▸ .done found
    | cons t pending =>
      rw [addInterfaces] at h
      split at h
      · next ht => exact .skip ht (ih h)
      · next ht => exact .visit ht (ih h)

variable {found pending all : List Ty}

/-- What was found stays listed. -/
theorem Walk.found_subset (h : c.Walk found pending all) : found ⊆ all := by
  induction h with
  | done found => exact List.Subset.refl found
  | skip _ _ ih => exact ih
  | visit _ _ ih => exact List.Subset.trans (List.subset_append_left _ _) ih

/-- What was pending is listed in the end. -/
theorem Walk.pending_subset (h : c.Walk found pending all) : pending ⊆ all := by
  induction h with
  | done found => exact List.nil_subset found
  | skip ht hrest ih => exact List.cons_subset.mpr ⟨hrest.found_subset ht, ih⟩
  | visit _ hrest ih =>
    refine List.cons_subset.mpr ⟨hrest.found_subset (by simp), ?_⟩
    exact List.Subset.trans (List.subset_append_right _ _) ih

/-- The interfaces of every type that is newly listed are listed. -/
theorem Walk.closed (h : c.Walk found pending all) :
    ∀ x ∈ all, x ∈ found ∨ ∀ i, c.Declares x i → i ∈ all := by
  induction h with
  | done found => exact fun x hx => .inl hx
  | skip _ _ ih => exact ih
  | visit _ hrest ih =>
    intro x hx
    rcases ih x hx with hfound | hclosed
    · rcases List.mem_append.mp hfound with hfound | hnew
      · exact .inl hfound
      · refine .inr fun i hi => hrest.pending_subset ?_
        rw [List.mem_singleton.mp hnew] at hi
        exact List.mem_append_left _ hi
    · exact .inr hclosed

/-- Nothing is listed but what was found already and what is reached from the pending types. -/
theorem Walk.reachable (h : c.Walk found pending all) :
    ∀ x ∈ all, x ∈ found ∨ ∃ t ∈ pending, ReflTransGen c.Declares t x := by
  induction h with
  | done found => exact fun x hx => .inl hx
  | skip _ _ ih =>
    intro x hx
    -- What is found behind this type was reached from a pending type that is still there.
    rcases ih x hx with hfound | ⟨t, ht, hreach⟩
    · exact .inl hfound
    · exact .inr ⟨t, List.mem_cons_of_mem _ ht, hreach⟩
  | @visit _ _ _ t _ _ ih =>
    intro x hx
    rcases ih x hx with hfound | ⟨s, hs, hreach⟩
    · rcases List.mem_append.mp hfound with hfound | hnew
      · exact .inl hfound
      · exact .inr ⟨t, List.mem_cons_self, List.mem_singleton.mp hnew ▸ .refl⟩
    · rcases List.mem_append.mp hs with hinherited | hpending
      · exact .inr ⟨t, List.mem_cons_self, .head hinherited hreach⟩
      · exact .inr ⟨s, List.mem_cons_of_mem t hpending, hreach⟩

/-! ## Ancestors

The ancestors are the type itself, its base chain and the walk over what all of these declare. As a
set they are what the type inherits: every type of the chain is found, the interfaces are those that
the walk reaches, and the walk is closed under declaring. -/

/-- The two parts of a walk that comes to its end. -/
theorem exists_of_ancestors {fuel : Nat} {t : Ty} {above : List Ty}
    (h : c.ancestors fuel t = some above) :
    ∃ bases found, c.bases fuel t = some bases ∧
      c.Walk [t] ((t :: bases).flatMap c.declaredInterfaces) found ∧
      above = found ++ unlisted found bases := by
  rw [ancestors] at h
  split at h
  · cases h
  · next bases hbases =>
    split at h
    · cases h
    · next found hfound =>
      exact ⟨bases, found, hbases, walk_of_addInterfaces hfound, (Option.some.inj h).symm⟩

/-- **The walk lists exactly what is inherited.** -/
theorem mem_ancestors_iff {fuel : Nat} {t : Ty} {above : List Ty}
    (h : c.ancestors fuel t = some above) {a : Ty} : a ∈ above ↔ c.Inherits t a := by
  obtain ⟨bases, found, hbases, hwalk, rfl⟩ := exists_of_ancestors h
  have hself : t ∈ found := hwalk.found_subset List.mem_cons_self
  constructor
  · intro ha
    rcases List.mem_append.mp ha with hfound | hbase
    · rcases hwalk.reachable a hfound with hstart | ⟨i, hi, hreach⟩
      · exact List.mem_singleton.mp hstart ▸ .refl c t
      · obtain ⟨link, hlink, hdeclared⟩ := List.mem_flatMap.mp hi
        exact ⟨link, (c.mem_bases_iff hbases).mp hlink, .head hdeclared hreach⟩
    · have hmem := List.mem_cons_of_mem t (List.mem_filter.mp hbase).1
      exact ⟨a, (c.mem_bases_iff hbases).mp hmem, .refl⟩
  · rintro ⟨link, hlink, hreach⟩
    have hmem := (c.mem_bases_iff hbases).mpr hlink
    -- the first interface on the way is pending, and what is newly listed is closed
    have hlisted : ∀ i, c.Declares link i → i ∈ found := fun i hi =>
      hwalk.pending_subset (List.mem_flatMap.mpr ⟨link, hmem, hi⟩)
    have hclosed : ∀ x ∈ found, ∀ i, c.Declares x i → i ∈ found := by
      intro x hx i hi
      rcases hwalk.closed x hx with hstart | hclosed
      · rw [List.mem_singleton.mp hstart] at hi
        exact hwalk.pending_subset (List.mem_flatMap.mpr ⟨t, List.mem_cons_self, hi⟩)
      · exact hclosed i hi
    rcases ReflTransGen.cases_head hreach with rfl | ⟨i, hi, hrest⟩
    · rcases List.mem_cons.mp hmem with rfl | hbase
      · exact List.mem_append_left _ hself
      · by_cases hfound : link ∈ found
        · exact List.mem_append_left _ hfound
        · exact List.mem_append_right _ (List.mem_filter.mpr ⟨hbase, by simpa using hfound⟩)
    · refine List.mem_append_left _ ?_
      clear hreach
      induction hrest with
      | refl => exact hlisted i hi
      | tail _ hstep ih => exact hclosed _ ih _ hstep

variable (c) in
/-- The walk over the ancestors of `t` ends and lists `a`. -/
def HasAncestor (t a : Ty) : Prop := ∃ fuel above, c.ancestors fuel t = some above ∧ a ∈ above

/-- Where the walks end, having an ancestor is inheriting it. -/
theorem HierarchyEnds.hasAncestor_iff (hends : c.HierarchyEnds) {t a : Ty} :
    c.HasAncestor t a ↔ c.Inherits t a := by
  constructor
  · rintro ⟨fuel, above, habove, ha⟩
    exact (mem_ancestors_iff habove).mp ha
  · intro h
    obtain ⟨fuel, above, habove⟩ := hends t
    exact ⟨fuel, above, habove, (mem_ancestors_iff habove).mpr h⟩

end TypeResolution.Catalog

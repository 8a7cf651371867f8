import TypeResolution.Proofs.Catalog.Arity
import TypeResolution.Proofs.Catalog.Lineage

/-!
# The ancestors of instances

What an instance of a definition inherits can be read off from what the definition inherits over its
own parameters: put the arguments in, and keep every type where it comes first. The search for the
sites below a type relies on this, as it matches the ancestors of open definitions.

The walk over the ancestors does not commute with putting in arguments step by step. Types that
differ while their parameters are open may become equal, and from then on the walk passes over what
it went through before. But the lineage has no memory, so it commutes as it is (`lineage_subst`),
and the ancestors are the lineage without repetitions on both sides (`ancestors_instance`).
-/

namespace TypeResolution.Catalog

open Relation Filter

variable {c : Catalog} {n : Nat} {t : Ty}

variable (c) in
/-- A type over `n` parameters that is no bare parameter and applies definitions at their arity. It
has a base and interfaces of its own, whatever its parameters stand for. -/
structure OpenAtArity (n : Nat) (t : Ty) : Prop where
  /-- definitions are applied at their arity -/
  atArity : c.AtArity n t
  /-- the type is no parameter itself -/
  ne_param : ∀ i, t ≠ .param i

/-- A definition over its own parameters is open at its arity. -/
theorem openAtArity_openInstance (d : DefIndex) :
    c.OpenAtArity (c.arity d) (c.openInstance d) where
  atArity := .named (by simp) fun t ht => by
    obtain ⟨i, hi, rfl⟩ := List.mem_map.mp ht
    exact .param (List.mem_range.mp hi)
  ne_param := nofun

namespace OpenAtArity

/-- What an open type inherits directly is open as well. -/
theorem step (hc : c.DeclaredAtArity) (hbare : c.NoBareParam) (ht : c.OpenAtArity n t) {b : Ty}
    (h : c.HasBase t b ∨ c.Declares t b) : c.OpenAtArity n b := by
  refine ⟨ht.atArity.step hc h, ?_⟩
  rcases step_cases h with ⟨d, ts, s, rfl, hs, rfl⟩ | ⟨rank, elem, rfl, hb | ⟨-, s, hs, rfl⟩⟩
  · exact subst_ne_param (hbare.declared d s hs) ts
  · rintro i rfl
    cases hc.arrayBase _ hb with
    | param hi => exact absurd hi (Nat.not_lt_zero i)
  · exact subst_ne_param (hbare.arrayInterfaces s hs) [elem]

/-- So is what it inherits at all. -/
theorem of_inherits (hc : c.DeclaredAtArity) (hbare : c.NoBareParam) (ht : c.OpenAtArity n t)
    {a : Ty} (h : c.Inherits t a) : c.OpenAtArity n a :=
  h.induction ht (fun _ _ hs hb => hs.step hc hbare (.inl hb))
    fun _ _ hs hi => hs.step hc hbare (.inr hi)

/-! ## One step up

A declared type is put together from parameters, and putting arguments in twice is putting the
composed arguments in. So what an instance declares is what the open type declares, with the
arguments put in. A type that is itself a parameter has to be left out, since it declares nothing
while the type that is put in for it may. -/

/-- The arguments may be put in before the base is taken or after. -/
theorem declaredBase?_subst (hc : c.DeclaredAtArity) (ht : c.OpenAtArity n t) (σ : List Ty) :
    c.declaredBase? (t.subst σ) = (c.declaredBase? t).map (Ty.subst σ) := by
  obtain ⟨harity, hne⟩ := ht
  cases harity with
  | param hi => exact absurd rfl (hne _)
  | @named d ts hlength hts =>
    rw [Ty.subst, Ty.substAll_eq_map, declaredBase?, declaredBase?, Option.map_map]
    refine Option.map_congr fun s hs => ?_
    have hparams := (hc.declared d s (c.mem_declared_of_base hs)).paramsBelow
    exact (Ty.subst_subst hparams (Nat.le_of_eq hlength.symm) σ).symm
  | array helem =>
    -- the base of arrays mentions no parameter
    rw [Ty.subst, declaredBase?, declaredBase?]
    cases hb : c.arrayBase with
    | none => rfl
    | some b => rw [Option.map_some, Ty.subst_of_isClosed σ b (hc.arrayBase b hb).isClosed]
  | pointer helem => rfl
  | byRef helem => rfl

/-- So it is with the interfaces. -/
theorem declaredInterfaces_subst (hc : c.DeclaredAtArity) (ht : c.OpenAtArity n t) (σ : List Ty) :
    c.declaredInterfaces (t.subst σ) = (c.declaredInterfaces t).map (Ty.subst σ) := by
  obtain ⟨harity, hne⟩ := ht
  cases harity with
  | param hi => exact absurd rfl (hne _)
  | @named d ts hlength hts =>
    rw [Ty.subst, Ty.substAll_eq_map, declaredInterfaces, declaredInterfaces, List.map_map]
    refine List.map_congr_left fun s hs => ?_
    have hparams := (hc.declared d s (c.mem_declared_of_interface hs)).paramsBelow
    exact (Ty.subst_subst hparams (Nat.le_of_eq hlength.symm) σ).symm
  | @array rank elem helem =>
    -- only arrays of one dimension have interfaces
    rcases rank with _ | _ | rank
    · rfl
    · rw [Ty.subst, declaredInterfaces, declaredInterfaces, List.map_map]
      refine List.map_congr_left fun s hs => ?_
      have hone : 1 ≤ [elem].length := Nat.le_refl 1
      exact (Ty.subst_subst (hc.arrayInterfaces s hs).paramsBelow hone σ).symm
    · rfl
  | pointer helem => rfl
  | byRef helem => rfl

end OpenAtArity

/-! ## The lineage

By recursion on the fuel, which counts depth and is the same on both sides. An open type has a
lineage with some fuel exactly if its instances have one with that fuel. -/

section

variable (hc : c.DeclaredAtArity) (hbare : c.NoBareParam) (ht : c.OpenAtArity n t)
  (fuel : Nat) (σ : List Ty)

include hc hbare ht

/-- The tree of interfaces commutes with putting in arguments. -/
theorem interfaceTree_subst :
    c.interfaceTree fuel (t.subst σ) = (c.interfaceTree fuel t).map (List.map (Ty.subst σ)) := by
  induction fuel generalizing t with
  | zero => rfl
  | succ fuel ih =>
    have htrees := Fueled.collect_map (f := c.interfaceTree fuel)
      (e := Ty.subst σ) (k := Ty.subst σ)
      fun i (hi : i ∈ c.declaredInterfaces t) => ih (ht.step hc hbare (.inr hi))
    rw [interfaceTree, interfaceTree, ht.declaredInterfaces_subst hc, htrees]
    simp only [Option.map_map, Function.comp_def, List.map_cons]

/-- The line of bases does. -/
theorem baseLine_subst :
    c.baseLine fuel (t.subst σ) = (c.baseLine fuel t).map (List.map (Ty.subst σ)) := by
  induction fuel generalizing t with
  | zero => rfl
  | succ fuel ih =>
    rw [baseLine, baseLine, ht.declaredBase?_subst hc]
    cases hbase : c.declaredBase? t with
    | none => rfl
    | some base =>
      dsimp only [Option.map_some]
      rw [ih (ht.step hc hbare (.inl hbase))]
      simp only [Option.map_map, Function.comp_def, List.map_cons]

/-- The types on the line are open at the same arity as the first. -/
theorem openAtArity_of_mem_baseLine {bases : List Ty} (h : c.baseLine fuel t = some bases) :
    ∀ b ∈ t :: bases, c.OpenAtArity n b := by
  intro b hb
  have hreach := (c.mem_bases_iff (bases_of_baseLine h)).mp hb
  induction hreach with
  | refl => exact ht
  | tail hlink hstep ih =>
    have hopen := ih ((c.mem_bases_iff (bases_of_baseLine h)).mpr hlink)
    exact hopen.step hc hbare (.inl hstep)

/-- **The lineage of an instance is the open one with the arguments put in.** -/
theorem lineage_subst :
    c.lineage fuel (t.subst σ) = (c.lineage fuel t).map (List.map (Ty.subst σ)) := by
  rw [lineage, lineage, baseLine_subst hc hbare ht]
  cases hbases : c.baseLine fuel t with
  | none => rfl
  | some bases =>
    have hopen := openAtArity_of_mem_baseLine hc hbare ht fuel hbases
    have hlinks : (t.subst σ :: bases.map (Ty.subst σ)).flatMap c.declaredInterfaces =
        ((t :: bases).flatMap c.declaredInterfaces).map (Ty.subst σ) := by
      rw [← List.map_cons, List.flatMap_map, List.map_flatMap]
      exact List.flatMap_congr fun b hb => (hopen b hb).declaredInterfaces_subst hc σ
    -- The trees are collected over the interfaces that the line declares. Each of these is open at
    -- the arity, so its tree commutes on its own.
    have htrees := Fueled.collect_map (f := c.interfaceTree fuel)
      (e := Ty.subst σ) (k := Ty.subst σ)
      fun i (hi : i ∈ (t :: bases).flatMap c.declaredInterfaces) => by
        obtain ⟨link, hlink, hdeclared⟩ := List.mem_flatMap.mp hi
        exact interfaceTree_subst hc hbare
          ((hopen link hlink).step hc hbare (.inr hdeclared)) fuel σ
    dsimp only [Option.map_some]
    rw [hlinks, htrees]
    simp only [Option.map_map, Function.comp_def, List.map_cons, List.map_append]

/-- The ancestors of a type with its parameters filled are those of the open type with the
parameters filled, each kept where it comes first. -/
theorem exists_ancestors_subst (hends : c.LineageEnds t) :
    ∃ opens, (∀ᶠ m in atTop, c.ancestors m t = some opens) ∧
      ∀ᶠ m in atTop, c.ancestors m (t.subst σ) = some (opens.map (Ty.subst σ)).eraseDups := by
  obtain ⟨fuel, l, hl⟩ := hends
  obtain ⟨m, hopens⟩ := ancestors_of_lineage hl
  have hfilled := lineage_subst hc hbare ht fuel σ
  rw [hl, Option.map_some] at hfilled
  obtain ⟨k, habove⟩ := ancestors_of_lineage hfilled
  rw [eraseDups_map] at habove
  exact ⟨l.eraseDups, Fueled.eventually_eq_some (fun h => c.ancestors_le h t) hopens,
    Fueled.eventually_eq_some (fun h => c.ancestors_le h (t.subst σ)) habove⟩

end

/-- **Inheriting commutes with putting in arguments**, in a hierarchy that is declared at arity and
without bare parameters and in which walks without a memory end. The ancestors of a definition
applied to arguments are those of the definition over its own parameters with the arguments put in,
each kept where it comes first. So it is with arrays and their element. -/
theorem ancestors_instance (hc : c.DeclaredAtArity) (hbare : c.NoBareParam)
    (hends : ∀ t, c.LineageEnds t) :
    (∀ d args, args.length = c.arity d → ∃ opens,
      (∀ᶠ m in atTop, c.ancestorsOfDefinition m d = some opens) ∧
        ∀ᶠ m in atTop, c.ancestors m (.named d args) =
          some (opens.map (Ty.subst args)).eraseDups) ∧
      ∀ rank i σ elem, σ[i]? = some elem → ∃ opens,
        (∀ᶠ m in atTop, c.ancestors m (.array rank (.param i)) = some opens) ∧
          ∀ᶠ m in atTop, c.ancestors m (.array rank elem) =
            some (opens.map (Ty.subst σ)).eraseDups := by
  refine ⟨fun d args hlength => ?_, fun rank i σ elem helem => ?_⟩
  · rw [← subst_openInstance d hlength]
    exact exists_ancestors_subst hc hbare (openAtArity_openInstance d) args (hends _)
  · have hopen : c.OpenAtArity (i + 1) (.array rank (.param i)) :=
      ⟨.array (.param (Nat.lt_succ_self i)), nofun⟩
    have hfilled : (Ty.array rank (.param i)).subst σ = .array rank elem := by
      rw [Ty.subst, Ty.subst, List.getD_eq_getElem?_getD, helem, Option.getD_some]
    rw [← hfilled]
    exact exists_ancestors_subst hc hbare hopen σ (hends _)

/-- An interface `J<T>`, an interface `I<T>` that extends `J<T>`, a class `Pair<A, B>` with the
interfaces `I<A>` and `I<B>`, and a class `S`. Arrays have the interface `I` of their elements. -/
def pairCatalog : Catalog :=
  (ofDefs
    [ { name := "J`1", kind := .interfaceType, params := [{ name := "T" }] },
      { name := "I`1", kind := .interfaceType, params := [{ name := "T" }],
        interfaces := [.named 8 [.param 0]] },
      { name := "Pair`2", params := [{ name := "A" }, { name := "B" }],
        interfaces := [.named 9 [.param 0], .named 9 [.param 1]] },
      { name := "S" } ]).withArrays none [.named 9 [.param 0]]

/-- Over equal arguments the two interfaces of a pair become one, and the walk passes over the
second with what it extends. An array of `S` inherits what arrays do, with `S` for the element. -/
theorem pairCatalog_ancestors :
    pairCatalog.ancestorsOfDefinition 9 10 =
        some [.named 10 [.param 0, .param 1], .named 9 [.param 0], .named 8 [.param 0],
          .named 9 [.param 1], .named 8 [.param 1]] ∧
      (∀ᶠ m in atTop, pairCatalog.ancestors m (.named 10 [.nominal 11, .nominal 11]) =
        some [.named 10 [.nominal 11, .nominal 11], .named 9 [.nominal 11],
          .named 8 [.nominal 11]]) ∧
      ∀ᶠ m in atTop, pairCatalog.ancestors m (.array 1 (.nominal 11)) =
        some [.array 1 (.nominal 11), .named 9 [.nominal 11], .named 8 [.nominal 11]] := by
  have hwell : pairCatalog.WellDeclared :=
    ⟨pairCatalog.forall_declared (by decide), by decide, by decide⟩
  have hbare : pairCatalog.NoBareParam := by
    have hhead : ∀ d, ∀ s ∈ pairCatalog.declared d, s.head? ≠ none :=
      pairCatalog.forall_declared (by decide)
    have harray : ∀ s ∈ pairCatalog.arrayInterfaces, s.head? ≠ none := by decide
    exact ⟨fun d s hs i heq => hhead d s hs (heq ▸ rfl), fun s hs i heq => harray s hs (heq ▸ rfl)⟩
  have hacyclic : pairCatalog.Acyclic fun d => if d = Marker.array.definition then 100 else d :=
    ⟨pairCatalog.forall_declared (by decide), by decide, by decide⟩
  have hopen : pairCatalog.ancestorsOfDefinition 9 10 =
      some [.named 10 [.param 0, .param 1], .named 9 [.param 0], .named 8 [.param 0],
        .named 9 [.param 1], .named 8 [.param 1]] := by decide
  have hopenArray : pairCatalog.ancestors 9 (.array 1 (.param 0)) =
      some [.array 1 (.param 0), .named 9 [.param 0], .named 8 [.param 0]] := by decide
  have hinstances := ancestors_instance hwell.atArity hbare hacyclic.lineageEnds
  refine ⟨hopen, ?_, ?_⟩
  · obtain ⟨opens, hopens, habove⟩ := hinstances.1 10 [.nominal 11, .nominal 11] rfl
    obtain ⟨m, hm⟩ := hopens.exists
    obtain rfl := Fueled.eq_of_answers (fun h => pairCatalog.ancestorsOfDefinition_le h 10) hopen hm
    filter_upwards [habove] with m habove
    rw [habove]
    decide
  · obtain ⟨opens, hopens, habove⟩ := hinstances.2 1 0 [.nominal 11] (.nominal 11) rfl
    obtain ⟨m, hm⟩ := hopens.exists
    obtain rfl := Fueled.eq_of_answers (fun h => pairCatalog.ancestors_le h _) hopenArray hm
    filter_upwards [habove] with m habove
    rw [habove]
    decide

end TypeResolution.Catalog

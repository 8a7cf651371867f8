import TypeResolution.Proofs.Catalog.Closure
import TypeResolution.Proofs.Catalog.Conversion

/-!
# Declarations that respect variance

A covariant parameter is converted to a supertype, a contravariant one to a subtype, and an
invariant one not at all. If a declaration mentions the parameter in a place where it may be
converted like this, then the declared type is converted along with it. So in a hierarchy of such
declarations conversions carry over to everything that is inherited
(`VarianceSafe.inherits_related`): of two instances of one definition with convertible arguments,
whatever the first inherits, the second inherits up to a conversion of arguments.

Conversion is a parameter here: all that is used of it is that it holds of types that are converted
part by part, and of no value type in place of a reference (`Compatible`).

The condition is decidable (`safeSupertype`) and is checked once for each declared type. It is
recursive in the type: the variance of a place is that of the parameter it is an argument of, nested
in the variance around it. Arguments of a value type stay in invariant places, because values are
not converted.
-/

namespace TypeResolution

open Relation

/-! ## Variances in places that are nested

Nesting is how variances compose. A covariant parameter leaves the variance around it as it is, a
contravariant one turns it around, and an invariant one allows nothing below it. -/

/-- A covariant place leaves the variance of the places in it. -/
theorem Variance.covariant_nest {v : Variance} (hv : v ≠ .ambivariant) :
    Variance.covariant.nest v = v := by
  cases v with
  | ambivariant => exact absurd rfl hv
  | _ => rfl

/-- Variances other than ambivariance never nest to it. -/
theorem Variance.nest_ne_ambivariant {v w : Variance} (hv : v ≠ .ambivariant)
    (hw : w ≠ .ambivariant) : v.nest w ≠ .ambivariant := by
  cases v with
  | ambivariant => exact absurd rfl hv
  | _ => cases w <;> first | exact hw | exact nofun

namespace Catalog

/-! ## Declarations that respect the variance of parameters

A declared type is an instance of a definition, and its arguments are checked against the variances
of that definition's parameters. Pointers and references are never converted in their parts, arrays
are converted in their element. -/

section

variable (c : Catalog)

/-- The variances of the places of a definition's arguments, in a place of variance `v`. Without
variance around them, and in a value type, the arguments have to stay what they are. -/
def placeVariances (v : Variance) (d : DefIndex) (arity : Nat) : List Variance :=
  if v = .invariant ∨ (c.definition d).kind = .structType then List.replicate arity .invariant
  else (c.definition d).params.map fun p => v.nest p.variance

mutual
/-- Whether a type may stand in a place of some variance in a declaration with parameters `own`:
each parameter that it mentions is invariant itself, or of the variance of its place. -/
def safeAt (own : List TypeParam) : Variance → Ty → Bool
  | v, .param i => own[i]?.any fun p => p.variance = .invariant || p.variance = v
  | v, .named d ts => safeAllAt own (c.placeVariances v d ts.length) ts
  | v, .array _ t => safeAt own v t
  | _, .pointer t => safeAt own .invariant t
  | _, .byRef t => safeAt own .invariant t

/-- Whether types may stand one by one in places of some variances. -/
def safeAllAt (own : List TypeParam) : List Variance → List Ty → Bool
  | v :: vs, t :: ts => safeAt own v t && safeAllAt own vs ts
  | _, _ => true
end

/-- Whether a definition with parameters `own` may declare to inherit from a type: an instance whose
arguments may stand at the parameters. -/
def safeSupertype (own : List TypeParam) : Ty → Bool
  | .named d ts => c.safeAllAt own ((c.definition d).params.map (·.variance)) ts
  | _ => false

/-- The element of arrays, as a parameter. Arrays are covariant. -/
def elementParam : TypeParam := { name := "T", variance := .covariant }

/-- A hierarchy in which conversions of arguments carry over to what is inherited. -/
structure VarianceSafe : Prop where
  /-- no parameter may be converted both ways -/
  params : ∀ d, ∀ p ∈ (c.definition d).params, p.variance ≠ .ambivariant
  /-- declared types are instances that respect the variance of the definition's parameters -/
  declared : ∀ d, ∀ s ∈ c.declared d, c.safeSupertype (c.definition d).params s = true
  /-- so are the interfaces of arrays, whose parameter is the element -/
  arrayInterfaces : ∀ s ∈ c.arrayInterfaces, c.safeSupertype [elementParam] s = true
  /-- the base of arrays is an instance -/
  arrayBase : ∀ s ∈ c.arrayBase, s.definition? ≠ none
  /-- classes and interfaces inherit from no value type -/
  references : ∀ d, ∀ s ∈ c.declared d,
    (c.definition d).kind ≠ .structType → c.isReferenceType s = true
  /-- arrays inherit from no value type -/
  arrayReferences : ∀ s ∈ c.arrayBase.toList ++ c.arrayInterfaces, c.isReferenceType s = true
  /-- what is declared as an interface has no base -/
  interfaces : ∀ d, ∀ s ∈ (c.definition d).interfaces, c.declaredBase? s = none
  /-- what arrays declare as an interface has no base -/
  interfacesOfArrays : ∀ s ∈ c.arrayInterfaces, c.declaredBase? s = none

end

variable {c : Catalog} {own : List TypeParam}

/-- Where a list is safe each of its members is, at the variance of its place. -/
theorem safeAt_of_safeAllAt {vs : List Variance} {ts : List Ty} (h : c.safeAllAt own vs ts = true)
    {i : Nat} {v : Variance} {t : Ty} (hv : vs[i]? = some v) (ht : ts[i]? = some t) :
    c.safeAt own v t = true := by
  induction ts generalizing vs i with
  | nil => cases ht
  | cons u us ih =>
    cases vs with
    | nil => cases hv
    | cons w ws =>
      rw [safeAllAt, Bool.and_eq_true] at h
      cases i with
      | zero =>
        obtain rfl := Option.some.inj hv
        obtain rfl := Option.some.inj ht
        exact h.1
      | succ i => exact ih h.2 hv ht

/-- A declared type that is safe is an instance of a definition, with arguments that may stand at
its parameters. -/
theorem exists_of_safeSupertype {s : Ty} (h : c.safeSupertype own s = true) :
    ∃ d es, s = .named d es ∧ c.safeAllAt own ((c.definition d).params.map (·.variance)) es =
      true := by
  cases s with
  | named d es => exact ⟨d, es, rfl, h⟩
  | _ => cases h

/-! ## What is inherited

Only instances of definitions are inherited, never parameters, and a reference type inherits
references only. -/

/-- Whether an instance is a reference does not depend on what is put in. -/
theorem isReferenceType_subst {s : Ty} {d : DefIndex} {es : List Ty} (h : s = .named d es)
    (σ : List Ty) : c.isReferenceType (s.subst σ) = c.isReferenceType s := by
  rw [h]
  rfl

/-- One step up there is always an instance, of a class or an interface if the type is none of a
struct. -/
theorem VarianceSafe.of_step (hc : c.VarianceSafe) {t b : Ty}
    (h : c.HasBase t b ∨ c.Declares t b) :
    (∃ d ts, b = .named d ts) ∧ (c.isReferenceType t = true → c.isReferenceType b = true) := by
  rcases step_cases h with ⟨d, ts, s, rfl, hs, rfl⟩ | ⟨n, elem, rfl, hb | ⟨-, s, hs, rfl⟩⟩
  · obtain ⟨e, es, heq, -⟩ := exists_of_safeSupertype (hc.declared d s hs)
    constructor
    · exact ⟨e, es.map (Ty.subst ts), by simp [heq, Ty.subst, Ty.substAll_eq_map]⟩
    · intro ht
      rw [isReferenceType_subst heq]
      apply hc.references d s hs
      simpa [isReferenceType] using ht
  · -- the base of arrays is taken as it is declared
    constructor
    · cases b with
      | named d ts => exact ⟨d, ts, rfl⟩
      | _ => exact absurd rfl (hc.arrayBase _ hb)
    · intro _
      apply hc.arrayReferences
      simp [hb]
  · obtain ⟨e, es, heq, -⟩ := exists_of_safeSupertype (hc.arrayInterfaces s hs)
    constructor
    · exact ⟨e, es.map (Ty.subst [elem]), by simp [heq, Ty.subst, Ty.substAll_eq_map]⟩
    · intro _
      rw [isReferenceType_subst heq]
      apply hc.arrayReferences
      simp [hs]

/-- What is inherited is the type itself or an instance of a definition. -/
theorem VarianceSafe.eq_or_named (hc : c.VarianceSafe) {t a : Ty} (h : c.Inherits t a) :
    a = t ∨ ∃ d ts, a = .named d ts := by
  apply Inherits.induction (P := fun a => a = t ∨ ∃ d ts, a = .named d ts) h
  · exact .inl rfl
  · intro s b _ hb
    exact .inr (hc.of_step (.inl hb)).1
  · intro s i _ hi
    exact .inr (hc.of_step (.inr hi)).1

/-- A reference type inherits reference types. -/
theorem VarianceSafe.isReferenceType_of_inherits (hc : c.VarianceSafe) {t a : Ty}
    (h : c.Inherits t a) (ht : c.isReferenceType t = true) : c.isReferenceType a = true := by
  apply Inherits.induction (P := fun a => c.isReferenceType a = true) h
  · exact ht
  · intro s b hs hb
    exact (hc.of_step (.inl hb)).2 hs
  · intro s i hs hi
    exact (hc.of_step (.inr hi)).2 hs

/-- No interface has a base that the walk over the ancestors would miss. -/
theorem VarianceSafe.interfacesBaseless (hc : c.VarianceSafe) : c.InterfacesBaseless where
  declared d s hs := by
    obtain ⟨e, es, rfl, -⟩ :=
      exists_of_safeSupertype (hc.declared d s (c.mem_declared_of_interface hs))
    exact ⟨nofun, hc.interfaces d _ hs⟩
  arrayInterfaces s hs := by
    obtain ⟨e, es, rfl, -⟩ := exists_of_safeSupertype (hc.arrayInterfaces s hs)
    exact ⟨nofun, hc.interfacesOfArrays _ hs⟩

/-! ## Conversions carry over

Let two lists of arguments be related in the directions of their parameters. Then declared types
with the one list and with the other put in are related in the direction of their place. This is the
heart of the matter, and it is an induction on the declared type (`VarianceSafe.subst_related`). -/

section

variable {R : Ty → Ty → Prop}

/-- A relation that holds of what is related part by part, and between references if it holds of
them at all. -/
structure Compatible (c : Catalog) (R : Ty → Ty → Prop) : Prop where
  /-- instances with related arguments are related -/
  instances : ∀ {t u}, c.InstanceRelated R t u → R t u
  /-- arrays of related elements are related -/
  arrays : ∀ {t u}, c.ArrayRelated R t u → R t u
  /-- a reference type is related to reference types -/
  references : ∀ {t u}, R t u → c.isReferenceType u = true → c.isReferenceType t = true

/-- Types are the same, or they are related part by part. -/
def PartsRelated (c : Catalog) (R : Ty → Ty → Prop) (t u : Ty) : Prop :=
  t = u ∨ c.InstanceRelated R t u ∨ c.ArrayRelated R t u

/-- Arguments of an invariant parameter are related only if they are equal. -/
theorem ArgumentRelated.eq_of_invariant {t u : Ty} (h : c.ArgumentRelated R .invariant t u) :
    t = u := h.resolve_right fun h => h.2.2

/-- A contravariant place turns the sides around. -/
theorem ArgumentRelated.flip {v : Variance} {t u : Ty} (hv : v ≠ .ambivariant)
    (h : c.ArgumentRelated R (Variance.contravariant.nest v) t u) : c.ArgumentRelated R v u t := by
  rcases h with rfl | ⟨ht, hu, h⟩
  · exact .inl rfl
  · refine .inr ⟨hu, ht, ?_⟩
    cases v with
    | ambivariant => exact absurd rfl hv
    | _ => exact h

/-- An instance under two substitutions is related part by part if its arguments are. -/
theorem instanceRelated_subst {d : DefIndex} {es σ τ : List Ty} (hne : es ≠ [])
    (h : ∀ (i : Nat) p e, (c.definition d).params[i]? = some p → es[i]? = some e →
      c.ArgumentRelated R p.variance (e.subst σ) (e.subst τ)) :
    c.InstanceRelated R ((Ty.named d es).subst σ) ((Ty.named d es).subst τ) := by
  refine ⟨d, es.map (Ty.subst σ), es.map (Ty.subst τ), ?_, ?_, ?_, ?_, ?_⟩
  · simp [Ty.subst, Ty.substAll_eq_map]
  · simp [Ty.subst, Ty.substAll_eq_map]
  · simpa using hne
  · simp
  · intro i p t u hp ht hu
    simp only [List.getElem?_map, Option.map_eq_some_iff] at ht hu
    obtain ⟨e, he, rfl⟩ := ht
    obtain ⟨e', he', rfl⟩ := hu
    obtain rfl := Option.some.inj (he.symm.trans he')
    exact h i p e hp he

/-- A parameter in a safe place is filled with related types. -/
theorem ArgumentsRelated.subst_param {ts us : List Ty} (hargs : c.ArgumentsRelated R own ts us)
    {v : Variance} {i : Nat} (hsafe : c.safeAt own v (.param i) = true) :
    c.ArgumentRelated R v ((Ty.param i).subst ts) ((Ty.param i).subst us) := by
  simp only [safeAt, Option.any_eq_true, Bool.or_eq_true, decide_eq_true_eq] at hsafe
  obtain ⟨p, hp, hvariance⟩ := hsafe
  simp only [Ty.subst, List.getD_eq_getElem?_getD]
  -- Outside of the arguments nothing is put in, on neither side.
  by_cases hi : i < ts.length
  · have hrelated := hargs.related i p _ _ hp (List.getElem?_eq_getElem hi)
      (List.getElem?_eq_getElem (hargs.length_eq ▸ hi))
    rw [List.getElem?_eq_getElem hi, List.getElem?_eq_getElem (hargs.length_eq ▸ hi)]
    rcases hvariance with hinvariant | hv
    · rw [hinvariant] at hrelated
      exact .inl hrelated.eq_of_invariant
    · exact hv ▸ hrelated
  · have hts := Nat.le_of_not_lt hi
    rw [List.getElem?_eq_none hts, List.getElem?_eq_none (hargs.length_eq ▸ hts)]
    exact .inl rfl

/-- In a place of some variance, two instances of a class or an interface are related if their
arguments are in the places that they have inside it. -/
theorem Compatible.named_related (hR : c.Compatible R) {v : Variance} (hv : v ≠ .ambivariant)
    (hvariant : v ≠ .invariant) {d : DefIndex} (hkind : (c.definition d).kind ≠ .structType)
    {es σ τ : List Ty}
    (hplaces : ∀ (i : Nat) p e, (c.definition d).params[i]? = some p → es[i]? = some e →
      p.variance ≠ .ambivariant ∧
        c.ArgumentRelated R (v.nest p.variance) (e.subst σ) (e.subst τ)) :
    c.ArgumentRelated R v ((Ty.named d es).subst σ) ((Ty.named d es).subst τ) := by
  have hreference : ∀ σ, c.isReferenceType ((Ty.named d es).subst σ) = true := by
    intro σ
    simpa [Ty.subst, isReferenceType] using hkind
  by_cases hnil : es = []
  · rw [hnil]
    exact .inl rfl
  · refine .inr ⟨hreference σ, hreference τ, ?_⟩
    cases v with
    | invariant => exact absurd rfl hvariant
    | ambivariant => exact absurd rfl hv
    | covariant =>
      apply hR.instances
      apply instanceRelated_subst hnil
      intro i p e hp he
      obtain ⟨hparam, hrelated⟩ := hplaces i p e hp he
      rwa [Variance.covariant_nest hparam] at hrelated
    | contravariant =>
      -- the instances are related the other way around, and so are the arguments
      apply hR.instances
      apply instanceRelated_subst hnil
      intro i p e hp he
      obtain ⟨hparam, hrelated⟩ := hplaces i p e hp he
      exact hrelated.flip hparam

/-- **A conversion of arguments converts the types over them**, in places where this is safe. -/
theorem VarianceSafe.subst_related (hc : c.VarianceSafe) (hR : c.Compatible R) {ts us : List Ty}
    (hargs : c.ArgumentsRelated R own ts us) {e : Ty} {v : Variance} (hv : v ≠ .ambivariant)
    (hsafe : c.safeAt own v e = true) : c.ArgumentRelated R v (e.subst ts) (e.subst us) := by
  induction e generalizing v with
  | param i => exact hargs.subst_param hsafe
  | named d es ih =>
    rw [safeAt] at hsafe
    by_cases hfixed : v = .invariant ∨ (c.definition d).kind = .structType
    · -- every argument is in an invariant place, so none of them changes
      rw [placeVariances, if_pos hfixed] at hsafe
      have heq : ∀ e ∈ es, e.subst ts = e.subst us := by
        intro e he
        obtain ⟨i, hi⟩ := List.mem_iff_getElem?.mp he
        have hplace : (List.replicate es.length Variance.invariant)[i]? = some .invariant :=
          List.getElem?_replicate_of_lt (List.getElem?_eq_some_iff.mp hi).1
        have hinvariant := safeAt_of_safeAllAt hsafe hplace hi
        exact (ih e he (by decide) hinvariant).eq_of_invariant
      apply Or.inl
      simpa [Ty.subst, Ty.substAll_eq_map] using heq
    · rw [placeVariances, if_neg hfixed] at hsafe
      obtain ⟨hvariant, hkind⟩ := not_or.mp hfixed
      apply hR.named_related hv hvariant hkind
      intro i p e hp he
      have hparam := hc.params d p (List.mem_of_getElem? hp)
      have hplace : ((c.definition d).params.map fun p => v.nest p.variance)[i]? =
          some (v.nest p.variance) := by simp [hp]
      refine ⟨hparam, ih e (List.mem_of_getElem? he) ?_ (safeAt_of_safeAllAt hsafe hplace he)⟩
      exact Variance.nest_ne_ambivariant hv hparam
  | array n e ih =>
    rcases ih hv hsafe with heq | ⟨ht, hu, h⟩
    · exact .inl (congrArg (Ty.array n) heq)
    · refine .inr ⟨rfl, rfl, ?_⟩
      cases v with
      | invariant => exact h
      | covariant => exact hR.arrays ⟨n, _, _, rfl, rfl, hu, h⟩
      | contravariant => exact hR.arrays ⟨n, _, _, rfl, rfl, ht, h⟩
      | ambivariant => exact absurd rfl hv
  | pointer e ih => exact .inl (congrArg Ty.pointer (ih (by decide) hsafe).eq_of_invariant)
  | byRef e ih => exact .inl (congrArg Ty.byRef (ih (by decide) hsafe).eq_of_invariant)

/-- Declared types over related arguments are related part by part. -/
theorem VarianceSafe.supertype_related (hc : c.VarianceSafe) (hR : c.Compatible R) {ts us : List Ty}
    (hargs : c.ArgumentsRelated R own ts us) {s : Ty} (hsafe : c.safeSupertype own s = true) :
    c.PartsRelated R (s.subst ts) (s.subst us) := by
  obtain ⟨d, es, rfl, hsafe⟩ := exists_of_safeSupertype hsafe
  by_cases hnil : es = []
  · rw [hnil]
    exact .inl rfl
  · refine .inr (.inl (instanceRelated_subst hnil ?_))
    intro i p e hp he
    have hplace : ((c.definition d).params.map (·.variance))[i]? = some p.variance := by simp [hp]
    apply hc.subst_related hR hargs
    · exact hc.params d p (List.mem_of_getElem? hp)
    · exact safeAt_of_safeAllAt hsafe hplace he

/-- Arrays of related references are related at their element, as a parameter. -/
theorem Compatible.elements_related (hR : c.Compatible R) {t u : Ty}
    (hu : c.isReferenceType u = true) (h : R t u) :
    c.ArgumentsRelated R [elementParam] [t] [u] := by
  refine ⟨rfl, ?_⟩
  intro i p t' u' hp ht hu'
  cases i with
  | succ i => cases hp
  | zero =>
    obtain rfl := Option.some.inj hp
    obtain rfl := Option.some.inj ht
    obtain rfl := Option.some.inj hu'
    exact .inr ⟨hR.references h hu, hu, h⟩

/-- One step up from types that are related part by part there are such types again. -/
theorem VarianceSafe.step_related (hc : c.VarianceSafe) (hR : c.Compatible R) {b e b' : Ty}
    (h : c.PartsRelated R b e) :
    (c.HasBase b b' → ∃ e', c.HasBase e e' ∧ c.PartsRelated R b' e') ∧
      (c.Declares b b' → ∃ e', c.Declares e e' ∧ c.PartsRelated R b' e') := by
  -- The types are equal, or instances of one definition with related arguments, or arrays with
  -- related elements. In the last two cases both declare the same types, over what is related.
  rcases h with rfl | ⟨d, ts, us, rfl, rfl, -, hargs⟩ | ⟨n, t, u, rfl, rfl, hu, h⟩
  · exact ⟨fun hb => ⟨b', hb, .inl rfl⟩, fun hb => ⟨b', hb, .inl rfl⟩⟩
  · constructor
    · intro hb
      obtain ⟨s, hs, rfl⟩ := Option.map_eq_some_iff.mp hb
      have hdeclared := hc.declared d s (c.mem_declared_of_base hs)
      exact ⟨s.subst us, Option.map_eq_some_iff.mpr ⟨s, hs, rfl⟩,
        hc.supertype_related hR hargs hdeclared⟩
    · intro hb
      obtain ⟨s, hs, rfl⟩ := List.mem_map.mp hb
      have hdeclared := hc.declared d s (c.mem_declared_of_interface hs)
      exact ⟨s.subst us, List.mem_map_of_mem hs, hc.supertype_related hR hargs hdeclared⟩
  · -- all arrays have the same base, and the interfaces are declared over the element
    refine ⟨fun hb => ⟨b', hb, .inl rfl⟩, ?_⟩
    intro hb
    rcases hb.cases with ⟨d, ts, s, heq, -⟩ | ⟨elem, s, heq, hs, rfl⟩
    · cases heq
    · obtain ⟨rfl, rfl⟩ := Ty.array.inj heq
      exact ⟨s.subst [u], List.mem_map_of_mem hs,
        hc.supertype_related hR (hR.elements_related hu h) (hc.arrayInterfaces s hs)⟩

/-- What holds step by step holds along a way up. -/
theorem related_of_steps {Step : Ty → Ty → Prop} {P : Ty → Ty → Prop}
    (hstep : ∀ b e b', P b e → Step b b' → ∃ e', Step e e' ∧ P b' e') {b e b' : Ty} (h : P b e)
    (hb : ReflTransGen Step b b') : ∃ e', ReflTransGen Step e e' ∧ P b' e' := by
  induction hb with
  | refl => exact ⟨e, .refl, h⟩
  | tail _ hnext ih =>
    obtain ⟨mid, hmid, hP⟩ := ih
    obtain ⟨e', he', hP'⟩ := hstep _ _ _ hP hnext
    exact ⟨e', hmid.tail he', hP'⟩

/-- **Conversions carry over to what is inherited**: whatever one of two types inherits that are
related part by part, the other inherits a type that is related to it in this way. -/
theorem VarianceSafe.inherits_related (hc : c.VarianceSafe) (hR : c.Compatible R) {b e b' : Ty}
    (h : c.PartsRelated R b e) (hb : c.Inherits b b') :
    ∃ e', c.Inherits e e' ∧ c.PartsRelated R b' e' := by
  obtain ⟨link, hlink, hb'⟩ := hb
  have hbases : ∀ b e b', c.PartsRelated R b e → c.HasBase b b' →
      ∃ e', c.HasBase e e' ∧ c.PartsRelated R b' e' := fun _ _ _ h => (hc.step_related hR h).1
  have hinterfaces : ∀ b e b', c.PartsRelated R b e → c.Declares b b' →
      ∃ e', c.Declares e e' ∧ c.PartsRelated R b' e' := fun _ _ _ h => (hc.step_related hR h).2
  obtain ⟨elink, helink, hrelated⟩ := related_of_steps hbases h hlink
  obtain ⟨e', he', hrelated'⟩ := related_of_steps hinterfaces hrelated hb'
  exact ⟨e', ⟨elink, helink, he'⟩, hrelated'⟩

end

end Catalog

end TypeResolution

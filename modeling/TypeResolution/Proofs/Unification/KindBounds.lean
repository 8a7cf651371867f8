import TypeResolution.Catalog.BaseLibrary
import TypeResolution.Proofs.Catalog.Canonical
import TypeResolution.Proofs.Catalog.Conversion
import TypeResolution.Unification.Match

/-!
# Bounds on the kind of an argument

A generic parameter asks for a value type or a reference type through a bound, a slot through a kind
marker. Each looks at the argument in a form of its own. The bound is checked on the argument as it
is stored, where a pointer or by-reference type is written over its stand-in (`Catalog.storedArg`).
The marker reads stand-ins first (`Ty.structuralForm`).

For value types the forms make no difference, since the stand-ins of markers are classes. For the
same reason the stored form of a pointer passes for a reference type, which the pointer is not. So
bounds on kinds let through what is of that kind, and the markers accept it, but for pointers and
by-reference types behind a bound that asks for a reference type (`kindBounds_met`,
`pointerHolder_unbounded`).
-/

namespace TypeResolution

namespace Catalog

variable {c : Catalog}

/-! ## The bounds of an instance

That an instance was made says that none of its bounds was missed, with the fuel that it was made
with. For a bound on the kind no fuel is needed, since kinds are looked up. -/

/-- No bound is missed exactly if every argument meets every bound of its parameter. -/
theorem firstMissed_eq_none_iff {fuel : Nat} {args : List Ty} {ps : List (TypeParam × Ty)} :
    c.firstMissed fuel args ps = some none ↔
      ∀ p ∈ ps, ∀ bound ∈ p.1.bounds, c.meets fuel args p.2 bound = some true := by
  induction ps with
  | nil => exact iff_of_true rfl fun p hp => absurd hp List.not_mem_nil
  | cons p ps ih =>
    rw [List.forall_mem_cons, ← ih, ← Fueled.all_eq_true_iff, firstMissed]
    rcases Fueled.all (c.meets fuel args p.2) p.1.bounds with _ | _ | _
    · simp
    · simp
    · simp

/-- Every argument that an instance was built from meets the bounds of its parameter, in the form in
which it is stored. -/
theorem meets_of_instantiate {fuel : Nat} {d : DefIndex} {args : List Ty} {t : Ty}
    (hd : Marker.ofDefinition? d = none) (h : c.instantiate fuel d args = some (.ok t)) {i : Nat}
    {param : TypeParam} {arg : Ty} (hparam : (c.definition d).params[i]? = some param)
    (harg : args[i]? = some arg) {bound : Bound} (hbound : bound ∈ param.bounds) :
    c.meets fuel (args.map storedArg) (storedArg arg) bound = some true := by
  rcases (c.instantiate_ok h).2 with hs | ⟨-, -, hmissed⟩
  · -- what is read from its arguments is a structural stand-in
    rcases Ty.structural?_ok hs with ⟨rfl, -⟩ | ⟨rfl, -⟩ | ⟨rfl, -⟩ <;> cases hd
  · have hmem : (param, storedArg arg) ∈ (c.definition d).params.zip (args.map storedArg) := by
      refine List.mem_iff_getElem?.mpr ⟨i, List.getElem?_zip_eq_some.mpr ⟨hparam, ?_⟩⟩
      rw [List.getElem?_map, harg, Option.map_some]
    exact firstMissed_eq_none_iff.mp hmissed _ hmem bound hbound

end Catalog

/-! ## The kind of a form

A pointer and a by-reference type are neither values nor references. Their stand-ins are classes, so
the stored form of either passes for a reference, and reading it loses that again. -/

/-- Whether a type is a pointer or a by-reference type. -/
def Ty.isIndirect : Ty → Bool
  | .pointer _ => true
  | .byRef _ => true
  | _ => false

namespace Catalog

variable (c : Catalog)

/-- The stand-ins of markers are classes. -/
theorem kind_definition (m : Marker) : (c.definition m.definition).kind = .classType := by
  have hstandIn : (standIns[m.definition]?).map Definition.kind = some .classType := by
    cases m <;> rfl
  obtain ⟨s, hs, hkind⟩ := Option.map_eq_some_iff.mp hstandIn
  rw [← hkind]
  exact (Prod.mk.inj (Prod.mk.inj (c.signature_standIn hs)).2).1

/-- Whether an argument is a value type does not depend on how it is stored. -/
theorem isValueType_storedArg (t : Ty) : c.isValueType (storedArg t) = c.isValueType t := by
  cases t with
  | pointer elem => simp [storedArg, Ty.nominalForm, isValueType, c.kind_definition]
  | byRef elem => simp [storedArg, Ty.nominalForm, isValueType, c.kind_definition]
  | _ => rfl

/-- As it is stored, an argument is a reference type if it is one or if it is a pointer or
by-reference type. -/
theorem isReferenceType_storedArg (t : Ty) :
    c.isReferenceType (storedArg t) = (c.isReferenceType t || t.isIndirect) := by
  cases t with
  | pointer elem =>
    simp [storedArg, Ty.nominalForm, isReferenceType, c.kind_definition, Ty.isIndirect]
  | byRef elem =>
    simp [storedArg, Ty.nominalForm, isReferenceType, c.kind_definition, Ty.isIndirect]
  | _ => simp [storedArg, Ty.isIndirect]

/-- A value type is its own structural form. -/
theorem structuralForm_of_isValueType {t : Ty} (h : c.isValueType t = true) :
    t.structuralForm = .ok t := by
  cases t with
  | named d ts =>
    rw [Ty.structuralForm]
    split
    · next m hm =>
      obtain rfl := Marker.eq_definition hm
      simp [isValueType, c.kind_definition] at h
    · rfl
  | _ => cases h

/-- What is a reference type as it is stored has a structural form that is a reference type, unless
it is a pointer or by-reference type. -/
theorem isReferenceType_structuralForm {t u : Ty} (h : c.isReferenceType (storedArg t) = true)
    (hu : t.structuralForm = .ok u) : c.isReferenceType u = !u.isIndirect := by
  rcases Ty.structuralForm_ok hu with rfl | ⟨d, ts, rfl, hs⟩
  · rw [isReferenceType_storedArg, Bool.or_eq_true] at h
    cases u <;> simp_all [isReferenceType, Ty.isIndirect]
  · rcases Ty.structural?_ok hs with ⟨-, n, elem, -, rfl⟩ | ⟨-, elem, -, rfl⟩ | ⟨-, elem, -, rfl⟩
    all_goals rfl

/-- Whether a type is of the kind that a kind marker stands for. -/
def hasKind (c : Catalog) : Marker → Ty → Bool
  | .valueType, t => c.isValueType t
  | .referenceType, t => c.isReferenceType t
  | _, _ => false

end Catalog

/-! ## Bounds and kind markers

Both tests are compared for one argument of an instance. The bound says something of the argument as
it is stored, and the marker is then matched with the argument as it is read. -/

variable {ν : Type} {c : Catalog} {fuel : Nat}

/-- A kind marker accepts a candidate whose structural form is of its kind, and binds nothing. -/
theorem matchAll_kindMarker {m : Marker} (hm : m.isKind = true) (outer v : Variance)
    (ks : List Constraint) (b : Bindings) (candidate : Ty) :
    (matchAll c fuel outer candidate b [.instanceOf m.definition v ks] :
        Search ν ResolutionError Bindings) =
      withStructural candidate fun u => if c.hasKind m u then .single b else .done := by
  rw [matchAll, matchOne, unifyInstance, withStructural, withStructural,
    Marker.ofDefinition?_definition]
  rcases candidate.structuralForm with e | u
  · rfl
  · cases m with
    | valueType => cases h : c.isValueType u <;> simp only [Catalog.hasKind, h] <;> rfl
    | referenceType => cases h : c.isReferenceType u <;> simp only [Catalog.hasKind, h] <;> rfl
    | _ => cases hm

variable {d : DefIndex} {args : List Ty} {t arg : Ty} {i : Nat} {param : TypeParam}

/-- **What bounds on kinds let through.** An argument behind a bound that asks for a value type is
one, and the marker of value types accepts it. An argument behind a bound that asks for a reference
type is one if it is no pointer or by-reference type. The marker of reference types refuses what
stands for a pointer or by-reference type, fails on a stand-in that stands for nothing, and accepts
every other argument. -/
theorem kindBounds_met (hd : Marker.ofDefinition? d = none)
    (h : c.instantiate fuel d args = some (.ok t))
    (hparam : (c.definition d).params[i]? = some param) (harg : args[i]? = some arg)
    (outer v : Variance) (ks : List Constraint) (b : Bindings) (fuel' : Nat) :
    (.valueType ∈ param.bounds →
        c.isValueType arg = true ∧
          (matchAll c fuel' outer arg b [.instanceOf Marker.valueType.definition v ks] :
            Search ν ResolutionError Bindings) = .single b) ∧
      (.referenceType ∈ param.bounds →
        c.isReferenceType arg = !arg.isIndirect ∧
          (matchAll c fuel' outer arg b [.instanceOf Marker.referenceType.definition v ks] :
            Search ν ResolutionError Bindings) =
              match arg.structuralForm with
              | .error e => .failed (.instantiate e)
              | .ok u => if u.isIndirect then .done else .single b) := by
  constructor
  · intro hbound
    have hstored := Option.some.inj (Catalog.meets_of_instantiate hd h hparam harg hbound)
    have hvalue : c.isValueType arg = true := by rwa [c.isValueType_storedArg] at hstored
    refine ⟨hvalue, ?_⟩
    rw [matchAll_kindMarker rfl, withStructural, c.structuralForm_of_isValueType hvalue]
    exact if_pos hvalue
  · intro hbound
    have hstored := Option.some.inj (Catalog.meets_of_instantiate hd h hparam harg hbound)
    constructor
    · rw [c.isReferenceType_storedArg, Bool.or_eq_true] at hstored
      cases arg <;> simp_all [Catalog.isReferenceType, Ty.isIndirect]
    · rw [matchAll_kindMarker rfl, withStructural]
      rcases hu : arg.structuralForm with e | u
      · rfl
      · have hkind := c.isReferenceType_structuralForm hstored hu
        simp only [Catalog.hasKind, hkind]
        cases u.isIndirect <;> rfl

/-- The base library with a class whose parameter asks for a reference type. -/
def classHolder : Catalog :=
  Catalog.baseLibrary.add
    { name := "Holder`1", params := [{ name := "T", bounds := [.referenceType] }] }

/-- `Nullable<int>` and `Holder<string>` are instances, and the markers accept their arguments. -/
theorem boundedInstances_met :
    (classHolder.instantiate 0 21 [.nominal 19] = some (.ok (.named 21 [.nominal 19])) ∧
        classHolder.isValueType (.nominal 19) = true ∧
        (matchAll classHolder 0 .invariant (.nominal 19) []
          [.instanceOf Marker.valueType.definition .invariant []] :
            Search Unit ResolutionError Bindings) = .single []) ∧
      classHolder.instantiate 0 22 [.nominal 18] = some (.ok (.named 22 [.nominal 18])) ∧
        classHolder.isReferenceType (.nominal 18) = true ∧
        (matchAll classHolder 0 .invariant (.nominal 18) []
          [.instanceOf Marker.referenceType.definition .invariant []] :
            Search Unit ResolutionError Bindings) = .single [] := by
  have hnullable : classHolder.instantiate 0 21 [.nominal 19] =
      some (.ok (.named 21 [.nominal 19])) := rfl
  have hholder : classHolder.instantiate 0 22 [.nominal 18] =
      some (.ok (.named 22 [.nominal 18])) := rfl
  obtain ⟨hint, -⟩ :=
    kindBounds_met (ν := Unit) (i := 0) rfl hnullable rfl rfl .invariant .invariant [] [] 0
  obtain ⟨-, hstring⟩ :=
    kindBounds_met (ν := Unit) (i := 0) rfl hholder rfl rfl .invariant .invariant [] [] 0
  obtain ⟨hvalue, haccepted⟩ := hint List.mem_cons_self
  obtain ⟨hreference, haccepted'⟩ := hstring List.mem_cons_self
  exact ⟨⟨hnullable, hvalue, haccepted⟩, hholder, hreference, haccepted'⟩

/-- **A bound that asks for a reference type accepts a pointer.** The pointer is no reference type,
and the marker of reference types refuses it. An integer does not get past the same bound. -/
theorem pointerHolder_unbounded :
    Marker.ofDefinition? 22 = none ∧
      (classHolder.definition 22).params = [{ name := "T", bounds := [.referenceType] }] ∧
      classHolder.instantiate 0 22 [.pointer (.nominal 19)] =
        some (.ok (.named 22 [.named Marker.pointer.definition [.nominal 19]])) ∧
      classHolder.isReferenceType (.pointer (.nominal 19)) = false ∧
      (matchAll classHolder 0 .invariant (.pointer (.nominal 19)) []
        [.instanceOf Marker.referenceType.definition .invariant []] :
          Search Unit ResolutionError Bindings) = .done ∧
      classHolder.instantiate 0 22 [.nominal 19] =
        some (.error (.bound 22 "T" (.nominal 19))) :=
  ⟨rfl, rfl, rfl, rfl, rfl, rfl⟩

end TypeResolution

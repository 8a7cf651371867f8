import TypeResolution.Catalog.BaseLibrary
import TypeResolution.Proofs.Catalog.Canonical
import TypeResolution.Proofs.Catalog.Inheritance
import TypeResolution.Proofs.Ty.Parameters

/-!
# Catalogs that are declared well

Nothing stops a catalog from declaring a base that lacks an argument, that mentions a parameter
nobody fills, or that names a stand-in itself. A catalog that does none of this is *well declared*.
Two things then follow for every type that is inherited:

* it is `Proper`: closed and applied at arity, so it has a structural form, and so has everything
  inside it (`Inherits.proper`);
* it is inherited in the same way by the definition over its own parameters, with the arguments put
  in afterwards (`exists_open_of_inherits`), unless a declaration inherits from a bare parameter.

These are conditions on declarations alone, each of them decidable by looking at the catalog once
(`wellFormed`), and the base library meets them all. The properties of types that follow from them
are inductive and talk about any type. The two are tied together by substitution: a declared type
with proper arguments put in is proper (`Proper.subst`), so one step of inheriting does not leave
the proper types, and neither do many.
-/

namespace TypeResolution

open Relation

namespace Catalog

variable (c : Catalog)

/-! ## Declared types

A declared type may mention the parameters of the definition that declares it, and no others. It is
checked by recursion, with the list of arguments checked along with it. -/

mutual
/-- Whether a type may be written in a definition with `n` parameters: it mentions only these,
applies definitions to as many arguments as they take, and names no stand-in of a marker. -/
def wellFormed (n : Nat) : Ty → Bool
  | .param i => decide (i < n)
  | .named d ts =>
    (Marker.ofDefinition? d).isNone && decide (ts.length = c.arity d) && allWellFormed n ts
  | .array _ t => wellFormed n t
  | .pointer t => wellFormed n t
  | .byRef t => wellFormed n t

/-- Whether all types of a list may be written in a definition with `n` parameters. -/
def allWellFormed (n : Nat) : List Ty → Bool
  | [] => true
  | t :: ts => wellFormed n t && allWellFormed n ts
end

/-- The check of a list is the check of all its members. -/
theorem allWellFormed_eq_all (n : Nat) (ts : List Ty) :
    c.allWellFormed n ts = ts.all (c.wellFormed n) := by
  induction ts with
  | nil => rfl
  | cons t ts ih => rw [allWellFormed, ih, List.all_cons]

/-- The types that a definition declares to inherit from. -/
def declared (d : DefIndex) : List Ty := (c.definition d).base.toList ++ (c.definition d).interfaces

/-- Everything that is declared to be inherited may be written where it stands. An array interface
may mention the element, the array base nothing. -/
structure WellDeclared : Prop where
  /-- the bases and interfaces of definitions -/
  declared : ∀ d, ∀ s ∈ c.declared d, c.wellFormed (c.arity d) s = true
  /-- the base of arrays -/
  arrayBase : ∀ s ∈ c.arrayBase, c.wellFormed 0 s = true
  /-- the interfaces of arrays -/
  arrayInterfaces : ∀ s ∈ c.arrayInterfaces, c.wellFormed 1 s = true

/-- Nothing is declared to inherit from a bare parameter. -/
structure NoBareParam : Prop where
  /-- no definition has a parameter for its base or among its interfaces -/
  declared : ∀ d, ∀ s ∈ c.declared d, ∀ i, s ≠ .param i
  /-- the element is no array interface -/
  arrayInterfaces : ∀ s ∈ c.arrayInterfaces, ∀ i, s ≠ .param i

/-- What is to be known of all declarations is to be checked for the registered definitions. -/
theorem forall_declared {P : DefIndex → Ty → Prop}
    (h : ∀ d < c.defs.length, ∀ s ∈ c.declared d, P d s) : ∀ d, ∀ s ∈ c.declared d, P d s := by
  intro d s hs
  by_cases hd : d < c.defs.length
  · exact h d hd s hs
  · rw [declared, c.definition_of_length_le (Nat.le_of_not_lt hd)] at hs
    exact absurd hs List.not_mem_nil

/-- So is what is to be known of all parameters. -/
theorem forall_params {P : TypeParam → Prop}
    (h : ∀ d < c.defs.length, ∀ p ∈ (c.definition d).params, P p) :
    ∀ d, ∀ p ∈ (c.definition d).params, P p := by
  intro d p hp
  by_cases hd : d < c.defs.length
  · exact h d hd p hp
  · rw [c.definition_of_length_le (Nat.le_of_not_lt hd)] at hp
    exact absurd hp List.not_mem_nil

/-- The base library is declared well. -/
theorem baseLibrary_wellDeclared : baseLibrary.WellDeclared where
  declared := baseLibrary.forall_declared (by decide)
  arrayBase := by decide
  arrayInterfaces := by decide

/-- In the base library nothing is declared to inherit from a bare parameter. -/
theorem baseLibrary_noBareParam : baseLibrary.NoBareParam := by
  have hhead : ∀ d, ∀ s ∈ baseLibrary.declared d, s.head? ≠ none :=
    baseLibrary.forall_declared (by decide)
  have harray : ∀ s ∈ baseLibrary.arrayInterfaces, s.head? ≠ none := by decide
  exact ⟨fun d s hs i heq => hhead d s hs (heq ▸ rfl), fun s hs i heq => harray s hs (heq ▸ rfl)⟩

/-! ### One step up

A step leads to a declared type with the arguments put in. For arrays there is one more case, since
what an array inherits is declared by its stand-in, over the element type. -/

/-- The base of a definition is declared. -/
theorem mem_declared_of_base {d : DefIndex} {s : Ty} (h : (c.definition d).base = some s) :
    s ∈ c.declared d :=
  List.mem_append_left _ (Option.mem_toList.mpr h)

/-- Its interfaces are. -/
theorem mem_declared_of_interface {d : DefIndex} {s : Ty} (h : s ∈ (c.definition d).interfaces) :
    s ∈ c.declared d :=
  List.mem_append_right _ h

variable {c}

/-- The base of a type is a declared type over the type's arguments, or the base of arrays. -/
theorem HasBase.cases {t b : Ty} (h : c.HasBase t b) :
    (∃ d ts s, t = .named d ts ∧ (c.definition d).base = some s ∧ b = s.subst ts) ∨
      ∃ n elem, t = .array n elem ∧ c.arrayBase = some b := by
  cases t with
  | named d ts =>
    obtain ⟨s, hs, rfl⟩ := Option.map_eq_some_iff.mp h
    exact .inl ⟨d, ts, s, rfl, hs, rfl⟩
  | array n elem => exact .inr ⟨n, elem, rfl, h⟩
  | _ => cases h

/-- An interface of a type is a declared type over the type's arguments, or an interface of arrays
over the element. -/
theorem Declares.cases {t i : Ty} (h : c.Declares t i) :
    (∃ d ts s, t = .named d ts ∧ s ∈ (c.definition d).interfaces ∧ i = s.subst ts) ∨
      ∃ elem s, t = .array 1 elem ∧ s ∈ c.arrayInterfaces ∧ i = s.subst [elem] := by
  rw [Declares, declaredInterfaces.eq_def] at h
  split at h
  · obtain ⟨s, hs, rfl⟩ := List.mem_map.mp h
    exact .inl ⟨_, _, s, rfl, hs, rfl⟩
  · obtain ⟨s, hs, rfl⟩ := List.mem_map.mp h
    exact .inr ⟨_, s, rfl, hs, rfl⟩
  · exact absurd h List.not_mem_nil

/-- One step up a type comes to a declared type: one that the type's definition declares, over the
type's arguments, or one that arrays declare, over the element. -/
theorem step_cases {t b : Ty} (h : c.HasBase t b ∨ c.Declares t b) :
    (∃ d ts s, t = .named d ts ∧ s ∈ c.declared d ∧ b = s.subst ts) ∨
      ∃ n elem, t = .array n elem ∧
        (c.arrayBase = some b ∨ n = 1 ∧ ∃ s ∈ c.arrayInterfaces, b = s.subst [elem]) := by
  rcases h with h | h
  · rcases h.cases with ⟨d, ts, s, rfl, hs, rfl⟩ | ⟨n, elem, rfl, hb⟩
    · exact .inl ⟨d, ts, s, rfl, c.mem_declared_of_base hs, rfl⟩
    · exact .inr ⟨n, elem, rfl, .inl hb⟩
  · rcases h.cases with ⟨d, ts, s, rfl, hs, rfl⟩ | ⟨elem, s, rfl, hs, rfl⟩
    · exact .inl ⟨d, ts, s, rfl, c.mem_declared_of_interface hs, rfl⟩
    · exact .inr ⟨1, elem, rfl, .inr ⟨rfl, s, hs, rfl⟩⟩

/-! ## Proper types

A proper type is written in its structural form or can be put into it. The stand-in of arrays is not
a definition that a proper type may name, since its first argument might encode no rank; arrays
themselves are proper. -/

/-- A type over `n` parameters all of whose parts are definitions at their arity, arrays, pointers
and by-reference types. The stand-ins of pointers and by-reference types may occur, as they do among
stored arguments; that of arrays may not, since only some of its arguments denote an array. -/
inductive Proper (c : Catalog) (n : Nat) : Ty → Prop
  /-- one of the parameters -/
  | param {i : Nat} (hi : i < n) : Proper c n (.param i)
  /-- a definition at its arity -/
  | named {d : DefIndex} {ts : List Ty} (hd : d ≠ Marker.array.definition)
      (hlength : ts.length = c.arity d) (hts : ∀ t ∈ ts, Proper c n t) : Proper c n (.named d ts)
  /-- an array -/
  | array {rank : Nat} {elem : Ty} (helem : Proper c n elem) : Proper c n (.array rank elem)
  /-- a pointer -/
  | pointer {elem : Ty} (helem : Proper c n elem) : Proper c n (.pointer elem)
  /-- a by-reference type -/
  | byRef {elem : Ty} (helem : Proper c n elem) : Proper c n (.byRef elem)

/-- What passes the check is proper. -/
theorem proper_of_wellFormed {n : Nat} {t : Ty} (h : c.wellFormed n t = true) : c.Proper n t := by
  induction t with
  | param i => exact .param (of_decide_eq_true h)
  | named d ts ih =>
    simp only [wellFormed, Bool.and_eq_true, Option.isNone_iff_eq_none, decide_eq_true_eq,
      allWellFormed_eq_all, List.all_eq_true] at h
    obtain ⟨⟨hmarker, hlength⟩, hts⟩ := h
    refine .named ?_ hlength fun t ht => ih t ht (hts t ht)
    rintro rfl
    cases hmarker
  | array rank elem ih => exact .array (ih h)
  | pointer elem ih => exact .pointer (ih h)
  | byRef elem ih => exact .byRef (ih h)

/-- A proper type over some parameters mentions no others. -/
theorem Proper.paramsBelow {n : Nat} {t : Ty} (h : c.Proper n t) : t.paramsBelow n = true := by
  induction h with
  | param hi => exact decide_eq_true hi
  | named _ _ _ ih =>
    rw [Ty.paramsBelow, Ty.allParamsBelow_eq_all, List.all_eq_true]
    exact ih
  | array _ ih => exact ih
  | pointer _ ih => exact ih
  | byRef _ ih => exact ih

/-- A proper type without parameters is closed. -/
theorem Proper.isClosed {t : Ty} (h : c.Proper 0 t) : t.isClosed = true :=
  t.isClosed_eq_paramsBelow_zero.trans h.paramsBelow

/-- Proper arguments make a proper type out of one that is proper over as many parameters. -/
theorem Proper.subst {m n : Nat} {s : Ty} (h : c.Proper m s) {σ : List Ty} (hlength : m ≤ σ.length)
    (hσ : ∀ a ∈ σ, c.Proper n a) : c.Proper n (s.subst σ) := by
  induction h with
  | param hi => exact hσ _ (Ty.subst_param_mem (Nat.lt_of_lt_of_le hi hlength))
  | named hd harity _ ih =>
    rw [Ty.subst, Ty.substAll_eq_map]
    refine .named hd (by rw [List.length_map]; exact harity) fun t ht => ?_
    obtain ⟨s, hs, rfl⟩ := List.mem_map.mp ht
    exact ih s hs
  | array _ ih => exact .array ih
  | pointer _ ih => exact .pointer ih
  | byRef _ ih => exact .byRef ih

/-- The encoding of a rank is proper. -/
theorem proper_rankEncoding (n rank : Nat) : c.Proper n (rankEncoding rank) := by
  induction rank with
  | zero => exact .named (by decide) c.arity_rankZero.symm (by simp)
  | succ rank ih => exact .named (by decide) c.arity_rankSucc.symm (by simpa using ih)

/-- The arguments of a proper type are proper, the encoding of an array's rank included. -/
theorem Proper.headArgs {n : Nat} {t : Ty} (h : c.Proper n t) : ∀ s ∈ t.headArgs, c.Proper n s := by
  cases h with
  | param hi => exact fun s hs => absurd hs List.not_mem_nil
  | named _ _ hts => exact hts
  | array helem => exact List.forall_mem_cons.mpr ⟨proper_rankEncoding n _, by simpa using helem⟩
  | pointer helem => exact by simpa [Ty.headArgs] using helem
  | byRef helem => exact by simpa [Ty.headArgs] using helem

/-- What is proper is so in all its arguments. -/
theorem hereditary_proper (c : Catalog) (n : Nat) : Ty.Hereditary (c.Proper n) where
  named d ts h := by
    cases h with
    | named _ _ hts => exact hts
  array rank elem h := by
    cases h with
    | array helem => exact helem
  pointer elem h := by
    cases h with
    | pointer helem => exact helem
  byRef elem h := by
    cases h with
    | byRef helem => exact helem

/-- A proper type has a structural form, and this is proper too. -/
theorem Proper.exists_structuralForm {t : Ty} (h : c.Proper 0 t) :
    ∃ u, t.structuralForm = .ok u ∧ c.Proper 0 u := by
  cases h with
  | param hi => exact absurd hi (Nat.not_lt_zero _)
  | @named d ts hd hlength hts =>
    -- A name of an ordinary definition is its own structural form. Of the stand-ins that are left,
    -- pointers and references encode what they are applied to.
    rcases hm : Marker.ofDefinition? d with _ | m
    · exact ⟨.named d ts, by rw [Ty.structuralForm, hm], .named hd hlength hts⟩
    · obtain rfl := Marker.eq_definition hm
      have hclosed : ∀ t ∈ ts, t.isClosed = true := fun t ht => (hts t ht).isClosed
      have harity : ts.length = m.arity := hlength.trans (c.arity_definition m)
      cases m with
      | array => exact absurd rfl hd
      | pointer =>
        obtain ⟨elem, rfl⟩ := List.length_eq_one_iff.mp harity
        exact ⟨.pointer elem, structuralForm_standIn (m := .pointer) rfl rfl hclosed,
          .pointer (hts elem List.mem_cons_self)⟩
      | byRef =>
        obtain ⟨elem, rfl⟩ := List.length_eq_one_iff.mp harity
        exact ⟨.byRef elem, structuralForm_standIn (m := .byRef) rfl rfl hclosed,
          .byRef (hts elem List.mem_cons_self)⟩
      | valueType => exact ⟨_, rfl, .named hd hlength hts⟩
      | referenceType => exact ⟨_, rfl, .named hd hlength hts⟩
  | array helem => exact ⟨_, rfl, .array helem⟩
  | pointer helem => exact ⟨_, rfl, .pointer helem⟩
  | byRef helem => exact ⟨_, rfl, .byRef helem⟩

/-- A proper type is stored as a proper type. -/
theorem proper_storedArg {n : Nat} {t : Ty} (h : c.Proper n t) : c.Proper n (storedArg t) := by
  cases h with
  | pointer helem =>
    exact .named (by decide) (c.arity_definition .pointer).symm (by simpa using helem)
  | byRef helem =>
    exact .named (by decide) (c.arity_definition .byRef).symm (by simpa using helem)
  | param hi => exact .param hi
  | named hd hlength hts => exact .named hd hlength hts
  | array helem => exact .array helem

/-- Canonical types are proper. -/
theorem Canonical.proper {t : Ty} (h : c.Canonical t) : c.Proper 0 t := by
  induction h with
  | @intro fuel d args t hargs hinstance ih =>
    have hlength := c.length_of_instantiate hinstance
    rcases (c.instantiate_ok hinstance).2 with hs | ⟨hs, rfl, -⟩
    · rcases Ty.structural?_ok hs with ⟨-, n, elem, rfl, rfl⟩ | ⟨-, elem, rfl, rfl⟩ |
        ⟨-, elem, rfl, rfl⟩
      · exact .array (ih elem (by simp))
      · exact .pointer (ih elem (by simp))
      · exact .byRef (ih elem (by simp))
    · refine .named ?_ (by rw [List.length_map]; exact hlength) fun s hs => ?_
      · -- with its two arguments the stand-in of arrays would be structural
        rintro rfl
        cases isKind_of_structural? hlength hs (Marker.ofDefinition?_definition .array)
      · obtain ⟨a, ha, rfl⟩ := List.mem_map.mp hs
        exact proper_storedArg (ih a ha)

/-! ## What is inherited is proper

By induction along what is inherited, from the single step. -/

/-- One step up from a proper type leads to a proper type. -/
theorem WellDeclared.proper_step (hc : c.WellDeclared) {n : Nat} {t b : Ty} (ht : c.Proper n t)
    (h : c.HasBase t b ∨ c.Declares t b) : c.Proper n b := by
  rcases step_cases h with ⟨d, ts, s, rfl, hs, rfl⟩ | ⟨rank, elem, rfl, hb | ⟨rfl, s, hs, rfl⟩⟩
  · cases ht with
    | named _ hlength hts =>
      exact (proper_of_wellFormed (hc.declared d s hs)).subst (Nat.le_of_eq hlength.symm) hts
  · have hbase := proper_of_wellFormed (hc.arrayBase b hb)
    have hclosed := hbase.subst (σ := []) (n := n) (Nat.le_refl 0) (by simp)
    rwa [Ty.subst_of_isClosed [] b hbase.isClosed] at hclosed
  · cases ht with
    | array helem =>
      have hone : 1 ≤ [elem].length := Nat.le_refl 1
      exact (proper_of_wellFormed (hc.arrayInterfaces s hs)).subst hone (by simpa using helem)

/-- **What a proper type inherits is proper.** -/
theorem Inherits.proper (hc : c.WellDeclared) {n : Nat} {t a : Ty} (h : c.Inherits t a)
    (ht : c.Proper n t) : c.Proper n a :=
  h.induction ht (fun _ _ hs hb => hc.proper_step hs (.inl hb))
    fun _ _ hs hi => hc.proper_step hs (.inr hi)

/-! ### Types without stand-ins

A type that passes the check over no parameters names no stand-in at all, neither at its root nor
below. Inheriting keeps it so, and such a type is read as it is written. -/

/-- Filling the parameters of a declared type with types without stand-ins gives one. -/
theorem wellFormed_subst {m n : Nat} {s : Ty} (h : c.wellFormed m s = true) {σ : List Ty}
    (hlength : m ≤ σ.length) (hσ : ∀ a ∈ σ, c.wellFormed n a = true) :
    c.wellFormed n (s.subst σ) = true := by
  induction s with
  | param i => exact hσ _ (Ty.subst_param_mem (Nat.lt_of_lt_of_le (of_decide_eq_true h) hlength))
  | named d ts ih =>
    simp only [wellFormed, Bool.and_eq_true, Ty.subst, Ty.substAll_eq_map, List.length_map,
      allWellFormed_eq_all, List.all_eq_true] at h ⊢
    refine ⟨h.1, fun t ht => ?_⟩
    obtain ⟨s, hs, rfl⟩ := List.mem_map.mp ht
    exact ih s hs (h.2 s hs)
  | array rank elem ih => exact ih h
  | pointer elem ih => exact ih h
  | byRef elem ih => exact ih h

/-- **What a type without stand-ins inherits has none.** -/
theorem Inherits.wellFormed (hc : c.WellDeclared) {t a : Ty} (h : c.Inherits t a)
    (ht : c.wellFormed 0 t = true) : c.wellFormed 0 a = true := by
  have hstep : ∀ s b, c.wellFormed 0 s = true → c.HasBase s b ∨ c.Declares s b →
      c.wellFormed 0 b = true := by
    intro s b hs hb
    rcases step_cases hb with ⟨d, ts, s, rfl, hmem, rfl⟩ | ⟨n, elem, rfl, hb | ⟨-, s, hmem, rfl⟩⟩
    · simp only [Catalog.wellFormed, Bool.and_eq_true, decide_eq_true_eq, allWellFormed_eq_all,
        List.all_eq_true] at hs
      exact wellFormed_subst (hc.declared d s hmem) (Nat.le_of_eq hs.1.2.symm) hs.2
    · exact hc.arrayBase b hb
    · have hone : 1 ≤ [elem].length := Nat.le_refl 1
      exact wellFormed_subst (hc.arrayInterfaces s hmem) hone (List.forall_mem_singleton.mpr hs)
  exact h.induction ht (fun s b hs hb => hstep s b hs (.inl hb))
    fun s i hs hi => hstep s i hs (.inr hi)

/-- A type without stand-ins is its own structural form. -/
theorem structuralForm_of_wellFormed {n : Nat} {t : Ty} (h : c.wellFormed n t = true) :
    t.structuralForm = .ok t := by
  cases t with
  | named d ts =>
    simp only [wellFormed, Bool.and_eq_true, Option.isNone_iff_eq_none] at h
    rw [Ty.structuralForm, h.1.1]
  | _ => rfl

/-! ## Putting the arguments in afterwards

Inheriting from an instance is inheriting from the definition and putting the arguments in. In
general this is only true of what is not a bare parameter: there the type that is put in would have
to inherit, and the definition does not know it yet. -/

/-- A type that is no bare parameter stays one. -/
theorem subst_ne_param {s : Ty} (hs : ∀ i, s ≠ .param i) (σ : List Ty) :
    ∀ i, s.subst σ ≠ .param i := by
  intro i h
  cases s with
  | param j => exact hs j rfl
  | _ => cases h

/-- A type that is no bare parameter has its definition whatever is put in for its parameters. -/
theorem head?_subst {s : Ty} (hs : ∀ i, s ≠ .param i) (σ : List Ty) :
    (s.subst σ).head? = s.head? := by
  cases s with
  | param j => exact absurd rfl (hs j)
  | _ => rfl

/-- Filling parameters fills those of the arguments, if the type is not itself a parameter. -/
theorem headArgs_subst {s : Ty} (hs : ∀ i, s ≠ .param i) (σ : List Ty) :
    (s.subst σ).headArgs = s.headArgs.map (Ty.subst σ) := by
  cases s with
  | param j => exact absurd rfl (hs j)
  | named d ts => rw [Ty.subst, Ty.headArgs, Ty.headArgs, Ty.substAll_eq_map]
  | array rank elem =>
    have hrank := Ty.subst_of_isClosed σ _ (proper_rankEncoding (c := .empty) 0 rank).isClosed
    rw [Ty.subst, Ty.headArgs, Ty.headArgs, List.map_cons, hrank]
    rfl
  | pointer elem => rfl
  | byRef elem => rfl

/-- A type over `n` parameters that is no bare parameter: what may be inherited by a definition over
its own parameters. -/
def ProperOpen (c : Catalog) (n : Nat) (t : Ty) : Prop := c.Proper n t ∧ ∀ i, t ≠ .param i

/-- A base that a type has once its parameters are filled it has before. -/
theorem exists_open_base (hc : c.WellDeclared) (hbare : c.NoBareParam) {n : Nat} {t b : Ty}
    {σ : List Ty} (ht : c.ProperOpen n t) (h : c.HasBase (t.subst σ) b) :
    ∃ o, c.HasBase t o ∧ o.subst σ = b ∧ c.ProperOpen n o := by
  obtain ⟨hproper, hne⟩ := ht
  cases t with
  | param i => exact absurd rfl (hne i)
  | named d ts =>
    cases hproper with
    | named hd hlength hts =>
      obtain ⟨s, hs, rfl⟩ := Option.map_eq_some_iff.mp h
      have hmem := c.mem_declared_of_base hs
      have hwell := hc.declared d s hmem
      have hstep : c.HasBase (.named d ts) (s.subst ts) := by
        rw [HasBase, declaredBase?, hs, Option.map_some]
      refine ⟨s.subst ts, hstep, ?_, hc.proper_step (.named hd hlength hts) (.inl hstep),
        subst_ne_param (hbare.declared d s hmem) ts⟩
      rw [Ty.subst_subst (proper_of_wellFormed hwell).paramsBelow (Nat.le_of_eq hlength.symm),
        Ty.substAll_eq_map]
  | array rank elem =>
    -- the base of arrays mentions no parameter
    have hbase := proper_of_wellFormed (hc.arrayBase b h)
    refine ⟨b, h, Ty.subst_of_isClosed σ b hbase.isClosed, hc.proper_step hproper (.inl h), ?_⟩
    rintro i rfl
    cases hbase with
    | param hi => exact absurd hi (Nat.not_lt_zero i)
  | pointer elem => cases h
  | byRef elem => cases h

/-- An interface that a type declares once its parameters are filled it declares before. -/
theorem exists_open_interface (hc : c.WellDeclared) (hbare : c.NoBareParam) {n : Nat} {t a : Ty}
    {σ : List Ty} (ht : c.ProperOpen n t) (h : c.Declares (t.subst σ) a) :
    ∃ o, c.Declares t o ∧ o.subst σ = a ∧ c.ProperOpen n o := by
  obtain ⟨hproper, hne⟩ := ht
  -- The filled type is a name or an array, and since the open one is not a bare parameter it is of
  -- the same shape. Then both declare the same interface, over the open and over the filled
  -- arguments.
  rcases h.cases with ⟨d, us, s, heq, hs, rfl⟩ | ⟨elem', s, heq, hs, rfl⟩
  · cases t with
    | param i => exact absurd rfl (hne i)
    | named e ts =>
      cases hproper with
      | named hd hlength hts =>
        obtain ⟨rfl, rfl⟩ := Ty.named.inj heq
        have hmem := c.mem_declared_of_interface hs
        have hwell := hc.declared e s hmem
        have hstep : c.Declares (.named e ts) (s.subst ts) := List.mem_map_of_mem hs
        refine ⟨s.subst ts, hstep, ?_, hc.proper_step (.named hd hlength hts) (.inr hstep),
          subst_ne_param (hbare.declared e s hmem) ts⟩
        rw [Ty.subst_subst (proper_of_wellFormed hwell).paramsBelow (Nat.le_of_eq hlength.symm),
          Ty.substAll_eq_map]
    | _ => cases heq
  · cases t with
    | param i => exact absurd rfl (hne i)
    | array rank elem =>
      obtain ⟨rfl, rfl⟩ := Ty.array.inj heq
      have hwell := hc.arrayInterfaces s hs
      have hstep : c.Declares (.array 1 elem) (s.subst [elem]) := List.mem_map_of_mem hs
      refine ⟨s.subst [elem], hstep, ?_, hc.proper_step hproper (.inr hstep),
        subst_ne_param (hbare.arrayInterfaces s hs) [elem]⟩
      have hone : 1 ≤ [elem].length := Nat.le_refl 1
      rw [Ty.subst_subst (proper_of_wellFormed hwell).paramsBelow hone]
      rfl
    | _ => cases heq

/-- What holds step by step holds for a way up. -/
theorem exists_open_of_reachable {R : Ty → Ty → Prop} {n : Nat} {σ : List Ty}
    (hstep : ∀ t b, c.ProperOpen n t → R (t.subst σ) b →
      ∃ o, R t o ∧ o.subst σ = b ∧ c.ProperOpen n o)
    {t a : Ty} (ht : c.ProperOpen n t) (h : ReflTransGen R (t.subst σ) a) :
    ∃ o, ReflTransGen R t o ∧ o.subst σ = a ∧ c.ProperOpen n o := by
  induction h with
  | refl => exact ⟨t, .refl, rfl, ht⟩
  | tail _ hab ih =>
    obtain ⟨o, ho, rfl, hopen⟩ := ih
    obtain ⟨o', hoo', rfl, hopen'⟩ := hstep o _ hopen hab
    exact ⟨o', ho.tail hoo', rfl, hopen'⟩

/-- **What a type inherits, its open form inherits** with the parameters still open. -/
theorem exists_open_of_inherits (hc : c.WellDeclared) (hbare : c.NoBareParam) {n : Nat} {t a : Ty}
    {σ : List Ty} (ht : c.ProperOpen n t) (h : c.Inherits (t.subst σ) a) :
    ∃ o, c.Inherits t o ∧ o.subst σ = a ∧ c.ProperOpen n o := by
  obtain ⟨link, hlink, hreach⟩ := h
  obtain ⟨l, hl, rfl, hopen⟩ :=
    exists_open_of_reachable (fun _ _ => exists_open_base hc hbare) ht hlink
  obtain ⟨o, ho, rfl, hopen'⟩ :=
    exists_open_of_reachable (fun _ _ => exists_open_interface hc hbare) hopen hreach
  exact ⟨o, ⟨l, hl, ho⟩, rfl, hopen'⟩

/-! ## Putting the arguments in first

The other direction needs no condition: whatever the definition inherits over its own parameters, an
instance inherits with the arguments put in. -/

/-- What a type has for its base it has with its parameters filled, which are then filled in the
base as well. -/
theorem HasBase.subst (hc : c.WellDeclared) {n : Nat} {t b : Ty} (ht : c.Proper n t)
    (h : c.HasBase t b) (σ : List Ty) : c.HasBase (t.subst σ) (b.subst σ) := by
  rcases h.cases with ⟨d, ts, s, rfl, hs, rfl⟩ | ⟨rank, elem, rfl, hb⟩
  · cases ht with
    | named hd hlength hts =>
      have hmem := c.mem_declared_of_base hs
      have hparams := (proper_of_wellFormed (hc.declared d s hmem)).paramsBelow
      rw [Ty.subst_subst hparams (Nat.le_of_eq hlength.symm), ← Ty.substAll_eq_map, Ty.subst,
        HasBase, declaredBase?, hs, Option.map_some]
  · rw [Ty.subst_of_isClosed σ b (proper_of_wellFormed (hc.arrayBase b hb)).isClosed]
    exact hb

/-- So it is with interfaces. -/
theorem Declares.subst (hc : c.WellDeclared) {n : Nat} {t i : Ty} (ht : c.Proper n t)
    (h : c.Declares t i) (σ : List Ty) : c.Declares (t.subst σ) (i.subst σ) := by
  rcases h.cases with ⟨d, ts, s, rfl, hs, rfl⟩ | ⟨elem, s, rfl, hs, rfl⟩
  · cases ht with
    | named hd hlength hts =>
      have hmem := c.mem_declared_of_interface hs
      have hparams := (proper_of_wellFormed (hc.declared d s hmem)).paramsBelow
      rw [Ty.subst_subst hparams (Nat.le_of_eq hlength.symm), ← Ty.substAll_eq_map, Ty.subst]
      exact List.mem_map_of_mem hs
  · have hparams := (proper_of_wellFormed (hc.arrayInterfaces s hs)).paramsBelow
    have hone : 1 ≤ [elem].length := Nat.le_refl 1
    rw [Ty.subst_subst hparams hone]
    exact List.mem_map_of_mem hs

/-- What holds step by step holds for a way up that stays among proper types. -/
theorem reachable_subst {R : Ty → Ty → Prop} {n : Nat} {σ : List Ty}
    (hproper : ∀ t b, c.Proper n t → R t b → c.Proper n b)
    (hstep : ∀ t b, c.Proper n t → R t b → R (t.subst σ) (b.subst σ)) {t a : Ty}
    (ht : c.Proper n t) (h : ReflTransGen R t a) :
    c.Proper n a ∧ ReflTransGen R (t.subst σ) (a.subst σ) := by
  induction h with
  | refl => exact ⟨ht, .refl⟩
  | tail _ hab ih => exact ⟨hproper _ _ ih.1 hab, ih.2.tail (hstep _ _ ih.1 hab)⟩

/-- **What an open type inherits it inherits with its parameters filled.** -/
theorem Inherits.subst (hc : c.WellDeclared) {n : Nat} {t a : Ty} (ht : c.Proper n t)
    (h : c.Inherits t a) (σ : List Ty) : c.Inherits (t.subst σ) (a.subst σ) := by
  obtain ⟨link, hlink, hreach⟩ := h
  obtain ⟨hproper, hbases⟩ := reachable_subst (fun _ _ ht h => hc.proper_step ht (.inl h))
    (fun _ _ ht h => h.subst hc ht σ) ht hlink
  obtain ⟨-, hinterfaces⟩ := reachable_subst (fun _ _ ht h => hc.proper_step ht (.inr h))
    (fun _ _ ht h => h.subst hc ht σ) hproper hreach
  exact ⟨_, hbases, hinterfaces⟩

/-- A declared type that is no bare parameter is its own structural form, whatever is put in for its
parameters. -/
theorem structuralForm_subst {n : Nat} {s : Ty} (h : c.wellFormed n s = true)
    (hs : ∀ i, s ≠ .param i) (σ : List Ty) : (s.subst σ).structuralForm = .ok (s.subst σ) := by
  cases s with
  | param i => exact absurd rfl (hs i)
  | named d ts =>
    simp only [wellFormed, Bool.and_eq_true, Option.isNone_iff_eq_none] at h
    rw [Ty.subst, Ty.structuralForm, h.1.1]
  | _ => rfl

/-- What a type inherits directly is its own structural form. -/
theorem structuralForm_of_step (hc : c.WellDeclared) (hbare : c.NoBareParam) {t b : Ty}
    (h : c.HasBase t b ∨ c.Declares t b) : b.structuralForm = .ok b := by
  rcases step_cases h with ⟨d, ts, s, -, hs, rfl⟩ | ⟨n, elem, -, hbase | ⟨-, s, hs, rfl⟩⟩
  · exact structuralForm_subst (hc.declared d s hs) (hbare.declared d s hs) ts
  · exact structuralForm_of_wellFormed (hc.arrayBase b hbase)
  · exact structuralForm_subst (hc.arrayInterfaces s hs) (hbare.arrayInterfaces s hs) [elem]

/-- What is inherited is its own structural form, unless it is inherited from a bare parameter. -/
theorem Inherits.structuralForm (hc : c.WellDeclared) (hbare : c.NoBareParam) {t a : Ty}
    (ht : t.structuralForm = .ok t) (h : c.Inherits t a) : a.structuralForm = .ok a :=
  h.induction ht (fun _ _ _ hb => structuralForm_of_step hc hbare (.inl hb))
    fun _ _ _ hi => structuralForm_of_step hc hbare (.inr hi)

/-- Whatever a type inherits other than itself is its own structural form, and there is something
that the type inherits directly. -/
theorem Inherits.eq_or_structuralForm (hc : c.WellDeclared) (hbare : c.NoBareParam) {t a : Ty}
    (h : c.Inherits t a) :
    a = t ∨ (∃ b, c.HasBase t b ∨ c.Declares t b) ∧ a.structuralForm = .ok a := by
  have hstep : ∀ s b, (s = t ∨ (∃ b, c.HasBase t b ∨ c.Declares t b) ∧ s.structuralForm = .ok s) →
      c.HasBase s b ∨ c.Declares s b →
        b = t ∨ (∃ b, c.HasBase t b ∨ c.Declares t b) ∧ b.structuralForm = .ok b := by
    rintro s b (rfl | ⟨hfirst, -⟩) hb
    · exact .inr ⟨⟨b, hb⟩, structuralForm_of_step hc hbare hb⟩
    · exact .inr ⟨hfirst, structuralForm_of_step hc hbare hb⟩
  exact h.induction (.inl rfl) (fun s b hs hb => hstep s b hs (.inl hb))
    fun s i hs hi => hstep s i hs (.inr hi)

/-! ### Open forms

The open form of a type is its definition over its own parameters, or an array of one. It stands for
the whole family of instances, and a search that wants to know what instances have in common looks
at its ancestors. -/

/-- Filling the parameters of an open instance gives the instance. -/
theorem subst_openInstance (d : DefIndex) {ts : List Ty} (h : ts.length = c.arity d) :
    (c.openInstance d).subst ts = .named d ts := by
  rw [openInstance, Ty.subst, Ty.substAll_eq_map, List.map_map, ← h]
  refine congrArg (Ty.named d) (List.ext_getElem (by simp) fun i h₁ h₂ => ?_)
  simp [Ty.subst, h₂]

/-- Open instances are proper, except of the stand-in of arrays. -/
theorem properOpen_openInstance {d : DefIndex} (hd : d ≠ Marker.array.definition) :
    c.ProperOpen (c.arity d) (c.openInstance d) := by
  refine ⟨.named hd (by simp) fun t ht => ?_, nofun⟩
  obtain ⟨i, hi, rfl⟩ := List.mem_map.mp ht
  exact .param (List.mem_range.mp hi)

/-- Pointers inherit from nothing but themselves, and so do by-reference types. -/
theorem Inherits.eq_of_structural {t a : Ty} (h : c.Inherits t a)
    (ht : (∃ elem, t = .pointer elem) ∨ ∃ elem, t = .byRef elem) : a = t := by
  refine h.induction (P := fun s => s = t) rfl ?_ ?_
  · rintro _ b rfl hb
    rcases ht with ⟨elem, rfl⟩ | ⟨elem, rfl⟩ <;> cases hb
  · rintro _ i rfl hi
    rcases ht with ⟨elem, rfl⟩ | ⟨elem, rfl⟩ <;> exact absurd hi List.not_mem_nil

/-- The stand-in of pointers over its own parameter becomes any pointer's nominal form, and so it is
with by-reference types. -/
theorem exists_open_of_single {m : Marker} (harity : m.arity = 1) (hm : m ≠ .array) (elem : Ty) :
    (c.openInstance m.definition).headArgs.map (Ty.subst [elem]) = [elem] ∧
      c.Proper 1 (c.openInstance m.definition) := by
  have hone : c.arity m.definition = 1 := (c.arity_definition m).trans harity
  have hsubst : (c.openInstance m.definition).subst [elem] = .named m.definition [elem] :=
    subst_openInstance m.definition hone.symm
  have hopen := properOpen_openInstance (c := c) (d := m.definition)
    (by revert hm; cases m <;> decide)
  rw [hone] at hopen
  refine ⟨?_, hopen.1⟩
  rw [← headArgs_subst hopen.2, hsubst]
  rfl

/-- Of every ancestor of a type there is an open ancestor of its open form, which becomes the
ancestor when the type's own arguments are put in. -/
theorem exists_openAncestor (hc : c.WellDeclared) (hbare : c.NoBareParam) {t a : Ty}
    (ht : c.Proper 0 t) (h : c.Inherits t a) :
    ∃ o, c.Inherits (c.openForm t) o ∧ o.head? = a.head? ∧
      o.headArgs.map (Ty.subst t.headArgs) = a.headArgs ∧ c.Proper t.headArgs.length o := by
  have hopen : ∀ x, c.ProperOpen t.headArgs.length x → x.subst t.headArgs = t →
      c.openForm t = x → ∃ o, c.Inherits (c.openForm t) o ∧ o.head? = a.head? ∧
        o.headArgs.map (Ty.subst t.headArgs) = a.headArgs ∧ c.Proper t.headArgs.length o := by
    intro x hx hsubst hform
    rw [← hsubst] at h
    obtain ⟨o, ho, rfl, hproper, hne⟩ := exists_open_of_inherits hc hbare hx h
    exact ⟨o, hform ▸ ho, (head?_subst hne _).symm, (headArgs_subst hne _).symm, hproper⟩
  -- It is enough to know an open type from which the given one comes by filling parameters, and
  -- which is its open form. For names that is the open instance. For arrays it is the array of one
  -- parameter.
  cases ht with
  | param hi => exact absurd hi (Nat.not_lt_zero _)
  | @named d ts hd hlength hts =>
    refine hopen (c.openInstance d) ?_ (subst_openInstance d hlength) rfl
    rw [Ty.headArgs, hlength]
    exact properOpen_openInstance hd
  | @array rank elem helem =>
    have htwo : 1 < (Ty.array rank elem).headArgs.length := Nat.lt_succ_self 1
    have hproper : c.ProperOpen (Ty.array rank elem).headArgs.length (.array rank (.param 1)) :=
      ⟨.array (.param htwo), fun i heq => by cases heq⟩
    exact hopen _ hproper rfl rfl
  | @pointer elem helem =>
    obtain rfl := h.eq_of_structural (.inl ⟨elem, rfl⟩)
    obtain ⟨hargs, hproper⟩ := exists_open_of_single (c := c) (m := .pointer) rfl (by decide) elem
    exact ⟨_, .refl c _, rfl, hargs, hproper⟩
  | @byRef elem helem =>
    obtain rfl := h.eq_of_structural (.inr ⟨elem, rfl⟩)
    obtain ⟨hargs, hproper⟩ := exists_open_of_single (c := c) (m := .byRef) rfl (by decide) elem
    exact ⟨_, .refl c _, rfl, hargs, hproper⟩

end Catalog

end TypeResolution

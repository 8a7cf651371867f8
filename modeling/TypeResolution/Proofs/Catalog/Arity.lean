import TypeResolution.Proofs.Catalog.Declarations

/-!
# Types that apply definitions at their arity

A type can be written down with any number of arguments, and so can a declaration. This module is
about types that do not get a number wrong (`AtArity`). In contrast to proper types
(`TypeResolution.Proofs.Catalog.Declarations`) they may name any stand-in, that of arrays included,
so they need not have a structural form. But there is only one thing that can be wrong with them:
an array stand-in whose first argument encodes no rank (`AtArity.structuralForm_error`).

If declarations keep to the arity and to the parameters they have (`DeclaredAtArity`), then closed
types at their arity are never left: not by reading, not by inheriting, not by building instances.

The notion is weaker than properness on purpose. Candidates of a resolution and types that
directives build are at their arity, but they need not have a structural form, and a resolver meets
both. What a resolver does with them either gives types at their arity again or ends with one of two
errors: a malformed rank, or a bound that is not met (`instantiate_error`).
-/

namespace TypeResolution.Catalog

variable (c : Catalog)

/-- A type over `n` parameters that applies every definition to as many arguments as it takes. -/
inductive AtArity (n : Nat) : Ty → Prop
  /-- one of the parameters -/
  | param {i : Nat} (hi : i < n) : AtArity n (.param i)
  /-- a definition at its arity -/
  | named {d : DefIndex} {ts : List Ty} (hlength : ts.length = c.arity d)
      (hts : ∀ t ∈ ts, AtArity n t) : AtArity n (.named d ts)
  /-- an array -/
  | array {rank : Nat} {elem : Ty} (helem : AtArity n elem) : AtArity n (.array rank elem)
  /-- a pointer -/
  | pointer {elem : Ty} (helem : AtArity n elem) : AtArity n (.pointer elem)
  /-- a by-reference type -/
  | byRef {elem : Ty} (helem : AtArity n elem) : AtArity n (.byRef elem)

/-- Everything that is declared to be inherited applies definitions at their arity and mentions only
the parameters that there are: an array interface the element, the array base none. -/
structure DeclaredAtArity : Prop where
  /-- the bases and interfaces of definitions -/
  declared : ∀ d, ∀ s ∈ c.declared d, c.AtArity (c.arity d) s
  /-- the base of arrays -/
  arrayBase : ∀ s ∈ c.arrayBase, c.AtArity 0 s
  /-- the interfaces of arrays -/
  arrayInterfaces : ∀ s ∈ c.arrayInterfaces, c.AtArity 1 s

variable {c} {n : Nat} {t : Ty}

/-- Proper types are at their arity. -/
theorem Proper.atArity (h : c.Proper n t) : c.AtArity n t := by
  induction h with
  | param hi => exact .param hi
  | named _ hlength _ ih => exact .named hlength ih
  | array _ ih => exact .array ih
  | pointer _ ih => exact .pointer ih
  | byRef _ ih => exact .byRef ih

/-- Canonical types are, too. -/
theorem Canonical.atArity (h : c.Canonical t) : c.AtArity 0 t := h.proper.atArity

/-- What is declared well is declared at arity. -/
theorem WellDeclared.atArity (hc : c.WellDeclared) : c.DeclaredAtArity where
  declared d s hs := (proper_of_wellFormed (hc.declared d s hs)).atArity
  arrayBase s hs := (proper_of_wellFormed (hc.arrayBase s hs)).atArity
  arrayInterfaces s hs := (proper_of_wellFormed (hc.arrayInterfaces s hs)).atArity

namespace AtArity

/-- Parameters stand below the number that there are. -/
theorem paramsBelow (h : c.AtArity n t) : t.paramsBelow n = true := by
  induction h with
  | param hi => exact decide_eq_true hi
  | named _ _ ih =>
    rw [Ty.paramsBelow, Ty.allParamsBelow_eq_all, List.all_eq_true]
    exact ih
  | array _ ih => exact ih
  | pointer _ ih => exact ih
  | byRef _ ih => exact ih

/-- Without parameters a type at its arity is closed. -/
theorem isClosed (h : c.AtArity 0 t) : t.isClosed = true :=
  t.isClosed_eq_paramsBelow_zero.trans h.paramsBelow

/-- Filling parameters with types at their arity gives one. -/
theorem subst {m : Nat} (h : c.AtArity m t) {σ : List Ty} (hlength : m ≤ σ.length)
    (hσ : ∀ a ∈ σ, c.AtArity n a) : c.AtArity n (t.subst σ) := by
  induction h with
  | param hi => exact hσ _ (Ty.subst_param_mem (Nat.lt_of_lt_of_le hi hlength))
  | named harity _ ih =>
    rw [Ty.subst, Ty.substAll_eq_map]
    refine .named (by rw [List.length_map]; exact harity) fun t ht => ?_
    obtain ⟨s, hs, rfl⟩ := List.mem_map.mp ht
    exact ih s hs
  | array _ ih => exact .array ih
  | pointer _ ih => exact .pointer ih
  | byRef _ ih => exact .byRef ih

/-- A type is an instance over as many arguments as its definition takes. -/
theorem length_headArgs (h : c.AtArity n t) {d : DefIndex} (hd : t.head? = some d) :
    t.headArgs.length = c.arity d := by
  cases h with
  | param hi => cases hd
  | named hlength _ => exact Option.some.inj hd ▸ hlength
  | array _ => exact Option.some.inj hd ▸ (c.arity_definition .array).symm
  | pointer _ => exact Option.some.inj hd ▸ (c.arity_definition .pointer).symm
  | byRef _ => exact Option.some.inj hd ▸ (c.arity_definition .byRef).symm

/-- The arguments of the definition that a type is an instance of are at their arity, also those
that encode the rank of an array. -/
theorem headArgs (h : c.AtArity n t) : ∀ s ∈ t.headArgs, c.AtArity n s := by
  cases h with
  | param hi => exact fun s hs => absurd hs List.not_mem_nil
  | named _ hts => exact hts
  | array helem =>
    exact List.forall_mem_cons.mpr
      ⟨(proper_rankEncoding n _).atArity, List.forall_mem_singleton.mpr helem⟩
  | pointer helem => exact List.forall_mem_singleton.mpr helem
  | byRef helem => exact List.forall_mem_singleton.mpr helem

/-- What a stand-in over types at their arity denotes is at its arity. -/
theorem of_structural? {d : DefIndex} {args : List Ty} (hs : Ty.structural? d args = some (.ok t))
    (hargs : ∀ a ∈ args, c.AtArity n a) : c.AtArity n t := by
  rcases Ty.structural?_ok hs with ⟨-, rank, elem, rfl, rfl⟩ | ⟨-, elem, rfl, rfl⟩ |
    ⟨-, elem, rfl, rfl⟩
  · exact .array (hargs elem (by simp))
  · exact .pointer (hargs elem (by simp))
  · exact .byRef (hargs elem (by simp))

/-- Reading keeps a type at its arity. -/
theorem of_structuralForm (h : c.AtArity n t) {u : Ty} (hu : t.structuralForm = .ok u) :
    c.AtArity n u := by
  rcases Ty.structuralForm_ok hu with rfl | ⟨d, args, rfl, hs⟩
  · exact h
  · cases h with
    | named _ hts => exact of_structural? hs hts

/-- **Only an array stand-in without a rank cannot be read.** -/
theorem structuralForm_error (h : c.AtArity 0 t) {e : ArgumentError}
    (he : t.structuralForm = .error e) : ∃ rank, e = .malformedRank rank := by
  -- A parameter has no place in a closed type. Of the others only the stand-in of arrays looks at
  -- what its arguments are, and refuses a first one that encodes no rank.
  cases h with
  | param hi => exact absurd hi (Nat.not_lt_zero _)
  | @named d ts hlength hts =>
    rw [Ty.structuralForm] at he
    split at he
    · next m hm =>
      obtain rfl := Marker.eq_definition hm
      have hcheck : checkArgs m.definition m.arity ts = .ok () :=
        checkArgs_eq_ok (hlength.trans (c.arity_definition m)) fun t ht => (hts t ht).isClosed
      split at he
      · cases he
      · rw [hcheck] at he
        cases hs : Ty.structural? m.definition ts with
        | none =>
          rw [hs] at he
          cases he
        | some result =>
          rw [hs] at he
          exact Ty.structural?_error (hs.trans (congrArg some he))
    · cases he
  | array _ => cases he
  | pointer _ => cases he
  | byRef _ => cases he

/-- A type is stored at its arity: encoding it applies stand-ins to as many types as they take. -/
theorem storedArg (h : c.AtArity n t) : c.AtArity n (storedArg t) := by
  cases h with
  | pointer helem =>
    exact .named (c.arity_definition .pointer).symm (List.forall_mem_singleton.mpr helem)
  | byRef helem =>
    exact .named (c.arity_definition .byRef).symm (List.forall_mem_singleton.mpr helem)
  | param hi => exact .param hi
  | named hlength hts => exact .named hlength hts
  | array helem => exact .array helem

/-- An instance over types at their arity is at its arity. -/
theorem of_instance {d : DefIndex} {args : List Ty} (hargs : ∀ a ∈ args, c.AtArity n a)
    (h : c.HasInstance d args t) : c.AtArity n t := by
  obtain ⟨fuel, h⟩ := h
  rcases (c.instantiate_ok h).2 with hs | ⟨-, rfl, -⟩
  · exact of_structural? hs hargs
  · refine .named (by rw [List.length_map, c.length_of_instantiate h]) fun s hs => ?_
    obtain ⟨a, ha, rfl⟩ := List.mem_map.mp hs
    exact (hargs a ha).storedArg

/-- What a type at its arity has for its base or declares for an interface is at its arity. -/
theorem step (hc : c.DeclaredAtArity) (h : c.AtArity n t) {b : Ty}
    (hb : c.HasBase t b ∨ c.Declares t b) : c.AtArity n b := by
  rcases step_cases hb with ⟨d, ts, s, rfl, hmem, rfl⟩ | ⟨rank, elem, rfl, hb | ⟨-, s, hmem, rfl⟩⟩
  · cases h with
    | named hlength hts => exact (hc.declared d s hmem).subst (Nat.le_of_eq hlength.symm) hts
  · have hbase := hc.arrayBase b hb
    have hsubst := hbase.subst (σ := []) (n := n) (Nat.le_refl 0) (by simp)
    rwa [Ty.subst_of_isClosed [] b hbase.isClosed] at hsubst
  · cases h with
    | array helem =>
      have hone : 1 ≤ [elem].length := Nat.le_refl 1
      exact (hc.arrayInterfaces s hmem).subst hone (List.forall_mem_singleton.mpr helem)

/-- **What a type at its arity inherits is at its arity.** -/
theorem of_inherits (hc : c.DeclaredAtArity) (h : c.AtArity n t) {a : Ty} (ha : c.Inherits t a) :
    c.AtArity n a :=
  ha.induction h (fun _ _ hs hb => hs.step hc (.inl hb)) fun _ _ hs hi => hs.step hc (.inr hi)

/-- What a type has for its base or declares for an interface mentions only what the type mentions.
-/
theorem mentions_of_step (hc : c.DeclaredAtArity) (h : c.AtArity n t) {i : Nat}
    (ht : t.mentions i = false) {b : Ty} (hb : c.HasBase t b ∨ c.Declares t b) :
    b.mentions i = false := by
  rcases step_cases hb with ⟨d, ts, s, rfl, hmem, rfl⟩ | ⟨rank, elem, rfl, hb | ⟨-, s, hmem, rfl⟩⟩
  · cases h with
    | named hlength _ =>
      rw [Ty.mentions, Ty.anyMentions_eq_any, List.any_eq_false] at ht
      have hts : ∀ t ∈ ts, t.mentions i = false := by simpa using ht
      exact Ty.mentions_subst (hc.declared d s hmem).paramsBelow (Nat.le_of_eq hlength.symm) hts
  · exact Ty.mentions_of_isClosed i (hc.arrayBase b hb).isClosed
  · have hone : 1 ≤ [elem].length := Nat.le_refl 1
    exact Ty.mentions_subst (hc.arrayInterfaces s hmem).paramsBelow hone
      (List.forall_mem_singleton.mpr ht)

/-- **A type inherits nothing that mentions a parameter which it does not mention itself.** -/
theorem mentions_of_inherits (hc : c.DeclaredAtArity) (h : c.AtArity n t) {i : Nat}
    (ht : t.mentions i = false) {a : Ty} (ha : c.Inherits t a) : a.mentions i = false := by
  have hboth := ha.induction (P := fun s => c.AtArity n s ∧ s.mentions i = false) ⟨h, ht⟩
    (fun _ _ hs hb => ⟨hs.1.step hc (.inl hb), hs.1.mentions_of_step hc hs.2 (.inl hb)⟩)
    fun _ _ hs hi => ⟨hs.1.step hc (.inr hi), hs.1.mentions_of_step hc hs.2 (.inr hi)⟩
  exact hboth.2

end AtArity

/-- A definition that is applied to as many closed types as it takes misses a bound or is given a
malformed rank, if it has no instance. -/
theorem instantiate_error {fuel : Nat} {d : DefIndex} {args : List Ty}
    (hlength : args.length = c.arity d) (hargs : ∀ a ∈ args, a.isClosed = true) {e : ArgumentError}
    (h : c.instantiate fuel d args = some (.error e)) :
    (∃ param arg, e = .bound d param arg) ∨ ∃ rank, e = .malformedRank rank := by
  rw [instantiate, checkArgs_eq_ok hlength hargs] at h
  dsimp only at h
  split at h
  · next hs => exact .inr (Ty.structural?_error (hs.trans h))
  · split at h
    · cases h
    · exact .inl ⟨_, _, (Except.error.inj (Option.some.inj h)).symm⟩
    · cases h

end TypeResolution.Catalog

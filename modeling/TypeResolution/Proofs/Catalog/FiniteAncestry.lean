import Mathlib.Data.Set.Finite.List
import TypeResolution.Proofs.Catalog.Acyclicity
import TypeResolution.Proofs.Catalog.Assignability

/-!
# When the walks over the hierarchy end

The walk up the bases stops at the first type that it has seen before, and the walk over the
interfaces visits no type twice. A circle of finitely many types is therefore walked once. What the
lists of seen types cannot stop is a declaration that puts its own parameter into a larger type:
`G<T> : G<G<T>>` leads from every type to a new one.

So the walks end exactly if there is only finitely much to find: finitely many bases
(`bases_end_iff`), and finitely many inherited types (`ancestorsEnd_iff`). Catalogs whose declared
types are flat have nothing that grows, and their walks end however they are tangled
(`Flat.hierarchyEnds`).

Finiteness enters in both directions by counting. A walk that ends has listed everything there is to
find, in a list. Conversely each visit lists one more of finitely many types, and there is only so
much fuel that this can take.
-/

namespace TypeResolution.Catalog

open Relation

variable {c : Catalog}

/-! ## Finitely many types to find

The two walks are treated apart, since the one over the interfaces starts from all bases at once and
does not begin before the base chain has ended. -/

/-- The walk up the bases of a type ends exactly if they are finitely many. -/
theorem bases_end_iff (t : Ty) :
    (∃ fuel bases, c.bases fuel t = some bases) ↔ {b | ReflTransGen c.HasBase t b}.Finite := by
  constructor
  · rintro ⟨fuel, bases, hbases⟩
    refine (List.finite_toSet (t :: bases)).subset fun b hb => ?_
    exact (c.mem_bases_iff hbases).mpr hb
  · intro hfinite
    have hmem : ∀ b, b ∈ hfinite.toFinset.toList ↔ ReflTransGen c.HasBase t b := by simp
    have hclosed : ∀ s ∈ hfinite.toFinset.toList, ∀ b, c.HasBase s b →
        b ∈ hfinite.toFinset.toList := fun s hs b hb => (hmem b).mpr (((hmem s).mp hs).tail hb)
    exact exists_basesFrom_of_closed hclosed ((hmem t).mpr .refl) [t]

/-- **The walk over the ancestors of a type ends exactly if it inherits finitely many types.** -/
theorem ancestorsEnd_iff (t : Ty) : c.AncestorsEnd t ↔ {a | c.Inherits t a}.Finite := by
  constructor
  · rintro ⟨fuel, above, habove⟩
    refine (List.finite_toSet above).subset fun a ha => ?_
    exact (mem_ancestors_iff habove).mpr ha
  · intro hfinite
    -- the bases are among what is inherited
    have hbases : {b | ReflTransGen c.HasBase t b}.Finite :=
      hfinite.subset fun b hb => ⟨b, hb, .refl⟩
    have hchain : ∀ b, b ∈ hbases.toFinset.toList ↔ ReflTransGen c.HasBase t b := by simp
    have hmem : ∀ a, a ∈ hfinite.toFinset.toList ↔ c.Inherits t a := by simp
    have hclosed : ∀ s ∈ hbases.toFinset.toList, ∀ b, c.HasBase s b →
        b ∈ hbases.toFinset.toList := fun s hs b hb => (hchain b).mpr (((hchain s).mp hs).tail hb)
    have hclosed' : ∀ s ∈ hfinite.toFinset.toList, ∀ i, c.Declares s i →
        i ∈ hfinite.toFinset.toList := by
      intro s hs i hi
      obtain ⟨link, hlink, hreach⟩ := (hmem s).mp hs
      exact (hmem i).mpr ⟨link, hlink, hreach.tail hi⟩
    have hsub : ∀ b ∈ hbases.toFinset.toList, b ∈ hfinite.toFinset.toList := fun b hb =>
      (hmem b).mpr ⟨b, (hchain b).mp hb, .refl⟩
    exact ancestorsEnd_of_closed hclosed hclosed' hsub ((hchain t).mpr .refl)

/-- **The walks over the hierarchy end exactly where there is only finitely much to find**, in every
catalog and for every type: the one up the bases if the type has finitely many bases, and the one
over all ancestors if it inherits finitely many types. -/
theorem hierarchyWalks_end_iff (c : Catalog) (t : Ty) :
    ((∃ fuel bases, c.bases fuel t = some bases) ↔ {b | ReflTransGen c.HasBase t b}.Finite) ∧
      (c.AncestorsEnd t ↔ {a | c.Inherits t a}.Finite) :=
  ⟨bases_end_iff t, ancestorsEnd_iff t⟩

/-! ## Flat declarations

A flat declaration hands on the arguments that it is given. Whatever is inherited is then one of the
declared definitions over the type's own arguments, of which there are finitely many lists. -/

/-- There are finitely many lists of a length over finitely many elements. -/
theorem finite_lists_over {α : Type} (pool : List α) (n : Nat) :
    {as : List α | as.length = n ∧ ∀ a ∈ as, a ∈ pool}.Finite := by
  have hpool : Finite {a // a ∈ pool} := (List.finite_toSet pool).to_subtype
  refine ((List.finite_length_eq {a // a ∈ pool} n).image (List.map Subtype.val)).subset ?_
  rintro as ⟨hlength, hmem⟩
  refine ⟨as.attachWith (· ∈ pool) hmem, ?_, List.attachWith_map_subtype_val hmem⟩
  exact List.length_attachWith.trans hlength

/-- Everything that is declared to be inherited, by definitions or by arrays. -/
def allDeclared (c : Catalog) : List Ty :=
  (List.range c.defs.length).flatMap c.declared ++ (c.arrayBase.toList ++ c.arrayInterfaces)

/-- What one of the definitions declares is declared in the catalog. -/
theorem mem_allDeclared {d : DefIndex} {s : Ty} (hs : s ∈ c.declared d) : s ∈ c.allDeclared := by
  have hmem : ∀ d, ∀ s ∈ c.declared d, s ∈ c.allDeclared := by
    refine c.forall_declared fun d hd s hs => List.mem_append_left _ ?_
    exact List.mem_flatMap.mpr ⟨d, List.mem_range.mpr hd, hs⟩
  exact hmem d s hs

/-- What a type hands on if all declarations are flat: its arguments or its element, and the
parameters that no argument is given for. -/
def handedOn (c : Catalog) (t : Ty) : List Ty := t.headArgs ++ c.allDeclared.flatMap Ty.args

/-- The type itself, or a declared definition over what the type hands on. -/
def OverHandedOn (c : Catalog) (t a : Ty) : Prop :=
  a = t ∨ ∃ d us ts, Ty.named d us ∈ c.allDeclared ∧ a = .named d ts ∧
    ts.length = us.length ∧ ∀ x ∈ ts, x ∈ c.handedOn t

/-- The arguments of what is built over handed-on types are handed on. -/
theorem OverHandedOn.headArgs {t a : Ty} (h : c.OverHandedOn t a) :
    ∀ x ∈ a.headArgs, x ∈ c.handedOn t := by
  rcases h with rfl | ⟨d, us, ts, -, rfl, -, hts⟩
  · exact fun x hx => List.mem_append_left _ hx
  · exact hts

/-- There are finitely many types of this kind: finitely many definitions, each with finitely many
lists of arguments. -/
theorem finite_overHandedOn (c : Catalog) (t : Ty) : {a | c.OverHandedOn t a}.Finite := by
  have hinstances := (List.finite_toSet c.allDeclared).biUnion fun s _ =>
    (finite_lists_over (c.handedOn t) s.args.length).image (Ty.named (s.definition?.getD 0))
  refine ((Set.finite_singleton t).union hinstances).subset ?_
  rintro a (rfl | ⟨d, us, ts, hdeclared, rfl, hlength, hts⟩)
  · exact .inl rfl
  · exact .inr (Set.mem_biUnion hdeclared ⟨ts, ⟨hlength, hts⟩, rfl⟩)

/-- A flat declaration over types that are handed on hands these on. -/
theorem overHandedOn_subst {s t : Ty} (hflat : s.isFlat = true) (hs : s ∈ c.allDeclared)
    {σ : List Ty} (hσ : ∀ x ∈ σ, x ∈ c.handedOn t) : c.OverHandedOn t (s.subst σ) := by
  obtain ⟨d, us, rfl, hus⟩ := Ty.exists_of_isFlat hflat
  refine .inr ⟨d, us, us.map (Ty.subst σ), hs, by rw [Ty.subst, Ty.substAll_eq_map],
    List.length_map _, fun x hx => ?_⟩
  obtain ⟨u, hu, rfl⟩ := List.mem_map.mp hx
  obtain ⟨i, rfl⟩ := hus u hu
  rw [Ty.subst, List.getD_eq_getElem?_getD]
  rcases hi : σ[i]? with _ | x
  · exact List.mem_append_right _ (List.mem_flatMap.mpr ⟨.named d us, hs, hu⟩)
  · exact hσ x (List.mem_of_getElem? hi)

/-- A flat step stays among the types that are built over what the first one handed on. -/
theorem Flat.overHandedOn_step (hc : c.Flat) {t s b : Ty} (hs : c.OverHandedOn t s)
    (hb : c.HasBase s b ∨ c.Declares s b) : c.OverHandedOn t b := by
  rcases step_cases hb with ⟨d, ts, r, rfl, hr, rfl⟩ | ⟨n, elem, rfl, hbase | ⟨-, r, hr, rfl⟩⟩
  · exact overHandedOn_subst (hc.declared d r hr) (mem_allDeclared hr) hs.headArgs
  · -- the base of arrays is taken as it is declared
    have hmem : b ∈ c.allDeclared :=
      List.mem_append_right _ (List.mem_append_left _ (Option.mem_toList.mpr hbase))
    obtain ⟨d, us, rfl, -⟩ := Ty.exists_of_isFlat (hc.arrayBase b hbase)
    refine .inr ⟨d, us, us, hmem, rfl, rfl, fun x hx => List.mem_append_right _ ?_⟩
    exact List.mem_flatMap.mpr ⟨.named d us, hmem, hx⟩
  · have hmem : r ∈ c.allDeclared := List.mem_append_right _ (List.mem_append_right _ hr)
    refine overHandedOn_subst (hc.arrayInterfaces r hr) hmem fun x hx => hs.headArgs x ?_
    exact List.mem_cons_of_mem _ hx

/-- **In a hierarchy of flat declarations every walk ends**, also if definitions inherit from
themselves. -/
theorem Flat.hierarchyEnds (hc : c.Flat) : c.HierarchyEnds := by
  intro t
  rw [ancestorsEnd_iff]
  refine (finite_overHandedOn c t).subset ?_
  intro a ha
  refine Inherits.induction ha (.inl rfl) ?_ ?_
  · intro s b hs hb
    exact hc.overHandedOn_step hs (.inl hb)
  · intro s i hs hi
    exact hc.overHandedOn_step hs (.inr hi)

/-! ## Types that grow

Nesting a definition in itself gives a new type at every step, since each is deeper than the one
before. So a type that inherits all of them inherits from infinitely many. -/

/-- A definition applied to itself again and again, around a type. -/
def nesting (d : DefIndex) (t : Ty) : Nat → Ty
  | 0 => t
  | n + 1 => .named d [nesting d t n]

/-- Each step of nesting adds one level. -/
theorem depth_nesting (d : DefIndex) (t : Ty) (n : Nat) : (nesting d t n).depth = t.depth + n := by
  induction n with
  | zero => rfl
  | succ n ih =>
    rw [nesting, Ty.depth, Ty.argsDepth, Ty.argsDepth, ih]
    omega

/-- If every instance of a definition leads to the instance around it, then there is no end. -/
theorem infinite_of_nesting {R : Ty → Ty → Prop} {d : DefIndex}
    (hstep : ∀ t, R (.named d [t]) (.named d [.named d [t]])) (t : Ty) :
    {b | ReflTransGen R (.named d [t]) b}.Infinite := by
  have hreach : ∀ n, ReflTransGen R (.named d [t]) (nesting d t (n + 1)) := by
    intro n
    induction n with
    | zero => exact .refl
    | succ n ih => exact ih.tail (hstep (nesting d t n))
  refine Set.infinite_of_injective_forall_mem (f := fun n => nesting d t (n + 1)) ?_ hreach
  intro m n hmn
  have hdepth := congrArg Ty.depth hmn
  simp only [depth_nesting] at hdepth
  omega

/-- Two definitions that each inherit from themselves around themselves, the class `G<T>` with the
base `G<G<T>>` and the interface `I<T>` that extends `I<I<T>>`, and a struct. -/
def growingCatalog : Catalog :=
  ofDefs
    [ { name := "G`1", params := [{ name := "T" }], base := some (.named 8 [.named 8 [.param 0]]) },
      { name := "I`1", kind := .interfaceType, params := [{ name := "T" }],
        interfaces := [.named 9 [.named 9 [.param 0]]] },
      { name := "int", kind := .structType } ]

/-- **A repeated type is not the only way to go on forever**: neither the bases nor the ancestors of
`G<int>` come to an end, and neither do the ancestors of `I<int>`. -/
theorem growingCatalog_never_ends :
    ¬ (∃ fuel bases, growingCatalog.bases fuel (.named 8 [.nominal 10]) = some bases) ∧
      ¬ growingCatalog.AncestorsEnd (.named 8 [.nominal 10]) ∧
      ¬ growingCatalog.AncestorsEnd (.named 9 [.nominal 10]) := by
  have hbase : ∀ t, growingCatalog.HasBase (.named 8 [t]) (.named 8 [.named 8 [t]]) :=
    fun t => rfl
  have hinterface : ∀ t, growingCatalog.Declares (.named 9 [t]) (.named 9 [.named 9 [t]]) :=
    fun t => List.mem_singleton.mpr rfl
  have hbases := infinite_of_nesting hbase (.nominal 10)
  have hinterfaces := infinite_of_nesting hinterface (.nominal 10)
  refine ⟨?_, ?_, ?_⟩
  · intro h
    exact hbases ((bases_end_iff _).mp h)
  · intro h
    exact hbases (((ancestorsEnd_iff _).mp h).subset fun b hb => ⟨b, hb, .refl⟩)
  · intro h
    exact hinterfaces (((ancestorsEnd_iff _).mp h).subset fun i hi => ⟨_, .refl, hi⟩)

end TypeResolution.Catalog

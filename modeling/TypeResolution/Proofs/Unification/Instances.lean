import TypeResolution.Proofs.Unification.Readings

/-!
# The instances that a pattern finds

A covariant constraint on a generic definition, with a name for each of its parameters, asks for the
instances of the definition that the candidate inherits. The arguments of each instance are read,
bound to the names, and put into the definition again, and what comes out is compared with the
candidate once more. An instance passes if the definition takes the arguments and the candidate is
assignable to the outcome (`covariantPattern_finds`).

The outcome need not be the instance that it started from. An instance is what a declared type
becomes when arguments are put in, and a pointer that is put in stays as it is, while the definition
applied to the pointer stores it in nominal form. These are different types, and there is no
conversion between them, so such an instance is lost (`pointerArrays_lost`). Instances that come out
as they went in are all found.

The rule is exact: an instance is found exactly if it passes, and each one once, in the order of the
ancestors. So it also says what a pattern misses, without a case for each way of missing something.
-/

namespace TypeResolution

open Filter

/-! ## Readings

Where a type can be read, its reading is a function, and the reading of a proper type is always
there. -/

/-- What an argument stands for, if it stands for something. -/
def Ty.reading (t : Ty) : Ty := t.structuralForm.toOption.getD t

/-- What a type is read as is its reading. -/
theorem Ty.reading_eq {t u : Ty} (h : t.structuralForm = .ok u) : t.reading = u := by
  rw [reading, h]
  rfl

variable {ν : Type} {c : Catalog}

/-- A proper type can be read. -/
theorem Catalog.Proper.structuralForm_reading {t : Ty} (h : c.Proper 0 t) :
    t.structuralForm = .ok t.reading := by
  obtain ⟨u, hu, -⟩ := h.exists_structuralForm
  rw [hu, Ty.reading_eq hu]

/-! ## Names for arguments

A row of free names matches any row of arguments, by binding them. So each site has one solution. -/

/-- Names that are free take the arguments of a site one by one. -/
theorem siteSolutions_params {fuel : Nat} {v : Variance} {names : List String} {b : Bindings}
    (hnodup : names.Nodup) (hfree : ∀ name ∈ names, b.get? name = none) {site : Site}
    (hlength : site.length = names.length)
    (hsite : ∀ s ∈ site, s.structuralForm = .ok s.reading) :
    siteSolutions c fuel v site b (names.map fun name => .param name .invariant) =
      .one (b.bindAll names (site.map Ty.reading), site.map Ty.reading) := by
  induction names generalizing site b with
  | nil =>
    obtain rfl := List.length_eq_zero_iff.mp hlength
    rw [List.map_nil, siteSolutions]
    rfl
  | cons name names ih =>
    -- The first name is bound to the first argument. It is different from the names that follow, so
    -- these are still free.
    cases site with
    | nil => cases hlength
    | cons s site =>
      obtain ⟨hs, hsite⟩ := List.forall_mem_cons.mp hsite
      obtain ⟨hname, hfree⟩ := List.forall_mem_cons.mp hfree
      obtain ⟨hnew, hnodup⟩ := List.nodup_cons.mp hnodup
      have hfree' : ∀ other ∈ names, (b.bind name s.reading).get? other = none :=
        fun other hother => (b.get?_bind_of_notMem _ hnew hother).trans (hfree other hother)
      rw [List.map_cons, siteSolutions, structuralSolutions, hs]
      dsimp only
      rw [argSolutions, hname]
      dsimp only
      rw [Listing.each_one, ih hnodup hfree' (Nat.succ.inj hlength) hsite]
      rfl

/-! ## What passes

The test has two stages, to instantiate and to compare, and either may need fuel. With enough for
both there is an answer. -/

/-- Whether a definition takes the arguments of a site and the candidate is assignable to the
outcome. -/
def passes (c : Catalog) (fuel : Nat) (d : DefIndex) (u : Ty) (site : Site) : Bool :=
  match c.instantiate fuel d (site.map Ty.reading) with
  | some (.ok r) => c.isAssignable fuel r u == some true
  | _ => false

/-- A site passes if its reading makes an instance to which the candidate is assignable. -/
theorem passes_iff {fuel : Nat} {d : DefIndex} {u : Ty} {site : Site} :
    passes c fuel d u site = true ↔
      ∃ r, c.instantiate fuel d (site.map Ty.reading) = some (.ok r) ∧
        c.isAssignable fuel r u = some true := by
  rw [passes]
  rcases c.instantiate fuel d (site.map Ty.reading) with _ | _ | r
  · simp
  · simp
  · simp

/-- There is fuel enough to tell whether a site passes. -/
structure Told (c : Catalog) (fuel : Nat) (d : DefIndex) (u : Ty) (site : Site) : Prop where
  /-- whether the definition takes the arguments -/
  instantiate : c.instantiate fuel d (site.map Ty.reading) ≠ none
  /-- whether the candidate is assignable to the outcome -/
  isAssignable : ∀ r, c.instantiate fuel d (site.map Ty.reading) = some (.ok r) →
    c.isAssignable fuel r u ≠ none

/-- If all questions end, then there is enough fuel to tell. -/
theorem eventually_told (hassign : c.AssignabilityEnds) (d : DefIndex) (u : Ty) (site : Site) :
    ∀ᶠ fuel in atTop, Told c fuel d u site := by
  obtain ⟨outcome, houtcome⟩ := hassign.settled_instantiate d (site.map Ty.reading)
  cases outcome with
  | error e =>
    filter_upwards [houtcome] with fuel houtcome
    refine ⟨houtcome ▸ Option.some_ne_none _, fun r hr => ?_⟩
    cases houtcome.symm.trans hr
  | ok r =>
    obtain ⟨answer, hanswer⟩ := hassign.settled r u
    filter_upwards [houtcome, hanswer] with fuel houtcome hanswer
    refine ⟨houtcome ▸ Option.some_ne_none _, fun r' hr => ?_⟩
    obtain rfl : r = r' := by simpa using houtcome.symm.trans hr
    exact hanswer ▸ Option.some_ne_none _

/-- At a site of proper types there is one instance to be found, if the site passes. -/
theorem siteInstances_params {fuel : Nat} {d : DefIndex} {u : Ty} {names : List String}
    {b : Bindings}
    (hnodup : names.Nodup) (hfree : ∀ name ∈ names, b.get? name = none) {site : Site}
    (hlength : site.length = names.length) (hsite : ∀ s ∈ site, c.Proper 0 s)
    (htold : Told c fuel d u site) :
    (siteInstances c fuel .covariant u d (names.map fun name => .param name .invariant) b site).map
        Prod.fst =
      if passes c fuel d u site then .one (b.bindAll names (site.map Ty.reading))
      else .nothing := by
  rw [siteInstances, siteSolutions_params hnodup hfree hlength fun s hs =>
    (hsite s hs).structuralForm_reading, Listing.each_one, rebuiltSolutions]
  -- The definition may refuse the arguments, and then the site is lost. It is not an error.
  rcases hinstance : c.instantiate fuel d (site.map Ty.reading) with _ | _ | r
  · exact absurd hinstance htold.instantiate
  · have hfails : passes c fuel d u site = false := by rw [passes, hinstance]
    rw [hfails]
    rfl
  · obtain ⟨answer, hanswer⟩ := Option.ne_none_iff_exists'.mp (htold.isAssignable r hinstance)
    have hanswers : passes c fuel d u site = answer := by
      rw [passes, hinstance]
      dsimp only
      rw [hanswer]
      cases answer <;> rfl
    rw [hanswers]
    dsimp only [Listing.ofFueled, isRelative]
    rw [hanswer]
    cases answer <;> rfl

/-! ## What is found

The sites are the argument lists of inherited instances, in the order of the ancestors. The same
arguments may stand in one instance only, so nothing is repeated. -/

/-- The record of matching a candidate with a slot that holds a covariant constraint on a
definition, with names for its parameters. -/
def matchInstances {ν : Type} (c : Catalog) (fuel : Nat) (d : DefIndex) (names : List String)
    (u : Ty)
    (b : Bindings) : Search.Transcript ν ResolutionError Bindings :=
  (slotBindings c fuel
    [⟨[.instanceOf d .covariant (names.map fun name => .param name .invariant)], false⟩] [u] b).run
    Search.takeAll

/-- The arguments of the inherited instances of a definition, each list once, in the order of the
ancestors. -/
def instanceSites (d : DefIndex) (above : List Ty) : List Site :=
  distinctSites ((above.filter fun a => a.head? == some d).map Ty.headArgs)

/-- A site is the list of arguments of an ancestor. -/
theorem mem_instanceSites {d : DefIndex} {above : List Ty} {site : Site} :
    site ∈ instanceSites d above ↔ ∃ a ∈ above, a.head? = some d ∧ a.headArgs = site := by
  simp only [instanceSites, mem_distinctSites, List.mem_map, List.mem_filter, beq_iff_eq, and_assoc]

/-- Removing repetitions leaves a sublist. -/
theorem distinctSites_sublist (sites : List Site) : (distinctSites sites).Sublist sites := by
  induction sites with
  | nil => exact .slnil
  | cons s rest ih => exact .cons_cons s (List.filter_sublist.trans ih)

/-- **What a match finds.** Under fuel that suffices for the ancestors and for all sites, it comes
to its end without an error, and it has bound the names once for each site that passes. -/
theorem matchInstances_eq (hc : c.WellDeclared) {fuel : Nat} {d : DefIndex}
    (hkind : Constraint.isKindMarker d = false) {names : List String}
    (hcount : c.arity d = names.length) (hnodup : names.Nodup) {b : Bindings}
    (hfree : ∀ name ∈ names, b.get? name = none) {u : Ty} (hu : c.Canonical u) {above : List Ty}
    (habove : c.ancestors fuel u = some above)
    (htold : ∀ site ∈ instanceSites d above, Told c fuel d u site) :
    (matchInstances c fuel d names u b : Search.Transcript ν _ _) =
      ⟨[], ((instanceSites d above).filter (passes c fuel d u)).map fun site =>
        b.bindAll names (site.map Ty.reading), some (.ok .finished)⟩ := by
  have hsites : sites c fuel u d (Variance.nest .ambivariant .covariant)
      (names.map fun name => .param name .invariant) b = some (instanceSites d above) := by
    show Option.map distinctSites (sitesAbove c fuel u d) = _
    rw [sitesAbove, habove]
    rfl
  -- What is inherited is proper, so each site has an argument for every name, and all of them can
  -- be read.
  have hinherited : ∀ site ∈ instanceSites d above,
      site.length = names.length ∧ ∀ s ∈ site, c.Proper 0 s := by
    intro site hsite
    obtain ⟨a, ha, hhead, rfl⟩ := mem_instanceSites.mp hsite
    have hproper := ((c.mem_ancestors_iff habove).mp ha).proper hc hu.proper
    exact ⟨(hproper.length_headArgs hhead).trans hcount, hproper.headArgs⟩
  have hlisting : (argSolutions c fuel .ambivariant u b
      (.instanceOf d .covariant (names.map fun name => .param name .invariant))).map Prod.fst =
        .ofList (((instanceSites d above).filter (passes c fuel d u)).map fun site =>
          b.bindAll names (site.map Ty.reading)) := by
    rw [argSolutions_of_sites hkind (by rw [hcount, List.length_map]) hu.structuralForm hsites,
      Listing.map_concat]
    refine Listing.concat_filter _ fun site hsite => ?_
    obtain ⟨hlength, hproper⟩ := hinherited site hsite
    exact siteInstances_params hnodup hfree hlength hproper (htold site hsite)
  have hrun : (slotSolutions c fuel
      [⟨[.instanceOf d .covariant (names.map fun name => .param name .invariant)], false⟩] [u] b) =
        .ofList (((instanceSites d above).filter (passes c fuel d u)).map fun site =>
          b.bindAll names (site.map Ty.reading)) :=
    ((Listing.each_one_right _).trans (Listing.each_one_right _)).trans hlisting
  rw [matchInstances, (silent_slotBindings c fuel _ _ b).run_takeAll, listing_slotBindings, hrun]
  rfl

/-- With enough fuel a match stays as it is. -/
theorem eventually_matchInstances_eq {n : Nat} {d : DefIndex} {names : List String} {u : Ty}
    {b : Bindings} {record : Search.Transcript ν ResolutionError Bindings}
    (h : matchInstances c n d names u b = record) (hend : record.ending ≠ none) :
    ∀ᶠ fuel in atTop, matchInstances c fuel d names u b = record := by
  filter_upwards [eventually_ge_atTop n] with fuel hfuel
  rw [← h]
  rw [← h] at hend
  exact (slotBindings_le (ν := ν) c hfuel _ [u] b).run Search.takeAll [] hend

/-- The kind markers take no arguments. -/
theorem isKindMarker_of_arity_ne_zero {d : DefIndex} (h : c.arity d ≠ 0) :
    Constraint.isKindMarker d = false := by
  rcases hm : Marker.ofDefinition? d with _ | m
  · rw [Constraint.isKindMarker, hm]
  · obtain rfl := Marker.eq_definition hm
    rw [c.arity_definition] at h
    cases m with
    | valueType => exact absurd rfl h
    | referenceType => exact absurd rfl h
    | _ => rfl

/-- Whether a site passes is seen under any fuel that suffices to tell. -/
theorem Told.passes_iff {fuel : Nat} {d : DefIndex} {u : Ty} {site : Site}
    (h : Told c fuel d u site) : passes c fuel d u site = true ↔
      ∃ r, c.HasInstance d (site.map Ty.reading) r ∧ c.Assignable r u := by
  rw [TypeResolution.passes_iff]
  constructor
  · rintro ⟨r, hinstance, hassignable⟩
    exact ⟨r, ⟨fuel, hinstance⟩, fuel, hassignable⟩
  · rintro ⟨r, ⟨n, hinstance⟩, m, hassignable⟩
    obtain ⟨outcome, houtcome⟩ := Option.ne_none_iff_exists'.mp h.instantiate
    obtain rfl : outcome = .ok r :=
      Fueled.eq_of_answers (fun h => c.instantiate_le h d _) houtcome hinstance
    obtain ⟨answer, hanswer⟩ := Option.ne_none_iff_exists'.mp (h.isAssignable r houtcome)
    obtain rfl : answer = true :=
      Fueled.eq_of_answers (fun h => c.isAssignable_le h r u) hanswer hassignable
    exact ⟨r, houtcome, hanswer⟩

/-- **A covariant pattern finds the inherited instances of a definition.** In a catalog that is
declared well, and in which the walks over ancestors and the questions of assignability come to
their ends, match a canonical candidate `u` with a slot that holds a covariant constraint on a
generic definition with distinct free names for its parameters. With enough fuel the match comes to
its end without an error. It delivers bindings once for each list of arguments that an instance of
the definition among the ancestors is applied to, in the order of the ancestors, and the bindings
are what the arguments stand for. It does so exactly for those arguments that the definition takes,
if the candidate is assignable to the outcome. If the outcome is always the ancestor that the
arguments come from, the last condition goes without saying. -/
theorem covariantPattern_finds (hc : c.WellDeclared) (hends : c.HierarchyEnds)
    (hassign : c.AssignabilityEnds) {u : Ty} (hu : c.Canonical u) {d : DefIndex}
    {names : List String} (hnames : names ≠ []) (hcount : names.length = c.arity d)
    (hnodup : names.Nodup) {b : Bindings} (hfree : ∀ name ∈ names, b.get? name = none) :
    ∃ (above : List Ty) (found : List Site),
      (∀ᶠ fuel in atTop, c.ancestors fuel u = some above ∧
        (matchInstances c fuel d names u b : Search.Transcript ν _ _) =
          ⟨[], found.map fun site => b.bindAll names (site.map Ty.reading),
            some (.ok .finished)⟩) ∧
      found.Nodup ∧ found.Sublist (above.map Ty.headArgs) ∧
      (∀ site, site ∈ found ↔ (∃ a ∈ above, a.head? = some d ∧ a.headArgs = site) ∧
        ∃ r, c.HasInstance d (site.map Ty.reading) r ∧ c.Assignable r u) ∧
      ((∀ a ∈ above, a.head? = some d →
          ∀ r, c.HasInstance d (a.headArgs.map Ty.reading) r → r = a) →
        ∀ site, site ∈ found ↔ (∃ a ∈ above, a.head? = some d ∧ a.headArgs = site) ∧
          ∃ r, c.HasInstance d (site.map Ty.reading) r) := by
  have hkind : Constraint.isKindMarker d = false := by
    refine isKindMarker_of_arity_ne_zero (c := c) fun harity => hnames ?_
    exact List.eq_nil_of_length_eq_zero (hcount.trans harity)
  obtain ⟨above, habove⟩ := hends.settled u
  have htold : ∀ᶠ fuel in atTop, ∀ site ∈ instanceSites d above, Told c fuel d u site :=
    eventually_forall_mem fun site _ => eventually_told hassign d u site
  obtain ⟨n, hn, htold⟩ := (habove.and htold).exists
  have hrun := matchInstances_eq (ν := ν) hc hkind hcount.symm hnodup hfree hu hn htold
  refine ⟨above, (instanceSites d above).filter (passes c n d u), ?_, ?_, ?_, ?_, ?_⟩
  · exact habove.and (eventually_matchInstances_eq hrun (Option.some_ne_none _))
  · exact (nodup_distinctSites _).filter _
  · exact List.filter_sublist.trans ((distinctSites_sublist _).trans (List.filter_sublist.map _))
  · intro site
    rw [List.mem_filter, ← mem_instanceSites]
    exact and_congr_right fun hsite => (htold site hsite).passes_iff
  · intro hsame site
    rw [List.mem_filter, ← mem_instanceSites]
    refine and_congr_right fun hsite => (htold site hsite).passes_iff.trans ?_
    refine exists_congr fun r => and_iff_left_of_imp fun hr => ?_
    obtain ⟨a, ha, hhead, rfl⟩ := mem_instanceSites.mp hsite
    obtain rfl := hsame a ha hhead r hr
    exact hassign.assignable_of_inherits ((c.mem_ancestors_iff hn).mp ha)

section BaseLibrary

open Catalog

/-- A list of strings is found to be a sequence of strings. -/
theorem baseLibrary_finds_sequence :
    ∃ found : List Site, [.nominal 18] ∈ found ∧
      ∀ᶠ fuel in atTop, (matchInstances baseLibrary fuel 11 ["T"] (.named 14 [.nominal 18]) [] :
        Search.Transcript Empty _ _).items =
          found.map fun site => Bindings.bindAll [] ["T"] (site.map Ty.reading) := by
  have hends := baseLibrary_acyclic.hierarchyEnds
  have hassign := baseLibrary_flat.assignabilityEnds hends
  have hstring : baseLibrary.Canonical (.nominal 18) := canonical_nominal rfl
  have hlist : baseLibrary.Canonical (.named 14 [.nominal 18]) := hstring.generic 14 rfl rfl
  have hsequence : baseLibrary.instantiate 9 11 [.nominal 18] =
      some (.ok (.named 11 [.nominal 18])) := rfl
  obtain ⟨above, found, hrun, -, -, -, hfound⟩ :=
    covariantPattern_finds (ν := Empty) baseLibrary_wellDeclared hends hassign hlist
      (d := 11) (show ["T"] ≠ [] by decide) rfl (by decide) (b := []) fun _ _ => rfl
  obtain ⟨n, habove, -⟩ := hrun.exists
  obtain rfl : above = [.named 14 [.nominal 18], .named 12 [.nominal 18], .named 11 [.nominal 18],
      .nominal 10, .nominal 8] :=
    Fueled.eq_of_answers (fun h => baseLibrary.ancestors_le h _) habove
      (show baseLibrary.ancestors 9 _ = _ from rfl)
  have honly : ∀ a ∈ ([.named 14 [.nominal 18], .named 12 [.nominal 18], .named 11 [.nominal 18],
      .nominal 10, .nominal 8] : List Ty), a.head? = some 11 → a = .named 11 [.nominal 18] := by
    decide
  refine ⟨found, (hfound ?_ _).mpr ⟨⟨.named 11 [.nominal 18], by simp, rfl, rfl⟩, _, 9, hsequence⟩,
    hrun.mono fun fuel h => by rw [h.2]⟩
  rintro a ha hhead r ⟨m, hr⟩
  obtain rfl := honly a ha hhead
  exact Except.ok.inj (Fueled.eq_of_answers
    (fun h => baseLibrary.instantiate_le h 11 _) hr hsequence)

/-- **Arrays of pointers are not found to be lists of pointers**, although they inherit this
interface and it takes pointers for its argument: the interface that they inherit is not the one
that is instantiated. -/
theorem pointerArrays_lost :
    baseLibrary.WellDeclared ∧ baseLibrary.HierarchyEnds ∧ baseLibrary.AssignabilityEnds ∧
      baseLibrary.Canonical (.array 1 (.pointer (.nominal 19))) ∧
      baseLibrary.HasAncestor (.array 1 (.pointer (.nominal 19)))
        (.named 12 [.pointer (.nominal 19)]) ∧
      baseLibrary.HasInstance 12 [.pointer (.nominal 19)]
        (.named 12 [(Ty.pointer (.nominal 19)).nominalForm]) ∧
      ∀ᶠ fuel in atTop, (matchInstances baseLibrary fuel 12 ["T"]
        (.array 1 (.pointer (.nominal 19))) [] : Search.Transcript Empty _ _) =
          ⟨[], [], some (.ok .finished)⟩ := by
  have hends := baseLibrary_acyclic.hierarchyEnds
  have hassign := baseLibrary_flat.assignabilityEnds hends
  have hint : baseLibrary.Canonical (.nominal 19) := canonical_nominal rfl
  have harray : baseLibrary.Canonical (.array 1 (.pointer (.nominal 19))) :=
    hint.pointer.array (hassign.canonical_rankEncoding (by decide) 1)
  refine ⟨baseLibrary_wellDeclared, hends, hassign, harray, ⟨9, _, rfl, by decide +kernel⟩,
    ⟨9, rfl⟩, ?_⟩
  exact eventually_matchInstances_eq (show matchInstances baseLibrary 9 12 ["T"] _ [] = _ from rfl)
    (Option.some_ne_none _)

end BaseLibrary

end TypeResolution

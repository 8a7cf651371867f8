import TypeResolution.Catalog.BaseLibrary
import TypeResolution.Proofs.Unification.Description
import TypeResolution.Proofs.Unification.Silent
import TypeResolution.Proofs.Unification.Solutions
import TypeResolution.Proofs.Unification.SolvedSites

/-!
# Invariant constraints are exact

A slot that holds the constraint which describes a canonical type `t`, with variance invariant,
accepts exactly the candidate `t`: with one set of bindings, the one it was given. Any other
canonical candidate is refused, and not by an error.

The induction goes along the description. At each instance two things have to be seen:

* every argument of every site reads as a type that is met on the way, so that no site is given up
  with an error (`siteSolutions_eq` then compares such a site with the described arguments);
* if the candidate is the described type, then exactly one site survives (`eventually_sites`): for a
  definition because no definition inherits from itself, for an array because the elements that
  other sites have are too small.

The types that are met are not named but described by a pair of predicates (`Meets`), one for what
the constraints describe and one for the candidates that come up. In the end both are the parts of
`t` and of the candidate (`meets_parts`), but the induction needs to know only how they are closed.
-/

namespace TypeResolution

open Filter

/-! ## Listings with at most one item

In a row in which only one part lists something, and this once, there is one item. -/

/-- A row of parts that list nothing lists nothing. -/
theorem Listing.concat_map_nothing {ε α ι : Type} {is : List ι} {f : ι → Listing ε α}
    (h : ∀ i ∈ is, f i = .nothing) : Listing.concat (is.map fun i => (false, f i)) = .nothing := by
  induction is with
  | nil => rfl
  | cons i is ih =>
    obtain ⟨hi, his⟩ := List.forall_mem_cons.mp h
    rw [List.map_cons, Listing.concat_cons, hi, ih his]
    rfl

/-- Where only one alternative gives something, the whole gives that. -/
theorem Listing.concat_map_one {ε α ι : Type} {is : List ι} (hnodup : is.Nodup)
    {f : ι → Listing ε α} {i : ι} (hi : i ∈ is) {a : α} (hone : f i = .one a)
    (hothers : ∀ j ∈ is, j ≠ i → f j = .nothing) :
    Listing.concat (is.map fun i => (false, f i)) = .one a := by
  induction is with
  | nil => exact absurd hi List.not_mem_nil
  | cons j is ih =>
    obtain ⟨hj, hnodup⟩ := List.nodup_cons.mp hnodup
    rw [List.map_cons, Listing.concat_cons, Listing.andThen_false]
    rcases List.mem_cons.mp hi with rfl | hi
    · have hrest : ∀ j ∈ is, f j = .nothing := by
        intro k hk
        have hne : k ≠ i := fun h => hj (h ▸ hk)
        exact hothers k (List.mem_cons_of_mem i hk) hne
      rw [hone, Listing.concat_map_nothing hrest, Listing.append_nothing]
    · have hne : j ≠ i := fun h => hj (h ▸ hi)
      rw [hothers j List.mem_cons_self hne, Listing.nothing_append]
      exact ih hnodup hi fun k hk => hothers k (List.mem_cons_of_mem j hk)

/-! ## One site

At one site the sub-constraints are matched with the arguments, each by the induction hypothesis. So
the site is accepted exactly if it reads as the described arguments. -/

variable {c : Catalog}

/-- If each sub-constraint accepts exactly one type, then a site is accepted exactly if its
arguments read as these types. -/
theorem siteSolutions_eq {fuel : Nat} {b : Bindings} {ks : List Constraint} {ts as : List Ty}
    {site : Site} (hks : ks.length = ts.length) (has : as.length = ts.length)
    (hread : site.map Ty.structuralForm = as.map .ok)
    (h : ∀ p ∈ ks.zip ts, ∀ a ∈ as, argSolutions c fuel .invariant a b p.1 =
      if a = p.2 then .one (b, p.2) else .nothing) :
    siteSolutions c fuel .invariant site b ks = if as = ts then .one (b, ts) else .nothing := by
  induction ks generalizing ts as site with
  | nil =>
    obtain rfl := List.length_eq_zero_iff.mp hks.symm
    obtain rfl := List.length_eq_zero_iff.mp has
    rw [siteSolutions, if_pos rfl]
  | cons k ks ih =>
    cases ts with
    | nil => cases hks
    | cons t ts =>
      -- The site is gone through together with what its arguments read as and with the described
      -- arguments. Either all agree, or one argument does not and the site lists nothing.
      cases as with
      | nil => cases has
      | cons a as =>
        cases site with
        | nil => cases hread
        | cons s site =>
          obtain ⟨hs, hsite⟩ := List.cons_eq_cons.mp hread
          obtain ⟨hfirst, hrest⟩ := List.forall_mem_cons.mp h
          have hk := hfirst a List.mem_cons_self
          have hthen := ih (Nat.succ.inj hks) (Nat.succ.inj has) hsite
            fun p hp a ha => hrest p hp a (List.mem_cons_of_mem _ ha)
          rw [siteSolutions, structuralSolutions, hs]
          dsimp only at hk ⊢
          rw [hk]
          by_cases hat : a = t
          · subst hat
            rw [if_pos rfl, Listing.each_one, hthen]
            by_cases hasts : as = ts
            · subst hasts
              rw [if_pos rfl, if_pos rfl]
              rfl
            · rw [if_neg hasts, if_neg (by simp [hasts])]
              rfl
          · rw [if_neg hat, if_neg (by simp [hat])]
            rfl

/-- What is rebuilt from the described arguments is the described type; it is kept if it is the
candidate. -/
theorem rebuiltSolutions_eq {fuel : Nat} {d : DefIndex} {ts : List Ty} {t : Ty}
    (h : c.instantiate fuel d ts = some (.ok t)) (u : Ty) :
    rebuiltSolutions c fuel .invariant d u ts = if t = u then .one t else .nothing := by
  rw [rebuiltSolutions, h]
  by_cases htu : t = u <;> simp [Listing.ofFueled, Listing.guard, isRelative, htu]

/-- An invariant instance constraint goes through its sites and finds the described type, at every
site that reads as its arguments, if that is the candidate. -/
theorem instanceSolutions_eq {fuel : Nat} {outer v : Variance} (hv : outer.nest v = .invariant)
    {d : DefIndex} (hkind : Constraint.isKindMarker d = false) {ks : List Constraint} {ts : List Ty}
    (hcount : c.arity d = ks.length) {t : Ty} (hinstance : c.instantiate fuel d ts = some (.ok t))
    {b : Bindings} {u : Ty} (hu : u.structuralForm = .ok u) {found : List Site}
    (hsites : sites c fuel u d .invariant ks b = some found)
    (hfound : ∀ site ∈ found, siteSolutions c fuel .invariant site b ks =
      if site.map Ty.structuralForm = ts.map .ok then .one (b, ts) else .nothing) :
    argSolutions c fuel outer u b (.instanceOf d v ks) =
      .concat (found.map fun site => (false,
        if site.map Ty.structuralForm = ts.map .ok ∧ t = u then .one (b, t) else .nothing)) := by
  have hsite : ∀ site ∈ found, (false, (siteSolutions c fuel .invariant site b ks).each false
      fun p => (rebuiltSolutions c fuel .invariant d u p.2).map fun result => (p.1, result)) =
        (false, if site.map Ty.structuralForm = ts.map .ok ∧ t = u then .one (b, t)
          else .nothing) := by
    intro site hmem
    rw [hfound site hmem]
    -- A site that is accepted leads to the instance that is described, and this is compared with
    -- the candidate.
    by_cases hread : site.map Ty.structuralForm = ts.map .ok
    · rw [if_pos hread, Listing.each_one, rebuiltSolutions_eq hinstance]
      by_cases htu : t = u
      · rw [if_pos htu, if_pos ⟨hread, htu⟩]
        rfl
      · rw [if_neg htu, if_neg fun h => htu h.2]
        rfl
    · rw [if_neg hread, if_neg fun h => hread h.1]
      rfl
  rw [argSolutions, instanceSolutions, structuralSolutions, hu]
  dsimp only
  split
  · next hm => simp [Constraint.isKindMarker, hm, Marker.isKind] at hkind
  · next hm => simp [Constraint.isKindMarker, hm, Marker.isKind] at hkind
  · rw [checkArgCount, if_pos hcount]
    dsimp only
    rw [hv, hsites]
    exact congrArg Listing.concat (List.map_congr_left hsite)

/-! ## The sites of a description

Sites of an invariant constraint are those found above and below the candidate at once. If `t` is
the candidate, then its own arguments are a site on both sides. -/

/-- The types that a match meets: those that the constraints describe, and all candidates. -/
structure Meets (c : Catalog) (described met : Ty → Prop) : Prop where
  /-- what is described is met -/
  met_of_described : ∀ x, described x → met x
  /-- all types met are canonical -/
  canonical : ∀ x, met x → c.Canonical x
  /-- the arguments of a type met are met -/
  arg_met : ∀ x s y, met x → s ∈ x.headArgs → s.structuralForm = .ok y → met y
  /-- the arguments of a described type are described -/
  arg_described : ∀ x s y, described x → s ∈ x.headArgs → s.structuralForm = .ok y → described y
  /-- the ancestors of a type met come to an end -/
  ancestorsEnd : ∀ x, met x → c.AncestorsEnd x
  /-- so do those of the open form of a described type -/
  openEnd : ∀ x, described x → c.AncestorsEnd (c.openForm x)

/-- An instance is an array over the described arguments, or its open form is its definition over
its own parameters. -/
theorem instance_cases {fuel : Nat} {d : DefIndex} {ts : List Ty} {t : Ty}
    (hts : ∀ a ∈ ts, c.Canonical a) (h : c.instantiate fuel d ts = some (.ok t)) :
    (d = Marker.array.definition ∧ ∃ n elem, ts = [rankEncoding n, elem] ∧ t = .array n elem) ∨
      (Marker.ofDefinition? d ≠ some .array ∧ c.openForm t = c.openInstance d ∧
        t.headArgs.length = c.arity d) := by
  have hlength : t.headArgs.length = c.arity d := by
    have h' := congrArg List.length (Catalog.headArgs_of_instantiate hts h)
    rw [List.length_map, List.length_map, c.length_of_instantiate h] at h'
    exact h'
  rcases (c.instantiate_ok h).2 with hs | ⟨hs, rfl, -⟩
  · rcases Ty.structural?_ok hs with ⟨rfl, n, elem, rfl, rfl⟩ | ⟨rfl, elem, -, rfl⟩ |
      ⟨rfl, elem, -, rfl⟩
    · exact .inl ⟨rfl, n + 1, elem, rfl, rfl⟩
    · exact .inr ⟨by decide, rfl, hlength⟩
    · exact .inr ⟨by decide, rfl, hlength⟩
  · refine .inr ⟨fun hm => ?_, rfl, hlength⟩
    -- the stand-in of arrays takes the two arguments that make it an array
    obtain rfl := Marker.eq_definition hm
    have htwo := (c.length_of_instantiate h).trans (c.arity_definition .array)
    obtain ⟨rank, elem, rfl⟩ := List.length_eq_two.mp htwo
    rw [Ty.structural?, if_pos rfl] at hs
    split at hs <;> cases hs

/-- The ancestors that sites below a candidate are looked for among are those of the open form. -/
theorem openAncestors_eq {fuel fuel' : Nat} {d : DefIndex} {ts : List Ty} {t : Ty}
    (hts : ∀ a ∈ ts, c.Canonical a) (h : c.instantiate fuel' d ts = some (.ok t)) (u : Ty)
    {above : List Ty} (habove : c.ancestors fuel (c.openForm t) = some above) :
    openAncestors c fuel u d (ts.map some) = some (some (above, ts.map some)) := by
  rcases instance_cases hts h with ⟨rfl, n, elem, rfl, rfl⟩ | ⟨hm, hopen, -⟩
  · have hrank : wantedRank? u ([rankEncoding n, elem].map some) = some n := by
      have hread : (([rankEncoding n, elem].map some).head?.join.bind readRank?) = some n :=
        readRank?_rankEncoding n
      unfold wantedRank?
      rw [hread]
      cases u <;> rfl
    rw [openAncestors, if_pos (Marker.ofDefinition?_definition .array), hrank]
    dsimp only
    rw [show c.ancestors fuel (.array n (.param 1)) = some above from habove]
    rfl
  · rw [hopen] at habove
    rw [openAncestors, if_neg hm, Catalog.ancestorsOfDefinition, habove]
    rfl

/-- Types that all read as types of some sort read as a list of these. -/
theorem exists_reading {M : Ty → Prop} {site : Site}
    (h : ∀ s ∈ site, ∃ a, s.structuralForm = .ok a ∧ M a) :
    ∃ as : List Ty, site.map Ty.structuralForm = as.map .ok ∧ ∀ a ∈ as, M a := by
  induction site with
  | nil => exact ⟨[], rfl, by simp⟩
  | cons s site ih =>
    obtain ⟨⟨a, ha, hM⟩, hsite⟩ := List.forall_mem_cons.mp h
    obtain ⟨as, has, hall⟩ := ih hsite
    exact ⟨a :: as, by rw [List.map_cons, ha, has, List.map_cons],
      List.forall_mem_cons.mpr ⟨hM, hall⟩⟩

/-- What a described type is an instance over is described. -/
theorem Meets.described_args {described met : Ty → Prop} (hm : Meets c described met) {fuel : Nat}
    {d : DefIndex} {ts : List Ty} {t : Ty} (hts : ∀ a ∈ ts, c.Canonical a)
    (h : c.instantiate fuel d ts = some (.ok t)) (ht : described t) : ∀ a ∈ ts, described a := by
  intro a ha
  have hmem : (.ok a : Except ArgumentError Ty) ∈ t.headArgs.map Ty.structuralForm := by
    rw [Catalog.headArgs_of_instantiate hts h]
    exact List.mem_map_of_mem ha
  obtain ⟨s, hs, hread⟩ := List.mem_map.mp hmem
  exact hm.arg_described t s a ht hs hread

/-! ### Sites found both ways

The sites that are used come from intersecting the two lists. Such a site is the list of arguments
of an ancestor of the candidate, and at the same time it solves an ancestor of the open form of `t`.
-/

/-- A site that an invariant constraint uses: the arguments of an instance of `d` among the
ancestors `above` of a candidate, at which one of the open ancestors `openAbove` becomes the
candidate. -/
def SharedSite (u : Ty) (d : DefIndex) (ts above openAbove : List Ty) (site : Site) : Prop :=
  (∃ a ∈ above, a.head? = some d ∧ a.headArgs = site) ∧
    ∃ a ∈ openAbove, a.head? = u.head? ∧ solveSite? u.headArgs (ts.map some) a = some site

/-- The sites are found, without repetitions, and they are the shared ones. -/
theorem exists_sites {fuel fuel' : Nat} {d : DefIndex} {ks : List Constraint}
    {ts above openAbove : List Ty} {t u : Ty} {b : Bindings} (hts : ∀ a ∈ ts, c.Canonical a)
    (hinstance : c.instantiate fuel' d ts = some (.ok t)) (hu : c.Canonical u)
    (habove : c.ancestors fuel u = some above)
    (hopenAbove : c.ancestors fuel (c.openForm t) = some openAbove)
    (hknown : knownArgs c fuel b ks = some (ts.map some)) :
    ∃ found, sites c fuel u d .invariant ks b = some found ∧ found.Nodup ∧
      ∀ site, site ∈ found ↔ SharedSite u d ts above openAbove site := by
  obtain ⟨e, he⟩ := hu.head?_ne_none
  have hbelow : sitesBelow c fuel u d ks b =
      some ((openAbove.filter fun a => a.head? == some e).filterMap
        (solveSite? u.headArgs (ts.map some))) := by
    rw [sitesBelow, he, hknown]
    dsimp only
    rw [openAncestors_eq hts hinstance u hopenAbove]
    rfl
  rw [sites, hbelow, sitesAbove, habove]
  refine ⟨_, rfl, nodup_distinctSites _, fun site => ?_⟩
  simp only [SharedSite, he, mem_distinctSites, List.mem_filter, List.mem_map, List.mem_filterMap,
    decide_eq_true_iff, beq_iff_eq, and_assoc]

/-- Every argument of such a site reads as a type that is met: it is written with arguments of the
candidate and of the described type. -/
theorem Meets.reads_of_sharedSite {described met : Ty → Prop} (hm : Meets c described met)
    {fuel : Nat} {d : DefIndex} {ts above openAbove : List Ty} {t u : Ty}
    (hts : ∀ a ∈ ts, c.Canonical a) (hinstance : c.instantiate fuel d ts = some (.ok t))
    (ht : described t) (hu : met u) {site : Site}
    (hsite : SharedSite u d ts above openAbove site) :
    site.length = ts.length ∧
      ∃ as : List Ty, site.map Ty.structuralForm = as.map .ok ∧ ∀ a ∈ as, met a := by
  obtain ⟨-, a, -, -, hsolve⟩ := hsite
  have hP := Catalog.hereditary_reads hm.canonical hm.arg_met
  have hactual : ∀ x ∈ u.headArgs, ∃ y, x.structuralForm = .ok y ∧ met y := by
    intro x hx
    obtain ⟨y, -, hy⟩ := (hm.canonical u hu).exists_of_mem_headArgs hx
    exact ⟨y, hy, hm.arg_met u x y hu hx hy⟩
  have hargs : ∀ x ∈ ts, ∃ y, x.structuralForm = .ok y ∧ met y := by
    intro x hx
    have hdescribed := hm.described_args hts hinstance ht x hx
    exact ⟨x, (hts x hx).structuralForm, hm.met_of_described x hdescribed⟩
  obtain ⟨hlength, hreads⟩ := solveSite?_hereditary hP hactual hargs hsolve
  exact ⟨hlength, exists_reading hreads⟩

/-- If the candidate is the described type, then its own arguments are a site, and no other site
reads as the described arguments. -/
theorem sharedSite_self (hself : c.NoSelfInheritance) {fuel fuel' fuel'' : Nat} {d : DefIndex}
    {ts above openAbove : List Ty} {t : Ty} (hts : ∀ a ∈ ts, c.Canonical a)
    (hinstance : c.instantiate fuel d ts = some (.ok t))
    (habove : c.ancestors fuel' t = some above)
    (hopenAbove : c.ancestors fuel'' (c.openForm t) = some openAbove) :
    SharedSite t d ts above openAbove t.headArgs ∧
      ∀ site, SharedSite t d ts above openAbove site →
        site.map Ty.structuralForm = ts.map .ok → site = t.headArgs := by
  have hd : t.head? = some d := c.head?_of_instantiate hinstance
  have hmine : ∃ a ∈ above, a.head? = some d ∧ a.headArgs = t.headArgs :=
    ⟨t, c.self_mem_ancestors habove, hd, rfl⟩
  have hopen := c.self_mem_ancestors hopenAbove
  -- For arrays all ancestors that are arrays have to be compared by their elements. For definitions
  -- the open form inherits no other instance of the same definition.
  rcases instance_cases hts hinstance with ⟨rfl, n, elem, rfl, rfl⟩ | ⟨-, hform, hlength⟩
  · -- an array: other sites would have a smaller element
    refine ⟨⟨hmine, _, hopen, rfl, solveSite?_openArray n elem elem⟩, ?_⟩
    intro site hsite hread
    obtain ⟨-, a, -, -, hsolve⟩ := hsite
    obtain ⟨rank, rest, rfl, hrank, hrest⟩ := List.map_eq_cons_iff.mp hread
    obtain ⟨s, rest, rfl, hs, hnil⟩ := List.map_eq_cons_iff.mp hrest
    obtain rfl := List.map_eq_nil_iff.mp hnil
    exact eq_of_solveSite?_array hsolve hrank hs
  · -- a definition: it has no other instance among the ancestors of its open form
    rw [hform] at hopen hopenAbove
    have hsolved := solveSite?_openInstance c d t.headArgs ts hlength
      (c.length_of_instantiate hinstance)
    refine ⟨⟨hmine, _, hopen, hd.symm, hsolved⟩, ?_⟩
    intro site hsite _
    obtain ⟨-, a, ha, hhead, hsolve⟩ := hsite
    rw [hself d fuel'' openAbove hopenAbove a ha (hhead.trans hd), hsolved] at hsolve
    exact (Option.some.inj hsolve).symm

/-- **The sites that are used for a description.** With enough fuel they are certain sites, each
once. Every argument of each reads as a type that is met. If the candidate is the described type,
then its own arguments are one of the sites, and no other site reads as the described arguments. -/
theorem eventually_sites {described met : Ty → Prop} (hm : Meets c described met)
    (hself : c.NoSelfInheritance) {fuel : Nat} {d : DefIndex} {ks : List Constraint} {ts : List Ty}
    {t u : Ty} {b : Bindings} (hts : ∀ a ∈ ts, c.Canonical a)
    (hinstance : c.instantiate fuel d ts = some (.ok t)) (ht : described t) (hu : met u)
    (hknown : ∀ᶠ fuel in atTop, knownArgs c fuel b ks = some (ts.map some)) :
    ∃ found : List Site,
      (∀ᶠ fuel in atTop, sites c fuel u d .invariant ks b = some found) ∧ found.Nodup ∧
        (∀ site ∈ found, site.length = ts.length ∧
          ∃ as : List Ty, site.map Ty.structuralForm = as.map .ok ∧ ∀ a ∈ as, met a) ∧
        (u = t → t.headArgs ∈ found ∧ ∀ site ∈ found,
          site.map Ty.structuralForm = ts.map .ok → site = t.headArgs) := by
  obtain ⟨above, habove⟩ := (hm.ancestorsEnd u hu).eventually
  obtain ⟨openAbove, hopenAbove⟩ := (hm.openEnd t ht).eventually
  obtain ⟨enough, habove, hopenAbove, hknown⟩ := (habove.and (hopenAbove.and hknown)).exists
  obtain ⟨found, hfound, hnodup, hmem⟩ :=
    exists_sites hts hinstance (hm.canonical u hu) habove hopenAbove hknown
  refine ⟨found, Fueled.eventually_eq_some (fun h => sites_le c h u d _ ks b) hfound, hnodup,
    ?_, ?_⟩
  · intro site hsite
    exact hm.reads_of_sharedSite hts hinstance ht hu ((hmem site).mp hsite)
  · rintro rfl
    obtain ⟨hown, honly⟩ := sharedSite_self hself hts hinstance habove hopenAbove
    exact ⟨(hmem _).mpr hown, fun site hsite => honly site ((hmem site).mp hsite)⟩

/-! ## Exactness

The induction on the description, for all candidates that are met. Each step says that from some
fuel on the constraint finds the described type if it is the candidate, and nothing otherwise. -/

/-- A site all of whose arguments read as types that are met is accepted exactly if these are the
described arguments, provided the sub-constraints are exact. -/
theorem eventually_siteSolutions {met : Ty → Prop} {ks : List Constraint} {ts : List Ty}
    {b : Bindings} (hlength : ks.length = ts.length)
    (ih : ∀ p ∈ ks.zip ts, ∀ a, met a → ∀ᶠ fuel in atTop,
      argSolutions c fuel .invariant a b p.1 = if a = p.2 then .one (b, p.2) else .nothing)
    {site : Site} {as : List Ty} (hsite : site.length = ts.length)
    (hread : site.map Ty.structuralForm = as.map .ok) (hmet : ∀ a ∈ as, met a) :
    ∀ᶠ fuel in atTop, siteSolutions c fuel .invariant site b ks =
      if site.map Ty.structuralForm = ts.map .ok then .one (b, ts) else .nothing := by
  have has : as.length = ts.length := by
    have h := congrArg List.length hread
    rw [List.length_map, List.length_map] at h
    exact h.symm.trans hsite
  have hall : ∀ᶠ fuel in atTop, ∀ p ∈ ks.zip ts, ∀ a ∈ as,
      argSolutions c fuel .invariant a b p.1 = if a = p.2 then .one (b, p.2) else .nothing :=
    eventually_forall_mem fun p hp => eventually_forall_mem fun a ha => ih p hp a (hmet a ha)
  filter_upwards [hall] with fuel hall
  rw [siteSolutions_eq hlength has hread hall, hread]
  by_cases hats : as = ts
  · rw [if_pos hats, if_pos (by rw [hats])]
  · have hne : as.map Except.ok ≠ ts.map (Except.ok : Ty → Except ArgumentError Ty) :=
      fun h => hats (List.map_injective_iff.mpr (fun _ _ => Except.ok.inj) h)
    rw [if_neg hats, if_neg hne]

/-- An invariant constraint on an instance accepts exactly the described type, provided its
sub-constraints do. -/
theorem eventually_instance {described met : Ty → Prop} (hm : Meets c described met)
    (hself : c.NoSelfInheritance) {fuel : Nat} {d : DefIndex} {ks : List Constraint} {ts : List Ty}
    {t u : Ty} {b : Bindings} {outer v : Variance} (hv : outer.nest v = .invariant)
    (hkind : Constraint.isKindMarker d = false) (hlength : ks.length = ts.length)
    (hargs : ∀ p ∈ ks.zip ts, Describes c p.1 p.2)
    (hinstance : c.instantiate fuel d ts = some (.ok t)) (ht : described t) (hu : met u)
    (ih : ∀ p ∈ ks.zip ts, ∀ a, met a → ∀ᶠ fuel in atTop,
      argSolutions c fuel .invariant a b p.1 = if a = p.2 then .one (b, p.2) else .nothing) :
    ∀ᶠ fuel in atTop, argSolutions c fuel outer u b (.instanceOf d v ks) =
      if u = t then .one (b, t) else .nothing := by
  have hts := forall_mem_of_zip hlength fun p hp => (hargs p hp).canonical
  have hknown : ∀ᶠ fuel in atTop, knownArgs c fuel b ks = some (ts.map some) := by
    have hall := eventually_forall_mem fun p hp => (hargs p hp).eventually_singleType b
    filter_upwards [hall] with fuel hall
    exact knownArgs_eq hlength hall
  obtain ⟨found, hsites, hnodup, hread, hown⟩ :=
    eventually_sites hm hself hts hinstance ht hu hknown
  -- There are finitely many sites, so the amounts of fuel that they need have a maximum.
  have hsolved : ∀ᶠ fuel in atTop, ∀ site ∈ found, siteSolutions c fuel .invariant site b ks =
      if site.map Ty.structuralForm = ts.map .ok then .one (b, ts) else .nothing := by
    refine eventually_forall_mem fun site hsite => ?_
    obtain ⟨hlen, as, has, hmet⟩ := hread site hsite
    exact eventually_siteSolutions hlength ih hlen has hmet
  have hthen := Fueled.eventually_eq_some (fun h => c.instantiate_le h d ts) hinstance
  filter_upwards [hsites, hsolved, hthen] with fuel hsites hsolved hthen
  have hcount : c.arity d = ks.length :=
    (c.length_of_instantiate hinstance).symm.trans hlength.symm
  rw [instanceSolutions_eq hv hkind hcount hthen (hm.canonical u hu).structuralForm hsites hsolved]
  by_cases hut : u = t
  · -- of all sites only that of the candidate's own arguments gives something
    obtain ⟨hmem, honly⟩ := hown hut
    subst hut
    rw [if_pos rfl]
    refine Listing.concat_map_one hnodup hmem ?_ fun site hsite hne => ?_
    · exact if_pos ⟨Catalog.headArgs_of_instantiate hts hinstance, rfl⟩
    · exact if_neg fun h => hne (honly site hsite h.1)
  · -- whatever a site is solved to, the described type is not the candidate
    rw [if_neg hut]
    exact Listing.concat_map_nothing fun site _ => if_neg fun h => hut h.2.symm

/-- Below an invariant place, a description accepts exactly the described type. The induction is on
the description. -/
theorem eventually_argSolutions {described met : Ty → Prop} (hm : Meets c described met)
    (hself : c.NoSelfInheritance) (b : Bindings) {k : Constraint} {t : Ty} (h : Describes c k t)
    (ht : described t) {u : Ty} (hu : met u) :
    ∀ᶠ fuel in atTop, argSolutions c fuel .invariant u b k =
      if u = t then .one (b, t) else .nothing := by
  induction h generalizing u with
  | @intro d v ks ts t fuel hkind hlength hargs hinstance ih =>
    refine eventually_instance hm hself rfl hkind hlength hargs hinstance ht hu fun p hp a ha => ?_
    have hts := forall_mem_of_zip hlength fun p hp => (hargs p hp).canonical
    exact ih p hp (hm.described_args hts hinstance ht p.2 (List.of_mem_zip hp).2) ha

/-- The types met in matching a candidate with the description of a type are the parts of both. -/
theorem meets_parts {t u : Ty} (ht : c.Canonical t) (hu : c.Canonical u)
    (hends : ∀ x, Catalog.Part t x ∨ Catalog.Part u x → c.AncestorsEnd x)
    (hopen : ∀ x, Catalog.Part t x → c.AncestorsEnd (c.openForm x)) :
    Meets c (Catalog.Part t) (fun x => Catalog.Part t x ∨ Catalog.Part u x) where
  met_of_described x hx := .inl hx
  canonical x hx := by
    rcases hx with hx | hx
    · exact ht.part hx
    · exact hu.part hx
  arg_met x s y hx hs hy := by
    rcases hx with hx | hx
    · exact .inl (hx.arg hs hy)
    · exact .inr (hx.arg hs hy)
  arg_described x s y hx hs hy := hx.arg hs hy
  ancestorsEnd x hx := hends x hx
  openEnd x hx := hopen x hx

/-- The record of matching a candidate with a slot that holds, as an invariant constraint, what a
type is expanded to. -/
def matchInvariant {ν : Type} (c : Catalog) (fuel : Nat) (t : Ty) (definitive : Bool) (u : Ty)
    (b : Bindings) : Search.Transcript ν ResolutionError Bindings :=
  (slotBindings c fuel [⟨[(Constraint.ofType c t).withVariance .invariant], definitive⟩]
    [u] b).run Search.takeAll

/-- With enough fuel, the match comes to its end and has found what it should. -/
theorem eventually_matchInvariant {ν : Type} {described met : Ty → Prop}
    (hm : Meets c described met) (hself : c.NoSelfInheritance) {t u : Ty} (ht : c.Canonical t)
    (hkind : t.mentionsKindMarker = false) (hdescribed : described t) (hu : met u)
    (definitive : Bool) (b : Bindings) :
    ∀ᶠ fuel in atTop, (matchInvariant c fuel t definitive u b : Search.Transcript ν _ _) =
      ⟨[], if u = t then [b] else [], some (.ok .finished)⟩ := by
  have hdescribes := (describes_ofType ht hkind).1
  unfold matchInvariant
  generalize Constraint.ofType c t = k at hdescribes ⊢
  obtain ⟨hnot, hlength, hargs, hinstance⟩ := hdescribes
  have hts := forall_mem_of_zip hlength fun p hp => (hargs p hp).canonical
  have hparts := hm.described_args hts hinstance hdescribed
  -- at the top the variance in force is the constraint's own
  have hv : Variance.ambivariant.nest .invariant = .invariant := rfl
  have hsolved := eventually_instance (b := b) hm hself hv hnot hlength hargs hinstance hdescribed
    hu fun p hp a ha =>
      eventually_argSolutions hm hself b (hargs p hp) (hparts p.2 (List.of_mem_zip hp).2) ha
  filter_upwards [hsolved] with fuel hsolved
  rw [(silent_slotBindings c fuel _ _ b).run_takeAll, listing_slotBindings]
  rw [argSolutions] at hsolved
  simp only [slotSolutions, conjunctionSolutions, Constraint.withVariance, constraintSolutions,
    hsolved]
  by_cases hut : u = t
  · rw [if_pos hut, if_pos hut]
    cases definitive <;> rfl
  · rw [if_neg hut, if_neg hut]
    cases definitive <;> rfl

/-- **Invariant constraints are exact.** In a catalog in which no definition inherits from itself,
match a canonical candidate `u` with a slot that holds the invariant constraint which describes a
canonical type `t` that mentions no kind marker. If the ancestors of all types met can be listed,
then the match comes to its end; and whenever it does, it has found exactly one set of bindings, the
one that it started from, if `u` is `t`, and none otherwise.

The types met are the parts of `t` and of `u`, and the definitions of the parts of `t` over their
own parameters. Assignability is asked for the bounds of the parts of `t` alone, and these questions
come to an end because the parts could be instantiated. -/
theorem matchInvariant_exact {ν : Type} (hself : c.NoSelfInheritance) {t u : Ty}
    (ht : c.Canonical t) (hu : c.Canonical u) (hkind : t.mentionsKindMarker = false)
    (hends : ∀ x, Catalog.Part t x ∨ Catalog.Part u x → c.AncestorsEnd x)
    (hopen : ∀ x, Catalog.Part t x → c.AncestorsEnd (c.openForm x))
    (definitive : Bool) (b : Bindings) :
    (∃ fuel, (matchInvariant c fuel t definitive u b :
        Search.Transcript ν _ _).ending ≠ none) ∧
      ∀ fuel, (matchInvariant c fuel t definitive u b :
          Search.Transcript ν _ _).ending ≠ none →
        (matchInvariant c fuel t definitive u b : Search.Transcript ν _ _) =
          ⟨[], if u = t then [b] else [], some (.ok .finished)⟩ := by
  have hm := meets_parts ht hu hends hopen
  have hmatch := eventually_matchInvariant (ν := ν) hm hself ht hkind .self (.inr .self)
    definitive b
  obtain ⟨enough, henough⟩ := eventually_atTop.mp hmatch
  refine ⟨⟨enough, ?_⟩, fun fuel hend => ?_⟩
  · rw [henough enough (Nat.le_refl enough)]
    exact Option.some_ne_none _
  · -- a match that ended under little fuel is the one under enough fuel
    have hle := slotBindings_le (ν := ν) c (Nat.le_max_left fuel enough)
      [⟨[(Constraint.ofType c t).withVariance .invariant], definitive⟩] [u] b
    have hsame := hle.run Search.takeAll [] hend
    rw [← henough _ (Nat.le_max_right fuel enough)]
    exact hsame.symm

/-- Lists of pointers to integers, with the pointer as it is stored. -/
def listOfPointers : Ty := .named 14 [.named Marker.pointer.definition [.nominal 19]]

/-- The parts of the list of pointers. -/
theorem part_listOfPointers {x : Ty} (h : Catalog.Part listOfPointers x) :
    x ∈ [listOfPointers, .pointer (.nominal 19), .nominal 19] := by
  induction h with
  | self => exact List.mem_cons_self
  | arg _ hs hy ih =>
    simp only [List.mem_cons, List.not_mem_nil, or_false] at ih
    rcases ih with rfl | rfl | rfl
    · obtain rfl := List.mem_singleton.mp hs
      obtain rfl := Except.ok.inj hy
      decide
    · obtain rfl := List.mem_singleton.mp hs
      obtain rfl := Except.ok.inj hy
      decide
    · exact absurd hs List.not_mem_nil

open Catalog in
/-- In the base library, lists of pointers to integers are accepted as what they are, and pointers
to integers are refused. -/
theorem listOfPointers_exact :
    (matchInvariant baseLibrary 9 listOfPointers false listOfPointers [] :
        Search.Transcript Empty _ _) = ⟨[], [[]], some (.ok .finished)⟩ ∧
      (matchInvariant baseLibrary 9 listOfPointers false (.pointer (.nominal 19)) [] :
        Search.Transcript Empty _ _) = ⟨[], [], some (.ok .finished)⟩ := by
  have hcheck : baseLibrary.checkSelfInheritance 9 = true := by decide +kernel
  have hself := noSelfInheritance_of_check baseLibrary hcheck
  have hpointer : baseLibrary.Canonical (.pointer (.nominal 19)) := (canonical_nominal rfl).pointer
  have hlist : baseLibrary.Canonical listOfPointers := hpointer.generic 14 rfl rfl
  have hends : ∀ x ∈ [listOfPointers, .pointer (.nominal 19), .nominal 19],
      baseLibrary.AncestorsEnd x ∧ baseLibrary.AncestorsEnd (baseLibrary.openForm x) := by
    intro x hx
    simp only [List.mem_cons, List.not_mem_nil, or_false] at hx
    rcases hx with rfl | rfl | rfl
    all_goals exact ⟨⟨9, _, rfl⟩, ⟨9, _, rfl⟩⟩
  have hopen : ∀ x, Part listOfPointers x → baseLibrary.AncestorsEnd (baseLibrary.openForm x) :=
    fun x hx => (hends x (part_listOfPointers hx)).2
  have hlists : ∀ x, Part listOfPointers x ∨ Part listOfPointers x → baseLibrary.AncestorsEnd x :=
    fun x hx => (hends x (part_listOfPointers (hx.elim id id))).1
  have hpart : Part listOfPointers (.pointer (.nominal 19)) :=
    .arg .self List.mem_cons_self rfl
  have hboth : ∀ x, Part listOfPointers x ∨ Part (.pointer (.nominal 19)) x →
      baseLibrary.AncestorsEnd x := by
    intro x hx
    exact hlists x (.inl (hx.elim id hpart.trans))
  refine ⟨?_, ?_⟩
  · exact (matchInvariant_exact hself hlist hlist rfl hlists hopen false []).2 9 nofun
  · exact (matchInvariant_exact hself hlist hpointer rfl hboth hopen false []).2 9 nofun

end TypeResolution

import TypeResolution.Proofs.Unification.Readings

/-!
# When ambivariance is the union of the two directions

An ambivariant constraint looks for sites in both directions, so one expects it to accept what it
accepts as a covariant or as a contravariant one. It need not (`ambivariant_ne_union`). A covariant
parameter is turned around below a contravariant place but not below an ambivariant one, so a
sequence of strings takes a sequence of objects as a contravariant constraint and refuses it as an
ambivariant one.

The readings stay together if the definition of the type declares its parameters invariant
(`ambivariant_iff_of_invariant`). Then the same arguments are accepted under all three, and it
remains to see which sites and which test of assignability belong to which. In an acyclic hierarchy
there are sites on one side only, unless candidate and type are instances of one definition, and in
that case the candidate's own arguments are the only site.

Everything that the comparison needs of one candidate is gathered first, under one amount of fuel:
both lists of sites, both answers to assignability, the runs (`Survey`). From there on there is no
more fuel in the argument, and it is a comparison of finite lists.
-/

namespace TypeResolution

open Filter

variable {ν : Type} {c : Catalog}

/-! ## Sites in an acyclic hierarchy

Inheriting leads down in the hierarchy, so a site above the candidate says that the candidate is
higher than the type, and one below it that it is lower. The candidate's own arguments are the
exception, since every type inherits itself. -/

/-- The open form of a type has its definition. -/
theorem Catalog.head?_openForm (t : Ty) : (c.openForm t).head? = t.head? := by
  cases t <;> rfl

section Acyclic

variable {rank : DefIndex → Nat} (hc : c.Acyclic rank) {t u : Ty} {d : DefIndex}
  {ks : List Constraint} {ts : List Ty} (h : Expansion c t d ks ts)
include hc h

/-- Sites above are the candidate's own arguments, or the candidate is of a higher level. -/
theorem SiteAbove.own_or_level_lt {site : Site} (hsite : SiteAbove c u d site) :
    (u.head? = some d ∧ site = u.headArgs) ∨ Catalog.level rank t < Catalog.level rank u := by
  obtain ⟨a, ha, hhead, rfl⟩ := hsite
  have hlevel := Catalog.level_eq_of_head? rank (hhead.trans h.head?.symm)
  rcases hc.eq_or_level_lt ha with rfl | hlt
  · exact .inl ⟨hhead, rfl⟩
  · exact .inr (hlevel ▸ hlt)

/-- Sites below are the candidate's own arguments, or the candidate is of a lower level: the open
form of the type gives back the arguments of any instance. -/
theorem SiteBelow.own_or_level_lt (hu : c.Canonical u) {site : Site}
    (hsite : SiteBelow c u t ts site) :
    (u.head? = some d ∧ site = u.headArgs) ∨ Catalog.level rank u < Catalog.level rank t := by
  obtain ⟨o, ho, hhead, hsolve⟩ := hsite
  have hopen := Catalog.level_eq_of_head? rank (c.head?_openForm t)
  rcases hc.eq_or_level_lt ho with rfl | hlt
  · have hud : u.head? = some d := hhead.symm.trans ((c.head?_openForm t).trans h.head?)
    refine .inl ⟨hud, ?_⟩
    obtain ⟨fuel, hinstance⟩ := h.isInstance
    rcases instance_cases h.canonical hinstance with ⟨rfl, n, elem, rfl, rfl⟩ | ⟨-, hform, -⟩
    · obtain ⟨m, x, rfl⟩ : ∃ m x, u = .array m x := by
        cases hu.proper with
        | param hi => exact absurd hi (Nat.not_lt_zero _)
        | named hd _ _ => exact absurd (Option.some.inj hud) hd
        | array _ => exact ⟨_, _, rfl⟩
        | pointer _ => cases hud
        | byRef _ => cases hud
      have hrank := (List.cons.inj (solveSite?_sound hsolve)).1
      rw [Ty.subst_of_isClosed site _ (Catalog.proper_rankEncoding (c := c) 0 n).isClosed] at hrank
      obtain rfl := Ty.rankEncoding_injective hrank
      exact (Option.some.inj ((solveSite?_openArray n x elem).symm.trans hsolve)).symm
    · rw [hform, solveSite?_openInstance c d u.headArgs ts (hu.proper.length_headArgs hud)
        (c.length_of_instantiate hinstance)] at hsolve
      exact (Option.some.inj hsolve).symm
  · rw [hopen, Catalog.level_eq_of_head? rank hhead] at hlt
    exact .inr hlt

end Acyclic

/-- Nothing is assignable to a type unless there is a site above it. -/
theorem exists_siteAbove_of_isAssignable {fuel : Nat} {t u : Ty} {d : DefIndex}
    (ht : t.head? = some d) (h : c.isAssignable fuel t u = some true) :
    ∃ site, SiteAbove c u d site := by
  obtain ⟨a, ha, hhead⟩ := Catalog.exists_inherits_of_isAssignable h
  exact ⟨a.headArgs, a, ha, hhead.trans ht, rfl⟩

/-- Whatever is assignable to a type is of no lower level. -/
theorem level_le_of_isAssignable {rank : DefIndex → Nat} (hc : c.Acyclic rank) {fuel : Nat}
    {target source : Ty} (h : c.isAssignable fuel target source = some true) :
    Catalog.level rank target ≤ Catalog.level rank source := by
  obtain ⟨a, ha, hhead⟩ := Catalog.exists_inherits_of_isAssignable h
  rw [← Catalog.level_eq_of_head? rank hhead]
  exact hc.level_le ha

/-! ## The three readings compared

The ambivariant reading chooses the sites above and below and tests both directions. So where there
are sites on one side only, it remains to see that the test in the other direction does not succeed
for that reason alone: a type that is assignable has a site. -/

/-- What there is to know about the matches of a candidate under the three variances, with fuel that
suffices for all of it. -/
structure Survey (ν : Type) (c : Catalog) (t u : Ty) (d : DefIndex) (ks : List Constraint)
    (ts : List Ty) (definitive : Bool) (b : Bindings) where
  /-- enough fuel -/
  fuel : Nat
  /-- the sites above the candidate -/
  above : List Site
  /-- the sites below the candidate -/
  below : List Site
  /-- whether the candidate is assignable to the type -/
  forth : Bool
  /-- whether the type is assignable to the candidate -/
  back : Bool
  /-- there is fuel for a step -/
  fuel_pos : 0 < fuel
  /-- the sites above are found -/
  sitesAbove_eq : sitesAbove c fuel u d = some above
  /-- the sites below are found -/
  sitesBelow_eq : sitesBelow c fuel u d ks b = some below
  /-- the sites above are what they should be -/
  mem_above : ∀ site, site ∈ above ↔ SiteAbove c u d site
  /-- the sites below are what they should be -/
  mem_below : ∀ site, site ∈ below ↔ SiteBelow c u t ts site
  /-- assignability to the type is decided -/
  forth_eq : c.isAssignable fuel t u = some forth
  /-- assignability to the candidate is decided -/
  back_eq : c.isAssignable fuel u t = some back
  /-- every match comes to its end -/
  ended : ∀ v, (matchVariance c fuel t v definitive u b : Search.Transcript ν _ _).ending ≠ none

/-- With enough fuel a match ends under every variance. -/
theorem eventually_matchVariance_ended (hends : c.HierarchyEnds) (hassign : c.AssignabilityEnds)
    (t u : Ty) (v : Variance) (definitive : Bool) (b : Bindings) :
    ∀ᶠ fuel in atTop,
      (matchVariance c fuel t v definitive u b : Search.Transcript ν _ _).ending ≠ none := by
  obtain ⟨record, hend, hrecord⟩ := slotBindings_ends (ν := ν) hends hassign
    [⟨[(Constraint.ofType c t).withVariance v], definitive⟩] [u] b
  filter_upwards [hrecord] with fuel hrecord
  rw [matchVariance, hrecord]
  exact hend

section Survey

variable {t u : Ty} {d : DefIndex} {ks : List Constraint} {ts : List Ty} {definitive : Bool}
  {b : Bindings} (h : Expansion c t d ks ts) (hu : c.Canonical u)
include h hu

/-- There is enough fuel for a survey. -/
theorem Expansion.nonempty_survey (hends : c.HierarchyEnds) (hassign : c.AssignabilityEnds) :
    Nonempty (Survey ν c t u d ks ts definitive b) := by
  obtain ⟨fuel, hinstance⟩ := h.isInstance
  obtain ⟨e, he⟩ := hu.head?_ne_none
  obtain ⟨above, habove, hmemAbove⟩ := eventually_sitesAbove hends u d
  obtain ⟨below, hbelow, hmemBelow⟩ := eventually_sitesBelow hends h.canonical hinstance he
    (eventually_knownArgs h.length_eq h.describes b)
  obtain ⟨forth, hforth⟩ := hassign.settled t u
  obtain ⟨back, hback⟩ := hassign.settled u t
  -- There are four variances, so this is again a finite maximum.
  have hended : ∀ᶠ fuel in atTop, ∀ v,
      (matchVariance c fuel t v definitive u b : Search.Transcript ν _ _).ending ≠ none := by
    have hall := fun v => eventually_matchVariance_ended (ν := ν) hends hassign t u v definitive b
    filter_upwards [hall .invariant, hall .covariant, hall .contravariant, hall .ambivariant] with
      fuel hinvariant hcovariant hcontravariant hambivariant v
    cases v <;> assumption
  obtain ⟨fuel, ⟨⟨⟨⟨hpos, habove⟩, hbelow⟩, hforth⟩, hback⟩, hended⟩ :=
    ((((((eventually_gt_atTop 0).and habove).and hbelow).and hforth).and hback).and hended).exists
  exact ⟨fuel, above, below, forth, back, hpos, habove, hbelow, hmemAbove, hmemBelow, hforth, hback,
    hended⟩

variable (s : Survey ν c t u d ks ts definitive b)
include s

/-- A match that finds something finds it at a chosen site. -/
theorem Survey.exists_site {v : Variance} (hm : Matches ν c t v definitive u b) :
    ∃ site ∈ chosenSites v s.above s.below,
      (∃ q, q ∈ (siteSolutions c s.fuel v site b ks).items) ∧
        isRelative c s.fuel v t u = some true := by
  rw [h.matches_iff hu.structuralForm s.sitesAbove_eq s.sitesBelow_eq (s.ended v)] at hm
  obtain ⟨r, hr⟩ := List.exists_mem_of_ne_nil _ hm
  obtain ⟨p, hp, hr⟩ := Listing.mem_concat hr
  obtain ⟨site, hsite, rfl⟩ := List.mem_map.mp hp
  exact ⟨site, mem_distinctSites.mp hsite, h.of_mem_siteInstances hr⟩

/-- Under two variances that are the same further down and agree on whether the type is a relative
of the candidate, a match finds no less with more sites behind the others. -/
theorem Survey.matches_of_more_sites {V : Variance → Prop} {v v' : Variance}
    (hV : ∀ w, V w → v.nest w = v'.nest w) (hks : ∀ k ∈ ks, HasVariance V k)
    (hrelative : isRelative c s.fuel v t u = isRelative c s.fuel v' t u)
    (hsites : distinctSites (chosenSites v s.above s.below) <+:
      distinctSites (chosenSites v' s.above s.below))
    (hm : Matches ν c t v definitive u b) : Matches ν c t v' definitive u b := by
  rw [h.matches_iff hu.structuralForm s.sitesAbove_eq s.sitesBelow_eq (s.ended _),
    instancesAt] at hm ⊢
  rw [funext fun site => congrArg (Prod.mk false) (h.siteInstances_eq hV hks hrelative site)] at hm
  exact fun hnil => hm (List.prefix_nil.mp (hnil ▸ Listing.concat_prefix_items hsites _))

/-- Ambivariance keeps what covariance finds, unless it is said further down. -/
theorem Survey.ambivariant_of_covariant (hks : ∀ k ∈ ks, HasVariance (· ≠ .ambivariant) k)
    (hm : Matches ν c t .covariant definitive u b) : Matches ν c t .ambivariant definitive u b := by
  obtain ⟨-, -, -, hforth⟩ := s.exists_site h hu hm
  refine s.matches_of_more_sites h hu (V := (· ≠ .ambivariant)) ?_ hks ?_
    (distinctSites_prefix_append _ _) hm
  · intro w hw
    cases w with
    | ambivariant => exact absurd rfl hw
    | _ => rfl
  · have hassignable : c.isAssignable s.fuel t u = some true := hforth
    rw [hforth, isRelative, hassignable, Fueled.or]

section Invariant

variable (hks : ∀ k ∈ ks, HasVariance (· = .invariant) k)
include hks

/-- Between two variances it matters only which sites they choose and whether they accept the type
as a relative, if everything is invariant further down. -/
theorem Survey.matches_of_invariant {v v' : Variance}
    (hrelative : isRelative c s.fuel v t u = isRelative c s.fuel v' t u)
    (hsites : distinctSites (chosenSites v s.above s.below) <+:
      distinctSites (chosenSites v' s.above s.below))
    (hm : Matches ν c t v definitive u b) : Matches ν c t v' definitive u b := by
  refine s.matches_of_more_sites h hu (V := (· = .invariant)) ?_ hks hrelative hsites hm
  rintro w rfl
  cases v <;> cases v' <;> rfl

/-- The candidate's own arguments are accepted only if the candidate is the type. -/
theorem Survey.eq_of_matches (hud : u.head? = some d) {v : Variance}
    (hown : ∀ site ∈ chosenSites v s.above s.below, site = u.headArgs)
    (hm : Matches ν c t v definitive u b) : u = t := by
  obtain ⟨site, hsite, ⟨q, hq⟩, -⟩ := s.exists_site h hu hm
  obtain rfl := hown site hsite
  obtain ⟨fuel, hinstance⟩ := h.isInstance
  have hlength : u.headArgs.length = ts.length :=
    (hu.proper.length_headArgs hud).trans (c.length_of_instantiate hinstance).symm
  exact h.eq_of_reads hu hud
    (reads_of_mem_siteSolutions_under h.length_eq hks h.describes hlength hq)

/-- Candidates that are instances of the same definition are accepted if they are the type. -/
theorem Survey.ambivariant_iff_of_own (hud : u.head? = some d)
    (hown : ∀ site, site ∈ s.above ∨ site ∈ s.below → site = u.headArgs) :
    Matches ν c t .ambivariant definitive u b ↔
      Matches ν c t .covariant definitive u b ∨ Matches ν c t .contravariant definitive u b := by
  have hchosen : ∀ v, ∀ site ∈ chosenSites v s.above s.below, site = u.headArgs :=
    fun v site hsite => hown site (mem_chosenSites hsite)
  have hmem : u.headArgs ∈ s.above := (s.mem_above _).mpr ⟨u, .refl c u, hud, rfl⟩
  have hambivariant : distinctSites (chosenSites .ambivariant s.above s.below) = [u.headArgs] :=
    distinctSites_eq_singleton (List.mem_append_left _ hmem) (hchosen .ambivariant)
  have hcovariant : distinctSites (chosenSites .covariant s.above s.below) = [u.headArgs] :=
    distinctSites_eq_singleton hmem (hchosen .covariant)
  -- whatever finds something has seen that the candidate is the type, a relative in all directions
  have hequal : ∀ v v', Matches ν c t v definitive u b →
      isRelative c s.fuel v t u = isRelative c s.fuel v' t u := by
    intro v v' hm
    obtain rfl := s.eq_of_matches h hu hks hud (hchosen v) hm
    obtain ⟨fuel, hfuel⟩ := Nat.exists_eq_succ_of_ne_zero (Nat.ne_of_gt s.fuel_pos)
    rw [hfuel, isRelative_self, isRelative_self]
  constructor
  · intro hm
    refine .inl (s.matches_of_invariant h hu hks (hequal _ _ hm) ?_ hm)
    rw [hambivariant, hcovariant]
  · rintro (hm | hm)
    all_goals
      refine s.matches_of_invariant h hu hks (hequal _ _ hm) ?_ hm
      rw [hambivariant]
      exact distinctSites_prefix_singleton (hchosen _)

/-- Without a site above, ambivariance and contravariance are the same, and nothing is found under
covariance. -/
theorem Survey.ambivariant_iff_of_above_eq_nil (habove : s.above = []) :
    Matches ν c t .ambivariant definitive u b ↔
      Matches ν c t .covariant definitive u b ∨ Matches ν c t .contravariant definitive u b := by
  have hforth : s.forth ≠ true := by
    intro htrue
    obtain ⟨site, hsite⟩ := exists_siteAbove_of_isAssignable h.head? (htrue ▸ s.forth_eq)
    rw [← s.mem_above, habove] at hsite
    exact List.not_mem_nil hsite
  have hrelative :
      isRelative c s.fuel .ambivariant t u = isRelative c s.fuel .contravariant t u := by
    rw [isRelative.eq_def, s.forth_eq, Bool.eq_false_of_not_eq_true hforth]
    rfl
  have hsites : chosenSites .ambivariant s.above s.below =
      chosenSites .contravariant s.above s.below := by
    rw [chosenSites, habove]
    rfl
  have hcovariant : ¬ Matches ν c t .covariant definitive u b := by
    intro hm
    obtain ⟨site, hsite, -⟩ := s.exists_site h hu hm
    rw [chosenSites, habove] at hsite
    exact List.not_mem_nil hsite
  rw [or_iff_right hcovariant]
  exact ⟨s.matches_of_invariant h hu hks hrelative (hsites ▸ List.prefix_rfl),
    s.matches_of_invariant h hu hks hrelative.symm (hsites ▸ List.prefix_rfl)⟩

/-- Without a site below, ambivariance and covariance are the same if the candidate is of a higher
level, and nothing is found under contravariance. -/
theorem Survey.ambivariant_iff_of_below_eq_nil (hbelow : s.below = []) (hback : s.back ≠ true) :
    Matches ν c t .ambivariant definitive u b ↔
      Matches ν c t .covariant definitive u b ∨ Matches ν c t .contravariant definitive u b := by
  have hrelative : isRelative c s.fuel .ambivariant t u = isRelative c s.fuel .covariant t u := by
    rw [isRelative, isRelative, s.forth_eq, s.back_eq, Bool.eq_false_of_not_eq_true hback]
    cases s.forth <;> rfl
  have hsites : chosenSites .ambivariant s.above s.below =
      chosenSites .covariant s.above s.below := by
    rw [hbelow]
    exact List.append_nil s.above
  have hcontravariant : ¬ Matches ν c t .contravariant definitive u b := by
    intro hm
    obtain ⟨site, hsite, -⟩ := s.exists_site h hu hm
    rw [chosenSites, hbelow] at hsite
    exact List.not_mem_nil hsite
  rw [or_iff_left hcontravariant]
  exact ⟨s.matches_of_invariant h hu hks hrelative (hsites ▸ List.prefix_rfl),
    s.matches_of_invariant h hu hks hrelative.symm (hsites ▸ List.prefix_rfl)⟩

/-- In an acyclic hierarchy one of these three cases holds. -/
theorem Survey.ambivariant_iff {rank : DefIndex → Nat} (hc : c.Acyclic rank) :
    Matches ν c t .ambivariant definitive u b ↔
      Matches ν c t .covariant definitive u b ∨ Matches ν c t .contravariant definitive u b := by
  have habove : ∀ site ∈ s.above, (u.head? = some d ∧ site = u.headArgs) ∨
      Catalog.level rank t < Catalog.level rank u :=
    fun site hsite => ((s.mem_above site).mp hsite).own_or_level_lt hc h
  have hbelow : ∀ site ∈ s.below, (u.head? = some d ∧ site = u.headArgs) ∨
      Catalog.level rank u < Catalog.level rank t :=
    fun site hsite => ((s.mem_below site).mp hsite).own_or_level_lt hc h hu
  -- Candidate and type are of one definition, and so of one level, or they are not, and then all
  -- sites are on the side that the levels say.
  by_cases hud : u.head? = some d
  · have hlevel := Catalog.level_eq_of_head? rank (hud.trans h.head?.symm)
    refine s.ambivariant_iff_of_own h hu hks hud ?_
    rintro site (hsite | hsite)
    · exact ((habove site hsite).resolve_right (by omega)).2
    · exact ((hbelow site hsite).resolve_right (by omega)).2
  · rcases hnil : s.above with _ | ⟨site, rest⟩
    · exact s.ambivariant_iff_of_above_eq_nil h hu hks hnil
    · have hlt := (habove site (hnil ▸ List.mem_cons_self)).resolve_left fun hown => hud hown.1
      refine s.ambivariant_iff_of_below_eq_nil h hu hks ?_ fun hback => ?_
      · refine List.eq_nil_iff_forall_not_mem.mpr fun site hsite => ?_
        have := (hbelow site hsite).resolve_left fun hown => hud hown.1
        omega
      · have hle := level_le_of_isAssignable hc (hback ▸ s.back_eq)
        omega

end Invariant

end Survey

/-- **Ambivariance and its two directions.** In a catalog in which the walks over ancestors and the
questions of assignability come to their ends, match a canonical candidate `u` with a slot that
holds what a canonical type `t` is expanded to, where `t` mentions no kind marker. Under every
variance the match comes to its end. What the slot accepts as a covariant constraint it accepts as
an ambivariant one, unless the definition of `t` declares a parameter ambivariant. If the hierarchy
is acyclic and the definition of `t` declares its parameters invariant, then the slot accepts as an
ambivariant constraint what it accepts as a covariant or as a contravariant one, and nothing else.
-/
theorem ambivariant_iff_of_invariant (hends : c.HierarchyEnds) (hassign : c.AssignabilityEnds)
    {t u : Ty} (ht : c.Canonical t) (hu : c.Canonical u) (hkind : t.mentionsKindMarker = false)
    (definitive : Bool) (b : Bindings) :
    (∀ v, ∃ fuel,
        (matchVariance c fuel t v definitive u b : Search.Transcript ν _ _).ending ≠ none) ∧
      ((∀ e us, t = .named e us → ∀ p ∈ (c.definition e).params, p.variance ≠ .ambivariant) →
        Matches ν c t .covariant definitive u b → Matches ν c t .ambivariant definitive u b) ∧
      ∀ rank, c.Acyclic rank →
        (∀ e us, t = .named e us → ∀ p ∈ (c.definition e).params, p.variance = .invariant) →
        (Matches ν c t .ambivariant definitive u b ↔
          Matches ν c t .covariant definitive u b ∨
            Matches ν c t .contravariant definitive u b) := by
  obtain ⟨d, ks, ts, h⟩ := exists_expansion ht hkind
  obtain ⟨s : Survey ν c t u d ks ts definitive b⟩ := h.nonempty_survey (ν := ν) hu hends hassign
  refine ⟨fun v => ⟨s.fuel, s.ended v⟩, fun hparams => ?_, fun rank hc hparams => ?_⟩
  · exact s.ambivariant_of_covariant h hu (h.hasVariance (by decide) ht.isClosed hparams)
  · exact s.ambivariant_iff h hu (h.hasVariance (V := (· = .invariant)) rfl ht.isClosed hparams) hc

/-! ## Where the readings part

A run that has ended settles whether there is a match. So a counterexample is found by running it
once. -/

/-- A run that delivers something is a match. -/
theorem matches_of_run (fuel : Nat) {t u : Ty} {v : Variance} {definitive : Bool} {b : Bindings}
    (hend : (matchVariance c fuel t v definitive u b : Search.Transcript ν _ _).ending =
      some (.ok .finished))
    (hitems :
      (matchVariance c fuel t v definitive u b : Search.Transcript ν _ _).items.isEmpty = false) :
    Matches ν c t v definitive u b :=
  ⟨fuel, hend ▸ Option.some_ne_none _, List.isEmpty_eq_false_iff.mp hitems⟩

/-- A run that delivers nothing is none. -/
theorem not_matches_of_run (fuel : Nat) {t u : Ty} {v : Variance} {definitive : Bool} {b : Bindings}
    (hend : (matchVariance c fuel t v definitive u b : Search.Transcript ν _ _).ending =
      some (.ok .finished))
    (hitems :
      (matchVariance c fuel t v definitive u b : Search.Transcript ν _ _).items.isEmpty = true) :
    ¬ Matches ν c t v definitive u b := by
  rw [matches_iff (hend ▸ Option.some_ne_none _)]
  exact fun h => h (List.isEmpty_iff.mp hitems)

section BaseLibrary

open Catalog

/-- In the base library lists of strings are accepted where an ambivariant `IList<string>` is asked
for, because they are where a covariant one is, and so are sequences of strings, because they are
where a contravariant one is. Lists of objects are refused in both directions. Lists of strings are
also accepted where an ambivariant sequence of strings is asked for, although sequences are
covariant. -/
theorem baseLibrary_lists_in_both_directions :
    Matches Empty baseLibrary (.named 12 [.nominal 18]) .ambivariant false
        (.named 14 [.nominal 18]) [] ∧
      Matches Empty baseLibrary (.named 12 [.nominal 18]) .ambivariant false
        (.named 11 [.nominal 18]) [] ∧
      ¬ Matches Empty baseLibrary (.named 12 [.nominal 18]) .ambivariant false
        (.named 14 [.nominal 8]) [] ∧
      Matches Empty baseLibrary (.named 11 [.nominal 18]) .ambivariant false
        (.named 14 [.nominal 18]) [] := by
  have hends := baseLibrary_acyclic.hierarchyEnds
  have hassign := baseLibrary_flat.assignabilityEnds hends
  have hstring : baseLibrary.Canonical (.nominal 18) := canonical_nominal rfl
  have hobject : baseLibrary.Canonical (.nominal 8) := canonical_nominal rfl
  have hasked : baseLibrary.Canonical (.named 12 [.nominal 18]) := hstring.generic 12 rfl rfl
  have hstrings : baseLibrary.Canonical (.named 14 [.nominal 18]) := hstring.generic 14 rfl rfl
  have hsequence : baseLibrary.Canonical (.named 11 [.nominal 18]) := hstring.generic 11 rfl rfl
  have hobjects : baseLibrary.Canonical (.named 14 [.nominal 8]) := hobject.generic 14 rfl rfl
  have hinvariant : ∀ e us, Ty.named 12 [.nominal 18] = .named e us →
      ∀ p ∈ (baseLibrary.definition e).params, p.variance = .invariant := by
    rintro e us h
    obtain ⟨rfl, -⟩ := Ty.named.inj h
    decide
  have hcovariant : ∀ e us, Ty.named 11 [.nominal 18] = .named e us →
      ∀ p ∈ (baseLibrary.definition e).params, p.variance ≠ .ambivariant := by
    rintro e us h
    obtain ⟨rfl, -⟩ := Ty.named.inj h
    decide
  refine ⟨?_, ?_, ?_, ?_⟩
  · rw [(ambivariant_iff_of_invariant hends hassign hasked hstrings rfl false []).2.2 _
      baseLibrary_acyclic hinvariant]
    exact .inl (matches_of_run 9 rfl rfl)
  · rw [(ambivariant_iff_of_invariant hends hassign hasked hsequence rfl false []).2.2 _
      baseLibrary_acyclic hinvariant]
    exact .inr (matches_of_run 9 rfl rfl)
  · rw [(ambivariant_iff_of_invariant hends hassign hasked hobjects rfl false []).2.2 _
      baseLibrary_acyclic hinvariant, not_or]
    exact ⟨not_matches_of_run 9 rfl rfl, not_matches_of_run 9 rfl rfl⟩
  · exact (ambivariant_iff_of_invariant hends hassign hsequence hstrings rfl false []).2.1
      hcovariant
      (matches_of_run 9 rfl rfl)

end BaseLibrary

section Mutual

open Catalog

/-- Two definitions that inherit from each other: what a source of anything holds is cells of
pointers to objects, and a cell of anything is a source of strings. -/
def mutualDefs : List Definition :=
  let object : DefIndex := 8
  let string : DefIndex := 9
  let source : DefIndex := 10
  let cell : DefIndex := 11
  [ { name := "object" },
    { name := "string", base := some (.nominal object) },
    { name := "ISource`1", kind := .interfaceType,
      params := [{ name := "T", variance := .covariant }],
      interfaces := [.named cell [.pointer (.nominal object)]] },
    { name := "ICell`1", kind := .interfaceType, params := [{ name := "T" }],
      interfaces := [.named source [.nominal string]] } ]

/-- A catalog with a circle in its hierarchy. -/
def mutualLibrary : Catalog := ofDefs mutualDefs

/-- The walks end although they come back to where they were. -/
theorem mutualLibrary_hierarchyEnds : mutualLibrary.HierarchyEnds := by
  intro t
  let declared : List Ty :=
    [.nominal 0, .nominal 8, .named 10 [.nominal 9], .named 11 [.pointer (.nominal 8)]]
  have hdeclared : ∀ d, ∀ s ∈ mutualLibrary.declared d, s ∈ declared :=
    mutualLibrary.forall_declared (by decide)
  have hclosed : ∀ s ∈ declared, s.isClosed = true := by decide
  -- There are circles among the declared types, but these are closed, so they are all there is to
  -- find above any type.
  have hcontained : mutualLibrary.SelfContained (t :: declared) := by
    intro s _ a hstep
    rcases step_cases hstep with ⟨d, ts, r, -, hr, rfl⟩ | ⟨n, elem, -, hbase | ⟨-, r, hr, -⟩⟩
    · have hmem := hdeclared d r hr
      rw [Ty.subst_of_isClosed ts r (hclosed r hmem)]
      exact List.mem_cons_of_mem t hmem
    · cases hbase
    · cases hr
  exact hcontained.ancestorsEnd List.mem_cons_self

/-- All questions in the mutual library are answered. -/
theorem mutualLibrary_assignabilityEnds : mutualLibrary.AssignabilityEnds :=
  assignabilityEnds_of_covariant mutualLibrary_hierarchyEnds
    (mutualLibrary.forall_params (by decide))

/-- **Ambivariance is not the union of its two directions.** In the base library a sequence of
objects is accepted where a contravariant sequence of strings is asked for, and refused where an
ambivariant one is: sequences declare their parameter covariant. Nor is invariance enough when
definitions inherit from each other: an ambivariant cell of pointers then accepts a source of
objects, which it does not accept in either direction. -/
theorem ambivariant_ne_union :
    (baseLibrary.HierarchyEnds ∧ baseLibrary.AssignabilityEnds ∧
      baseLibrary.Canonical (.named 11 [.nominal 18]) ∧
      baseLibrary.Canonical (.named 11 [.nominal 8]) ∧
      (Ty.named 11 [.nominal 18]).mentionsKindMarker = false ∧
      Matches Empty baseLibrary (.named 11 [.nominal 18]) .contravariant false
        (.named 11 [.nominal 8]) [] ∧
      ¬ Matches Empty baseLibrary (.named 11 [.nominal 18]) .ambivariant false
        (.named 11 [.nominal 8]) []) ∧
    (mutualLibrary.HierarchyEnds ∧ mutualLibrary.AssignabilityEnds ∧
      mutualLibrary.Canonical (.named 11 [(Ty.pointer (.nominal 8)).nominalForm]) ∧
      mutualLibrary.Canonical (.named 10 [.nominal 8]) ∧
      (Ty.named 11 [(Ty.pointer (.nominal 8)).nominalForm]).mentionsKindMarker = false ∧
      (∀ p ∈ (mutualLibrary.definition 11).params, p.variance = .invariant) ∧
      Matches Empty mutualLibrary (.named 11 [(Ty.pointer (.nominal 8)).nominalForm]) .ambivariant
        false (.named 10 [.nominal 8]) [] ∧
      ¬ Matches Empty mutualLibrary (.named 11 [(Ty.pointer (.nominal 8)).nominalForm]) .covariant
        false (.named 10 [.nominal 8]) [] ∧
      ¬ Matches Empty mutualLibrary (.named 11 [(Ty.pointer (.nominal 8)).nominalForm])
        .contravariant false (.named 10 [.nominal 8]) []) := by
  have hends := baseLibrary_acyclic.hierarchyEnds
  have hassign := baseLibrary_flat.assignabilityEnds hends
  have hstring : baseLibrary.Canonical (.nominal 18) := canonical_nominal rfl
  have hobject : baseLibrary.Canonical (.nominal 8) := canonical_nominal rfl
  have hheld : mutualLibrary.Canonical (.nominal 8) := canonical_nominal rfl
  refine ⟨⟨hends, hassign, hstring.generic 11 rfl rfl, hobject.generic 11 rfl rfl, rfl, ?_, ?_⟩,
    mutualLibrary_hierarchyEnds, mutualLibrary_assignabilityEnds, hheld.pointer.generic 11 rfl rfl,
    hheld.generic 10 rfl rfl, rfl, by decide, ?_, ?_, ?_⟩
  · exact matches_of_run 9 rfl rfl
  · exact not_matches_of_run 9 rfl rfl
  · exact matches_of_run 9 rfl rfl
  · exact not_matches_of_run 9 rfl rfl
  · exact not_matches_of_run 9 rfl rfl

end Mutual

end TypeResolution

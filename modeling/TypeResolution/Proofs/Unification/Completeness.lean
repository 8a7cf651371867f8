import TypeResolution.Proofs.Catalog.Questions
import TypeResolution.Proofs.Ty.Matching
import TypeResolution.Proofs.Unification.Acceptance
import TypeResolution.Proofs.Unification.Soundness

/-!
# Variant constraints accept descendants and ancestors

A slot that holds the description of a type `t` as a covariant constraint accepts every candidate
that has `t` among its ancestors, as a contravariant one every candidate among the ancestors of `t`,
and as an ambivariant one both (`matchVariance_complete`). For a non-generic nominal `t` nothing
else is accepted.

The covariant direction is short: the arguments of `t` are a site above the candidate. For the
contravariant direction the arguments of `t` have to be found again. The candidate is inherited by
the definition of `t` over its own parameters, as an open type; matching this with the candidate
gives back those arguments of `t` that the open type mentions, and the others are taken from the
description (`exists_siteBelow`).

All three directions come from one fact about the description (`matchVariance_decides`): there is
nothing to find without a site, and something with a site whose arguments read as those of `t`,
provided that `t` is a relative of the candidate. So for each direction such a site has to be
exhibited. The converses for non-generic types use the first half, because there a site says which
type was inherited.
-/

namespace TypeResolution

open Filter

/-! ## Matching under a variance

Whether a slot accepts a candidate is a question about all fuel that is large enough. Since more
fuel does not change a complete run, one run is enough to know. -/

/-- The record of matching a candidate with a slot that holds what a type is expanded to, with
another variance in place of its own. -/
def matchVariance {ν : Type} (c : Catalog) (fuel : Nat) (t : Ty) (v : Variance) (definitive : Bool)
    (u : Ty) (b : Bindings) : Search.Transcript ν ResolutionError Bindings :=
  (slotBindings c fuel [⟨[(Constraint.ofType c t).withVariance v], definitive⟩] [u] b).run
    Search.takeAll

/-- The match comes to its end and has found something. -/
def Matches (ν : Type) (c : Catalog) (t : Ty) (v : Variance) (definitive : Bool) (u : Ty)
    (b : Bindings) : Prop :=
  ∃ fuel, (matchVariance c fuel t v definitive u b : Search.Transcript ν _ _).ending ≠ none ∧
    (matchVariance c fuel t v definitive u b : Search.Transcript ν _ _).items ≠ []

variable {ν : Type} {c : Catalog}

/-- A match that came to its end is the same under more fuel. -/
theorem matchVariance_eq_of_le {t u : Ty} {v : Variance} {definitive : Bool} {b : Bindings}
    {n m : Nat}
    (h : n ≤ m)
    (hend : (matchVariance c n t v definitive u b : Search.Transcript ν _ _).ending ≠ none) :
    (matchVariance c m t v definitive u b : Search.Transcript ν _ _) =
      matchVariance c n t v definitive u b :=
  (slotBindings_le (ν := ν) c h [⟨[(Constraint.ofType c t).withVariance v], definitive⟩] [u] b).run
    Search.takeAll [] hend

/-- Whether something is found is seen under any fuel that lets the match come to its end. -/
theorem matches_iff {t u : Ty} {v : Variance} {definitive : Bool} {b : Bindings} {n : Nat}
    (hend : (matchVariance c n t v definitive u b : Search.Transcript ν _ _).ending ≠ none) :
    Matches ν c t v definitive u b ↔
      (matchVariance c n t v definitive u b : Search.Transcript ν _ _).items ≠ [] := by
  refine ⟨?_, fun h => ⟨n, hend, h⟩⟩
  rintro ⟨m, hend', h⟩
  have hn := matchVariance_eq_of_le (Nat.le_max_left n m) hend
  have hm := matchVariance_eq_of_le (Nat.le_max_right n m) hend'
  rw [← hn, hm]
  exact h

/-- The type `t` is an instance of `d` over `ts`, and it is expanded to a constraint on `d` whose
sub-constraints `ks` describe `ts`. -/
structure Expansion (c : Catalog) (t : Ty) (d : DefIndex) (ks : List Constraint) (ts : List Ty) :
    Prop where
  /-- the constraint is on `d` with these sub-constraints -/
  eq_instanceOf : ∃ w, Constraint.ofType c t = .instanceOf d w ks
  /-- `d` is no kind marker -/
  notKind : Constraint.isKindMarker d = false
  /-- there is a sub-constraint for each argument -/
  length_eq : ks.length = ts.length
  /-- the sub-constraints describe the arguments -/
  describes : ∀ p ∈ ks.zip ts, Describes c p.1 p.2
  /-- the type is the instance -/
  isInstance : c.HasInstance d ts t

/-- A canonical type that mentions no kind marker is expanded to a constraint on its definition. -/
theorem exists_expansion {t : Ty} (ht : c.Canonical t) (hkind : t.mentionsKindMarker = false) :
    ∃ d ks ts, Expansion c t d ks ts := by
  have hdescribes := (describes_ofType ht hkind).1
  generalize hk : Constraint.ofType c t = k at hdescribes
  obtain ⟨hnot, hlength, hargs, hinstance⟩ := hdescribes
  exact ⟨_, _, _, ⟨_, hk⟩, hnot, hlength, hargs, _, hinstance⟩

/-- The arguments of an expansion are canonical. -/
theorem Expansion.canonical {t : Ty} {d : DefIndex} {ks : List Constraint} {ts : List Ty}
    (h : Expansion c t d ks ts) : ∀ a ∈ ts, c.Canonical a :=
  forall_mem_of_zip h.length_eq fun p hp => (h.describes p hp).canonical

/-- The type is an instance of the definition that its expansion asks for. -/
theorem Expansion.head? {t : Ty} {d : DefIndex} {ks : List Constraint} {ts : List Ty}
    (h : Expansion c t d ks ts) : t.head? = some d := by
  obtain ⟨fuel, hinstance⟩ := h.isInstance
  exact c.head?_of_instantiate hinstance

/-- The arguments that the type holds are read as those of its expansion. -/
theorem Expansion.reads {t : Ty} {d : DefIndex} {ks : List Constraint} {ts : List Ty}
    (h : Expansion c t d ks ts) : t.headArgs.map Ty.structuralForm = ts.map .ok := by
  obtain ⟨fuel, hinstance⟩ := h.isInstance
  exact Catalog.headArgs_of_instantiate h.canonical hinstance

/-- The record of a match is the listing of what the instance constraint finds. -/
theorem matchVariance_eq (fuel : Nat) {t : Ty} {d : DefIndex} {ks : List Constraint} {ts : List Ty}
    (h : Expansion c t d ks ts) (v : Variance) (definitive : Bool) (u : Ty) (b : Bindings) :
    (matchVariance c fuel t v definitive u b : Search.Transcript ν _ _) =
      let found := (((argSolutions c fuel .ambivariant u b (.instanceOf d v ks)).map
        (·.1)).each false .one).each definitive .one
      ⟨[], found.items, found.ending⟩ := by
  obtain ⟨w, hk⟩ := h.eq_instanceOf
  rw [matchVariance, (silent_slotBindings c fuel _ _ b).run_takeAll, listing_slotBindings, hk]
  rfl

/-- **With enough fuel a match decides.** It comes to its end without an error. It has found nothing
if there is no site, and it has found something if a site reads as the arguments of `t`, which is a
relative of the candidate in the direction of the variance. -/
theorem matchVariance_decides (hc : c.WellDeclared) (hends : c.HierarchyEnds)
    (hassign : c.AssignabilityEnds) {t u : Ty} {d : DefIndex} {ks : List Constraint} {ts : List Ty}
    (h : Expansion c t d ks ts) (hu : c.Canonical u) (v : Variance) (definitive : Bool)
    (b : Bindings) :
    (∃ fuel, (matchVariance c fuel t v definitive u b : Search.Transcript ν _ _).ending =
        some (.ok .finished)) ∧
      (Matches ν c t v definitive u b → ∃ site, UsedSite c v u d t ts site) ∧
      ∀ site, UsedSite c v u d t ts site → site.map Ty.structuralForm = ts.map .ok →
        (∀ᶠ fuel in atTop, isRelative c fuel v t u = some true) →
          Matches ν c t v definitive u b := by
  obtain ⟨fuel, hinstance⟩ := h.isInstance
  obtain ⟨Q, hsite, hfinds, hdecides⟩ :=
    eventually_decides_instance hc hends hassign .ambivariant v b h.notKind h.length_eq h.describes
      hinstance
      (fun p hp => (h.describes p hp).eventually_decides hc hends hassign b _) hu.proper
      hu.structuralForm
  rw [nest_ambivariant] at hsite hfinds
  obtain ⟨enough, hdecides⟩ := hdecides.exists
  -- The slot is a conjunction of one constraint, so what the constraint decides is passed on twice.
  have hfound := ((hdecides.map Prod.fst).each false (Listing.decides_one _)).each definitive
    (Listing.decides_one _)
  have hrun := matchVariance_eq (ν := ν) enough h v definitive u b
  have hend : (matchVariance c enough t v definitive u b : Search.Transcript ν _ _).ending =
      some (.ok .finished) := by
    rw [hrun]
    dsimp only
    rw [Listing.ending, hfound.complete]
  have hiff : Matches ν c t v definitive u b ↔ Q := by
    have hended : (matchVariance c enough t v definitive u b : Search.Transcript ν _ _).ending ≠
        none := by rw [hend]; exact Option.some_ne_none _
    rw [matches_iff hended, hrun, hfound.items_ne_nil_iff, and_true, and_true]
  exact ⟨⟨enough, hend⟩, fun h => hsite (hiff.mp h), fun site hused hread hrel =>
    hiff.mpr (hfinds site hused hread hrel)⟩

/-! ## Sites for relatives

Above the candidate, `t` itself is one of the ancestors, and its arguments are a site. Below the
candidate, `t` inherits it. The arguments of `t` are then a solution of the open ancestor, and the
least solution that is found agrees with them wherever it knows something. -/

/-- Under ambivariance a relative in either direction is one. -/
theorem eventually_isRelative_ambivariant (hassign : c.AssignabilityEnds) {t u : Ty}
    (h : c.Inherits u t ∨ c.Inherits t u) :
    ∀ᶠ fuel in atTop, isRelative c fuel .ambivariant t u = some true := by
  obtain ⟨forth, hforth⟩ := hassign.settled t u
  obtain ⟨back, hback⟩ := hassign.settled u t
  filter_upwards [hforth, hback] with fuel hforth hback
  have htrue : (forth || back) = true := by
    rw [Bool.or_eq_true]
    exact h.imp (Catalog.isAssignable_of_inherits hforth) (Catalog.isAssignable_of_inherits hback)
  rw [isRelative, hforth, hback]
  cases forth with
  | true => rfl
  | false => rw [Fueled.or, ← htrue, Bool.false_or]

/-- An ancestor's arguments are a site above, where they read as what they are. -/
theorem exists_siteAbove {t u : Ty} {d : DefIndex} {ks : List Constraint} {ts : List Ty}
    (h : Expansion c t d ks ts) (hu : c.Inherits u t) :
    ∃ site, SiteAbove c u d site ∧ site.map Ty.structuralForm = ts.map .ok :=
  ⟨t.headArgs, ⟨t, hu, h.head?, rfl⟩, h.reads⟩

/-- What fills the open parameters of a partial assignment reads as the arguments that the
assignment is filled by, if these and the fillings read alike. -/
theorem reads_of_filledBy {σ : Assignment} {θ ts : List Ty} (hσ : σ.FilledBy θ)
    (hθ : θ.map Ty.structuralForm = ts.map .ok) (hts : ∀ a ∈ ts, a.structuralForm = .ok a) :
    ((σ.zip ts).map fun p => p.1.getD p.2).map Ty.structuralForm = ts.map .ok := by
  have hlength : θ.length = ts.length := by
    have h := congrArg List.length hθ
    rwa [List.length_map, List.length_map] at h
  have hσlength : σ.length = ts.length := hσ.length_eq.symm.trans hlength
  -- Entry by entry: what is known was found in the candidate and agrees with the filling, and what
  -- is not known is taken from the description.
  refine List.ext_getElem (by simp [hσlength]) fun i h₁ h₂ => ?_
  have hi : i < ts.length := by simpa using h₂
  have hiσ : i < σ.length := hσlength.symm ▸ hi
  simp only [List.getElem_map, List.getElem_zip]
  rcases hx : σ[i] with _ | x
  · exact hts _ (List.getElem_mem hi)
  · have hknown := hσ.agrees i x (by rw [List.getElem?_eq_getElem hiσ, hx])
    have hread := congrArg (fun l => l[i]?) hθ
    simp only [List.getElem?_map, hknown, List.getElem?_eq_getElem hi, Option.map_some,
      Option.some.injEq] at hread
    exact hread

/-- **The arguments of a type are found again below its ancestors**: matching the open ancestor with
the candidate gives back those that it mentions. -/
theorem exists_siteBelow (hc : c.WellDeclared) (hbare : c.NoBareParam) {t u : Ty} {d : DefIndex}
    {ks : List Constraint} {ts : List Ty} (h : Expansion c t d ks ts) (ht : c.Canonical t)
    (hu : c.Inherits t u) :
    ∃ site, SiteBelow c u t ts site ∧ site.map Ty.structuralForm = ts.map .ok := by
  obtain ⟨o, ho, hhead, hargs, hproper⟩ := Catalog.exists_openAncestor hc hbare ht.proper hu
  have hlength : t.headArgs.length = ts.length := by
    have hreads := congrArg List.length h.reads
    rwa [List.length_map, List.length_map] at hreads
  have hparams : Ty.allParamsBelow t.headArgs.length o.headArgs = true := by
    rw [Ty.allParamsBelow_eq_all, List.all_eq_true]
    exact fun s hs => (hproper.headArgs s hs).paramsBelow
  obtain ⟨σ, hσ, hfilled⟩ :=
    Ty.assignAll?_complete o.headArgs (Assignment.filledBy_replicate t.headArgs) hargs hparams
  rw [hlength] at hσ
  refine ⟨_, ⟨o, ho, hhead, ?_⟩,
    reads_of_filledBy hfilled h.reads fun a ha => (h.canonical a ha).structuralForm⟩
  rw [solveSite?_known, if_pos (by rw [← hargs, List.length_map]), hσ, Option.map_some]

/-! ## Non-generic types

An instance of a definition without parameters is determined by the definition. So a site of it says
that this one type was inherited. -/

/-- A site above a candidate for a non-generic type is the type among the ancestors. -/
theorem inherits_of_siteAbove (hc : c.WellDeclared) {d : DefIndex} (harity : c.arity d = 0) {u : Ty}
    (hu : c.Proper 0 u) {site : Site} (h : SiteAbove c u d site) : c.Inherits u (.nominal d) := by
  obtain ⟨a, ha, hhead, -⟩ := h
  have hproper := ha.proper hc hu
  have hnil := List.eq_nil_of_length_eq_zero ((hproper.length_headArgs hhead).trans harity)
  cases a with
  | named e us =>
    obtain rfl := Option.some.inj hhead
    obtain rfl : us = [] := hnil
    exact ha
  | param i => cases hhead
  | _ => cases hnil

/-- A site below a candidate for a non-generic type is the candidate among the type's ancestors:
there are no parameters to fill. -/
theorem inherits_of_siteBelow (hc : c.WellDeclared) {d : DefIndex}
    (hwell : c.wellFormed 0 (.nominal d) = true) {u : Ty} (hu : c.Canonical u) {site : Site}
    (h : SiteBelow c u (.nominal d) [] site) : c.Inherits (.nominal d) u := by
  obtain ⟨o, ho, hhead, hsolve⟩ := h
  have harity : c.arity d = 0 := by
    simp only [Ty.nominal, Catalog.wellFormed, Bool.and_eq_true, decide_eq_true_eq] at hwell
    exact hwell.1.2.symm
  have hopen : c.openForm (.nominal d) = .nominal d := by
    show c.openInstance d = _
    rw [Catalog.openInstance, harity]
    rfl
  rw [hopen] at ho
  have howell := ho.wellFormed hc hwell
  have hoproper := Catalog.proper_of_wellFormed howell
  -- with no parameters to fill, matching compares the arguments
  have hargs : o.headArgs = u.headArgs := by
    have hsubst := solveSite?_sound hsolve
    rw [← hsubst]
    refine ((List.map_congr_left fun s hs => ?_).trans (List.map_id _)).symm
    exact Ty.subst_of_isClosed site s (hoproper.headArgs s hs).isClosed
  obtain ⟨e, he⟩ := hu.head?_ne_none
  have hsame := Ty.eq_of_headArgs (Catalog.structuralForm_of_wellFormed howell) hu.structuralForm
    (hhead.trans he) he hargs
  exact hsame ▸ ho

/-- A non-generic nominal type that is canonical and no kind marker has no stand-in in it. -/
theorem wellFormed_nominal {d : DefIndex} (h : c.Canonical (.nominal d))
    (hkind : (Ty.nominal d).mentionsKindMarker = false) : c.wellFormed 0 (.nominal d) = true := by
  have harity : c.arity d = 0 := (h.proper.length_headArgs rfl).symm
  have hmarker : Marker.ofDefinition? d = none := by
    rcases hm : Marker.ofDefinition? d with _ | m
    · rfl
    · -- the stand-ins of structural types take arguments
      obtain rfl := Marker.eq_definition hm
      rw [c.arity_definition] at harity
      cases m with
      | valueType => cases hkind
      | referenceType => cases hkind
      | _ => cases harity
  rw [Ty.nominal, Catalog.wellFormed, hmarker, harity]
  rfl

/-! ## Completeness

The three directions are put together, with termination. What a run decides does not depend on the
flags of the slot, nor on what is bound. -/

/-- **Variant constraints are complete.** In a catalog that is declared well, inherits from no bare
parameter, and in which the walks over ancestors and the questions of assignability come to their
ends, match a canonical candidate `u` with a slot that holds what a canonical type `t` is expanded
to, where `t` mentions no kind marker. Under every variance the match comes to its end without an
error. As a covariant constraint the slot accepts `u` if `t` is an ancestor of `u`; as a
contravariant one if `u` is an ancestor of `t`; as an ambivariant one in both cases. If `t` is
nominal and not generic, then it accepts `u` in these cases only. -/
theorem matchVariance_complete (hc : c.WellDeclared) (hbare : c.NoBareParam)
    (hends : c.HierarchyEnds) (hassign : c.AssignabilityEnds) {t u : Ty} (ht : c.Canonical t)
    (hu : c.Canonical u) (hkind : t.mentionsKindMarker = false) (definitive : Bool) (b : Bindings) :
    (∀ v, ∃ fuel, (matchVariance c fuel t v definitive u b : Search.Transcript ν _ _).ending =
        some (.ok .finished)) ∧
      (c.HasAncestor u t → Matches ν c t .covariant definitive u b) ∧
      (c.HasAncestor t u → Matches ν c t .contravariant definitive u b) ∧
      (c.HasAncestor u t ∨ c.HasAncestor t u → Matches ν c t .ambivariant definitive u b) ∧
      ∀ d, t = .nominal d →
        (Matches ν c t .covariant definitive u b ↔ c.HasAncestor u t) ∧
        (Matches ν c t .contravariant definitive u b ↔ c.HasAncestor t u) ∧
        (Matches ν c t .ambivariant definitive u b ↔ c.HasAncestor u t ∨ c.HasAncestor t u) := by
  obtain ⟨d, ks, ts, h⟩ := exists_expansion ht hkind
  rw [hends.hasAncestor_iff, hends.hasAncestor_iff]
  have hdecides := fun v => matchVariance_decides (ν := ν) hc hends hassign h hu v definitive b
  -- The candidate inherits `t`, so there is a site above it.
  have hcovariant : c.Inherits u t → Matches ν c t .covariant definitive u b := by
    intro hut
    obtain ⟨site, hsite, hread⟩ := exists_siteAbove h hut
    exact (hdecides .covariant).2.2 site hsite hread (hut.eventually_isAssignable hassign)
  -- The other way around there is a site below.
  have hcontravariant : c.Inherits t u → Matches ν c t .contravariant definitive u b := by
    intro htu
    obtain ⟨site, hsite, hread⟩ := exists_siteBelow hc hbare h ht htu
    exact (hdecides .contravariant).2.2 site hsite hread (htu.eventually_isAssignable hassign)
  have hambivariant : c.Inherits u t ∨ c.Inherits t u →
      Matches ν c t .ambivariant definitive u b := by
    have hrelative := eventually_isRelative_ambivariant hassign (t := t) (u := u)
    rintro (hut | htu)
    · obtain ⟨site, hsite, hread⟩ := exists_siteAbove h hut
      exact (hdecides .ambivariant).2.2 site (.inl hsite) hread (hrelative (.inl hut))
    · obtain ⟨site, hsite, hread⟩ := exists_siteBelow hc hbare h ht htu
      exact (hdecides .ambivariant).2.2 site (.inr hsite) hread (hrelative (.inr htu))
  refine ⟨fun v => (hdecides v).1, hcovariant, hcontravariant, hambivariant, ?_⟩
  rintro e rfl
  obtain rfl : e = d := Option.some.inj h.head?
  have hwell := wellFormed_nominal ht hkind
  have harity : c.arity e = 0 := (ht.proper.length_headArgs rfl).symm
  obtain rfl : ts = [] := by
    have hreads := congrArg List.length h.reads
    rw [List.length_map, List.length_map] at hreads
    exact List.eq_nil_of_length_eq_zero hreads.symm
  have habove : ∀ site, SiteAbove c u e site → c.Inherits u (.nominal e) :=
    fun _ => inherits_of_siteAbove hc harity hu.proper
  have hbelow : ∀ site, SiteBelow c u (.nominal e) [] site → c.Inherits (.nominal e) u :=
    fun _ => inherits_of_siteBelow hc hwell hu
  refine ⟨⟨fun hm => ?_, hcovariant⟩, ⟨fun hm => ?_, hcontravariant⟩, ⟨fun hm => ?_, hambivariant⟩⟩
  · obtain ⟨site, hsite⟩ := (hdecides .covariant).2.1 hm
    exact habove site hsite
  · obtain ⟨site, hsite⟩ := (hdecides .contravariant).2.1 hm
    exact hbelow site hsite
  · obtain ⟨site, hsite⟩ := (hdecides .ambivariant).2.1 hm
    exact hsite.imp (habove site) (hbelow site)

open Catalog in
/-- In the base library a contravariant list of strings accepts sequences of strings, from which its
element is found again. A covariant sequence of strings accepts arrays of strings. An ambivariant
`IConvertible` accepts strings, but not lists of them. -/
theorem baseLibrary_accepts_relatives :
    Matches Empty baseLibrary (.named 14 [.nominal 18]) .contravariant false
        (.named 11 [.nominal 18]) [] ∧
      Matches Empty baseLibrary (.named 11 [.nominal 18]) .covariant false
        (.array 1 (.nominal 18)) [] ∧
      Matches Empty baseLibrary (.nominal 17) .ambivariant true (.nominal 18) [] ∧
      ¬ Matches Empty baseLibrary (.nominal 17) .ambivariant true (.named 14 [.nominal 18]) [] := by
  have hc := baseLibrary_wellDeclared
  have hbare := baseLibrary_noBareParam
  have hends := baseLibrary_acyclic.hierarchyEnds
  have hassign := baseLibrary_flat.assignabilityEnds hends
  have hconvertible : baseLibrary.Canonical (.nominal 17) := canonical_nominal rfl
  have hstring : baseLibrary.Canonical (.nominal 18) := canonical_nominal rfl
  have hlist : baseLibrary.Canonical (.named 14 [.nominal 18]) := hstring.generic 14 rfl rfl
  have hsequence : baseLibrary.Canonical (.named 11 [.nominal 18]) := hstring.generic 11 rfl rfl
  have harray : baseLibrary.Canonical (.array 1 (.nominal 18)) :=
    hstring.array (hassign.canonical_rankEncoding (by decide) 1)
  refine ⟨?_, ?_, ?_, ?_⟩
  · exact (matchVariance_complete hc hbare hends hassign hlist hsequence rfl false []).2.2.1
      ⟨9, _, rfl, by decide +kernel⟩
  · exact (matchVariance_complete hc hbare hends hassign hsequence harray rfl false []).2.1
      ⟨9, _, rfl, by decide +kernel⟩
  · exact (matchVariance_complete hc hbare hends hassign hconvertible hstring rfl true []).2.2.2.1
      (.inl ⟨9, _, rfl, by decide +kernel⟩)
  · have h := (matchVariance_complete (ν := Empty) hc hbare hends hassign
      hconvertible hlist rfl true
      []).2.2.2.2 17 rfl
    rw [h.2.2, hends.hasAncestor_iff, hends.hasAncestor_iff]
    rintro (hup | hdown)
    · have hmem := (mem_ancestors_iff (show baseLibrary.ancestors 9 _ = some _ from rfl)).mpr hup
      revert hmem
      decide +kernel
    · have hmem := (mem_ancestors_iff (show baseLibrary.ancestors 9 _ = some _ from rfl)).mpr hdown
      revert hmem
      decide +kernel

end TypeResolution

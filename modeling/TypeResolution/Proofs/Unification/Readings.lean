import TypeResolution.Proofs.Unification.Completeness

/-!
# One constraint under two variances

The variance in force at the top of a constraint is handed on to its arguments, so the same
description may be read differently below a covariant and below an ambivariant place. This module
says when two variances come to the same.

Sub-constraints see of the variance above them what it makes of their own variance
(`siteSolutions_eq_of_nest`): nothing if they are invariant. Whatever a description finds at a site,
it finds the described arguments, and the type rebuilt from them is the described one
(`Expansion.eq_of_rebuilt`). So the variance at the top enters in two places only, in the choice of
sites and in the test whether the type is a relative of the candidate (`Expansion.siteInstances_eq`,
`Expansion.matches_iff`).
-/

namespace TypeResolution

variable {ν : Type} {c : Catalog}

/-! ## What sub-constraints see of the variance above them

Variances nest from the outside in. An invariant sub-constraint is invariant wherever it stands, so
all that is below it is the same under every variance at the top. -/

/-- The constraint is on an instance, under a variance of this sort. -/
def HasVariance (V : Variance → Prop) (k : Constraint) : Prop :=
  ∃ d v ks, k = .instanceOf d v ks ∧ V v

section HasVariance

variable {V : Variance → Prop}

/-- What is said of the variance of an expansion may be said with another one at its top. -/
theorem hasVariance_withVariance {t : Ty} (ht : t.isClosed = true) {v : Variance} (hv : V v) :
    HasVariance V ((Constraint.ofType c t).withVariance v) := by
  cases t with
  | param i => cases ht
  | _ => exact ⟨_, _, _, rfl, hv⟩

variable (hinvariant : V .invariant)
include hinvariant

/-- The expansion of a closed type is invariant. -/
theorem hasVariance_ofType {t : Ty} (ht : t.isClosed = true) :
    HasVariance V (Constraint.ofType c t) := by
  cases t with
  | param i => cases ht
  | _ => exact ⟨_, _, _, rfl, hinvariant⟩

/-- The constraint on a rank is invariant. -/
theorem hasVariance_rank (n : Nat) : HasVariance V (Constraint.rank n) := by
  cases n <;> exact ⟨_, _, _, rfl, hinvariant⟩

/-- The arguments of an expansion have the variances that are declared for them. -/
theorem hasVariance_ofArgs {ts : List Ty} (hts : ∀ t ∈ ts, t.isClosed = true) {vs : List Variance}
    (hvs : ∀ v ∈ vs, V v) : ∀ k ∈ Constraint.ofArgs c vs ts, HasVariance V k := by
  induction ts generalizing vs with
  | nil => exact fun k hk => absurd hk List.not_mem_nil
  | cons t ts ih =>
    obtain ⟨ht, hts⟩ := List.forall_mem_cons.mp hts
    have hhead : V (vs.headD .invariant) := by
      cases vs with
      | nil => exact hinvariant
      | cons v vs => exact hvs v List.mem_cons_self
    rw [Constraint.ofArgs]
    exact List.forall_mem_cons.mpr
      ⟨hasVariance_withVariance ht hhead, ih hts fun v hv => hvs v (List.mem_of_mem_tail hv)⟩

/-- The sub-constraints of a type have the variances that its definition declares for its
parameters. Those of a structural type are invariant. -/
theorem Expansion.hasVariance {t : Ty} {d : DefIndex} {ks : List Constraint} {ts : List Ty}
    (h : Expansion c t d ks ts) (ht : t.isClosed = true)
    (hparams : ∀ e us, t = .named e us → ∀ p ∈ (c.definition e).params, V p.variance) :
    ∀ k ∈ ks, HasVariance V k := by
  obtain ⟨w, hk⟩ := h.eq_instanceOf
  -- For names the declared variances are those of the definition. The rank of an array is invariant
  -- and so is its element, and pointers and references are the same.
  cases t with
  | param i => cases ht
  | named e us =>
    obtain ⟨-, -, rfl⟩ := Constraint.instanceOf.inj hk
    rw [Ty.isClosed, Ty.allClosed_eq_all, List.all_eq_true] at ht
    refine hasVariance_ofArgs hinvariant ht fun v hv => ?_
    obtain ⟨p, hp, rfl⟩ := List.mem_map.mp hv
    exact hparams e us rfl p hp
  | array n elem =>
    obtain ⟨-, -, rfl⟩ := Constraint.instanceOf.inj hk
    intro k hk
    rcases List.mem_pair.mp hk with rfl | rfl
    · exact hasVariance_rank hinvariant n
    · exact hasVariance_ofType hinvariant ht
  | pointer elem =>
    obtain ⟨-, -, rfl⟩ := Constraint.instanceOf.inj hk
    exact List.forall_mem_singleton.mpr (hasVariance_ofType hinvariant ht)
  | byRef elem =>
    obtain ⟨-, -, rfl⟩ := Constraint.instanceOf.inj hk
    exact List.forall_mem_singleton.mpr (hasVariance_ofType hinvariant ht)

end HasVariance

/-- Two variances that put the same ones in force below them are not told apart by what is below. -/
theorem siteSolutions_eq_of_nest {V : Variance → Prop} {v v' : Variance}
    (hV : ∀ w, V w → v.nest w = v'.nest w) {fuel : Nat} {b : Bindings} {ks : List Constraint}
    (hks : ∀ k ∈ ks, HasVariance V k) (site : Site) :
    siteSolutions c fuel v site b ks = siteSolutions c fuel v' site b ks := by
  induction ks generalizing site b with
  | nil => rw [siteSolutions, siteSolutions]
  | cons k ks ih =>
    obtain ⟨⟨d, w, js, rfl, hw⟩, hrest⟩ := List.forall_mem_cons.mp hks
    cases site with
    | nil => rw [siteSolutions, siteSolutions]
    | cons s site =>
      have harg : ∀ u, argSolutions c fuel v u b (.instanceOf d w js) =
          argSolutions c fuel v' u b (.instanceOf d w js) := by
        intro u
        rw [argSolutions, argSolutions, instanceSolutions, instanceSolutions, hV w hw]
      rw [siteSolutions, siteSolutions]
      simp only [harg, ih hrest]

/-! ## What a description finds

A description can find nothing but the described type, since this is rebuilt from what its parts
find. If the lists of arguments have different lengths, then what is found is a beginning of the
described arguments, and with the right number it is all of them. -/

/-- What is found at a site of descriptions are the described types, as far as the site reaches. -/
theorem eq_of_mem_siteSolutions {fuel : Nat} {v : Variance} {b : Bindings} {ks : List Constraint}
    {ts : List Ty} (hlength : ks.length = ts.length)
    (ih : ∀ p ∈ ks.zip ts, ∀ v u b, ∀ r ∈ (argSolutions c fuel v u b p.1).items, r = (b, p.2))
    {site : Site} {q : Bindings × List Ty} (h : q ∈ (siteSolutions c fuel v site b ks).items) :
    q.1 = b ∧ q.2 <+: ts := by
  induction ks generalizing ts site q with
  | nil =>
    rw [siteSolutions] at h
    rw [List.mem_singleton.mp h]
    exact ⟨rfl, List.nil_prefix⟩
  | cons k ks ihks =>
    cases ts with
    | nil => cases hlength
    | cons t ts =>
      obtain ⟨hk, hks⟩ := List.forall_mem_cons.mp ih
      -- Where the site ends early nothing more is found, and the empty list is a beginning as well.
      cases site with
      | nil =>
        rw [siteSolutions] at h
        rw [List.mem_singleton.mp h]
        exact ⟨rfl, List.nil_prefix⟩
      | cons s site =>
        rw [siteSolutions] at h
        obtain ⟨u, -, h⟩ := mem_structuralSolutions h
        obtain ⟨p, hp, h⟩ := Listing.mem_each h
        obtain ⟨q, hq, rfl⟩ := List.mem_map.mp h
        obtain rfl := hk v u b p hp
        obtain ⟨hb, hreach⟩ := ihks (Nat.succ.inj hlength) hks hq
        exact ⟨hb, (List.prefix_cons_inj t).mpr hreach⟩

/-- The rebuilt type is the described one. -/
theorem eq_of_prefix_args {fuel fuel' : Nat} {d : DefIndex} {ts us : List Ty} {t r : Ty}
    (hinstance : c.instantiate fuel d ts = some (.ok t)) (hreach : us <+: ts)
    (h : c.instantiate fuel' d us = some (.ok r)) : us = ts ∧ r = t := by
  have hlength := (c.length_of_instantiate h).trans (c.length_of_instantiate hinstance).symm
  obtain rfl := hreach.eq_of_length hlength
  exact ⟨rfl, Except.ok.inj (Fueled.eq_of_answers (fun h => c.instantiate_le h d us) h hinstance)⟩

/-- **A description finds the described type only**, whatever the catalog. -/
theorem Describes.eq_of_mem_argSolutions {k : Constraint} {t : Ty} (h : Describes c k t)
    {fuel : Nat} :
    ∀ v u b, ∀ r ∈ (argSolutions c fuel v u b k).items, r = (b, t) := by
  induction h with
  | @intro d w ks ts t fuel' hkind hlength hargs hinstance ih =>
    intro v u b r hr
    rw [argSolutions] at hr
    obtain ⟨u', -, ⟨hm, -⟩ | ⟨-, site, us, hus, hrebuilt, -⟩⟩ := mem_instanceSolutions c fuel hr
    · rw [hkind] at hm
      cases hm
    · obtain ⟨hb, hreach⟩ := eq_of_mem_siteSolutions hlength ih hus
      obtain ⟨-, ht⟩ := eq_of_prefix_args hinstance hreach hrebuilt
      exact Prod.ext hb ht

/-- Where exact descriptions find something, the site reads as the described arguments. -/
theorem reads_of_mem_siteSolutions {fuel : Nat} {b : Bindings} {ks : List Constraint}
    {ts : List Ty} (hlength : ks.length = ts.length)
    (hexact : ∀ k ∈ ks, HasVariance (· = .invariant) k)
    (hargs : ∀ p ∈ ks.zip ts, Describes c p.1 p.2) {site : Site} (hsite : site.length = ts.length)
    {q : Bindings × List Ty} (h : q ∈ (siteSolutions c fuel .invariant site b ks).items) :
    site.map Ty.structuralForm = ts.map .ok := by
  induction ks generalizing ts site b q with
  | nil =>
    obtain rfl := List.length_eq_zero_iff.mp hlength.symm
    obtain rfl := List.length_eq_zero_iff.mp hsite
    rfl
  | cons k ks ih =>
    cases ts with
    | nil => cases hlength
    | cons t ts =>
      cases site with
      | nil => cases hsite
      | cons s site =>
        obtain ⟨⟨d, w, js, rfl, rfl⟩, hks⟩ := List.forall_mem_cons.mp hexact
        obtain ⟨hk, hrest⟩ := List.forall_mem_cons.mp hargs
        rw [siteSolutions] at h
        obtain ⟨u, hu, h⟩ := mem_structuralSolutions h
        obtain ⟨p, hp, h⟩ := Listing.mem_each h
        obtain ⟨q, hq, rfl⟩ := List.mem_map.mp h
        obtain rfl := hk.eq_of_mem_argSolutions _ _ _ p hp
        -- an invariant place keeps what it is given only if it is what was described
        obtain rfl : t = u := by
          rw [argSolutions] at hp
          obtain ⟨u', hu', ⟨hm, -⟩ | ⟨-, _, _, -, -, hrelative⟩⟩ := mem_instanceSolutions c fuel hp
          · obtain ⟨hkind, -⟩ := hk
            rw [hkind] at hm
            cases hm
          · have hsame : t = u' := by simpa [isRelative, Variance.nest] using hrelative
            rw [Ty.structuralForm_idem hu] at hu'
            exact hsame.trans (Except.ok.inj hu').symm
        rw [List.map_cons, List.map_cons, hu,
          ih (Nat.succ.inj hlength) hks hrest (Nat.succ.inj hsite) hq]

/-- This does not depend on the variance above them. -/
theorem reads_of_mem_siteSolutions_under {v : Variance} {fuel : Nat} {b : Bindings}
    {ks : List Constraint} {ts : List Ty} (hlength : ks.length = ts.length)
    (hexact : ∀ k ∈ ks, HasVariance (· = .invariant) k)
    (hargs : ∀ p ∈ ks.zip ts, Describes c p.1 p.2) {site : Site} (hsite : site.length = ts.length)
    {q : Bindings × List Ty} (h : q ∈ (siteSolutions c fuel v site b ks).items) :
    site.map Ty.structuralForm = ts.map .ok := by
  have hnest : ∀ w : Variance, w = .invariant → v.nest w = Variance.invariant.nest w := by
    rintro w rfl
    cases v <;> rfl
  rw [siteSolutions_eq_of_nest hnest hexact] at h
  exact reads_of_mem_siteSolutions hlength hexact hargs hsite h

/-! ## Matching at one site

Two readings of a description may differ at a site in whether they find something, but not in what.
So to compare them is to compare tests. -/

namespace Listing

variable {ε α β ι : Type}

/-- Going on alike from each item is going on alike. -/
theorem each_congr (definitive : Bool) {l : Listing ε α} {f g : α → Listing ε β}
    (h : ∀ a ∈ l.items, f a = g a) : l.each definitive f = l.each definitive g := by
  rw [each, each, List.map_congr_left fun a ha => by rw [h a ha]]

/-- Choosing among the items leaves some, if there are any. -/
theorem each_one_items_ne_nil (definitive : Bool) (l : Listing ε α) :
    (l.each definitive one).items ≠ [] ↔ l.items ≠ [] := by
  constructor
  · intro h
    obtain ⟨z, hz⟩ := List.exists_mem_of_ne_nil _ h
    obtain ⟨a, ha, -⟩ := mem_each hz
    exact List.ne_nil_of_mem ha
  · intro h
    obtain ⟨a, as, hitems⟩ := List.exists_cons_of_ne_nil h
    rw [each, hitems]
    cases definitive <;> simp [andThen, append, one]

/-- More lists behind others change nothing about what these list. -/
theorem concat_prefix_items {is js : List ι} (h : is <+: js) (f : ι → Listing ε α) :
    (concat (is.map fun i => (false, f i))).items <+:
      (concat (js.map fun i => (false, f i))).items := by
  obtain ⟨rest, rfl⟩ := h
  induction is with
  | nil => exact List.nil_prefix
  | cons i is ih =>
    simp only [List.map_cons, List.cons_append, concat_cons, andThen_false, append]
    rcases (f i).interruption with _ | _
    · exact (List.prefix_append_right_inj _).mpr ih
    · exact List.prefix_rfl

end Listing

/-- The instances that a constraint on `d` finds at one site, under the variance in force. -/
def siteInstances (c : Catalog) (fuel : Nat) (v : Variance) (u : Ty) (d : DefIndex)
    (ks : List Constraint) (b : Bindings) (site : Site) : Listing ResolutionError (Bindings × Ty) :=
  (siteSolutions c fuel v site b ks).each false fun p =>
    (rebuiltSolutions c fuel v d u p.2).map fun result => (p.1, result)

section Expansion

variable {fuel : Nat} {t u : Ty} {d : DefIndex} {ks : List Constraint} {ts : List Ty} {b : Bindings}
  (h : Expansion c t d ks ts)
include h

/-- What is found at a site is for the arguments of the type, as far as the site reaches, and only
the type itself is rebuilt from it. -/
theorem Expansion.eq_of_rebuilt {v : Variance} {site : Site} {q : Bindings × List Ty}
    (hq : q ∈ (siteSolutions c fuel v site b ks).items) {result : Ty}
    (hresult : c.instantiate fuel d q.2 = some (.ok result)) : result = t := by
  obtain ⟨-, hreach⟩ := eq_of_mem_siteSolutions h.length_eq
    (fun p hp => (h.describes p hp).eq_of_mem_argSolutions) hq
  obtain ⟨fuel', hinstance⟩ := h.isInstance
  exact (eq_of_prefix_args hinstance hreach hresult).2

/-- Something is found at a site only if its arguments are accepted and the type is a relative of
the candidate. -/
theorem Expansion.of_mem_siteInstances {v : Variance} {site : Site} {r : Bindings × Ty}
    (hr : r ∈ (siteInstances c fuel v u d ks b site).items) :
    (∃ q, q ∈ (siteSolutions c fuel v site b ks).items) ∧ isRelative c fuel v t u = some true := by
  obtain ⟨q, hq, hr⟩ := Listing.mem_each hr
  obtain ⟨result, hresult, -⟩ := List.mem_map.mp hr
  obtain ⟨hrebuilt, hrelative⟩ := mem_rebuiltSolutions c fuel hresult
  exact ⟨⟨q, hq⟩, h.eq_of_rebuilt hq hrebuilt ▸ hrelative⟩

/-- A site gives the same under two variances, if these are the same further down and agree on
whether the type is a relative of the candidate. -/
theorem Expansion.siteInstances_eq {V : Variance → Prop} {v v' : Variance}
    (hV : ∀ w, V w → v.nest w = v'.nest w) (hks : ∀ k ∈ ks, HasVariance V k)
    (hrelative : isRelative c fuel v t u = isRelative c fuel v' t u) (site : Site) :
    siteInstances c fuel v u d ks b site = siteInstances c fuel v' u d ks b site := by
  rw [siteInstances, siteInstances, siteSolutions_eq_of_nest hV hks]
  refine Listing.each_congr false fun q hq => ?_
  rw [rebuiltSolutions, rebuiltSolutions]
  rcases hrebuilt : c.instantiate fuel d q.2 with _ | _ | result
  · rfl
  · rfl
  · obtain rfl := h.eq_of_rebuilt hq hrebuilt
    dsimp only [Listing.ofFueled]
    rw [hrelative]

/-- A type whose arguments read as those of the expanded type is this type. -/
theorem Expansion.eq_of_reads (hu : c.Canonical u) (hhead : u.head? = some d)
    (hreads : u.headArgs.map Ty.structuralForm = ts.map .ok) : u = t := by
  obtain @⟨fuel', e, us, _, hus, hinstance'⟩ := hu
  obtain rfl : d = e := Option.some.inj (hhead.symm.trans (c.head?_of_instantiate hinstance'))
  have hsame := hreads.symm.trans (Catalog.headArgs_of_instantiate hus hinstance')
  obtain rfl : ts = us := List.map_injective_iff.mpr (fun x y => Except.ok.inj) hsame
  obtain ⟨fuel, hinstance⟩ := h.isInstance
  exact (eq_of_prefix_args hinstance List.prefix_rfl hinstance').2

end Expansion

/-! ## Matching at all sites

Sites are tried in order, and a match needs one that is accepted. So a reading that tries more
sites, in whatever order, has at least as many matches, if nothing interrupts it. -/

/-- Without repetitions the sites of the first list come first. -/
theorem distinctSites_prefix_append (above below : List Site) :
    distinctSites above <+: distinctSites (above ++ below) := by
  induction above with
  | nil => exact List.nil_prefix
  | cons s above ih => exact (List.prefix_cons_inj s).mpr (ih.filter _)

/-- If there is only one site, it is left. -/
theorem distinctSites_eq_singleton {sites : List Site} {s : Site} (hs : s ∈ sites)
    (hall : ∀ r ∈ sites, r = s) : distinctSites sites = [s] := by
  have hmem := mem_distinctSites.mpr hs
  have hall' : ∀ r ∈ distinctSites sites, r = s := fun r hr => hall r (mem_distinctSites.mp hr)
  have hnodup := nodup_distinctSites sites
  rw [List.eq_replicate_of_mem hall'] at hmem hnodup ⊢
  have hle := List.nodup_replicate.mp hnodup
  have hpos := List.length_pos_of_mem hmem
  rw [List.length_replicate] at hpos
  rw [Nat.le_antisymm hle hpos, List.replicate_one]

/-- If there is at most one, at most that is left. -/
theorem distinctSites_prefix_singleton {sites : List Site} {s : Site}
    (hall : ∀ r ∈ sites, r = s) : distinctSites sites <+: [s] := by
  cases sites with
  | nil => exact List.nil_prefix
  | cons r rest =>
    rw [distinctSites_eq_singleton (hall r List.mem_cons_self ▸ List.mem_cons_self) hall]

/-- A site that is chosen is above the candidate or below it. -/
theorem mem_chosenSites {v : Variance} {above below : List Site} {site : Site}
    (hsite : site ∈ chosenSites v above below) : site ∈ above ∨ site ∈ below := by
  cases v with
  | covariant => exact .inl hsite
  | contravariant => exact .inr hsite
  | invariant => exact .inl (List.mem_of_mem_filter hsite)
  | ambivariant => exact List.mem_append.mp hsite

/-- What a constraint finds at some sites, one after the other. -/
def instancesAt (c : Catalog) (fuel : Nat) (v : Variance) (u : Ty) (d : DefIndex)
    (ks : List Constraint) (b : Bindings) (found : List Site) :
    Listing ResolutionError (Bindings × Ty) :=
  .concat (found.map fun site => (false, siteInstances c fuel v u d ks b site))

/-- Under fuel that suffices for the match and for finding the sites, a match finds something if
something is found at one of the sites that the variance chooses. -/
theorem Expansion.matches_iff {fuel : Nat} {t u : Ty} {d : DefIndex} {ks : List Constraint}
    {ts : List Ty} {b : Bindings} (h : Expansion c t d ks ts) (hu : u.structuralForm = .ok u)
    {above below : List Site} (habove : sitesAbove c fuel u d = some above)
    (hbelow : sitesBelow c fuel u d ks b = some below) {v : Variance} {definitive : Bool}
    (hended : (matchVariance c fuel t v definitive u b : Search.Transcript ν _ _).ending ≠ none) :
    Matches ν c t v definitive u b ↔
      (instancesAt c fuel v u d ks b (distinctSites (chosenSites v above below))).items ≠ [] := by
  obtain ⟨fuel', hinstance⟩ := h.isInstance
  have hcount : c.arity d = ks.length :=
    (c.length_of_instantiate hinstance).symm.trans h.length_eq.symm
  have hsites : sites c fuel u d (Variance.nest .ambivariant v) ks b =
      some (distinctSites (chosenSites v above below)) := by
    rw [nest_ambivariant]
    exact sites_eq habove hbelow v
  rw [TypeResolution.matches_iff hended, matchVariance_eq fuel h]
  dsimp only
  rw [Listing.each_one_items_ne_nil, Listing.each_one_items_ne_nil,
    argSolutions_of_sites h.notKind hcount hu hsites, nest_ambivariant]
  exact not_congr List.map_eq_nil_iff

end TypeResolution

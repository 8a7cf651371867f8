import TypeResolution.Proofs.Catalog.Arity
import TypeResolution.Proofs.Catalog.Assignability
import TypeResolution.Proofs.Unification.Exactness
import TypeResolution.Proofs.Unification.Termination

/-!
# What a description accepts

In a catalog that is declared well, matching a proper type with the description of a type `t` comes
to an end, under any variance and without an error, and whatever it finds it finds for `t` itself:
with enough fuel its listing *decides* whether `t` is found (`Describes.eventually_decides`). No
error comes up because every site that a proper type has consists of proper types
(`UsedSite.proper`).

What is decided depends on the catalog, but two things can be said of an instance constraint at once
(`eventually_decides_instance`). It finds nothing unless there is a site. And it finds `t` if there
is a site whose arguments read as those of `t` and `t` is a relative of the candidate, because each
argument of `t` then meets itself, which is accepted whatever variance has accumulated above it.

A listing that decides is complete, and whatever it lists is one and the same item. Combinators keep
this up: in a row some part finds the item, and behind an item the rest finds it or not. The
induction is on the description, and for each sub-constraint its hypothesis is about every proper
type in that place, since sites have arguments of all kinds.
-/

namespace TypeResolution

open Filter

/-! ## Listings that decide

The proposition that is decided is a parameter. Each combinator has a lemma that says what it
decides, in terms of what its parts do. -/

namespace Listing

variable {ε α β ι : Type}

/-- The listing is complete and lists nothing but `a`; it lists `a` exactly if `P`. -/
structure Decides (l : Listing ε α) (a : α) (P : Prop) : Prop where
  /-- nothing interrupts it -/
  complete : l.interruption = none
  /-- nothing else is listed -/
  eq_of_mem : ∀ x ∈ l.items, x = a
  /-- it decides `P` -/
  mem_iff : a ∈ l.items ↔ P

/-- What is decided may be said in other words. -/
theorem Decides.congr {l : Listing ε α} {a : α} {P Q : Prop} (h : l.Decides a P) (hPQ : P ↔ Q) :
    l.Decides a Q := ⟨h.complete, h.eq_of_mem, h.mem_iff.trans hPQ⟩

/-- It is decided by whether anything is listed at all. -/
theorem Decides.items_ne_nil_iff {l : Listing ε α} {a : α} {P : Prop} (h : l.Decides a P) :
    l.items ≠ [] ↔ P := by
  rw [← h.mem_iff]
  constructor
  · intro hne
    obtain ⟨x, hx⟩ := List.exists_mem_of_ne_nil _ hne
    exact h.eq_of_mem x hx ▸ hx
  · exact List.ne_nil_of_mem

/-- One item decides what is true. -/
theorem decides_one (a : α) : (one a : Listing ε α).Decides a True where
  complete := rfl
  eq_of_mem _ hx := List.mem_singleton.mp hx
  mem_iff := iff_true_intro List.mem_cons_self

/-- No item decides what is false. -/
theorem decides_nothing {a : α} : (nothing : Listing ε α).Decides a False where
  complete := rfl
  eq_of_mem _ hx := absurd hx List.not_mem_nil
  mem_iff := iff_false_intro List.not_mem_nil

/-- A guard decides its test. -/
theorem decides_guard (passes : Bool) (a : α) :
    (guard (some passes) a : Listing ε α).Decides a (passes = true) := by
  cases passes with
  | true => exact (decides_one a).congr (iff_of_true trivial rfl)
  | false => exact decides_nothing.congr (iff_of_false id Bool.false_ne_true)

/-- Changing the item changes nothing about what is decided. -/
theorem Decides.map {l : Listing ε α} {a : α} {P : Prop} (h : l.Decides a P) (f : α → β) :
    (l.map f).Decides (f a) P where
  complete := h.complete
  eq_of_mem z hz := by
    obtain ⟨x, hx, rfl⟩ := List.mem_map.mp hz
    rw [h.eq_of_mem x hx]
  mem_iff := by
    rw [← h.mem_iff]
    constructor
    · intro hz
      obtain ⟨x, hx, -⟩ := List.mem_map.mp hz
      exact h.eq_of_mem x hx ▸ hx
    · exact List.mem_map_of_mem

/-- Two listings in a row decide whether one of them finds it. -/
theorem Decides.append {l m : Listing ε α} {a : α} {P Q : Prop} (hl : l.Decides a P)
    (hm : m.Decides a Q) : (l.append m).Decides a (P ∨ Q) := by
  rw [Listing.append, hl.complete]
  refine ⟨hm.complete, fun x hx => ?_, ?_⟩
  · exact (List.mem_append.mp hx).elim (hl.eq_of_mem x) (hm.eq_of_mem x)
  · exact List.mem_append.trans (or_congr hl.mem_iff hm.mem_iff)

/-- A cut between them makes no difference, as both would find the same item. -/
theorem Decides.andThen (definitive : Bool) {l m : Listing ε α} {a : α} {P Q : Prop}
    (hl : l.Decides a P) (hm : m.Decides a Q) : (l.andThen definitive m).Decides a (P ∨ Q) := by
  rw [Listing.andThen]
  split
  · next hcut =>
    -- a list that is not empty has the item already
    have hP : P := by
      rw [← hl.mem_iff]
      cases hitems : l.items with
      | nil => simp [hitems] at hcut
      | cons x xs => exact hl.eq_of_mem x (by simp [hitems]) ▸ List.mem_cons_self
    exact hl.congr ⟨.inl, fun _ => hP⟩
  · exact hl.append hm

/-- A choice that decides, before something that decides, decides whether both find what they
should; it does not matter whether the choice is definitive. -/
theorem Decides.each (definitive : Bool) {l : Listing ε α} {a : α} {P : Prop} (h : l.Decides a P)
    {f : α → Listing ε β} {z : β} {Q : Prop} (hf : (f a).Decides z Q) :
    (l.each definitive f).Decides z (P ∧ Q) := by
  -- All items are the same, so each of them leads to the same listing. It does not matter how many
  -- there are, only that there is one.
  have hall : ∀ as : List α, (∀ x ∈ as, x = a) →
      (Listing.concat (as.map (fun x => (definitive, f x)) ++ [(false, ⟨[], none⟩)])).Decides z
        (a ∈ as ∧ Q) := by
    intro as
    induction as with
    | nil => exact fun _ => decides_nothing.congr ⟨False.elim, fun h => absurd h.1 List.not_mem_nil⟩
    | cons x as ih =>
      intro has
      obtain ⟨rfl, has⟩ := List.forall_mem_cons.mp has
      refine (hf.andThen definitive (ih has)).congr ⟨?_, fun h => .inl h.2⟩
      rintro (hQ | ⟨-, hQ⟩)
      · exact ⟨List.mem_cons_self, hQ⟩
      · exact ⟨List.mem_cons_self, hQ⟩
  rw [Listing.each, h.complete]
  exact (hall l.items h.eq_of_mem).congr (and_congr_left' h.mem_iff)

/-- A row of listings decides whether one of them finds it. -/
theorem Decides.concat {is : List ι} {f : ι → Listing ε α} {a : α} {P : ι → Prop}
    (h : ∀ i ∈ is, (f i).Decides a (P i)) :
    (concat (is.map fun i => (false, f i))).Decides a (∃ i ∈ is, P i) := by
  induction is with
  | nil => exact decides_nothing.congr ⟨False.elim, fun ⟨i, hi, _⟩ => absurd hi List.not_mem_nil⟩
  | cons i is ih =>
    obtain ⟨hi, his⟩ := List.forall_mem_cons.mp h
    refine (hi.andThen false (ih his)).congr ?_
    rw [List.exists_mem_cons_iff]

end Listing

/-! ## Sites without fuel

With enough fuel the lists of sites are what the hierarchy makes them, and can be described by
inheriting. Sites above the candidate are the arguments of what it inherits; sites below it come
from what the target inherits over its own parameters, with the arguments that are known filled in.
-/

variable {c : Catalog}

/-- The arguments of an instance of `d` that the candidate `u` inherits. -/
def SiteAbove (c : Catalog) (u : Ty) (d : DefIndex) (site : Site) : Prop :=
  ∃ a, c.Inherits u a ∧ a.head? = some d ∧ a.headArgs = site

/-- The arguments with which the definition of `t` inherits the candidate `u`, where `ts` fill the
parameters that the candidate leaves open. -/
def SiteBelow (c : Catalog) (u t : Ty) (ts : List Ty) (site : Site) : Prop :=
  ∃ o, c.Inherits (c.openForm t) o ∧ o.head? = u.head? ∧
    solveSite? u.headArgs (ts.map some) o = some site

/-- The sites that the description of `t`, an instance of `d` over `ts`, uses under a variance. -/
def UsedSite (c : Catalog) (v : Variance) (u : Ty) (d : DefIndex) (t : Ty) (ts : List Ty)
    (site : Site) : Prop :=
  match v with
  | .covariant => SiteAbove c u d site
  | .contravariant => SiteBelow c u t ts site
  | .invariant => SiteAbove c u d site ∧ SiteBelow c u t ts site
  | .ambivariant => SiteAbove c u d site ∨ SiteBelow c u t ts site

/-- With enough fuel descriptions of some arguments are seen to stand for them. -/
theorem eventually_knownArgs {ks : List Constraint} {ts : List Ty} (hlength : ks.length = ts.length)
    (hargs : ∀ p ∈ ks.zip ts, Describes c p.1 p.2) (b : Bindings) :
    ∀ᶠ fuel in atTop, knownArgs c fuel b ks = some (ts.map some) := by
  have hall := eventually_forall_mem fun p hp => (hargs p hp).eventually_singleType b
  filter_upwards [hall] with fuel hall
  exact knownArgs_eq hlength hall

/-- The sites above are those of inherited instances. -/
theorem eventually_sitesAbove (hends : c.HierarchyEnds) (u : Ty) (d : DefIndex) :
    ∃ found : List Site, (∀ᶠ fuel in atTop, sitesAbove c fuel u d = some found) ∧
      ∀ site, site ∈ found ↔ SiteAbove c u d site := by
  obtain ⟨above, habove⟩ := hends.settled u
  refine ⟨(above.filter fun a => a.head? == some d).map Ty.headArgs, ?_, fun site => ?_⟩
  · filter_upwards [habove] with fuel habove
    rw [sitesAbove, habove]
    rfl
  · obtain ⟨fuel, habove⟩ := habove.exists
    simp only [SiteAbove, List.mem_map, List.mem_filter, beq_iff_eq, c.mem_ancestors_iff habove,
      and_assoc]

/-- The sites below are those of the type that inherits the candidate. -/
theorem eventually_sitesBelow (hends : c.HierarchyEnds) {fuel : Nat} {d : DefIndex}
    {ks : List Constraint} {ts : List Ty} {t u : Ty} {b : Bindings}
    (hts : ∀ a ∈ ts, c.Canonical a) (hinstance : c.instantiate fuel d ts = some (.ok t))
    {e : DefIndex} (hu : u.head? = some e)
    (hknown : ∀ᶠ fuel in atTop, knownArgs c fuel b ks = some (ts.map some)) :
    ∃ found : List Site, (∀ᶠ fuel in atTop, sitesBelow c fuel u d ks b = some found) ∧
      ∀ site, site ∈ found ↔ SiteBelow c u t ts site := by
  obtain ⟨above, habove⟩ := hends.settled (c.openForm t)
  refine ⟨(above.filter fun a => a.head? == some e).filterMap (solveSite? u.headArgs (ts.map some)),
    ?_, fun site => ?_⟩
  · filter_upwards [habove, hknown] with fuel habove hknown
    rw [sitesBelow, hu, hknown]
    dsimp only
    rw [openAncestors_eq hts hinstance u habove]
    rfl
  · obtain ⟨fuel, habove⟩ := habove.exists
    simp only [SiteBelow, hu, List.mem_filterMap, List.mem_filter, beq_iff_eq,
      c.mem_ancestors_iff habove, and_assoc]

/-- The sites that a variance takes from those above a candidate and those below it. -/
def chosenSites (v : Variance) (above below : List Site) : List Site :=
  match v with
  | .covariant => above
  | .contravariant => below
  | .invariant => above.filter below.contains
  | .ambivariant => above ++ below

/-- The sites are chosen from both lists by the variance, without repetitions. -/
theorem sites_eq {fuel : Nat} {u : Ty} {d : DefIndex} {ks : List Constraint} {b : Bindings}
    {above below : List Site} (habove : sitesAbove c fuel u d = some above)
    (hbelow : sitesBelow c fuel u d ks b = some below) (v : Variance) :
    sites c fuel u d v ks b = some (distinctSites (chosenSites v above below)) := by
  have hboth : below.contains = fun s => decide (s ∈ below) := by
    funext s
    exact List.contains_eq_mem s below
  cases v <;> rw [sites] <;> simp only [habove, hbelow, chosenSites, hboth] <;> rfl

/-- A site is chosen exactly if the description of the lists says so. -/
theorem usedSite_iff {u : Ty} {d : DefIndex} {ts : List Ty} {t : Ty} {above below : List Site}
    (habove : ∀ site, site ∈ above ↔ SiteAbove c u d site)
    (hbelow : ∀ site, site ∈ below ↔ SiteBelow c u t ts site) (v : Variance) (site : Site) :
    site ∈ distinctSites (chosenSites v above below) ↔ UsedSite c v u d t ts site := by
  rw [mem_distinctSites]
  cases v with
  | covariant => exact habove site
  | contravariant => exact hbelow site
  | invariant =>
    rw [chosenSites, List.mem_filter, List.contains_iff_mem, habove, hbelow, UsedSite]
  | ambivariant => rw [chosenSites, List.mem_append, habove, hbelow, UsedSite]

/-- With enough fuel the sites are known: those that the variance asks for. -/
theorem eventually_usedSites (hends : c.HierarchyEnds) {fuel : Nat} {d : DefIndex}
    {ks : List Constraint} {ts : List Ty} {t u : Ty} {b : Bindings}
    (hts : ∀ a ∈ ts, c.Canonical a) (hinstance : c.instantiate fuel d ts = some (.ok t))
    {e : DefIndex} (hu : u.head? = some e)
    (hknown : ∀ᶠ fuel in atTop, knownArgs c fuel b ks = some (ts.map some)) (v : Variance) :
    ∃ found : List Site, (∀ᶠ fuel in atTop, sites c fuel u d v ks b = some found) ∧
      ∀ site, site ∈ found ↔ UsedSite c v u d t ts site := by
  obtain ⟨above, habove, hmemAbove⟩ := eventually_sitesAbove hends u d
  obtain ⟨below, hbelow, hmemBelow⟩ := eventually_sitesBelow hends hts hinstance hu hknown
  refine ⟨distinctSites (chosenSites v above below), ?_, usedSite_iff hmemAbove hmemBelow v⟩
  filter_upwards [habove, hbelow] with fuel habove hbelow
  exact sites_eq habove hbelow v

/-! ### Sites of proper types

Both ways of finding sites stay within proper types. So each argument of a site can be read, and
reading gives a proper type that the sub-constraint is then matched with. -/

/-- A proper type has as many arguments as its definition takes. -/
theorem Catalog.Proper.length_headArgs {t : Ty} (ht : c.Proper 0 t) {d : DefIndex}
    (h : t.head? = some d) : t.headArgs.length = c.arity d :=
  ht.atArity.length_headArgs h

/-- A site of a proper type has an argument for each parameter, and all of them are proper. -/
theorem UsedSite.proper (hc : c.WellDeclared) {v : Variance} {fuel : Nat} {d : DefIndex}
    {ts : List Ty} {t u : Ty} (hts : ∀ a ∈ ts, c.Canonical a)
    (hinstance : c.instantiate fuel d ts = some (.ok t)) (hu : c.Proper 0 u) {site : Site}
    (h : UsedSite c v u d t ts site) : site.length = ts.length ∧ ∀ s ∈ site, c.Proper 0 s := by
  have habove : SiteAbove c u d site → site.length = ts.length ∧ ∀ s ∈ site, c.Proper 0 s := by
    rintro ⟨a, ha, hhead, rfl⟩
    have hproper := ha.proper hc hu
    refine ⟨?_, hproper.headArgs⟩
    rw [hproper.length_headArgs hhead, c.length_of_instantiate hinstance]
  have hbelow : SiteBelow c u t ts site → site.length = ts.length ∧ ∀ s ∈ site, c.Proper 0 s := by
    rintro ⟨o, -, -, hsolve⟩
    exact solveSite?_hereditary (Catalog.hereditary_proper c 0) hu.headArgs
      (fun a ha => (hts a ha).proper) hsolve
  cases v with
  | covariant => exact habove h
  | contravariant => exact hbelow h
  | invariant => exact habove h.1
  | ambivariant => exact h.elim habove hbelow

/-- A type's own arguments are a site of it, above it and below it. -/
theorem usedSite_self {fuel : Nat} {d : DefIndex} {ts : List Ty} {t : Ty}
    (hts : ∀ a ∈ ts, c.Canonical a) (hinstance : c.instantiate fuel d ts = some (.ok t))
    (v : Variance) : UsedSite c v t d t ts t.headArgs := by
  have habove : SiteAbove c t d t.headArgs :=
    ⟨t, .refl c t, c.head?_of_instantiate hinstance, rfl⟩
  have hbelow : SiteBelow c t t ts t.headArgs := by
    rcases instance_cases hts hinstance with ⟨rfl, n, elem, rfl, rfl⟩ | ⟨-, hform, hlength⟩
    · exact ⟨_, .refl c _, rfl, solveSite?_openArray n elem elem⟩
    · refine ⟨c.openInstance d, hform ▸ .refl c _, (c.head?_of_instantiate hinstance).symm, ?_⟩
      exact solveSite?_openInstance c d t.headArgs ts hlength (c.length_of_instantiate hinstance)
  cases v with
  | covariant => exact habove
  | contravariant => exact hbelow
  | invariant => exact ⟨habove, hbelow⟩
  | ambivariant => exact .inl habove

/-! ## One step of the induction

One instance: each of its sites decides, if its sub-constraints do, and what has been found for the
arguments is put together to the instance again. The rebuilt instance is the type that the
description is of, and it remains to compare that with the candidate. -/

/-- An instance constraint goes through its sites. -/
theorem argSolutions_of_sites {fuel : Nat} {outer v : Variance} {d : DefIndex}
    (hkind : Constraint.isKindMarker d = false) {ks : List Constraint}
    (hcount : c.arity d = ks.length) {b : Bindings} {u : Ty} (hu : u.structuralForm = .ok u)
    {found : List Site} (hsites : sites c fuel u d (outer.nest v) ks b = some found) :
    argSolutions c fuel outer u b (.instanceOf d v ks) =
      .concat (found.map fun site => (false,
        (siteSolutions c fuel (outer.nest v) site b ks).each false fun p =>
          (rebuiltSolutions c fuel (outer.nest v) d u p.2).map fun result => (p.1, result))) := by
  rw [argSolutions, instanceSolutions, structuralSolutions, hu]
  dsimp only
  split
  · next hm => simp [Constraint.isKindMarker, hm, Marker.isKind] at hkind
  · next hm => simp [Constraint.isKindMarker, hm, Marker.isKind] at hkind
  · rw [checkArgCount, if_pos hcount]
    dsimp only
    rw [hsites]
    rfl

/-- If the arguments make an instance, then rebuilding it compares the instance with the candidate.
-/
theorem rebuiltSolutions_of_instantiate {fuel : Nat} {d : DefIndex} {ts : List Ty} {t : Ty}
    (h : c.instantiate fuel d ts = some (.ok t)) (v : Variance) (u : Ty) :
    rebuiltSolutions c fuel v d u ts = .guard (isRelative c fuel v t u) t := by
  rw [rebuiltSolutions, h]
  rfl

/-- What a sub-constraint that describes `t` decides: whether it finds `t` in a proper type. In `t`
itself it finds it. -/
def EventuallyDecides (c : Catalog) (v : Variance) (b : Bindings) (k : Constraint) (t : Ty) :
    Prop :=
  ∀ u, c.Proper 0 u → u.structuralForm = .ok u → ∃ P : Prop, (u = t → P) ∧
    ∀ᶠ fuel in atTop, (argSolutions c fuel v u b k).Decides (b, t) P

/-- A site of proper types is decided if all sub-constraints decide. A site that reads as the
described arguments is accepted. -/
theorem eventually_decides_site {v : Variance} {b : Bindings} {ks : List Constraint} {ts : List Ty}
    (hlength : ks.length = ts.length)
    (ih : ∀ p ∈ ks.zip ts, EventuallyDecides c v b p.1 p.2) {site : Site}
    (hsite : site.length = ts.length) (hproper : ∀ s ∈ site, c.Proper 0 s) :
    ∃ S : Prop, (site.map Ty.structuralForm = ts.map .ok → S) ∧
      ∀ᶠ fuel in atTop, (siteSolutions c fuel v site b ks).Decides (b, ts) S := by
  induction ks generalizing ts site with
  | nil =>
    obtain rfl := List.length_eq_zero_iff.mp hlength.symm
    refine ⟨True, fun _ => trivial, Eventually.of_forall fun fuel => ?_⟩
    rw [siteSolutions]
    exact Listing.decides_one _
  | cons k ks ihks =>
    cases ts with
    | nil => cases hlength
    | cons t ts =>
      -- A site that is too short ends the list of arguments early, and here sites have one argument
      -- for each sub-constraint. Otherwise the first argument decides, and behind it the rest of
      -- the site does.
      cases site with
      | nil => cases hsite
      | cons s site =>
        obtain ⟨hk, hks⟩ := List.forall_mem_cons.mp ih
        obtain ⟨hs, hrest⟩ := List.forall_mem_cons.mp hproper
        obtain ⟨u, hu, huproper⟩ := hs.exists_structuralForm
        obtain ⟨P, hP, hdecides⟩ := hk u huproper (Ty.structuralForm_idem hu)
        obtain ⟨S, hS, hthen⟩ := ihks (Nat.succ.inj hlength) hks (Nat.succ.inj hsite) hrest
        refine ⟨P ∧ S, fun hread => ?_, ?_⟩
        · obtain ⟨hfirst, hothers⟩ := List.cons_eq_cons.mp hread
          exact ⟨hP (Except.ok.inj (hu.symm.trans hfirst)), hS hothers⟩
        · filter_upwards [hdecides, hthen] with fuel hdecides hthen
          rw [siteSolutions, structuralSolutions, hu]
          exact hdecides.each false (hthen.map fun q => (q.1, t :: q.2))

/-- A type is a relative of itself under every variance. -/
theorem isRelative_self (fuel : Nat) (v : Variance) (t : Ty) :
    isRelative c (fuel + 1) v t t = some true := by
  cases v with
  | invariant => simp [isRelative]
  | covariant => exact c.isAssignable_self fuel t
  | contravariant => exact c.isAssignable_self fuel t
  | ambivariant => rw [isRelative, c.isAssignable_self fuel t, Fueled.or]

/-- A type is its own relative, whatever the variance. -/
theorem eventually_isRelative_self (v : Variance) (t : Ty) :
    ∀ᶠ fuel in atTop, isRelative c fuel v t t = some true := by
  filter_upwards [eventually_gt_atTop 0] with fuel hpos
  obtain ⟨fuel, rfl⟩ := Nat.exists_eq_succ_of_ne_zero (Nat.ne_of_gt hpos)
  exact isRelative_self fuel v t

/-- **An instance constraint decides**, if its sub-constraints do. It finds nothing without a site,
and it finds the described type if a site reads as its arguments and it is a relative of the
candidate. -/
theorem eventually_decides_instance (hc : c.WellDeclared) (hends : c.HierarchyEnds)
    (hassign : c.AssignabilityEnds) (outer v : Variance) (b : Bindings) {fuel : Nat} {d : DefIndex}
    {ks : List Constraint} {ts : List Ty} {t : Ty}
    (hkind : Constraint.isKindMarker d = false) (hlength : ks.length = ts.length)
    (hargs : ∀ p ∈ ks.zip ts, Describes c p.1 p.2)
    (hinstance : c.instantiate fuel d ts = some (.ok t))
    (ih : ∀ p ∈ ks.zip ts, EventuallyDecides c (outer.nest v) b p.1 p.2) {u : Ty}
    (hu : c.Proper 0 u) (hform : u.structuralForm = .ok u) :
    ∃ Q : Prop, (Q → ∃ site, UsedSite c (outer.nest v) u d t ts site) ∧
      (∀ site, UsedSite c (outer.nest v) u d t ts site →
        site.map Ty.structuralForm = ts.map .ok →
        (∀ᶠ fuel in atTop, isRelative c fuel (outer.nest v) t u = some true) → Q) ∧
      ∀ᶠ fuel in atTop, (argSolutions c fuel outer u b (.instanceOf d v ks)).Decides (b, t) Q := by
  have hts := forall_mem_of_zip hlength fun p hp => (hargs p hp).canonical
  have hknown := eventually_knownArgs hlength hargs b
  obtain ⟨e, he⟩ := Ty.exists_head? hu.isClosed
  obtain ⟨found, hsites, hmem⟩ :=
    eventually_usedSites hends hts hinstance he hknown (outer.nest v)
  have hsolved : ∀ site, ∃ S : Prop, site ∈ found →
      (site.map Ty.structuralForm = ts.map .ok → S) ∧
        ∀ᶠ fuel in atTop, (siteSolutions c fuel (outer.nest v) site b ks).Decides (b, ts) S := by
    intro site
    by_cases hsite : site ∈ found
    · obtain ⟨hlen, hproper⟩ := ((hmem site).mp hsite).proper hc hts hinstance hu
      obtain ⟨S, hS⟩ := eventually_decides_site hlength ih hlen hproper
      exact ⟨S, fun _ => hS⟩
    · exact ⟨True, fun h => absurd h hsite⟩
  choose S hS using hsolved
  have hfound : ∀ᶠ fuel in atTop, ∀ site ∈ found,
      (siteSolutions c fuel (outer.nest v) site b ks).Decides (b, ts) (S site) :=
    eventually_forall_mem fun site hsite => (hS site hsite).2
  have hthen := Fueled.eventually_eq_some (fun h => c.instantiate_le h d ts) hinstance
  obtain ⟨passes, hrelative⟩ :=
    settled_isRelative (hassign.settled t u) (hassign.settled u t) (outer.nest v)
  refine ⟨∃ site ∈ found, S site ∧ passes = true, ?_, ?_, ?_⟩
  · exact fun ⟨site, hsite, _⟩ => ⟨site, (hmem site).mp hsite⟩
  · intro site hused hread htrue
    have hsite := (hmem site).mpr hused
    obtain ⟨fuel, htrue, hpasses⟩ := (htrue.and hrelative).exists
    exact ⟨site, hsite, (hS site hsite).1 hread, Option.some.inj (hpasses.symm.trans htrue)⟩
  · filter_upwards [hsites, hfound, hthen, hrelative] with fuel hsites hfound hthen hrelative
    have hcount : c.arity d = ks.length :=
      (c.length_of_instantiate hinstance).symm.trans hlength.symm
    rw [argSolutions_of_sites hkind hcount hform hsites]
    refine .concat fun site hsite => (hfound site hsite).each false ?_
    -- what is rebuilt from the described arguments is the described type
    dsimp only at hrelative ⊢
    rw [rebuiltSolutions_of_instantiate hthen, hrelative]
    exact (Listing.decides_guard passes t).map _

/-- **A description decides**, below any variance, which proper types it accepts; the described type
itself it accepts. -/
theorem Describes.eventually_decides (hc : c.WellDeclared) (hends : c.HierarchyEnds)
    (hassign : c.AssignabilityEnds) (b : Bindings) {k : Constraint} {t : Ty} (h : Describes c k t)
    (outer : Variance) : EventuallyDecides c outer b k t := by
  induction h generalizing outer with
  | @intro d v ks ts t fuel hkind hlength hargs hinstance ih =>
    intro u hu hform
    have hts := forall_mem_of_zip hlength fun p hp => (hargs p hp).canonical
    obtain ⟨Q, -, hfinds, hdecides⟩ := eventually_decides_instance hc hends hassign outer v b hkind
      hlength hargs hinstance (fun p hp => ih p hp (outer.nest v)) hu hform
    refine ⟨Q, ?_, hdecides⟩
    rintro rfl
    refine hfinds u.headArgs (usedSite_self hts hinstance _)
      (Catalog.headArgs_of_instantiate hts hinstance) ?_
    exact eventually_isRelative_self _ u

end TypeResolution

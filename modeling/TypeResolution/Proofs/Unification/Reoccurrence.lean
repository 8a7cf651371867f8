import TypeResolution.Proofs.Catalog.Conversion
import TypeResolution.Proofs.Unification.Instances
import TypeResolution.Proofs.Unification.Union

/-!
# Parameters that occur again

A slot may name a parameter that is bound already. It then compares its candidate with the type that
the parameter is bound to, and one expects it to accept what that type, written out in its place,
would accept. But the two ask different questions. A parameter asks whether one of the types
*inherits* the other (`reoccurs_iff`). A type that is written out is matched part by part, and in
the end it is asked whether one is *assignable* to the other (`Matches.relates_assignable`); there
variance counts. So a parameter that is bound to sequences of objects refuses sequences of strings,
which the written-out type accepts (`boundSequence_refuses`).

Whatever the parameter accepts the written-out type accepts too (`matches_of_inherits`). They accept
the same if nothing about the type varies (`Matches.relates_of_fixed`): a site that is accepted then
consists of the type's own arguments, and such a site is there by inheritance alone.

The slot that names the parameter is compared with the slot that holds the expansion of the bound
type, under the same variance and with the same bindings. The first has no sites, so its question is
one test (`matchParam_eq`); the second goes through what has been shown of descriptions.
-/

namespace TypeResolution

open Filter Catalog

/-! ## Relatives under a variance

Relatives are taken from a relation by the variance: in its direction, against it, in either, or not
at all but for equality. The two questions differ in the relation only. -/

/-- The relation holds in a direction that the variance accepts; invariance accepts the same type
only. -/
def Variance.Relates (R : Ty → Ty → Prop) : Variance → Ty → Ty → Prop
  | .invariant, t, u => t = u
  | .covariant, t, u => R t u
  | .contravariant, t, u => R u t
  | .ambivariant, t, u => R t u ∨ R u t

/-- Relatives stay relatives if both directions carry over. -/
theorem Variance.Relates.imp {R S : Ty → Ty → Prop} {v : Variance} {t u : Ty}
    (h : v.Relates R t u) (hforth : R t u → S t u) (hback : R u t → S u t) : v.Relates S t u := by
  cases v with
  | invariant => exact h
  | covariant => exact hforth h
  | contravariant => exact hback h
  | ambivariant => exact Or.imp hforth hback h

variable {ν : Type} {c : Catalog}

/-! ## Matching a parameter

The bound type is read and so is the candidate, and both are read as themselves if they are
canonical. What is left is to look for the one among the ancestors of the other. -/

/-- The record of matching a candidate with a slot that holds a parameter. -/
def matchParam {ν : Type} (c : Catalog) (fuel : Nat) (x : String) (v : Variance) (definitive : Bool)
    (u : Ty) (b : Bindings) : Search.Transcript ν ResolutionError Bindings :=
  (slotBindings c fuel [⟨[.param x v], definitive⟩] [u] b).run Search.takeAll

/-- The match comes to its end and has found something. -/
def Reoccurs (ν : Type) (c : Catalog) (x : String) (v : Variance) (definitive : Bool) (u : Ty)
    (b : Bindings) : Prop :=
  ∃ fuel, (matchParam c fuel x v definitive u b : Search.Transcript ν _ _).ending ≠ none ∧
    (matchParam c fuel x v definitive u b : Search.Transcript ν _ _).items ≠ []

section Param

variable {x : String} {b : Bindings} {t u : Ty} {v : Variance} {definitive : Bool} {fuel : Nat}

/-- A parameter that is bound finds the bindings of before, if candidate and bound type are
related. -/
theorem matchParam_eq (hbound : b.get? x = some t) (ht : t.structuralForm = .ok t)
    (hu : u.structuralForm = .ok u) :
    (matchParam c fuel x v definitive u b : Search.Transcript ν _ _) =
      (Search.guard (related c fuel v u t) b).run Search.takeAll := by
  rw [matchParam, slotBindings]
  dsimp only
  rw [matchAll, matchOne, hbound]
  dsimp only
  rw [compareBound, withStructural, hu]
  dsimp only
  rw [withStructural, ht, nest_ambivariant]
  dsimp only
  rcases related c fuel v u t with _ | _ | _
  all_goals cases definitive
  all_goals rfl

/-- They are related if one inherits the other in a direction that the variance accepts. -/
theorem related_eq_some {answer : Bool} (h : related c fuel v u t = some answer) :
    answer = true ↔ v.Relates (fun t u => c.Inherits u t) t u := by
  have hinherits : ∀ {s a : Ty} {answer : Bool}, inherits c fuel s a = some answer →
      (answer = true ↔ c.Inherits s a) := by
    intro s a answer h
    obtain ⟨above, habove, rfl⟩ := Option.map_eq_some_iff.mp h
    rw [decide_eq_true_eq, c.mem_ancestors_iff habove]
  -- Each variance looks at the ancestors of one of the two, or of both; an invariant parameter
  -- compares without looking.
  cases v with
  | invariant =>
    rw [← Option.some.inj h, decide_eq_true_eq]
    exact eq_comm
  | covariant => exact hinherits h
  | contravariant => exact hinherits h
  | ambivariant =>
    have hor : Fueled.or (inherits c fuel u t) (fun _ => inherits c fuel t u) = some answer := h
    rw [Variance.Relates]
    cases answer with
    | true =>
      have heither := (Fueled.or_eq_true hor).imp (fun h => (hinherits h).mp rfl)
        fun h => (hinherits h).mp rfl
      exact iff_of_true rfl heither
    | false =>
      obtain ⟨hforth, hback⟩ := Fueled.or_eq_false hor
      rw [← hinherits hforth, ← hinherits hback, or_self]

/-- What a match of a parameter finds is seen under any fuel that suffices to compare the types. -/
theorem reoccurs_iff_of_related (hbound : b.get? x = some t) (ht : t.structuralForm = .ok t)
    (hu : u.structuralForm = .ok u) {answer : Bool} (h : related c fuel v u t = some answer) :
    (matchParam c fuel x v definitive u b : Search.Transcript ν _ _).ending =
        some (.ok .finished) ∧
      (Reoccurs ν c x v definitive u b ↔ answer = true) := by
  have hrun : ∀ fuel, (matchParam c fuel x v definitive u b : Search.Transcript ν _ _) =
      (Search.guard (related c fuel v u t) b).run Search.takeAll :=
    fun _ => matchParam_eq hbound ht hu
  -- With the answer known, the run under that fuel delivers the bindings or not, and under any
  -- other fuel it says the same or nothing.
  constructor
  · rw [hrun, h]
    cases answer <;> rfl
  · constructor
    · rintro ⟨n, hend, hitems⟩
      rw [hrun] at hend hitems
      rcases hn : related c n v u t with _ | answer'
      · rw [hn] at hend
        exact absurd rfl hend
      · obtain rfl : answer' = answer :=
          Fueled.eq_of_answers (fun hle => related_le c hle v u t) hn h
        cases answer' with
        | true => rfl
        | false =>
          rw [hn] at hitems
          exact absurd rfl hitems
    · rintro rfl
      refine ⟨fuel, ?_, ?_⟩
      all_goals
        rw [hrun, h]
        nofun

/-- **A parameter that occurs again accepts by inheritance.** Its match always comes to an end
without an error. -/
theorem reoccurs_iff (hends : c.HierarchyEnds) (hbound : b.get? x = some t) (ht : c.Canonical t)
    (hu : c.Canonical u) :
    (∃ fuel, (matchParam c fuel x v definitive u b : Search.Transcript ν _ _).ending =
        some (.ok .finished)) ∧
      (Reoccurs ν c x v definitive u b ↔ v.Relates (fun t u => c.Inherits u t) t u) := by
  obtain ⟨answer, hanswer⟩ := settled_related (hends u) (hends t) v
  obtain ⟨fuel, hanswer⟩ := hanswer.exists
  have hreoccurs : (matchParam c fuel x v definitive u b : Search.Transcript ν _ _).ending =
      some (.ok .finished) ∧ (Reoccurs ν c x v definitive u b ↔ answer = true) :=
    reoccurs_iff_of_related hbound ht.structuralForm hu.structuralForm hanswer
  exact ⟨⟨fuel, hreoccurs.1⟩, hreoccurs.2.trans (related_eq_some hanswer)⟩

end Param

/-! ## What the written-out type accepts

Inheriting gives a site that reads as the arguments of the type, so whatever is related by
inheritance is found. Conversely, what is found has passed the test of assignability at the end. -/

section Written

variable {t u : Ty} {b : Bindings} {v : Variance} {definitive : Bool}

/-- **What inherits is matched.** The written-out type accepts whatever the parameter accepts. -/
theorem matches_of_inherits (hc : c.WellDeclared) (hbare : c.NoBareParam) (hends : c.HierarchyEnds)
    (hassign : c.AssignabilityEnds) (ht : c.Canonical t) (hu : c.Canonical u)
    (hkind : t.mentionsKindMarker = false) (h : v.Relates (fun t u => c.Inherits u t) t u) :
    Matches ν c t v definitive u b := by
  obtain ⟨d, ks, ts, he⟩ := exists_expansion ht hkind
  obtain ⟨-, -, hdecides⟩ := matchVariance_decides (ν := ν) hc hends hassign he hu v definitive b
  -- One site for each direction. Under ambivariance either will do.
  cases v with
  | invariant =>
    obtain rfl : t = u := h
    obtain ⟨fuel, hinstance⟩ := he.isInstance
    exact hdecides _ (usedSite_self he.canonical hinstance .invariant) he.reads
      (eventually_isRelative_self .invariant t)
  | covariant =>
    obtain ⟨site, hsite, hread⟩ := exists_siteAbove he h
    exact hdecides site hsite hread (h.eventually_isAssignable hassign)
  | contravariant =>
    obtain ⟨site, hsite, hread⟩ := exists_siteBelow hc hbare he ht h
    exact hdecides site hsite hread (h.eventually_isAssignable hassign)
  | ambivariant =>
    have hrelative := eventually_isRelative_ambivariant hassign h
    rcases h with hut | htu
    · obtain ⟨site, hsite, hread⟩ := exists_siteAbove he hut
      exact hdecides site (.inl hsite) hread hrelative
    · obtain ⟨site, hsite, hread⟩ := exists_siteBelow hc hbare he ht htu
      exact hdecides site (.inr hsite) hread hrelative

/-- The test at the end says that the candidate is a relative by assignability. -/
theorem relates_of_isRelative {fuel : Nat} (h : isRelative c fuel v t u = some true) :
    v.Relates c.Assignable t u := by
  have haccepts := accepts_of_isRelative c fuel h
  have hrelates : v.Relates (c.AssignableIn fuel) t u := by
    cases v
    all_goals exact haccepts
  exact hrelates.imp AssignableIn.assignable AssignableIn.assignable

/-- **What is matched is assignable.** -/
theorem Matches.relates_assignable (hends : c.HierarchyEnds) (hassign : c.AssignabilityEnds)
    (ht : c.Canonical t) (hu : c.Canonical u) (hkind : t.mentionsKindMarker = false)
    (h : Matches ν c t v definitive u b) : v.Relates c.Assignable t u := by
  obtain ⟨d, ks, ts, he⟩ := exists_expansion ht hkind
  obtain ⟨s : Survey ν c t u d ks ts definitive b⟩ := he.nonempty_survey (ν := ν) hu hends hassign
  obtain ⟨-, -, -, hrelative⟩ := s.exists_site he hu h
  exact relates_of_isRelative hrelative

end Written

/-! ## Types that nothing varies about

If all parameters of a definition are invariant, and no pointer stands among the arguments in
nominal form, then converting an instance of it changes nothing. To be assignable is to be
inherited, then, or to have the site of an inherited instance. -/

/-- A target that is no array, and whose definition declares invariant parameters only, is assigned
to by inheritance alone. -/
theorem Catalog.Assignable.inherits_of_invariant (hassign : c.AssignabilityEnds)
    {target source : Ty} (htarget : c.Proper 0 target) (harray : ∀ n elem, target ≠ .array n elem)
    (hparams : ∀ d ts, target = .named d ts →
      ∀ p ∈ (c.definition d).params, p.variance = .invariant)
    (h : c.Assignable target source) : c.Inherits source target := by
  rcases hassign.assignable_iff.mp h with h | ⟨n, t, u, rfl, -⟩ |
    ⟨a, ha, d, ts, us, rfl, rfl, -, hargs⟩
  · exact h
  · exact absurd rfl (harray n t)
  -- arguments in invariant places are equal, so the ancestor assigned from is the target
  · have hsame : ts = us := by
      refine List.ext_getElem hargs.length_eq fun i h₁ h₂ => ?_
      have hlt : i < (c.definition d).params.length :=
        Nat.lt_of_lt_of_eq h₁ (htarget.length_headArgs rfl)
      rcases hargs.related i _ _ _ (List.getElem?_eq_getElem hlt) (List.getElem?_eq_getElem h₁)
        (List.getElem?_eq_getElem h₂) with heq | ⟨-, -, hdirects⟩
      · exact heq
      · rw [hparams d ts rfl _ (List.getElem_mem hlt)] at hdirects
        exact hdirects.elim
    exact hsame ▸ ha

/-- Nothing about the type varies. -/
structure Catalog.Fixed (c : Catalog) (t : Ty) : Prop where
  /-- the definition of a nominal type declares invariant parameters only -/
  params : ∀ d ts, t = .named d ts → ∀ p ∈ (c.definition d).params, p.variance = .invariant
  /-- the type is a pointer or a by-reference type, or no such type is among its arguments -/
  args : (∃ elem, t = .pointer elem) ∨ (∃ elem, t = .byRef elem) ∨
    ∀ s ∈ t.headArgs, storedArg s.reading = s.reading

/-- Only pointers and by-reference types are read from anything but themselves. -/
theorem Catalog.Proper.eq_of_structuralForm {n : Nat} {s x : Ty} (hs : c.Proper n s)
    (hx : s.structuralForm = .ok x) (hstored : storedArg x = x) : s = x := by
  rcases Ty.structuralForm_ok hx with rfl | ⟨d, args, rfl, hread⟩
  · rfl
  · rcases Ty.structural?_ok hread with ⟨rfl, -⟩ | ⟨-, elem, -, rfl⟩ | ⟨-, elem, -, rfl⟩
    · cases hs with
      | named hd _ _ => exact absurd rfl hd
    · cases hstored
    · cases hstored

/-- Arguments that are not stored differently are determined by their readings. -/
theorem eq_of_reads {ss ts : List Ty} (hproper : ∀ s ∈ ss, c.Proper 0 s)
    (hts : ∀ x ∈ ts, storedArg x = x) (hreads : ss.map Ty.structuralForm = ts.map .ok) :
    ss = ts := by
  induction ss generalizing ts with
  | nil => exact (List.map_eq_nil_iff.mp hreads.symm).symm
  | cons s ss ih =>
    cases ts with
    | nil => cases hreads
    | cons x ts =>
      obtain ⟨hs, hss⟩ := List.forall_mem_cons.mp hproper
      obtain ⟨hx, hts⟩ := List.forall_mem_cons.mp hts
      obtain ⟨hread, hreads⟩ := List.cons_eq_cons.mp hreads
      rw [hs.eq_of_structuralForm hread hx, ih hss hts hreads]

section Fixed

variable {t u : Ty} {d : DefIndex} {ks : List Constraint} {ts : List Ty} {definitive : Bool}
  {b : Bindings} {v : Variance}

/-- A site above the candidate with the type's own arguments is the type among the ancestors. -/
theorem SiteAbove.inherits (hc : c.WellDeclared) (hbare : c.NoBareParam) (ht : c.Canonical t)
    (hu : c.Canonical u) (hd : t.head? = some d) (h : SiteAbove c u d t.headArgs) :
    c.Inherits u t := by
  obtain ⟨a, ha, hhead, hargs⟩ := h
  have hform := ha.structuralForm hc hbare hu.structuralForm
  exact Ty.eq_of_headArgs hform ht.structuralForm hhead hd hargs ▸ ha

/-- A site below the candidate with the type's own arguments is the candidate among the ancestors of
the type, if the type is its open form over these arguments. -/
theorem SiteBelow.inherits (hc : c.WellDeclared) (hbare : c.NoBareParam) (ht : c.Canonical t)
    (hu : c.Canonical u) {n : Nat} (hopen : c.Proper n (c.openForm t))
    (hsubst : (c.openForm t).subst t.headArgs = t) (h : SiteBelow c u t ts t.headArgs) :
    c.Inherits t u := by
  obtain ⟨o, ho, hhead, hsolve⟩ := h
  obtain ⟨e, he⟩ := hu.head?_ne_none
  have hbare' : ∀ i, o ≠ .param i := by
    rintro i rfl
    cases hhead.trans he
  -- the ancestor is one of the open form, so it is put back over the type's arguments
  have hinherits : c.Inherits t (o.subst t.headArgs) := by
    have h := ho.subst hc hopen t.headArgs
    rwa [hsubst] at h
  have hsame : o.subst t.headArgs = u := by
    refine Ty.eq_of_headArgs (hinherits.structuralForm hc hbare ht.structuralForm) hu.structuralForm
      ((head?_subst hbare' _).trans (hhead.trans he)) he ?_
    rw [headArgs_subst hbare']
    exact solveSite?_sound hsolve
  exact hsame ▸ hinherits

/-- All types but pointers and by-reference types are their open forms over their arguments. -/
theorem Catalog.Proper.exists_openForm (ht : c.Proper 0 t) (hpointer : ∀ elem, t ≠ .pointer elem)
    (hbyRef : ∀ elem, t ≠ .byRef elem) :
    ∃ n, c.Proper n (c.openForm t) ∧ (c.openForm t).subst t.headArgs = t := by
  cases ht with
  | param hi => exact absurd hi (Nat.not_lt_zero _)
  | @named d ts hd hlength hts =>
    exact ⟨c.arity d, (properOpen_openInstance hd).1, subst_openInstance d hlength⟩
  | @array rank elem helem => exact ⟨2, .array (.param (Nat.lt_succ_self 1)), rfl⟩
  | pointer _ => exact absurd rfl (hpointer _)
  | byRef _ => exact absurd rfl (hbyRef _)

/-- Under invariant sub-constraints, what is matched has a site that reads as the type's
arguments. -/
theorem Survey.exists_reading_site (hc : c.WellDeclared) (h : Expansion c t d ks ts)
    (hu : c.Canonical u) (s : Survey ν c t u d ks ts definitive b)
    (hks : ∀ k ∈ ks, HasVariance (· = .invariant) k) (hm : Matches ν c t v definitive u b) :
    ∃ site ∈ chosenSites v s.above s.below,
      site.map Ty.structuralForm = ts.map .ok ∧ ∀ x ∈ site, c.Proper 0 x := by
  obtain ⟨site, hsite, ⟨q, hq⟩, -⟩ := s.exists_site h hu hm
  obtain ⟨fuel, hinstance⟩ := h.isInstance
  have hused : UsedSite c .ambivariant u d t ts site :=
    (mem_chosenSites hsite).imp (s.mem_above site).mp (s.mem_below site).mp
  obtain ⟨hlength, hproper⟩ := hused.proper hc h.canonical hinstance hu.proper
  have hreads := reads_of_mem_siteSolutions_under h.length_eq hks h.describes hlength hq
  exact ⟨site, hsite, hreads, hproper⟩

/-- **What is matched is inherited**, if all sub-constraints are invariant and no argument is a
pointer or a by-reference type. -/
theorem Survey.relates_of_invariant (hc : c.WellDeclared) (hbare : c.NoBareParam)
    (h : Expansion c t d ks ts) (ht : c.Canonical t) (hu : c.Canonical u)
    (s : Survey ν c t u d ks ts definitive b) {n : Nat}
    (hopen : c.Proper n (c.openForm t)) (hsubst : (c.openForm t).subst t.headArgs = t)
    (hks : ∀ k ∈ ks, HasVariance (· = .invariant) k) (hts : ∀ x ∈ ts, storedArg x = x)
    (hm : Matches ν c t v definitive u b) : v.Relates (fun t u => c.Inherits u t) t u := by
  obtain ⟨site, hsite, hreads, hproper⟩ := s.exists_reading_site hc h hu hks hm
  -- nothing is read as a pointer, so what reads as the arguments is the arguments
  obtain rfl : site = t.headArgs :=
    (eq_of_reads hproper hts hreads).trans (eq_of_reads ht.proper.headArgs hts h.reads).symm
  have habove : t.headArgs ∈ s.above → c.Inherits u t := fun hmem =>
    ((s.mem_above _).mp hmem).inherits hc hbare ht hu h.head?
  have hbelow : t.headArgs ∈ s.below → c.Inherits t u := fun hmem =>
    ((s.mem_below _).mp hmem).inherits hc hbare ht hu hopen hsubst
  cases v with
  | invariant =>
    obtain ⟨-, -, -, hrelative⟩ := s.exists_site h hu hm
    exact relates_of_isRelative (v := .invariant) hrelative
  | covariant => exact habove hsite
  | contravariant => exact hbelow hsite
  | ambivariant => exact (List.mem_append.mp hsite).imp habove hbelow

/-- Pointers and by-reference types are related to nothing but what inherits them and what they
inherit, whatever else may be assignable. -/
theorem relates_of_single (hassign : c.AssignabilityEnds) (ht : c.Canonical t)
    (hsingle : (∃ elem, t = .pointer elem) ∨ ∃ elem, t = .byRef elem)
    (h : v.Relates c.Assignable t u) : v.Relates (fun t u => c.Inherits u t) t u := by
  have harray : ∀ n elem, t ≠ .array n elem := by
    rintro n elem rfl
    rcases hsingle with ⟨_, heq⟩ | ⟨_, heq⟩ <;> cases heq
  have hnamed : ∀ d ts, t ≠ .named d ts := by
    rintro d ts rfl
    rcases hsingle with ⟨_, heq⟩ | ⟨_, heq⟩ <;> cases heq
  refine h.imp (fun h => ?_) fun h => ?_
  · exact h.inherits_of_invariant hassign ht.proper harray fun d ts heq => absurd heq (hnamed d ts)
  · rcases hassign.assignable_iff.mp h with h | ⟨n, _, elem, -, heq, -⟩ |
      ⟨a, ha, d, _, us, -, heq, -⟩
    · exact h
    · exact absurd heq (harray n elem)
    · rw [ha.eq_of_structural hsingle] at heq
      exact absurd heq (hnamed d us)

/-- **What is matched is inherited**, if nothing about the type varies. -/
theorem Matches.relates_of_fixed (hc : c.WellDeclared) (hbare : c.NoBareParam)
    (hends : c.HierarchyEnds) (hassign : c.AssignabilityEnds) (ht : c.Canonical t)
    (hu : c.Canonical u) (hkind : t.mentionsKindMarker = false) (hfixed : c.Fixed t)
    (h : Matches ν c t v definitive u b) : v.Relates (fun t u => c.Inherits u t) t u := by
  by_cases hsingle : (∃ elem, t = .pointer elem) ∨ ∃ elem, t = .byRef elem
  -- the open form of a pointer is its stand-in, which puts together no pointer
  · exact relates_of_single hassign ht hsingle
      (h.relates_assignable hends hassign ht hu hkind)
  · obtain ⟨n, hopen, hsubst⟩ := ht.proper.exists_openForm
      (fun elem heq => hsingle (.inl ⟨elem, heq⟩)) fun elem heq => hsingle (.inr ⟨elem, heq⟩)
    obtain ⟨d, ks, ts, he⟩ := exists_expansion ht hkind
    obtain ⟨s : Survey ν c t u d ks ts definitive b⟩ := he.nonempty_survey (ν := ν) hu hends hassign
    have hks := he.hasVariance (V := (· = .invariant)) rfl ht.isClosed hfixed.params
    have hargs : ∀ s ∈ t.headArgs, storedArg s.reading = s.reading :=
      (or_assoc.mpr hfixed.args).resolve_left hsingle
    have hts : ∀ x ∈ ts, storedArg x = x := by
      intro x hx
      have hread : Except.ok x ∈ t.headArgs.map Ty.structuralForm :=
        he.reads ▸ List.mem_map_of_mem hx
      obtain ⟨s, hs, hread⟩ := List.mem_map.mp hread
      exact Ty.reading_eq hread ▸ hargs s hs
    exact s.relates_of_invariant hc hbare he ht hu hopen hsubst hks hts h

end Fixed

/-! ## Occurring again and matching again -/

/-- **Where a parameter agrees with the type that it is bound to.** In a catalog in which the walks
over ancestors and the questions of assignability come to their ends, match a canonical candidate
`u` with a slot that holds a parameter bound to a canonical type `t`, which mentions no kind marker.
Under every variance the match comes to its end without an error, and the parameter accepts `u` if
one of the types inherits the other in a direction that the variance accepts. What the written-out
type accepts is assignable in such a direction. If the catalog is declared well and inherits from no
bare parameter, then the written-out type accepts whatever the parameter accepts. The two accept the
same under invariance; under every variance if nothing about `t` varies; and under covariance if `t`
is no array and its definition declares invariant parameters only. -/
theorem reoccurrence_agrees (hends : c.HierarchyEnds) (hassign : c.AssignabilityEnds) {t u : Ty}
    (ht : c.Canonical t) (hu : c.Canonical u) (hkind : t.mentionsKindMarker = false) {x : String}
    {b : Bindings} (hbound : b.get? x = some t) (definitive : Bool) :
    (∀ v, (∃ fuel, (matchParam c fuel x v definitive u b : Search.Transcript ν _ _).ending =
          some (.ok .finished)) ∧
        (Reoccurs ν c x v definitive u b ↔ v.Relates (fun t u => c.HasAncestor u t) t u) ∧
        (Matches ν c t v definitive u b → v.Relates c.Assignable t u)) ∧
      (c.WellDeclared → c.NoBareParam →
        (∀ v, Reoccurs ν c x v definitive u b → Matches ν c t v definitive u b) ∧
        (Reoccurs ν c x .invariant definitive u b ↔ Matches ν c t .invariant definitive u b) ∧
        (c.Fixed t →
          ∀ v, Reoccurs ν c x v definitive u b ↔ Matches ν c t v definitive u b) ∧
        ((∀ n elem, t ≠ .array n elem) →
          (∀ d ts, t = .named d ts → ∀ p ∈ (c.definition d).params, p.variance = .invariant) →
          (Reoccurs ν c x .covariant definitive u b ↔
            Matches ν c t .covariant definitive u b))) := by
  have hancestor : (fun t u => c.HasAncestor u t) = fun t u => c.Inherits u t :=
    funext fun t => funext fun u => propext hends.hasAncestor_iff
  have hreoccurs : ∀ v,
      (∃ fuel, (matchParam c fuel x v definitive u b : Search.Transcript ν _ _).ending =
          some (.ok .finished)) ∧
        (Reoccurs ν c x v definitive u b ↔ v.Relates (fun t u => c.Inherits u t) t u) :=
    fun v => reoccurs_iff hends hbound ht hu
  have hassignable := fun v (h : Matches ν c t v definitive u b) =>
    h.relates_assignable hends hassign ht hu hkind
  rw [hancestor]
  refine ⟨fun v => ⟨(hreoccurs v).1, (hreoccurs v).2, hassignable v⟩, fun hc hbare => ?_⟩
  have hmatches : ∀ v, Reoccurs ν c x v definitive u b → Matches ν c t v definitive u b :=
    fun v h => matches_of_inherits hc hbare hends hassign ht hu hkind ((hreoccurs v).2.mp h)
  refine ⟨hmatches, ⟨hmatches _, fun h => ?_⟩, fun hfixed v => ⟨hmatches v, fun h => ?_⟩,
    fun harray hparams => ⟨hmatches _, fun h => ?_⟩⟩
  · exact (hreoccurs .invariant).2.mpr (hassignable .invariant h)
  · exact (hreoccurs v).2.mpr (h.relates_of_fixed hc hbare hends hassign ht hu hkind hfixed)
  · exact (hreoccurs .covariant).2.mpr
      ((hassignable .covariant h).inherits_of_invariant hassign ht.proper harray hparams)

section BaseLibrary

/-- In the base library nothing about `IList<string>` varies. Bound to a parameter or written out,
it accepts lists of strings as its descendants, but no lists of objects, and sequences of strings as
its ancestors. -/
theorem boundList_agrees :
    (Reoccurs Empty baseLibrary "T" .covariant false (.named 14 [.nominal 18])
          [("T", .named 12 [.nominal 18])] ∧
        Matches Empty baseLibrary (.named 12 [.nominal 18]) .covariant false
          (.named 14 [.nominal 18]) [("T", .named 12 [.nominal 18])]) ∧
      (¬ Reoccurs Empty baseLibrary "T" .covariant false (.named 14 [.nominal 8])
          [("T", .named 12 [.nominal 18])] ∧
        ¬ Matches Empty baseLibrary (.named 12 [.nominal 18]) .covariant false
          (.named 14 [.nominal 8]) [("T", .named 12 [.nominal 18])]) ∧
      Reoccurs Empty baseLibrary "T" .contravariant false (.named 11 [.nominal 18])
          [("T", .named 12 [.nominal 18])] ∧
        Matches Empty baseLibrary (.named 12 [.nominal 18]) .contravariant false
          (.named 11 [.nominal 18]) [("T", .named 12 [.nominal 18])] := by
  have hends := baseLibrary_acyclic.hierarchyEnds
  have hassign := baseLibrary_flat.assignabilityEnds hends
  have hstring : baseLibrary.Canonical (.nominal 18) := canonical_nominal rfl
  have hobject : baseLibrary.Canonical (.nominal 8) := canonical_nominal rfl
  have hbound : baseLibrary.Canonical (.named 12 [.nominal 18]) := hstring.generic 12 rfl rfl
  have hstrings : baseLibrary.Canonical (.named 14 [.nominal 18]) := hstring.generic 14 rfl rfl
  have hobjects : baseLibrary.Canonical (.named 14 [.nominal 8]) := hobject.generic 14 rfl rfl
  have hsequence : baseLibrary.Canonical (.named 11 [.nominal 18]) := hstring.generic 11 rfl rfl
  -- The one parameter of the definition is invariant, and its argument is no pointer.
  have hfixed : baseLibrary.Fixed (.named 12 [.nominal 18]) := by
    refine ⟨?_, .inr (.inr (List.forall_mem_singleton.mpr rfl))⟩
    rintro d ts heq
    obtain ⟨rfl, -⟩ := Ty.named.inj heq
    decide
  have hagrees := fun u (hu : baseLibrary.Canonical u) => reoccurrence_agrees (ν := Empty) hends
    hassign hbound hu rfl (x := "T") (b := [("T", .named 12 [.nominal 18])]) rfl false
  have hiff := fun u hu => ((hagrees u hu).2 baseLibrary_wellDeclared baseLibrary_noBareParam).2.2.1
    hfixed
  have hdown : Reoccurs Empty baseLibrary "T" .covariant false (.named 14 [.nominal 18])
      [("T", .named 12 [.nominal 18])] :=
    ((hagrees _ hstrings).1 .covariant).2.1.mpr ⟨9, _, rfl, by decide +kernel⟩
  have hup : Reoccurs Empty baseLibrary "T" .contravariant false (.named 11 [.nominal 18])
      [("T", .named 12 [.nominal 18])] :=
    ((hagrees _ hsequence).1 .contravariant).2.1.mpr ⟨9, _, rfl, by decide +kernel⟩
  have hother : ¬ Reoccurs Empty baseLibrary "T" .covariant false (.named 14 [.nominal 8])
      [("T", .named 12 [.nominal 18])] := by
    rw [((hagrees _ hobjects).1 .covariant).2.1, Variance.Relates, hends.hasAncestor_iff,
      ← mem_ancestors_iff (show baseLibrary.ancestors 9 _ = some _ from rfl)]
    decide +kernel
  exact ⟨⟨hdown, (hiff _ hstrings .covariant).mp hdown⟩,
    ⟨hother, fun h => hother ((hiff _ hobjects .covariant).mpr h)⟩,
    hup, (hiff _ hsequence .contravariant).mp hup⟩

/-- **A bound parameter refuses what the written-out type accepts.** Sequences are covariant, so a
sequence of strings is assignable to sequences of objects and is matched with them, but it does not
inherit them. -/
theorem boundSequence_refuses :
    baseLibrary.HierarchyEnds ∧ baseLibrary.AssignabilityEnds ∧
      baseLibrary.Canonical (.named 11 [.nominal 8]) ∧
      baseLibrary.Canonical (.named 11 [.nominal 18]) ∧
      (Ty.named 11 [.nominal 8]).mentionsKindMarker = false ∧
      ¬ Reoccurs Empty baseLibrary "T" .covariant false (.named 11 [.nominal 18])
        [("T", .named 11 [.nominal 8])] ∧
      Matches Empty baseLibrary (.named 11 [.nominal 8]) .covariant false (.named 11 [.nominal 18])
        [("T", .named 11 [.nominal 8])] := by
  have hends := baseLibrary_acyclic.hierarchyEnds
  have hassign := baseLibrary_flat.assignabilityEnds hends
  have hobjects : baseLibrary.Canonical (.named 11 [.nominal 8]) :=
    (canonical_nominal rfl).generic 11 rfl rfl
  have hstrings : baseLibrary.Canonical (.named 11 [.nominal 18]) :=
    (canonical_nominal rfl).generic 11 rfl rfl
  refine ⟨hends, hassign, hobjects, hstrings, rfl, ?_, matches_of_run 9 rfl rfl⟩
  rw [(reoccurs_iff hends rfl hobjects hstrings).2, Variance.Relates,
    ← mem_ancestors_iff (show baseLibrary.ancestors 9 _ = some _ from rfl)]
  decide +kernel

end BaseLibrary

end TypeResolution

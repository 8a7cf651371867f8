import TypeResolution.Proofs.Catalog.Inheritance
import TypeResolution.Proofs.Unification.SolvedSites
import TypeResolution.Proofs.Unification.Soundness

/-!
# The types that matching meets

Matching takes candidates apart, climbs to their ancestors, and builds instances of the definitions
that its constraints name. A set of types that has all of this is *closed under matching*, and a
match that starts inside does not leave it: what a site consists of (`MatchClosed.mem_sites`), what
a constraint stands for (`MatchClosed.mem_singleType`) and what names are bound to
(`MatchClosed.in_slotSolutions`) is inside again.

What is known of all types in such a set is therefore known of all types met.

A closed set is asked for rather than the set of types that are met, because the closed sets that
matter are given by a property: all types, the types that apply definitions at their arity, the
types below a bound of depth. The least one is what a resolution meets, and it is defined where
resolutions are.
-/

namespace TypeResolution

/-! ## What a constraint names

A constraint names definitions, at any depth, and a set of definitions that has all of them in it is
a set that the constraint is *over*. Constraints over no particular set are over the set of all
definitions (`over_true`). -/

namespace Constraint

mutual
/-- The definitions that a constraint asks for instances of, its parts included. -/
def targets : Constraint → List DefIndex
  | .wildcard => []
  | .param .. => []
  | .instanceOf target _ args => target :: targetsAll args
  | .negation inner => targetsAll inner

/-- The definitions that constraints ask for instances of. -/
def targetsAll : List Constraint → List DefIndex
  | [] => []
  | k :: ks => targets k ++ targetsAll ks
end

/-- The definitions of a list of constraints are those of its elements. `targetsAll` is written by
recursion only because `targets` recurses through it. -/
theorem targetsAll_eq_flatMap (ks : List Constraint) : targetsAll ks = ks.flatMap targets := by
  induction ks with
  | nil => rfl
  | cons k ks ih => rw [targetsAll, ih, List.flatMap_cons]

/-- All targets of a constraint satisfy `D`. -/
def Over (D : DefIndex → Prop) (k : Constraint) : Prop := ∀ d ∈ k.targets, D d

instance (D : DefIndex → Prop) [DecidablePred D] (k : Constraint) : Decidable (k.Over D) :=
  inferInstanceAs (Decidable (∀ d ∈ k.targets, D d))

variable {D : DefIndex → Prop}

/-- If a list is over a set, then so is each constraint of it. -/
theorem Over.of_mem {ks : List Constraint} (h : ∀ d ∈ targetsAll ks, D d) {k : Constraint}
    (hk : k ∈ ks) : k.Over D := by
  intro d hd
  rw [targetsAll_eq_flatMap] at h
  exact h d (List.mem_flatMap.mpr ⟨k, hk, hd⟩)

/-- The target of an instance constraint is one of the definitions that it names. -/
theorem Over.target {target : DefIndex} {v : Variance} {args : List Constraint}
    (h : (instanceOf target v args).Over D) : D target := h target List.mem_cons_self

/-- And so are the definitions of its arguments. -/
theorem Over.args {target : DefIndex} {v : Variance} {args : List Constraint}
    (h : (instanceOf target v args).Over D) : ∀ k ∈ args, k.Over D :=
  fun _ hk => of_mem (fun d hd => h d (List.mem_cons_of_mem target hd)) hk

/-- Every constraint is over the set of all definitions. -/
theorem over_true (k : Constraint) : k.Over fun _ => True := fun _ _ => trivial

/-- The constraints under a negation are named by it, although nothing they match is ever bound. -/
theorem Over.inner {inner : List Constraint} (h : (negation inner).Over D) :
    ∀ k ∈ inner, k.Over D :=
  fun _ hk => of_mem h hk

end Constraint

/-- All names are bound to types of a set. -/
def Bindings.In (M : Ty → Prop) (b : Bindings) : Prop := ∀ name t, b.get? name = some t → M t

/-- Without bindings nothing is bound to a type outside. -/
theorem Bindings.in_nil (M : Ty → Prop) : Bindings.In M [] := fun _ _ h => by cases h

/-- Binding one more name to a type inside keeps all bound types inside. -/
theorem Bindings.In.bind {M : Ty → Prop} {b : Bindings} (hb : b.In M) (name : String) {t : Ty}
    (ht : M t) : (b.bind name t).In M := by
  intro other u hu
  by_cases hname : other = name
  · rw [hname, Bindings.get?_bind_self] at hu
    exact Option.some.inj hu ▸ ht
  · rw [Bindings.get?_bind_of_ne b t hname] at hu
    exact hb other u hu

/-! ## Sets that matching does not leave

What follows is one statement about each function of matching, said of the items that the function
finds: all types in them are inside if all types given to it are. -/

/-- A set of types that matching does not leave, as long as its constraints name only definitions
from `D`. -/
structure Catalog.MatchClosed (c : Catalog) (D : DefIndex → Prop) (M : Ty → Prop) : Prop where
  /-- structural forms are inside -/
  reading : ∀ t u, M t → t.structuralForm = .ok u → M u
  /-- what a type is an instance over is inside -/
  headArgs : ∀ t, M t → ∀ x ∈ t.headArgs, M x
  /-- ancestors are inside -/
  inherited : ∀ t a, M t → c.Inherits t a → M a
  /-- instances over types inside are inside -/
  built : ∀ d args t, D d → (∀ a ∈ args, M a) → c.HasInstance d args t → M t

/-- All types together are such a set. -/
theorem Catalog.matchClosed_univ (c : Catalog) (D : DefIndex → Prop) :
    c.MatchClosed D fun _ => True :=
  ⟨fun _ _ _ _ => trivial, fun _ _ _ _ => trivial, fun _ _ _ _ => trivial,
    fun _ _ _ _ _ _ => trivial⟩

variable {c : Catalog} {D : DefIndex → Prop} {M : Ty → Prop}

namespace Catalog.MatchClosed

/-- A closed set is closed under parts, at any depth, as it is under arguments. -/
theorem hereditary (hM : c.MatchClosed D M) : Ty.Hereditary M where
  named d ts h t ht := hM.headArgs (.named d ts) h t ht
  array n t h := hM.headArgs _ h t (by simp [Ty.headArgs])
  pointer t h := hM.headArgs _ h t (by simp [Ty.headArgs])
  byRef t h := hM.headArgs _ h t (by simp [Ty.headArgs])

variable {fuel : Nat} {b : Bindings}

/-! ### Sites

A site is made of arguments of an ancestor, or it is solved from what is known of the arguments
below a target. Either way it consists of types inside. -/

mutual
/-- What a constraint stands for is inside. -/
theorem mem_singleType (hM : c.MatchClosed D M) (hb : b.In M) : (k : Constraint) → k.Over D →
    {t : Ty} → k.singleType c fuel b = some (some t) → M t
  | .wildcard, _, _, h => by cases h
  | .negation _, _, _, h => by cases h
  | .param name _, _, t, h => hb name t (Option.some.inj h)
  | .instanceOf target v args, hk, t, h => by
    rw [Constraint.singleType] at h
    split at h
    · cases h
    · split at h
      · cases h
      · cases h
      · next ts hts =>
        -- the instance is built over types inside, so it is inside
        obtain ⟨result, hresult, hok⟩ := Option.map_eq_some_iff.mp h
        cases result with
        | error e => cases hok
        | ok u =>
          obtain rfl := Option.some.inj hok
          exact hM.built target ts u hk.target (mem_singleTypes hM hb args hk.args hts)
            ⟨fuel, hresult⟩

/-- What a list of constraints stands for is inside, if each of them stands for one type. -/
theorem mem_singleTypes (hM : c.MatchClosed D M) (hb : b.In M) : (ks : List Constraint) →
    (∀ k ∈ ks, k.Over D) → {ts : List Ty} →
    Constraint.singleTypes c fuel b ks = some (some ts) → ∀ t ∈ ts, M t
  | [], _, ts, h => by
    obtain rfl := Option.some.inj (Option.some.inj h)
    exact fun t ht => absurd ht List.not_mem_nil
  | k :: ks, hks, ts, h => by
    obtain ⟨hk, hks⟩ := List.forall_mem_cons.mp hks
    rw [Constraint.singleTypes] at h
    split at h
    · cases h
    · cases h
    · next t ht =>
      obtain ⟨rest, hrest, h⟩ := Option.map_eq_some_iff.mp h
      obtain ⟨us, hus, rfl⟩ := Option.map_eq_some_iff.mp h
      subst hus
      exact List.forall_mem_cons.mpr
        ⟨mem_singleType hM hb k hk ht, mem_singleTypes hM hb ks hks hrest⟩
end

mutual
/-- What a directive builds is inside. -/
theorem mem_requireType (hM : c.MatchClosed D M) (hb : b.In M) : (k : Constraint) → k.Over D →
    {t : Ty} → k.requireType c fuel b = some (.ok t) → M t
  | .wildcard, _, _, h => by cases h
  | .negation _, _, _, h => by cases h
  | .param name _, _, t, h => by
    rw [Constraint.requireType] at h
    split at h
    · next u hu =>
      obtain rfl := Except.ok.inj (Option.some.inj h)
      exact hb name u hu
    · cases h
  | .instanceOf target v args, hk, t, h => by
    rw [Constraint.requireType] at h
    split at h
    · cases h
    · cases h
    · next ts hts =>
      obtain ⟨result, hresult, hok⟩ := Option.map_eq_some_iff.mp h
      cases result with
      | error e => cases hok
      | ok u =>
        obtain rfl := Except.ok.inj hok
        exact hM.built target ts u hk.target (mem_requireTypes hM hb args hk.args hts)
          ⟨fuel, hresult⟩

/-- What directives build is inside. -/
theorem mem_requireTypes (hM : c.MatchClosed D M) (hb : b.In M) : (ks : List Constraint) →
    (∀ k ∈ ks, k.Over D) → {ts : List Ty} →
    Constraint.requireTypes c fuel b ks = some (.ok ts) → ∀ t ∈ ts, M t
  | [], _, ts, h => by
    obtain rfl := Except.ok.inj (Option.some.inj h)
    exact fun t ht => absurd ht List.not_mem_nil
  | k :: ks, hks, ts, h => by
    obtain ⟨hk, hks⟩ := List.forall_mem_cons.mp hks
    rw [Constraint.requireTypes] at h
    split at h
    · cases h
    · cases h
    · next t ht =>
      obtain ⟨rest, hrest, h⟩ := Option.map_eq_some_iff.mp h
      cases rest with
      | error e => cases h
      | ok us =>
        obtain rfl := Except.ok.inj h
        exact List.forall_mem_cons.mpr
          ⟨mem_requireType hM hb k hk ht, mem_requireTypes hM hb ks hks hrest⟩
end

/-- What is known of the arguments of a constraint is inside, with a place for each of them. -/
theorem mem_knownArgs (hM : c.MatchClosed D M) (hb : b.In M) {ks : List Constraint}
    (hks : ∀ k ∈ ks, k.Over D) {known : Assignment} (h : knownArgs c fuel b ks = some known) :
    known.length = ks.length ∧ ∀ x, some x ∈ known → M x := by
  induction ks generalizing known with
  | nil =>
    obtain rfl := Option.some.inj h
    exact ⟨rfl, fun x hx => absurd hx List.not_mem_nil⟩
  | cons k ks ih =>
    obtain ⟨hk, hks⟩ := List.forall_mem_cons.mp hks
    rw [knownArgs] at h
    split at h
    · cases h
    · next first hfirst =>
      obtain ⟨rest, hrest, rfl⟩ := Option.map_eq_some_iff.mp h
      obtain ⟨hlength, hall⟩ := ih hks hrest
      refine ⟨congrArg (· + 1) hlength, fun x hx => ?_⟩
      rcases List.mem_cons.mp hx with rfl | hx
      · exact hM.mem_singleType hb k hk hfirst
      · exact hall x hx

/-- The rank that an array site is built for is written as a type inside. -/
theorem mem_wantedRank (hM : c.MatchClosed D M) {candidate : Ty} (hu : M candidate)
    {known : Assignment} (hknown : ∀ x, some x ∈ known → M x) {n : Nat}
    (h : wantedRank? candidate known = some n) : M (rankEncoding n) := by
  have hfixed : known.head?.join.bind readRank? = some n → M (rankEncoding n) := by
    intro h
    obtain ⟨t, ht, hn⟩ := Option.bind_eq_some_iff.mp h
    have hmem : some t ∈ known := List.mem_of_mem_head? (Option.join_eq_some_iff.mp ht)
    exact eq_rankEncoding_of_readRank? hn ▸ hknown t hmem
  -- only an array has a rank of its own; for any other candidate the rank has to be known
  cases candidate with
  | array m elem =>
    cases hrank : known.head?.join.bind readRank? with
    | some k =>
      simp only [wantedRank?, hrank] at h
      exact hfixed (hrank.trans h)
    | none =>
      simp only [wantedRank?, hrank] at h
      obtain rfl := Option.some.inj h
      exact hM.headArgs _ hu _ (by simp [Ty.headArgs])
  | _ => exact hfixed h

/-- What is known of the arguments of a target stays inside when the open target is looked at. -/
theorem mem_openAncestors (hM : c.MatchClosed D M) {candidate : Ty} (hu : M candidate)
    {target : DefIndex} {known known' : Assignment} (hknown : ∀ x, some x ∈ known → M x)
    {above : List Ty}
    (h : openAncestors c fuel candidate target known = some (some (above, known'))) :
    known'.length = known.length ∧ ∀ x, some x ∈ known' → M x := by
  rw [openAncestors] at h
  split at h
  · split at h
    · cases h
    · next n hn =>
      obtain ⟨_, -, heq⟩ := Option.map_eq_some_iff.mp h
      obtain ⟨-, rfl⟩ := Prod.mk.inj (Option.some.inj heq)
      refine ⟨List.length_set, fun x hx => ?_⟩
      rcases List.mem_or_eq_of_mem_set hx with hx | hx
      · exact hknown x hx
      · exact Option.some.inj hx ▸ hM.mem_wantedRank hu hknown hn
  · obtain ⟨_, -, heq⟩ := Option.map_eq_some_iff.mp h
    obtain ⟨-, rfl⟩ := Prod.mk.inj (Option.some.inj heq)
    exact ⟨rfl, hknown⟩

/-- A site above a candidate is made up of the arguments of an ancestor. -/
theorem mem_sitesAbove (hM : c.MatchClosed D M) {candidate : Ty} (hu : M candidate)
    {target : DefIndex} {found : List Site} (h : sitesAbove c fuel candidate target = some found) :
    ∀ site ∈ found, ∃ a, c.Inherits candidate a ∧ a.head? = some target ∧ a.headArgs = site ∧
      ∀ x ∈ site, M x := by
  obtain ⟨above, habove, rfl⟩ := Option.map_eq_some_iff.mp h
  intro site hsite
  obtain ⟨a, ha, rfl⟩ := List.mem_map.mp hsite
  obtain ⟨ha, hhead⟩ := List.mem_filter.mp ha
  have hinherits := (c.mem_ancestors_iff habove).mp ha
  exact ⟨a, hinherits, by simpa using hhead, rfl,
    hM.headArgs a (hM.inherited candidate a hu hinherits)⟩

/-- A site below a candidate is solved from the candidate's own arguments and from what is known,
and nothing else gets into it. -/
theorem mem_sitesBelow (hM : c.MatchClosed D M) (hb : b.In M) {candidate : Ty} (hu : M candidate)
    {target : DefIndex} {ks : List Constraint} (hks : ∀ k ∈ ks, k.Over D) {found : List Site}
    (h : sitesBelow c fuel candidate target ks b = some found) :
    ∀ site ∈ found, site.length = ks.length ∧ ∀ x ∈ site, M x := by
  rw [sitesBelow] at h
  split at h
  · obtain rfl := Option.some.inj h
    exact fun site hsite => absurd hsite List.not_mem_nil
  · split at h
    · cases h
    · next known hknown =>
      obtain ⟨hlength, hall⟩ := hM.mem_knownArgs hb hks hknown
      obtain ⟨opened, hopened, rfl⟩ := Option.map_eq_some_iff.mp h
      rcases opened with _ | ⟨above, known'⟩
      · exact fun site hsite => absurd hsite List.not_mem_nil
      · obtain ⟨hlength', hall'⟩ := hM.mem_openAncestors hu hall hopened
        intro site hsite
        obtain ⟨a, -, hsolve⟩ := List.mem_filterMap.mp hsite
        have hparts := solveSite?_parts hM.hereditary (hM.headArgs candidate hu) hall' hsolve
        exact ⟨hparts.1.trans (hlength'.trans hlength), hparts.2⟩

/-- **What a site consists of is inside**, and it is the arguments of an ancestor or has one
argument for each sub-constraint. -/
theorem mem_sites (hM : c.MatchClosed D M) (hb : b.In M) {candidate : Ty} (hu : M candidate)
    {target : DefIndex} {v : Variance} {ks : List Constraint} (hks : ∀ k ∈ ks, k.Over D)
    {found : List Site} (h : sites c fuel candidate target v ks b = some found) :
    ∀ site ∈ found, (∀ x ∈ site, M x) ∧ (site.length = ks.length ∨
      ∃ a, c.Inherits candidate a ∧ a.head? = some target ∧ a.headArgs = site) := by
  have habove : ∀ {above}, sitesAbove c fuel candidate target = some above → ∀ site ∈ above,
      (∀ x ∈ site, M x) ∧ (site.length = ks.length ∨
        ∃ a, c.Inherits candidate a ∧ a.head? = some target ∧ a.headArgs = site) := by
    intro above h site hsite
    obtain ⟨a, hinherits, hhead, hargs, hall⟩ := hM.mem_sitesAbove hu h site hsite
    exact ⟨hall, .inr ⟨a, hinherits, hhead, hargs⟩⟩
  have hbelow : ∀ {below}, sitesBelow c fuel candidate target ks b = some below →
      ∀ site ∈ below, (∀ x ∈ site, M x) ∧ (site.length = ks.length ∨
        ∃ a, c.Inherits candidate a ∧ a.head? = some target ∧ a.headArgs = site) := by
    -- solved sites have as many arguments as were known to be wanted
    intro below h site hsite
    obtain ⟨hlength, hall⟩ := hM.mem_sitesBelow hb hu hks h site hsite
    exact ⟨hall, .inl hlength⟩
  rw [sites.eq_def] at h
  obtain ⟨all, hall, rfl⟩ := Option.map_eq_some_iff.mp h
  intro site hsite
  rw [mem_distinctSites] at hsite
  cases v with
  | covariant => exact habove hall site hsite
  | contravariant => exact hbelow hall site hsite
  | invariant =>
    dsimp only at hall
    split at hall
    · cases hall
    · obtain ⟨above, hs, rfl⟩ := Option.map_eq_some_iff.mp hall
      exact habove hs site (List.mem_of_mem_filter hsite)
  | ambivariant =>
    dsimp only at hall
    split at hall
    · cases hall
    · next above hs =>
      obtain ⟨below, ht, rfl⟩ := Option.map_eq_some_iff.mp hall
      rcases List.mem_append.mp hsite with hsite | hsite
      · exact habove hs site hsite
      · exact hbelow ht site hsite

/-! ### Solutions

Every step of a match binds names to parts of sites or to the candidate, so bindings with types
inside lead to bindings with types inside. Of an argument its type is followed as well: it goes into
the instance that is rebuilt. -/

mutual
/-- What an argument is matched with is inside, and so is what names are bound to then. For an
instance constraint the type is rebuilt over the solutions of a site, hence the recursion through
`in_siteSolutions`. -/
theorem in_argSolutions (hM : c.MatchClosed D M) {outer : Variance} {arg : Ty} (harg : M arg)
    {b : Bindings} (hb : b.In M) {p : Bindings × Ty} : (k : Constraint) → k.Over D →
    p ∈ (argSolutions c fuel outer arg b k).items → p.1.In M ∧ M p.2
  | .wildcard, _, h => by
    rw [argSolutions] at h
    rw [List.mem_singleton.mp h]
    exact ⟨hb, harg⟩
  | .param name v, _, h => by
    rw [argSolutions] at h
    split at h
    · rw [List.mem_singleton.mp h]
      exact ⟨hb.bind name harg, harg⟩
    · next bound hbound =>
      obtain ⟨t, ht, rfl⟩ := List.mem_map.mp h
      exact ⟨hb, hM.reading bound t (hb name bound hbound) (mem_boundSolutions c fuel ht)⟩
  | .instanceOf target v args, hk, h => by
    rw [argSolutions] at h
    obtain ⟨u, hu, ⟨-, rfl⟩ | ⟨-, found, site, ts, hfound, hsite, hts, hinstance, -⟩⟩ :=
      exists_site_of_mem_instanceSolutions c fuel h
    · exact ⟨hb, hM.reading arg u harg hu⟩
    · have hmem := (hM.mem_sites hb (hM.reading arg u harg hu) hk.args hfound site hsite).1
      obtain ⟨hin, hall⟩ := in_siteSolutions hM hb args hk.args hmem hts
      exact ⟨hin, hM.built target ts p.2 hk.target hall ⟨fuel, hinstance⟩⟩
  | .negation inner, _, h => absurd h List.not_mem_nil

/-- The arguments of a site are matched with types inside, one after another. -/
theorem in_siteSolutions (hM : c.MatchClosed D M) {outer : Variance} {site : Site} {b : Bindings}
    (hb : b.In M) {q : Bindings × List Ty} : (ks : List Constraint) → (∀ k ∈ ks, k.Over D) →
    (∀ x ∈ site, M x) → q ∈ (siteSolutions c fuel outer site b ks).items →
    q.1.In M ∧ ∀ t ∈ q.2, M t
  | [], _, _, h => by
    rw [siteSolutions] at h
    rw [List.mem_singleton.mp h]
    exact ⟨hb, fun t ht => absurd ht List.not_mem_nil⟩
  | k :: ks, hks, hsite, h => by
    obtain ⟨hk, hks⟩ := List.forall_mem_cons.mp hks
    cases site with
    | nil =>
      rw [siteSolutions] at h
      rw [List.mem_singleton.mp h]
      exact ⟨hb, fun t ht => absurd ht List.not_mem_nil⟩
    | cons arg rest =>
      obtain ⟨harg, hrest⟩ := List.forall_mem_cons.mp hsite
      rw [siteSolutions] at h
      obtain ⟨u, hu, h⟩ := mem_structuralSolutions h
      obtain ⟨p, hp, h⟩ := Listing.mem_each h
      obtain ⟨q, hq, rfl⟩ := List.mem_map.mp h
      obtain ⟨hin, ht⟩ := in_argSolutions hM (hM.reading arg u harg hu) hb k hk hp
      obtain ⟨hin, hts⟩ := in_siteSolutions hM hin ks hks hrest hq
      exact ⟨hin, List.forall_mem_cons.mpr ⟨ht, hts⟩⟩
end

mutual
/-- At its outermost place a constraint binds names to types inside. A negation binds nothing. -/
theorem in_constraintSolutions (hM : c.MatchClosed D M) {outer : Variance} {candidate : Ty}
    (hu : M candidate) {b : Bindings} (hb : b.In M) {e : Bindings} : (k : Constraint) → k.Over D →
    e ∈ (constraintSolutions c fuel outer candidate b k).items → e.In M
  | .wildcard, _, h => by
    rw [constraintSolutions] at h
    exact List.mem_singleton.mp h ▸ hb
  | .param name v, _, h => by
    rw [constraintSolutions] at h
    split at h
    · exact List.mem_singleton.mp h ▸ hb.bind name hu
    · obtain ⟨t, -, rfl⟩ := List.mem_map.mp h
      exact hb
  | .instanceOf target v args, hk, h => by
    rw [constraintSolutions] at h
    obtain ⟨p, hp, rfl⟩ := List.mem_map.mp h
    rw [← argSolutions] at hp
    exact (hM.in_argSolutions hu hb _ hk hp).1
  | .negation inner, _, h => by
    rw [constraintSolutions] at h
    exact List.mem_singleton.mp (Listing.mem_ifNone h) ▸ hb

/-- So do the constraints of a slot together. -/
theorem in_conjunctionSolutions (hM : c.MatchClosed D M) {outer : Variance} {candidate : Ty}
    (hu : M candidate) {b : Bindings} (hb : b.In M) {e : Bindings} : (ks : List Constraint) →
    (∀ k ∈ ks, k.Over D) → e ∈ (conjunctionSolutions c fuel outer candidate b ks).items → e.In M
  | [], _, h => by
    rw [conjunctionSolutions] at h
    exact List.mem_singleton.mp h ▸ hb
  | k :: ks, hks, h => by
    obtain ⟨hk, hks⟩ := List.forall_mem_cons.mp hks
    rw [conjunctionSolutions] at h
    obtain ⟨b', hb', h⟩ := Listing.mem_each h
    exact in_conjunctionSolutions hM hu (in_constraintSolutions hM hu hb k hk hb') ks hks h
end

/-- **Matching does not leave the set**: what names are bound to is inside. -/
theorem in_slotSolutions (hM : c.MatchClosed D M) {slots : List Slot}
    (hslots : ∀ s ∈ slots, ∀ k ∈ s.constraints, k.Over D) {candidates : List Ty}
    (hcandidates : ∀ t ∈ candidates, M t) {b : Bindings} (hb : b.In M) {e : Bindings}
    (h : e ∈ (slotSolutions c fuel slots candidates b).items) : e.In M := by
  induction slots generalizing candidates b with
  | nil =>
    rw [slotSolutions] at h
    exact List.mem_singleton.mp h ▸ hb
  | cons slot slots ih =>
    obtain ⟨hslot, hslots⟩ := List.forall_mem_cons.mp hslots
    cases candidates with
    | nil => exact absurd h List.not_mem_nil
    | cons candidate rest =>
      obtain ⟨hu, hrest⟩ := List.forall_mem_cons.mp hcandidates
      obtain ⟨b', hb', h⟩ := Listing.mem_each h
      exact ih hslots hrest (hM.in_conjunctionSolutions hu hb _ hslot hb') h

end Catalog.MatchClosed

end TypeResolution

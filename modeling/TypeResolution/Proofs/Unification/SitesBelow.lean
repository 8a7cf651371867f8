import TypeResolution.Proofs.Catalog.OpenLineage
import TypeResolution.Proofs.Unification.MoreFuel
import TypeResolution.Proofs.Unification.SolvedSites

/-!
# The sites below a candidate

The search for the instances of a target that have a candidate among their ancestors goes through
the ancestors of the open target. This module says what it finds without mentioning the search:
sites are the lists of types that turn an ancestor of the open target into the candidate, with the
types for which the sub-constraints stand wherever the ancestor leaves a parameter out
(`MeetsAt`). For arrays, the open target has the rank that the first sub-constraint fixes, or else
the candidate's own (`OpenTarget`).

The search finds these and no others (`sitesBelow_exact`). The target applied to a site is a type
that has the candidate among its ancestors (`MeetsAt.exists_application`), whether or not it meets
its bounds.

So there is one direction in which the code searches and one in which the theorem speaks. The search
starts from the target and looks at everything that this inherits. The theorem starts from a site
and says which application of the target it stands for; that this application inherits the candidate
is shown by putting the site into the open ancestor.
-/

namespace TypeResolution

open Filter

/-! ## What the sub-constraints say

A sub-constraint that stands for one type fixes the argument in its place, whatever the candidate
is. One that does not leaves the argument to the candidate, or else to nothing: then there is no
site. -/

/-- The constraint stands for this one type. -/
def Constraint.StandsFor (c : Catalog) (b : Bindings) (k : Constraint) (t : Ty) : Prop :=
  ∃ fuel, k.singleType c fuel b = some (some t)

/-- The first sub-constraint stands for this rank. -/
def FixesRank (c : Catalog) (b : Bindings) (ks : List Constraint) (n : Nat) : Prop :=
  ∃ k, ks[0]? = some k ∧ k.StandsFor c b (rankEncoding n)

/-- Arrays of this rank are looked for: the first sub-constraint fixes it, or it fixes none and the
candidate is an array of this rank. -/
def WantsRank (c : Catalog) (b : Bindings) (u : Ty) (ks : List Constraint) (n : Nat) : Prop :=
  FixesRank c b ks n ∨ (∀ m, ¬ FixesRank c b ks m) ∧ ∃ elem, u = .array n elem

/-- The type whose ancestors are matched with the candidate: a definition over its own parameters,
or, for the stand-in of arrays, the array of the wanted rank. -/
inductive OpenTarget (c : Catalog) (b : Bindings) (u : Ty) (d : DefIndex) (ks : List Constraint) :
    Ty → Prop
  /-- any other definition -/
  | openInstance (hd : d ≠ Marker.array.definition) : OpenTarget c b u d ks (c.openInstance d)
  /-- the stand-in of arrays -/
  | openArray {n : Nat} (hd : d = Marker.array.definition) (hn : WantsRank c b u ks n) :
      OpenTarget c b u d ks (.array n (.param 1))

/-- What is known of a parameter of the open target `x`: for an array the first one is its rank;
any other is what its sub-constraint stands for. -/
def KnownFor (c : Catalog) (b : Bindings) (ks : List Constraint) (x : Ty) (i : Nat) (t : Ty) :
    Prop :=
  match x, i with
  | .array n _, 0 => t = rankEncoding n
  | _, i => ∃ k, ks[i]? = some k ∧ k.StandsFor c b t

/-- The ancestor `a` of the open target `x` becomes the candidate `u` at the site `s`. -/
structure MeetsAt (c : Catalog) (b : Bindings) (ks : List Constraint) (u x a : Ty) (s : Site) :
    Prop where
  /-- there is a type for each sub-constraint -/
  length_eq : s.length = ks.length
  /-- the ancestor becomes an instance of the candidate's definition -/
  head?_eq : (a.subst s).head? = u.head?
  /-- with the candidate's arguments -/
  headArgs_eq : (a.subst s).headArgs = u.headArgs
  /-- whatever the ancestor leaves out is known -/
  known : ∀ i t, s[i]? = some t → a.mentions i = false → KnownFor c b ks x i t

variable {c : Catalog} {b : Bindings} {fuel : Nat} {u x : Ty} {d : DefIndex} {ks : List Constraint}

namespace Constraint

variable {k : Constraint}

/-- Once the question for the single type of a constraint is answered, the answer is what the
constraint stands for. -/
theorem standsFor_iff {known : Option Ty} (h : k.singleType c fuel b = some known) {t : Ty} :
    k.StandsFor c b t ↔ known = some t := by
  constructor
  · rintro ⟨fuel', ht⟩
    exact Fueled.eq_of_answers (fun h => singleType_le c h b k) h ht
  · rintro rfl
    exact ⟨fuel, h⟩

end Constraint

/-- What is known of the arguments is what the sub-constraints stand for. -/
theorem getElem?_knownArgs {known : Assignment} (h : knownArgs c fuel b ks = some known) :
    known.length = ks.length ∧ ∀ (i : Nat) (t : Ty),
      known[i]? = some (some t) ↔ ∃ k, ks[i]? = some k ∧ k.StandsFor c b t := by
  induction ks generalizing known with
  | nil =>
    obtain rfl := Option.some.inj h
    exact ⟨rfl, by simp⟩
  | cons k ks ih =>
    rw [knownArgs] at h
    split at h
    · cases h
    · next first hfirst =>
      obtain ⟨rest, hrest, rfl⟩ := Option.map_eq_some_iff.mp h
      obtain ⟨hlength, hall⟩ := ih hrest
      refine ⟨congrArg (· + 1) hlength, fun i t => ?_⟩
      cases i with
      | zero => simp [Constraint.standsFor_iff hfirst]
      | succ i => simpa using hall i t

/-- The rank to look for is read from what is known of the first argument. -/
theorem wantedRank?_eq_some_iff {known : Assignment}
    (hknown : ∀ t, known[0]? = some (some t) ↔ ∃ k, ks[0]? = some k ∧ k.StandsFor c b t) {n : Nat} :
    wantedRank? u known = some n ↔ WantsRank c b u ks n := by
  have hfixed : ∀ n, known.head?.join.bind readRank? = some n ↔ FixesRank c b ks n := by
    intro n
    simp only [Option.bind_eq_some_iff, Option.join_eq_some_iff, List.head?_eq_getElem?,
      readRank?_eq_some_iff, exists_eq_right]
    exact hknown (rankEncoding n)
  -- Either the first sub-constraint fixes the rank, or it fixes none, and then the candidate has to
  -- be an array that says which one is wanted.
  rcases hrank : known.head?.join.bind readRank? with _ | m
  · have hnone : ∀ m, ¬ FixesRank c b ks m := by
      intro m hm
      rw [← hfixed, hrank] at hm
      cases hm
    cases u <;> simp [wantedRank?, WantsRank, hrank, hnone]
  · have hm := (hfixed m).mp hrank
    have hunique : ∀ n, FixesRank c b ks n ↔ m = n := fun n => by
      rw [← hfixed, hrank, Option.some.injEq]
    have hwanted : wantedRank? u known = some m := by
      cases u <;> simp [wantedRank?, hrank]
    rw [hwanted, Option.some.injEq, WantsRank, hunique]
    exact ⟨.inl, fun h => h.resolve_right fun h => h.1 m hm⟩

/-! ## The open target

There is one open target for every definition but that of arrays. For arrays there is one for each
rank, and none if no rank is known; then nothing is found below the candidate. -/

/-- An open target is proper over the parameters of the definition. -/
theorem OpenTarget.properOpen (h : OpenTarget c b u d ks x) : c.ProperOpen (c.arity d) x := by
  cases h with
  | openInstance hd => exact Catalog.properOpen_openInstance hd
  | openArray hd hn =>
    rw [hd, c.arity_definition .array]
    exact ⟨.array (.param (Nat.lt_succ_self 1)), nofun⟩

/-- It is open at that arity. -/
theorem OpenTarget.openAtArity (h : OpenTarget c b u d ks x) : c.OpenAtArity (c.arity d) x :=
  ⟨h.properOpen.1.atArity, h.properOpen.2⟩

/-- For arrays it is the array of the wanted rank. -/
theorem openTarget_iff_array (hd : d = Marker.array.definition) :
    OpenTarget c b u d ks x ↔ ∃ n, WantsRank c b u ks n ∧ x = .array n (.param 1) := by
  constructor
  · rintro (hne | ⟨-, hn⟩)
    · exact absurd hd hne
    · exact ⟨_, hn, rfl⟩
  · rintro ⟨n, hn, rfl⟩
    exact .openArray hd hn

/-- For any other definition it is the open instance. -/
theorem openTarget_iff_openInstance (hd : d ≠ Marker.array.definition) :
    OpenTarget c b u d ks x ↔ x = c.openInstance d := by
  constructor
  · rintro (- | ⟨hd', -⟩)
    · rfl
    · exact absurd hd' hd
  · rintro rfl
    exact .openInstance hd

/-- The search goes through the ancestors of the open target, if there is one, with what is known of
its parameters. -/
theorem openAncestors_eq_some (hks : ks.length = c.arity d) {known : Assignment}
    (hknown : knownArgs c fuel b ks = some known) {result : Option (List Ty × Assignment)}
    (h : openAncestors c fuel u d known = some result) :
    (result = none ∧ ∀ x, ¬ OpenTarget c b u d ks x) ∨
      ∃ x above known', result = some (above, known') ∧
        (∀ y, OpenTarget c b u d ks y ↔ y = x) ∧ c.ancestors fuel x = some above ∧
        known'.length = ks.length ∧
        ∀ (i : Nat) (t : Ty), known'[i]? = some (some t) ↔ KnownFor c b ks x i t := by
  obtain ⟨hlength, hall⟩ := getElem?_knownArgs hknown
  rw [openAncestors] at h
  split at h
  · next harray =>
    have hd := Marker.eq_definition harray
    simp only [openTarget_iff_array hd, ← wantedRank?_eq_some_iff (hall 0)]
    split at h
    · next hnone => exact .inl ⟨(Option.some.inj h).symm, by simp [hnone]⟩
    · next n hn =>
      obtain ⟨above, habove, rfl⟩ := Option.map_eq_some_iff.mp h
      refine .inr ⟨.array n (.param 1), above, _, rfl, by simp [hn], habove, by simpa using hlength,
        fun i t => ?_⟩
      -- the rank stands in the first place, whatever was known there
      cases i with
      | zero =>
        have hfirst : 0 < known.length := by
          rw [hlength, hks, hd, c.arity_definition .array]
          exact Nat.succ_pos 1
        simp [KnownFor, hfirst, eq_comm]
      | succ i => simpa [KnownFor] using hall (i + 1) t
  · next hnot =>
    have hd : d ≠ Marker.array.definition := by
      rintro rfl
      exact hnot (Marker.ofDefinition?_definition .array)
    obtain ⟨above, habove, rfl⟩ := Option.map_eq_some_iff.mp h
    exact .inr ⟨c.openInstance d, above, known, rfl, fun _ => openTarget_iff_openInstance hd,
      habove,
      hlength, hall⟩

/-! ## Single ancestors

An ancestor of the open target is matched with the candidate, and this has at most one solution
(`solveSite?_eq_some_iff`). Both heads have to agree before anything is matched. -/

/-- A type that is no bare parameter mentions a parameter exactly if its arguments do. -/
theorem Ty.anyMentions_headArgs {a : Ty} (ha : ∀ i, a ≠ .param i) (i : Nat) :
    Ty.anyMentions i a.headArgs = a.mentions i := by
  cases a with
  | param j => exact absurd rfl (ha j)
  | named d ts => rfl
  | array n elem =>
    have hrank := Ty.mentions_of_isClosed i
      (Catalog.proper_rankEncoding (c := .empty) 0 n).isClosed
    simp [Ty.headArgs, Ty.anyMentions, Ty.mentions, hrank]
  | pointer elem => simp [Ty.headArgs, Ty.anyMentions, Ty.mentions]
  | byRef elem => simp [Ty.headArgs, Ty.anyMentions, Ty.mentions]

/-- An open ancestor with the candidate's definition is solved at the site where it becomes the
candidate. -/
theorem solveSite?_iff_meetsAt {known : Assignment} (hlength : known.length = ks.length)
    (hknown : ∀ (i : Nat) (t : Ty), known[i]? = some (some t) ↔ KnownFor c b ks x i t) {a : Ty}
    (ha : c.OpenAtArity ks.length a) {s : Site} :
    a.head? = u.head? ∧ solveSite? u.headArgs known a = some s ↔ MeetsAt c b ks u x a s := by
  have hparams : Ty.allParamsBelow known.length a.headArgs = true := by
    rw [Ty.allParamsBelow_eq_all, List.all_eq_true, hlength]
    exact fun t ht => (ha.atArity.headArgs t ht).paramsBelow
  rw [solveSite?_eq_some_iff hparams, ← Catalog.headArgs_subst ha.ne_param,
    ← Catalog.head?_subst ha.ne_param s, hlength]
  simp only [Ty.anyMentions_headArgs ha.ne_param, hknown]
  constructor
  · rintro ⟨hhead, hs, hargs, hunmentioned⟩
    exact ⟨hs, hhead, hargs, hunmentioned⟩
  · rintro ⟨hs, hhead, hargs, hunmentioned⟩
    exact ⟨hhead, hs, hargs, hunmentioned⟩

/-- The search lists the sites at which an ancestor of the open target becomes the candidate. -/
theorem mem_sitesBelow_iff (hc : c.WellDeclared) (hbare : c.NoBareParam)
    (hclosed : u.isClosed = true) (hks : ks.length = c.arity d) {found : List Site}
    (h : sitesBelow c fuel u d ks b = some found) (s : Site) :
    s ∈ found ↔ ∃ x a, OpenTarget c b u d ks x ∧ c.Inherits x a ∧ MeetsAt c b ks u x a s := by
  obtain ⟨e, he⟩ := Ty.exists_head? hclosed
  rw [sitesBelow, he] at h
  dsimp only at h
  split at h
  · cases h
  · next known hknown =>
    obtain ⟨result, hresult, rfl⟩ := Option.map_eq_some_iff.mp h
    -- Without an open target the search finds nothing and nothing is described. With one, each of
    -- its ancestors that has the right definition contributes the site that it has, if any.
    rcases openAncestors_eq_some hks hknown hresult with
      ⟨rfl, hnone⟩ | ⟨x, above, known', rfl, htarget, habove, hlength, hall⟩
    · simp [hnone]
    · have hopen := ((htarget x).mpr rfl).openAtArity
      rw [← hks] at hopen
      have hancestor : ∀ a ∈ above, c.OpenAtArity ks.length a := fun a ha =>
        hopen.of_inherits hc.atArity hbare ((Catalog.mem_ancestors_iff habove).mp ha)
      have htargets : (∃ x a, OpenTarget c b u d ks x ∧ c.Inherits x a ∧ MeetsAt c b ks u x a s) ↔
          ∃ a ∈ above, MeetsAt c b ks u x a s := by
        constructor
        · rintro ⟨y, a, hy, ha, hmeets⟩
          obtain rfl := (htarget y).mp hy
          exact ⟨a, (Catalog.mem_ancestors_iff habove).mpr ha, hmeets⟩
        · rintro ⟨a, ha, hmeets⟩
          exact ⟨x, a, (htarget x).mpr rfl, (Catalog.mem_ancestors_iff habove).mp ha, hmeets⟩
      simp only [htargets, List.mem_filterMap, List.mem_filter, beq_iff_eq, and_assoc]
      refine exists_congr fun a => and_congr_right fun ha => ?_
      rw [← solveSite?_iff_meetsAt hlength hall (hancestor a ha), he]

/-! ## The target applied to a site

The site is put into the open target and, at the same time, into the ancestor that was matched. So
the candidate is inherited by what the target becomes. -/

/-- With a site put in, the open target is the target applied to this site. -/
theorem OpenTarget.subst_site (hc : c.WellDeclared) (hx : OpenTarget c b u d ks x)
    (hks : ks.length = c.arity d) {a : Ty} (ha : c.Inherits x a) {s : Site}
    (h : MeetsAt c b ks u x a s) :
    (d ≠ Marker.array.definition ∧ x.subst s = .named d s ∨ ∃ n elem, x.subst s = .array n elem) ∧
      (x.subst s).head? = some d ∧ (x.subst s).headArgs = s := by
  have hlength : s.length = c.arity d := h.length_eq.trans hks
  cases hx with
  | openInstance hd =>
    rw [Catalog.subst_openInstance d hlength]
    exact ⟨.inl ⟨hd, rfl⟩, rfl, rfl⟩
  | @openArray n hd hn =>
    rw [hd, c.arity_definition .array] at hlength
    obtain ⟨rank, elem, rfl⟩ := List.length_eq_two.mp hlength
    -- no ancestor of the open array mentions the rank, so it is the rank of the array
    have hopen : c.AtArity 2 (.array n (.param 1)) := .array (.param (Nat.lt_succ_self 1))
    obtain rfl : rank = rankEncoding n :=
      h.known 0 rank rfl (hopen.mentions_of_inherits hc.atArity rfl ha)
    exact ⟨.inr ⟨n, elem, rfl⟩, congrArg some hd.symm, rfl⟩

/-- A definition that inherits from something reads as itself over any arguments, unless it is a
stand-in for which something is declared. -/
theorem structuralForm_of_parent {ts : List Ty} {parent : Ty}
    (h : c.HasBase (.named d ts) parent ∨ c.Declares (.named d ts) parent) :
    (Ty.named d ts).structuralForm = .ok (.named d ts) ∨
      ∃ m : Marker, d = m.definition ∧ c.declared d ≠ [] := by
  rcases hm : Marker.ofDefinition? d with _ | m
  · exact .inl (by rw [Ty.structuralForm, hm])
  · refine .inr ⟨m, Marker.eq_definition hm, ?_⟩
    rcases Catalog.step_cases h with ⟨e, us, s, heq, hs, -⟩ | ⟨n, elem, heq, -⟩
    · obtain ⟨rfl, -⟩ := Ty.named.inj heq
      exact List.ne_nil_of_mem hs
    · cases heq

/-- The candidate is an ancestor of the target applied to the site. -/
theorem MeetsAt.exists_application (hc : c.WellDeclared) (hbare : c.NoBareParam)
    (hu : u.structuralForm = .ok u) (hclosed : u.isClosed = true) (hks : ks.length = c.arity d)
    (hx : OpenTarget c b u d ks x) {a : Ty} (ha : c.Inherits x a) {s : Site}
    (h : MeetsAt c b ks u x a s) :
    ∃ t, t.head? = some d ∧ t.headArgs = s ∧ c.Inherits t u ∧
      (t.structuralForm = .ok t ∨
        ∃ m : Marker, m ≠ .array ∧ d = m.definition ∧ c.declared d ≠ []) := by
  obtain ⟨hshape, hhead, hargs⟩ := hx.subst_site hc hks ha h
  have hsubst := ha.subst hc hx.properOpen.1 s
  -- If the ancestor is the open target itself, then the candidate is the application. If it is a
  -- proper ancestor, then it is declared by something and therefore in structural form, and so it
  -- is the candidate.
  rcases hsubst.eq_or_structuralForm hc hbare with heq | ⟨⟨parent, hstep⟩, hform⟩
  · -- the candidate itself is the target applied to the site
    refine ⟨u, ?_, ?_, .refl c u, .inl hu⟩
    · rw [← h.head?_eq, heq, hhead]
    · rw [← h.headArgs_eq, heq, hargs]
  · obtain ⟨e, he⟩ := Ty.exists_head? hclosed
    have hsame := Ty.eq_of_headArgs hform hu (h.head?_eq.trans he) he h.headArgs_eq
    rw [hsame] at hsubst
    refine ⟨x.subst s, hhead, hargs, hsubst, ?_⟩
    rcases hshape with ⟨hd, hnamed⟩ | ⟨n, elem, harray⟩
    · rw [hnamed] at hstep ⊢
      refine (structuralForm_of_parent hstep).imp_right ?_
      rintro ⟨m, hm, hdeclared⟩
      exact ⟨m, fun heq => hd (heq ▸ hm), hm, hdeclared⟩
    · rw [harray]
      exact .inl rfl

/-! ## Answers

The search needs fuel for two things: to find out what the sub-constraints stand for, and to walk
over the ancestors of the open target. With enough for both it answers. -/

/-- The arguments are known, or known to be unknown, if each sub-constraint can be asked. -/
theorem knownArgs_ne_none_iff :
    knownArgs c fuel b ks ≠ none ↔ ∀ k ∈ ks, k.singleType c fuel b ≠ none := by
  induction ks with
  | nil => simp [knownArgs]
  | cons k ks ih =>
    rw [knownArgs, List.forall_mem_cons, ← ih]
    cases k.singleType c fuel b <;> simp

/-- Where the walks over ancestors come to their ends, so does the walk over those of the open
target. -/
theorem eventually_openAncestors (hends : c.HierarchyEnds) (u : Ty) (d : DefIndex)
    (known : Assignment) : ∀ᶠ fuel in atTop, openAncestors c fuel u d known ≠ none := by
  have hwalk : ∀ t, ∀ᶠ fuel in atTop, c.ancestors fuel t ≠ none := by
    intro t
    obtain ⟨above, habove⟩ := hends.settled t
    filter_upwards [habove] with fuel habove
    rw [habove]
    exact Option.some_ne_none above
  by_cases harray : Marker.ofDefinition? d = some .array
  · cases hrank : wantedRank? u known with
    | none => exact .of_forall fun fuel => by simp [openAncestors, harray, hrank]
    | some n =>
      filter_upwards [hwalk (.array n (.param 1))] with fuel hne
      simpa [openAncestors, harray, hrank] using hne
  · filter_upwards [hwalk (c.openInstance d)] with fuel hne
    simpa [openAncestors, harray, Catalog.ancestorsOfDefinition] using hne

/-- The sites below a closed candidate are found if the sub-constraints can be asked for the types
that they stand for. -/
theorem sitesBelow_answers_iff (hends : c.HierarchyEnds) (hclosed : u.isClosed = true) :
    (∃ fuel, sitesBelow c fuel u d ks b ≠ none) ↔
      ∀ k ∈ ks, ∃ fuel, k.singleType c fuel b ≠ none := by
  obtain ⟨e, he⟩ := Ty.exists_head? hclosed
  constructor
  · rintro ⟨fuel, h⟩ k hk
    refine ⟨fuel, knownArgs_ne_none_iff.mp (fun hnone => h ?_) k hk⟩
    rw [sitesBelow, he, hnone]
  · intro h
    -- There are finitely many sub-constraints, and an answer stays with more fuel.
    have hasked : ∀ᶠ fuel in atTop, ∀ k ∈ ks, k.singleType c fuel b ≠ none := by
      refine eventually_forall_mem fun k hk => ?_
      obtain ⟨fuel, hne⟩ := h k hk
      obtain ⟨known, hknown⟩ := Option.ne_none_iff_exists'.mp hne
      filter_upwards [Fueled.eventually_eq_some (fun h => Constraint.singleType_le c h b k) hknown]
        with fuel hknown
      rw [hknown]
      exact Option.some_ne_none known
    obtain ⟨fuel, hfuel⟩ := hasked.exists
    obtain ⟨known, hknown⟩ := Option.ne_none_iff_exists'.mp (knownArgs_ne_none_iff.mpr hfuel)
    have hlater := Fueled.eventually_eq_some (fun h => knownArgs_le c h b ks) hknown
    obtain ⟨fuel, hknown, hopen⟩ := (hlater.and (eventually_openAncestors hends u d known)).exists
    refine ⟨fuel, ?_⟩
    rw [sitesBelow, he, hknown]
    simpa using hopen

/-! ## Exactness -/

/-- **The search finds exactly the sites below a candidate.** In a catalog that is declared well,
inherits from no bare parameter, and in which the walks over ancestors come to their ends, let `u`
be a closed type that reads as itself, and let there be a sub-constraint for each parameter of the
target `d`. The search ends if the sub-constraints can be asked for what they stand for, and then it
has found the sites at which some ancestor of the open target becomes `u`. Applied to each of them,
the target has `u` among its ancestors. It reads as itself as well, unless `d` is the stand-in of
pointers or references and yet declares to inherit from something. -/
theorem sitesBelow_exact (hc : c.WellDeclared) (hbare : c.NoBareParam) (hends : c.HierarchyEnds)
    (hclosed : u.isClosed = true) (hu : u.structuralForm = .ok u) (hks : ks.length = c.arity d)
    (b : Bindings) :
    ((∃ fuel, sitesBelow c fuel u d ks b ≠ none) ↔
        ∀ k ∈ ks, ∃ fuel, k.singleType c fuel b ≠ none) ∧
      ∀ fuel found, sitesBelow c fuel u d ks b = some found → ∀ s,
        (s ∈ found ↔
          ∃ x a, OpenTarget c b u d ks x ∧ c.HasAncestor x a ∧ MeetsAt c b ks u x a s) ∧
        (s ∈ found → ∃ t, t.head? = some d ∧ t.headArgs = s ∧ c.HasAncestor t u ∧
          (t.structuralForm = .ok t ∨
            ∃ m : Marker, m ≠ .array ∧ d = m.definition ∧ c.declared d ≠ [])) := by
  refine ⟨sitesBelow_answers_iff hends hclosed, fun fuel found h s => ?_⟩
  have hmem := mem_sitesBelow_iff hc hbare hclosed hks h s
  simp only [hends.hasAncestor_iff]
  refine ⟨hmem, fun hs => ?_⟩
  obtain ⟨x, a, hx, ha, hmeets⟩ := hmem.mp hs
  exact hmeets.exists_application hc hbare hu hclosed hks hx ha

open Catalog in
/-- All arrays are `Array`s. So matrices of what `T` stands for have one site below `Array`: the
base of arrays mentions neither the rank nor the element, and both are known. The matrix over this
site has `Array` among its ancestors. -/
theorem baseLibrary_matrixBelow :
    sitesBelow baseLibrary 9 (.nominal 13) 3 [.rank 2, .named "T"] [("T", .nominal 18)] =
        some [[rankEncoding 2, .nominal 18]] ∧
      (∃ t, t.head? = some 3 ∧ t.headArgs = [rankEncoding 2, .nominal 18] ∧
        baseLibrary.HasAncestor t (.nominal 13)) ∧
      ∀ s, (∃ x a, OpenTarget baseLibrary [("T", .nominal 18)] (.nominal 13) 3
          [.rank 2, .named "T"] x ∧ baseLibrary.HasAncestor x a ∧
          MeetsAt baseLibrary [("T", .nominal 18)] [.rank 2, .named "T"] (.nominal 13) x a s) →
        s = [rankEncoding 2, .nominal 18] := by
  have hfound : sitesBelow baseLibrary 9 (.nominal 13) 3 [.rank 2, .named "T"]
      [("T", .nominal 18)] = some [[rankEncoding 2, .nominal 18]] := by decide +kernel
  have hks : [Constraint.rank 2, .named "T"].length = baseLibrary.arity 3 := rfl
  have hexact := (sitesBelow_exact baseLibrary_wellDeclared baseLibrary_noBareParam
    baseLibrary_acyclic.hierarchyEnds (u := .nominal 13) rfl rfl hks [("T", .nominal 18)]).2 9 _
    hfound
  obtain ⟨t, hhead, hargs, hancestor, -⟩ := (hexact _).2 List.mem_cons_self
  exact ⟨hfound, ⟨t, hhead, hargs, hancestor⟩,
    fun s hs => List.mem_singleton.mp ((hexact s).1.mpr hs)⟩

/-- If nothing fixes the rank and the candidate is no array, there is no site. -/
example : sitesBelow .baseLibrary 9 (.nominal 13) 3 [.wildcard, .named "T"]
    [("T", .nominal 18)] = some [] := by decide +kernel

end TypeResolution

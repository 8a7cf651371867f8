import TypeResolution.Proofs.Catalog.Assignability
import TypeResolution.Proofs.Unification.MoreFuel
import TypeResolution.Proofs.Unification.Silent
import TypeResolution.Proofs.Unification.TypesMet

/-!
# Matching comes to an end

Unification recurses on the constraint, so all its fuel goes into questions about the catalog: walks
over ancestors and questions of assignability. If these come to their ends for the types that are
met (`MatchEnds`), then so does every match, whatever the slots and the candidates, and whether or
not an error comes up (`MatchEnds.settled_slotSolutions`). If they do for all types, then every
match ends (`slotBindings_ends`).

The proof is about listings that *settle*: with enough fuel they are always the same one, which lack
of fuel did not cut short. Every combinator keeps this.

Two things are kept apart on the way. Whether a question ends is about the catalog, and it is
assumed in one place for all questions that matching can ask (`Catalog.QuestionsEnd`). That only
types of the set are asked about is no assumption but follows from the set being closed, as
`Catalog.MatchClosed` has it. So each lemma takes types of the set and hands types of the set on.
-/

namespace TypeResolution

open Filter

/-! ## Listings that settle

A function from fuel to listings settles at a listing. That the listing does not end for lack of
fuel has to be said along with it: a function may be constant and short of fuel forever. -/

namespace Listing

variable {ε α β ι : Type}

/-- With enough fuel the listing is always the same one, and it is not short of fuel. -/
def Settled (f : Nat → Listing ε α) : Prop :=
  ∃ l : Listing ε α, l.ending ≠ none ∧ ∀ᶠ fuel in atTop, f fuel = l

/-- Nothing at all is no lack of fuel. -/
theorem ending_nothing_ne_none : (nothing : Listing ε α).ending ≠ none := Option.some_ne_none _

/-- Nor is a row of two listings, if neither of them is short of fuel. -/
theorem ending_andThen_ne_none (definitive : Bool) {l m : Listing ε α} (hl : l.ending ≠ none)
    (hm : m.ending ≠ none) : (l.andThen definitive m).ending ≠ none := by
  rw [andThen]
  split
  · exact hl
  · rcases l with ⟨as, _ | i⟩
    · exact hm
    · exact hl

/-- Nor is a test whether the first of them is empty. -/
theorem ending_ifNone_ne_none {l : Listing ε α} {m : Listing ε β} (hl : l.ending ≠ none)
    (hm : m.ending ≠ none) : (l.ifNone m).ending ≠ none := by
  rcases l with ⟨_ | ⟨a, as⟩, _ | i⟩
  · exact hm
  · exact hl
  · exact ending_nothing_ne_none
  · exact ending_nothing_ne_none

namespace Settled

/-- What does not depend on the fuel settles at once, unless it is a lack of fuel. -/
theorem const {l : Listing ε α} (h : l.ending ≠ none) : Settled fun _ => l :=
  ⟨l, h, Eventually.of_forall fun _ => rfl⟩

/-- Changing items keeps a listing settled. -/
theorem map {f : Nat → Listing ε α} (h : Settled f) (g : α → β) :
    Settled fun fuel => (f fuel).map g := by
  obtain ⟨l, hend, hl⟩ := h
  refine ⟨l.map g, hend, ?_⟩
  filter_upwards [hl] with fuel hl
  rw [hl]

/-- A listing behind an answer settles if the answer does and what it leads to. The answer is needed
for a single fuel only, since it stays the same from then on. -/
theorem ofFueled {x : Nat → Fueled α} (hx : Fueled.Settled x) {f : Nat → α → Listing ε β}
    (hf : ∀ fuel a, x fuel = some a → Settled fun fuel => f fuel a) :
    Settled fun fuel => Listing.ofFueled (x fuel) (f fuel) := by
  obtain ⟨a, ha⟩ := hx
  obtain ⟨enough, henough⟩ := ha.exists
  obtain ⟨l, hend, hl⟩ := hf enough a henough
  refine ⟨l, hend, ?_⟩
  filter_upwards [ha, hl] with fuel ha hl
  rw [ha]
  exact hl

/-- Two listings that settle settle in a row: with enough fuel for the one and for the other both
are what they stay. -/
theorem andThen (definitive : Bool) {f g : Nat → Listing ε α} (hf : Settled f) (hg : Settled g) :
    Settled fun fuel => (f fuel).andThen definitive (g fuel) := by
  obtain ⟨l, hendl, hl⟩ := hf
  obtain ⟨m, hendm, hm⟩ := hg
  refine ⟨l.andThen definitive m, ending_andThen_ne_none definitive hendl hendm, ?_⟩
  filter_upwards [hl, hm] with fuel hl hm
  rw [hl, hm]

/-- A row of alternatives settles, in front of something that does, if all of them settle. -/
theorem concat_append (definitive : ι → Bool) {f : Nat → ι → Listing ε α}
    (last : List (Bool × Listing ε α)) (hlast : (concat last).ending ≠ none) {is : List ι}
    (hf : ∀ i ∈ is, Settled fun fuel => f fuel i) :
    Settled fun fuel => concat (is.map (fun i => (definitive i, f fuel i)) ++ last) := by
  induction is with
  | nil => exact const hlast
  | cons i is ih =>
    obtain ⟨hi, his⟩ := List.forall_mem_cons.mp hf
    exact hi.andThen (definitive i) (ih his)

/-- A row of alternatives settles if all of them settle. -/
theorem concat (definitive : ι → Bool) {f : Nat → ι → Listing ε α} {is : List ι}
    (hf : ∀ i ∈ is, Settled fun fuel => f fuel i) :
    Settled fun fuel => Listing.concat (is.map fun i => (definitive i, f fuel i)) := by
  have h := concat_append definitive [] ending_nothing_ne_none hf
  simpa only [List.append_nil] using h

/-- What follows a listing settles if it does for everything that the listing can ever hold. -/
theorem each (definitive : Bool) {f : Nat → Listing ε α} (hf : Settled f)
    {g : Nat → α → Listing ε β}
    (hg : ∀ fuel, ∀ a ∈ (f fuel).items, Settled fun fuel => g fuel a) :
    Settled fun fuel => (f fuel).each definitive (g fuel) := by
  obtain ⟨l, hend, hl⟩ := hf
  obtain ⟨enough, rfl⟩ := hl.exists
  -- what interrupts the listing comes last, and it is not a lack of fuel
  have hlast : (Listing.concat
      [(false, (⟨[], (f enough).interruption⟩ : Listing ε β))]).ending ≠ none := by
    revert hend
    rcases f enough with ⟨as, _ | _ | _⟩
    · exact fun _ => ending_nothing_ne_none
    · exact fun _ => Option.some_ne_none _
    · exact fun hend => absurd rfl hend
  obtain ⟨m, hendm, hm⟩ := concat_append (fun _ => definitive) _ hlast (hg enough)
  refine ⟨m, hendm, ?_⟩
  filter_upwards [hl, hm] with fuel hl hm
  rw [hl]
  exact hm

/-- A test whether a listing is empty settles along with what is tested and what follows. -/
theorem ifNone {f : Nat → Listing ε α} (hf : Settled f) {g : Nat → Listing ε β} (hg : Settled g) :
    Settled fun fuel => (f fuel).ifNone (g fuel) := by
  obtain ⟨l, hendl, hl⟩ := hf
  obtain ⟨m, hendm, hm⟩ := hg
  refine ⟨l.ifNone m, ending_ifNone_ne_none hendl hendm, ?_⟩
  filter_upwards [hl, hm] with fuel hl hm
  rw [hl, hm]

/-- A test that is answered lets its item pass or not. -/
theorem guard {test : Nat → Fueled Bool} (h : Fueled.Settled test) (a : α) :
    Settled fun fuel => (Listing.guard (test fuel) a : Listing ε α) := by
  refine ofFueled h fun _ passes _ => ?_
  cases passes with
  | true => exact const (Option.some_ne_none _)
  | false => exact const ending_nothing_ne_none

end Settled

end Listing

/-! ## Questions about the catalog

What matching asks of the catalog, and that each such question is answered from some fuel on if
those of `Catalog.QuestionsEnd` are. -/

/-- What matching asks about the types of a set, and about the definitions from `D`, comes to an
answer. -/
structure Catalog.QuestionsEnd (c : Catalog) (D : DefIndex → Prop) (M : Ty → Prop) : Prop where
  /-- the ancestors of a type inside can be listed -/
  ancestorsEnd : ∀ t, M t → c.AncestorsEnd t
  /-- so can those of a definition over its own parameters -/
  openEnd : ∀ d, D d → c.AncestorsEnd (c.openInstance d)
  /-- and those of open arrays -/
  openArrayEnd : D Marker.array.definition → ∀ n, c.AncestorsEnd (.array n (.param 1))
  /-- assignability between types inside comes to an answer -/
  assignabilityEnd : ∀ t u, M t → M u → Fueled.Settled fun fuel => c.isAssignable fuel t u
  /-- so do the questions for the bounds of an instance over types inside -/
  boundsEnd : ∀ d args, D d → (∀ a ∈ args, M a) → checkArgs d (c.arity d) args = .ok () →
    c.BoundsEnd (args.map Catalog.storedArg)
      ((c.definition d).params.zip (args.map Catalog.storedArg))

/-- A set that matching does not leave, and about whose types all questions come to an answer. -/
structure Catalog.MatchEnds (c : Catalog) (D : DefIndex → Prop) (M : Ty → Prop) : Prop
    extends c.MatchClosed D M, c.QuestionsEnd D M

variable {c : Catalog} {D : DefIndex → Prop} {M : Ty → Prop}

/-- Where all walks and all questions end, those about any set of types do. -/
theorem Catalog.questionsEnd (hends : c.HierarchyEnds) (hassign : c.AssignabilityEnds) :
    c.QuestionsEnd D M where
  ancestorsEnd t _ := hends t
  openEnd _ _ := hends _
  openArrayEnd _ _ := hends _
  assignabilityEnd t u _ _ := hassign.settled t u
  boundsEnd _ _ _ _ _ _ _ _ _ := hassign.settled _ _

/-- The set of all types is never left, so where everything ends, every match does. -/
theorem Catalog.matchEnds_univ (hends : c.HierarchyEnds) (hassign : c.AssignabilityEnds) :
    c.MatchEnds (fun _ => True) fun _ => True :=
  ⟨c.matchClosed_univ _, c.questionsEnd hends hassign⟩

namespace Catalog.MatchEnds

/-- Instances over types inside are built, or it is known which bound they miss. -/
theorem settled_instantiate (hM : c.MatchEnds D M) {d : DefIndex} (hd : D d) {args : List Ty}
    (hargs : ∀ a ∈ args, M a) : Fueled.Settled fun fuel => c.instantiate fuel d args :=
  Catalog.settled_instantiate d args (hM.boundsEnd d args hd hargs)

mutual
/-- Whether a constraint stands for a single type, and for which, is answered. Instances are built
from the inside to the outside, and what is built is inside again. -/
theorem settled_singleType (hM : c.MatchEnds D M) {b : Bindings} (hb : b.In M) :
    (k : Constraint) → k.Over D → Fueled.Settled fun fuel => k.singleType c fuel b
  | .wildcard, _ => .const none
  | .negation _, _ => .const none
  | .param name _, _ => .const (b.get? name)
  | .instanceOf target _ args, hk => by
    simp only [Constraint.singleType]
    split
    · exact .const none
    · obtain ⟨known, hknown⟩ := settled_singleTypes hM hb args hk.args
      cases known with
      | none => exact ⟨none, hknown.mono fun fuel hknown => by simp only [hknown]⟩
      | some ts =>
        obtain ⟨enough, henough⟩ := hknown.exists
        have hts : ∀ t ∈ ts, M t := hM.mem_singleTypes hb args hk.args henough
        obtain ⟨result, hresult⟩ := hM.settled_instantiate hk.target hts
        refine ⟨result.toOption, ?_⟩
        filter_upwards [hknown, hresult] with fuel hknown hresult
        simp only [hknown, hresult, Option.map_some]

/-- The same for a list of constraints. Behind one that stands for no single type nothing is asked.
-/
theorem settled_singleTypes (hM : c.MatchEnds D M) {b : Bindings} (hb : b.In M) :
    (ks : List Constraint) → (∀ k ∈ ks, k.Over D) →
    Fueled.Settled fun fuel => Constraint.singleTypes c fuel b ks
  | [], _ => .const (some [])
  | k :: ks, hks => by
    obtain ⟨hk, hks⟩ := List.forall_mem_cons.mp hks
    obtain ⟨known, hknown⟩ := settled_singleType hM hb k hk
    obtain ⟨rest, hrest⟩ := settled_singleTypes hM hb ks hks
    simp only [Constraint.singleTypes]
    cases known with
    | none => exact ⟨none, hknown.mono fun fuel hknown => by simp only [hknown]⟩
    | some t =>
      refine ⟨rest.map (t :: ·), ?_⟩
      filter_upwards [hknown, hrest] with fuel hknown hrest
      simp only [hknown, hrest, Option.map_some]
end

mutual
/-- Likewise for the type that a directive builds, or the error in its place. -/
theorem settled_requireType (hM : c.MatchEnds D M) {b : Bindings} (hb : b.In M) :
    (k : Constraint) → k.Over D → Fueled.Settled fun fuel => k.requireType c fuel b
  | .wildcard, _ => .const _
  | .negation _, _ => .const _
  | .param name _, _ => by
    simp only [Constraint.requireType]
    split <;> exact .const _
  | .instanceOf target _ args, hk => by
    obtain ⟨required, hrequired⟩ := settled_requireTypes hM hb args hk.args
    simp only [Constraint.requireType]
    cases required with
    | error e => exact ⟨.error e, hrequired.mono fun fuel hrequired => by simp only [hrequired]⟩
    | ok ts =>
      obtain ⟨enough, henough⟩ := hrequired.exists
      have hts : ∀ t ∈ ts, M t := hM.mem_requireTypes hb args hk.args henough
      obtain ⟨result, hresult⟩ := hM.settled_instantiate hk.target hts
      refine ⟨result.mapError .instantiate, ?_⟩
      filter_upwards [hrequired, hresult] with fuel hrequired hresult
      simp only [hrequired, hresult, Option.map_some]

/-- The candidates of a directive are built, or it is known why not. -/
theorem settled_requireTypes (hM : c.MatchEnds D M) {b : Bindings} (hb : b.In M) :
    (ks : List Constraint) → (∀ k ∈ ks, k.Over D) →
    Fueled.Settled fun fuel => Constraint.requireTypes c fuel b ks
  | [], _ => .const _
  | k :: ks, hks => by
    obtain ⟨hk, hks⟩ := List.forall_mem_cons.mp hks
    obtain ⟨first, hfirst⟩ := settled_requireType hM hb k hk
    obtain ⟨rest, hrest⟩ := settled_requireTypes hM hb ks hks
    simp only [Constraint.requireTypes]
    cases first with
    | error e => exact ⟨.error e, hfirst.mono fun fuel hfirst => by simp only [hfirst]⟩
    | ok t =>
      refine ⟨rest.map (t :: ·), ?_⟩
      filter_upwards [hfirst, hrest] with fuel hfirst hrest
      simp only [hfirst, hrest, Option.map_some]
end

section Sites

variable (hM : c.MatchEnds D M) {candidate : Ty} (hu : M candidate) {target : DefIndex}
  (hd : D target) {ks : List Constraint} (hks : ∀ k ∈ ks, k.Over D) {b : Bindings} (hb : b.In M)
include hM

include hks hb in
/-- The positions of a constraint's arguments that are known are listed, with their types. -/
theorem settled_knownArgs : Fueled.Settled fun fuel => knownArgs c fuel b ks := by
  induction ks with
  | nil => exact .const []
  | cons k ks ih =>
    obtain ⟨hk, hks⟩ := List.forall_mem_cons.mp hks
    obtain ⟨known, hknown⟩ := hM.settled_singleType hb k hk
    obtain ⟨rest, hrest⟩ := ih hks
    refine ⟨known :: rest, ?_⟩
    filter_upwards [hknown, hrest] with fuel hknown hrest
    rw [knownArgs, hknown]
    simp only [hrest, Option.map_some]

include hd in
/-- The ancestors of an open target can be listed: those of the definition over its own parameters
or, for arrays, those of an open array of the wanted rank. -/
theorem settled_openAncestors (candidate : Ty) (known : Assignment) :
    Fueled.Settled fun fuel => openAncestors c fuel candidate target known := by
  unfold openAncestors
  split
  · next hm =>
    have harray : D Marker.array.definition := Marker.eq_definition hm ▸ hd
    cases wantedRank? candidate known with
    | none => exact .const none
    | some n => exact Fueled.Settled.map (hM.openArrayEnd harray n).eventually _
  · exact Fueled.Settled.map (hM.openEnd target hd).eventually _

include hu in
/-- The sites above a candidate can be listed, as they are read off its ancestors. -/
theorem settled_sitesAbove (target : DefIndex) :
    Fueled.Settled fun fuel => sitesAbove c fuel candidate target :=
  Fueled.Settled.map (hM.ancestorsEnd candidate hu).eventually _

include hd hks hb in
/-- So can the sites below it. They take two questions, what is known of the arguments and which
ancestors the open target has; the second depends on the first by the rank only. -/
theorem settled_sitesBelow (candidate : Ty) :
    Fueled.Settled fun fuel => sitesBelow c fuel candidate target ks b := by
  unfold sitesBelow
  cases candidate.head? with
  | none => exact .const []
  | some d =>
    obtain ⟨known, hknown⟩ := hM.settled_knownArgs hks hb
    obtain ⟨opened, hopened⟩ := hM.settled_openAncestors hd candidate known
    -- without a rank to build arrays for there are no sites
    rcases opened with _ | ⟨above, known'⟩
    · refine ⟨[], ?_⟩
      filter_upwards [hknown, hopened] with fuel hknown hopened
      simp only [hknown, hopened, Option.map_some]
    · refine ⟨(above.filter fun a => a.head? == some d).filterMap
        (solveSite? candidate.headArgs known'), ?_⟩
      filter_upwards [hknown, hopened] with fuel hknown hopened
      simp only [hknown, hopened, Option.map_some]

include hu hd hks hb in
/-- The sites of a candidate can be listed, whatever the variance. -/
theorem settled_sites (v : Variance) :
    Fueled.Settled fun fuel => sites c fuel candidate target v ks b := by
  have habove := hM.settled_sitesAbove hu target
  have hbelow := hM.settled_sitesBelow hd hks hb candidate
  unfold sites
  refine .map ?_ distinctSites
  -- the invariant sites are those both above and below, the ambivariant ones those of either kind
  cases v with
  | covariant => exact habove
  | contravariant => exact hbelow
  | invariant =>
    obtain ⟨above, habove⟩ := habove
    obtain ⟨below, hbelow⟩ := hbelow
    refine ⟨above.filter fun s => decide (s ∈ below), ?_⟩
    filter_upwards [habove, hbelow] with fuel habove hbelow
    simp only [habove, hbelow, Option.map_some]
  | ambivariant =>
    obtain ⟨above, habove⟩ := habove
    obtain ⟨below, hbelow⟩ := hbelow
    refine ⟨above ++ below, ?_⟩
    filter_upwards [habove, hbelow] with fuel habove hbelow
    simp only [habove, hbelow, Option.map_some]

end Sites

end Catalog.MatchEnds

/-- Whether a rebuilt instance is related to the candidate takes assignability in one direction, in
both, or in none. -/
theorem settled_isRelative {t u : Ty} (htu : Fueled.Settled fun fuel => c.isAssignable fuel t u)
    (hut : Fueled.Settled fun fuel => c.isAssignable fuel u t) (v : Variance) :
    Fueled.Settled fun fuel => isRelative c fuel v t u := by
  unfold isRelative
  cases v with
  | invariant => exact .const _
  | covariant => exact htu
  | contravariant => exact hut
  | ambivariant => exact htu.or hut

/-- Whether a candidate is related to a bound type takes walks over the ancestors of the two. -/
theorem settled_related {candidate bound : Ty} (hcandidate : c.AncestorsEnd candidate)
    (hbound : c.AncestorsEnd bound) (v : Variance) :
    Fueled.Settled fun fuel => related c fuel v candidate bound := by
  have hinherits : ∀ {t : Ty}, c.AncestorsEnd t → ∀ ancestor,
      Fueled.Settled fun fuel => inherits c fuel t ancestor :=
    fun h _ => Fueled.Settled.map h.eventually _
  unfold related
  cases v with
  | invariant => exact .const _
  | covariant => exact hinherits hcandidate _
  | contravariant => exact hinherits hbound _
  | ambivariant => exact (hinherits hcandidate _).or (hinherits hbound _)

/-- Reading a type in structural form takes no fuel, so a listing behind it settles if it does for
what is read. -/
theorem settled_structuralSolutions {α : Type} (t : Ty)
    {f : Nat → Ty → Listing ResolutionError α}
    (hf : ∀ u, t.structuralForm = .ok u → Listing.Settled fun fuel => f fuel u) :
    Listing.Settled fun fuel => structuralSolutions t (f fuel) := by
  unfold structuralSolutions
  cases hform : t.structuralForm with
  | error e => exact .const (Option.some_ne_none _)
  | ok u => exact hf u hform

/-! ## Solutions

From the tests up to the slots of a pattern, in the order in which the functions of matching call
one another. -/

namespace Catalog.MatchEnds

/-- The comparison with a bound type settles. -/
theorem settled_boundSolutions (hM : c.MatchEnds D M) {candidate bound : Ty} (hu : M candidate)
    (ht : M bound) (v : Variance) :
    Listing.Settled fun fuel => boundSolutions c fuel v candidate bound :=
  settled_structuralSolutions candidate fun u hread =>
    settled_structuralSolutions bound fun t hread' =>
      .guard (settled_related (hM.ancestorsEnd u (hM.reading candidate u hu hread))
        (hM.ancestorsEnd t (hM.reading bound t ht hread')) v) t

/-- So does the comparison with a rebuilt instance, which is inside like the arguments that it is
built over. -/
theorem settled_rebuiltSolutions (hM : c.MatchEnds D M) {target : DefIndex} (hd : D target)
    {candidate : Ty} (hu : M candidate) {args : List Ty} (hargs : ∀ a ∈ args, M a) (v : Variance) :
    Listing.Settled fun fuel => rebuiltSolutions c fuel v target candidate args := by
  refine .ofFueled (hM.settled_instantiate hd hargs) fun fuel result hresult => ?_
  cases result with
  | error e => exact .const Listing.ending_nothing_ne_none
  | ok result =>
    have ht : M result := hM.built target args result hd hargs ⟨fuel, hresult⟩
    exact .guard (settled_isRelative (hM.assignabilityEnd result candidate ht hu)
      (hM.assignabilityEnd candidate result hu ht) v) result

/-- An instance constraint settles, provided its sub-constraints do, which keep to types inside. -/
theorem settled_instanceSolutions (hM : c.MatchEnds D M) {outer v : Variance} {target : DefIndex}
    (hd : D target) {ks : List Constraint} (hks : ∀ k ∈ ks, k.Over D)
    (solve : Nat → Variance → Site → Listing ResolutionError (Bindings × List Ty))
    (hsolve : ∀ inForce site, (∀ x ∈ site, M x) →
      Listing.Settled (fun fuel => solve fuel inForce site) ∧
        ∀ fuel, ∀ p ∈ (solve fuel inForce site).items, ∀ t ∈ p.2, M t)
    {b : Bindings} (hb : b.In M) {candidate : Ty} (hcandidate : M candidate) :
    Listing.Settled fun fuel =>
      instanceSolutions c fuel outer v target ks (solve fuel) b candidate := by
  refine settled_structuralSolutions candidate fun u hread => ?_
  have hu : M u := hM.reading candidate u hcandidate hread
  -- the kinds of types are decided without any question
  rcases Marker.ofDefinition? target with _ | _ | _ | _ | _ | _
  case some.valueType =>
    dsimp only
    split <;> exact .const (Option.some_ne_none _)
  case some.referenceType =>
    dsimp only
    split <;> exact .const (Option.some_ne_none _)
  all_goals
    dsimp only
    cases checkArgCount c target ks.length with
    | error e => exact .const (Option.some_ne_none _)
    | ok _ =>
      refine .ofFueled (hM.settled_sites hu hd hks hb _) fun enough found hfound => ?_
      refine Listing.Settled.concat (fun _ => false) fun site hsite => ?_
      have hmem := (hM.mem_sites hb hu hks hfound site hsite).1
      obtain ⟨hsettled, hargs⟩ := hsolve (outer.nest v) site hmem
      exact hsettled.each false fun fuel p hp =>
        (hM.settled_rebuiltSolutions hd hu (hargs fuel p hp) _).map _

mutual
/-- An argument's solutions settle. The recursion is along the constraint, together with
`settled_siteSolutions` for lists of them; what is asked on the way is about types inside. -/
theorem settled_argSolutions (hM : c.MatchEnds D M) (outer : Variance) {arg : Ty} (harg : M arg)
    {b : Bindings} (hb : b.In M) : (k : Constraint) → k.Over D →
    Listing.Settled fun fuel => argSolutions c fuel outer arg b k
  | .wildcard, _ => .const (Option.some_ne_none _)
  | .param name v, _ => by
    simp only [argSolutions]
    cases hbound : b.get? name with
    | none => exact .const (Option.some_ne_none _)
    | some bound => exact (hM.settled_boundSolutions harg (hb name bound hbound) _).map _
  | .instanceOf target v args, hk => by
    simp only [argSolutions]
    exact hM.settled_instanceSolutions hk.target hk.args
      (fun fuel inForce site => siteSolutions c fuel inForce site b args)
      (fun inForce site hsite => ⟨settled_siteSolutions hM inForce hb args hk.args hsite,
        fun fuel p hp => (hM.in_siteSolutions hb args hk.args hsite hp).2⟩) hb harg
  | .negation inner, _ => .const (Option.some_ne_none _)

/-- The arguments of a site have solutions that settle. Every solution for the first argument binds
names to types inside, so the rest starts from such bindings. -/
theorem settled_siteSolutions (hM : c.MatchEnds D M) (outer : Variance) {site : Site}
    {b : Bindings} (hb : b.In M) : (ks : List Constraint) → (∀ k ∈ ks, k.Over D) →
    (∀ x ∈ site, M x) → Listing.Settled fun fuel => siteSolutions c fuel outer site b ks
  | [], _, _ => by
    simp only [siteSolutions]
    exact .const (Option.some_ne_none _)
  | k :: ks, hks, hsite => by
    obtain ⟨hk, hks⟩ := List.forall_mem_cons.mp hks
    cases site with
    | nil =>
      simp only [siteSolutions]
      exact .const (Option.some_ne_none _)
    | cons arg rest =>
      obtain ⟨harg, hrest⟩ := List.forall_mem_cons.mp hsite
      simp only [siteSolutions]
      refine settled_structuralSolutions arg fun u hread => ?_
      have hu : M u := hM.reading arg u harg hread
      exact (settled_argSolutions hM outer hu hb k hk).each false fun fuel p hp =>
        (settled_siteSolutions hM outer (hM.in_argSolutions hu hb k hk hp).1 ks hks hrest).map _
end

mutual
/-- A constraint at its outermost place has solutions that settle, and so have the constraints of a
negation. -/
theorem settled_constraintSolutions (hM : c.MatchEnds D M) (outer : Variance) {candidate : Ty}
    (hu : M candidate) {b : Bindings} (hb : b.In M) : (k : Constraint) → k.Over D →
    Listing.Settled fun fuel => constraintSolutions c fuel outer candidate b k
  | .wildcard, _ => .const (Option.some_ne_none _)
  | .param name v, _ => by
    simp only [constraintSolutions]
    cases hbound : b.get? name with
    | none => exact .const (Option.some_ne_none _)
    | some bound => exact (hM.settled_boundSolutions hu (hb name bound hbound) _).map _
  | .instanceOf target v args, hk => by
    have h := hM.settled_argSolutions outer hu hb _ hk
    simp only [argSolutions] at h
    simp only [constraintSolutions]
    exact h.map _
  | .negation inner, hk => by
    simp only [constraintSolutions]
    exact (settled_conjunctionSolutions hM outer hu hb inner hk.inner).ifNone
      (.const (Option.some_ne_none _))

/-- The constraints of a slot have solutions that settle, one after another. -/
theorem settled_conjunctionSolutions (hM : c.MatchEnds D M) (outer : Variance) {candidate : Ty}
    (hu : M candidate) {b : Bindings} (hb : b.In M) : (ks : List Constraint) →
    (∀ k ∈ ks, k.Over D) →
      Listing.Settled fun fuel => conjunctionSolutions c fuel outer candidate b ks
  | [], _ => .const (Option.some_ne_none _)
  | k :: ks, hks => by
    obtain ⟨hk, hks⟩ := List.forall_mem_cons.mp hks
    simp only [conjunctionSolutions]
    exact (settled_constraintSolutions hM outer hu hb k hk).each false fun fuel b' hb' =>
      settled_conjunctionSolutions hM outer hu (hM.in_constraintSolutions hu hb k hk hb') ks hks
end

/-- Matching types of the set settles. -/
theorem settled_slotSolutions (hM : c.MatchEnds D M) {slots : List Slot}
    (hslots : ∀ s ∈ slots, ∀ k ∈ s.constraints, k.Over D) {candidates : List Ty}
    (hcandidates : ∀ t ∈ candidates, M t) {b : Bindings} (hb : b.In M) :
    Listing.Settled fun fuel => slotSolutions c fuel slots candidates b := by
  induction slots generalizing candidates b with
  | nil => exact .const (Option.some_ne_none _)
  | cons slot slots ih =>
    obtain ⟨hslot, hslots⟩ := List.forall_mem_cons.mp hslots
    cases candidates with
    | nil => exact .const (Option.some_ne_none _)
    | cons candidate rest =>
      obtain ⟨hu, hrest⟩ := List.forall_mem_cons.mp hcandidates
      simp only [slotSolutions]
      exact (hM.settled_conjunctionSolutions .ambivariant hu hb slot.constraints hslot).each
        slot.definitive fun fuel b' hb' =>
          ih hslots hrest (hM.in_conjunctionSolutions hu hb slot.constraints hslot hb')

end Catalog.MatchEnds

/-- **Every match comes to its end**, if the walks over ancestors and the questions of assignability
do: with enough fuel its record is always the same. -/
theorem slotBindings_ends {ν : Type} (hends : c.HierarchyEnds) (hassign : c.AssignabilityEnds)
    (slots : List Slot) (candidates : List Ty) (b : Bindings) :
    ∃ record : Search.Transcript ν ResolutionError Bindings, record.ending ≠ none ∧
      ∀ᶠ fuel in atTop,
        (slotBindings c fuel slots candidates b).run Search.takeAll = record := by
  obtain ⟨l, hend, hl⟩ := (Catalog.matchEnds_univ hends hassign).settled_slotSolutions
    (fun _ _ k _ => k.over_true) (fun _ _ => trivial) (b := b) fun _ _ _ => trivial
  refine ⟨⟨[], l.items, l.ending⟩, hend, ?_⟩
  filter_upwards [hl] with fuel hl
  rw [(silent_slotBindings c fuel slots candidates b).run_takeAll, listing_slotBindings, hl]

end TypeResolution

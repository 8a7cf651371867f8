import TypeResolution.Proofs.Resolver.TypesMet
import TypeResolution.Proofs.Catalog.Questions
import TypeResolution.Proofs.Unification.Termination

/-!
# Directed resolutions come to an end

A pattern that resolves again for what it builds may come back to itself, with a larger type every
time. It does not if all directives point one way. In a window `w` the pattern at position `i` can
be tried only if `i` lies in it, and the directive derives a smaller window from that:

* *following* directives: the window starts behind `i`, so fewer positions are left from its start
  to the end of the list;
* *preceding* directives: the window stops at `i`, before the end of `w`;
* *global* directives with a direction: the derived window is also the range that everything nested
  is cut from. As long as window and range agree, which they do at first and then after every such
  directive, the derived window is a shorter part of `w`.

`Directed.descent` turns the three into one measure, and `settled_windowContribution` is the
induction on it. That a single pattern's contribution settles if its nested resolutions do
(`settled_patternContribution`) rests on the questions about the types that are met; what a producer
does between its drives is finite by the type of productions.
-/

namespace TypeResolution

open Filter

/-! ## Consumers

A drive of a listing that came to its end comes to its end, and it does so whatever its consumer is.
That a nested resolution settles is therefore enough for everything that is done with it. -/

namespace Listing

variable {ε α : Type}

/-- A consumer of a listing that is not short of fuel gets its answer. -/
theorem drive_ne_none (stop : List α → Bool) {l : Listing ε α} (h : l.ending ≠ none) :
    l.drive stop ≠ none := by
  rw [drive]
  rcases l with ⟨as, _ | _ | _⟩
  · split <;> exact Option.some_ne_none _
  · split <;> exact Option.some_ne_none _
  · exact absurd rfl h

/-- So a drive of a listing that settles settles. -/
theorem Settled.drive {f : Nat → Listing ε α} (h : Settled f) (stop : List α → Bool) :
    Fueled.Settled fun fuel => (f fuel).drive stop := by
  obtain ⟨l, hend, hl⟩ := h
  obtain ⟨d, hd⟩ := Option.ne_none_iff_exists'.mp (drive_ne_none stop hend)
  refine ⟨d, ?_⟩
  filter_upwards [hl] with fuel hl
  rw [hl, hd]

/-- The first unit of fuel does not matter in the long run. -/
theorem Settled.of_succ {f : Nat → Listing ε α} (h : Settled fun fuel => f (fuel + 1)) :
    Settled f := by
  obtain ⟨l, hend, hl⟩ := h
  refine ⟨l, hend, ?_⟩
  rw [← map_add_atTop_eq_nat 1]
  exact hl

end Listing

namespace Search

variable {ν ε α : Type}

/-- Whoever consumes a search that comes to its end comes to an end. -/
theorem runFrom_ending_ne_none (stop : List α → Bool) (seen : List α) {s : Search ν ε α}
    (h : s.listing.ending ≠ none) : (s.runFrom stop seen).ending ≠ none := by
  induction s generalizing seen with
  | done => exact Option.some_ne_none _
  | failed e => exact Option.some_ne_none _
  | exhausted => exact absurd rfl h
  | event e rest ih => exact ih () seen h
  | found a rest ih =>
    rw [runFrom]
    split
    · exact Option.some_ne_none _
    · exact ih () (seen ++ [a]) h

end Search

/-- **A producer that is given the values of settled sequences comes to an answer.** It drives
finitely often, whatever it is given. -/
theorem Production.settled_answer? {V α : Type}
    {drive : Nat → Nat → (List V → Bool) → Fueled (Driven V)}
    (h : ∀ position stop, Fueled.Settled fun fuel => drive fuel position stop)
    (p : Production V α) : Fueled.Settled fun fuel => p.answer? (drive fuel) := by
  induction p with
  | answer a => exact .const a
  | drive position stop next ih =>
    obtain ⟨d, hd⟩ := h position stop
    obtain ⟨a, ha⟩ := ih d
    refine ⟨a, ?_⟩
    filter_upwards [hd, ha] with fuel hd ha
    rw [Production.answer?, hd]
    exact ha

namespace Resolver

variable {V : Type} {r : Resolver V}

/-! ## Calls

What a pattern's producers give settles, if the directives of the pattern build their candidates and
the nested resolutions of these settle (`NestedSettled`). How many calls there are is decided by the
listings of the parameters. -/

section Calls

variable {nested : Nat → NestedListing V} {place : Place} {b : Bindings}

/-- The directives build their candidates or fail, and what they build can be resolved in the
windows that they derive. -/
structure NestedSettled (r : Resolver V) (nested : Nat → NestedListing V) (place : Place)
    (b : Bindings) (ds : List Directive) : Prop where
  /-- the candidates are built, or it is known why not -/
  candidates : ∀ d ∈ ds, Fueled.Settled fun fuel =>
    Constraint.requireTypes r.catalog fuel b d.types
  /-- they can be resolved -/
  resolutions : ∀ d ∈ ds, ∀ fuel ts,
    Constraint.requireTypes r.catalog fuel b d.types = some (.ok ts) →
      Listing.Settled fun fuel => nested fuel ts (place.window.directed place.index d)

/-- A parameter can be filled in finitely many ways if its nested resolution settles. -/
theorem settled_parameterFillings {ts : List Ty} {window : Window}
    (h : Listing.Settled fun fuel => nested fuel ts window) (hasDefault : Bool) :
    Listing.Settled fun fuel => parameterFillings (nested fuel) ts window hasDefault := by
  have hdefault : Listing.Settled fun _ => (Listing.concat
      [(false, if hasDefault then Listing.one .default else .nothing)] :
        Listing ResolutionError (Filled V)) := by
    cases hasDefault with
    | true => exact .const (Option.some_ne_none _)
    | false => exact .const Listing.ending_nothing_ne_none
  exact (h.map Filled.value).andThen true hdefault

/-- So can all parameters. -/
theorem settled_argumentLists {params : List Parameter}
    (h : r.NestedSettled nested place b (params.filterMap Parameter.directive?)) :
    Listing.Settled fun fuel => r.argumentLists fuel (nested fuel) place b params := by
  induction params with
  | nil => exact .const (Option.some_ne_none _)
  | cons param params ih =>
    cases param with
    | required => exact .const Listing.ending_nothing_ne_none
    | optional => exact (ih h).map _
    | specialize d hasDefault =>
      have hd : d ∈ (Parameter.specialize d hasDefault :: params).filterMap Parameter.directive? :=
        List.mem_cons_self
      have hrest := ih ⟨fun d' hd' => h.candidates d' (List.mem_cons_of_mem d hd'),
        fun d' hd' => h.resolutions d' (List.mem_cons_of_mem d hd')⟩
      -- the candidates that the directive builds settle first, and then what they resolve to
      refine .ofFueled (h.candidates d hd) fun fuel result hresult => ?_
      cases result with
      | error e => exact .const (Option.some_ne_none _)
      | ok ts =>
        dsimp only
        split
        · exact hrest.map _
        · exact (settled_parameterFillings (h.resolutions d hd fuel ts hresult) hasDefault).each
            d.definitive fun _ arg _ => hrest.map (arg :: ·)

/-- A drive settles, since its sequence is one that a directive left for the nested resolution of
its window. -/
theorem settled_drivenArg {ds : List Directive} (h : r.NestedSettled nested place b ds)
    {args : List (Filled V)} {fuel : Nat} (hargs : ∀ ts window, .sequence ts window ∈ args →
      ∃ d ∈ ds, Constraint.requireTypes r.catalog fuel b d.types = some (.ok ts) ∧
        window = place.window.directed place.index d) (position : Nat) (stop : List V → Bool) :
    Fueled.Settled fun fuel => drivenArg (nested fuel) args position stop := by
  unfold drivenArg
  rcases harg : args[position]? with _ | v | _ | ⟨ts, window⟩
  · exact .const _
  · exact .const _
  · exact .const _
  · obtain ⟨d, hd, hts, rfl⟩ := hargs ts window (List.mem_of_getElem? harg)
    exact ((h.resolutions d hd fuel ts hts).drive stop).map _

/-- What a producer gives settles: there are finitely many lists of arguments, and each call
answers. -/
theorem settled_producerContribution {producer : Producer V}
    (h : r.NestedSettled nested place b (producer.params.filterMap Parameter.directive?)) (t : Ty) :
    Listing.Settled fun fuel => r.producerContribution fuel (nested fuel) place b t producer := by
  refine (settled_argumentLists h).each false fun fuel args hargs => ?_
  have hdrive := settled_drivenArg h fun ts window => sequence_of_mem_argumentLists hargs
  refine .ofFueled (Production.settled_answer? hdrive _) fun _ outcome _ => ?_
  cases outcome with
  | ok values => exact .const (Option.some_ne_none _)
  | error failure =>
    dsimp only
    split <;> exact .const (Option.some_ne_none _)

/-- So does what all producers of a pattern give for a closed type. -/
theorem settled_typeContribution {p : Pattern V} (h : r.NestedSettled nested place b p.directives)
    (t : Ty) : Listing.Settled fun fuel => r.typeContribution fuel (nested fuel) place p b t := by
  refine .concat _ fun producer hproducer => ?_
  have hmem : producer ∈ p.producers :=
    (List.mem_append.mp hproducer).elim List.mem_of_mem_filter List.mem_of_mem_filter
  have hsub : ∀ d ∈ producer.params.filterMap Parameter.directive?, d ∈ p.directives :=
    fun _ hd => Pattern.mem_directives hmem hd
  exact settled_producerContribution ⟨fun d hd => h.candidates d (hsub d hd),
    fun d hd => h.resolutions d (hsub d hd)⟩ t

end Calls

/-! ## Patterns

An attempt on a pattern asks questions about types that are met, and these have answers where
`MatchEnds` says so. -/

section Patterns

variable {D : DefIndex → Prop} {M : Ty → Prop} (hM : r.catalog.MatchEnds D M) {p : Pattern V}
  (hp : p.KeepsTo D M) {nested : Nat → NestedListing V} {place : Place}
  (hnested : ∀ d ∈ p.directives, ∀ ts, (∀ t ∈ ts, M t) →
    Listing.Settled fun fuel => nested fuel ts (place.window.directed place.index d))
include hM hp hnested

/-- Under given bindings the template closes or not, and what its type's producers give settles. -/
theorem settled_bindingsContribution {d : DefIndex} (hd : D d) {b : Bindings} (hb : b.In M) :
    Listing.Settled fun fuel => r.bindingsContribution fuel (nested fuel) place p d b := by
  have hclosed : Fueled.Settled fun fuel => r.closedUnder fuel d b := by
    unfold closedUnder
    cases hargs : boundArgs? b (r.catalog.definition d).params with
    | none => exact .const none
    | some args => exact (hM.settled_instantiate hd (mem_boundArgs? hb hargs)).map _
  refine .ofFueled hclosed fun _ closed _ => ?_
  cases closed with
  | none => exact .const Listing.ending_nothing_ne_none
  | some t =>
    refine settled_typeContribution ⟨fun d hd => ?_, fun d hd fuel ts hts => ?_⟩ t
    · exact hM.settled_requireTypes hb d.types (hp.directives d hd)
    · exact hnested d hd ts (hp.candidates hM.toMatchClosed hb hd hts)

/-- **What a pattern contributes settles**, if its nested resolutions do. -/
theorem settled_patternContribution {candidates : List Ty} (hcandidates : ∀ t ∈ candidates, M t) :
    Listing.Settled fun fuel =>
      r.patternContribution fuel (nested fuel) place candidates p := by
  unfold patternContribution
  cases hopen : r.openTemplate p.template with
  | error e => exact .const (Option.some_ne_none _)
  | ok start =>
    obtain ⟨d, b⟩ := start
    obtain ⟨hd, hb⟩ := hp.openTemplate hopen
    exact (hM.settled_slotSolutions hp.slots hcandidates hb).each false fun _ b' hb' =>
      settled_bindingsContribution hM hp hnested hd
        (hM.in_slotSolutions hp.slots hcandidates hb hb')

end Patterns

/-! ## Windows

A descent is an invariant of windows together with a measure that goes down along directives. The
invariant is needed for global directives only, where it says that a window is also the range that
nested windows are cut from. -/

/-- All directives point one way: each to what follows, or each to what precedes, or each has a
direction and is global. -/
def Directed (r : Resolver V) : Prop :=
  (∀ d ∈ r.directives, d.direction = .following) ∨ (∀ d ∈ r.directives, d.direction = .preceding) ∨
    ∀ d ∈ r.directives, d.isGlobal = true ∧ d.direction ≠ .any

/-- A measure on the windows that satisfy an invariant, which nested resolutions lower. -/
structure Descent (r : Resolver V) (I : Window → Prop) (measure : Window → Nat) : Prop where
  /-- the window of the whole list satisfies the invariant -/
  whole : I (.whole r.patterns.length)
  /-- derived windows keep it -/
  directed : ∀ w i, I w → ∀ d ∈ r.directives, I (w.directed i d)
  /-- and are smaller, if they are derived for a pattern of the window -/
  lt : ∀ w i, I w → r.Tries w i → ∀ d ∈ r.directives, measure (w.directed i d) < measure w

/-- In each of the three regimes there is a measure that nested resolutions lower. -/
theorem Directed.descent (h : r.Directed) : ∃ I measure, r.Descent I measure := by
  -- in each of the three cases the measure is what is left in the direction of the directives
  rcases h with hfollowing | hpreceding | hglobal
  · refine ⟨fun _ => True, fun w => r.patterns.length - w.start, trivial,
      fun _ _ _ _ _ => trivial, fun w i _ htries d hd => ?_⟩
    have hstart := Window.lt_directed_start (w := w) (i := i) (hfollowing d hd)
    obtain ⟨hlength, hin, -⟩ := htries.bounds
    omega
  · refine ⟨fun _ => True, Window.stop, trivial, fun _ _ _ _ _ => trivial,
      fun w i _ htries d hd => ?_⟩
    have hstop := Window.directed_stop_le (w := w) (i := i) (hpreceding d hd)
    obtain ⟨-, -, hin⟩ := htries.bounds
    exact Nat.lt_of_le_of_lt hstop hin
  · -- the invariant: nested windows are cut from the window itself
    refine ⟨fun w => w.globalStart = w.start ∧ w.globalStop = w.stop, fun w => w.stop - w.start,
      ⟨rfl, rfl⟩, fun w i _ d hd => Window.directed_of_isGlobal (hglobal d hd).1,
      fun w i hw htries d hd => ?_⟩
    obtain ⟨hstart, hstop⟩ := w.directed_in_globalRange i d
    obtain ⟨-, hin, hin'⟩ := htries.bounds
    have hdirection := (hglobal d hd).2
    cases hd' : d.direction with
    | any => exact absurd hd' hdirection
    | following =>
      have hlt := Window.lt_directed_start (w := w) (i := i) hd'
      omega
    | preceding =>
      have hle := Window.directed_stop_le (w := w) (i := i) hd'
      omega

section Windows

variable {D : DefIndex → Prop} {M : Ty → Prop} (hM : r.catalog.MatchEnds D M)
  (hr : ∀ p ∈ r.allPatterns, p.KeepsTo D M) {I : Window → Prop} {measure : Window → Nat}
  (hdescent : r.Descent I measure)
include hM hr hdescent

/-- **Every window's contribution settles.** The induction is on the measure, which nested
resolutions lower. -/
theorem settled_windowContribution {w : Window} (hw : I w) {candidates : List Ty}
    (hcandidates : ∀ t ∈ candidates, M t) :
    Listing.Settled fun fuel => r.windowContribution fuel candidates w := by
  induction hm : measure w using Nat.strong_induction_on generalizing w candidates with
  | _ n ih =>
    -- the unit of fuel that the level itself takes does not matter
    refine .of_succ (.concat _ fun q hq => ?_)
    have hpattern := mem_allPatterns_of_mem_select hq
    refine settled_patternContribution hM (hr q.1 hpattern) (fun d hd ts hts => ?_) hcandidates
    have hd' := mem_directives hpattern hd
    have hlt := hdescent.lt w q.2 hw ⟨q.1, hq⟩ d hd'
    exact ih _ (hm ▸ hlt) (hdescent.directed w q.2 hw d hd') hts rfl

/-- The fallback settles. It stands behind all patterns, so the first step from it needs no measure
of its own. -/
theorem settled_fallbackContribution :
    Listing.Settled fun fuel => r.fallbackContribution fuel := by
  unfold fallbackContribution
  -- its nested resolutions are in windows of the descent, as the whole list is one
  cases hfallback : r.fallback with
  | none => exact .const Listing.ending_nothing_ne_none
  | some p =>
    have hpattern := mem_allPatterns_of_fallback hfallback
    dsimp only
    cases hopen : r.openTemplate p.template with
    | error e => exact .const (Option.some_ne_none _)
    | ok start =>
      obtain ⟨d, b⟩ := start
      obtain ⟨hd, hb⟩ := (hr p hpattern).openTemplate hopen
      refine settled_bindingsContribution hM (hr p hpattern) (fun d hd ts hts => ?_) hd hb
      exact settled_windowContribution hM hr hdescent
        (hdescent.directed _ _ hdescent.whole d (mem_directives hpattern hd)) hts

/-- **Directed resolutions settle.** -/
theorem settled_contribution {candidates : List Ty} (hcandidates : ∀ t ∈ candidates, M t) :
    Listing.Settled fun fuel => r.contribution fuel candidates :=
  (settled_windowContribution hM hr hdescent hdescent.whole hcandidates).andThen true
    ((settled_fallbackContribution hM hr hdescent).andThen false
      (.const Listing.ending_nothing_ne_none))

end Windows

/-! ## Resolutions

A contribution that settles is one that the search reaches with enough fuel, and then every consumer
gets to its end. -/

/-- **Directed resolutions terminate.** If all directives of a resolver point one way, then every
resolution comes to its end for every consumer, provided that the walks over ancestors and the
questions of assignability do for the types that it meets. -/
theorem Directed.resolve_ends (h : r.Directed) (candidates : List Ty)
    (hends : r.catalog.QuestionsEnd r.Uses (r.Met candidates)) :
    ∃ enough, ∀ fuel ≥ enough, ∀ stop, (r.resolve fuel stop candidates).ending ≠ none := by
  obtain ⟨I, measure, hdescent⟩ := h.descent
  obtain ⟨l, hend, hl⟩ := settled_contribution ⟨r.matchClosed_met candidates, hends⟩
    (fun _ => keepsTo_met candidates) hdescent fun _ => .candidate
  obtain ⟨enough, henough⟩ := eventually_atTop.mp hl
  refine ⟨enough, fun fuel hfuel stop => Search.runFrom_ending_ne_none stop [] ?_⟩
  have hlisting : r.contribution fuel candidates = l := henough fuel hfuel
  rwa [listing_search, hlisting]

end Resolver

/-- Counts how often a list is wrapped around a candidate: builds `List<T>` for `T` with one more
than what `List<T>` resolves to. -/
def wrapList (direction : Direction) : Pattern Nat where
  template := .definition 14
  slots := [⟨[.named "T"], false⟩]
  producers := [.ofConstructor
    [.specialize { types := [.definition 14 [.named "T"]], direction } false] false fun _ args =>
      .answer <| match args with
        | [.value n] => .ok (n + 1)
        | _ => .error ⟨.system, "no list to wrap"⟩]

/-- Builds `List<T>` for `T` without resolving again. -/
def bareList : Pattern Nat where
  template := .definition 14
  slots := [⟨[.named "T"], false⟩]
  producers := [.ofFactory [] false fun _ _ => .answer (.ok (.one 0))]

/-- Two patterns that wrap a list for those behind them, and a last one that does not. -/
def listWrapper : Resolver Nat where
  catalog := .baseLibrary
  patterns := [wrapList .following, wrapList .following, bareList]

open Catalog in
/-- Wrapping ends for every consumer, although the candidates grow at every level. -/
theorem listWrapper_ends :
    listWrapper.Directed ∧ ∃ enough, ∀ fuel ≥ enough, ∀ stop,
      (listWrapper.resolve fuel stop [.nominal 19]).ending ≠ none := by
  have hdirected : listWrapper.Directed := .inl (by decide)
  have hends := baseLibrary_acyclic.hierarchyEnds
  have hassign := baseLibrary_flat.assignabilityEnds hends
  exact ⟨hdirected, hdirected.resolve_ends _ (questionsEnd hends hassign)⟩

end TypeResolution

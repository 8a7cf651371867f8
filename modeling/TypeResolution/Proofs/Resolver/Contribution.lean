import TypeResolution.Proofs.Unification.Solutions
import TypeResolution.Proofs.Resolver.MoreFuel
import TypeResolution.Proofs.Search.Shortfall

/-!
# What a resolution gives, as a list

The plain reading of a resolution, without laziness and without a record of calls. Everything is a
list with, possibly, the error that cut it short:

* a window gives what its patterns give, in the order of their positions, up to the first definitive
  pattern that gives something;
* a pattern gives, for every solution of its slots that closes its template, what its factories and
  then its constructors give, up to the first definitive producer that gives something;
* a producer gives what its calls give, one call for every list of arguments;
* a parameter takes each value of its nested resolution in turn (a definitive one only the first
  that extends to a whole list of arguments), and its default if the nested resolution gives
  nothing;
* the fallback gives something only if the whole window gives nothing.

The recursion through nested resolutions is the recursion of these lists; it is bounded by the same
fuel as the search. `listing_search` says that the search finds exactly the contribution.

The definitions are meant to be read instead of those of the search, so they are given in full:
nothing in them refers to a search, and where the search prunes there is a cut in a row of lists.
The proof that both agree has one lemma for each definition, named after the function that it is
about. Nested resolutions are a parameter on both sides, and the two are assumed to agree; the
induction on the fuel at the end discharges this.
-/

namespace TypeResolution

/-- What a resolution of candidates in a window gives. -/
abbrev NestedListing (V : Type) := List Ty → Window → Listing ResolutionError V

/-- The answer of a call, when `drive` says what its drives give; none if one of these lacks
fuel. -/
def Production.answer? {V α : Type} (drive : Nat → (List V → Bool) → Fueled (Driven V)) :
    Production V α → Fueled α
  | .answer a => some a
  | .drive position stop next => (drive position stop).bind fun d => answer? drive (next d)

namespace Resolver

variable {V : Type} (r : Resolver V) (fuel : Nat) (nested : NestedListing V)

/-! ## Calls

A call is a function of the arguments once it is known what its drives give. Arguments are lists of
filled parameters, in the order in which the search goes through them: the first parameter varies
slowest. -/

/-- The ways to fill one parameter: the values of its nested resolution or, if there are none, the
default if there is one. -/
def parameterFillings (candidates : List Ty) (window : Window) (hasDefault : Bool) :
    Listing ResolutionError (Filled V) :=
  .concat [(true, (nested candidates window).map .value),
    (false, if hasDefault then .one .default else .nothing)]

/-- All lists of arguments, the choices for an earlier parameter varying slower. -/
def argumentLists (place : Place) (b : Bindings) :
    List Parameter → Listing ResolutionError (List (Filled V))
  | [] => .one []
  | .required :: _ => .nothing
  | .optional :: params => (argumentLists place b params).map (.default :: ·)
  | .specialize directive hasDefault :: params =>
    .ofFueled (Constraint.requireTypes r.catalog fuel b directive.types) fun
      | .error e => .failed e
      | .ok candidates =>
        let window := place.window.directed place.index directive
        if directive.isSequence then
          (argumentLists place b params).map (.sequence candidates window :: ·)
        else
          (parameterFillings nested candidates window hasDefault).each directive.definitive
            fun arg => (argumentLists place b params).map (arg :: ·)

/-- What a producer is given when it drives the sequence at a position. -/
def drivenArg (args : List (Filled V)) (position : Nat) (stop : List V → Bool) :
    Fueled (Driven V) :=
  match args[position]? with
  | some (.sequence candidates window) =>
    ((nested candidates window).drive stop).map fun d => ⟨d.1, d.2⟩
  | _ => some ⟨[], .ok .finished⟩

/-- The values of one call: those of its answer, none after an expected failure. -/
def callContribution (t : Ty) (producer : Producer V) (args : List (Filled V)) :
    Listing ResolutionError V :=
  .ofFueled ((producer.invoke t (args.map Filled.toArgument)).answer? (drivenArg nested args)) fun
    | .ok values => .ofList values
    | .error failure => if r.expects failure then .nothing else .failed (.producer t failure)

/-- The values of one producer: those of its calls, one for every list of arguments. -/
def producerContribution (place : Place) (b : Bindings) (t : Ty) (producer : Producer V) :
    Listing ResolutionError V :=
  (r.argumentLists fuel nested place b producer.params).each false
    (r.callContribution nested t producer)

/-- The values of a closed type: those of the factories, then those of the constructors. -/
def typeContribution (place : Place) (p : Pattern V) (b : Bindings) (t : Ty) :
    Listing ResolutionError V :=
  let factories := p.producers.filter fun q => decide (q.kind = .factory)
  let constructors := p.producers.filter fun q => decide (q.kind = .constructor)
  .concat <| (factories ++ constructors).map fun q =>
    (q.definitive, r.producerContribution fuel nested place b t q)

/-! ## Patterns

From bindings to whole resolutions. Each of these definitions is a row of the ones before it. -/

/-- The values of a definition under some bindings: none unless these close the template. -/
def bindingsContribution (place : Place) (p : Pattern V) (d : DefIndex) (b : Bindings) :
    Listing ResolutionError V :=
  .ofFueled (r.closedUnder fuel d b) fun
    | none => .nothing
    | some t => r.typeContribution fuel nested place p b t

/-- The values of a pattern: those of every solution of its slots. -/
def patternContribution (place : Place) (candidates : List Ty) (p : Pattern V) :
    Listing ResolutionError V :=
  match r.openTemplate p.template with
  | .error e => .failed e
  | .ok (d, b) =>
    (slotSolutions r.catalog fuel p.slots candidates b).each false
      (r.bindingsContribution fuel nested place p d)

/-- The values of a window: those of its patterns. -/
def windowContribution : (fuel : Nat) → NestedListing V
  | 0, _, _ => .exhausted
  | fuel + 1, candidates, window =>
    .concat <| (window.select r.patterns).map fun q =>
      (q.1.definitive,
        r.patternContribution fuel (windowContribution fuel) ⟨q.2, window⟩ candidates q.1)

/-- The values of the fallback, which looks at no candidate. -/
def fallbackContribution : Listing ResolutionError V :=
  match r.fallback with
  | none => .nothing
  | some p =>
    match r.openTemplate p.template with
    | .error e => .failed e
    | .ok (d, b) =>
      r.bindingsContribution fuel (r.windowContribution fuel)
        ⟨r.patterns.length, .whole r.patterns.length⟩ p d b

/-- The values that some candidates resolve to: those of the whole window or, if there are none,
those of the fallback. -/
def contribution (candidates : List Ty) : Listing ResolutionError V :=
  .concat [(true, r.windowContribution fuel candidates (.whole r.patterns.length)),
    (false, r.fallbackContribution fuel)]

/-! ## The search finds the contribution

Each function of a resolution is turned into a listing by the equations of
`TypeResolution.Proofs.Search.Listing`, combinator by combinator, and what comes out is the
definition above. -/

section

variable {search : Nested V} {nested : NestedListing V}

/-- A parameter is filled with what the nested contribution lists, or with the default. -/
theorem listing_fillings (h : ∀ candidates window,
      (search candidates window).listing = nested candidates window)
    (candidates : List Ty) (window : Window) (hasDefault : Bool) :
    (fillings search candidates window hasDefault).listing =
      parameterFillings nested candidates window hasDefault := by
  cases hasDefault with
  | false =>
    simp only [fillings, parameterFillings, Search.listing_map, h, Listing.concat_cons,
      Listing.concat_nil, Listing.append_nothing, Listing.andThen, Bool.false_eq_true, if_false,
      ite_self]
  | true =>
    simp only [fillings, parameterFillings, Search.listing_map, h, Listing.concat_cons,
      Listing.concat_nil, Listing.andThen_false, Listing.append_nothing, if_true,
      Search.listing_orElse, Search.listing_single]

/-- The lists of arguments are found in the order in which they are listed. -/
theorem listing_argLists (h : ∀ candidates window,
      (search candidates window).listing = nested candidates window)
    (place : Place) (b : Bindings) (params : List Parameter) :
    (r.argLists fuel search place b params).listing =
      r.argumentLists fuel nested place b params := by
  induction params with
  | nil => rfl
  | cons param params ih =>
    cases param with
    | required => rfl
    | optional => rw [argLists, argumentLists, Search.listing_map, ih]
    | specialize directive hasDefault =>
      rw [argLists, argumentLists]
      -- no fuel and an error are listings of their own; otherwise it matters whether the directive
      -- is for a sequence
      rcases Constraint.requireTypes r.catalog fuel b directive.types with _ | e | candidates
      · rfl
      · rfl
      · dsimp only [Listing.ofFueled]
        split
        · rw [Search.listing_map, ih]
        · simp only [Search.listing_choose, Search.listing_map, listing_fillings h, ih]

/-- Driving a sequence gives what the consumer takes of the nested contribution. -/
theorem listing_driveArg (h : ∀ candidates window,
      (search candidates window).listing = nested candidates window)
    (args : List (Filled V)) (position : Nat) (stop : List V → Bool) :
    (driveArg search args position stop).listing =
      .ofFueled (drivenArg nested args position stop) .one := by
  rw [driveArg, drivenArg]
  rcases args[position]? with _ | v | _ | ⟨candidates, window⟩
  · rfl
  · rfl
  · rfl
  · dsimp only
    rw [Search.listing_map, Search.gather_eq, h]
    cases (nested candidates window).drive stop <;> rfl

/-- A call that is performed lists its answer, once the drives are known. The induction follows the
interaction. -/
theorem listing_run {α : Type}
    {perform : Nat → (List V → Bool) → Search (Event V) ResolutionError (Driven V)}
    {drive : Nat → (List V → Bool) → Fueled (Driven V)}
    (h : ∀ position stop, (perform position stop).listing = .ofFueled (drive position stop) .one)
    (p : Production V α) : (p.run perform).listing = .ofFueled (p.answer? drive) .one := by
  induction p with
  | answer a => rfl
  | drive position stop next ih =>
    rw [Production.run, Production.answer?, Search.listing_bind, h]
    simp only [ih]
    cases drive position stop with
    | none => rfl
    | some d => exact Listing.append_nothing _

/-- What a call delivers is its list of values, or the failure unless that is expected. -/
theorem listing_deliver (t : Ty) (outcome : Except Failure (List V)) :
    (r.deliver t outcome).listing =
      match outcome with
      | .ok values => .ofList values
      | .error failure =>
        if r.expects failure then .nothing else .failed (.producer t failure) := by
  rcases outcome with failure | values
  · rw [deliver]
    dsimp only
    cases r.expects failure <;> rfl
  · exact Search.listing_ofList values

/-- So a call lists its contribution, and the two events that it is bracketed by are gone. -/
theorem listing_call (h : ∀ candidates window,
      (search candidates window).listing = nested candidates window)
    (place : Place) (t : Ty) (producer : Producer V × Nat) (args : List (Filled V)) :
    (r.call search place t producer args).listing =
      r.callContribution nested t producer.1 args := by
  rw [call, callContribution, Search.listing_event, Search.listing_bind,
    listing_run (listing_driveArg h args)]
  simp only [Search.listing_event, listing_deliver]
  cases (producer.1.invoke t (args.map Filled.toArgument)).answer? (drivenArg nested args) with
  | none => rfl
  | some outcome => exact Listing.append_nothing _

/-- Calls one after another are a row, with a cut behind a definitive producer that gives something.
-/
theorem listing_callAll (h : ∀ candidates window,
      (search candidates window).listing = nested candidates window)
    (place : Place) (b : Bindings) (t : Ty) (producers : List (Producer V × Nat)) :
    (r.callAll fuel search place b t producers).listing =
      .concat (producers.map fun q =>
        (q.1.definitive, r.producerContribution fuel nested place b t q.1)) := by
  induction producers with
  | nil => rfl
  | cons producer rest ih =>
    simp only [callAll, Search.listing_andThen, Search.listing_bind, ih, List.map_cons,
      Listing.concat_cons, producerContribution, listing_argLists r fuel h, listing_call r h]

/-- Positions have no say in which elements pass a test. -/
theorem filter_zipIdx_map_fst {α : Type} (passes : α → Bool) (as : List α) (n : Nat) :
    ((as.zipIdx n).filter fun q => passes q.1).map Prod.fst = as.filter passes := by
  conv_rhs => rw [← List.zipIdx_map_fst n as, List.filter_map]
  rfl

/-- Calling the factories before the constructors is calling them in the order of their
positions. -/
theorem callOrder_map_fst (p : Pattern V) :
    p.callOrder.map Prod.fst =
      (p.producers.filter fun q => decide (q.kind = .factory)) ++
        p.producers.filter fun q => decide (q.kind = .constructor) := by
  have hfilter : ∀ kind : ProducerKind,
      (p.producers.zipIdx.filter fun q => decide (q.1.kind = kind)).map Prod.fst =
        p.producers.filter fun q => decide (q.kind = kind) :=
    fun kind => filter_zipIdx_map_fst (fun q => decide (q.kind = kind)) p.producers 0
  rw [Pattern.callOrder, List.map_append, hfilter, hfilter]

/-- The producers of a pattern are called in the order of `callOrder`, which the contribution has as
two lists, the factories and the constructors. -/
theorem listing_callProducers (h : ∀ candidates window,
      (search candidates window).listing = nested candidates window)
    (place : Place) (p : Pattern V) (b : Bindings) (t : Ty) :
    (r.callProducers fuel search place p b t).listing =
      r.typeContribution fuel nested place p b t := by
  rw [callProducers, listing_callAll r fuel h, typeContribution, ← callOrder_map_fst, List.map_map]
  rfl

/-- The values of a definition are none unless it closes. -/
theorem listing_valuesOf (h : ∀ candidates window,
      (search candidates window).listing = nested candidates window)
    (place : Place) (p : Pattern V) (d : DefIndex) (b : Bindings) :
    (r.valuesOf fuel search place p d b).listing =
      r.bindingsContribution fuel nested place p d b := by
  rw [valuesOf, bindingsContribution]
  rcases r.closedUnder fuel d b with _ | _ | t
  · rfl
  · rfl
  · exact listing_callProducers r fuel h place p b t

/-- An attempt lists what the solutions of the slots lead to. -/
theorem listing_tryPattern (h : ∀ candidates window,
      (search candidates window).listing = nested candidates window)
    (place : Place) (candidates : List Ty) (p : Pattern V) :
    (r.tryPattern fuel search place candidates p).listing =
      r.patternContribution fuel nested place candidates p := by
  rw [tryPattern, patternContribution]
  rcases r.openTemplate p.template with e | ⟨d, b⟩
  · rfl
  · dsimp only
    simp only [Search.listing_bind, listing_slotBindings, listing_valuesOf r fuel h]

/-- Attempts one after another are a row again. -/
theorem listing_tryPatterns (h : ∀ candidates window,
      (search candidates window).listing = nested candidates window)
    (window : Window) (candidates : List Ty) (patterns : List (Pattern V × Nat)) :
    (r.tryPatterns fuel search window candidates patterns).listing =
      .concat (patterns.map fun q =>
        (q.1.definitive, r.patternContribution fuel nested ⟨q.2, window⟩ candidates q.1)) := by
  induction patterns with
  | nil => rfl
  | cons q rest ih =>
    obtain ⟨p, index⟩ := q
    simp only [tryPatterns, Search.listing_andThen, listing_tryPattern r fuel h, ih, List.map_cons,
      Listing.concat_cons]

end

/-- A window search finds the contribution of the window. The induction is on the fuel, that is on
the depth to which resolutions are nested. -/
theorem listing_searchWindow (candidates : List Ty) (window : Window) :
    (r.searchWindow fuel candidates window).listing =
      r.windowContribution fuel candidates window := by
  induction fuel generalizing candidates window with
  | zero => rfl
  | succ fuel ih => exact listing_tryPatterns r fuel ih window candidates _

/-- The fallback lists its contribution. -/
theorem listing_searchFallback :
    (r.searchFallback fuel).listing = r.fallbackContribution fuel := by
  rw [searchFallback, fallbackContribution]
  rcases r.fallback with _ | p
  · rfl
  · dsimp only
    rcases r.openTemplate p.template with e | ⟨d, b⟩
    · rfl
    · exact listing_valuesOf r fuel (listing_searchWindow r fuel) _ p d b

/-- **The search finds the contribution.** -/
theorem listing_search (candidates : List Ty) :
    (r.search fuel candidates).listing = r.contribution fuel candidates := by
  simp only [search, contribution, Search.listing_orElse, listing_searchWindow,
    listing_searchFallback, Listing.concat_cons, Listing.concat_nil, Listing.andThen_false,
    Listing.append_nothing]

/-! ## Resolutions are their list semantics

What is known of the listing is turned into statements about runs: of the consumer that takes
everything, and of `allValues`. -/

/-- What a resolution gives does not depend on the fuel, once that suffices. -/
theorem contribution_of_le {fuel more : Nat} (h : fuel ≤ more) (candidates : List Ty)
    (hend : (r.contribution fuel candidates).ending ≠ none) :
    r.contribution more candidates = r.contribution fuel candidates := by
  rw [← listing_search] at hend
  rw [← listing_search, ← listing_search]
  exact (r.search_le h candidates).listing_le.eq_of_ending hend

/-- **A resolution delivers its list semantics.** The consumer who takes everything is handed the
items of the contribution, in order and with the error behind them if there is one; the list of all
values is what the contribution comes to. Under a fuel at which the resolution ends, the
contribution is the one under any larger fuel. -/
theorem resolve_eq_contribution (candidates : List Ty) :
    (r.resolve fuel Search.takeAll candidates).items = (r.contribution fuel candidates).items ∧
      (r.resolve fuel Search.takeAll candidates).ending =
        (r.contribution fuel candidates).ending ∧
      r.allValues fuel candidates = (r.contribution fuel candidates).outcome ∧
      ((r.resolve fuel Search.takeAll candidates).ending ≠ none → ∀ more, fuel ≤ more →
        r.contribution more candidates = r.contribution fuel candidates) := by
  obtain ⟨hitems, hending⟩ := Search.run_takeAll (r.search fuel candidates)
  rw [listing_search] at hitems hending
  refine ⟨hitems, hending, ?_, fun hend more h => ?_⟩
  · rw [allValues, resolve, hitems, hending, Listing.ending_map_eq_outcome]
  · rw [resolve, hending] at hend
    exact r.contribution_of_le h candidates hend

end Resolver

/-- Counts the dimensions of an encoded rank, from 0 and again from 10: `RankZero` gives 0 and 10,
and `RankSucc<N>` gives one more than each value that `N` resolves to. -/
def rankCounter : Resolver Nat where
  catalog := .empty
  patterns := [
    { template := .definition rankZero
      slots := [⟨[.definition rankZero []], false⟩]
      producers := [.ofFactory [] false fun _ _ => .answer (.ok (.many [0, 10]))] },
    { template := .definition rankSucc
      slots := [⟨[.definition rankSucc [.named "N"]], false⟩]
      producers := [.ofConstructor [.specialize { types := [.named "N"] } false] false fun _ args =>
        .answer <| match args with
          | [.value n] => .ok (n + 1)
          | _ => .error ⟨.system, "no dimension to count"⟩] }]

/-- Two dimensions are counted as 2 and as 12, under every fuel that lets the nested resolutions
end. -/
theorem rankCounter_delivers_contribution :
    (rankCounter.contribution 6 [rankEncoding 2]).items = [2, 12] ∧
      rankCounter.allValues 6 [rankEncoding 2] = some (.ok [2, 12]) ∧
      rankCounter.contribution 9 [rankEncoding 2] =
        rankCounter.contribution 6 [rankEncoding 2] := by
  obtain ⟨hitems, hending, hvalues, hmore⟩ :=
    rankCounter.resolve_eq_contribution 6 [rankEncoding 2]
  have hend : (rankCounter.contribution 6 [rankEncoding 2]).ending = some (.ok .finished) := rfl
  refine ⟨hitems.symm.trans rfl, hvalues.trans rfl, hmore ?_ 9 (by decide)⟩
  rw [hending, hend]
  exact nofun

end TypeResolution

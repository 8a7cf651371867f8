import TypeResolution.Proofs.Resolver.TypesMet
import TypeResolution.Proofs.Search.Trace

/-!
# The attempts of a resolution

A resolution tries patterns, and trying one it resolves again and tries more of them. Each attempt
has its circumstances: the position of the pattern, the window that it is reached through, the
candidates, and the attempts that it is nested in. Which attempts does a run make? Its record does
not say, as it only knows calls, and an attempt with candidates that the slots refuse calls nobody.
So the question is turned round: which attempts have a say in the run?

`searchVia` is the resolution that leaves it to a handler what comes of an attempt. With the handler
that does what the resolver does (`tryAt`) it is the resolver's own. A resolution *makes attempts in
`A` only* (`AttemptsOnly`) if it is enough that the handler does so in `A`: any other attempt may
give whatever it likes, values, calls and errors, and the run is still the same, with the same
record for every consumer. An attempt that a run makes would be seen if it gave something else, so
the statement bounds the run, whatever the patterns and the candidates are.

Such a bound is an invariant of nesting. One step says what an attempt resolves again (`Asks`):
whatever types a directive of its pattern builds under bindings that its slots accept, in the window
that this directive derives, and nothing else (`tryAt_congr`). So a set of attempts that has the
first ones in it, and with an attempt those that it asks for, is never left
(`Invariant.attemptsOnly`).

The last section goes one step further in, from attempts to the closed types that they come to ask a
pattern's producers for (`Request`).
-/

namespace TypeResolution

/-- If what a search finds leads to the same, then so does the search. -/
theorem Search.bind_congr_items {ν ε α β : Type} {s : Search ν ε α} {f g : α → Search ν ε β}
    (h : ∀ a ∈ s.listing.items, f a = g a) : s.bind f = s.bind g := by
  induction s with
  | done => rfl
  | failed e => rfl
  | exhausted => rfl
  | event e rest ih => exact congrArg (Search.event e) (funext fun _ => ih () h)
  | found a rest ih =>
    obtain ⟨ha, hrest⟩ := List.forall_mem_cons.mp h
    rw [Search.bind, Search.bind, ha, ih () hrest]

/-- A pattern is tried. -/
structure Attempt where
  /-- the fuel for what is nested in the attempt -/
  fuel : Nat
  /-- the places of the attempts that it is nested in, from the outside to the inside -/
  outer : List Place
  /-- the position of the pattern, and the window that it is reached through -/
  place : Place
  /-- what is to be resolved -/
  candidates : List Ty

/-- What comes of attempts, for given nested resolutions. -/
abbrev Handler (V : Type) := Attempt → Nested V → Search (Event V) ResolutionError V

namespace Resolver

variable {V : Type} (r : Resolver V)

/-! ## Resolutions that ask a handler -/

/-- The pattern to try at a position. The slots of the fallback are not looked at, so it is tried as
a pattern without slots, for no candidates. -/
def triedAt? (index : Nat) : Option (Pattern V) :=
  if index = r.patterns.length then r.fallback.map fun p => { p with slots := [] }
  else r.patterns[index]?

/-- What the resolver itself does: it tries the pattern at the place. -/
def tryAt : Handler V := fun a nested =>
  match r.triedAt? a.place.index with
  | none => .done
  | some p => r.tryPattern a.fuel nested a.place a.candidates p

/-- What comes of patterns one after another. Nothing is done behind a definitive pattern that gives
something. -/
def attemptEach (attempt : Pattern V × Nat → Search (Event V) ResolutionError V) :
    List (Pattern V × Nat) → Search (Event V) ResolutionError V
  | [] => .done
  | q :: rest => (attempt q).andThen q.1.definitive fun _ => attemptEach attempt rest

/-- Resolving in a window, inside of attempts at the places `outer`: every pattern that the window
selects is attempted, and what is nested in that attempt is resolved in the same way. -/
def windowVia (handle : Handler V) : (fuel : Nat) → (outer : List Place) → Nested V
  | 0, _, _, _ => .exhausted
  | fuel + 1, outer, candidates, window =>
    attemptEach
      (fun q => handle ⟨fuel, outer, ⟨q.2, window⟩, candidates⟩
        (windowVia handle fuel (outer ++ [⟨q.2, window⟩])))
      (window.select r.patterns)

/-- A whole resolution: the window of all patterns or, if these give nothing, the fallback. -/
def searchVia (handle : Handler V) (fuel : Nat) (candidates : List Ty) :
    Search (Event V) ResolutionError V :=
  let whole := Window.whole r.patterns.length
  (r.windowVia handle fuel [] candidates whole).orElse fun _ =>
    match r.fallback with
    | none => .done
    | some _ =>
      let place : Place := ⟨r.patterns.length, whole⟩
      handle ⟨fuel, [], place, []⟩ (r.windowVia handle fuel [place])

/-- The resolution makes attempts in `A` only: what would come of any other attempt has no say in
it. -/
def AttemptsOnly (A : Attempt → Prop) (fuel : Nat) (candidates : List Ty) : Prop :=
  ∀ handle : Handler V, (∀ a nested, A a → handle a nested = r.tryAt a nested) →
    r.searchVia handle fuel candidates = r.search fuel candidates

/-- A resolution that stays inside of a set stays inside of a larger one. -/
theorem AttemptsOnly.mono {r : Resolver V} {A B : Attempt → Prop} {fuel : Nat}
    {candidates : List Ty} (h : r.AttemptsOnly A fuel candidates) (hAB : ∀ a, A a → B a) :
    r.AttemptsOnly B fuel candidates :=
  fun handle hhandle => h handle fun a nested ha => hhandle a nested (hAB a ha)

/-! ## What an attempt resolves again

Two kinds of nested resolutions are put side by side. The functions of a call are gone through in
the order in which a pattern uses them, and each is the same for both kinds if these agree about
what the directives in question build. -/

section Congruence

variable {r} {fuel : Nat} {nested nested' : Nested V} {place : Place} {b : Bindings}

variable (r fuel nested nested' place b) in
/-- The nested resolutions agree about what some directives ask for. -/
def NestedAgree (ds : List Directive) : Prop :=
  ∀ d ∈ ds, ∀ ts, Constraint.requireTypes r.catalog fuel b d.types = some (.ok ts) →
    nested ts (place.window.directed place.index d) =
      nested' ts (place.window.directed place.index d)

/-- Parameters are filled alike. A sequence is put in without resolving anything. -/
theorem argLists_congr_nested {params : List Parameter}
    (h : r.NestedAgree fuel nested nested' place b (params.filterMap Parameter.directive?)) :
    r.argLists fuel nested place b params = r.argLists fuel nested' place b params := by
  induction params with
  | nil => rfl
  | cons param params ih =>
    cases param with
    | required => rfl
    | optional => rw [argLists, argLists, ih h]
    | specialize d hasDefault =>
      obtain ⟨hd, hrest⟩ := List.forall_mem_cons.mp h
      rw [argLists, argLists, ih hrest]
      cases hts : Constraint.requireTypes r.catalog fuel b d.types with
      | none => rfl
      | some result =>
        cases result with
        | error e => rfl
        | ok ts =>
          dsimp only
          rw [fillings, fillings, hd ts hts]

/-- A call is the same if its sequences resolve alike, since nothing else is resolved during it. -/
theorem call_congr_nested {args : List (Filled V)}
    (h : ∀ ts w, .sequence ts w ∈ args → nested ts w = nested' ts w) (t : Ty)
    (producer : Producer V × Nat) :
    r.call nested place t producer args = r.call nested' place t producer args := by
  have hdrive : driveArg nested args = driveArg nested' args := by
    funext position stop
    rw [driveArg, driveArg]
    rcases harg : args[position]? with _ | v | _ | ⟨ts, w⟩
    · rfl
    · rfl
    · rfl
    · dsimp only
      rw [h ts w (List.mem_of_getElem? harg)]
  rw [call, call, hdrive]

/-- Producers are called alike: their parameters are filled alike, and a sequence among the
arguments is one that a directive builds, for the window that it derives. -/
theorem callAll_congr_nested {t : Ty} {producers : List (Producer V × Nat)}
    (h : ∀ q ∈ producers, r.NestedAgree fuel nested nested' place b
      (q.1.params.filterMap Parameter.directive?)) :
    r.callAll fuel nested place b t producers = r.callAll fuel nested' place b t producers := by
  induction producers with
  | nil => rfl
  | cons q rest ih =>
    obtain ⟨hq, hrest⟩ := List.forall_mem_cons.mp h
    have hcalls : (r.argLists fuel nested' place b q.1.params).bind (r.call nested place t q) =
        (r.argLists fuel nested' place b q.1.params).bind (r.call nested' place t q) := by
      refine Search.bind_congr_items fun args hargs => call_congr_nested ?_ t q
      rw [listing_argLists r fuel fun _ _ => rfl] at hargs
      intro ts w hmem
      obtain ⟨d, hd, hts, rfl⟩ := sequence_of_mem_argumentLists hargs hmem
      exact hq d hd ts hts
    rw [callAll, callAll, argLists_congr_nested hq, hcalls, ih hrest]

/-- The producers of a pattern are called alike if the nested resolutions agree about all of its
directives. -/
theorem callProducers_congr_nested {p : Pattern V}
    (h : r.NestedAgree fuel nested nested' place b p.directives) (t : Ty) :
    r.callProducers fuel nested place p b t = r.callProducers fuel nested' place p b t :=
  callAll_congr_nested fun _ hq d hd =>
    h d (Pattern.mem_directives (Pattern.mem_producers_of_mem_callOrder hq) hd)

end Congruence

/-- What an attempt may resolve again, and in which windows: for each directive of the pattern, what
it builds under bindings that the slots accept, in the window that it derives. -/
inductive Asks (a : Attempt) : List Ty → Window → Prop where
  /-- one of the pattern's directives -/
  | directive {p : Pattern V} {d : DefIndex} {start b : Bindings} {directive : Directive}
      {ts : List Ty} (hp : r.triedAt? a.place.index = some p)
      (hopen : r.openTemplate p.template = .ok (d, start))
      (hb : b ∈ (slotSolutions r.catalog a.fuel p.slots a.candidates start).items)
      (hd : directive ∈ p.directives)
      (hts : Constraint.requireTypes r.catalog a.fuel b directive.types = some (.ok ts)) :
      Asks a ts (a.place.window.directed a.place.index directive)

variable {r}

/-- **An attempt resolves nothing but what it asks for**: it is the same for nested resolutions that
agree there. -/
theorem tryAt_congr {a : Attempt} {nested nested' : Nested V}
    (h : ∀ ts w, r.Asks a ts w → nested ts w = nested' ts w) :
    r.tryAt a nested = r.tryAt a nested' := by
  rw [tryAt, tryAt]
  cases hp : r.triedAt? a.place.index with
  | none => rfl
  | some p =>
    dsimp only
    rw [tryPattern, tryPattern]
    cases hopen : r.openTemplate p.template with
    | error e => rfl
    | ok start =>
      obtain ⟨d, start⟩ := start
      refine Search.bind_congr_items fun b hb => ?_
      rw [listing_slotBindings] at hb
      rw [valuesOf, valuesOf]
      rcases r.closedUnder a.fuel d b with _ | _ | t
      · rfl
      · rfl
      · exact callProducers_congr_nested
          (fun directive hd ts hts => h ts _ (.directive hp hopen hb hd hts)) t

/-! ## Sets of attempts that are not left -/

variable (r) in
/-- The set has the first attempts of a resolution in it and, with an attempt, all that it asks
for. -/
structure Invariant (candidates : List Ty) (A : Attempt → Prop) : Prop where
  /-- the patterns of the list are tried, for the candidates -/
  start : ∀ fuel index, r.Tries (.whole r.patterns.length) index →
    A ⟨fuel, [], ⟨index, .whole r.patterns.length⟩, candidates⟩
  /-- the fallback is tried, for no candidates -/
  fallback : r.fallback.isSome = true → ∀ fuel,
    A ⟨fuel, [], ⟨r.patterns.length, .whole r.patterns.length⟩, []⟩
  /-- what an attempt asks for is resolved inside of it -/
  nested : ∀ a, A a → ∀ ts w, r.Asks a ts w → ∀ fuel index, r.Tries w index →
    A ⟨fuel, a.outer ++ [a.place], ⟨index, w⟩, ts⟩

/-- Only what comes of the patterns at hand matters. -/
theorem attemptEach_congr {attempt attempt' : Pattern V × Nat → Search (Event V) ResolutionError V}
    {patterns : List (Pattern V × Nat)} (h : ∀ q ∈ patterns, attempt q = attempt' q) :
    attemptEach attempt patterns = attemptEach attempt' patterns := by
  induction patterns with
  | nil => rfl
  | cons q rest ih =>
    obtain ⟨hq, hrest⟩ := List.forall_mem_cons.mp h
    rw [attemptEach, attemptEach, hq, ih hrest]

/-- What attempts give one after another, as a list. -/
theorem listing_attemptEach (attempt : Pattern V × Nat → Search (Event V) ResolutionError V)
    (patterns : List (Pattern V × Nat)) :
    (attemptEach attempt patterns).listing =
      .concat (patterns.map fun q => (q.1.definitive, (attempt q).listing)) := by
  induction patterns with
  | nil => rfl
  | cons q rest ih =>
    rw [attemptEach, Search.listing_andThen, ih, List.map_cons, Listing.concat_cons]

/-- Trying patterns is attempting each of them in the resolver's own way. -/
theorem tryPatterns_eq_attemptEach (fuel : Nat) (nested : Nested V) (window : Window)
    (candidates : List Ty) (patterns : List (Pattern V × Nat)) :
    r.tryPatterns fuel nested window candidates patterns =
      attemptEach (fun q => r.tryPattern fuel nested ⟨q.2, window⟩ candidates q.1) patterns := by
  induction patterns with
  | nil => rfl
  | cons q rest ih => rw [tryPatterns, attemptEach, ih]

/-- A pattern that a window selects is tried with its slots: the fallback, which stands behind the
last position, is selected by no window. -/
theorem triedAt?_of_mem_select {w : Window} {p : Pattern V} {index : Nat}
    (h : (p, index) ∈ w.select r.patterns) : r.triedAt? index = some p := by
  obtain ⟨hp, -⟩ := Window.mem_select_iff.mp h
  rw [triedAt?, if_neg (Nat.ne_of_lt (List.getElem?_eq_some_iff.mp hp).1), hp]

/-- Behind the patterns the fallback is tried, without its slots. -/
theorem exists_fallback_of_triedAt? {p : Pattern V} (h : r.triedAt? r.patterns.length = some p) :
    ∃ q, r.fallback = some q ∧ { q with slots := [] } = p := by
  rw [triedAt?, if_pos rfl] at h
  exact Option.map_eq_some_iff.mp h

/-- The fallback is tried at its place behind all patterns. -/
theorem searchFallback_eq_tryAt (h : r.fallback.isSome = true) (fuel : Nat) :
    r.searchFallback fuel =
      r.tryAt ⟨fuel, [], ⟨r.patterns.length, .whole r.patterns.length⟩, []⟩
        (r.searchWindow fuel) := by
  obtain ⟨p, hp⟩ := Option.isSome_iff_exists.mp h
  rw [searchFallback, tryAt, triedAt?, if_pos rfl, hp]
  dsimp only [Option.map_some]
  rw [tryPattern]
  rcases r.openTemplate p.template with e | ⟨d, start⟩
  · rfl
  · dsimp only
    rw [slotBindings, Search.single_bind]
    rfl

namespace Invariant

variable {candidates : List Ty} {A : Attempt → Prop} {handle : Handler V}

/-- Inside of an invariant set, a window is resolved as by the resolver. The induction is on the
depth of nesting: what an attempt of the window asks for is resolved alike by induction, and the
attempt depends on nothing else. -/
theorem windowVia_eq (h : r.Invariant candidates A)
    (hhandle : ∀ a nested, A a → handle a nested = r.tryAt a nested) (fuel : Nat)
    {outer : List Place} {ts : List Ty} {w : Window}
    (hw : ∀ fuel index, r.Tries w index → A ⟨fuel, outer, ⟨index, w⟩, ts⟩) :
    r.windowVia handle fuel outer ts w = r.searchWindow fuel ts w := by
  induction fuel generalizing outer ts w with
  | zero => rfl
  | succ fuel ih =>
    rw [windowVia, searchWindow, tryPatterns_eq_attemptEach]
    refine attemptEach_congr fun q hq => ?_
    obtain ⟨p, index⟩ := q
    have ha : A ⟨fuel, outer, ⟨index, w⟩, ts⟩ := hw fuel index ⟨p, hq⟩
    -- the handler does what the resolver does, and so do, by induction, the windows it asks for
    calc handle ⟨fuel, outer, ⟨index, w⟩, ts⟩ (r.windowVia handle fuel (outer ++ [⟨index, w⟩]))
        = r.tryAt ⟨fuel, outer, ⟨index, w⟩, ts⟩
            (r.windowVia handle fuel (outer ++ [⟨index, w⟩])) := hhandle _ _ ha
      _ = r.tryAt ⟨fuel, outer, ⟨index, w⟩, ts⟩ (r.searchWindow fuel) :=
        tryAt_congr fun ts' w' hasks => ih (h.nested _ ha ts' w' hasks)
      _ = r.tryPattern fuel (r.searchWindow fuel) ⟨index, w⟩ ts p := by
        rw [tryAt, triedAt?_of_mem_select hq]

/-- **A resolution does not leave an invariant set**, under any fuel. -/
theorem attemptsOnly (h : r.Invariant candidates A) (fuel : Nat) :
    r.AttemptsOnly A fuel candidates := by
  intro handle hhandle
  rw [searchVia, search]
  dsimp only
  rw [h.windowVia_eq hhandle fuel fun fuel index => h.start fuel index]
  congr 1
  funext _
  cases hfallback : r.fallback with
  | none => rw [searchFallback, hfallback]
  | some p =>
    have hsome : r.fallback.isSome = true := by rw [hfallback]; rfl
    have ha := h.fallback hsome fuel
    dsimp only
    rw [hhandle _ _ ha, searchFallback_eq_tryAt hsome]
    exact tryAt_congr fun ts w hasks => h.windowVia_eq hhandle fuel (h.nested _ ha ts w hasks)

end Invariant

/-! ## Requests -/

end Resolver

/-- The producers of a pattern are asked for a closed type. -/
structure Request where
  /-- the fuel for what is nested in the attempt -/
  fuel : Nat
  /-- the places of the attempts that it is nested in -/
  outer : List Place
  /-- the place of the attempt -/
  place : Place
  /-- the bindings under which the slots accept the candidates -/
  bindings : Bindings
  /-- the type that they close the template to -/
  ty : Ty

/-- What comes of requests, for given nested resolutions. -/
abbrev Supply (V : Type) := Request → Nested V → Search (Event V) ResolutionError V

namespace Resolver

variable {V : Type} (r : Resolver V)

/-- What the resolver itself does: it calls the producers of the pattern. -/
def supplyAt : Supply V := fun q nested =>
  match r.patternAt? q.place.index with
  | none => .done
  | some p => r.callProducers q.fuel nested q.place p q.bindings q.ty

/-- An attempt matches the slots and closes the template. For every type that it comes to like this
it makes a request. -/
def attemptVia (supply : Supply V) : Handler V := fun a nested =>
  match r.triedAt? a.place.index with
  | none => .done
  | some p =>
    match r.openTemplate p.template with
    | .error e => .failed e
    | .ok (d, start) =>
      (slotBindings r.catalog a.fuel p.slots a.candidates start).bind fun b =>
        match r.closedUnder a.fuel d b with
        | none => .exhausted
        | some none => .done
        | some (some t) => supply ⟨a.fuel, a.outer, a.place, b, t⟩ nested

/-- The resolution makes requests in `A` only: what would come of any other request has no say in
it. -/
def RequestsOnly (A : Request → Prop) (fuel : Nat) (candidates : List Ty) : Prop :=
  ∀ supply : Supply V, (∀ q nested, A q → supply q nested = r.supplyAt q nested) →
    r.searchVia (r.attemptVia supply) fuel candidates = r.search fuel candidates

/-- The requests that an attempt makes. -/
inductive Makes (a : Attempt) : Request → Prop where
  /-- under bindings that the slots accept -/
  | request {p : Pattern V} {d : DefIndex} {start b : Bindings} {t : Ty}
      (hp : r.triedAt? a.place.index = some p)
      (hopen : r.openTemplate p.template = .ok (d, start))
      (hb : b ∈ (slotSolutions r.catalog a.fuel p.slots a.candidates start).items)
      (hclosed : r.closedUnder a.fuel d b = some (some t)) :
      Makes a ⟨a.fuel, a.outer, a.place, b, t⟩

variable {r}

/-- The pattern that is tried at a position is the one that stands there, but for the slots. -/
theorem exists_patternAt?_of_triedAt? {index : Nat} {p : Pattern V}
    (h : r.triedAt? index = some p) :
    ∃ q, r.patternAt? index = some q ∧ q.template = p.template ∧ q.producers = p.producers := by
  rw [triedAt?] at h
  rw [patternAt?]
  split at h
  · next hindex =>
    obtain ⟨q, hq, rfl⟩ := Option.map_eq_some_iff.mp h
    rw [if_pos hindex]
    exact ⟨q, hq, rfl, rfl⟩
  · next hindex =>
    rw [if_neg hindex]
    exact ⟨p, h, rfl, rfl⟩

/-- An attempt is made up of its requests. -/
theorem attemptVia_eq_tryAt {a : Attempt} {nested : Nested V} {supply : Supply V}
    (h : ∀ q, r.Makes a q → supply q nested = r.supplyAt q nested) :
    r.attemptVia supply a nested = r.tryAt a nested := by
  rw [attemptVia, tryAt]
  cases hp : r.triedAt? a.place.index with
  | none => rfl
  | some p =>
    dsimp only
    rw [tryPattern]
    cases hopen : r.openTemplate p.template with
    | error e => rfl
    | ok start =>
      obtain ⟨d, start⟩ := start
      refine Search.bind_congr_items fun b hb => ?_
      rw [listing_slotBindings] at hb
      rw [valuesOf]
      cases hclosed : r.closedUnder a.fuel d b with
      | none => rfl
      | some closed =>
        cases closed with
        | none => rfl
        | some t =>
          obtain ⟨q, hq, -, hproducers⟩ := exists_patternAt?_of_triedAt? hp
          dsimp only
          rw [h _ (.request hp hopen hb hclosed), supplyAt, hq]
          dsimp only
          rw [callProducers, callProducers, Pattern.callOrder, Pattern.callOrder, hproducers]

/-- The requests of a resolution are made by its attempts. -/
theorem AttemptsOnly.requestsOnly {A : Attempt → Prop} {B : Request → Prop} {fuel : Nat}
    {candidates : List Ty} (h : r.AttemptsOnly A fuel candidates)
    (hB : ∀ a, A a → ∀ q, r.Makes a q → B q) : r.RequestsOnly B fuel candidates :=
  fun _ hsupply => h _ fun a nested ha =>
    attemptVia_eq_tryAt fun q hq => hsupply q nested (hB a ha q hq)

end Resolver

end TypeResolution

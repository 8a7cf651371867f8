import TypeResolution.Proofs.Resolver.Confinement
import TypeResolution.Proofs.Resolver.Contribution
import TypeResolution.Proofs.Resolver.Outcomes
import TypeResolution.Proofs.Search.Trace

/-!
# The fallback is conservative

A resolver that falls back on a pattern does whatever it does without, as long as the patterns find
something or fail. If they find nothing it goes on, from where they ended, with the instances of the
fallback (`ownInstances`): no candidate has a say in these, nor have the slots of the fallback.

The fallback stands behind all patterns and resolves again like any of them. But its position is in
no window, so nested resolutions know nothing of it: they are those of the resolver without it
(`searchWindow_withFallback`), and what they call are patterns of the list
(`within_searchWindow_patterns`). `registerFallback_conservative` puts this together.

What makes the theorem more than a reading of `search` are the two last points. A nested resolution
could find the fallback if it were in reach, so it is said of the whole run that it is not: every
attempt at the fallback is an attempt of the outermost resolution
(`attemptsOnly_fallback_outermost`).
-/

namespace TypeResolution

/-! ## Going on behind a search that finds nothing

Only searches that find nothing and do not fail have anything behind them, and such a search
consists of its events. So falling back on another one is reporting these events first, and any
consumer is handed what the second search finds. -/

namespace Search

variable {ν ε α : Type}

/-- A search with an item or without an end has no use for another one. -/
theorem orElse_eq_left {s : Search ν ε α} (h : s.listing ≠ .nothing) (t : Unit → Search ν ε α) :
    s.orElse t = s := by
  induction s with
  | done => exact absurd rfl h
  | failed e => rfl
  | exhausted => rfl
  | event e rest ih => exact congrArg (Search.event e) (funext fun _ => ih () h)
  | found a rest ih => rfl

/-- To fall back on nothing is to leave the search as it is. -/
theorem orElse_done (s : Search ν ε α) : (s.orElse fun _ => .done) = s := by
  induction s with
  | done => rfl
  | failed e => rfl
  | exhausted => rfl
  | event e rest ih => exact congrArg (Search.event e) (funext fun _ => ih ())
  | found a rest ih => rfl

/-- A search that finds nothing and comes to its end is a list of events. -/
theorem eq_reporting_of_listing {s : Search ν ε α} (h : s.listing = .nothing) :
    ∃ es, s = reporting es .done := by
  induction s with
  | done => exact ⟨[], rfl⟩
  | failed e => cases h
  | exhausted => cases h
  | event e rest ih =>
    obtain ⟨es, hes⟩ := ih () h
    exact ⟨e :: es, congrArg (Search.event e) (funext fun _ => hes)⟩
  | found a rest ih => cases congrArg Listing.items h

/-- The record of the second search comes behind that of the first. -/
theorem run_orElse_of_listing {s : Search ν ε α} (h : s.listing = .nothing)
    (t : Unit → Search ν ε α) (stop : List α → Bool) :
    (s.orElse t).run stop =
      { (t ()).run stop with events := (s.run stop).events ++ ((t ()).run stop).events } := by
  obtain ⟨es, rfl⟩ := eq_reporting_of_listing h
  rw [run, run, run, (passesThrough_orElse t).reporting, runFrom_reporting, runFrom_reporting]
  exact congrArg (fun events => Transcript.mk events _ _)
    (congrArg (· ++ _) (List.append_nil es).symm)

end Search

namespace Resolver

variable {V : Type} (r : Resolver V) (fuel : Nat)

/-! ## Nested resolutions

Nested resolutions go through windows. A window is a range of the list, so it holds positions below
the length of the list; the fallback counts as standing at that length. -/

/-- The event is no call, or a call of a pattern of the list. -/
def CalledInList (e : Event V) : Prop :=
  ∀ call, e = .invoked call → call.pattern < r.patterns.length

/-- Resolving in a window never calls the fallback, at any depth. -/
theorem within_searchWindow_patterns (candidates : List Ty) (window : Window) :
    (r.searchWindow fuel candidates window).Within r.CalledInList fun _ => True := by
  -- The induction is on the depth of nesting, for all windows at once: what a pattern tries
  -- resolves again in another window.
  induction fuel generalizing candidates window with
  | zero => trivial
  | succ fuel ih =>
    rw [searchWindow]
    refine within_tryPatterns fuel ?_
    rintro ⟨p, index⟩ hq
    have hlt : index < r.patterns.length := (Tries.bounds ⟨p, hq⟩).1
    apply within_tryPattern
    · intro call hcall _ heq
      obtain rfl := Event.invoked.inj heq
      rwa [hcall]
    · intro outcome call heq
      cases heq
    · intro d _ candidates
      exact ih candidates _

/-- A resolution attempts the fallback outermost only. At the end of a chain, the position behind
the last pattern is that of the first attempt. -/
theorem attemptsOnly_fallback_outermost (candidates : List Ty) :
    r.AttemptsOnly (fun a => a.place.index = r.patterns.length → a.outer = []) fuel candidates := by
  refine (r.attemptsOnly_onChain fuel candidates).mono ?_
  rintro a ⟨k, place, directive, hchain, houter, hplace⟩ hindex
  rw [hplace] at hindex
  rcases hchain.confined.index_lt k (Nat.le_refl k) with hlt | ⟨rfl, -⟩
  · exact absurd hindex (Nat.ne_of_lt hlt)
  · exact houter

/-! ## The fallback's own instances

The slots of the fallback are not matched with anything, so it has no candidates. Its producers are
called once, over what its template binds, and their parameters are filled by nested resolutions
that take place in the list of patterns. -/

/-- The values that a template and producers give behind all patterns. No candidate is looked at,
and nested resolutions are those of the patterns. -/
def ownInstances (template : Template) (producers : List (Producer V)) :
    Search (Event V) ResolutionError V :=
  let length := r.patterns.length
  match r.openTemplate template with
  | .error e => .failed e
  | .ok (d, b) =>
    r.valuesOf fuel (r.searchWindow fuel) ⟨length, .whole length⟩ { template, producers } d b

/-- They do not depend on the fallback that is set, since nested resolutions do not. -/
theorem ownInstances_withFallback (fallback : Option (Pattern V)) (template : Template)
    (producers : List (Producer V)) :
    ({ r with fallback } : Resolver V).ownInstances fuel template producers =
      r.ownInstances fuel template producers := by
  have hopen : ({ r with fallback } : Resolver V).openTemplate template =
      r.openTemplate template := rfl
  rw [ownInstances, ownInstances]
  dsimp only
  rw [hopen]
  cases r.openTemplate template with
  | error e => rfl
  | ok start =>
    dsimp only
    rw [valuesOf_withFallback]

/-- Of a fallback only the template and the producers matter. -/
theorem searchFallback_of_fallback {p : Pattern V} (h : r.fallback = some p) :
    r.searchFallback fuel = r.ownInstances fuel p.template p.producers := by
  rw [searchFallback, h]
  rfl

variable {r} {bare r' : Resolver V}

/-- Registering a fallback sets it, and leaves everything else. -/
theorem eq_of_registerFallback {fallback : Option (Pattern V)}
    (h : r.registerFallback fallback = .ok r') : r' = { r with fallback } := by
  cases fallback with
  | none => exact (Except.ok.inj h).symm
  | some p =>
    rw [registerFallback] at h
    split at h
    · cases h
    · exact (Except.ok.inj h).symm

/-- With the fallback, its own instances stand behind the patterns. -/
theorem search_withFallback (p : Pattern V) (candidates : List Ty) :
    ({ r with fallback := some p } : Resolver V).search fuel candidates =
      (r.searchWindow fuel candidates (.whole r.patterns.length)).orElse fun _ =>
        r.ownInstances fuel p.template p.producers := by
  rw [search, searchWindow_withFallback, searchFallback_of_fallback _ fuel rfl,
    ownInstances_withFallback]

/-- Without a fallback there is nothing behind the patterns. -/
theorem search_withoutFallback (candidates : List Ty) :
    ({ r with fallback := none } : Resolver V).search fuel candidates =
      r.searchWindow fuel candidates (.whole r.patterns.length) := by
  rw [search, searchWindow_withFallback]
  exact Search.orElse_done _

/-- All values of a resolution are those its search lists, if it comes to an end. -/
theorem allValues_eq_outcome (candidates : List Ty) :
    r.allValues fuel candidates = (r.search fuel candidates).listing.outcome := by
  obtain ⟨hitems, hending⟩ := Search.run_takeAll (r.search fuel candidates)
  rw [allValues, resolve, hitems, hending, Listing.ending_map_eq_outcome]

/-! ## Conservativity -/

/-- **The fallback is conservative.** Let `bare` be a resolver without its fallback, and `r'` the
same resolver with some valid one.

* Where `bare` finds a value or fails, `r'` does the same: every consumer gets the same values, the
  same end and the same record of calls.
* Where `bare` finds nothing, the fallback's own instances come behind its record.
* So `r'` comes to the same values for all such candidates,
* and to the same with any other fallback of the same template and producers.
* Nested resolutions are those of `bare`, and call patterns of the list only.
* The fallback is attempted by the whole resolution and inside of no other attempt: what would come
  of it there has no say in the run of `r'`. -/
theorem registerFallback_conservative {p : Pattern V} (hremove : r.registerFallback none = .ok bare)
    (hset : r.registerFallback (some p) = .ok r') :
    (∀ candidates, bare.allValues fuel candidates ≠ some (.ok []) → ∀ stop,
        r'.resolve fuel stop candidates = bare.resolve fuel stop candidates) ∧
      (∀ candidates, bare.allValues fuel candidates = some (.ok []) → ∀ stop,
        let own := (bare.ownInstances fuel p.template p.producers).run stop
        r'.resolve fuel stop candidates =
          { own with events := (bare.resolve fuel stop candidates).events ++ own.events }) ∧
      (∀ candidates candidates', bare.allValues fuel candidates = some (.ok []) →
        bare.allValues fuel candidates' = some (.ok []) →
          r'.allValues fuel candidates = r'.allValues fuel candidates') ∧
      (∀ q r'', q.template = p.template → q.producers = p.producers →
        r.registerFallback (some q) = .ok r'' → ∀ stop candidates,
          r''.resolve fuel stop candidates = r'.resolve fuel stop candidates) ∧
      (∀ candidates window,
        r'.searchWindow fuel candidates window = bare.searchWindow fuel candidates window ∧
          ∀ stop, ∀ call : Call V,
            .invoked call ∈ ((r'.searchWindow fuel candidates window).run stop).events →
              call.pattern < r'.patterns.length) ∧
      ∀ candidates, r'.AttemptsOnly (fun a => a.place.index = r'.patterns.length → a.outer = [])
        fuel candidates := by
  obtain rfl := eq_of_registerFallback hremove
  obtain rfl := eq_of_registerFallback hset
  have hempty : ∀ candidates,
      ({ r with fallback := none } : Resolver V).allValues fuel candidates = some (.ok []) ↔
        (r.searchWindow fuel candidates (.whole r.patterns.length)).listing = .nothing := by
    intro candidates
    rw [allValues_eq_outcome, search_withoutFallback, Listing.outcome_eq_nil_iff]
  refine ⟨?_, ?_, ?_, ?_, ?_, ?_⟩
  · intro candidates hfound stop
    rw [resolve, resolve, search_withFallback, search_withoutFallback,
      Search.orElse_eq_left (fun h => hfound ((hempty candidates).mpr h))]
  · intro candidates hnothing stop own
    rw [resolve, resolve, search_withFallback, search_withoutFallback,
      Search.run_orElse_of_listing ((hempty candidates).mp hnothing),
      ← r.ownInstances_withFallback fuel none]
  · intro candidates candidates' h h'
    rw [allValues_eq_outcome, allValues_eq_outcome, search_withFallback, search_withFallback,
      Search.listing_orElse, Search.listing_orElse, (hempty candidates).mp h,
      (hempty candidates').mp h']
  · intro q r'' htemplate hproducers hq stop candidates
    obtain rfl := eq_of_registerFallback hq
    rw [resolve, resolve, search_withFallback, search_withFallback, htemplate, hproducers]
  · intro candidates window
    refine ⟨?_, fun stop call hcall => ?_⟩
    · exact (r.searchWindow_withFallback fuel _ candidates window).trans
        (r.searchWindow_withFallback fuel _ candidates window).symm
    · exact (within_searchWindow_patterns _ fuel candidates window).forall_events stop [] _ hcall
        call rfl
  · intro candidates
    exact attemptsOnly_fallback_outermost _ fuel candidates

end Resolver

/-- Counts a hundred more than what `RankZero` resolves to. Its slot is never looked at. -/
def rankGuess : Pattern Nat where
  template := .definition rankZero
  slots := [⟨[.negation [.wildcard]], true⟩]
  producers := [.ofConstructor [.specialize { types := [.definition rankZero []] } false] false
    fun _ args => .answer <| match args with
      | [.value n] => .ok (n + 100)
      | _ => .error ⟨.system, "nothing to count from"⟩]
  definitive := true

/-- Guesses where nothing can be counted. -/
def rankGuesser : Resolver Nat := { rankCounter with fallback := some rankGuess }

/-- Two dimensions are counted as before. Without candidates there is nothing to count, so the count
is guessed, from the two counts of `RankZero`. -/
theorem rankGuess_conservative :
    rankCounter.registerFallback (some rankGuess) = .ok rankGuesser ∧
      (rankCounter.allValues 6 [rankEncoding 2] = some (.ok [2, 12]) ∧
        rankGuesser.resolve 6 Search.takeAll [rankEncoding 2] =
          rankCounter.resolve 6 Search.takeAll [rankEncoding 2]) ∧
      (rankCounter.allValues 6 [] = some (.ok []) ∧
        rankGuesser.allValues 6 [] = some (.ok [100, 110]) ∧
        rankGuesser.allValues 6 [.pointer (rankEncoding 2)] = rankGuesser.allValues 6 []) := by
  have hremove : rankCounter.registerFallback none = .ok rankCounter := rfl
  have hset : rankCounter.registerFallback (some rankGuess) = .ok rankGuesser := rfl
  obtain ⟨hfound, -, hsame, -⟩ := Resolver.registerFallback_conservative 6 hremove hset
  have hcount : rankCounter.allValues 6 [rankEncoding 2] = some (.ok [2, 12]) := rfl
  have hnothing : rankCounter.allValues 6 [] = some (.ok []) := rfl
  have hpointer : rankCounter.allValues 6 [.pointer (rankEncoding 2)] = some (.ok []) := rfl
  have hguess : rankGuesser.allValues 6 [] = some (.ok [100, 110]) := rfl
  have hcounts : rankCounter.allValues 6 [rankEncoding 2] ≠ some (.ok []) := by
    rw [hcount]
    exact nofun
  exact ⟨hset, ⟨hcount, hfound _ hcounts Search.takeAll⟩, hnothing, hguess,
    hsame _ _ hpointer hnothing⟩

end TypeResolution

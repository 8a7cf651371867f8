import TypeResolution.Proofs.Resolver.Calls
import TypeResolution.Proofs.Resolver.Contribution

/-!
# Values are streamed

A consumer that stops a resolution cuts it off and changes nothing else: it has been handed the
first values of the whole resolution, and the calls made so far, nested ones included, are the first
calls of the whole resolution, up to the return of the call that made the last value.

Two ways of stopping live inside a resolution besides that of the consumer: definitive choices leave
alternatives out, and producers stop the sequences that they drive. Neither is taken for the
consumer's (`streaming_prefix`, third part).

The law rests on two invariants from `TypeResolution.Proofs.Resolver.Calls`, which are carried
through the functions of a resolution together (`Search.Orderly`). One says that no call is open
where a value is found, so stopping there cuts no call in two; the other says who made the value, so
it is known which return comes last. That the consumer gets a prefix needs neither, it holds of
every search.
-/

namespace TypeResolution

variable {V α : Type}

open Search

/-! ## What a producer sees of a sequence

A producer drives a sequence with a consumer of its own, and is told the values and how the drive
ended. Two ways to use that answer are common: to take the whole sequence, where an error is passed
on as a failure, and to take its first value. -/

/-- All values of a sequence, or the error that the drive met. -/
def Driven.collected (d : Driven V) : Except ResolutionError (List V) :=
  d.ending.map fun _ => d.values

/-- The first value of a sequence, if there is one, or the error that the drive met. -/
def Driven.first (d : Driven V) : Except ResolutionError (Option V) :=
  d.ending.map fun _ => d.values.head?

/-! ## Orderly searches

Orderliness is asked of searches for values only. For the ways of filling parameters there is
nothing to attribute, and being bracketed is enough. -/

/-- A search for values whose calls come back before a value is found, and whose values are
attributed to calls. -/
structure Search.Orderly {ε : Type} (s : Search (Event V) ε V) : Prop where
  /-- calls come back before a value is found -/
  bracketed : Bracketed [] s
  /-- values are made by the latest call -/
  attributed : Attributed s.trace

namespace Search

variable {ε : Type}

/-- Finding nothing is orderly, -/
theorem orderly_done : Orderly (.done : Search (Event V) ε V) := ⟨.nil, attributed_nil⟩

/-- so is failing at once, -/
theorem orderly_failed (e : ε) : Orderly (.failed e : Search (Event V) ε V) :=
  ⟨.nil, attributed_nil⟩

/-- and so is a lack of fuel. -/
theorem orderly_exhausted : Orderly (.exhausted : Search (Event V) ε V) :=
  ⟨.nil, attributed_nil⟩

/-- Orderly searches in a row are orderly, with or without a cut between them. -/
theorem Orderly.andThen (definitive : Bool) {s : Search (Event V) ε V} (hs : Orderly s)
    {t : Unit → Search (Event V) ε V} (ht : Orderly (t ())) : Orderly (s.andThen definitive t) :=
  ⟨hs.bracketed.andThen definitive ht.bracketed, hs.attributed.andThen definitive ht.attributed⟩

/-- What comes before the calls only has to let them come back. -/
theorem orderly_bind {s : Search (Event V) ε α} (hs : Bracketed [] s)
    {f : α → Search (Event V) ε V} (hf : ∀ a, Orderly (f a)) : Orderly (s.bind f) :=
  ⟨hs.bind fun a => (hf a).bracketed, attributed_bind s fun a => (hf a).attributed⟩

end Search

namespace Resolver

variable (r : Resolver V) (fuel : Nat)

/-! ## Resolutions are orderly

From the parameters of a call to whole resolutions. Nested resolutions are assumed to be bracketed,
and the induction on the fuel takes that from the level below. -/

section

variable {nested : Nested V} (hn : ∀ candidates window, Bracketed [] (nested candidates window))

include hn

/-- A parameter is filled when the nested resolution has found a value, and then no call of it is
open. -/
theorem bracketed_fillings (candidates : List Ty) (window : Window) (hasDefault : Bool) :
    Bracketed [] (fillings nested candidates window hasDefault) := by
  have hvalues := (hn candidates window).map Filled.value
  rw [fillings]
  cases hasDefault with
  | false => exact hvalues
  | true => exact hvalues.orElse ⟨.nil, .nil⟩

/-- So no call is open when a list of arguments is complete. -/
theorem bracketed_argLists (place : Place) (b : Bindings) (params : List Parameter) :
    Bracketed [] (r.argLists fuel nested place b params) := by
  induction params with
  | nil => exact ⟨.nil, .nil⟩
  | cons param params ih =>
    cases param with
    | required => exact .nil
    | optional => exact ih.map _
    | specialize directive hasDefault =>
      rw [argLists]
      -- either there are no candidates to resolve, or they are resolved now or left to a drive
      rcases Constraint.requireTypes r.catalog fuel b directive.types with _ | e | candidates
      · exact .nil
      · exact .nil
      · dsimp only
        split
        · exact ih.map _
        · have hfillings := bracketed_fillings hn candidates
            (place.window.directed place.index directive) hasDefault
          exact hfillings.choose directive.definitive fun arg => ih.map _

/-- Producers are called one after another, each call orderly by itself. -/
theorem orderly_callAll (place : Place) (b : Bindings) (t : Ty)
    (producers : List (Producer V × Nat)) :
    Orderly (r.callAll fuel nested place b t producers) := by
  induction producers with
  | nil => exact orderly_done
  | cons producer rest ih =>
    have hcalls : ∀ args, Orderly (r.call nested place t producer args) := fun args =>
      ⟨r.bracketed_call hn place t producer args, r.attributed_call hn place t producer args⟩
    have hargs := r.bracketed_argLists fuel hn place b producer.1.params
    exact (orderly_bind hargs hcalls).andThen producer.1.definitive ih

/-- The values of a definition under some bindings come from calls, if it closes at all. -/
theorem orderly_valuesOf (place : Place) (p : Pattern V) (d : DefIndex) (b : Bindings) :
    Orderly (r.valuesOf fuel nested place p d b) := by
  rw [valuesOf]
  rcases r.closedUnder fuel d b with _ | _ | t
  · exact orderly_exhausted
  · exact orderly_done
  · exact r.orderly_callAll fuel hn place b t p.callOrder

/-- Matching reports nothing, so the record of an attempt is that of its calls. -/
theorem orderly_tryPattern (place : Place) (candidates : List Ty) (p : Pattern V) :
    Orderly (r.tryPattern fuel nested place candidates p) := by
  rw [tryPattern]
  rcases r.openTemplate p.template with e | ⟨d, b⟩
  · exact orderly_failed e
  · have hslots := silent_slotBindings (ν := Event V) r.catalog fuel p.slots candidates b
    exact orderly_bind hslots.bracketed fun b => r.orderly_valuesOf fuel hn place p d b

/-- Attempts one after another are orderly. -/
theorem orderly_tryPatterns (window : Window) (candidates : List Ty)
    (patterns : List (Pattern V × Nat)) :
    Orderly (r.tryPatterns fuel nested window candidates patterns) := by
  induction patterns with
  | nil => exact orderly_done
  | cons q rest ih =>
    obtain ⟨p, index⟩ := q
    have hp := r.orderly_tryPattern fuel hn ⟨index, window⟩ candidates p
    exact hp.andThen p.definitive ih

end

/-- Nested resolutions are orderly. The induction is on the depth of nesting; one level below, only
that calls come back is used, since the values found there are arguments. -/
theorem orderly_searchWindow (candidates : List Ty) (window : Window) :
    Orderly (r.searchWindow fuel candidates window) := by
  induction fuel generalizing candidates window with
  | zero => exact orderly_exhausted
  | succ fuel ih =>
    have hn := fun candidates window => (ih candidates window).bracketed
    exact r.orderly_tryPatterns fuel hn window candidates _

/-- The fallback is orderly, as its nested resolutions are. -/
theorem orderly_searchFallback : Orderly (r.searchFallback fuel) := by
  rw [searchFallback]
  rcases r.fallback with _ | p
  · exact orderly_done
  · dsimp only
    rcases r.openTemplate p.template with e | ⟨d, b⟩
    · exact orderly_failed e
    · have hn := fun candidates window => (r.orderly_searchWindow fuel candidates window).bracketed
      exact r.orderly_valuesOf fuel hn _ p d b

/-- **Resolutions are orderly.** -/
theorem orderly_search (candidates : List Ty) : Orderly (r.search fuel candidates) :=
  (r.orderly_searchWindow fuel candidates _).andThen true (r.orderly_searchFallback fuel)

/-! ## Driven sequences

What a producer is told of a sequence is what a consumer of the nested resolution would have been
told: the first values, with the calls up to them. -/

/-- Driving the sequence at a position runs one and the same search, whichever consumer drives
it. -/
theorem run_driveArg (nested : Nested V) (args : List (Filled V)) (position : Nat) :
    ∃ s : Search (Event V) ResolutionError V, ∀ stop,
      (driveArg nested args position stop).run takeAll =
        ⟨(s.run stop).events,
          (s.run stop).ending.toList.map fun ending => ⟨(s.run stop).items, ending⟩,
          (s.run stop).ending.map fun _ => .ok .finished⟩ := by
  have hnone : ∀ stop : List V → Bool,
      (single ⟨[], .ok .finished⟩ : Search (Event V) ResolutionError (Driven V)).run takeAll =
        ⟨((.done : Search (Event V) ResolutionError V).run stop).events,
          ((.done : Search (Event V) ResolutionError V).run stop).ending.toList.map
            fun ending => ⟨[], ending⟩,
          some (.ok .finished)⟩ := fun stop => rfl
  simp only [driveArg]
  -- only a sequence is resolved; everything else is an empty sequence
  rcases args[position]? with _ | v | _ | ⟨candidates, window⟩
  · exact ⟨.done, hnone⟩
  · exact ⟨.done, hnone⟩
  · exact ⟨.done, hnone⟩
  · refine ⟨nested candidates window, fun stop => ?_⟩
    have hgather : ((nested candidates window).gather stop [] :
        Search (Event V) ResolutionError _).run takeAll = _ :=
      run_gather stop [] (nested candidates window)
    rw [run] at hgather
    rw [run, runFrom_takeAll_map _ [], hgather]
    simp [run]

/-- A sequence that can be taken whole has the head of its values as the first value, and finding
that one calls no more than the first of the producers that are called for all values. -/
theorem driven_first (nested : Nested V) (args : List (Filled V)) (position : Nat) {d : Driven V}
    {vs : List V} (hd : ((driveArg nested args position takeAll).run takeAll).items = [d])
    (hvs : d.collected = .ok vs) :
    ∃ d', ((driveArg nested args position (takeAtMost 1)).run takeAll).items = [d'] ∧
      d'.first = .ok vs.head? ∧
      ((driveArg nested args position (takeAtMost 1)).run takeAll).events <+:
        ((driveArg nested args position takeAll).run takeAll).events := by
  obtain ⟨s, hs⟩ := run_driveArg nested args position
  rw [hs] at hd
  -- a drive that runs out of fuel hands nothing over, and one that fails cannot be taken whole
  rcases hending : (s.run takeAll).ending with _ | e | flow
  · simp [hending] at hd
  · simp only [hending, Option.toList_some, List.map_cons, List.map_nil, List.cons.injEq,
      and_true] at hd
    rw [← hd] at hvs
    exact absurd hvs nofun
  · simp only [hending, Option.toList_some, List.map_cons, List.map_nil, List.cons.injEq,
      and_true] at hd
    rw [← hd] at hvs
    obtain rfl : (s.run takeAll).items = vs := Except.ok.inj hvs
    obtain ⟨⟨flow', hflow'⟩, hitems, hevents⟩ := run_takeAtMost_one hending
    rw [hs, hs, hflow', hitems]
    refine ⟨_, rfl, ?_, hevents⟩
    rw [Driven.first, Except.map, List.head?_take, if_neg Nat.one_ne_zero]

/-! ## The streaming law

All of it is put together here. The law is about the consumer that stops at its `n`-th value, and it
distinguishes by whether there are that many. -/

/-- The record of a run ends with the call that made its last value: the two events of that call
enclose a balanced record, and since its return nothing happened but that values of its outcome were
handed out, of which there is at least one. -/
def EndsWithMaker (t : Transcript (Event V) ResolutionError V) : Prop :=
  ∃ (earlier inner : List (Event V)) (call : Call V) (values : List V) (k : Nat),
    t.events = earlier ++ .invoked call :: inner ++ [.returned (.ok values)] ∧
      Balanced inner ∧ k < values.length ∧ values.take (k + 1) <:+ t.items

/-- A record that stops at a value which the last call made ends with the return of that call. -/
theorem endsWithMaker_of_madeByLastCall {before : List (Event V ⊕ V)} {v : V}
    (h : MadeByLastCall before v) (ending : Fueled (Except ResolutionError Flow)) :
    EndsWithMaker ⟨eventsOf before, itemsOf before ++ [v], ending⟩ := by
  obtain ⟨earlier, call, inner, values, k, rfl, hinner, hv⟩ := h
  obtain ⟨hk, hget⟩ := List.getElem?_eq_some_iff.mp hv
  refine ⟨eventsOf earlier, inner, call, values, k, by simp [-List.map_take], hinner, hk,
    itemsOf earlier, ?_⟩
  rw [List.take_succ_eq_append_getElem hk, hget]
  simp [-List.map_take]

/-- If taking everything meets no error, then the first value is the head of all values. -/
theorem firstValue_of_allValues {candidates : List Ty} {vs : List V}
    (hall : r.allValues fuel candidates = some (.ok vs)) :
    r.firstValue fuel candidates = some (.ok vs.head?) := by
  rw [allValues] at hall
  rcases hending : (r.resolve fuel takeAll candidates).ending with _ | e | flow
  · simp [hending] at hall
  · simp [hending, Except.map] at hall
  · obtain ⟨⟨flow', hflow'⟩, hitems, -⟩ := run_takeAtMost_one hending
    obtain rfl : (r.resolve fuel takeAll candidates).items = vs := by
      simpa [hending, Except.map] using hall
    rw [firstValue, resolve, hflow', hitems, Option.map_some, Except.map, List.head?_take,
      if_neg Nat.one_ne_zero]
    rfl

/-- **The streaming law.** Compare a resolution whose consumer stops at the `n`-th value with the
one whose consumer takes everything, under the same fuel.

* If there are `n` values, then the first consumer is handed exactly the first `n`, the resolution
  says that it was stopped, whatever would have happened later, and its record is the beginning of
  the whole record that ends with the call that made the `n`-th value.
* If there are fewer, both resolutions are the same.
* Only a consumer that had seen enough makes a resolution say that it was stopped.
* If taking everything meets no error, then the first value is the head of all values; so it is for
  a sequence that a producer drives. -/
theorem streaming_prefix {n : Nat} (hn : 1 ≤ n) (candidates : List Ty) :
    (n ≤ (r.resolve fuel takeAll candidates).items.length →
        (r.resolve fuel (takeAtMost n) candidates).items =
            (r.resolve fuel takeAll candidates).items.take n ∧
          (r.resolve fuel (takeAtMost n) candidates).ending = some (.ok .stopped) ∧
          (r.resolve fuel (takeAtMost n) candidates).events <+:
            (r.resolve fuel takeAll candidates).events ∧
          EndsWithMaker (r.resolve fuel (takeAtMost n) candidates)) ∧
      ((r.resolve fuel takeAll candidates).items.length < n →
        r.resolve fuel (takeAtMost n) candidates = r.resolve fuel takeAll candidates) ∧
      (∀ stop, (r.resolve fuel stop candidates).ending = some (.ok .stopped) →
        (r.resolve fuel stop candidates).items ≠ [] ∧
          stop (r.resolve fuel stop candidates).items = true) ∧
      (∀ vs, r.allValues fuel candidates = some (.ok vs) →
        r.firstValue fuel candidates = some (.ok vs.head?)) ∧
      ∀ args position d vs,
        ((driveArg (r.searchWindow fuel) args position takeAll).run takeAll).items = [d] →
        d.collected = .ok vs →
        ∃ d', ((driveArg (r.searchWindow fuel) args position (takeAtMost 1)).run takeAll).items =
            [d'] ∧ d'.first = .ok vs.head? ∧
          ((driveArg (r.searchWindow fuel) args position (takeAtMost 1)).run takeAll).events <+:
            ((driveArg (r.searchWindow fuel) args position takeAll).run takeAll).events := by
  refine ⟨?_, ?_, ?_, ?_, ?_⟩
  -- there are enough values: the record is cut behind the maker of the last one
  · intro hle
    obtain ⟨before, v, hpre, hrun, hitems⟩ := run_takeAtMost_of_le hn (r.search fuel candidates) hle
    have hmaker := (r.orderly_search fuel candidates).attributed before v hpre
    refine ⟨hitems, ?_, ?_, ?_⟩
    · rw [resolve, hrun]
    · rw [resolve, hrun]
      exact eventsOf_prefix hpre
    · rw [resolve, hrun]
      exact endsWithMaker_of_madeByLastCall hmaker _
  · intro hlt
    exact run_takeAtMost_of_lt (r.search fuel candidates) hlt
  · intro stop hstopped
    exact stop_items_of_stopped hstopped
  · intro vs hall
    exact r.firstValue_of_allValues fuel hall
  · intro args position d vs hd hvs
    exact driven_first _ args position hd hvs

end Resolver

/-- Of the two counts of two dimensions, the consumer that stops at the first is handed 2. -/
theorem rankCounter_streams :
    1 ≤ (rankCounter.resolve 6 takeAll [rankEncoding 2]).items.length ∧
      (rankCounter.resolve 6 (takeAtMost 1) [rankEncoding 2]).items = [2] ∧
      rankCounter.firstValue 6 [rankEncoding 2] = some (.ok (some 2)) := by
  have hle : 1 ≤ (rankCounter.resolve 6 takeAll [rankEncoding 2]).items.length := by decide +kernel
  have hall : rankCounter.allValues 6 [rankEncoding 2] = some (.ok [2, 12]) := rfl
  obtain ⟨hcut, -, -, hfirst, -⟩ :=
    rankCounter.streaming_prefix 6 (Nat.le_refl 1) [rankEncoding 2]
  obtain ⟨hitems, -⟩ := hcut hle
  exact ⟨hle, hitems.trans rfl, hfirst _ hall⟩

end TypeResolution

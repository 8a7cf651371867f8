import TypeResolution.Proofs.Search.Translation
import TypeResolution.Resolver.Resolution

/-!
# Exchanging the outcomes of calls

If every producer answers with another outcome that delivers the same, then a resolution does the
same: it makes the same calls, hands out the same values and ends alike, and only the returns that
it records differ. So an expected failure cannot be told from a factory that hands back nothing
(`muffled_resolve_eq`).

The fallback plays no part in this below the level of whole resolutions, so the resolution of a
window is compared under any two fallbacks.

The same machinery compares resolvers that differ in their fallback alone, with the identity for the
exchange. That is where the second half of the module comes in useful elsewhere: nested resolutions
know nothing of the fallback (`searchWindow_withFallback`).
-/

namespace TypeResolution

variable {V α β : Type}

/-! ## Producers with exchanged outcomes

An outcome is what a call comes back with, a failure or a list of values. Exchanging it is a
function applied at the very end of a call, when all drives are over, so it does not interfere with
them. -/

/-- The producer that does as this one and then answers with the outcome that `g` makes of its
outcome. -/
def Producer.mapOutcome (g : Except Failure (List V) → Except Failure (List V)) (p : Producer V) :
    Producer V :=
  { p with invoke := fun t args => (p.invoke t args).bind fun outcome => .answer (g outcome) }

/-- The pattern with the outcomes of all its producers exchanged. -/
def Pattern.mapOutcome (g : Except Failure (List V) → Except Failure (List V)) (p : Pattern V) :
    Pattern V :=
  { p with producers := p.producers.map (Producer.mapOutcome g) }

/-- The resolver with the outcomes of all producers exchanged. -/
def Resolver.mapOutcome (g : Except Failure (List V) → Except Failure (List V)) (r : Resolver V) :
    Resolver V :=
  { r with
    patterns := r.patterns.map (Pattern.mapOutcome g)
    fallback := r.fallback.map (Pattern.mapOutcome g) }

/-- The event with the outcome exchanged, if it is a return. -/
def Event.mapOutcome (g : Except Failure (List V) → Except Failure (List V)) : Event V → Event V
  | .invoked call => .invoked call
  | .returned outcome => .returned (g outcome)

/-- An interaction that is followed by its own answer is itself. -/
theorem Production.bind_answer (p : Production V α) : p.bind .answer = p := by
  induction p with
  | answer a => rfl
  | drive position stop next ih => exact congrArg (Production.drive position stop) (funext ih)

/-- Exchanging outcomes for themselves changes no producer, -/
theorem Producer.mapOutcome_id (p : Producer V) : p.mapOutcome id = p := by
  have hinvoke : (p.mapOutcome id).invoke = p.invoke :=
    funext fun t => funext fun args => (p.invoke t args).bind_answer
  exact congrArg (fun invoke => { p with invoke }) hinvoke

/-- no pattern, -/
theorem Pattern.mapOutcome_id (p : Pattern V) : p.mapOutcome id = p := by
  rw [mapOutcome, List.map_id'' Producer.mapOutcome_id]

/-- and no event. -/
theorem Event.mapOutcome_id : Event.mapOutcome (V := V) id = id :=
  funext fun e => by cases e <;> rfl

/-- The call order is a matter of kinds and positions. -/
theorem Pattern.callOrder_mapOutcome (g : Except Failure (List V) → Except Failure (List V))
    (p : Pattern V) :
    (p.mapOutcome g).callOrder = p.callOrder.map fun q => (q.1.mapOutcome g, q.2) := by
  simp only [callOrder, mapOutcome, List.zipIdx_map, List.filter_map, List.map_append]
  rfl

/-- A window selects by position, whatever becomes of the patterns. -/
theorem Window.select_map (w : Window) (f : α → β) (as : List α) :
    w.select (as.map f) = (w.select as).map fun q => (f q.1, q.2) := by
  simp only [select, List.zipIdx_map, List.map_take, List.map_drop]
  rfl

open Search

/-! ## Calls

Two resolvers are compared whose producers differ by an exchange `g` that delivers the same
(`Exchanges`). Their nested resolutions are related by assumption, `hn`, up to the level of windows.
-/

/-- The outcome is exchanged at the end of the call, behind all drives. -/
theorem Production.translated_run {ν ν' ε : Type} {h : ν → ν'}
    {perform : Nat → (List V → Bool) → Search ν ε (Driven V)}
    {perform' : Nat → (List V → Bool) → Search ν' ε (Driven V)}
    (hp : ∀ position stop, Translated h Eq (perform position stop) (perform' position stop))
    (p : Production V α) (g : α → β) :
    Translated h (fun a b => b = g a) (p.run perform)
      ((p.bind fun a => .answer (g a)).run perform') := by
  induction p with
  | answer a => exact translated_single rfl
  | drive position stop next ih =>
    refine (hp position stop).bind ?_
    rintro d _ rfl
    exact ih d

namespace Resolver

/-- What the second resolver needs for making the same calls as the first: the same catalog, the
same patterns with exchanged outcomes, and the exchanged outcomes deliver the same. The fallbacks
may be different. -/
structure Exchanges (g : Except Failure (List V) → Except Failure (List V)) (r r' : Resolver V) :
    Prop where
  /-- the catalogs are the same -/
  catalog : r'.catalog = r.catalog
  /-- the outcomes of the patterns are exchanged -/
  patterns : r'.patterns = r.patterns.map (Pattern.mapOutcome g)
  /-- the exchanged outcome delivers the same -/
  deliver : ∀ t outcome, r'.deliver t (g outcome) = r.deliver t outcome

variable {r r' : Resolver V} {g : Except Failure (List V) → Except Failure (List V)}

/-- Passing on what a call gives reports nothing. -/
theorem silent_deliver (t : Ty) (outcome : Except Failure (List V)) :
    (r.deliver t outcome).Silent := by
  cases outcome with
  | ok values =>
    rw [deliver]
    induction values with
    | nil => trivial
    | cons v values ih => exact ih
  | error f =>
    rw [deliver]
    cases r.expects f <;> trivial

namespace Exchanges

/-- Templates are opened alike, as the catalog is the same. -/
theorem openTemplate_eq (h : Exchanges g r r') (template : Template) :
    r'.openTemplate template = r.openTemplate template := by
  cases template with
  | definition d => rfl
  | closed t => rw [openTemplate, openTemplate, h.catalog]

/-- And they are closed alike. -/
theorem closedUnder_eq (h : Exchanges g r r') (fuel : Nat) (d : DefIndex) (b : Bindings) :
    r'.closedUnder fuel d b = r.closedUnder fuel d b := by
  rw [closedUnder, closedUnder, h.catalog]

section

variable (h : Exchanges g r r') (fuel : Nat) {nested nested' : Nested V}
  (hn : ∀ candidates window,
    Translated (Event.mapOutcome g) Eq (nested candidates window) (nested' candidates window))
include hn

/-- Parameters are filled with the same values. -/
theorem translated_fillings (candidates : List Ty) (window : Window) (hasDefault : Bool) :
    Translated (Event.mapOutcome g) Eq (fillings nested candidates window hasDefault)
      (fillings nested' candidates window hasDefault) := by
  have hvalues := (hn candidates window).map fun _ _ ha => congrArg Filled.value ha
  rw [fillings, fillings]
  cases hasDefault with
  | false => exact hvalues
  | true => exact hvalues.orElse (translated_single rfl)

/-- Drives hand over the same, and only what is recorded of them is translated. -/
theorem translated_driveArg (args : List (Filled V)) (position : Nat) (stop : List V → Bool) :
    Translated (Event.mapOutcome g) Eq (driveArg nested args position stop)
      (driveArg nested' args position stop) := by
  rw [driveArg, driveArg]
  rcases args[position]? with _ | v | _ | ⟨candidates, window⟩
  · exact translated_single rfl
  · exact translated_single rfl
  · exact translated_single rfl
  · exact ((hn candidates window).gather stop []).map fun d _ hd => hd ▸ rfl

include h

/-- So the lists of arguments are the same in both, found in the same order. -/
theorem translated_argLists (place : Place) (b : Bindings) (params : List Parameter) :
    Translated (Event.mapOutcome g) Eq (r.argLists fuel nested place b params)
      (r'.argLists fuel nested' place b params) := by
  induction params with
  | nil => exact translated_single rfl
  | cons param params ih =>
    cases param with
    | required => exact .done
    | optional => exact ih.map fun _ _ hargs => congrArg _ hargs
    | specialize directive hasDefault =>
      rw [argLists, argLists, h.catalog]
      -- the directive builds the same in both, or fails alike
      rcases Constraint.requireTypes r.catalog fuel b directive.types with _ | e | candidates
      · exact .exhausted
      · exact .failed e
      · dsimp only
        split
        · exact ih.map fun _ _ hargs => congrArg _ hargs
        · have hfillings := translated_fillings hn candidates
            (place.window.directed place.index directive) hasDefault
          refine hfillings.choose directive.definitive ?_
          rintro arg _ rfl
          exact ih.map fun _ _ hargs => congrArg _ hargs

/-- The call is the same, and so are its drives; its return is recorded with the other outcome, and
that delivers the same. -/
theorem translated_call (place : Place) (t : Ty) (producer : Producer V × Nat)
    (args : List (Filled V)) :
    Translated (Event.mapOutcome g) Eq (r.call nested place t producer args)
      (r'.call nested' place t (producer.1.mapOutcome g, producer.2) args) := by
  rw [call, call]
  refine .event _ ((Production.translated_run (translated_driveArg hn args) _ g).bind ?_)
  rintro outcome _ rfl
  refine .event _ ?_
  rw [h.deliver]
  exact (silent_deliver t outcome).translated

/-- Producers are called one after another in both, and what is definitive in one is so in the
other. -/
theorem translated_callAll (place : Place) (b : Bindings) (t : Ty)
    (producers : List (Producer V × Nat)) :
    Translated (Event.mapOutcome g) Eq (r.callAll fuel nested place b t producers)
      (r'.callAll fuel nested' place b t (producers.map fun q => (q.1.mapOutcome g, q.2))) := by
  induction producers with
  | nil => exact .done
  | cons producer rest ih =>
    have hargs := h.translated_argLists fuel hn place b producer.1.params
    refine Translated.andThen producer.1.definitive (hargs.bind ?_) ih
    rintro args _ rfl
    exact h.translated_call hn place t producer args

/-- The same type is closed, so the same producers are called for it. -/
theorem translated_valuesOf (place : Place) (p : Pattern V) (d : DefIndex) (b : Bindings) :
    Translated (Event.mapOutcome g) Eq (r.valuesOf fuel nested place p d b)
      (r'.valuesOf fuel nested' place (p.mapOutcome g) d b) := by
  rw [valuesOf, valuesOf, h.closedUnder_eq]
  rcases r.closedUnder fuel d b with _ | _ | t
  · exact .exhausted
  · exact .done
  · dsimp only
    rw [callProducers, callProducers, Pattern.callOrder_mapOutcome]
    exact h.translated_callAll fuel hn place b t p.callOrder

/-! ## Patterns

The slots are the same in both, and they report nothing. So what differs between two attempts on a
pattern is what differs between their calls. -/

/-- An attempt on a pattern does the same. -/
theorem translated_tryPattern (place : Place) (candidates : List Ty) (p : Pattern V) :
    Translated (Event.mapOutcome g) Eq (r.tryPattern fuel nested place candidates p)
      (r'.tryPattern fuel nested' place candidates (p.mapOutcome g)) := by
  have htemplate : r'.openTemplate (p.mapOutcome g).template = r.openTemplate p.template :=
    h.openTemplate_eq p.template
  rw [tryPattern, tryPattern, htemplate, h.catalog]
  rcases r.openTemplate p.template with e | ⟨d, b⟩
  · exact .failed e
  · refine (silent_slotBindings r.catalog fuel p.slots candidates b).translated.bind ?_
    rintro b _ rfl
    exact h.translated_valuesOf fuel hn place p d b

/-- And so do attempts one after another. -/
theorem translated_tryPatterns (window : Window) (candidates : List Ty)
    (patterns : List (Pattern V × Nat)) :
    Translated (Event.mapOutcome g) Eq (r.tryPatterns fuel nested window candidates patterns)
      (r'.tryPatterns fuel nested' window candidates
        (patterns.map fun q => (q.1.mapOutcome g, q.2))) := by
  induction patterns with
  | nil => exact .done
  | cons q rest ih =>
    obtain ⟨p, index⟩ := q
    exact (h.translated_tryPattern fuel hn ⟨index, window⟩ candidates p).andThen p.definitive ih

end

/-! ## Resolutions

The assumption on nested resolutions is discharged by induction on the fuel. Only whole resolutions
look at the fallback. -/

variable (h : Exchanges g r r') (fuel : Nat)
include h

/-- The induction is on the depth of nesting. -/
theorem translated_searchWindow (candidates : List Ty) (window : Window) :
    Translated (Event.mapOutcome g) Eq (r.searchWindow fuel candidates window)
      (r'.searchWindow fuel candidates window) := by
  induction fuel generalizing candidates window with
  | zero => exact .exhausted
  | succ fuel ih =>
    -- the window selects the exchanged patterns at the positions of the original ones
    rw [searchWindow, searchWindow, h.patterns, Window.select_map]
    exact h.translated_tryPatterns fuel ih window candidates _

/-- The fallback does the same if its outcomes are exchanged as well. -/
theorem translated_searchFallback
    (hfallback : r'.fallback = r.fallback.map (Pattern.mapOutcome g)) :
    Translated (Event.mapOutcome g) Eq (r.searchFallback fuel) (r'.searchFallback fuel) := by
  have hlength : r'.patterns.length = r.patterns.length := by rw [h.patterns, List.length_map]
  rw [searchFallback, searchFallback, hfallback, hlength]
  rcases r.fallback with _ | p
  · exact .done
  · have htemplate : r'.openTemplate (p.mapOutcome g).template = r.openTemplate p.template :=
      h.openTemplate_eq p.template
    rw [Option.map_some]
    dsimp only
    rw [htemplate]
    rcases r.openTemplate p.template with e | ⟨d, b⟩
    · exact .failed e
    · exact h.translated_valuesOf fuel (h.translated_searchWindow fuel) _ p d b

/-- **Calls whose outcomes deliver the same make the same resolution**: under every consumer it
hands out the same values and ends alike, and its record differs in the exchanged outcomes only. -/
theorem resolve_eq (hfallback : r'.fallback = r.fallback.map (Pattern.mapOutcome g))
    (stop : List V → Bool) (candidates : List Ty) :
    r'.resolve fuel stop candidates =
      ⟨(r.resolve fuel stop candidates).events.map (Event.mapOutcome g),
        (r.resolve fuel stop candidates).items, (r.resolve fuel stop candidates).ending⟩ := by
  have hlength : r'.patterns.length = r.patterns.length := by rw [h.patterns, List.length_map]
  have hsearch : Translated (Event.mapOutcome g) Eq (r.search fuel candidates)
      (r'.search fuel candidates) := by
    rw [search, search, hlength]
    exact (h.translated_searchWindow fuel candidates _).orElse
      (h.translated_searchFallback fuel hfallback)
  exact hsearch.runFrom stop []

end Exchanges

/-! ## Other fallbacks

With outcomes exchanged for themselves the relation is equality. -/

/-- Setting another fallback exchanges nothing. -/
theorem exchanges_withFallback (r : Resolver V) (fallback : Option (Pattern V)) :
    Exchanges id r { r with fallback } where
  catalog := rfl
  patterns := (List.map_id'' Pattern.mapOutcome_id r.patterns).symm
  deliver _ _ := rfl

/-- What the patterns give does not depend on the fallback. -/
theorem searchWindow_withFallback (fuel : Nat) (fallback : Option (Pattern V))
    (candidates : List Ty) (window : Window) :
    ({ r with fallback } : Resolver V).searchWindow fuel candidates window =
      r.searchWindow fuel candidates window := by
  have hwindow :=
    (r.exchanges_withFallback fallback).translated_searchWindow fuel candidates window
  rw [Event.mapOutcome_id] at hwindow
  exact hwindow.eq

/-- Nor does what a pattern gives under some bindings, with its nested resolutions. -/
theorem valuesOf_withFallback (fuel : Nat) (fallback : Option (Pattern V)) (place : Place)
    (p : Pattern V) (d : DefIndex) (b : Bindings) :
    ({ r with fallback } : Resolver V).valuesOf fuel
        (({ r with fallback } : Resolver V).searchWindow fuel) place p d b =
      r.valuesOf fuel (r.searchWindow fuel) place p d b := by
  have h := r.exchanges_withFallback fallback
  have hvalues := h.translated_valuesOf fuel (h.translated_searchWindow fuel) place p d b
  rw [Event.mapOutcome_id, Pattern.mapOutcome_id] at hvalues
  exact hvalues.eq

/-! ## Muffled failures

A producer is muffled by handing back nothing where it would have failed as expected. The two
outcomes differ in the record, but what they deliver is the same, nothing. -/

/-- Nothing, in place of an expected failure. -/
def muffle (r : Resolver V) : Except Failure (List V) → Except Failure (List V)
  | .ok values => .ok values
  | .error f => if r.expects f then .ok Yield.nothing.toList else .error f

/-- The resolver whose producers hand back nothing where they would fail in an expected way. -/
def muffled (r : Resolver V) : Resolver V := r.mapOutcome r.muffle

/-- A muffled resolver delivers the same as the resolver itself: the failures that are replaced are
those that count as no value. -/
theorem exchanges_muffled (r : Resolver V) : Exchanges r.muffle r r.muffled where
  catalog := rfl
  patterns := rfl
  deliver := by
    intro t outcome
    cases outcome with
    | ok values => rfl
    | error f =>
      rw [muffle, deliver]
      cases hf : r.expects f with
      | true => rfl
      | false =>
        change (if r.expects f then _ else _) = _
        rw [hf]

/-- **An expected failure cannot be told from a factory that hands back nothing**: no value, no
call and no ending depends on which of the two a producer answers with. -/
theorem muffled_resolve_eq (r : Resolver V) (fuel : Nat) (stop : List V → Bool)
    (candidates : List Ty) :
    r.muffled.resolve fuel stop candidates =
      ⟨(r.resolve fuel stop candidates).events.map (Event.mapOutcome r.muffle),
        (r.resolve fuel stop candidates).items, (r.resolve fuel stop candidates).ending⟩ :=
  r.exchanges_muffled.resolve_eq fuel rfl stop candidates

end Resolver

end TypeResolution

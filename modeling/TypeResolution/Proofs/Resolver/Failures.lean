import TypeResolution.Proofs.Resolver.Outcomes
import TypeResolution.Proofs.Resolver.Streaming
import TypeResolution.Proofs.Unification.Errors

/-!
# Unexpected failures stop everything

A producer that is called outside of any drive and fails in a category that is not expected ends the
resolution, however deeply the resolution is nested: the return of its call is the last thing that
happens, and the resolution ends with an error that names the type and the failure. Conversely, an
error that blames a producer comes from such a call.

`FailStop` is the shape of a search for which this holds: it consists of whole calls, each of which
comes back with values or an expected failure, and then of its end. Every combinator that a
resolution is put together from keeps the shape, since none of them looks behind a failure.

What makes the proof go through is that the shape speaks of whole calls. A failure inside of a drive
is handed to the producer that drives, which may well recover from it; so nothing can be said of
single events, but all that happens inside of a call is between the two brackets of the call and
need not be looked at. At which call a record breaks down is then a matter of matching brackets
(`BreaksDown`).
-/

namespace TypeResolution

variable {V α β : Type}

open Search

/-! ## Where a record breaks down

A record breaks down at a call that comes back with an unexpected failure, when all calls before
have come back and were none of that kind. The first lemmas are about where the return of a call can
stand in a balanced record. -/

/-- A return closes the latest open call, so behind a balanced record it stands in one place
only. -/
theorem Balanced.eq_of_append_returned {es : List (Event V)} (h : Balanced es)
    {o : Except Failure (List V)} {rest : List (Event V)} {es' : List (Event V)} (h' : Balanced es')
    {o' : Except Failure (List V)} {rest' : List (Event V)}
    (heq : es ++ .returned o :: rest = es' ++ .returned o' :: rest') :
    es = es' ∧ o = o' ∧ rest = rest' := by
  induction h generalizing es' o rest o' rest' with
  | nil =>
    cases h' with
    | nil => simpa using heq
    | call call outcome hinner hrest => simp at heq
  | call call outcome hinner hrest ihinner ihrest =>
    cases h' with
    | nil => simp at heq
    | call call' outcome' hinner' hrest' =>
      -- the first calls are the same, so are their drives, and then what stands behind them
      simp only [List.cons_append, List.append_assoc, List.cons.injEq, Event.invoked.injEq] at heq
      obtain ⟨rfl, heq⟩ := heq
      obtain ⟨rfl, rfl, hbehind⟩ := ihinner hinner' heq
      obtain ⟨rfl, ho, hrest⟩ := ihrest hrest' hbehind
      exact ⟨rfl, ho, hrest⟩

/-- What comes back in the beginning of a balanced record was called in it. -/
theorem Underway.ne_append_returned {es : List (Event V)} (hes : Balanced es)
    {o : Except Failure (List V)} {rest fs : List (Event V)} (h : Underway fs) :
    fs ≠ es ++ .returned o :: rest := by
  intro heq
  induction hes generalizing o rest fs with
  | nil => cases h <;> simp at heq
  | call call outcome hinner hrest ihinner ihrest =>
    cases h with
    | nil => simp at heq
    | call call' outcome' hinner' hrest' =>
      simp only [List.cons_append, List.append_assoc, List.cons.injEq] at heq
      obtain ⟨-, -, heq⟩ := hinner'.eq_of_append_returned hinner heq.2
      exact ihrest hrest' heq
    | inside call' hinner' =>
      -- the first call is open, so the return that closes it cannot be there
      simp only [List.cons_append, List.append_assoc, List.cons.injEq] at heq
      exact ihinner hinner' heq.2

namespace Resolver

/-- In the record, a call that was made outside of any drive comes back with a failure that is not
expected. Behind its return stands `later`. -/
def BreaksDown (r : Resolver V) (record : List (Event V)) (call : Call V) (f : Failure)
    (later : List (Event V)) : Prop :=
  ∃ earlier inner, record = earlier ++ .invoked call :: inner ++ .returned (.error f) :: later ∧
    Balanced earlier ∧ Balanced inner ∧ r.expects f = false

variable {r : Resolver V} {call : Call V} {f : Failure} {later : List (Event V)}

/-- An empty record does not break down. -/
theorem not_breaksDown_nil : ¬r.BreaksDown [] call f later := by
  rintro ⟨earlier, inner, heq, -⟩
  simp at heq

/-- A record that starts with a whole call breaks down with that call or behind it. -/
theorem BreaksDown.of_call {first : Call V} {inner rest : List (Event V)}
    {outcome : Except Failure (List V)} (hinner : Balanced inner)
    (h : r.BreaksDown (.invoked first :: inner ++ [.returned outcome] ++ rest) call f later) :
    (first = call ∧ outcome = .error f ∧ rest = later ∧ r.expects f = false) ∨
      r.BreaksDown rest call f later := by
  obtain ⟨earlier, inner', heq, hearlier, hinner', hf⟩ := h
  cases hearlier with
  | nil =>
    simp only [List.nil_append, List.cons_append, List.append_assoc, List.cons.injEq,
      Event.invoked.injEq] at heq
    obtain ⟨-, ho, hrest⟩ := hinner.eq_of_append_returned hinner' heq.2
    exact .inl ⟨heq.1, ho, hrest, hf⟩
  | call call' outcome' hfirst hothers =>
    simp only [List.nil_append, List.cons_append, List.append_assoc, List.cons.injEq] at heq
    obtain ⟨-, -, hrest⟩ := hinner.eq_of_append_returned hfirst heq.2
    exact .inr ⟨_, inner', by simpa using hrest, hothers, hinner', hf⟩

/-- A call that came back with values or with an expected failure is not where a record breaks
down. -/
theorem BreaksDown.behind {first : Call V} {inner rest : List (Event V)}
    {outcome : Except Failure (List V)} (hinner : Balanced inner)
    (houtcome : ∀ f, outcome = .error f → r.expects f = true)
    (h : r.BreaksDown (.invoked first :: inner ++ [.returned outcome] ++ rest) call f later) :
    r.BreaksDown rest call f later := by
  rcases h.of_call hinner with ⟨-, ho, -, hf⟩ | hrest
  · rw [houtcome f ho] at hf
    cases hf
  · exact hrest

/-- A record that ends inside its first call does not break down. -/
theorem not_breaksDown_of_underway {first : Call V} {inner : List (Event V)}
    (h : Underway inner) : ¬r.BreaksDown (.invoked first :: inner) call f later := by
  rintro ⟨earlier, inner', heq, hearlier, hinner', -⟩
  cases hearlier with
  | nil =>
    simp only [List.nil_append, List.cons_append, List.cons.injEq] at heq
    exact h.ne_append_returned hinner' heq.2
  | call call' outcome' hfirst hothers =>
    simp only [List.cons_append, List.append_assoc, List.cons.injEq] at heq
    exact h.ne_append_returned hfirst heq.2

end Resolver

/-! ## Searches that stop at the first unexpected failure

The shape is an inductive predicate whose constructors are the ways to begin: with a whole call that
delivers, with a call that ends everything, with an item, or with one of the ends. Combinators
consume a search from the front, so they are all treated by one lemma, `FailStop.through`. -/

namespace Search

/-- A search of whole calls. Behind a call that fails unexpectedly stands nothing but the error that
blames it, and no other error blames a producer. -/
inductive FailStop (r : Resolver V) : Search (Event V) ResolutionError α → Prop where
  /-- the search comes to its end -/
  | done : FailStop r .done
  /-- the search fails, but not because of a producer -/
  | failed {e : ResolutionError} (he : ¬e.BlamesProducer) : FailStop r (.failed e)
  /-- the fuel runs out between two calls -/
  | exhausted : FailStop r .exhausted
  /-- the fuel runs out inside a call -/
  | inside (call : Call V) {inner : List (Event V)} (hinner : Underway inner) :
      FailStop r (reporting (.invoked call :: inner) .exhausted)
  /-- an item is found -/
  | found (a : α) {rest : Unit → Search (Event V) ResolutionError α} (h : FailStop r (rest ())) :
      FailStop r (.found a rest)
  /-- a call comes back with values or with a failure that is expected -/
  | call (call : Call V) {inner : List (Event V)} {outcome : Except Failure (List V)}
      (hinner : Balanced inner) (houtcome : ∀ f, outcome = .error f → r.expects f = true)
      {s : Search (Event V) ResolutionError α} (h : FailStop r s) :
      FailStop r (reporting (.invoked call :: inner ++ [.returned outcome]) s)
  /-- a call comes back with a failure that is not expected -/
  | abort (call : Call V) {inner : List (Event V)} {f : Failure} (hinner : Balanced inner)
      (hf : r.expects f = false) :
      FailStop r (reporting (.invoked call :: inner ++ [.returned (.error f)])
        (.failed (.producer call.ty f)))

variable {r : Resolver V}

/-- What goes on from the items and from an end without failure keeps the shape. -/
theorem FailStop.through {F : Search (Event V) ResolutionError α → Search (Event V) _ β}
    (hF : PassesThrough F) (hdone : FailStop r (F .done))
    (hfound : ∀ a rest, FailStop r (rest ()) → FailStop r (F (rest ())) →
      FailStop r (F (.found a rest)))
    {s : Search (Event V) ResolutionError α} (h : FailStop r s) : FailStop r (F s) := by
  -- a call in front passes through the combinator, and an item is where it does its own work
  induction h with
  | done => exact hdone
  | failed he =>
    rw [hF.failed]
    exact .failed he
  | exhausted =>
    rw [hF.exhausted]
    exact .exhausted
  | inside call hinner =>
    rw [hF.reporting, hF.exhausted]
    exact .inside call hinner
  | found a h ih => exact hfound a _ h ih
  | call call hinner houtcome _ ih =>
    rw [hF.reporting]
    exact .call call hinner houtcome ih
  | abort call hinner hf =>
    rw [hF.reporting, hF.failed]
    exact .abort call hinner hf

variable {s : Search (Event V) ResolutionError α}

/-- Two searches in a row keep the shape. -/
theorem FailStop.append (h : FailStop r s) {t : Unit → Search (Event V) ResolutionError α}
    (ht : FailStop r (t ())) : FailStop r (s.append t) :=
  .through (passesThrough_append t) ht (fun a _ _ ih => .found a ih) h

/-- So does a search with another one to fall back on, -/
theorem FailStop.orElse (h : FailStop r s) {t : Unit → Search (Event V) ResolutionError α}
    (ht : FailStop r (t ())) : FailStop r (s.orElse t) :=
  .through (passesThrough_orElse t) ht (fun a _ hrest _ => .found a hrest) h

/-- and one that may be definitive. -/
theorem FailStop.andThen (definitive : Bool) (h : FailStop r s)
    {t : Unit → Search (Event V) ResolutionError α} (ht : FailStop r (t ())) :
    FailStop r (s.andThen definitive t) := by
  cases definitive with
  | false => exact h.append ht
  | true => exact h.orElse ht

/-- Changing items keeps it. -/
theorem FailStop.map (h : FailStop r s) (f : α → β) : FailStop r (s.map f) :=
  .through (passesThrough_map f) .done (fun a _ _ ih => .found (f a) ih) h

/-- Searching on from items keeps it, if what each item leads to has it. -/
theorem FailStop.bind (h : FailStop r s) {f : α → Search (Event V) ResolutionError β}
    (hf : ∀ a, FailStop r (f a)) : FailStop r (s.bind f) :=
  .through (passesThrough_bind f) .done (fun a _ _ ih => (hf a).append ih) h

/-- A choice keeps it, definitive or not. -/
theorem FailStop.choose (definitive : Bool) (h : FailStop r s)
    {f : α → Search (Event V) ResolutionError β} (hf : ∀ a, FailStop r (f a)) :
    FailStop r (s.choose definitive f) := by
  cases definitive with
  | false => exact h.bind hf
  | true => exact .through (passesThrough_bindFirst f) .done (fun a _ _ ih => (hf a).orElse ih) h

/-- A single item is followed by the end. -/
theorem failStop_single (a : α) : FailStop r (single a : Search (Event V) _ α) := .found a .done

/-- So are the items of a list. -/
theorem failStop_ofList (as : List α) : FailStop r (ofList as : Search (Event V) _ α) := by
  induction as with
  | nil => exact .done
  | cons a as ih => exact .found a ih

/-- A search that calls nothing and blames no producer consists of no calls. -/
theorem Silent.failStop (h : s.Silent) (hs : s.listing.Blameless) : FailStop r s := by
  induction s with
  | done => exact .done
  | failed e => exact .failed (hs e rfl)
  | exhausted => exact .exhausted
  | event e rest ih => exact h.elim
  | found a rest ih =>
    rw [listing_found] at hs
    exact .found a (ih () h hs)

/-! ## What a run of such a search shows

A consumer sees the calls of the search up to where it leaves. If the record breaks down, then the
search is at its end, and conversely an error that blames a producer is the end of a search that
broke down. -/

/-- **Nothing happens behind an unexpected failure**, and the run ends with the error that blames
it. -/
theorem FailStop.stops (h : FailStop r s) {stop : List α → Bool} {seen : List α} {call : Call V}
    {f : Failure} {later : List (Event V)}
    (hrun : r.BreaksDown (s.runFrom stop seen).events call f later) :
    later = [] ∧ (s.runFrom stop seen).ending = some (.error (.producer call.ty f)) ∧
      ∃ before, s.trace = before ++ [.inl (.returned (.error f))] ∧
        itemsOf before = (s.runFrom stop seen).items := by
  induction h generalizing seen with
  | done => exact absurd hrun Resolver.not_breaksDown_nil
  | failed he => exact absurd hrun Resolver.not_breaksDown_nil
  | exhausted => exact absurd hrun Resolver.not_breaksDown_nil
  | inside call' hinner =>
    rw [runFrom_reporting] at hrun
    exact absurd (by simpa [runFrom] using hrun) (Resolver.not_breaksDown_of_underway hinner)
  | found a _ ih =>
    rw [runFrom] at hrun ⊢
    split at hrun
    · exact absurd hrun Resolver.not_breaksDown_nil
    · next hstop =>
      -- the consumer goes on, since it would have left without a record of the failure
      obtain ⟨hlater, hending, before, htrace, hitems⟩ := ih hrun
      rw [if_neg hstop]
      exact ⟨hlater, hending, .inr a :: before, congrArg (Sum.inr a :: ·) htrace,
        congrArg (a :: ·) hitems⟩
  | @call call' inner outcome hinner houtcome s _ ih =>
    rw [runFrom_reporting] at hrun ⊢
    obtain ⟨hlater, hending, before, htrace, hitems⟩ := ih (hrun.behind hinner houtcome)
    refine ⟨hlater, hending,
      (Event.invoked call' :: inner ++ [Event.returned outcome]).map .inl ++ before, ?_, ?_⟩
    · rw [trace_reporting, htrace, List.append_assoc]
    · rw [itemsOf_append, itemsOf_map_inl, hitems, List.nil_append]
  | @abort call' inner f' hinner hf' =>
    rw [runFrom_reporting] at hrun ⊢
    rcases hrun.of_call hinner with ⟨rfl, ho, hlater, -⟩ | hrun
    · obtain rfl := Except.error.inj ho
      refine ⟨hlater.symm, rfl, (Event.invoked call' :: inner).map .inl, ?_, ?_⟩
      · rw [trace_reporting, List.map_append, trace, List.append_nil]
        rfl
      · rw [itemsOf_map_inl]
        rfl
    · exact absurd hrun Resolver.not_breaksDown_nil

/-- **An error that blames a producer comes from an unexpected failure.** -/
theorem FailStop.breaksDown (h : FailStop r s) {stop : List α → Bool} {seen : List α} {t : Ty}
    {f : Failure} (hending : (s.runFrom stop seen).ending = some (.error (.producer t f))) :
    ∃ call, call.ty = t ∧ r.BreaksDown (s.runFrom stop seen).events call f [] := by
  induction h generalizing seen with
  -- only two of the ends are errors, and one of these is known to blame nobody
  | done => cases hending
  | failed he =>
    obtain rfl := Except.error.inj (Option.some.inj hending)
    exact absurd trivial he
  | exhausted => cases hending
  | inside call hinner =>
    rw [runFrom_reporting] at hending
    cases hending
  | found a _ ih =>
    rw [runFrom] at hending ⊢
    split at hending
    · cases hending
    · next hstop =>
      rw [if_neg hstop]
      exact ih hending
  | @call call inner outcome hinner houtcome s _ ih =>
    rw [runFrom_reporting] at hending ⊢
    obtain ⟨call', ht, earlier, inner', hevents, hearlier, hinner', hf⟩ := ih hending
    refine ⟨call', ht, _, inner', ?_, .call call outcome hinner hearlier, hinner', hf⟩
    rw [hevents]
    simp
  | abort call hinner hf =>
    rw [runFrom_reporting] at hending ⊢
    obtain ⟨rfl, rfl⟩ := ResolutionError.producer.inj (Except.error.inj (Option.some.inj hending))
    exact ⟨call, rfl, [], _, by simp [runFrom], .nil, hinner, hf⟩

/-- Where the second of two searches is kept for the case that the first finds nothing, an
unexpected failure of the first makes the second irrelevant; otherwise the first came to its end and
the failure is one of the second. -/
theorem FailStop.orElse_stops (h : FailStop r s) {t : Unit → Search (Event V) ResolutionError α}
    {stop : List α → Bool} {seen : List α} {call : Call V} {f : Failure} {later : List (Event V)}
    (hrun : r.BreaksDown ((s.orElse t).runFrom stop seen).events call f later) :
    (∀ t', (s.orElse t').runFrom stop seen = (s.orElse t).runFrom stop seen) ∨
      ∃ tried, s.runFrom stop seen = ⟨tried, [], some (.ok .finished)⟩ ∧
        r.BreaksDown ((t ()).runFrom stop seen).events call f later := by
  induction h with
  | done => exact .inr ⟨[], rfl, hrun⟩
  | failed he => exact .inl fun _ => rfl
  | exhausted => exact .inl fun _ => rfl
  | inside call' hinner =>
    refine .inl fun t' => ?_
    rw [(passesThrough_orElse t').reporting, (passesThrough_orElse t).reporting]
    rfl
  | found a _ _ => exact .inl fun _ => rfl
  | @call call' inner outcome hinner houtcome s _ ih =>
    rw [(passesThrough_orElse t).reporting, runFrom_reporting] at hrun
    rcases ih (hrun.behind hinner houtcome) with hsame | ⟨tried, hfirst, hsecond⟩
    · refine .inl fun t' => ?_
      rw [(passesThrough_orElse t').reporting, (passesThrough_orElse t).reporting,
        runFrom_reporting, runFrom_reporting, hsame]
    · refine .inr ⟨.invoked call' :: inner ++ [.returned outcome] ++ tried, ?_, hsecond⟩
      rw [runFrom_reporting, hfirst]
  | abort call' hinner hf' =>
    -- the first search fails, so nobody asks for the second
    refine .inl fun t' => ?_
    rw [(passesThrough_orElse t').reporting, (passesThrough_orElse t).reporting]
    rfl

end Search

namespace Resolver

variable (r : Resolver V) (fuel : Nat)

/-! ## Resolutions stop at the first unexpected failure

The functions of a resolution, from a call to whole resolutions. Errors of other kinds come up as
well, from matching and from directives, and it is enough that none of them blames a producer. -/

/-- A call stops the search if it fails unexpectedly, and goes on with its values otherwise. -/
theorem failStop_call {nested : Nested V}
    (hn : ∀ candidates window, Bracketed [] (nested candidates window)) (place : Place) (t : Ty)
    (producer : Producer V × Nat) (args : List (Filled V)) :
    FailStop r (r.call nested place t producer args) := by
  obtain ⟨call, rfl, ⟨inner, outcome, hinner, h⟩ | ⟨inner, hinner, h⟩⟩ :=
    r.call_shape hn place t producer args
  · rw [h]
    -- values, an expected failure, or an unexpected one, which ends everything
    cases outcome with
    | ok values => exact .call call hinner (fun f hf => by cases hf) (failStop_ofList values)
    | error f =>
      rw [deliver]
      cases hf : r.expects f with
      | false => exact .abort call hinner hf
      | true =>
        refine .call call hinner (fun f' hf' => ?_) .done
        obtain rfl := Except.error.inj hf'
        exact hf
  · rw [h]
    exact .inside call hinner

/-- A template that cannot be used blames no producer. -/
theorem openTemplate_blameless {template : Template} {e : ResolutionError}
    (h : r.openTemplate template = .error e) : ¬e.BlamesProducer := by
  cases template with
  | definition d => cases h
  | closed t =>
    rw [openTemplate] at h
    split at h
    · split at h
      · cases h
      · obtain rfl := Except.error.inj h
        exact not_false
    · obtain rfl := Except.error.inj h
      exact not_false

section

variable {nested : Nested V} (hb : ∀ candidates window, Bracketed [] (nested candidates window))
  (hn : ∀ candidates window, FailStop r (nested candidates window))

include hn

/-- A parameter is filled from a nested resolution, which has the shape by assumption. -/
theorem failStop_fillings (candidates : List Ty) (window : Window) (hasDefault : Bool) :
    FailStop r (fillings nested candidates window hasDefault) := by
  have hvalues := (hn candidates window).map Filled.value
  rw [fillings]
  cases hasDefault with
  | false => exact hvalues
  | true => exact hvalues.orElse (failStop_single Filled.default)

/-- So have all ways of filling the parameters. A directive that fails blames no producer. -/
theorem failStop_argLists (place : Place) (b : Bindings) (params : List Parameter) :
    FailStop r (r.argLists fuel nested place b params) := by
  induction params with
  | nil => exact failStop_single []
  | cons param params ih =>
    cases param with
    | required => exact .done
    | optional => exact ih.map _
    | specialize directive hasDefault =>
      rw [argLists]
      -- no fuel, an error that blames nobody, or candidates to resolve
      rcases htypes : Constraint.requireTypes r.catalog fuel b directive.types with
        _ | e | candidates
      · exact .exhausted
      · exact .failed (requireTypes_blameless directive.types htypes)
      · dsimp only
        split
        · exact ih.map _
        · have hfillings := r.failStop_fillings hn candidates
            (place.window.directed place.index directive) hasDefault
          exact hfillings.choose directive.definitive fun arg => ih.map _

include hb

/-- Calls one after another have the shape. -/
theorem failStop_callAll (place : Place) (b : Bindings) (t : Ty)
    (producers : List (Producer V × Nat)) :
    FailStop r (r.callAll fuel nested place b t producers) := by
  induction producers with
  | nil => exact .done
  | cons producer rest ih =>
    have hargs := r.failStop_argLists fuel hn place b producer.1.params
    exact (hargs.bind (r.failStop_call hb place t producer)).andThen producer.1.definitive ih

/-- So have the values of a definition. -/
theorem failStop_valuesOf (place : Place) (p : Pattern V) (d : DefIndex) (b : Bindings) :
    FailStop r (r.valuesOf fuel nested place p d b) := by
  rw [valuesOf]
  rcases r.closedUnder fuel d b with _ | _ | t
  · exact .exhausted
  · exact .done
  · exact r.failStop_callAll fuel hb hn place b t p.callOrder

/-- So has an attempt on a pattern: matching reports nothing and blames nobody. -/
theorem failStop_tryPattern (place : Place) (candidates : List Ty) (p : Pattern V) :
    FailStop r (r.tryPattern fuel nested place candidates p) := by
  rw [tryPattern]
  rcases htemplate : r.openTemplate p.template with e | ⟨d, b⟩
  · exact .failed (r.openTemplate_blameless htemplate)
  · have hslots : FailStop r (slotBindings r.catalog fuel p.slots candidates b) :=
      (silent_slotBindings r.catalog fuel p.slots candidates b).failStop <| by
        rw [listing_slotBindings]
        exact blameless_slotSolutions r.catalog fuel p.slots candidates b
    exact hslots.bind fun b => r.failStop_valuesOf fuel hb hn place p d b

/-- And so have attempts one after another. -/
theorem failStop_tryPatterns (window : Window) (candidates : List Ty)
    (patterns : List (Pattern V × Nat)) :
    FailStop r (r.tryPatterns fuel nested window candidates patterns) := by
  induction patterns with
  | nil => exact .done
  | cons q rest ih =>
    obtain ⟨p, index⟩ := q
    have hp := r.failStop_tryPattern fuel hb hn ⟨index, window⟩ candidates p
    exact hp.andThen p.definitive ih

end

/-- Nested resolutions stop at the first unexpected failure. The induction is on the depth of
nesting: a failure one level below ends that level, and none of the levels above looks behind it. -/
theorem failStop_searchWindow (candidates : List Ty) (window : Window) :
    FailStop r (r.searchWindow fuel candidates window) := by
  induction fuel generalizing candidates window with
  | zero => exact .exhausted
  | succ fuel ih =>
    have hb := fun candidates window => (r.orderly_searchWindow fuel candidates window).bracketed
    exact r.failStop_tryPatterns fuel hb ih window candidates _

/-- The fallback has the shape, with all that is nested in it. -/
theorem failStop_searchFallback : FailStop r (r.searchFallback fuel) := by
  rw [searchFallback]
  rcases r.fallback with _ | p
  · exact .done
  · dsimp only
    rcases htemplate : r.openTemplate p.template with e | ⟨d, b⟩
    · exact .failed (r.openTemplate_blameless htemplate)
    · have hb := fun candidates window => (r.orderly_searchWindow fuel candidates window).bracketed
      exact r.failStop_valuesOf fuel hb (r.failStop_searchWindow fuel) _ p d b

/-- **Resolutions stop at the first unexpected failure.** -/
theorem failStop_search (candidates : List Ty) : FailStop r (r.search fuel candidates) :=
  (r.failStop_searchWindow fuel candidates _).orElse (r.failStop_searchFallback fuel)

/-- A resolution that breaks down does so in its patterns, and then no fallback is consulted, or the
patterns came to their end without a value, and then it does so in the fallback. -/
theorem breaksDown_search {candidates : List Ty} {stop : List V → Bool} {call : Call V}
    {f : Failure} {later : List (Event V)}
    (h : r.BreaksDown (r.resolve fuel stop candidates).events call f later) :
    (∀ fallback, ({ r with fallback } : Resolver V).resolve fuel stop candidates =
        r.resolve fuel stop candidates) ∨
      ∃ tried, (r.searchWindow fuel candidates (.whole r.patterns.length)).run stop =
          ⟨tried, [], some (.ok .finished)⟩ ∧
        r.BreaksDown ((r.searchFallback fuel).run stop).events call f later := by
  have hpatterns := r.failStop_searchWindow fuel candidates (.whole r.patterns.length)
  refine (hpatterns.orElse_stops h).imp_left fun hsame fallback => ?_
  rw [resolve, search, searchWindow_withFallback]
  exact hsame _

/-- **Unexpected failures stop everything.** For every consumer and under every fuel:

* if a call that is made outside of any drive comes back with a failure that is not expected, then
  its return is the last thing that happens, and so the call is the last one, the values that were
  handed out before are all values, and the resolution ends with the error that names the closed
  type of the call and the failure. If the call was not one of the fallback's, then no fallback is
  consulted;
* if the resolution ends with an error that blames a producer, then its record ends with such a
  return, and the error names it;
* if all producers hand back nothing where they would fail in an expected way, then the same calls
  are made, the same values are handed out and the resolution ends alike. -/
theorem unexpectedFailure_stops (stop : List V → Bool) (candidates : List Ty) :
    (∀ call f later, r.BreaksDown (r.resolve fuel stop candidates).events call f later →
        later = [] ∧
          (r.resolve fuel stop candidates).ending = some (.error (.producer call.ty f)) ∧
          (∃ before, (r.search fuel candidates).trace =
              before ++ [.inl (.returned (.error f))] ∧
            itemsOf before = (r.resolve fuel stop candidates).items) ∧
          ((∀ fallback, ({ r with fallback } : Resolver V).resolve fuel stop candidates =
              r.resolve fuel stop candidates) ∨
            ∃ tried, (r.searchWindow fuel candidates (.whole r.patterns.length)).run stop =
                ⟨tried, [], some (.ok .finished)⟩ ∧
              r.BreaksDown ((r.searchFallback fuel).run stop).events call f later)) ∧
      (∀ t f, (r.resolve fuel stop candidates).ending = some (.error (.producer t f)) →
        ∃ call, call.ty = t ∧ r.BreaksDown (r.resolve fuel stop candidates).events call f []) ∧
      r.muffled.resolve fuel stop candidates =
        ⟨(r.resolve fuel stop candidates).events.map (Event.mapOutcome r.muffle),
          (r.resolve fuel stop candidates).items, (r.resolve fuel stop candidates).ending⟩ := by
  have hsearch := r.failStop_search fuel candidates
  refine ⟨fun call f later hbreak => ?_, fun t f hending => hsearch.breaksDown hending,
    r.muffled_resolve_eq fuel stop candidates⟩
  obtain ⟨hlater, hending, htrace⟩ := hsearch.stops hbreak
  exact ⟨hlater, hending, htrace, r.breaksDown_search fuel hbreak⟩

end Resolver

/-- Counts dimensions, but fails to read the end of the rank; its fallback would count 99. -/
def unreadableCounter : Resolver Nat where
  catalog := .empty
  patterns := [
    { template := .definition rankZero
      slots := [⟨[.definition rankZero []], false⟩]
      producers := [.ofFactory [] false fun _ _ =>
        .answer (.error ⟨.custom "io", "the rank cannot be read"⟩)] },
    { template := .definition rankSucc
      slots := [⟨[.definition rankSucc [.named "N"]], false⟩]
      producers := [.ofConstructor [.specialize { types := [.named "N"] } false] false fun _ args =>
        .answer <| match args with
          | [.value n] => .ok (n + 1)
          | _ => .error ⟨.system, "no dimension to count"⟩] }]
  fallback := some
    { template := .definition rankZero
      producers := [.ofFactory [] false fun _ _ => .answer (.ok (.one 99))] }

/-- The failure happens one level below the rank that is to be counted, and ends everything. -/
theorem unreadableCounter_stops :
    unreadableCounter.BreaksDown (unreadableCounter.resolve 6 takeAll [rankEncoding 1]).events
        ⟨0, 0, rankEncoding 0, []⟩ ⟨.custom "io", "the rank cannot be read"⟩ [] ∧
      (unreadableCounter.resolve 6 takeAll [rankEncoding 1]).ending =
        some (.error (.producer (rankEncoding 0) ⟨.custom "io", "the rank cannot be read"⟩)) ∧
      (unreadableCounter.resolve 6 takeAll [rankEncoding 1]).items = [] := by
  have hbreak : unreadableCounter.BreaksDown
      (unreadableCounter.resolve 6 takeAll [rankEncoding 1]).events
      ⟨0, 0, rankEncoding 0, []⟩ ⟨.custom "io", "the rank cannot be read"⟩ [] :=
    ⟨[], [], rfl, .nil, .nil, by decide⟩
  obtain ⟨hstops, -⟩ := unreadableCounter.unexpectedFailure_stops 6 takeAll [rankEncoding 1]
  obtain ⟨-, hending, -⟩ := hstops _ _ _ hbreak
  exact ⟨hbreak, hending, rfl⟩

end TypeResolution

import TypeResolution.Proofs.Resolver.TypesMet
import TypeResolution.Proofs.Unification.Hygiene

/-!
# Registration rules out malformed resolutions

A resolver checks its patterns when they are registered, and resolutions repeat these checks at the
places where something malformed would hurt. A resolver on which anything was registered in any
order is validated (`Registered.validated`), and for a validated resolver the second kind of check
never fails (`Validated.errors_leftOpen`): whatever ends a resolution, on its own or nested in
another one, is a producer's failure, a missed bound, a malformed rank, or a directive's name that
nothing is bound to. For the last one it is known beforehand which names these can be (`MayLack`),
since a solution binds all names of the slots and a closed template all parameters of its
definition.

Two things are not looked at when a pattern is registered, and have to be known: that declared types
apply definitions at their arity, and that closed templates do. A closed template that does not is
refused only when its arguments are read (`shortTemplate_fails`).

The errors themselves are those of `LeftOpen`, and the argument is that of the contribution: a
resolution's errors come from its parts, the parts are in a row, and a row fails only where one of
its parts does. So each part of the contribution is given a lemma of its own, with the properties of
nested resolutions for a hypothesis, and one induction on the fuel puts them together
(`failsOnly_contribution`).
-/

namespace TypeResolution

/-- An error that a consumer is told of is one that interrupts the listing. -/
theorem Search.interruption_of_runFrom_error {ν ε α : Type} {stop : List α → Bool} {seen : List α}
    {s : Search ν ε α} {e : ε} (h : (s.runFrom stop seen).ending = some (.error e)) :
    s.listing.interruption = some (.failed e) := by
  induction s generalizing seen with
  | done => cases h
  | failed e' =>
    obtain rfl := Except.error.inj (Option.some.inj h)
    rfl
  | exhausted => cases h
  | event e' rest ih => exact ih () h
  | found a rest ih =>
    rw [runFrom] at h
    split at h
    · cases h
    · exact ih () h

/-! ## Names

A directive asks for types by the names that slots or the template bind. Which names these are can
be read off a pattern: a slot binds the names that stand in its constraint, and a closed template
those of the parameters of its definition. -/

namespace Bindings

/-- What was bound stays bound. -/
theorem Binds.bind {b : Bindings} {names : List String} (h : b.Binds names) (x : String) (t : Ty) :
    (b.bind x t).Binds names := by
  intro y hy
  by_cases hyx : y = x
  · rw [hyx, get?_bind_self]
    exact Option.some_ne_none t
  · rw [get?_bind_of_ne b t hyx]
    exact h y hy

/-- Binding a whole list of names keeps what was bound, too. -/
theorem Binds.bindAll {b : Bindings} {names : List String} (h : b.Binds names) (xs : List String)
    (ts : List Ty) : (b.bindAll xs ts).Binds names := by
  induction xs generalizing b ts with
  | nil => exact h
  | cons x xs ih =>
    cases ts with
    | nil => exact h
    | cons t ts => exact ih (h.bind x t) ts

/-- Names are bound position by position, if there is a type for each. -/
theorem binds_bindAll (b : Bindings) {names : List String} {ts : List Ty}
    (h : ts.length = names.length) : (b.bindAll names ts).Binds names := by
  induction names generalizing b ts with
  | nil => exact fun _ hx => absurd hx List.not_mem_nil
  | cons x names ih =>
    cases ts with
    | nil => cases h
    | cons t ts =>
      have hfirst := (binds_singleton (b.get?_bind_self x t)).bindAll names ts
      exact hfirst.append (ih (b.bind x t) (Nat.succ.inj h))

end Bindings

/-- The names that a template binds from the start. -/
def Template.boundNames (c : Catalog) : Template → List String
  | .definition _ => []
  | .closed t =>
    match t.head? with
    | none => []
    | some d => (c.definition d).params.map (·.name)

namespace Pattern

variable {V : Type}

/-- The names that the directives of a pattern mention. -/
def directiveNames (p : Pattern V) : List String := Constraint.namesAll p.directiveConstraints

/-- The names that the slots of a pattern mention outside of negations. -/
def slotNames (p : Pattern V) : List String := Constraint.bindingNamesAll p.slotConstraints

variable {c : Catalog} {p : Pattern V}

/-- What was checked of a pattern: its template is closed, and so are its slots and directives
checked. -/
theorem check_ok (h : p.check c = .ok ()) :
    (∀ t, p.template = .closed t → t.isClosed = true) ∧
      (∀ s ∈ p.slots, ∀ k ∈ s.constraints, k.check c .slot = .ok ()) ∧
      ∀ d ∈ p.directives, ∀ k ∈ d.types, k.check c .directive = .ok () := by
  -- The check tests the template, then the slots, then the directives, and what it returns without
  -- an error has passed all three.
  rw [check] at h
  split at h
  · cases h
  · next htemplate =>
    split at h
    · cases h
    · next hslots =>
      refine ⟨fun t ht => ?_, fun s hs k hk => ?_, fun d hd k hk => ?_⟩
      · rw [ht] at htemplate
        dsimp only at htemplate
        split at htemplate
        · assumption
        · cases htemplate
      · exact Constraint.checkAll_ok hslots k (List.mem_flatMap.mpr ⟨s, hs, hk⟩)
      · exact Constraint.checkAll_ok h k (types_subset_directiveConstraints hd k hk)

end Pattern

namespace Resolver

variable {V : Type} {r : Resolver V}

/-! ## Validated resolvers

Validity is what the checks establish, and no more. It is stated of all patterns, the fallback
included, since the fallback goes through the same checks; registering keeps it, as what was
registered stays there as it is. -/

/-- All patterns of the resolver were accepted, and so was its fallback. -/
def Validated (r : Resolver V) : Prop := ∀ p ∈ r.allPatterns, p.check r.catalog = .ok ()

/-- Registering keeps a resolver validated. -/
theorem Validated.register (h : r.Validated) {p : Pattern V} {r' : Resolver V}
    (hr : r.register p = .ok r') : r'.Validated := by
  rw [Resolver.register] at hr
  split at hr
  · cases hr
  · next hp =>
    obtain rfl := Except.ok.inj hr
    intro q hq
    rcases List.mem_append.mp hq with hq | hq
    · rcases List.mem_append.mp hq with hq | hq
      · exact h q (List.mem_append_left _ hq)
      · exact List.mem_singleton.mp hq ▸ hp
    · exact h q (List.mem_append_right _ hq)

/-- So does setting a fallback, and removing one. -/
theorem Validated.registerFallback (h : r.Validated) {p : Option (Pattern V)} {r' : Resolver V}
    (hr : r.registerFallback p = .ok r') : r'.Validated := by
  cases p with
  | none =>
    obtain rfl := Except.ok.inj hr
    exact fun q hq => h q (List.mem_append_left _ (by simpa [allPatterns] using hq))
  | some p =>
    rw [Resolver.registerFallback] at hr
    split at hr
    · cases hr
    · next hp =>
      obtain rfl := Except.ok.inj hr
      intro q hq
      rcases List.mem_append.mp hq with hq | hq
      · exact h q (List.mem_append_left _ hq)
      · exact List.mem_singleton.mp hq ▸ hp

/-- What a resolver can be made to by its own operations: it starts without patterns, and then
patterns are registered, the fallback is set or removed, and the expected failures are changed, in
any order. -/
inductive Registered : Resolver V → Prop where
  /-- no pattern and no fallback -/
  | empty (catalog : Catalog) (expected : Option (List Failure.Category)) :
      Registered { catalog, expectedFailures := expected }
  /-- one more pattern -/
  | register {r r' : Resolver V} (h : Registered r) (p : Pattern V) (hr : r.register p = .ok r') :
      Registered r'
  /-- another fallback, or none -/
  | registerFallback {r r' : Resolver V} (h : Registered r) (p : Option (Pattern V))
      (hr : r.registerFallback p = .ok r') : Registered r'
  /-- other expected failures -/
  | expecting {r : Resolver V} (h : Registered r) (expected : Option (List Failure.Category)) :
      Registered (r.expecting expected)

/-- **A resolver is validated, whatever was registered with it.** -/
theorem Registered.validated (h : r.Registered) : r.Validated := by
  induction h with
  | empty => exact fun _ hp => absurd hp List.not_mem_nil
  | register _ _ hr ih => exact ih.register hr
  | registerFallback _ _ hr ih => exact ih.registerFallback hr
  | expecting _ _ ih => exact ih

variable (r)

/-- Every closed template applies definitions at their arity. -/
def TemplatesAtArity : Prop :=
  ∀ p ∈ r.allPatterns, ∀ t, p.template = .closed t → r.catalog.AtArity 0 t

/-- A directive may ask for the name although nothing is bound to it: it is a directive of a pattern
whose template is no closed type with a parameter of that name and whose slots do not mention it
outside of negations, or a directive of the fallback. -/
def MayLack (x : String) : Prop :=
  (∃ p ∈ r.patterns,
      x ∈ p.directiveNames ∧ x ∉ p.template.boundNames r.catalog ∧ x ∉ p.slotNames) ∨
    ∃ p, r.fallback = some p ∧ x ∈ p.directiveNames

/-- The resolutions that a resolution of candidates may come to: types that are resolved in a
window. The first is that of the candidates in the window of the whole list; every other one is
asked for by a directive of a pattern of such a window, under bindings that its slots accept, or by
a directive of the fallback. -/
inductive Resolves (candidates : List Ty) : List Ty → Window → Prop where
  /-- the whole resolution -/
  | whole : Resolves candidates candidates (.whole r.patterns.length)
  /-- one that is nested in another -/
  | nested {ts : List Ty} {w : Window} {p : Pattern V} {index fuel : Nat} {d : DefIndex}
      {start b : Bindings} {directive : Directive} {ts' : List Ty} (h : Resolves candidates ts w)
      (hp : (p, index) ∈ w.select r.patterns) (hopen : r.openTemplate p.template = .ok (d, start))
      (hb : b ∈ (slotSolutions r.catalog fuel p.slots ts start).items)
      (hd : directive ∈ p.directives)
      (hts : Constraint.requireTypes r.catalog fuel b directive.types = some (.ok ts')) :
      Resolves candidates ts' (w.directed index directive)
  /-- one that the fallback asks for -/
  | fallback {p : Pattern V} {fuel : Nat} {d : DefIndex} {start : Bindings} {directive : Directive}
      {ts' : List Ty} (hp : r.fallback = some p)
      (hopen : r.openTemplate p.template = .ok (d, start)) (hd : directive ∈ p.directives)
      (hts : Constraint.requireTypes r.catalog fuel start directive.types = some (.ok ts')) :
      Resolves candidates ts'
        ((Window.whole r.patterns.length).directed r.patterns.length directive)

variable {r}

/-! ## Templates

The template of a registered pattern has a definition of which it may be an instance, so it opens
without an error, and what it binds is at its arity. -/

/-- A closed template can be used. -/
theorem openTemplate_ne_error {template : Template}
    (h : ∀ t, template = .closed t → t.isClosed = true) (e : ResolutionError) :
    r.openTemplate template ≠ .error e := by
  intro herror
  cases template with
  | definition d => cases herror
  | closed t =>
    have hclosed := h t rfl
    cases t with
    | param i => cases hclosed
    | _ =>
      rw [openTemplate] at herror
      dsimp only [Ty.head?] at herror
      rw [if_pos hclosed] at herror
      cases herror

/-- A pattern with a template at its arity names types at their arity. -/
theorem keepsTo_atArity {p : Pattern V}
    (h : ∀ t, p.template = .closed t → r.catalog.AtArity 0 t) :
    p.KeepsTo (fun _ => True) (r.catalog.AtArity 0) where
  target _ _ := trivial
  args t ht := by
    cases htemplate : p.template with
    | definition d =>
      rw [htemplate] at ht
      exact absurd ht List.not_mem_nil
    | closed s =>
      rw [htemplate] at ht
      exact (h s htemplate).headArgs t ht
  slots _ _ k _ := k.over_true
  directives _ _ k _ := k.over_true

/-- What a template binds applies definitions at their arity, if the template itself does. -/
theorem in_openTemplate {p : Pattern V} (h : ∀ t, p.template = .closed t → r.catalog.AtArity 0 t)
    {d : DefIndex} {b : Bindings} (hopen : r.openTemplate p.template = .ok (d, b)) :
    b.In (r.catalog.AtArity 0) :=
  ((keepsTo_atArity h).openTemplate hopen).2

/-- A template at its arity binds all parameters of its definition. -/
theorem binds_openTemplate {template : Template}
    (h : ∀ t, template = .closed t → r.catalog.AtArity 0 t) {d : DefIndex} {b : Bindings}
    (hopen : r.openTemplate template = .ok (d, b)) : b.Binds (template.boundNames r.catalog) := by
  obtain ⟨hd, rfl⟩ := openTemplate_eq_ok hopen
  cases template with
  | definition e => exact fun _ hx => absurd hx List.not_mem_nil
  | closed t =>
    have hhead : t.head? = some d := hd
    rw [Template.boundNames, hhead]
    refine Bindings.binds_bindAll [] ?_
    rw [List.length_map]
    exact (h t rfl).length_headArgs hhead

/-! ## Errors of a pattern

An error stands where it arises: with a directive that cannot be built, with a producer that fails,
with a missed bound. What comes of filling parameters, of calling, of matching is made of these in
the order of the search, and each lemma adds one kind of error to those of the parts. -/

section Calls

variable {lacking : String → Prop} {fuel : Nat} {nested : NestedListing V} {place : Place}
  {b : Bindings}

/-- Filling one parameter fails only as the nested resolution does. -/
theorem failsOnly_parameterFillings {P : ResolutionError → Prop} {ts : List Ty} {window : Window}
    (h : (nested ts window).FailsOnly P) (hasDefault : Bool) :
    (parameterFillings nested ts window hasDefault).FailsOnly P := by
  refine Listing.failsOnly_concat fun l hl => ?_
  rcases List.mem_cons.mp hl with rfl | hl
  · exact h.map Filled.value
  · rw [List.mem_singleton.mp hl]
    dsimp only
    split <;> exact Listing.failsOnly_ofList _

/-- Filling all of them fails where a directive cannot be built, or where what it builds resolves to
an error. -/
theorem failsOnly_argumentLists {P : ResolutionError → Prop} {params : List Parameter}
    (hcandidates : ∀ d ∈ params.filterMap Parameter.directive?, ∀ e,
      Constraint.requireTypes r.catalog fuel b d.types = some (.error e) → P e)
    (hnested : ∀ d ∈ params.filterMap Parameter.directive?, ∀ ts,
      Constraint.requireTypes r.catalog fuel b d.types = some (.ok ts) →
        (nested ts (place.window.directed place.index d)).FailsOnly P) :
    (r.argumentLists fuel nested place b params).FailsOnly P := by
  -- A required parameter ends the filling, so what follows it is not even looked at. The other
  -- cases go on with the rest of the parameters, for which the hypotheses are those of a longer
  -- list.
  induction params with
  | nil => exact Listing.failsOnly_one _
  | cons param params ih =>
    cases param with
    | required => exact Listing.failsOnly_nothing
    | optional => exact (ih hcandidates hnested).map _
    | specialize d hasDefault =>
      have hd : d ∈ (Parameter.specialize d hasDefault :: params).filterMap Parameter.directive? :=
        List.mem_cons_self
      have hrest := ih (fun d' hd' => hcandidates d' (List.mem_cons_of_mem d hd'))
        fun d' hd' => hnested d' (List.mem_cons_of_mem d hd')
      refine Listing.failsOnly_ofFueled fun result hresult => ?_
      cases result with
      | error e => exact Listing.failsOnly_failed (hcandidates d hd e hresult)
      | ok ts =>
        dsimp only
        split
        · exact hrest.map _
        · exact (failsOnly_parameterFillings (hnested d hd ts hresult) hasDefault).each d.definitive
            fun arg _ => hrest.map (arg :: ·)

/-- A call fails with what its producer fails with, whatever it is handed. -/
theorem failsOnly_callContribution (t : Ty) (producer : Producer V) (args : List (Filled V)) :
    (r.callContribution nested t producer args).FailsOnly (ResolutionError.LeftOpen lacking) := by
  refine Listing.failsOnly_ofFueled fun outcome _ => ?_
  cases outcome with
  | ok values => exact Listing.failsOnly_ofList values
  | error failure =>
    dsimp only
    split
    · exact Listing.failsOnly_nothing
    · exact Listing.failsOnly_failed (.producer t failure)

end Calls

section Patterns

variable {lacking : String → Prop} {fuel : Nat} {nested : NestedListing V} {place : Place}
  (hc : r.catalog.DeclaredAtArity) {p : Pattern V} (hp : p.check r.catalog = .ok ())
  (hnested : ∀ d ∈ p.directives, ∀ ts, (∀ t ∈ ts, r.catalog.AtArity 0 t) →
    (nested ts (place.window.directed place.index d)).FailsOnly (ResolutionError.LeftOpen lacking))
include hc hp hnested

/-- Behind a solution of the slots a pattern fails for a name that it lacks, for a bound, or for a
producer. -/
theorem failsOnly_bindingsContribution {d : DefIndex} {b : Bindings}
    (hb : b.In (r.catalog.AtArity 0))
    (hlack : ∀ x ∈ p.directiveNames, b.get? x = none → lacking x) :
    (r.bindingsContribution fuel nested place p d b).FailsOnly
      (ResolutionError.LeftOpen lacking) := by
  refine Listing.failsOnly_ofFueled fun closed _ => ?_
  cases closed with
  | none => exact Listing.failsOnly_nothing
  | some t =>
    refine Listing.failsOnly_concat fun l hl => ?_
    obtain ⟨producer, hproducer, rfl⟩ := List.mem_map.mp hl
    have hmem : producer ∈ p.producers :=
      (List.mem_append.mp hproducer).elim List.mem_of_mem_filter List.mem_of_mem_filter
    have hdirective : ∀ d ∈ producer.params.filterMap Parameter.directive?, d ∈ p.directives :=
      fun _ hd => Pattern.mem_directives hmem hd
    obtain ⟨-, -, hchecked⟩ := p.check_ok hp
    refine (failsOnly_argumentLists (fun d hd e he => ?_) fun d hd ts hts => ?_).each false
      fun args _ => failsOnly_callContribution t producer args
    · refine (requireTypes_error hc hb d.types (hchecked d (hdirective d hd)) he).mono ?_
      rintro x ⟨hx, hunbound⟩
      refine hlack x ?_ hunbound
      rw [Constraint.namesAll_eq_flatMap] at hx
      obtain ⟨k, hk, hx⟩ := List.mem_flatMap.mp hx
      rw [Pattern.directiveNames, Constraint.namesAll_eq_flatMap]
      exact List.mem_flatMap.mpr
        ⟨k, Pattern.types_subset_directiveConstraints (hdirective d hd) k hk, hx⟩
    · exact hnested d (hdirective d hd) ts
        (hc.matchClosed.mem_requireTypes hb d.types (fun k _ => k.over_true) hts)

/-- A checked pattern fails only as checks leave open, if its nested resolutions do. -/
theorem failsOnly_patternContribution
    (htemplate : ∀ t, p.template = .closed t → r.catalog.AtArity 0 t)
    (hlack : ∀ x ∈ p.directiveNames, x ∉ p.template.boundNames r.catalog → x ∉ p.slotNames →
      lacking x) {candidates : List Ty} (hcandidates : ∀ t ∈ candidates, r.catalog.AtArity 0 t) :
    (r.patternContribution fuel nested place candidates p).FailsOnly
      (ResolutionError.LeftOpen lacking) := by
  obtain ⟨hclosed, hslots, -⟩ := p.check_ok hp
  rw [patternContribution]
  cases hopen : r.openTemplate p.template with
  | error e => exact absurd hopen (openTemplate_ne_error hclosed e)
  | ok start =>
    obtain ⟨d, b⟩ := start
    have hb := in_openTemplate htemplate hopen
    refine ((failsOnly_slotSolutions hc fuel hslots hcandidates hb).mono
      fun _ => ResolutionError.IsMalformedRank.leftOpen).each false fun e he => ?_
    have hin := hc.matchClosed.in_slotSolutions (fun _ _ k _ => k.over_true) hcandidates hb he
    refine failsOnly_bindingsContribution hc hp hnested hin fun x hx hunbound => ?_
    refine hlack x hx (fun hname => ?_) fun hname => ?_
    · exact ((binds_openTemplate htemplate hopen).extend
        (extends_slotSolutions r.catalog fuel he)) x hname hunbound
    · exact binds_slotSolutions r.catalog fuel hslots he x hname hunbound

end Patterns

/-! ## Errors of a resolution -/

section Resolutions

variable (hr : r.Validated) (hc : r.catalog.DeclaredAtArity) (htemplates : r.TemplatesAtArity)
include hr hc htemplates

/-- Every window fails only as checks leave open. The induction is on the depth of nesting. -/
theorem failsOnly_windowContribution (fuel : Nat) {ts : List Ty}
    (hts : ∀ t ∈ ts, r.catalog.AtArity 0 t) (w : Window) :
    (r.windowContribution fuel ts w).FailsOnly (ResolutionError.LeftOpen r.MayLack) := by
  induction fuel generalizing ts w with
  | zero => exact Listing.failsOnly_exhausted
  | succ fuel ih =>
    refine Listing.failsOnly_concat fun l hl => ?_
    obtain ⟨q, hq, rfl⟩ := List.mem_map.mp hl
    have hmem := mem_allPatterns_of_mem_select hq
    refine failsOnly_patternContribution hc (hr q.1 hmem) (fun d _ ts' hts' => ih hts' _)
      (htemplates q.1 hmem) (fun x hx htemplate hslots => .inl ⟨q.1, ?_, hx, htemplate, hslots⟩) hts
    exact List.mem_of_getElem? (Window.mem_select_iff.mp hq).1

theorem failsOnly_contribution (fuel : Nat) {candidates : List Ty}
    (hcandidates : ∀ t ∈ candidates, r.catalog.AtArity 0 t) :
    (r.contribution fuel candidates).FailsOnly (ResolutionError.LeftOpen r.MayLack) := by
  have hfallback : (r.fallbackContribution fuel).FailsOnly
      (ResolutionError.LeftOpen r.MayLack) := by
    rw [fallbackContribution]
    cases hp : r.fallback with
    | none => exact Listing.failsOnly_nothing
    | some p =>
      have hmem := mem_allPatterns_of_fallback hp
      dsimp only
      cases hopen : r.openTemplate p.template with
      | error e => exact absurd hopen (openTemplate_ne_error (p.check_ok (hr p hmem)).1 e)
      | ok start =>
        have hb := in_openTemplate (htemplates p hmem) hopen
        exact failsOnly_bindingsContribution hc (hr p hmem)
          (fun d _ ts hts => failsOnly_windowContribution hr hc htemplates fuel hts _) hb
          fun x hx _ => .inr ⟨p, hp, hx⟩
  exact (failsOnly_windowContribution hr hc htemplates fuel hcandidates _).andThen true
    (hfallback.andThen false Listing.failsOnly_nothing)

omit hr in
/-- Nested resolutions start from closed types that apply definitions at their arity. -/
theorem Resolves.atArity {candidates : List Ty}
    (hcandidates : ∀ t ∈ candidates, r.catalog.AtArity 0 t) {ts : List Ty} {w : Window}
    (h : r.Resolves candidates ts w) : ∀ t ∈ ts, r.catalog.AtArity 0 t := by
  induction h with
  | whole => exact hcandidates
  | nested _ hp hopen hb hd hts ih =>
    have hstart := in_openTemplate (htemplates _ (mem_allPatterns_of_mem_select hp)) hopen
    have hin := hc.matchClosed.in_slotSolutions (fun _ _ k _ => k.over_true) ih hstart hb
    exact hc.matchClosed.mem_requireTypes hin _ (fun k _ => k.over_true) hts
  | fallback hp hopen hd hts =>
    have hstart := in_openTemplate (htemplates _ (mem_allPatterns_of_fallback hp)) hopen
    exact hc.matchClosed.mem_requireTypes hstart _ (fun k _ => k.over_true) hts

/-- **Checks at registration suffice.** Over a catalog and closed templates that apply definitions
at their arity, no resolution of a validated resolver, nested ones included, ends with an
unsupported constraint, a wrong number of arguments, an open template or an open argument; and it
lacks a type for a name only where a directive may. -/
theorem Validated.errors_leftOpen {candidates : List Ty}
    (hcandidates : ∀ t ∈ candidates, r.catalog.Canonical t) (fuel : Nat) (stop : List V → Bool)
    (e : ResolutionError) :
    ((r.resolve fuel stop candidates).ending = some (.error e) → e.LeftOpen r.MayLack) ∧
      ∀ ts w, r.Resolves candidates ts w →
        ((r.searchWindow fuel ts w).run stop).ending = some (.error e) → e.LeftOpen r.MayLack := by
  have hcandidates : ∀ t ∈ candidates, r.catalog.AtArity 0 t :=
    fun t ht => (hcandidates t ht).atArity
  constructor
  · intro h
    have herror := Search.interruption_of_runFrom_error h
    rw [listing_search] at herror
    exact failsOnly_contribution hr hc htemplates fuel hcandidates e herror
  · intro ts w hresolves h
    have herror := Search.interruption_of_runFrom_error h
    rw [listing_searchWindow] at herror
    have hts := hresolves.atArity hc htemplates hcandidates
    exact failsOnly_windowContribution hr hc htemplates fuel hts w e herror

end Resolutions

end Resolver

/-- Builds `List<string>` for `string`, and `List<T>` for any other `T`; for the latter it asks for
a `U` that nothing is bound to. -/
def lackingName : Resolver Nat where
  catalog := .baseLibrary
  patterns := [
    { template := .closed (.named 14 [.nominal 18])
      slots := [⟨[.definition 18 []], false⟩]
      producers := [.ofFactory [] true fun _ _ => .answer (.ok (.one 0))]
      definitive := true },
    { template := .definition 14
      slots := [⟨[.named "T"], false⟩]
      producers := [.ofConstructor [.specialize { types := [.named "U"] } false] false
        fun _ _ => .answer (.ok 1)] }]

open Catalog in
/-- The `U` is found to be missing when `int` is resolved, and it is a name that may be. -/
theorem lackingName_leftOpen :
    (lackingName.resolve 9 Search.takeAll [.nominal 19]).ending =
        some (.error (.unboundParameter "U")) ∧
      (ResolutionError.unboundParameter "U").LeftOpen lackingName.MayLack := by
  have hempty : Resolver.Registered ({ catalog := .baseLibrary } : Resolver Nat) := .empty _ _
  have hregistered : lackingName.Registered :=
    (hempty.register (lackingName.patterns[0]) rfl).register (lackingName.patterns[1]) rfl
  have hvalidated := hregistered.validated
  have hstring : baseLibrary.Canonical (.nominal 18) := canonical_nominal rfl
  have hlist : baseLibrary.Canonical (.named 14 [.nominal 18]) := hstring.generic 14 rfl rfl
  have htemplates : lackingName.TemplatesAtArity := by
    refine List.forall_mem_cons.mpr ⟨fun t ht => ?_, List.forall_mem_singleton.mpr nofun⟩
    obtain rfl := Template.closed.inj ht
    exact hlist.atArity
  have hint : ∀ t ∈ [Ty.nominal 19], baseLibrary.Canonical t :=
    List.forall_mem_singleton.mpr (canonical_nominal rfl)
  have hending : (lackingName.resolve 9 Search.takeAll [.nominal 19]).ending =
      some (.error (.unboundParameter "U")) := rfl
  exact ⟨hending, (hvalidated.errors_leftOpen baseLibrary_wellDeclared.atArity htemplates hint 9
    Search.takeAll _).1 hending⟩

/-- Builds lists of pointers for any candidate, but writes the pointer without what it points to. -/
def shortTemplate : Resolver Nat where
  catalog := .baseLibrary
  patterns := [
    { template := .closed (.named 14 [.named Marker.pointer.definition []])
      slots := [⟨[.named "T"], false⟩]
      producers := [.ofFactory [] false fun _ _ => .answer (.ok (.one 0))] }]

open Catalog in
/-- **A closed template with a wrong number of arguments passes the checks**, and a resolution comes
across it when it compares a candidate with the malformed argument. -/
theorem shortTemplate_fails :
    shortTemplate.Validated ∧ shortTemplate.catalog.DeclaredAtArity ∧
      shortTemplate.catalog.Canonical (.nominal 19) ∧
      (shortTemplate.resolve 9 Search.takeAll [.nominal 19]).ending =
        some (.error (.instantiate (.arity Marker.pointer.definition 1 0))) := by
  have hvalidated : shortTemplate.Validated := List.forall_mem_singleton.mpr rfl
  exact ⟨hvalidated, baseLibrary_wellDeclared.atArity, canonical_nominal rfl, rfl⟩

end TypeResolution

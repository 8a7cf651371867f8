import TypeResolution.Proofs.Resolver.Fallback
import TypeResolution.Proofs.Resolver.Validity

/-!
# Producers with a required parameter

Nothing fills a required parameter, so a producer that declares one is never called. Is it as good
as not there? Its parameters are filled from left to right, and those in front of the required one
may ask for nested resolutions. These run although they are of no use, and if one of them fails then
so does the whole resolution (`uselessFilling_fails`).

Otherwise the producer can be deleted. If its parameters are filled without an error wherever the
resolution comes to fill them, then every resolution that comes to an end gives the same values and
the same error without it (`withoutProducer_resolves_alike`). Where that is, the resolution without
the producer says: it may be any set of requests that it makes requests of only, such as all those
that directives and slots admit (`requestsOnly_attempts`), or just the few that definitive patterns
leave over (`guardedCounter_requestsOnly`). And of a request it matters only what happens when the
turn of the producer comes.

What resolutions give is used again inside of others, to fill parameters and in the sequences that
producers drive, so all windows are compared at once, by induction on the depth of nesting. Without
the producer a resolution may come to its end with less fuel, hence the order `Listing.Le`.

So there are two comparisons in here. One is local: at a request that calls the producer, leaving it
out of the row of producers leaves the listing as it was, because it finds nothing and what it might
fail with has been seen before (`typeContribution_le_withoutProducer`). The other carries this
through the run, for which a listing may be replaced by a larger one in every place where the search
looks at it (`NestedLe` and the lemmas about it).
-/

namespace TypeResolution

/-- The pattern at position `index`. If that is position `i`, its producer at position `j` is
deleted. -/
def Pattern.withoutProducer {V : Type} (i j index : Nat) (p : Pattern V) : Pattern V :=
  { p with producers := if index = i then p.producers.eraseIdx j else p.producers }

/-- Changing patterns at their positions commutes with looking through a window. -/
theorem Window.select_mapIdx {α : Type} (w : Window) (f : Nat → α → α) (as : List α) :
    w.select (as.mapIdx f) = (w.select as).map fun q => (f q.2 q.1, q.2) := by
  have hzip : (as.mapIdx f).zipIdx = as.zipIdx.map fun q => (f q.2 q.1, q.2) := by
    refine List.ext_getElem? fun i => ?_
    simp [List.getElem?_zipIdx, Function.comp_def]
  rw [select, select, hzip, List.map_drop, List.map_take]

/-- A call comes to the same answer if its drives give the same. -/
theorem Production.answer?_le {V α : Type}
    {drive drive' : Nat → (List V → Bool) → Fueled (Driven V)}
    (h : ∀ position stop, (drive position stop).Le (drive' position stop)) (p : Production V α) :
    (p.answer? drive).Le (p.answer? drive') := by
  induction p with
  | answer a => exact .refl _
  | drive position stop next ih =>
    rw [answer?, answer?]
    rcases (h position stop).none_or_some with hdrive | ⟨d, hdrive, hdrive'⟩
    · rw [hdrive]
      exact .none _
    · rw [hdrive, hdrive']
      exact ih d

namespace Resolver

variable {V : Type} (r : Resolver V)

/-- The resolver without the producer at position `j` of the pattern at position `i`. The fallback
stands behind the last pattern. -/
def withoutProducer (i j : Nat) : Resolver V :=
  { r with
    patterns := r.patterns.mapIdx (Pattern.withoutProducer i j)
    fallback := r.fallback.map (Pattern.withoutProducer i j r.patterns.length) }

/-- A resolution of candidates may attempt the pattern of a place under these bindings: they close
its template, and its slots accept with them what is resolved in the window of the place, or the
place is that of the fallback. -/
inductive Attempts (candidates : List Ty) : Place → Bindings → Prop where
  /-- a pattern of a window -/
  | pattern {ts : List Ty} {w : Window} {p : Pattern V} {index fuel : Nat} {d : DefIndex}
      {start b : Bindings} {t : Ty} (h : r.Resolves candidates ts w)
      (hp : (p, index) ∈ w.select r.patterns) (hopen : r.openTemplate p.template = .ok (d, start))
      (hb : b ∈ (slotSolutions r.catalog fuel p.slots ts start).items)
      (hclosed : r.closedUnder fuel d b = some (some t)) : Attempts candidates ⟨index, w⟩ b
  /-- the fallback -/
  | fallback {p : Pattern V} {fuel : Nat} {d : DefIndex} {start : Bindings} {t : Ty}
      (hp : r.fallback = some p) (hopen : r.openTemplate p.template = .ok (d, start))
      (hclosed : r.closedUnder fuel d start = some (some t)) :
      Attempts candidates ⟨r.patterns.length, .whole r.patterns.length⟩ start

/-- A pattern of the list is tried for what is resolved in its window, and the fallback behind all
windows. -/
def TriesFor (candidates : List Ty) (a : Attempt) : Prop :=
  (r.Resolves candidates a.candidates a.place.window ∧ r.Tries a.place.window a.place.index) ∨
    r.fallback.isSome = true ∧ a.place = ⟨r.patterns.length, .whole r.patterns.length⟩

/-- What is resolved inside of such an attempt is one of the resolutions that directives nest. -/
theorem invariant_triesFor (candidates : List Ty) :
    r.Invariant candidates (r.TriesFor candidates) where
  start _ _ hindex := .inl ⟨.whole, hindex⟩
  fallback hsome _ := .inr ⟨hsome, rfl⟩
  nested a ha ts w hasks fuel index hindex := by
    refine .inl ⟨?_, hindex⟩
    obtain ⟨hp, hopen, hb, hd, hts⟩ := hasks
    rcases ha with ⟨hresolves, p, hselect⟩ | ⟨-, hplace⟩
    · obtain rfl := Option.some.inj (hp.symm.trans (triedAt?_of_mem_select hselect))
      exact .nested hresolves hselect hopen hb hd hts
    · rw [hplace] at hp ⊢
      obtain ⟨p, hfallback, rfl⟩ := exists_fallback_of_triedAt? hp
      obtain rfl := List.mem_singleton.mp hb
      exact .fallback hfallback hopen hd hts

/-- **The requests of a resolution are those that it may attempt.** -/
theorem requestsOnly_attempts (fuel : Nat) (candidates : List Ty) :
    r.RequestsOnly (fun request => r.Attempts candidates request.place request.bindings) fuel
      candidates := by
  refine ((r.invariant_triesFor candidates).attemptsOnly fuel).requestsOnly ?_
  rintro ⟨fuel, outer, ⟨index, w⟩, ts⟩ ha _ ⟨hp, hopen, hb, hclosed⟩
  rcases ha with ⟨hresolves, p, hselect⟩ | ⟨-, hplace⟩
  · obtain rfl := Option.some.inj (hp.symm.trans (triedAt?_of_mem_select hselect))
    exact .pattern hresolves hselect hopen hb hclosed
  · obtain ⟨rfl, rfl⟩ := Place.mk.inj hplace
    obtain ⟨p, hfallback, rfl⟩ := exists_fallback_of_triedAt? hp
    -- without slots there is only one solution, the one to start from
    obtain rfl := List.mem_singleton.mp hb
    exact .fallback hfallback hopen hclosed

/-! ## Nested resolutions that find the same

The combinators respect the order of listings, so everything that is made of nested resolutions
does. It is enough that these are compared at the candidates and windows that come up: those that
directives build. -/

section Nested

variable (fuel : Nat) (nested nested' : NestedListing V) (place : Place) (b : Bindings)

/-- What some directives ask for is the same in both kinds of nested resolutions, but for a lack of
fuel in the first. -/
def NestedLe (ds : List Directive) : Prop :=
  ∀ d ∈ ds, ∀ ts, Constraint.requireTypes r.catalog fuel b d.types = some (.ok ts) →
    (nested ts (place.window.directed place.index d)).Le
      (nested' ts (place.window.directed place.index d))

variable {r fuel nested nested' place b}

/-- Argument lists grow with the nested resolutions that fill them. -/
theorem argumentLists_le {params : List Parameter}
    (h : r.NestedLe fuel nested nested' place b (params.filterMap Parameter.directive?)) :
    (r.argumentLists fuel nested place b params).Le
      (r.argumentLists fuel nested' place b params) := by
  -- Each directive is used once, in front of the rest of the parameters, so the hypothesis splits
  -- along with the list.
  induction params with
  | nil => exact .refl _
  | cons param params ih =>
    cases param with
    | required => exact .refl _
    | optional => exact (ih h).map _
    | specialize d hasDefault =>
      obtain ⟨hd, hparams⟩ := List.forall_mem_cons.mp h
      have hrest := ih hparams
      refine .ofFueled (.refl _) fun result hresult => ?_
      cases result with
      | error e => exact .refl _
      | ok ts =>
        dsimp only
        split
        · exact hrest.map _
        · have hvalues := (hd ts hresult).map Filled.value
          exact (hvalues.andThen true (.refl _)).each d.definitive fun arg _ => hrest.map (arg :: ·)

/-- Driving a sequence among the arguments respects the order, since driving a listing does. -/
theorem drivenArg_le {args : List (Filled V)}
    (h : ∀ ts window, .sequence ts window ∈ args → (nested ts window).Le (nested' ts window))
    (position : Nat) (stop : List V → Bool) :
    (drivenArg nested args position stop).Le (drivenArg nested' args position stop) := by
  rw [drivenArg, drivenArg]
  rcases harg : args[position]? with _ | v | _ | ⟨ts, window⟩
  · exact .refl _
  · exact .refl _
  · exact .refl _
  · exact ((h ts window (List.mem_of_getElem? harg)).drive stop).map _

/-- What one producer contributes grows with the nested resolutions. -/
theorem producerContribution_le {producer : Producer V}
    (h : r.NestedLe fuel nested nested' place b (producer.params.filterMap Parameter.directive?))
    (t : Ty) :
    (r.producerContribution fuel nested place b t producer).Le
      (r.producerContribution fuel nested' place b t producer) := by
  refine (argumentLists_le h).each false fun args hargs => ?_
  have hdriven := drivenArg_le fun ts window hmem => by
    obtain ⟨d, hd, hts, rfl⟩ := sequence_of_mem_argumentLists hargs hmem
    exact h d hd ts hts
  exact .ofFueled (Production.answer?_le hdriven _) fun _ _ => .refl _

/-- What all producers of a pattern contribute for one type does. -/
theorem typeContribution_le {p : Pattern V}
    (h : r.NestedLe fuel nested nested' place b p.directives) (t : Ty) :
    (r.typeContribution fuel nested place p b t).Le
      (r.typeContribution fuel nested' place p b t) := by
  refine .concat Producer.definitive fun producer hproducer => ?_
  have hmem : producer ∈ p.producers :=
    (List.mem_append.mp hproducer).elim List.mem_of_mem_filter List.mem_of_mem_filter
  exact producerContribution_le (fun d hd => h d (Pattern.mem_directives hmem hd)) t

/-! ## A producer that builds nothing

The producers of a pattern are called in a row, grouped by their kind. Taking one out of the list
takes it out of its group and leaves all others where they are. The row before it is a beginning of
the row with it, and that is all that is needed to compare the two. -/

variable (r fuel nested place b) in
/-- What calling some producers of a pattern gives, one after another. -/
def callsContribution (t : Ty) (producers : List (Producer V × Nat)) : Listing ResolutionError V :=
  .concat <| producers.map fun q =>
    (q.1.definitive, r.producerContribution fuel nested place b t q.1)

/-- A pattern calls its producers in the order of calls. -/
theorem typeContribution_eq_calls (p : Pattern V) (t : Ty) :
    r.typeContribution fuel nested place p b t =
      r.callsContribution fuel nested place b t p.callOrder := by
  rw [typeContribution, callsContribution, ← callOrder_map_fst, List.map_map]
  rfl

/-- There is no way to fill a required parameter. -/
theorem argumentLists_items_eq_nil {params : List Parameter} (h : .required ∈ params) :
    (r.argumentLists fuel nested place b params).items = [] := by
  rw [List.eq_nil_iff_forall_not_mem]
  -- The required parameter may stand anywhere. Those before it contribute fillings, to be combined
  -- with the lists for the rest, of which there are none.
  induction params with
  | nil => cases h
  | cons param params ih =>
    cases param with
    | required => exact fun _ => List.not_mem_nil
    | optional =>
      intro args hargs
      obtain ⟨rest, hrest, -⟩ := List.mem_map.mp hargs
      exact ih ((List.mem_cons.mp h).resolve_left nofun) rest hrest
    | specialize d hasDefault =>
      have hrest := ih ((List.mem_cons.mp h).resolve_left nofun)
      intro args hargs
      obtain ⟨result, -, hargs⟩ := Listing.mem_ofFueled hargs
      cases result with
      | error e => exact absurd hargs List.not_mem_nil
      | ok ts =>
        dsimp only at hargs
        split at hargs
        · obtain ⟨rest, hmem, -⟩ := List.mem_map.mp hargs
          exact hrest rest hmem
        · obtain ⟨arg, -, hargs⟩ := Listing.mem_each hargs
          obtain ⟨rest, hmem, -⟩ := List.mem_map.mp hargs
          exact hrest rest hmem

/-- In the order of calls, too, the other producers stand around the one that is deleted. Their
positions may change, but nothing that a call gives depends on these. -/
theorem exists_callOrder_withoutProducer {p : Pattern V} {i j : Nat} {q : Producer V}
    (hq : p.producers[j]? = some q) : ∃ before after,
      p.callOrder = before ++ (q, j) :: after ∧
        (p.withoutProducer i j i).callOrder.map Prod.fst = (before ++ after).map Prod.fst := by
  -- The producers are cut at the one in question. In the list with the positions the cut is the
  -- same, and sorting by kind, which is filtering twice, can then be done on both sides of it.
  obtain ⟨ls, ms, hlength, hsplit, herase⟩ : ∃ ls ms, ls.length = j ∧
      p.producers = ls ++ q :: ms ∧ (p.withoutProducer i j i).producers = ls ++ ms := by
    obtain ⟨hj, rfl⟩ := List.getElem?_eq_some_iff.mp hq
    refine ⟨p.producers.take j, p.producers.drop (j + 1), ?_, ?_, ?_⟩
    · rw [List.length_take, Nat.min_eq_left (Nat.le_of_lt hj)]
    · rw [List.getElem_cons_drop, List.take_append_drop]
    · exact (if_pos rfl).trans (List.eraseIdx_eq_take_drop_succ ..)
  have hzip : p.producers.zipIdx = ls.zipIdx ++ (q, j) :: ms.zipIdx (j + 1) := by
    rw [hsplit, List.zipIdx_append, List.zipIdx_cons, hlength, Nat.zero_add]
  have hfst : ∀ (kind : ProducerKind) (qs : List (Producer V)) (n : Nat),
      ((qs.zipIdx n).filter fun q => decide (q.1.kind = kind)).map Prod.fst =
        qs.filter fun q => decide (q.kind = kind) :=
    fun kind => filter_zipIdx_map_fst fun q : Producer V => decide (q.kind = kind)
  rw [callOrder_map_fst, herase, Pattern.callOrder, hzip]
  cases hkind : q.kind with
  | factory =>
    refine ⟨ls.zipIdx.filter fun q => decide (q.1.kind = .factory),
      ((ms.zipIdx (j + 1)).filter fun q => decide (q.1.kind = .factory)) ++
        (ls.zipIdx ++ ms.zipIdx (j + 1)).filter fun q => decide (q.1.kind = .constructor), ?_, ?_⟩
    · simp [hkind]
    · simp [hfst]
  | constructor =>
    refine ⟨((ls.zipIdx ++ ms.zipIdx (j + 1)).filter fun q => decide (q.1.kind = .factory)) ++
        ls.zipIdx.filter fun q => decide (q.1.kind = .constructor),
      (ms.zipIdx (j + 1)).filter fun q => decide (q.1.kind = .constructor), ?_, ?_⟩
    · simp [hkind]
    · simp [hfst]

/-- The producer may be deleted from its pattern if filling its parameters does not fail, should its
turn come. The calls of the producers in front of it decide that: they may fail themselves, or a
definitive one of them may find something. -/
theorem typeContribution_le_withoutProducer {p : Pattern V} {i j : Nat} {q : Producer V}
    (hq : p.producers[j]? = some q) (hrequired : .required ∈ q.params) {t : Ty}
    (hfill : ∀ before, before ++ [(q, j)] <+: p.callOrder → ∀ e,
      (r.callsContribution fuel nested place b t (before ++ [(q, j)])).interruption =
          some (.failed e) →
        (r.callsContribution fuel nested place b t before).interruption = some (.failed e)) :
    (r.typeContribution fuel nested place p b t).Le
      (r.typeContribution fuel nested place (p.withoutProducer i j i) b t) := by
  have hidle : (r.producerContribution fuel nested place b t q).items = [] := by
    rw [producerContribution, Listing.each, argumentLists_items_eq_nil hrequired]
    exact congrArg Listing.items (Listing.append_nothing _)
  obtain ⟨before, after, horder, horder'⟩ := exists_callOrder_withoutProducer (i := i) hq
  have hprefix : before ++ [(q, j)] <+: p.callOrder := ⟨after, by simp [horder]⟩
  have hle := Listing.concat_idle_le (fun q : Producer V × Nat => q.1.definitive)
    (f := fun q => r.producerContribution fuel nested place b t q.1) hidle (hfill before hprefix)
    after
  rw [← horder] at hle
  rw [typeContribution_eq_calls, typeContribution, ← callOrder_map_fst, horder', List.map_map]
  exact hle

end Nested

/-! ## Resolutions without the producer

The resolver without the producer, on its own, makes requests. At those that it makes the two
resolvers are compared, and nothing is known of the others. But what comes of these has no say in
its run, so they may as well be answered by the resolver that still has the producer
(`supplyOutside`): then the comparison is trivial there, and the run is that of the resolver
without. -/

section Resolutions

/-- What calling some producers gives for a request, nested resolutions being those of the
resolver. -/
def callsAt (request : Request) (producers : List (Producer V × Nat)) :
    Search (Event V) ResolutionError V :=
  r.callAll request.fuel (r.searchWindow request.fuel) request.place request.bindings request.ty
    producers

/-- Answers the requests of `A` as the resolver does without the producer, and all others as the
resolver does with it. -/
def supplyOutside (i j : Nat) (A : Request → Prop) [DecidablePred A] : Supply V :=
  fun request nested =>
    if A request then (r.withoutProducer i j).supplyAt request nested
    else r.supplyAt request (r.searchWindow request.fuel)

variable {r} {candidates : List Ty} {i j : Nat} {p : Pattern V} {q : Producer V}

/-- No pattern is lost. -/
theorem length_patterns_withoutProducer :
    (r.withoutProducer i j).patterns.length = r.patterns.length := List.length_mapIdx

/-- The pattern at a position is what it was, but for the producer. -/
theorem patternAt?_withoutProducer (index : Nat) :
    (r.withoutProducer i j).patternAt? index =
      (r.patternAt? index).map (Pattern.withoutProducer i j index) := by
  rw [patternAt?, patternAt?, length_patterns_withoutProducer]
  split
  · next hindex =>
    subst hindex
    rfl
  · exact List.getElem?_mapIdx

/-- So is the pattern to try there. -/
theorem triedAt?_withoutProducer (index : Nat) :
    (r.withoutProducer i j).triedAt? index =
      (r.triedAt? index).map (Pattern.withoutProducer i j index) := by
  rw [triedAt?, triedAt?, length_patterns_withoutProducer]
  split
  · next hindex =>
    subst hindex
    rw [withoutProducer, Option.map_map, Option.map_map]
    rfl
  · exact List.getElem?_mapIdx

/-- The parameters of other producers are filled in the same way, from the same nested
resolutions. -/
theorem argumentLists_withoutProducer (fuel : Nat) (nested : NestedListing V) (place : Place)
    (b : Bindings) (params : List Parameter) :
    (r.withoutProducer i j).argumentLists fuel nested place b params =
      r.argumentLists fuel nested place b params := by
  induction params with
  | nil => rfl
  | cons param params ih =>
    cases param with
    | required => rfl
    | optional => rw [argumentLists, argumentLists, ih]
    | specialize d hasDefault =>
      simp only [argumentLists, ih]
      rfl

/-- Which producers there are in other patterns does not matter for one pattern, given what its
nested resolutions find. -/
theorem typeContribution_withoutProducer (fuel : Nat) (nested : NestedListing V) (place : Place)
    (p : Pattern V) (b : Bindings) (t : Ty) :
    (r.withoutProducer i j).typeContribution fuel nested place p b t =
      r.typeContribution fuel nested place p b t := by
  simp only [typeContribution, producerContribution, argumentLists_withoutProducer]
  rfl

variable {A : Request → Prop} [DecidablePred A]

variable (hp : r.patternAt? i = some p) (hq : p.producers[j]? = some q)
  (hrequired : .required ∈ q.params)
  (hfill : ∀ request, A request → request.place.index = i →
    ∀ before, before ++ [(q, j)] <+: p.callOrder → ∀ e,
      (r.callsAt request (before ++ [(q, j)])).listing.interruption = some (.failed e) →
        (r.callsAt request before).listing.interruption = some (.failed e))
include hp hq hrequired hfill

/-- A request gives the same without the producer. -/
theorem supplyAt_le (request : Request) {nested : Nested V}
    (hnested : ∀ ts w, (r.searchWindow request.fuel ts w).listing.Le (nested ts w).listing) :
    (r.supplyAt request (r.searchWindow request.fuel)).listing.Le
      (r.supplyOutside i j A request nested).listing := by
  -- Outside of the requests that are made the two sides are the same by definition, and at a
  -- request elsewhere than at the producer's pattern they call the same producers. What is left is
  -- the pattern itself, with the producer and without.
  rw [supplyOutside]
  split
  case isFalse => exact .refl _
  case isTrue hA =>
    rw [supplyAt, supplyAt, patternAt?_withoutProducer]
    cases hp' : r.patternAt? request.place.index with
    | none => exact .refl _
    | some p' =>
      rw [Option.map_some]
      dsimp only
      rw [listing_callProducers r _ fun _ _ => rfl,
        listing_callProducers (r.withoutProducer i j) _ fun _ _ => rfl,
        typeContribution_withoutProducer]
      have hdelete : (r.typeContribution request.fuel
          (fun ts w => (r.searchWindow request.fuel ts w).listing) request.place p'
          request.bindings request.ty).Le
            (r.typeContribution request.fuel
              (fun ts w => (r.searchWindow request.fuel ts w).listing) request.place
              (p'.withoutProducer i j request.place.index) request.bindings request.ty) := by
        by_cases hindex : request.place.index = i
        · rw [hindex, hp] at hp'
          obtain rfl := Option.some.inj hp'
          rw [hindex]
          refine typeContribution_le_withoutProducer hq hrequired fun before hbefore e => ?_
          have h := hfill request hA hindex before hbefore e
          rwa [callsAt, callsAt, listing_callAll r _ fun _ _ => rfl,
            listing_callAll r _ fun _ _ => rfl] at h
        · rw [Pattern.withoutProducer, if_neg hindex]
          exact .refl _
      exact hdelete.trans (typeContribution_le (fun _ _ ts _ => hnested ts _) _)

/-- So does an attempt: it makes the same requests, since only producers are deleted. -/
theorem tryAt_le (a : Attempt) {nested : Nested V}
    (hnested : ∀ ts w, (r.searchWindow a.fuel ts w).listing.Le (nested ts w).listing) :
    (r.tryAt a (r.searchWindow a.fuel)).listing.Le
      ((r.withoutProducer i j).attemptVia (r.supplyOutside i j A) a nested).listing := by
  rw [← attemptVia_eq_tryAt fun _ _ => rfl, attemptVia, attemptVia, triedAt?_withoutProducer]
  cases r.triedAt? a.place.index with
  | none => exact .refl _
  | some p' =>
    have hopen : (r.withoutProducer i j).openTemplate
        (p'.withoutProducer i j a.place.index).template = r.openTemplate p'.template := rfl
    rw [Option.map_some]
    dsimp only
    rw [hopen]
    rcases r.openTemplate p'.template with e | ⟨d, start⟩
    · exact .refl _
    · dsimp only
      rw [Search.listing_bind, Search.listing_bind]
      refine .each false (.refl _) fun b _ => ?_
      have hclosed : (r.withoutProducer i j).closedUnder a.fuel d b =
          r.closedUnder a.fuel d b := rfl
      rw [hclosed]
      rcases r.closedUnder a.fuel d b with _ | _ | t
      · exact .refl _
      · exact .refl _
      · exact supplyAt_le hp hq hrequired hfill ⟨a.fuel, a.outer, a.place, b, t⟩ hnested

/-- **What a window gives does not depend on the producer.** The induction is on the depth of
nesting. -/
theorem searchWindow_le_withoutProducer (fuel : Nat) (outer : List Place) (ts : List Ty)
    (w : Window) :
    (r.searchWindow fuel ts w).listing.Le
      ((r.withoutProducer i j).windowVia ((r.withoutProducer i j).attemptVia
        (r.supplyOutside i j A)) fuel outer ts w).listing := by
  induction fuel generalizing outer ts w with
  | zero => exact .refl _
  | succ fuel ih =>
    have hselect : w.select (r.withoutProducer i j).patterns =
        (w.select r.patterns).map fun q => (q.1.withoutProducer i j q.2, q.2) :=
      w.select_mapIdx (Pattern.withoutProducer i j) r.patterns
    rw [searchWindow, tryPatterns_eq_attemptEach, windowVia, hselect, listing_attemptEach,
      listing_attemptEach, List.map_map]
    refine .concat (fun q : Pattern V × Nat => q.1.definitive) fun q' hq' => ?_
    obtain ⟨p', index⟩ := q'
    have hle := tryAt_le hp hq hrequired hfill ⟨fuel, outer, ⟨index, w⟩, ts⟩
      (ih (outer ++ [⟨index, w⟩]))
    rwa [tryAt, triedAt?_of_mem_select hq'] at hle

/-- Hence whole resolutions are compared, at the patterns and at the fallback. -/
theorem search_le_withoutProducer (fuel : Nat) :
    (r.search fuel candidates).listing.Le
      ((r.withoutProducer i j).searchVia ((r.withoutProducer i j).attemptVia
        (r.supplyOutside i j A)) fuel candidates).listing := by
  rw [search, searchVia, length_patterns_withoutProducer]
  dsimp only
  rw [Search.listing_orElse, Search.listing_orElse]
  refine .andThen true
    (searchWindow_le_withoutProducer hp hq hrequired hfill fuel [] candidates _) ?_
  have hfallback : (r.withoutProducer i j).fallback =
      r.fallback.map (Pattern.withoutProducer i j r.patterns.length) := rfl
  cases hp' : r.fallback with
  | none =>
    rw [searchFallback, hfallback, hp']
    exact .refl _
  | some p' =>
    rw [searchFallback_eq_tryAt (by rw [hp']; rfl), hfallback, hp']
    exact tryAt_le hp hq hrequired hfill _
      (searchWindow_le_withoutProducer hp hq hrequired hfill fuel _)

end Resolutions

/-- **A producer with a required parameter can be deleted**, if filling its parameters ends in no
error where the resolution comes to it. These are requests that the resolver makes without the
producer (`A`), and there is an error only if the calls up to the producer fail while those of the
producers in front of it do not. A resolution that comes to an end then delivers the same values
without the producer, ends in the same way and has the same list of all values. -/
theorem withoutProducer_resolves_alike {candidates : List Ty} {i j : Nat} {p : Pattern V}
    {q : Producer V} (hp : r.patternAt? i = some p) (hq : p.producers[j]? = some q)
    (hrequired : .required ∈ q.params) {fuel : Nat} {A : Request → Prop}
    (hrequests : (r.withoutProducer i j).RequestsOnly A fuel candidates)
    (hfill : ∀ request, A request → request.place.index = i →
      ∀ before, before ++ [(q, j)] <+: p.callOrder → ∀ e,
        ((r.callsAt request (before ++ [(q, j)])).run Search.takeAll).ending = some (.error e) →
          ((r.callsAt request before).run Search.takeAll).ending = some (.error e))
    (hend : (r.resolve fuel Search.takeAll candidates).ending ≠ none) :
    ((r.withoutProducer i j).resolve fuel Search.takeAll candidates).items =
        (r.resolve fuel Search.takeAll candidates).items ∧
      ((r.withoutProducer i j).resolve fuel Search.takeAll candidates).ending =
        (r.resolve fuel Search.takeAll candidates).ending ∧
      (r.withoutProducer i j).allValues fuel candidates = r.allValues fuel candidates := by
  classical
  obtain ⟨hitems, hending⟩ := Search.run_takeAll (r.search fuel candidates)
  obtain ⟨hitems', hending'⟩ :=
    Search.run_takeAll ((r.withoutProducer i j).search fuel candidates)
  have hlisting : ((r.withoutProducer i j).search fuel candidates).listing =
      (r.search fuel candidates).listing := by
    rw [resolve, hending] at hend
    rw [← hrequests (r.supplyOutside i j A) fun _ _ hA => if_pos hA]
    refine (search_le_withoutProducer hp hq hrequired ?_ fuel).eq_of_ending hend
    intro request hA hindex before hbefore e
    have h := hfill request hA hindex before hbefore e
    rwa [(Search.run_takeAll _).2, (Search.run_takeAll _).2, Listing.ending_eq_error_iff,
      Listing.ending_eq_error_iff] at h
  rw [hlisting] at hitems' hending'
  refine ⟨hitems'.trans hitems.symm, hending'.trans hending.symm, ?_⟩
  rw [allValues_eq_outcome, allValues_eq_outcome, hlisting]

end Resolver

/-- Counts 1 for whatever it is given. The first producer is never called, as nothing fills its
second parameter; for the first parameter it asks for what the other pattern builds, or fails to. -/
def oneCounter (outcome : Except Failure Nat) : Resolver Nat where
  catalog := .empty
  patterns := [
    { template := .definition rankZero
      slots := [⟨[.wildcard], false⟩]
      producers := [
        .ofConstructor
          [.specialize { types := [.definition rankZero []], direction := .following } false,
            .required]
          false fun _ _ => .answer (.ok 0),
        .ofConstructor [] false fun _ _ => .answer (.ok 1)]
      definitive := true },
    { template := .definition rankInterface
      slots := [⟨[.wildcard], false⟩]
      producers := [.ofConstructor [] false fun _ _ => .answer outcome] }]

/-- A failure that nobody expects. -/
def noneLeft : Failure := ⟨.custom "leaf", "none left"⟩

/-- Before anything is asked for that cannot be built, another pattern has counted 1, for good. -/
def guardedCounter : Resolver Nat :=
  { oneCounter (.error noneLeft) with
    patterns :=
      { template := .definition rankZero
        slots := [⟨[.wildcard], false⟩]
        producers := [.ofConstructor [] false fun _ _ => .answer (.ok 1)]
        definitive := true } :: (oneCounter (.error noneLeft)).patterns }

/-- Without the producer, and with it, the first pattern is the only one that is attempted. -/
theorem guardedCounter_requestsOnly :
    (guardedCounter.withoutProducer 1 0).RequestsOnly (fun request => request.place.index = 0) 3
      [.nominal rankZero] := by
  intro supply hsupply
  -- the first pattern gives something and is definitive, so its own attempt is the resolution
  have hfirst : ∀ fuel nested, (guardedCounter.withoutProducer 1 0).attemptVia supply
      ⟨fuel, [], ⟨0, .whole 3⟩, [.nominal rankZero]⟩ nested =
        (guardedCounter.withoutProducer 1 0).tryAt
          ⟨fuel, [], ⟨0, .whole 3⟩, [.nominal rankZero]⟩ nested := by
    intro fuel nested
    refine Resolver.attemptVia_eq_tryAt ?_
    rintro _ ⟨-, -, -, -⟩
    exact hsupply _ _ rfl
  change Search.orElse (Search.andThen true ((guardedCounter.withoutProducer 1 0).attemptVia supply
      ⟨2, [], ⟨0, .whole 3⟩, [.nominal rankZero]⟩ _) _) _ = _
  rw [hfirst]
  rfl

/-- What the first producer asks for can be built, so the producer can be deleted. So it can be
where what it asks for cannot be built, but is never asked for. -/
theorem oneCounter_resolves_alike :
    ((oneCounter (.ok 7)).allValues 3 [.nominal rankZero] = some (.ok [1]) ∧
      ((oneCounter (.ok 7)).withoutProducer 0 0).allValues 3 [.nominal rankZero] =
        (oneCounter (.ok 7)).allValues 3 [.nominal rankZero]) ∧
      guardedCounter.allValues 3 [.nominal rankZero] = some (.ok [1]) ∧
      (guardedCounter.withoutProducer 1 0).allValues 3 [.nominal rankZero] =
        guardedCounter.allValues 3 [.nominal rankZero] := by
  have hend : ((oneCounter (.ok 7)).resolve 3 Search.takeAll [.nominal rankZero]).ending =
      some (.ok .finished) := rfl
  have hend' : (guardedCounter.resolve 3 Search.takeAll [.nominal rankZero]).ending =
      some (.ok .finished) := rfl
  -- without the producer there are no directives, so the whole resolution is the only one
  have hdirectives : ∀ p ∈ ((oneCounter (.ok 7)).withoutProducer 0 0).patterns, p.directives = [] :=
    List.forall_mem_cons.mpr ⟨rfl, List.forall_mem_singleton.mpr rfl⟩
  refine ⟨⟨rfl, ?_⟩, rfl, ?_⟩
  · refine ((oneCounter (.ok 7)).withoutProducer_resolves_alike (i := 0) (j := 0) rfl rfl
      (List.mem_cons_of_mem _ List.mem_cons_self) (Resolver.requestsOnly_attempts _ 3 _) ?_
      (by rw [hend]; exact nofun)).2.2
    rintro ⟨fuel, outer, ⟨index, w⟩, b, t⟩ hattempts hindex before hbefore e
    obtain rfl : index = 0 := hindex
    cases hattempts with
    | pattern h =>
      cases h with
      | fallback hp => cases hp
      | nested _ hp _ _ hd =>
        rw [hdirectives _ (List.mem_of_getElem? (Window.mem_select_iff.mp hp).1)] at hd
        cases hd
      | whole =>
        -- the producer is the first one to be called
        obtain rfl : before = [] := by
          rcases before with _ | ⟨q, _ | ⟨q', before⟩⟩
          · rfl
          · obtain ⟨-, hsecond⟩ := List.cons_prefix_cons.mp hbefore
            exact absurd (congrArg Prod.snd (List.cons_prefix_cons.mp hsecond).1) Nat.zero_ne_one
          · obtain ⟨-, hsecond⟩ := List.cons_prefix_cons.mp hbefore
            obtain ⟨-, hthird⟩ := List.cons_prefix_cons.mp hsecond
            exact absurd (List.append_eq_nil_iff.mp (List.prefix_nil.mp hthird)).2
              (List.cons_ne_nil _ _)
        cases fuel with
        | zero => exact nofun
        | succ fuel => exact nofun
  · exact (guardedCounter.withoutProducer_resolves_alike (i := 1) (j := 0) rfl rfl
      (List.mem_cons_of_mem _ List.mem_cons_self) guardedCounter_requestsOnly
      (fun _ hfirst hsecond => absurd (hfirst.symm.trans hsecond) Nat.zero_ne_one)
      (by rw [hend']; exact nofun)).2.2

/-- **A filling that is of no use fails**, and the resolution with it. Without the producer that it
was for, there is a value. -/
theorem uselessFilling_fails :
    (∃ p q, (oneCounter (.error noneLeft)).patternAt? 0 = some p ∧ p.producers[0]? = some q ∧
        .required ∈ q.params) ∧
      (oneCounter (.error noneLeft)).allValues 3 [.nominal rankZero] =
        some (.error (.producer (.nominal rankInterface) noneLeft)) ∧
      ((oneCounter (.error noneLeft)).withoutProducer 0 0).allValues 3 [.nominal rankZero] =
        some (.ok [1]) :=
  ⟨⟨_, _, rfl, rfl, List.mem_cons_of_mem _ List.mem_cons_self⟩, rfl, rfl⟩

end TypeResolution

import TypeResolution.Proofs.Search.Within
import TypeResolution.Resolver.Resolution

/-!
# Windows, and what is resolved in them

A window is a range of positions of the pattern list, and a directive cuts the window of a nested
resolution out of the global range of the window before. The first section says what is cut:

* a pattern is selected by a window exactly if its position lies in the range (`mem_select_iff`);
* the direction of a directive decides on which side of the pattern the new range lies
  (`lt_directed_start`, `directed_stop_le`, `directed_of_any`);
* the global range only shrinks (`directed_globalRange`), and it shrinks at global directives alone
  (`directed_of_isGlobal`, `directed_of_not_isGlobal`).

The other sections follow a pattern that is tried at a place. How nested resolutions run is a
parameter of everything that happens there, so what these report can be assumed, and it has to be
assumed of the windows only that the directives of the pattern derive. The bounds are then kept by
every way of filling parameters (`within_argLists`), by every call (`within_call`) and by the
pattern as a whole (`within_tryPattern`).
-/

namespace TypeResolution

/-! ## Windows -/

namespace Window

variable {w : Window} {i : Nat} {d : Directive}

/-- A window selects what stands in its range, each element with the position that it has in the
whole list. The two positions of a window are cut off one after the other, so what is left is found
by its distance from the start. -/
theorem mem_select_iff {α : Type} {as : List α} {a : α} :
    (a, i) ∈ w.select as ↔ as[i]? = some a ∧ w.start ≤ i ∧ i < w.stop := by
  have hat : ∀ j, ((as.zipIdx.take w.stop).drop w.start)[j]? = some (a, i) ↔
      w.start + j < w.stop ∧ as[i]? = some a ∧ w.start + j = i := by
    intro j
    rw [List.getElem?_drop, List.getElem?_take, List.getElem?_zipIdx]
    split
    · next hlt =>
      simp only [Nat.zero_add, Option.map_eq_some_iff, Prod.mk.injEq, hlt, true_and]
      constructor
      · rintro ⟨b, hb, rfl, rfl⟩
        exact ⟨hb, rfl⟩
      · rintro ⟨ha, rfl⟩
        exact ⟨a, ha, rfl, rfl⟩
    · next hle => exact iff_of_false nofun fun h => hle h.1
  rw [select, List.mem_iff_getElem?]
  constructor
  · rintro ⟨j, hj⟩
    obtain ⟨hlt, ha, rfl⟩ := (hat j).mp hj
    exact ⟨ha, Nat.le_add_right _ _, hlt⟩
  · rintro ⟨ha, hstart, hstop⟩
    have hsum := Nat.add_sub_cancel' hstart
    exact ⟨i - w.start, (hat _).mpr ⟨hsum.symm ▸ hstop, ha, hsum⟩⟩

/-- A derived window starts where the global range does, or behind the pattern if it is to follow
and stands inside. -/
theorem directed_start (w : Window) (i : Nat) (d : Directive) :
    (w.directed i d).start =
      match d.direction with
      | .following => max w.globalStart (i + 1)
      | _ => w.globalStart := by
  rw [directed]
  split <;> rfl

/-- A derived window ends where the global range does, or in front of the pattern if it is to
precede and stands inside. -/
theorem directed_stop (w : Window) (i : Nat) (d : Directive) :
    (w.directed i d).stop =
      match d.direction with
      | .preceding => min w.globalStop i
      | _ => w.globalStop := by
  rw [directed]
  split <;> rfl

/-- The window of a global directive is the global range from then on. -/
theorem directed_of_isGlobal (h : d.isGlobal = true) :
    (w.directed i d).globalStart = (w.directed i d).start ∧
      (w.directed i d).globalStop = (w.directed i d).stop := by
  rw [directed, if_pos h]
  exact ⟨rfl, rfl⟩

/-- Other directives leave the global range as it is. -/
theorem directed_of_not_isGlobal (h : d.isGlobal = false) :
    (w.directed i d).globalStart = w.globalStart ∧
      (w.directed i d).globalStop = w.globalStop := by
  rw [directed, if_neg (by rw [h]; exact Bool.false_ne_true)]
  exact ⟨rfl, rfl⟩

/-- Every window is cut from the global range of the window before, which need not be the range of
that window. -/
theorem directed_in_globalRange (w : Window) (i : Nat) (d : Directive) :
    w.globalStart ≤ (w.directed i d).start ∧ (w.directed i d).stop ≤ w.globalStop := by
  rw [directed_start, directed_stop]
  constructor
  · split
    · exact Nat.le_max_left _ _
    · exact Nat.le_refl _
  · split
    · exact Nat.min_le_left _ _
    · exact Nat.le_refl _

/-- The global range only shrinks: it stays as it is, or it becomes the window that was cut from
it. -/
theorem directed_globalRange (w : Window) (i : Nat) (d : Directive) :
    w.globalStart ≤ (w.directed i d).globalStart ∧ (w.directed i d).globalStop ≤ w.globalStop := by
  cases h : d.isGlobal with
  | false =>
    obtain ⟨hstart, hstop⟩ := directed_of_not_isGlobal (w := w) (i := i) h
    rw [hstart, hstop]
    exact ⟨Nat.le_refl _, Nat.le_refl _⟩
  | true =>
    obtain ⟨hstart, hstop⟩ := directed_of_isGlobal (w := w) (i := i) h
    rw [hstart, hstop]
    exact directed_in_globalRange w i d

/-- What is to follow a pattern starts behind it, wherever the global range does. -/
theorem lt_directed_start (h : d.direction = .following) : i < (w.directed i d).start := by
  rw [directed_start, h]
  exact Nat.le_max_right _ _

/-- What is to precede a pattern ends in front of it. -/
theorem directed_stop_le (h : d.direction = .preceding) : (w.directed i d).stop ≤ i := by
  rw [directed_stop, h]
  exact Nat.min_le_right _ _

/-- A directive without a direction gives the whole global range, the part that the pattern stands
in included. So a nested window may be wider than the one that the pattern was reached through. -/
theorem directed_of_any (h : d.direction = .any) :
    (w.directed i d).start = w.globalStart ∧ (w.directed i d).stop = w.globalStop := by
  rw [directed_start, directed_stop, h]
  exact ⟨rfl, rfl⟩

end Window

/-! ## Directives -/

/-- The directives of a pattern's producers. -/
def Pattern.directives {V : Type} (p : Pattern V) : List Directive :=
  (p.producers.flatMap (·.params)).filterMap Parameter.directive?

/-- Only the pattern's own producers are called. -/
theorem Pattern.mem_producers_of_mem_callOrder {V : Type} {p : Pattern V} {q : Producer V × Nat}
    (hq : q ∈ p.callOrder) : q.1 ∈ p.producers := by
  have hzip : q ∈ p.producers.zipIdx :=
    (List.mem_append.mp hq).elim List.mem_of_mem_filter List.mem_of_mem_filter
  exact List.fst_mem_of_mem_zipIdx hzip

/-- The directives of a producer are among those of its pattern. -/
theorem Pattern.mem_directives {V : Type} {p : Pattern V} {producer : Producer V}
    (hproducer : producer ∈ p.producers) {d : Directive}
    (hd : d ∈ producer.params.filterMap Parameter.directive?) : d ∈ p.directives := by
  obtain ⟨param, hparam, hdirective⟩ := List.mem_filterMap.mp hd
  exact List.mem_filterMap.mpr
    ⟨param, List.mem_flatMap.mpr ⟨producer, hproducer, hparam⟩, hdirective⟩

/-- What a directive asks for is among the constraints that a pattern is validated for. -/
theorem Pattern.types_subset_directiveConstraints {V : Type} {p : Pattern V} {d : Directive}
    (hd : d ∈ p.directives) : ∀ k ∈ d.types, k ∈ p.directiveConstraints :=
  fun _ hk => List.mem_flatMap.mpr ⟨d, hd, hk⟩

namespace Resolver

variable {V : Type} (r : Resolver V)

/-! ## Positions -/

/-- Resolving in a window tries the pattern at a position. -/
def Tries (w : Window) (index : Nat) : Prop := ∃ p, (p, index) ∈ w.select r.patterns

/-- The pattern at a position. The fallback stands behind the last one. -/
def patternAt? (index : Nat) : Option (Pattern V) :=
  if index = r.patterns.length then r.fallback else r.patterns[index]?

variable {r}

/-- Only patterns of the list are tried, and only those that the window leaves. -/
theorem Tries.bounds {w : Window} {index : Nat} (h : r.Tries w index) :
    index < r.patterns.length ∧ w.start ≤ index ∧ index < w.stop := by
  obtain ⟨p, hp⟩ := h
  obtain ⟨hindex, hstart, hstop⟩ := Window.mem_select_iff.mp hp
  exact ⟨(List.getElem?_eq_some_iff.mp hindex).1, hstart, hstop⟩

end Resolver

/-! ## What a pattern reports

The bounds `P` are those of the events. Of the items of a search only the filled parameters are
followed, as a sequence among them is resolved later, when the producer drives it: its window has to
be known until then (`InDerivedWindows`). -/

open Search

/-- A call is within bounds if its drives are: between the drives the producer computes without
reporting anything. The induction follows the interaction of the call. -/
theorem Production.within_run {V ν ε α : Type} {P : ν → Prop}
    {perform : Nat → (List V → Bool) → Search ν ε (Driven V)}
    (h : ∀ position stop, (perform position stop).Within P fun _ => True) (p : Production V α) :
    (p.run perform).Within P fun _ => True := by
  induction p with
  | answer a => exact within_single trivial
  | drive position stop next ih => exact (h position stop).bind fun d _ => ih d

namespace Resolver

variable {V : Type} {r : Resolver V}

/-- Of the filled parameters, the sequences are to be resolved in windows that these directives
derive. -/
def InDerivedWindows (place : Place) (ds : List Directive) (args : List (Filled V)) : Prop :=
  ∀ candidates window, .sequence candidates window ∈ args →
    ∃ d ∈ ds, window = place.window.directed place.index d

section

variable (fuel : Nat) {nested : Nested V} {P : Event V → Prop} {place : Place}

/-- A parameter that is not a sequence is filled with values of its nested resolution, or with the
default, but with no further sequence. -/
theorem within_fillings {candidates : List Ty} {window : Window}
    (hn : (nested candidates window).Within P fun _ => True) (hasDefault : Bool) :
    (fillings nested candidates window hasDefault).Within P fun arg =>
      ∀ candidates window, arg ≠ .sequence candidates window := by
  have hvalues : ((nested candidates window).map Filled.value).Within P fun arg =>
      ∀ candidates window, arg ≠ .sequence candidates window := hn.map fun v _ => nofun
  rw [fillings]
  cases hasDefault with
  | false => exact hvalues
  | true => exact hvalues.orElse (within_single nofun)

/-- Parameters are filled by resolutions in derived windows, and sequences are left in such
windows. The induction is on the parameters. One that is filled now hands its values on to the ways
of filling the rest; one that is filled later, a sequence, keeps its window for the call. -/
theorem within_argLists (b : Bindings) {params : List Parameter}
    (hn : ∀ d ∈ params.filterMap Parameter.directive?, ∀ candidates,
      (nested candidates (place.window.directed place.index d)).Within P fun _ => True) :
    (r.argLists fuel nested place b params).Within P
      (InDerivedWindows place (params.filterMap Parameter.directive?)) := by
  induction params with
  | nil => exact within_single fun _ _ h => absurd h List.not_mem_nil
  | cons param params ih =>
    cases param with
    | required => trivial
    | optional =>
      -- nothing is filled in, so all sequences are among the rest
      refine (ih hn).map ?_
      intro args hargs candidates window hmem
      exact hargs candidates window ((List.mem_cons.mp hmem).resolve_left nofun)
    | specialize d hasDefault =>
      have hd : d ∈ (Parameter.specialize d hasDefault :: params).filterMap Parameter.directive? :=
        List.mem_cons_self
      have hrest := ih fun d' hd' => hn d' (List.mem_cons_of_mem d hd')
      have hcons : ∀ (arg : Filled V) args,
          (∀ candidates window, arg = .sequence candidates window →
          window = place.window.directed place.index d) →
          InDerivedWindows place (params.filterMap Parameter.directive?) args →
          InDerivedWindows place
            ((Parameter.specialize d hasDefault :: params).filterMap Parameter.directive?)
            (arg :: args) := by
        intro arg args harg hargs candidates window hmem
        rcases List.mem_cons.mp hmem with heq | hmem
        · exact ⟨d, hd, harg candidates window heq.symm⟩
        · obtain ⟨d', hd', hwindow⟩ := hargs candidates window hmem
          exact ⟨d', List.mem_cons_of_mem d hd', hwindow⟩
      rw [argLists]
      rcases Constraint.requireTypes r.catalog fuel b d.types with _ | e | candidates
      · trivial
      · trivial
      · dsimp only
        split
        · refine hrest.map ?_
          intro args hargs
          refine hcons _ args ?_ hargs
          intro _ _ heq
          exact (Filled.sequence.inj heq).2.symm
        · refine (within_fillings (hn d hd candidates) hasDefault).choose d.definitive ?_
          intro arg harg
          refine hrest.map ?_
          intro args hargs
          refine hcons arg args ?_ hargs
          intro candidates' window' heq
          exact absurd heq (harg candidates' window')

/-- A drive resolves in the window that the sequence has kept, which is one of those that the
directives derive. A position without a sequence resolves nothing. -/
theorem within_driveArg {ds : List Directive} (hn : ∀ d ∈ ds, ∀ candidates,
      (nested candidates (place.window.directed place.index d)).Within P fun _ => True)
    {args : List (Filled V)} (hargs : InDerivedWindows place ds args) (position : Nat)
    (stop : List V → Bool) : (driveArg nested args position stop).Within P fun _ => True := by
  rw [driveArg]
  rcases harg : args[position]? with _ | v | _ | ⟨candidates, window⟩
  · exact within_single trivial
  · exact within_single trivial
  · exact within_single trivial
  · obtain ⟨d, hd, rfl⟩ := hargs candidates window (List.mem_of_getElem? harg)
    exact ((hn d hd candidates).gather stop []).map fun _ _ => trivial

section

variable (hcall : ∀ call : Call V, call.pattern = place.index → P (.invoked call))
  (hreturned : ∀ outcome, P (.returned outcome))

include hcall hreturned

/-- A call reports itself, what its drives report, and that it came back. What it gives is passed on
without an event. -/
theorem within_call {ds : List Directive} (hn : ∀ d ∈ ds, ∀ candidates,
      (nested candidates (place.window.directed place.index d)).Within P fun _ => True)
    (t : Ty) (producer : Producer V × Nat) {args : List (Filled V)}
    (hargs : InDerivedWindows place ds args) :
    (r.call nested place t producer args).Within P fun _ => True := by
  rw [call]
  refine ⟨hcall _ rfl, ?_⟩
  refine (Production.within_run (within_driveArg hn hargs) _).bind fun outcome _ => ?_
  refine ⟨hreturned outcome, ?_⟩
  cases outcome with
  | ok values => exact within_ofList fun _ _ => trivial
  | error failure =>
    rw [deliver]
    split <;> trivial

/-- Calling producers one after another reports what each of them does for each way of filling its
parameters. A definitive producer only leaves calls out, so pruning needs no argument of its own. -/
theorem within_callAll (b : Bindings) (t : Ty) {producers : List (Producer V × Nat)}
    (hn : ∀ q ∈ producers, ∀ d ∈ q.1.params.filterMap Parameter.directive?, ∀ candidates,
      (nested candidates (place.window.directed place.index d)).Within P fun _ => True) :
    (r.callAll fuel nested place b t producers).Within P fun _ => True := by
  induction producers with
  | nil => trivial
  | cons q rest ih =>
    obtain ⟨hq, hrest⟩ := List.forall_mem_cons.mp hn
    have hcalls : ((r.argLists fuel nested place b q.1.params).bind
        (r.call nested place t q)).Within P fun _ => True :=
      (within_argLists fuel b hq).bind fun args hargs => within_call hcall hreturned hq t q hargs
    exact hcalls.andThen q.1.definitive (ih hrest)

variable {p : Pattern V} (hn : ∀ d ∈ p.directives, ∀ candidates,
  (nested candidates (place.window.directed place.index d)).Within P fun _ => True)

include hn

/-- Under given bindings, a pattern reports nothing unless these close its template, and then only
what its producers report. -/
theorem within_valuesOf (d : DefIndex) (b : Bindings) :
    (r.valuesOf fuel nested place p d b).Within P fun _ => True := by
  rw [valuesOf]
  rcases r.closedUnder fuel d b with _ | _ | t
  · trivial
  · trivial
  · refine within_callAll fuel hcall hreturned b t fun q hq d hd => hn d ?_
    exact Pattern.mem_directives (Pattern.mem_producers_of_mem_callOrder hq) hd

/-- **A pattern resolves again only in windows that its directives derive**: if these resolutions
report what is allowed, then so does the pattern, which itself reports calls at its place. -/
theorem within_tryPattern (candidates : List Ty) :
    (r.tryPattern fuel nested place candidates p).Within P fun _ => True := by
  rw [tryPattern]
  rcases r.openTemplate p.template with e | ⟨d, b⟩
  · trivial
  · have hslots := silent_slotBindings (ν := Event V) r.catalog fuel p.slots candidates b
    exact hslots.within.bind fun b _ => within_valuesOf fuel hcall hreturned hn d b

end

/-- What patterns report one after another is what each of them reports at its place in the window.
-/
theorem within_tryPatterns {window : Window} {candidates : List Ty}
    {patterns : List (Pattern V × Nat)}
    (h : ∀ q ∈ patterns, (r.tryPattern fuel nested ⟨q.2, window⟩ candidates q.1).Within P
      fun _ => True) :
    (r.tryPatterns fuel nested window candidates patterns).Within P fun _ => True := by
  induction patterns with
  | nil => trivial
  | cons q rest ih =>
    obtain ⟨hq, hrest⟩ := List.forall_mem_cons.mp h
    exact hq.andThen q.1.definitive (ih hrest)

end
end Resolver

end TypeResolution

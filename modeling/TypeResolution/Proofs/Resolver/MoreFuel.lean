import TypeResolution.Proofs.Unification.MoreFuel
import TypeResolution.Resolver.Resolution

/-!
# More fuel for resolutions

A resolution under more fuel goes on where it lacked fuel before. Nested resolutions are a parameter
of all that lies between two levels of nesting, so each step is shown for any two of them of which
the second goes on where the first stops; `searchWindow_le` then feeds itself in.

The fuel of a resolution is used twice: it bounds the depth of nesting, and what is left at each
level bounds the questions about the catalog that are asked there. Both grow together here. What
comes of it are the two laws that make fuel a matter of having enough: a listing that came to its
end is the same under more fuel, and a run that came to its end has the same record.
-/

namespace TypeResolution

variable {V : Type}

/-- A call goes on under more fuel, provided its drives do. -/
theorem Production.run_le {ν ε α : Type} {perform perform' : Nat → (List V → Bool) → Search ν ε _}
    (h : ∀ position stop, (perform position stop).Le (perform' position stop))
    (p : Production V α) : (p.run perform).Le (p.run perform') := by
  induction p with
  | answer a => exact .refl _
  | drive position stop next ih => exact (h position stop).bind fun d => ih d

namespace Resolver

variable (r : Resolver V) {n m : Nat}

section

variable {nested nested' : Nested V}
  (hn : ∀ candidates window, (nested candidates window).Le (nested' candidates window))

include hn

/-- A parameter is filled from a nested resolution, or by its default if that comes to its end
without a value. Without enough fuel the nested resolution does not come to its end, and the default
is not taken too early. -/
theorem fillings_le (candidates : List Ty) (window : Window) (hasDefault : Bool) :
    (fillings nested candidates window hasDefault).Le
      (fillings nested' candidates window hasDefault) := by
  have hvalues := (hn candidates window).map Filled.value
  rw [fillings, fillings]
  cases hasDefault with
  | false => exact hvalues
  | true => exact hvalues.orElse (.refl _)

/-- Every way of filling the parameters so far goes on with the same ways of filling the rest. -/
theorem argLists_le (h : n ≤ m) (place : Place) (b : Bindings) (params : List Parameter) :
    (r.argLists n nested place b params).Le (r.argLists m nested' place b params) := by
  induction params with
  | nil => exact .refl _
  | cons param params ih =>
    cases param with
    | required => exact .refl _
    | optional => exact ih.map _
    | specialize directive hasDefault =>
      rw [argLists, argLists]
      -- without the candidates of the directive nothing is filled at all
      rcases (Constraint.requireTypes_le r.catalog h b directive.types).none_or_some
        with hr | ⟨required, hr, hr'⟩
      · rw [hr]
        exact .exhausted _
      · rw [hr, hr']
        cases required with
        | error e => exact .refl _
        | ok candidates =>
          dsimp only
          split
          · exact ih.map _
          · exact (fillings_le hn candidates _ hasDefault).choose directive.definitive
              fun arg => ih.map _

/-- A drive is a nested resolution, run by a consumer that is the same in both. -/
theorem driveArg_le (args : List (Filled V)) (position : Nat) (stop : List V → Bool) :
    (driveArg nested args position stop).Le (driveArg nested' args position stop) := by
  rw [driveArg, driveArg]
  rcases args[position]? with _ | v | _ | ⟨candidates, window⟩
  · exact .refl _
  · exact .refl _
  · exact .refl _
  · exact ((hn candidates window).gather stop []).map _

/-- A call makes the same drives, and is told more by them only where it lacked fuel. -/
theorem call_le (place : Place) (t : Ty) (producer : Producer V × Nat) (args : List (Filled V)) :
    (r.call nested place t producer args).Le (r.call nested' place t producer args) := by
  rw [call, call]
  exact .event _ ((Production.run_le (driveArg_le hn args) _).bind fun _ => .refl _)

/-- Producers are called one after another, and a definitive one prunes what it pruned before. -/
theorem callAll_le (h : n ≤ m) (place : Place) (b : Bindings) (t : Ty)
    (producers : List (Producer V × Nat)) :
    (r.callAll n nested place b t producers).Le (r.callAll m nested' place b t producers) := by
  induction producers with
  | nil => exact .refl _
  | cons producer rest ih =>
    exact ((argLists_le r hn h place b producer.1.params).bind
      (call_le r hn place t producer)).andThen producer.1.definitive ih

/-- The template is closed to the same type, for which the same producers are called. -/
theorem valuesOf_le (h : n ≤ m) (place : Place) (p : Pattern V) (d : DefIndex) (b : Bindings) :
    (r.valuesOf n nested place p d b).Le (r.valuesOf m nested' place p d b) := by
  have hclosed : (r.closedUnder n d b).Le (r.closedUnder m d b) := by
    rw [closedUnder, closedUnder]
    cases boundArgs? b (r.catalog.definition d).params with
    | none => exact .refl _
    | some args => exact (r.catalog.instantiate_le h d args).map _
  rw [valuesOf, valuesOf]
  rcases hclosed.none_or_some with hc | ⟨closed, hc, hc'⟩
  · rw [hc]
    exact .exhausted _
  · rw [hc, hc']
    cases closed with
    | none => exact .refl _
    | some t => exact callAll_le r hn h place b t p.callOrder

/-- A pattern finds the same solutions of its slots, in the same order, and goes on with each. -/
theorem tryPattern_le (h : n ≤ m) (place : Place) (candidates : List Ty) (p : Pattern V) :
    (r.tryPattern n nested place candidates p).Le
      (r.tryPattern m nested' place candidates p) := by
  rw [tryPattern, tryPattern]
  rcases r.openTemplate p.template with e | ⟨d, b⟩
  · exact .refl _
  · exact (slotBindings_le r.catalog h p.slots candidates b).bind fun b =>
      valuesOf_le r hn h place p d b

/-- The patterns of a window are tried in the same order. -/
theorem tryPatterns_le (h : n ≤ m) (window : Window) (candidates : List Ty)
    (patterns : List (Pattern V × Nat)) :
    (r.tryPatterns n nested window candidates patterns).Le
      (r.tryPatterns m nested' window candidates patterns) := by
  induction patterns with
  | nil => exact .refl _
  | cons q rest ih =>
    obtain ⟨p, index⟩ := q
    exact (tryPattern_le r hn h ⟨index, window⟩ candidates p).andThen p.definitive ih

end

/-- **A nested resolution goes on under more fuel** where it lacked fuel before. The induction is on
the depth of nesting. -/
theorem searchWindow_le (h : n ≤ m) (candidates : List Ty) (window : Window) :
    (r.searchWindow n candidates window).Le (r.searchWindow m candidates window) := by
  induction n generalizing m candidates window with
  | zero => exact .exhausted _
  | succ n ih =>
    obtain ⟨m, rfl⟩ : ∃ k, m = k + 1 := ⟨m - 1, by omega⟩
    exact tryPatterns_le r (fun candidates window => ih (by omega) candidates window) (by omega)
      window candidates _

/-- The fallback is found again with all that is nested in it. -/
theorem searchFallback_le (h : n ≤ m) : (r.searchFallback n).Le (r.searchFallback m) := by
  rw [searchFallback, searchFallback]
  cases r.fallback with
  | none => exact .refl _
  | some p =>
    dsimp only
    rcases r.openTemplate p.template with e | ⟨d, b⟩
    · exact .refl _
    · exact valuesOf_le r (searchWindow_le r h) h _ p d b

/-- **A resolution goes on under more fuel** where it lacked fuel before, and is the same search
otherwise. -/
theorem search_le (h : n ≤ m) (candidates : List Ty) :
    (r.search n candidates).Le (r.search m candidates) :=
  (r.searchWindow_le h candidates _).orElse (r.searchFallback_le h)

end Resolver

end TypeResolution

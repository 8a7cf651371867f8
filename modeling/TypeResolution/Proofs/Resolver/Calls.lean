import TypeResolution.Proofs.Search.Trace
import TypeResolution.Proofs.Unification.Silent
import TypeResolution.Resolver.Resolution

/-!
# The record of calls

Every call is bracketed by two events, and calls that happen while a producer drives its sequences
lie between the two events of its own call. Two invariants of searches say so:

* `Bracketed`: whenever an item is found, and at the end, every call has come back, and if the fuel
  runs out, then at least nothing comes back that was not called;
* `Attributed`: right before an item stands the return of the call that made it, with the calls it
  drove between its two events, and behind that return only items of the same call.

`call_shape` describes what a single call does; both invariants of whole resolutions follow from it,
along the combinators.

The brackets need not match one to one with producers that were called: an event that says a call
came back does not name the call. It is the latest one that is still open, and that there is such a
one is what being balanced says. Fuel may run out in the middle of a call, so a record that was cut
short is only a beginning of a balanced one (`Underway`).
-/

namespace TypeResolution

variable {V ε α β : Type}

/-! ## Balanced records

A record of calls is a word over two kinds of brackets, and `Balanced` is its grammar. The lemmas
are those of any such language: balanced words may be put one behind the other, and behind a
balanced word another may be underway. -/

/-- A record in which every call comes back, and calls made inside a call come back before it. -/
inductive Balanced : List (Event V) → Prop where
  /-- nothing happened -/
  | nil : Balanced []
  /-- a call, what happened inside it, and what happened behind it -/
  | call (call : Call V) (outcome : Except Failure (List V)) {inner rest : List (Event V)}
      (hinner : Balanced inner) (hrest : Balanced rest) :
      Balanced (.invoked call :: inner ++ .returned outcome :: rest)

/-- Two balanced records in a row are balanced. -/
theorem Balanced.append {es fs : List (Event V)} (h : Balanced es) (hf : Balanced fs) :
    Balanced (es ++ fs) := by
  induction h with
  | nil => exact hf
  | call call outcome hinner hrest _ ih =>
    have h := Balanced.call call outcome hinner ih
    simpa using h

/-- The beginning of a balanced record: calls may be open, but what comes back was called in it. -/
inductive Underway : List (Event V) → Prop where
  /-- nothing happened -/
  | nil : Underway []
  /-- a call that has come back, and what happened behind it -/
  | call (call : Call V) (outcome : Except Failure (List V)) {inner rest : List (Event V)}
      (hinner : Balanced inner) (hrest : Underway rest) :
      Underway (.invoked call :: inner ++ .returned outcome :: rest)
  /-- a call that is open, and what has happened inside it -/
  | inside (call : Call V) {inner : List (Event V)} (hinner : Underway inner) :
      Underway (.invoked call :: inner)

/-- Behind a balanced record another may be underway. -/
theorem Balanced.append_underway {es fs : List (Event V)} (h : Balanced es) (hf : Underway fs) :
    Underway (es ++ fs) := by
  induction h with
  | nil => exact hf
  | call call outcome hinner hrest _ ih =>
    have h := Underway.call call outcome hinner ih
    simpa using h

namespace Search

/-! ## Calls come back before items are found

The invariant is stated of a search with the events `before` that happened since the last item. The
combinators of a search respect it with no events before, since they only put whole searches one
behind the other; `Bracketed.behind` takes it back into the middle of a search. -/

/-- With the record `before` in front, every call has come back whenever an item is found and when
the search ends. Lack of fuel may leave calls open. -/
def Bracketed : (before : List (Event V)) → Search (Event V) ε α → Prop
  | before, .done => Balanced before
  | before, .failed _ => Balanced before
  | before, .exhausted => Underway before
  | before, .event e rest => Bracketed (before ++ [e]) (rest ())
  | before, .found _ rest => Balanced before ∧ Bracketed [] (rest ())

/-- What happened before may be put in front, if it is balanced by itself. -/
theorem Bracketed.prepend {es before : List (Event V)} (hes : Balanced es)
    {s : Search (Event V) ε α} (h : Bracketed before s) : Bracketed (es ++ before) s := by
  induction s generalizing before with
  | done => exact hes.append h
  | failed e => exact hes.append h
  | exhausted => exact hes.append_underway h
  | event e rest ih =>
    rw [Bracketed, List.append_assoc]
    exact ih () h
  | found a rest ih => exact ⟨hes.append h.1, h.2⟩

/-- What is bracketed on its own is so behind a balanced record. -/
theorem Bracketed.behind {es : List (Event V)} (hes : Balanced es) {s : Search (Event V) ε α}
    (h : Bracketed [] s) : Bracketed es s := by
  simpa using h.prepend hes

/-- A search behind another one starts anew, with no call left open. -/
theorem Bracketed.append {before : List (Event V)} {s : Search (Event V) ε α}
    (h : Bracketed before s) {t : Unit → Search (Event V) ε α} (ht : Bracketed [] (t ())) :
    Bracketed before (s.append t) := by
  induction s generalizing before with
  | done => exact ht.behind h
  | failed e => exact h
  | exhausted => exact h
  | event e rest ih => exact ih () h
  | found a rest ih => exact ⟨h.1, ih () h.2⟩

/-- So does one to fall back on: the first has come to its end, so its calls have come back. -/
theorem Bracketed.orElse {before : List (Event V)} {s : Search (Event V) ε α}
    (h : Bracketed before s) {t : Unit → Search (Event V) ε α} (ht : Bracketed [] (t ())) :
    Bracketed before (s.orElse t) := by
  induction s generalizing before with
  | done => exact ht.behind h
  | failed e => exact h
  | exhausted => exact h
  | event e rest ih => exact ih () h
  | found a rest ih => exact h

/-- And a search behind one that may be definitive. -/
theorem Bracketed.andThen (definitive : Bool) {s : Search (Event V) ε α}
    (h : Bracketed [] s) {t : Unit → Search (Event V) ε α} (ht : Bracketed [] (t ())) :
    Bracketed [] (s.andThen definitive t) := by
  cases definitive with
  | false => exact h.append ht
  | true => exact h.orElse ht

/-- Changing items leaves the calls as they are. -/
theorem Bracketed.map {before : List (Event V)} {s : Search (Event V) ε α}
    (h : Bracketed before s) (f : α → β) : Bracketed before (s.map f) := by
  induction s generalizing before with
  | done => exact h
  | failed e => exact h
  | exhausted => exact h
  | event e rest ih => exact ih () h
  | found a rest ih => exact ⟨h.1, ih () h.2⟩

/-- What an item leads to starts anew, right where the item was found. -/
theorem Bracketed.bind {before : List (Event V)} {s : Search (Event V) ε α}
    (h : Bracketed before s) {f : α → Search (Event V) ε β} (hf : ∀ a, Bracketed [] (f a)) :
    Bracketed before (s.bind f) := by
  induction s generalizing before with
  | done => exact h
  | failed e => exact h
  | exhausted => exact h
  | event e rest ih => exact ih () h
  | found a rest ih => exact ((hf a).behind h.1).append (ih () h.2)

/-- The same for the first success only. -/
theorem Bracketed.bindFirst {before : List (Event V)} {s : Search (Event V) ε α}
    (h : Bracketed before s) {f : α → Search (Event V) ε β} (hf : ∀ a, Bracketed [] (f a)) :
    Bracketed before (s.bindFirst f) := by
  induction s generalizing before with
  | done => exact h
  | failed e => exact h
  | exhausted => exact h
  | event e rest ih => exact ih () h
  | found a rest ih => exact ((hf a).behind h.1).orElse (ih () h.2)

/-- A choice, definitive or not, leaves no call open where it finds an item. -/
theorem Bracketed.choose (definitive : Bool) {s : Search (Event V) ε α} (h : Bracketed [] s)
    {f : α → Search (Event V) ε β} (hf : ∀ a, Bracketed [] (f a)) :
    Bracketed [] (s.choose definitive f) := by
  cases definitive with
  | false => exact h.bind hf
  | true => exact h.bindFirst hf

/-- Without events there are no calls. -/
theorem Silent.bracketed {s : Search (Event V) ε α} (h : s.Silent) : Bracketed [] s := by
  induction s with
  | done => exact .nil
  | failed e => exact .nil
  | exhausted => exact .nil
  | event e rest ih => exact h.elim
  | found a rest ih => exact ⟨.nil, ih () h⟩

/-- The items of a list are found with nothing in between. -/
theorem bracketed_ofList {before : List (Event V)} (h : Balanced before) (as : List α) :
    Bracketed before (ofList as : Search (Event V) ε α) := by
  induction as generalizing before with
  | nil => exact h
  | cons a as ih => exact ⟨h, ih .nil⟩

/-- Reports count as what happened before. -/
theorem bracketed_reporting {before es : List (Event V)} {s : Search (Event V) ε α}
    (h : Bracketed (before ++ es) s) : Bracketed before (reporting es s) := by
  induction es generalizing before with
  | nil => simpa using h
  | cons e es ih =>
    rw [reporting_cons, Bracketed]
    exact ih (by simpa using h)

/-! ## Items are attributed to calls

The second invariant is stated of traces, since it is about where items stand. A value is *made by
the last call* if right before it, but for other values, the latest call came back with a list that
has the value in it. -/

/-- Behind `before`, the item `v` is handed out by the call that came back last: its two events
enclose a balanced record, and since its return only items of its outcome were handed out. -/
def MadeByLastCall (before : List (Event V ⊕ V)) (v : V) : Prop :=
  ∃ (earlier : List (Event V ⊕ V)) (call : Call V) (inner : List (Event V)) (values : List V)
      (k : Nat),
    before = earlier ++ .inl (.invoked call) :: inner.map .inl
        ++ .inl (.returned (.ok values)) :: (values.take k).map .inr ∧
      Balanced inner ∧ values[k]? = some v

/-- Every item of a trace is handed out by the call that came back last before it. -/
def Attributed (t : List (Event V ⊕ V)) : Prop :=
  ∀ before v, before ++ [.inr v] <+: t → MadeByLastCall before v

/-- What made a value is found right before it, whatever stands further in front. -/
theorem MadeByLastCall.behind (t : List (Event V ⊕ V)) {before : List (Event V ⊕ V)} {v : V}
    (h : MadeByLastCall before v) : MadeByLastCall (t ++ before) v := by
  obtain ⟨earlier, call, inner, values, k, rfl, hinner, hv⟩ := h
  exact ⟨t ++ earlier, call, inner, values, k, by simp, hinner, hv⟩

/-- Without items nothing has to be attributed. -/
theorem attributed_nil : Attributed ([] : List (Event V ⊕ V)) := by
  intro before v h
  simp at h

/-- An element at the end of a prefix of two lists lies in the first or in the second. -/
theorem snoc_prefix_append {γ : Type} {before t u : List γ} {z : γ}
    (h : before ++ [z] <+: t ++ u) :
    before ++ [z] <+: t ∨ ∃ rest, before = t ++ rest ∧ rest ++ [z] <+: u := by
  rcases List.prefix_or_prefix_of_prefix h (List.prefix_append t u) with hpre | ⟨rest, hrest⟩
  · exact .inl hpre
  · rcases List.eq_nil_or_concat rest with rfl | ⟨rest, y, rfl⟩
    · exact .inl ⟨[], by rw [List.append_nil, ← hrest, List.append_nil]⟩
    · rw [List.concat_eq_append, ← List.append_assoc] at hrest
      obtain ⟨hbefore, hy⟩ := List.append_inj' hrest rfl
      rw [← hbefore, ← hy, List.append_assoc, List.prefix_append_right_inj] at h
      exact .inr ⟨rest, hbefore.symm, hy ▸ h⟩

/-- Two traces in a row: the items of each are attributed within their own. -/
theorem Attributed.append {t u : List (Event V ⊕ V)} (ht : Attributed t) (hu : Attributed u) :
    Attributed (t ++ u) := by
  intro before v h
  rcases snoc_prefix_append h with hpre | ⟨rest, rfl, hrest⟩
  · exact ht before v hpre
  · exact (hu rest v hrest).behind t

/-- Going on behind a search that may be definitive keeps items attributed. -/
theorem Attributed.andThen (definitive : Bool) {s : Search (Event V) ε V}
    (hs : Attributed s.trace) {t : Unit → Search (Event V) ε V} (ht : Attributed (t ()).trace) :
    Attributed (s.andThen definitive t).trace := by
  rcases trace_andThen definitive s t with h | h
  · rw [h]
    exact hs.append ht
  · rw [h]
    exact hs

/-- Events alone leave nothing to attribute. -/
theorem attributed_map_inl (es : List (Event V)) :
    Attributed (es.map .inl : List (Event V ⊕ V)) := by
  intro before v h
  have hmem : (.inr v : Event V ⊕ V) ∈ es.map .inl := h.subset (by simp)
  simp at hmem

/-- An event in front attributes nothing, and takes nothing away. -/
theorem Attributed.event (e : Event V) {t : List (Event V ⊕ V)} (h : Attributed t) :
    Attributed (.inl e :: t) :=
  (attributed_map_inl [e]).append h

/-- The values of a call that has come back are attributed to it. -/
theorem attributed_values (call : Call V) {inner : List (Event V)} (hinner : Balanced inner)
    (values : List V) :
    Attributed ((Event.invoked call :: inner ++ [Event.returned (.ok values)]).map .inl
      ++ values.map .inr) := by
  intro before v h
  rcases snoc_prefix_append h with hpre | ⟨rest, rfl, ⟨later, hlater⟩⟩
  · exact attributed_map_inl _ before v hpre
  · -- what stands between the return and the item are earlier values of the call
    obtain ⟨shown, others, rfl, hshown, -⟩ := List.map_eq_append_iff.mp hlater.symm
    obtain ⟨earlier, last, rfl, rfl, hlast⟩ := List.map_eq_append_iff.mp hshown
    obtain ⟨w, rfl, hw⟩ := List.map_eq_singleton_iff.mp hlast
    obtain rfl : w = v := Sum.inr.inj hw
    exact ⟨[], call, inner, earlier ++ [w] ++ others, earlier.length, by simp, hinner, by simp⟩

/-- Items found behind the items of another search are attributed if those of every continuation
are; what the first search reports does not matter. -/
theorem attributed_bind (s : Search (Event V) ε α) {f : α → Search (Event V) ε V}
    (hf : ∀ a, Attributed (f a).trace) : Attributed (s.bind f).trace := by
  induction s with
  | done => exact attributed_nil
  | failed e => exact attributed_nil
  | exhausted => exact attributed_nil
  | event e rest ih => exact (ih ()).event e
  | found a rest ih =>
    rw [bind]
    rcases trace_append (f a) (fun _ => (rest ()).bind f) with h | h
    · rw [h]
      exact (hf a).append (ih ())
    · rw [h]
      exact hf a

/-! ## One call

A call is a production that a search runs: between its two events stand those of the drives. A
search that does nothing but report balanced events and then find one answer is a *balanced step*,
and so is every run of a production whose drives are. -/

/-- A search that reports balanced events and then finds its only item, unless the fuel runs out
while it reports. -/
def OneBalancedStep (s : Search (Event V) ε α) : Prop :=
  (∃ es a, Balanced es ∧ s = reporting es (single a)) ∨
    ∃ es, Underway es ∧ s = reporting es .exhausted

/-- What a consumer takes of a bracketed search is one step. -/
theorem Bracketed.gather {ε' : Type} (stop : List α → Bool) (seen : List α)
    {before : List (Event V)} {s : Search (Event V) ε α} (h : Bracketed before s) :
    (∃ es a, Balanced (before ++ es) ∧
        (s.gather stop seen : Search _ ε' _) = reporting es (single a)) ∨
      ∃ es, Underway (before ++ es) ∧
        (s.gather stop seen : Search _ ε' _) = reporting es .exhausted := by
  -- what was found on the way stays inside of the drive, so only its events are left
  induction s generalizing before seen with
  | done => exact .inl ⟨[], _, (List.append_nil before).symm ▸ h, rfl⟩
  | failed e => exact .inl ⟨[], _, (List.append_nil before).symm ▸ h, rfl⟩
  | exhausted => exact .inr ⟨[], (List.append_nil before).symm ▸ h, rfl⟩
  | event e rest ih =>
    rcases ih () seen h with ⟨es, a, hes, hs⟩ | ⟨es, hes, hs⟩
    · exact .inl ⟨e :: es, a, by simpa using hes, by rw [Search.gather, hs, reporting_cons]⟩
    · exact .inr ⟨e :: es, by simpa using hes, by rw [Search.gather, hs, reporting_cons]⟩
  | found a rest ih =>
    rw [Search.gather]
    split
    · exact .inl ⟨[], _, by simpa using h.1, rfl⟩
    · -- the drive goes on; all calls have come back, so the record starts anew
      rcases ih () (seen ++ [a]) h.2 with ⟨es, d, hes, hs⟩ | ⟨es, hes, hs⟩
      · exact .inl ⟨es, d, h.1.append (by simpa using hes), hs⟩
      · exact .inr ⟨es, h.1.append_underway (by simpa using hes), hs⟩

/-- Changing the answer keeps a step balanced. -/
theorem OneBalancedStep.map {s : Search (Event V) ε α} (h : OneBalancedStep s) (f : α → β) :
    OneBalancedStep (s.map f) := by
  rcases h with ⟨es, a, hes, rfl⟩ | ⟨es, hes, rfl⟩
  · exact .inl ⟨es, f a, hes, reporting_map es (single a) f⟩
  · exact .inr ⟨es, hes, reporting_map es .exhausted f⟩

/-- One step behind another is one step. -/
theorem OneBalancedStep.bind {s : Search (Event V) ε α} (h : OneBalancedStep s)
    {f : α → Search (Event V) ε β} (hf : ∀ a, OneBalancedStep (f a)) :
    OneBalancedStep (s.bind f) := by
  rcases h with ⟨es, a, hes, rfl⟩ | ⟨es, hes, rfl⟩
  · rw [reporting_bind, single_bind]
    rcases hf a with ⟨fs, z, hfs, hz⟩ | ⟨fs, hfs, hz⟩
    · exact .inl ⟨es ++ fs, z, hes.append hfs, by rw [hz, reporting_append]⟩
    · exact .inr ⟨es ++ fs, hes.append_underway hfs, by rw [hz, reporting_append]⟩
  · exact .inr ⟨es, hes, reporting_bind es .exhausted f⟩

end Search

open Search

/-- The run of a production is one step, if its drives are. The induction follows the interaction:
an answer reports nothing, and a drive is followed by a run that the induction hypothesis is about.
-/
theorem Production.oneBalancedStep_run
    {perform : Nat → (List V → Bool) → Search (Event V) ε (Driven V)}
    (h : ∀ position stop, OneBalancedStep (perform position stop)) (p : Production V α) :
    OneBalancedStep (p.run perform) := by
  induction p with
  | answer a => exact .inl ⟨[], a, .nil, rfl⟩
  | drive position stop next ih => exact (h position stop).bind fun d => ih d

namespace Resolver

variable (r : Resolver V) (fuel : Nat) {nested : Nested V}
  (hn : ∀ candidates window, Bracketed [] (nested candidates window))

/-- What a call gives is found without further calls. -/
theorem bracketed_deliver {before : List (Event V)} (h : Balanced before) (t : Ty)
    (outcome : Except Failure (List V)) : Bracketed before (r.deliver t outcome) := by
  cases outcome with
  | ok values => exact bracketed_ofList h values
  | error failure =>
    rw [deliver]
    cases r.expects failure <;> exact h

/-- After an outcome only its own values are handed out. -/
theorem trace_deliver (t : Ty) (outcome : Except Failure (List V)) :
    (∃ values, outcome = .ok values ∧ (r.deliver t outcome).trace = values.map .inr) ∨
      (r.deliver t outcome).trace = [] := by
  cases outcome with
  | ok values => exact .inl ⟨values, rfl, trace_ofList values⟩
  | error failure =>
    rw [deliver]
    cases r.expects failure <;> exact .inr rfl

section

include hn

/-- A drive of a sequence is one step, as its nested resolution is bracketed. -/
theorem oneBalancedStep_driveArg (args : List (Filled V)) (position : Nat)
    (stop : List V → Bool) : OneBalancedStep (driveArg nested args position stop) := by
  rw [driveArg]
  rcases args[position]? with _ | v | _ | ⟨candidates, window⟩
  · exact .inl ⟨[], _, .nil, rfl⟩
  · exact .inl ⟨[], _, .nil, rfl⟩
  · exact .inl ⟨[], _, .nil, rfl⟩
  · exact OneBalancedStep.map ((hn candidates window).gather stop []) _

/-- **What one call does**: it is reported, its drives are reported as a balanced record, its return
is reported, and then its outcome is delivered. If the fuel runs out in a drive, the call stays
open. -/
theorem call_shape (place : Place) (t : Ty) (producer : Producer V × Nat)
    (args : List (Filled V)) :
    ∃ call : Call V, call.ty = t ∧
      ((∃ inner outcome, Balanced inner ∧ r.call nested place t producer args =
        reporting (.invoked call :: inner ++ [.returned outcome]) (r.deliver t outcome)) ∨
      ∃ inner, Underway inner ∧ r.call nested place t producer args =
        reporting (.invoked call :: inner) .exhausted) := by
  refine ⟨⟨place.index, producer.2, t, args.map Filled.toArgument⟩, rfl, ?_⟩
  rw [call]
  rcases Production.oneBalancedStep_run (oneBalancedStep_driveArg hn args)
    (producer.1.invoke t (args.map Filled.toArgument)) with
    ⟨inner, outcome, hinner, h⟩ | ⟨inner, hinner, h⟩
  · refine .inl ⟨inner, outcome, hinner, ?_⟩
    rw [h, reporting_bind, single_bind, reporting_append, reporting_cons]
    rfl
  · refine .inr ⟨inner, hinner, ?_⟩
    rw [h, reporting_bind, reporting_cons]
    rfl

/-- A call comes back before its first value is found. -/
theorem bracketed_call (place : Place) (t : Ty) (producer : Producer V × Nat)
    (args : List (Filled V)) : Bracketed [] (r.call nested place t producer args) := by
  obtain ⟨call, -, ⟨inner, outcome, hinner, h⟩ | ⟨inner, hinner, h⟩⟩ :=
    r.call_shape hn place t producer args
  · rw [h]
    exact bracketed_reporting (r.bracketed_deliver (.call call outcome hinner .nil) t outcome)
  · rw [h]
    exact bracketed_reporting (.inside call hinner)

/-- The values of one call are attributed to it. -/
theorem attributed_call (place : Place) (t : Ty) (producer : Producer V × Nat)
    (args : List (Filled V)) : Attributed (r.call nested place t producer args).trace := by
  obtain ⟨call, -, ⟨inner, outcome, hinner, h⟩ | ⟨inner, -, h⟩⟩ :=
    r.call_shape hn place t producer args
  · rw [h, trace_reporting]
    rcases r.trace_deliver t outcome with ⟨values, rfl, hvalues⟩ | hvalues
    · rw [hvalues]
      exact attributed_values call hinner values
    · rw [hvalues]
      exact (attributed_map_inl _).append attributed_nil
  · rw [h, trace_reporting]
    exact (attributed_map_inl _).append attributed_nil

end

end Resolver

end TypeResolution

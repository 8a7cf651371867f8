import Mathlib.Data.List.Infix
import TypeResolution.Search

/-!
# What happens in a search, in order

The `trace` of a search is everything that it does when it is read to the end: events and items in
one list. A consumer cannot change what happens, it can only leave, and `run_cases` says what that
comes to: either the consumer stops at some item, and its record is the part of the trace up to that
item, or it never stops, and its record is that of the consumer who takes everything.

For the consumer that stops at its `n`-th item this is the streaming law, `run_takeAtMost_of_le` and
`run_takeAtMost_of_lt`. Searches that are driven as one step of another obey it as well, since
driving keeps the record (`run_gather`).

A transcript keeps events and items apart, so it no longer says which event came before which item.
That is what a trace is for. It is only ever defined for the search read to its end; the records of
consumers that leave earlier are cut out of it (`StopsAt`), with the same events in front of the
same items.
-/

namespace TypeResolution.Search

variable {ν ε ε' α β : Type}

/-! ## Traces

A trace is a list over a sum type. Its events and its items are picked out by `eventsOf` and
`itemsOf`, and the equations below let `simp` compute with them. -/

/-- Events and items in the order in which they come about. -/
def trace : Search ν ε α → List (ν ⊕ α)
  | .done => []
  | .failed _ => []
  | .exhausted => []
  | .event e rest => .inl e :: trace (rest ())
  | .found a rest => .inr a :: trace (rest ())

/-- The events of a trace. -/
def eventsOf (t : List (ν ⊕ α)) : List ν := t.filterMap Sum.getLeft?

/-- The items of a trace. -/
def itemsOf (t : List (ν ⊕ α)) : List α := t.filterMap Sum.getRight?

@[simp] theorem eventsOf_nil : eventsOf ([] : List (ν ⊕ α)) = [] := rfl

@[simp] theorem itemsOf_nil : itemsOf ([] : List (ν ⊕ α)) = [] := rfl

@[simp] theorem eventsOf_inl (e : ν) (t : List (ν ⊕ α)) :
    eventsOf (.inl e :: t) = e :: eventsOf t := rfl

@[simp] theorem eventsOf_inr (a : α) (t : List (ν ⊕ α)) : eventsOf (.inr a :: t) = eventsOf t := rfl

@[simp] theorem itemsOf_inl (e : ν) (t : List (ν ⊕ α)) : itemsOf (.inl e :: t) = itemsOf t := rfl

@[simp] theorem itemsOf_inr (a : α) (t : List (ν ⊕ α)) :
    itemsOf (.inr a :: t) = a :: itemsOf t := rfl

/-- The events of two traces in a row are those of the first and then those of the second. -/
@[simp] theorem eventsOf_append (t u : List (ν ⊕ α)) :
    eventsOf (t ++ u) = eventsOf t ++ eventsOf u := List.filterMap_append

/-- And so are the items. -/
@[simp] theorem itemsOf_append (t u : List (ν ⊕ α)) :
    itemsOf (t ++ u) = itemsOf t ++ itemsOf u := List.filterMap_append

/-- A trace of events has these events, -/
@[simp] theorem eventsOf_map_inl (es : List ν) :
    eventsOf (es.map (.inl : ν → ν ⊕ α)) = es := by
  induction es with
  | nil => rfl
  | cons e es ih => rw [List.map_cons, eventsOf_inl, ih]

/-- and a trace of items has none. -/
@[simp] theorem eventsOf_map_inr (as : List α) :
    eventsOf (as.map (.inr : α → ν ⊕ α)) = [] := by
  induction as with
  | nil => rfl
  | cons a as ih => rw [List.map_cons, eventsOf_inr, ih]

/-- A trace of events has no items, -/
@[simp] theorem itemsOf_map_inl (es : List ν) :
    itemsOf (es.map (.inl : ν → ν ⊕ α)) = [] := by
  induction es with
  | nil => rfl
  | cons e es ih => rw [List.map_cons, itemsOf_inl, ih]

/-- and a trace of items has these. -/
@[simp] theorem itemsOf_map_inr (as : List α) :
    itemsOf (as.map (.inr : α → ν ⊕ α)) = as := by
  induction as with
  | nil => rfl
  | cons a as ih => rw [List.map_cons, itemsOf_inr, ih]

/-! ## Consumers and traces

The consumer that takes everything leaves the whole trace behind (`runFrom_takeAll_eq_trace`). For
any other one there are two cases, and both are made into structures, because the induction over the
search has to carry all of a case at once. -/

/-- The consumer that takes everything records the whole trace. -/
theorem runFrom_takeAll_eq_trace (seen : List α) (s : Search ν ε α) :
    (s.runFrom takeAll seen).events = eventsOf s.trace ∧
      (s.runFrom takeAll seen).items = itemsOf s.trace := by
  induction s generalizing seen with
  | done => exact ⟨rfl, rfl⟩
  | failed e => exact ⟨rfl, rfl⟩
  | exhausted => exact ⟨rfl, rfl⟩
  | event e rest ih =>
    obtain ⟨hevents, hitems⟩ := ih () seen
    exact ⟨congrArg (e :: ·) hevents, hitems⟩
  | found a rest ih =>
    obtain ⟨hevents, hitems⟩ := ih () (seen ++ [a])
    exact ⟨hevents, congrArg (a :: ·) hitems⟩

/-- The consumer that takes everything never stops. -/
theorem runFrom_takeAll_ending (seen : List α) (s : Search ν ε α) :
    (s.runFrom takeAll seen).ending ≠ some (.ok .stopped) := by
  induction s generalizing seen with
  | done => simp [runFrom]
  | failed e => simp [runFrom]
  | exhausted => simp [runFrom]
  | event e rest ih => exact ih () seen
  | found a rest ih => exact ih () (seen ++ [a])

/-- The consumer `stop`, who has the items `seen` already, leaves at the item `a` behind the
beginning `before` of a trace: not earlier, and its record is that beginning with the item. -/
structure StopsAt (stop : List α → Bool) (seen : List α) (s : Search ν ε α)
    (before : List (ν ⊕ α)) (a : α) : Prop where
  /-- the beginning and the item stand at the front of the trace -/
  isPrefix : before ++ [.inr a] <+: s.trace
  /-- the consumer has seen enough with the item -/
  enough : stop (seen ++ itemsOf before ++ [a]) = true
  /-- it had not seen enough before -/
  notBefore : ∀ k, 0 < k → k ≤ (itemsOf before).length →
    stop (seen ++ (itemsOf before).take k) = false
  /-- the record is that of the beginning with the item -/
  record : s.runFrom stop seen = ⟨eventsOf before, itemsOf before ++ [a], some (.ok .stopped)⟩

/-- The consumer `stop` never leaves: its record is that of the consumer who takes everything. -/
structure NeverStops (stop : List α → Bool) (seen : List α) (s : Search ν ε α) : Prop where
  /-- no beginning of the items is enough -/
  notEnough : ∀ k, 0 < k → k ≤ (itemsOf s.trace).length →
    stop (seen ++ (itemsOf s.trace).take k) = false
  /-- the record is that of the whole trace -/
  record : s.runFrom stop seen = s.runFrom takeAll seen

/-- Where a consumer stops behind an event, it has the event in its record. -/
theorem StopsAt.event {stop : List α → Bool} {seen : List α} {e : ν} {rest : Unit → Search ν ε α}
    {before : List (ν ⊕ α)} {a : α} (h : StopsAt stop seen (rest ()) before a) :
    StopsAt stop seen (.event e rest) (.inl e :: before) a where
  isPrefix := (List.prefix_cons_inj _).mpr h.isPrefix
  enough := h.enough
  notBefore := h.notBefore
  record := by rw [runFrom, h.record, eventsOf_inl, itemsOf_inl]

/-- An item with which it has not seen enough goes to the front of the trace, and is one more item
that it has seen. -/
theorem StopsAt.found {stop : List α → Bool} {seen : List α} {a : α} {rest : Unit → Search ν ε α}
    (hstop : stop (seen ++ [a]) = false) {before : List (ν ⊕ α)} {z : α}
    (h : StopsAt stop (seen ++ [a]) (rest ()) before z) :
    StopsAt stop seen (.found a rest) (.inr a :: before) z where
  isPrefix := (List.prefix_cons_inj _).mpr h.isPrefix
  enough := by simpa using h.enough
  notBefore := by
    intro k hk hle
    obtain ⟨k, rfl⟩ : ∃ j, k = j + 1 := ⟨k - 1, by omega⟩
    cases k with
    | zero => simpa using hstop
    | succ k => simpa using h.notBefore (k + 1) (by omega) (by simpa using hle)
  record := by
    rw [runFrom, if_neg (by simp [hstop]), h.record, eventsOf_inr, itemsOf_inr, List.cons_append]

/-- The same for a consumer that does not stop at all. -/
theorem NeverStops.found {stop : List α → Bool} {seen : List α} {a : α}
    {rest : Unit → Search ν ε α} (hstop : stop (seen ++ [a]) = false)
    (h : NeverStops stop (seen ++ [a]) (rest ())) : NeverStops stop seen (.found a rest) where
  notEnough := by
    intro k hk hle
    obtain ⟨k, rfl⟩ : ∃ j, k = j + 1 := ⟨k - 1, by omega⟩
    cases k with
    | zero => simpa [trace] using hstop
    | succ k => simpa [trace] using h.notEnough (k + 1) (by omega) (by simpa [trace] using hle)
  record := by
    rw [runFrom, if_neg (by simp [hstop]), h.record, runFrom, if_neg (by simp [takeAll])]

/-- **A consumer stops at an item or takes everything.** -/
theorem run_cases (stop : List α → Bool) (seen : List α) (s : Search ν ε α) :
    (∃ before a, StopsAt stop seen s before a) ∨ NeverStops stop seen s := by
  induction s generalizing seen with
  | done => exact .inr ⟨by simp [trace]; omega, rfl⟩
  | failed e => exact .inr ⟨by simp [trace]; omega, rfl⟩
  | exhausted => exact .inr ⟨by simp [trace]; omega, rfl⟩
  | event e rest ih =>
    rcases ih () seen with ⟨before, a, h⟩ | h
    · exact .inl ⟨_, a, h.event⟩
    · exact .inr ⟨h.notEnough, by rw [runFrom, runFrom, h.record]⟩
  | found a rest ih =>
    cases hstop : stop (seen ++ [a]) with
    | true =>
      -- the consumer leaves here, before anything else happens
      refine .inl ⟨[], a, ?_, by simpa using hstop, by simp; omega, ?_⟩
      · exact (List.prefix_cons_inj _).mpr (List.nil_prefix)
      · rw [runFrom, if_pos hstop]
        rfl
    | false =>
      rcases ih () (seen ++ [a]) with ⟨before, z, h⟩ | h
      · exact .inl ⟨_, z, h.found hstop⟩
      · exact .inr (h.found hstop)

/-- A run that was stopped was stopped by its consumer. -/
theorem stop_items_of_stopped {stop : List α → Bool} {s : Search ν ε α}
    (h : (s.run stop).ending = some (.ok .stopped)) :
    (s.run stop).items ≠ [] ∧ stop (s.run stop).items = true := by
  rcases run_cases stop [] s with ⟨before, a, hs⟩ | hs
  · rw [run, hs.record]
    exact ⟨by simp, by simpa using hs.enough⟩
  · rw [run, hs.record] at h
    exact absurd h (runFrom_takeAll_ending [] s)

/-! ## The consumer that stops at its n-th item -/

/-- **The streaming law, as far as items go**: if there are `n` items, then the consumer that stops
at its `n`-th is handed the first `n`, its events are the first of all events, and the trace shows
what happened before that item. -/
theorem run_takeAtMost_of_le {n : Nat} (hn : 1 ≤ n) (s : Search ν ε α)
    (h : n ≤ (s.run takeAll).items.length) :
    ∃ before a, before ++ [.inr a] <+: s.trace ∧
      s.run (takeAtMost n) = ⟨eventsOf before, itemsOf before ++ [a], some (.ok .stopped)⟩ ∧
      (s.run (takeAtMost n)).items = (s.run takeAll).items.take n := by
  have hitems : (s.run takeAll).items = itemsOf s.trace := (runFrom_takeAll_eq_trace [] s).2
  rw [hitems] at h ⊢
  rcases run_cases (takeAtMost n) [] s with ⟨before, a, hs⟩ | hs
  · refine ⟨before, a, hs.isPrefix, hs.record, ?_⟩
    have henough : n ≤ (itemsOf before).length + 1 := by simpa [takeAtMost] using hs.enough
    -- with fewer items it had not seen enough, so it leaves at the first moment it may
    have hlength : (itemsOf before).length + 1 = n := by
      rcases Nat.eq_zero_or_pos (itemsOf before).length with h0 | h0
      · omega
      · have := hs.notBefore _ h0 (Nat.le_refl _)
        simp [takeAtMost] at this
        omega
    obtain ⟨rest, hrest⟩ := hs.isPrefix
    rw [run, hs.record, ← hrest]
    simp only [itemsOf_append, itemsOf_inr, itemsOf_nil]
    rw [List.take_append_of_le_length (by simp; omega), List.take_of_length_le (by simp; omega)]
  · have := hs.notEnough n (by omega) h
    simp [takeAtMost, h] at this

/-- With fewer items, that consumer is one who takes everything. -/
theorem run_takeAtMost_of_lt {n : Nat} (s : Search ν ε α)
    (h : (s.run takeAll).items.length < n) : s.run (takeAtMost n) = s.run takeAll := by
  obtain ⟨-, hitems⟩ := runFrom_takeAll_eq_trace [] s
  rw [run, hitems] at h
  rcases run_cases (takeAtMost n) [] s with ⟨before, a, hs⟩ | hs
  · -- to leave it would have to be handed more items than there are
    obtain ⟨rest, hrest⟩ := hs.isPrefix
    have henough : n ≤ (itemsOf before).length + 1 := by simpa [takeAtMost] using hs.enough
    rw [← hrest] at h
    simp at h
    omega
  · exact hs.record

/-- The events up to an item are the first of all events. -/
theorem eventsOf_prefix {s : Search ν ε α} {before : List (ν ⊕ α)} {a : α}
    (h : before ++ [.inr a] <+: s.trace) : eventsOf before <+: (s.run takeAll).events := by
  obtain ⟨rest, hrest⟩ := h
  obtain ⟨hevents, -⟩ := runFrom_takeAll_eq_trace [] s
  rw [run, hevents, ← hrest]
  exact ⟨eventsOf rest, by simp⟩

/-- Where the consumer who takes everything meets no error, the consumer who stops at the first item
is handed that one, if there is any. -/
theorem run_takeAtMost_one {s : Search ν ε α} {flow : Flow}
    (h : (s.run takeAll).ending = some (.ok flow)) :
    (∃ flow, (s.run (takeAtMost 1)).ending = some (.ok flow)) ∧
      (s.run (takeAtMost 1)).items = (s.run takeAll).items.take 1 ∧
      (s.run (takeAtMost 1)).events <+: (s.run takeAll).events := by
  rcases Nat.lt_or_ge (s.run takeAll).items.length 1 with hlt | hle
  · rw [run_takeAtMost_of_lt s hlt, List.take_of_length_le (Nat.le_of_lt hlt)]
    exact ⟨⟨flow, h⟩, rfl, List.prefix_rfl⟩
  · obtain ⟨before, a, hpre, hrun, hitems⟩ := run_takeAtMost_of_le (Nat.le_refl 1) s hle
    refine ⟨⟨.stopped, by rw [hrun]⟩, hitems, ?_⟩
    rw [hrun]
    exact eventsOf_prefix hpre

/-- Changing items changes neither the events nor the ending. -/
theorem runFrom_takeAll_map (f : α → β) (seen : List α) (seen' : List β) (s : Search ν ε α) :
    (s.map f).runFrom takeAll seen' =
      ⟨(s.runFrom takeAll seen).events, (s.runFrom takeAll seen).items.map f,
        (s.runFrom takeAll seen).ending⟩ := by
  induction s generalizing seen seen' with
  | done => rfl
  | failed e => rfl
  | exhausted => rfl
  | event e rest ih => simp only [map, runFrom, ih () seen seen']
  | found a rest ih =>
    simp only [map, runFrom, ih () (seen ++ [a]) (seen' ++ [f a]), takeAll, Bool.false_eq_true,
      if_false, List.map_cons]

/-! ## Driven searches -/

/-- Driving a search as one step of another keeps the record of its run and hands it over as the one
item, unless the fuel runs out. -/
theorem run_gather (stop : List α → Bool) (seen : List α) (s : Search ν ε α) :
    (s.gather stop seen : Search ν ε' (List α × Except ε Flow)).run takeAll =
      ⟨(s.runFrom stop seen).events,
        (s.runFrom stop seen).ending.toList.map
          fun ending => (seen ++ (s.runFrom stop seen).items, ending),
        (s.runFrom stop seen).ending.map fun _ => .ok .finished⟩ := by
  induction s generalizing seen with
  -- a drive hands over what a consumer would have been handed, so both records grow alike
  | done => simp [gather, run, runFrom, single, takeAll]
  | failed e => simp [gather, run, runFrom, single, takeAll]
  | exhausted => simp [gather, run, runFrom]
  | event e rest ih =>
    have h := ih () seen
    rw [run] at h
    rw [gather, run, runFrom, h]
    rfl
  | found a rest ih =>
    cases hstop : stop (seen ++ [a]) with
    | true => simp [gather, run, runFrom, single, takeAll, hstop]
    | false =>
      rw [gather, if_neg (by simp [hstop]), ih () (seen ++ [a]), runFrom,
        if_neg (by simp [hstop])]
      simp

/-! ## Traces of combined searches

A combined search does what its first part does, and then either what its second part does or
nothing more. Which of the two it is depends on how the first part ended; for where events can stand
it does not matter. -/

/-- Behind a search that was not interrupted comes the trace of the next. -/
theorem trace_append (s : Search ν ε α) (t : Unit → Search ν ε α) :
    (s.append t).trace = s.trace ++ (t ()).trace ∨ (s.append t).trace = s.trace := by
  induction s with
  | done => exact .inl rfl
  | failed e => exact .inr rfl
  | exhausted => exact .inr rfl
  | event e rest ih =>
    rw [append, trace, trace]
    exact (ih ()).imp (congrArg (Sum.inl e :: ·)) (congrArg (Sum.inl e :: ·))
  | found a rest ih =>
    rw [append, trace, trace]
    exact (ih ()).imp (congrArg (Sum.inr a :: ·)) (congrArg (Sum.inr a :: ·))

/-- Behind a search that found nothing comes the trace of the one to fall back on. -/
theorem trace_orElse (s : Search ν ε α) (t : Unit → Search ν ε α) :
    (s.orElse t).trace = s.trace ++ (t ()).trace ∨ (s.orElse t).trace = s.trace := by
  induction s with
  | done => exact .inl rfl
  | failed e => exact .inr rfl
  | exhausted => exact .inr rfl
  | event e rest ih =>
    rw [orElse, trace, trace]
    exact (ih ()).imp (congrArg (Sum.inl e :: ·)) (congrArg (Sum.inl e :: ·))
  | found a rest ih => exact .inr rfl

/-- So it is behind a search that may be definitive. -/
theorem trace_andThen (definitive : Bool) (s : Search ν ε α) (t : Unit → Search ν ε α) :
    (s.andThen definitive t).trace = s.trace ++ (t ()).trace ∨
      (s.andThen definitive t).trace = s.trace := by
  cases definitive with
  | false => exact trace_append s t
  | true => exact trace_orElse s t

/-- Finding the items of a list is just that. -/
@[simp] theorem trace_ofList (as : List α) : (ofList as : Search ν ε α).trace = as.map .inr := by
  induction as with
  | nil => rfl
  | cons a as ih => rw [ofList, trace, ih, List.map_cons]

/-! ## Reports in front of a search

Some searches are a list of events and then go on. The combinators let such events pass, in front of
everything that they do themselves; this is all that is needed to read off where the events of a
call come to stand. -/

/-- Some events, and then a search. -/
def reporting (es : List ν) (s : Search ν ε α) : Search ν ε α :=
  es.foldr (fun e s => .event e fun _ => s) s

@[simp] theorem reporting_nil (s : Search ν ε α) : reporting [] s = s := rfl

@[simp] theorem reporting_cons (e : ν) (es : List ν) (s : Search ν ε α) :
    reporting (e :: es) s = .event e fun _ => reporting es s := rfl

/-- Two lists of reports are one. -/
theorem reporting_append (es fs : List ν) (s : Search ν ε α) :
    reporting (es ++ fs) s = reporting es (reporting fs s) := List.foldr_append

/-- The reports stand in front of the trace. -/
theorem trace_reporting (es : List ν) (s : Search ν ε α) :
    (reporting es s).trace = es.map .inl ++ s.trace := by
  induction es with
  | nil => rfl
  | cons e es ih => rw [reporting_cons, trace, ih, List.map_cons, List.cons_append]

/-- And in front of the record, whoever the consumer is: no consumer is asked about events. -/
theorem runFrom_reporting (stop : List α → Bool) (seen : List α) (es : List ν)
    (s : Search ν ε α) :
    (reporting es s).runFrom stop seen =
      { s.runFrom stop seen with events := es ++ (s.runFrom stop seen).events } := by
  induction es with
  | nil => rfl
  | cons e es ih => rw [reporting_cons, runFrom, ih, List.cons_append]

/-- A way of going on from a search that looks only at its items and at an end without failure. -/
structure PassesThrough (F : Search ν ε α → Search ν ε β) : Prop where
  /-- a failure stays -/
  failed : ∀ e, F (.failed e) = .failed e
  /-- a lack of fuel stays -/
  exhausted : F .exhausted = .exhausted
  /-- an event comes first -/
  event : ∀ e rest, F (.event e rest) = .event e fun _ => F (rest ())

/-- What lets one event pass lets a list of them pass. -/
theorem PassesThrough.reporting {F : Search ν ε α → Search ν ε β} (h : PassesThrough F)
    (es : List ν) (s : Search ν ε α) : F (reporting es s) = reporting es (F s) := by
  induction es with
  | nil => rfl
  | cons e es ih => rw [reporting_cons, h.event, ih, reporting_cons]

/-- Each combinator lets events of its first search pass. All of these hold by definition. -/
theorem passesThrough_append (t : Unit → Search ν ε α) : PassesThrough (append · t) :=
  ⟨fun _ => rfl, rfl, fun _ _ => rfl⟩

theorem passesThrough_orElse (t : Unit → Search ν ε α) : PassesThrough (orElse · t) :=
  ⟨fun _ => rfl, rfl, fun _ _ => rfl⟩

theorem passesThrough_map (f : α → β) : PassesThrough (map f : Search ν ε α → Search ν ε β) :=
  ⟨fun _ => rfl, rfl, fun _ _ => rfl⟩

theorem passesThrough_bind (f : α → Search ν ε β) : PassesThrough (bind · f) :=
  ⟨fun _ => rfl, rfl, fun _ _ => rfl⟩

theorem passesThrough_bindFirst (f : α → Search ν ε β) : PassesThrough (bindFirst · f) :=
  ⟨fun _ => rfl, rfl, fun _ _ => rfl⟩

/-- Reports before searching on from items are reports before the whole. -/
theorem reporting_bind (es : List ν) (s : Search ν ε α) (f : α → Search ν ε β) :
    (reporting es s).bind f = reporting es (s.bind f) :=
  (passesThrough_bind f).reporting es s

/-- So are reports before changing items. -/
theorem reporting_map (es : List ν) (s : Search ν ε α) (f : α → β) :
    (reporting es s).map f = reporting es (s.map f) :=
  (passesThrough_map f).reporting es s

/-- Nothing more comes behind the last search. -/
theorem append_done (s : Search ν ε α) : s.append (fun _ => .done) = s := by
  induction s with
  | done => rfl
  | failed e => rfl
  | exhausted => rfl
  | event e rest ih => exact congrArg (Search.event e) (funext fun _ => ih ())
  | found a rest ih => exact congrArg (Search.found a) (funext fun _ => ih ())

/-- Going on from the only item is going on. -/
theorem single_bind (a : α) (f : α → Search ν ε β) : (single a).bind f = f a := append_done (f a)

end TypeResolution.Search

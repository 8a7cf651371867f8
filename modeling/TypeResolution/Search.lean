import TypeResolution.Fuel

/-!
# Lazy searches

A search finds items one after another, reports events on its way, and may fail. It is data, but
lazy data: what comes after an item or an event is computed when somebody asks for it, so a
consumer that has seen enough leaves the rest undone.

* `bind` and `append` are those of backtracking: all alternatives, in order.
* `orElse` and `bindFirst` prune: alternatives are dropped once an earlier one has found something.
* `run` feeds a consumer and keeps the record of what happened.

A failure ends a search at once, and so does lack of fuel; what was found before stands.
-/

namespace TypeResolution

/-- A search for items of `α` that reports events of `ν` and fails with `ε`. -/
inductive Search (ν ε α : Type) where
  /-- nothing more is found -/
  | done
  /-- the search fails -/
  | failed (error : ε)
  /-- the fuel does not suffice to go on -/
  | exhausted
  /-- something happened that is not an item -/
  | event (e : ν) (rest : Unit → Search ν ε α)
  /-- an item is found -/
  | found (a : α) (rest : Unit → Search ν ε α)

/-- How a search that did not fail came to its end. -/
inductive Flow where
  /-- every alternative was tried -/
  | finished
  /-- the consumer had seen enough -/
  | stopped
  deriving DecidableEq

namespace Search

variable {ν ε ε' α β : Type}

/-! ## Building -/

/-- Finds one item. -/
def single (a : α) : Search ν ε α := .found a fun _ => .done

/-- Finds the items of a list. -/
def ofList : List α → Search ν ε α
  | [] => .done
  | a :: as => .found a fun _ => ofList as

/-- Finds the answer, if the fuel sufficed for one. -/
def ofFueled : Fueled α → Search ν ε α
  | none => .exhausted
  | some a => single a

/-- Finds the answer, or fails with the error in its place. -/
def ofExcept : Except ε α → Search ν ε α
  | .error e => .failed e
  | .ok a => single a

/-- All items of the first search, then all items of the second. -/
def append : Search ν ε α → (Unit → Search ν ε α) → Search ν ε α
  | .done, t => t ()
  | .failed e, _ => .failed e
  | .exhausted, _ => .exhausted
  | .event e rest, t => .event e fun _ => append (rest ()) t
  | .found a rest, t => .found a fun _ => append (rest ()) t

/-- The items of the first search or, if it has none, those of the second. -/
def orElse : Search ν ε α → (Unit → Search ν ε α) → Search ν ε α
  | .done, t => t ()
  | .failed e, _ => .failed e
  | .exhausted, _ => .exhausted
  | .event e rest, t => .event e fun _ => orElse (rest ()) t
  | .found a rest, _ => .found a rest

/-- What comes behind a search: nothing if it is definitive and has found something. -/
def andThen (definitive : Bool) (s : Search ν ε α) (t : Unit → Search ν ε α) : Search ν ε α :=
  if definitive then s.orElse t else s.append t

/-- Every item, changed by a function. -/
def map (f : α → β) : Search ν ε α → Search ν ε β
  | .done => .done
  | .failed e => .failed e
  | .exhausted => .exhausted
  | .event e rest => .event e fun _ => map f (rest ())
  | .found a rest => .found (f a) fun _ => map f (rest ())

/-- For each item in turn, all items of the search that it leads to. -/
def bind : Search ν ε α → (α → Search ν ε β) → Search ν ε β
  | .done, _ => .done
  | .failed e, _ => .failed e
  | .exhausted, _ => .exhausted
  | .event e rest, f => .event e fun _ => bind (rest ()) f
  | .found a rest, f => (f a).append fun _ => bind (rest ()) f

/-- For the first item that leads to something, all that it leads to. -/
def bindFirst : Search ν ε α → (α → Search ν ε β) → Search ν ε β
  | .done, _ => .done
  | .failed e, _ => .failed e
  | .exhausted, _ => .exhausted
  | .event e rest, f => .event e fun _ => bindFirst (rest ()) f
  | .found a rest, f => (f a).orElse fun _ => bindFirst (rest ()) f

/-- Goes on for every item or, if the choice is definitive, only for the first one that leads to
something. -/
def choose (definitive : Bool) (s : Search ν ε α) (f : α → Search ν ε β) : Search ν ε β :=
  if definitive then s.bindFirst f else s.bind f

/-- For each element of a list in turn, all items of the search that it leads to. -/
def bindList : List α → (α → Search ν ε β) → Search ν ε β
  | [], _ => .done
  | a :: as, f => (f a).append fun _ => bindList as f

/-- Goes on with the second search if the first finds nothing, and finds nothing otherwise. -/
def ifNone : Search ν ε α → (Unit → Search ν ε β) → Search ν ε β
  | .done, t => t ()
  | .failed e, _ => .failed e
  | .exhausted, _ => .exhausted
  | .event e rest, t => .event e fun _ => ifNone (rest ()) t
  | .found .., _ => .done

/-! ## Consuming -/

/-- Runs a search to its end as one step of another: finds once, with all items that the consumer
took and how it ended. The consumer `stop` is shown the items so far after each of them. Events
pass through; a failure is handed over as a result. -/
def gather (stop : List α → Bool) (seen : List α) :
    Search ν ε α → Search ν ε' (List α × Except ε Flow)
  | .done => single (seen, .ok .finished)
  | .failed e => single (seen, .error e)
  | .exhausted => .exhausted
  | .event e rest => .event e fun _ => gather stop seen (rest ())
  | .found a rest =>
    if stop (seen ++ [a]) then single (seen ++ [a], .ok .stopped)
    else gather stop (seen ++ [a]) (rest ())

/-- The record of a search that a consumer ran. -/
structure Transcript (ν ε α : Type) where
  /-- the events in order -/
  events : List ν
  /-- the items in order -/
  items : List α
  /-- how it ended, unless the fuel ran out -/
  ending : Fueled (Except ε Flow)

/-- Feeds a consumer and records what happens. The consumer `stop` is shown the items so far after
each of them and ends the search by answering `true`. -/
def runFrom (stop : List α → Bool) (seen : List α) : Search ν ε α → Transcript ν ε α
  | .done => ⟨[], [], some (.ok .finished)⟩
  | .failed e => ⟨[], [], some (.error e)⟩
  | .exhausted => ⟨[], [], none⟩
  | .event e rest =>
    let t := runFrom stop seen (rest ())
    { t with events := e :: t.events }
  | .found a rest =>
    if stop (seen ++ [a]) then ⟨[], [a], some (.ok .stopped)⟩
    else
      let t := runFrom stop (seen ++ [a]) (rest ())
      { t with items := a :: t.items }

/-- Feeds a consumer from the start. -/
def run (stop : List α → Bool) (s : Search ν ε α) : Transcript ν ε α := s.runFrom stop []

/-- The consumer that takes everything. -/
def takeAll : List α → Bool := fun _ => false

/-- The consumer that stops at its `n`-th item. -/
def takeAtMost (n : Nat) : List α → Bool := fun seen => decide (n ≤ seen.length)

end Search

end TypeResolution

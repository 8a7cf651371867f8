import Mathlib.Data.List.Infix
import TypeResolution.Proofs.Search.MoreFuel

/-!
# What a search finds, as a list

A search is lazy and its combinators prune, so what it finds is spread over continuations. Read to
the end it is plain data, a `Listing`: the items in order and, if the search did not come to its
end, what interrupted it. On listings the combinators are list operations:

* `append` puts one list behind another, unless the first was interrupted;
* `andThen`, `concat` and `each` do the same with a cut: what stands behind a definitive list that
  is not empty is left out, its items and its errors alike.

The headline is that `Search.listing` turns every combinator into its list operation
(`listing_andThen`, `listing_choose`, `listing_ifNone`, `gather_eq`) and that the consumer who takes
everything is handed exactly the listing (`run_takeAll`).

Events are left out of a listing on purpose. What a resolution gives can then be written down as
lists and compared with what the search finds, and it is only for the order of events that the
search itself has to be looked at again.
-/

namespace TypeResolution

/-! ## Listings

A listing has at most one interruption, and it stands at the end: nothing is found behind an error,
nor behind a lack of fuel. That makes `append` the operation that everything else is built of, with
two kinds of cut in it. An interruption cuts off all that would follow, and so does a definitive
listing with an item in it. -/

/-- Why a list of items may be shorter than the whole. -/
inductive Interruption (ε : Type) where
  /-- an error came up -/
  | failed (error : ε)
  /-- the fuel ran out -/
  | exhausted

/-- Items in order, and what cut them short if anything did. -/
structure Listing (ε α : Type) where
  /-- the items in order -/
  items : List α
  /-- what happened behind the last item, if the list is not complete -/
  interruption : Option (Interruption ε) := none

namespace Listing

variable {ε ε' α β : Type}

/-- The complete list without items. -/
def nothing : Listing ε α := ⟨[], none⟩

/-- The complete list of one item. -/
def one (a : α) : Listing ε α := ⟨[a], none⟩

/-- The complete list of some items. -/
def ofList (as : List α) : Listing ε α := ⟨as, none⟩

/-- No item but an error. -/
def failed (e : ε) : Listing ε α := ⟨[], some (.failed e)⟩

/-- No item for lack of fuel. -/
def exhausted : Listing ε α := ⟨[], some .exhausted⟩

/-- The answer, if the fuel sufficed for one, or no item for lack of fuel. -/
def ofFueled (x : Fueled α) (f : α → Listing ε β) : Listing ε β :=
  match x with
  | none => exhausted
  | some a => f a

/-- Every item, changed by a function. -/
def map (f : α → β) (l : Listing ε α) : Listing ε β := ⟨l.items.map f, l.interruption⟩

/-- One list behind another. Nothing follows an interrupted list. -/
def append (l m : Listing ε α) : Listing ε α :=
  match l.interruption with
  | none => ⟨l.items ++ m.items, m.interruption⟩
  | some i => ⟨l.items, some i⟩

/-- One list behind another, or the first alone if it is definitive and not empty. -/
def andThen (definitive : Bool) (l m : Listing ε α) : Listing ε α :=
  if definitive && !l.items.isEmpty then l else l.append m

/-- Lists one behind the other, up to the first interrupted one and up to the first definitive one
that is not empty. -/
def concat : List (Bool × Listing ε α) → Listing ε α
  | [] => nothing
  | (definitive, l) :: rest => l.andThen definitive (concat rest)

/-- The lists that the items lead to, one behind the other; of definitive ones, those up to the
first that is not empty. -/
def each (definitive : Bool) (l : Listing ε α) (f : α → Listing ε β) : Listing ε β :=
  concat (l.items.map (fun a => (definitive, f a)) ++ [(false, ⟨[], l.interruption⟩)])

/-- What follows an empty list; nothing if the list has an item. -/
def ifNone (l : Listing ε α) (m : Listing ε β) : Listing ε β :=
  match l.items, l.interruption with
  | [], none => m
  | [], some i => ⟨[], some i⟩
  | _ :: _, _ => nothing

/-- The part of a list that a consumer takes, and how that ended: the shortest beginning with which
the consumer has seen enough, or else the whole list. -/
def drive (stop : List α → Bool) (l : Listing ε α) : Fueled (List α × Except ε Flow) :=
  match l.items.inits.tail.find? stop with
  | some taken => some (taken, .ok .stopped)
  | none =>
    match l.interruption with
    | none => some (l.items, .ok .finished)
    | some (.failed e) => some (l.items, .error e)
    | some .exhausted => none

/-- How taking the whole list ends. -/
def ending (l : Listing ε α) : Fueled (Except ε Flow) :=
  match l.interruption with
  | none => some (.ok .finished)
  | some (.failed e) => some (.error e)
  | some .exhausted => none

/-- What the consumer of the whole list has in the end: the items, or the error alone. -/
def outcome (l : Listing ε α) : Fueled (Except ε (List α)) :=
  match l.interruption with
  | none => some (.ok l.items)
  | some (.failed e) => some (.error e)
  | some .exhausted => none

/-- How a listing ends, together with its items, is its outcome. -/
theorem ending_map_eq_outcome (l : Listing ε α) :
    l.ending.map (Except.map fun _ => l.items) = l.outcome := by
  rcases l with ⟨as, _ | e | _⟩ <;> rfl

/-- Only a listing without interruption is finished in the end. -/
theorem ending_eq_finished_iff {l : Listing ε α} :
    l.ending = some (.ok .finished) ↔ l.interruption = none := by
  rcases l with ⟨as, _ | e | _⟩
  · exact ⟨fun _ => rfl, fun _ => rfl⟩
  · exact ⟨nofun, nofun⟩
  · exact ⟨nofun, nofun⟩

/-- It ends with an error exactly if it was interrupted by that error. -/
theorem ending_eq_error_iff {l : Listing ε α} {e : ε} :
    l.ending = some (.error e) ↔ l.interruption = some (.failed e) := by
  rcases l with ⟨as, _ | e' | _⟩
  · exact ⟨nofun, nofun⟩
  · simp [ending]
  · exact ⟨nofun, nofun⟩

/-- To have nothing in the end, and to know it, is to be the empty complete listing. -/
theorem outcome_eq_nil_iff {l : Listing ε α} : l.outcome = some (.ok []) ↔ l = nothing := by
  rcases l with ⟨_ | ⟨a, as⟩, _ | e | _⟩
  case nil.none => exact ⟨fun _ => rfl, fun _ => rfl⟩
  all_goals exact ⟨nofun, nofun⟩

/-- Nothing is neutral in front. -/
@[simp] theorem nothing_append (m : Listing ε α) : nothing.append m = m := rfl

/-- Listings may be put one behind the other in any grouping. If one of them is interrupted, the
part behind it is lost either way. -/
theorem append_assoc (l m n : Listing ε α) : (l.append m).append n = l.append (m.append n) := by
  rcases l with ⟨as, _ | i⟩
  · rcases m with ⟨bs, _ | j⟩
    · simp [append]
    · rfl
  · rfl

/-- A listing that is not definitive is simply followed by the next. -/
@[simp] theorem andThen_false (l m : Listing ε α) : l.andThen false m = l.append m := by
  simp [andThen]

/-- A row of no listings is empty. -/
@[simp] theorem concat_nil : concat ([] : List (Bool × Listing ε α)) = nothing := rfl

/-- A row begins with its first listing. -/
@[simp] theorem concat_cons (definitive : Bool) (l : Listing ε α)
    (rest : List (Bool × Listing ε α)) :
    concat ((definitive, l) :: rest) = l.andThen definitive (concat rest) := rfl

/-- What the items lead to begins with what the first item leads to, and this may be definitive. -/
theorem each_one_append (definitive : Bool) (a : α) (l : Listing ε α) (f : α → Listing ε β) :
    ((one a).append l).each definitive f = (f a).andThen definitive (l.each definitive f) := rfl

/-- Nothing is neutral behind a listing as well, even if that was interrupted. -/
@[simp] theorem append_nothing (l : Listing ε α) : l.append nothing = l := by
  rcases l with ⟨as, _ | i⟩
  · simp [append, nothing]
  · rfl

/-- A single choice leads to what it leads to. -/
@[simp] theorem each_one (definitive : Bool) (a : α) (f : α → Listing ε β) :
    (one a).each definitive f = f a := by
  have h : (one a).each definitive f = (f a).andThen definitive nothing :=
    each_one_append definitive a nothing f
  rw [h, andThen, append_nothing, ite_self]

/-- A consumer is shown the first item; if that is not enough, it is shown the rest behind it. -/
theorem drive_one_append (stop : List α → Bool) (a : α) (l : Listing ε α) :
    ((one a).append l).drive stop =
      if stop [a] then some ([a], .ok .stopped)
      else (l.drive fun taken => stop (a :: taken)).map fun d => (a :: d.1, d.2) := by
  have hinits : ((one a).append l).items.inits.tail.find? stop =
      if stop [a] then some [a]
      else (l.items.inits.tail.find? fun taken => stop (a :: taken)).map (a :: ·) := by
    cases hl : l.items with
    | nil => cases h : stop [a] <;> simp [append, one, hl, h]
    | cons b bs => cases h : stop [a] <;> simp [append, one, hl, h, Function.comp_def]
  rw [drive, hinits, drive]
  cases stop [a] with
  | true => rfl
  | false =>
    cases l.items.inits.tail.find? fun taken => stop (a :: taken) with
    | some taken => rfl
    | none => rcases l with ⟨as, _ | _ | _⟩ <;> rfl

/-! ### Members

What is listed somewhere in a row was listed in one of the parts. The converse does not hold, since
a cut may leave it out. -/

/-- Of two listings in a row, an item comes from one of them. -/
theorem mem_append {l m : Listing ε α} {a : α} (h : a ∈ (l.append m).items) :
    a ∈ l.items ∨ a ∈ m.items := by
  rcases l with ⟨as, _ | i⟩
  · exact List.mem_append.mp h
  · exact .inl h

/-- The same with a cut between them. -/
theorem mem_andThen {definitive : Bool} {l m : Listing ε α} {a : α}
    (h : a ∈ (l.andThen definitive m).items) : a ∈ l.items ∨ a ∈ m.items := by
  rw [andThen] at h
  split at h
  · exact .inl h
  · exact mem_append h

/-- What is listed in a row of lists is listed in one of them. -/
theorem mem_concat {ls : List (Bool × Listing ε α)} {a : α} (h : a ∈ (concat ls).items) :
    ∃ p ∈ ls, a ∈ p.2.items := by
  induction ls with
  | nil => exact absurd h (List.not_mem_nil)
  | cons p ls ih =>
    obtain ⟨definitive, l⟩ := p
    rcases mem_andThen h with hl | hrest
    · exact ⟨_, List.mem_cons_self, hl⟩
    · obtain ⟨q, hq, ha⟩ := ih hrest
      exact ⟨q, List.mem_cons_of_mem _ hq, ha⟩

/-- What is listed behind a choice is listed behind one of its alternatives. -/
theorem mem_each {definitive : Bool} {l : Listing ε α} {f : α → Listing ε β} {z : β}
    (h : z ∈ (l.each definitive f).items) : ∃ a ∈ l.items, z ∈ (f a).items := by
  obtain ⟨p, hp, hz⟩ := mem_concat h
  rcases List.mem_append.mp hp with hp | hp
  · obtain ⟨a, ha, rfl⟩ := List.mem_map.mp hp
    exact ⟨a, ha, hz⟩
  · rw [List.mem_singleton.mp hp] at hz
    exact absurd hz (List.not_mem_nil)

/-- What is listed behind an answer is listed behind that answer. -/
theorem mem_ofFueled {x : Fueled α} {f : α → Listing ε β} {z : β}
    (h : z ∈ (ofFueled x f).items) : ∃ a, x = some a ∧ z ∈ (f a).items := by
  cases x with
  | none => exact absurd h (List.not_mem_nil)
  | some a => exact ⟨a, rfl, h⟩

/-- If anything follows a listing that had to be empty, it is what was to follow. -/
theorem mem_ifNone {l : Listing ε α} {m : Listing ε β} {z : β} (h : z ∈ (l.ifNone m).items) :
    z ∈ m.items := by
  rcases l with ⟨_ | ⟨a, as⟩, _ | i⟩
  · exact h
  · exact absurd h (List.not_mem_nil)
  · exact absurd h (List.not_mem_nil)
  · exact absurd h (List.not_mem_nil)

/-! ### Tests

A search that tests candidates one by one finds those that pass. As lists: a row in which each
alternative gives one item or none. -/

/-- A choice that goes on with the item itself leads to the same list. -/
theorem each_one_right (l : Listing ε α) : l.each false one = l := by
  rcases l with ⟨as, i⟩
  induction as with
  | nil => exact append_nothing _
  | cons a as ih =>
    calc (Listing.mk (a :: as) i).each false one
        = (one a).append ((Listing.mk as i).each false one) := rfl
      _ = ⟨a :: as, i⟩ := by rw [ih]; rfl

/-- Changing items may be done before putting listings in a row. -/
theorem map_append (g : α → β) (l m : Listing ε α) :
    (l.append m).map g = (l.map g).append (m.map g) := by
  rcases l with ⟨as, _ | i⟩
  · simp [append, map]
  · rfl

/-- And before putting many of them in a row. -/
theorem map_concat {ι : Type} (g : α → β) (is : List ι) (f : ι → Listing ε α) :
    (concat (is.map fun i => (false, f i))).map g =
      concat (is.map fun i => (false, (f i).map g)) := by
  induction is with
  | nil => rfl
  | cons i is ih =>
    rw [List.map_cons, List.map_cons, concat_cons, concat_cons, andThen_false, andThen_false,
      map_append, ih]

/-- One item for each alternative that passes a test. -/
theorem concat_filter {ι : Type} (is : List ι) {f : ι → Listing ε α} {passes : ι → Bool} {g : ι → α}
    (h : ∀ i ∈ is, f i = if passes i then one (g i) else nothing) :
    concat (is.map fun i => (false, f i)) = ofList ((is.filter passes).map g) := by
  induction is with
  | nil => rfl
  | cons i is ih =>
    obtain ⟨hi, his⟩ := List.forall_mem_cons.mp h
    rw [List.map_cons, concat_cons, andThen_false, ih his, hi, List.filter_cons]
    cases passes i <;> rfl

end Listing

/-! ## The listing of a search

The first equations are those of the constructors. Then there is one for each combinator, and all of
them are proved by induction on the search that is consumed first: an event passes, an item comes to
the front, and the three ends are the base cases. -/

namespace Search

variable {ν ε ε' α β : Type}

/-- All that a search finds, and what interrupts it if anything does. -/
def listing : Search ν ε α → Listing ε α
  | .done => .nothing
  | .failed e => .failed e
  | .exhausted => .exhausted
  | .event _ rest => listing (rest ())
  | .found a rest => (Listing.one a).append (listing (rest ()))

/-- The search that finds nothing more lists nothing. -/
@[simp] theorem listing_done : (done : Search ν ε α).listing = .nothing := rfl

@[simp] theorem listing_failed (e : ε) : (failed e : Search ν ε α).listing = .failed e := rfl

@[simp] theorem listing_exhausted : (exhausted : Search ν ε α).listing = .exhausted := rfl

@[simp] theorem listing_event (e : ν) (rest : Unit → Search ν ε α) :
    (event e rest).listing = (rest ()).listing := rfl

/-- An item stands in front of what is listed behind it. -/
@[simp] theorem listing_found (a : α) (rest : Unit → Search ν ε α) :
    (found a rest).listing = (Listing.one a).append (rest ()).listing := rfl

@[simp] theorem listing_single (a : α) : (single a : Search ν ε α).listing = .one a := rfl

/-- Finding the items of a list lists them. -/
@[simp] theorem listing_ofList (as : List α) :
    (ofList as : Search ν ε α).listing = .ofList as := by
  induction as with
  | nil => rfl
  | cons a as ih =>
    rw [ofList, listing_found, ih]
    rfl

/-- Searching on behind a search lists on behind its listing. -/
@[simp] theorem listing_append (s : Search ν ε α) (t : Unit → Search ν ε α) :
    (s.append t).listing = s.listing.append (t ()).listing := by
  induction s with
  | done => rfl
  | failed e => rfl
  | exhausted => rfl
  | event e rest ih => exact ih ()
  | found a rest ih =>
    rw [append, listing_found, listing_found, ih (), Listing.append_assoc]

/-- The items of a listing with one more in front. -/
theorem items_one_append (a : α) (l : Listing ε α) :
    ((Listing.one a).append l).items = a :: l.items := rfl

/-- Falling back on a second search is being definitive: what follows counts only if nothing was
found. -/
theorem listing_orElse (s : Search ν ε α) (t : Unit → Search ν ε α) :
    (s.orElse t).listing = s.listing.andThen true (t ()).listing := by
  induction s with
  | done => rfl
  | failed e => rfl
  | exhausted => rfl
  | event e rest ih => exact ih ()
  | found a rest ih => simp [orElse, Listing.andThen, items_one_append]

/-- Pruning behind a definitive search is cutting behind its listing. -/
@[simp] theorem listing_andThen (definitive : Bool) (s : Search ν ε α)
    (t : Unit → Search ν ε α) :
    (s.andThen definitive t).listing = s.listing.andThen definitive (t ()).listing := by
  cases definitive with
  | false => simp [andThen]
  | true => simp [andThen, listing_orElse]

/-- Changing the items of a search changes those of its listing. -/
@[simp] theorem listing_map (f : α → β) (s : Search ν ε α) :
    (s.map f).listing = s.listing.map f := by
  induction s with
  | done => rfl
  | failed e => rfl
  | exhausted => rfl
  | event e rest ih => exact ih ()
  | found a rest ih =>
    rw [map, listing_found, ih (), listing_found]
    rfl

/-- Searching on from each item lists what each of them leads to. -/
@[simp] theorem listing_bind (s : Search ν ε α) (f : α → Search ν ε β) :
    (s.bind f).listing = s.listing.each false fun a => (f a).listing := by
  induction s with
  | done => rfl
  | failed e => rfl
  | exhausted => rfl
  | event e rest ih => exact ih ()
  | found a rest ih =>
    rw [bind, listing_append, ih (), listing_found, Listing.each_one_append, Listing.andThen_false]

/-- Searching on up to the first success lists the same with a cut behind the first listing that is
not empty. -/
theorem listing_bindFirst (s : Search ν ε α) (f : α → Search ν ε β) :
    (s.bindFirst f).listing = s.listing.each true fun a => (f a).listing := by
  induction s with
  | done => rfl
  | failed e => rfl
  | exhausted => rfl
  | event e rest ih => exact ih ()
  | found a rest ih =>
    rw [bindFirst, listing_orElse, ih (), listing_found, Listing.each_one_append]

/-- A choice lists what its alternatives lead to, cut behind the first that leads to something if
the choice is definitive. -/
@[simp] theorem listing_choose (definitive : Bool) (s : Search ν ε α) (f : α → Search ν ε β) :
    (s.choose definitive f).listing = s.listing.each definitive fun a => (f a).listing := by
  cases definitive with
  | false => simp [choose]
  | true => simp [choose, listing_bindFirst]

/-- Going through a list of alternatives lists what each leads to, without a cut. -/
@[simp] theorem listing_bindList (as : List α) (f : α → Search ν ε β) :
    (bindList as f).listing = .concat (as.map fun a => (false, (f a).listing)) := by
  induction as with
  | nil => rfl
  | cons a as ih => simp [bindList, ih]

/-- Testing whether a search finds anything is testing its listing. -/
@[simp] theorem listing_ifNone (s : Search ν ε α) (t : Unit → Search ν ε β) :
    (s.ifNone t).listing = s.listing.ifNone (t ()).listing := by
  induction s with
  | done => rfl
  | failed e => rfl
  | exhausted => rfl
  | event e rest ih => exact ih ()
  | found a rest ih => rfl

/-! ## Consumers

A consumer is shown longer and longer beginnings of the items, and it takes the first of them with
which it has seen enough. On a listing this is a search among its prefixes, `Listing.drive`. -/

/-- What a consumer has taken of a listing, in front of it the items that it had before. -/
theorem listing_gather (stop : List α → Bool) (seen : List α) (s : Search ν ε α) :
    (s.gather stop seen : Search ν ε' (List α × Except ε Flow)).listing =
      .ofFueled (s.listing.drive fun taken => stop (seen ++ taken))
        fun d => .one (seen ++ d.1, d.2) := by
  induction s generalizing seen with
  | done => simp [gather, Listing.drive, Listing.nothing, Listing.ofFueled]
  | failed e => simp [gather, Listing.drive, Listing.failed, Listing.ofFueled]
  | exhausted => rfl
  | event e rest ih => exact ih () seen
  | found a rest ih =>
    rw [gather, listing_found, Listing.drive_one_append]
    cases hs : stop (seen ++ [a]) with
    | true => rfl
    | false =>
      simp only [Bool.false_eq_true, if_false, ih (), List.append_assoc, List.singleton_append]
      cases (rest ()).listing.drive fun taken => stop (seen ++ a :: taken) with
      | none => rfl
      | some d => simp [Listing.ofFueled]

/-- A nested search that a consumer drives gives what the consumer takes of its listing. -/
theorem gather_eq (stop : List α → Bool) (s : Search ν ε α) :
    (s.gather stop [] : Search ν ε' (List α × Except ε Flow)).listing =
      .ofFueled (s.listing.drive stop) .one := by
  simpa using listing_gather stop [] s

/-- The consumer that never has enough is handed the whole listing. For the induction it starts with
items that it has seen before, which it pays no attention to. -/
theorem runFrom_takeAll (seen : List α) (s : Search ν ε α) :
    (s.runFrom takeAll seen).items = s.listing.items ∧
      (s.runFrom takeAll seen).ending = s.listing.ending := by
  induction s generalizing seen with
  | done => exact ⟨rfl, rfl⟩
  | failed e => exact ⟨rfl, rfl⟩
  | exhausted => exact ⟨rfl, rfl⟩
  | event e rest ih => exact ih () seen
  | found a rest ih =>
    obtain ⟨hitems, hending⟩ := ih () (seen ++ [a])
    exact ⟨congrArg (a :: ·) hitems, hending⟩

/-- The consumer that takes everything is handed the items of the listing. -/
theorem run_takeAll (s : Search ν ε α) :
    (s.run takeAll).items = s.listing.items ∧ (s.run takeAll).ending = s.listing.ending :=
  runFrom_takeAll [] s

/-- What any consumer is handed are the first items of the listing. -/
theorem runFrom_items_prefix (stop : List α → Bool) (seen : List α) (s : Search ν ε α) :
    (s.runFrom stop seen).items <+: s.listing.items := by
  induction s generalizing seen with
  | done => exact List.prefix_rfl
  | failed e => exact List.prefix_rfl
  | exhausted => exact List.prefix_rfl
  | event e rest ih => exact ih () seen
  | found a rest ih =>
    rw [runFrom, listing_found, items_one_append]
    split
    · exact List.prefix_append [a] _
    · exact (List.prefix_cons_inj a).mpr (ih () (seen ++ [a]))

end Search

end TypeResolution

import TypeResolution.Proofs.Search.Listing

/-!
# Consumers that remember

A consumer of a search is called with one item after another. It has a memory of its own, and it
answers whether it wants more; it may also fail. `feed` hands it the items of a search until it has
seen enough or the search ends, and says which of the two it was.

Backtracking that is driven by its consumer never builds a search. A program of that sort calls the
consumer as soon as it has an item, looks at the answer, and tries the next alternative if more is
wanted; where it prunes, it keeps flags in the memory of consumers that it puts in front of the
real one:

* a probe notes that it was called and has seen enough at once (`feed_ifNone`);
* a definitive choice notes whether an alternative led to an item, and whether it was the consumer
  behind it that had seen enough (`feed_bindFirst`).

The equations below say what each combinator of searches means to such a program. Everything that is
fed can therefore be read in both ways.

The reply of a consumer is the state of its memory together with whether to go on. So replies
compose like a sequence of programs, `Reply.goOn`, and feeding a search that is put together
composes the replies of its parts. The equations are not by definition, because a search is lazy
behind each item, but each is one induction on the first search.
-/

namespace TypeResolution.Search

variable {ν ε α β σ : Type}

/-! ## Feeding

A consumer that wants more is fed more. One that has seen enough, or fails, ends the feeding there.
The search may end by itself, and then the reply says so and keeps the memory. -/

/-- What a consumer answers to an item, and what feeding a search comes to: `finished` wants more,
`stopped` has seen enough. There is no answer if the fuel runs out. -/
abbrev Answer (ε : Type) := Fueled (Except ε Flow)

/-- The memory of a consumer after an item or a whole search, with its answer. -/
abbrev Reply (ε σ : Type) := σ × Answer ε

/-- Goes on after a reply that wants more. -/
def Reply.goOn (r : Reply ε σ) (next : σ → Reply ε σ) : Reply ε σ :=
  match r.2 with
  | some (.ok .finished) => next r.1
  | _ => r

/-- Feeds the items of a search to a consumer for as long as it wants more. -/
def feed (k : α → σ → Reply ε σ) : Search ν ε α → σ → Reply ε σ
  | .done, m => (m, some (.ok .finished))
  | .failed e, m => (m, some (.error e))
  | .exhausted, m => (m, none)
  | .event _ rest, m => feed k (rest ()) m
  | .found a rest, m => (k a m).goOn (feed k (rest ()))

/-- What follows may be grouped in any way. -/
theorem Reply.goOn_assoc (r : Reply ε σ) (f g : σ → Reply ε σ) :
    (r.goOn f).goOn g = r.goOn fun m => (f m).goOn g := by
  rcases r with ⟨m, _ | e | _ | _⟩ <;> rfl

/-- Wanting more at the end is no answer of its own. -/
theorem Reply.goOn_finished (r : Reply ε σ) : (r.goOn fun m => (m, some (.ok .finished))) = r := by
  rcases r with ⟨m, _ | e | _ | _⟩ <;> rfl

section

variable (k : α → σ → Reply ε σ)

/-- A single item is handed to the consumer. -/
theorem feed_single (a : α) (m : σ) : (single a : Search ν ε α).feed k m = k a m :=
  (k a m).goOn_finished

/-- Behind the items of the first search come those of the second, if the consumer wants more. -/
theorem feed_append (s : Search ν ε α) (t : Unit → Search ν ε α) (m : σ) :
    (s.append t).feed k m = (s.feed k m).goOn ((t ()).feed k) := by
  induction s generalizing m with
  | done => rfl
  | failed e => rfl
  | exhausted => rfl
  | event e rest ih => exact ih () m
  | found a rest ih =>
    have hrest : ((rest ()).append t).feed k = fun m => ((rest ()).feed k m).goOn ((t ()).feed k) :=
      funext (ih ())
    rw [append, feed, feed, hrest, Reply.goOn_assoc]

/-- Changing the items is changing what the consumer is called with. -/
theorem feed_map (f : β → α) (s : Search ν ε β) (m : σ) :
    (s.map f).feed k m = s.feed (fun a => k (f a)) m := by
  induction s generalizing m with
  | done => rfl
  | failed e => rfl
  | exhausted => rfl
  | event e rest ih => exact ih () m
  | found a rest ih => exact congrArg (k (f a) m).goOn (funext (ih ()))

/-- To the first search, the consumer is the second one fed to the real consumer. -/
theorem feed_bind (s : Search ν ε β) (f : β → Search ν ε α) (m : σ) :
    (s.bind f).feed k m = s.feed (fun a => (f a).feed k) m := by
  induction s generalizing m with
  | done => rfl
  | failed e => rfl
  | exhausted => rfl
  | event e rest ih => exact ih () m
  | found a rest ih =>
    rw [bind, feed_append]
    exact congrArg ((f a).feed k m).goOn (funext (ih ()))

/-! ## Records -/

/-- The consumer that keeps a record of the items that it is called with. -/
def recording (a : α) (m : σ × List α) : Reply ε (σ × List α) :=
  let r := k a m.1
  ((r.1, m.2 ++ [a]), r.2)

/-- A consumer is called with the first items of the listing, and does not notice the record. -/
theorem feed_recording (s : Search ν ε α) (m : σ) (seen : List α) :
    ∃ taken, taken <+: s.listing.items ∧
      s.feed (recording k) (m, seen) = (((s.feed k m).1, seen ++ taken), (s.feed k m).2) := by
  -- The record in front of the search is generalized, as it grows by every item that is handed
  -- over.
  induction s generalizing m seen with
  | done => exact ⟨[], List.nil_prefix, by rw [List.append_nil]; rfl⟩
  | failed e => exact ⟨[], List.nil_prefix, by rw [List.append_nil]; rfl⟩
  | exhausted => exact ⟨[], List.nil_prefix, by rw [List.append_nil]; rfl⟩
  | event e rest ih => exact ih () m seen
  | found a rest ih =>
    rw [listing_found, items_one_append, feed, feed, recording]
    have hfirst : [a] <+: a :: (rest ()).listing.items := List.prefix_append [a] _
    rcases k a m with ⟨m', _ | e | _ | _⟩
    · exact ⟨[a], hfirst, rfl⟩
    · exact ⟨[a], hfirst, rfl⟩
    · -- more is wanted, so the record goes on behind this item
      obtain ⟨taken, htaken, heq⟩ := ih () m' (seen ++ [a])
      refine ⟨a :: taken, (List.prefix_cons_inj a).mpr htaken, ?_⟩
      rw [List.append_assoc] at heq
      exact heq
    · exact ⟨[a], hfirst, rfl⟩

/-! ## Probes

A probe wants to know whether there is anything at all. Its memory is one bit, and it is content
with the first item. -/

/-- The consumer that notes that it was called, and has seen enough. -/
def probe (_ : β) (_ : Bool) : Reply ε Bool := (true, some (.ok .stopped))

/-- Acts on what a probe found out: goes on if it was not called. The answer of the probe itself
goes no further. -/
def unlessFound (r : Reply ε Bool) (m : σ) (next : Unit → Reply ε σ) : Reply ε σ :=
  match r with
  | (called, some (.ok _)) => if called then (m, some (.ok .finished)) else next ()
  | (_, some (.error e)) => (m, some (.error e))
  | (_, none) => (m, none)

/-- Testing for nothing is feeding a probe and looking at its bit. -/
theorem feed_ifNone (s : Search ν ε β) (t : Unit → Search ν ε α) (m : σ) :
    (s.ifNone t).feed k m = unlessFound (s.feed probe false) m fun _ => (t ()).feed k m := by
  induction s with
  | done => rfl
  | failed e => rfl
  | exhausted => rfl
  | event e rest ih => exact ih ()
  | found a rest ih => rfl

/-! ## Definitive choices

The consumer is asked for the first alternative that leads to something, and for no other. In
between stands one that passes everything on and remembers two bits: whether anything came, and
whether the consumer behind it has seen enough. -/

/-- The consumer that notes that it was called. -/
def noting (a : α) (m : σ × Bool) : Reply ε (σ × Bool) :=
  let r := k a m.1
  ((r.1, true), r.2)

/-- Acts on what became of one alternative. If the consumer behind it has seen enough, the flag
`halted` goes up; if it was called and wants more, there is no need for other alternatives. -/
def afterAlternative (halted : Bool) (r : Reply ε (σ × Bool)) : Reply ε (σ × Bool) :=
  match r with
  | ((m, _), some (.ok .stopped)) => ((m, true), some (.ok .stopped))
  | ((m, noted), some (.ok .finished)) =>
    ((m, halted), some (.ok (if noted then .stopped else .finished)))
  | ((m, _), some (.error e)) => ((m, halted), some (.error e))
  | ((m, _), none) => ((m, halted), none)

/-- What a choice comes to: only the consumer behind it can have seen enough. -/
def afterChoice (r : Reply ε (σ × Bool)) : Reply ε σ :=
  match r with
  | ((m, halted), some (.ok _)) => (m, some (.ok (if halted then .stopped else .finished)))
  | ((m, _), some (.error e)) => (m, some (.error e))
  | ((m, _), none) => (m, none)

/-- Once the flag is up, noting changes nothing. -/
theorem feed_noting (s : Search ν ε α) (m : σ) :
    s.feed (noting k) (m, true) = (((s.feed k m).1, true), (s.feed k m).2) := by
  induction s generalizing m with
  | done => rfl
  | failed e => rfl
  | exhausted => rfl
  | event e rest ih => exact ih () m
  | found a rest ih =>
    rw [feed, feed, noting]
    rcases k a m with ⟨m', _ | e | _ | _⟩
    · rfl
    · rfl
    · exact ih () m'
    · rfl

/-- The second search is for a consumer that was not called. -/
theorem feed_orElse (s : Search ν ε α) (t : Unit → Search ν ε α) (m : σ) :
    (s.orElse t).feed k m =
      match s.feed (noting k) (m, false) with
      | ((m', true), answer) => (m', answer)
      | ((m', false), answer) => Reply.goOn (m', answer) ((t ()).feed k) := by
  induction s with
  | done => rfl
  | failed e => rfl
  | exhausted => rfl
  | event e rest ih => exact ih ()
  | found a rest ih =>
    rw [orElse, feed, feed, noting]
    rcases k a m with ⟨m', _ | e | _ | _⟩
    · rfl
    · rfl
    · -- the first item is what puts the flag up
      simp only [Reply.goOn, feed_noting]
    · rfl

/-- **A definitive choice is a matter of two flags.** -/
theorem feed_bindFirst (s : Search ν ε β) (f : β → Search ν ε α) (m : σ) :
    (s.bindFirst f).feed k m =
      afterChoice (s.feed
        (fun a n => afterAlternative n.2 ((f a).feed (noting k) (n.1, false))) (m, false)) := by
  induction s generalizing m with
  | done => rfl
  | failed e => rfl
  | exhausted => rfl
  | event e rest ih => exact ih () m
  | found a rest ih =>
    rw [bindFirst, feed_orElse, feed]
    rcases (f a).feed (noting k) (m, false) with ⟨⟨m', _ | _⟩, _ | e | _ | _⟩
    case false.some.ok.finished =>
      -- the consumer behind it was not called, so the next alternative is tried
      exact ih () m'
    all_goals rfl

end

end TypeResolution.Search

import TypeResolution.Proofs.Search.Listing
import TypeResolution.Unification.Match

/-!
# Matching is silent

Matching candidates with slots calls no producer, so it reports nothing: every event of a resolution
comes from a call. The proof goes along the combinators, none of which adds an event of its own.

The lemma matters beyond bookkeeping. A consumer of a resolution may stop it between two bindings,
and what matching has done up to there leaves no trace: a silent search is determined by its listing
(`Silent.run_takeAll`), so slots may be reasoned about as lists of bindings. It is also what allows
the record of a run to be read as a record of calls alone.

The first part says that the combinators keep a search silent. The second goes through the functions
of matching in the order in which they call one another, from the comparison with a bound up to the
slots of a pattern.
-/

namespace TypeResolution

namespace Search

variable {ν ε α β : Type}

/-- A search without events. -/
def Silent : Search ν ε α → Prop
  | .done => True
  | .failed _ => True
  | .exhausted => True
  | .event .. => False
  | .found _ rest => Silent (rest ())

/-- Two silent searches one behind the other are silent. Only the end of the first is replaced, so
an event would have to stand in one of the two. -/
theorem Silent.append {s : Search ν ε α} (h : s.Silent) {t : Unit → Search ν ε α}
    (ht : (t ()).Silent) : (s.append t).Silent := by
  induction s with
  | done => exact ht
  | failed e => trivial
  | exhausted => trivial
  | event e rest ih => exact h.elim
  | found a rest ih => exact ih () h

/-- A silent search with a silent one to fall back on is silent, whether it comes to that or not. -/
theorem Silent.orElse {s : Search ν ε α} (h : s.Silent) {t : Unit → Search ν ε α}
    (ht : (t ()).Silent) : (s.orElse t).Silent := by
  induction s with
  | done => exact ht
  | failed e => trivial
  | exhausted => trivial
  | event e rest ih => exact h.elim
  | found a rest ih => exact h

/-- Changing items adds no events. -/
theorem Silent.map {s : Search ν ε α} (h : s.Silent) (f : α → β) : (s.map f).Silent := by
  induction s with
  | done => trivial
  | failed e => trivial
  | exhausted => trivial
  | event e rest ih => exact h.elim
  | found a rest ih => exact ih () h

/-- What every item of a silent search leads to has to be silent, even if a consumer never gets
there. -/
theorem Silent.bind {s : Search ν ε α} (h : s.Silent) {f : α → Search ν ε β}
    (hf : ∀ a, (f a).Silent) : (s.bind f).Silent := by
  induction s with
  | done => trivial
  | failed e => trivial
  | exhausted => trivial
  | event e rest ih => exact h.elim
  | found a rest ih => exact (hf a).append (ih () h)

/-- The same holds if only the first successful item is gone on with. -/
theorem Silent.bindFirst {s : Search ν ε α} (h : s.Silent) {f : α → Search ν ε β}
    (hf : ∀ a, (f a).Silent) : (s.bindFirst f).Silent := by
  induction s with
  | done => trivial
  | failed e => trivial
  | exhausted => trivial
  | event e rest ih => exact h.elim
  | found a rest ih => exact (hf a).orElse (ih () h)

/-- A choice is silent, definitive or not. -/
theorem Silent.choose (definitive : Bool) {s : Search ν ε α} (h : s.Silent)
    {f : α → Search ν ε β} (hf : ∀ a, (f a).Silent) : (s.choose definitive f).Silent := by
  cases definitive with
  | false => exact h.bind hf
  | true => exact h.bindFirst hf

/-- Going through a list reports nothing if no element of it does. The list itself is no search, so
nothing is asked of it. -/
theorem Silent.bindList (as : List α) {f : α → Search ν ε β} (hf : ∀ a, (f a).Silent) :
    (Search.bindList as f).Silent := by
  induction as with
  | nil => trivial
  | cons a as ih => exact (hf a).append ih

/-- A test whether a search finds nothing runs it up to its first item. In a silent search nothing
can be reported on the way there. -/
theorem Silent.ifNone {s : Search ν ε α} (h : s.Silent) {t : Unit → Search ν ε β}
    (ht : (t ()).Silent) : (s.ifNone t).Silent := by
  induction s with
  | done => exact ht
  | failed e => trivial
  | exhausted => trivial
  | event e rest ih => exact h.elim
  | found a rest ih => trivial

/-- A test finds its item or nothing, or the fuel does not suffice for it. -/
theorem silent_guard (test : Fueled Bool) (a : α) : (guard test a : Search ν ε α).Silent := by
  rcases test with _ | _ | _ <;> trivial

/-- No consumer sees an event of a silent search. -/
theorem Silent.runFrom_events {s : Search ν ε α} (h : s.Silent) (stop : List α → Bool)
    (seen : List α) : (s.runFrom stop seen).events = [] := by
  induction s generalizing seen with
  | done => rfl
  | failed e => rfl
  | exhausted => rfl
  | event e rest ih => exact h.elim
  | found a rest ih =>
    rw [runFrom]
    split
    · rfl
    · exact ih () h (seen ++ [a])

/-- The record of a silent search is its listing. -/
theorem Silent.run_takeAll {s : Search ν ε α} (h : s.Silent) :
    s.run takeAll = ⟨[], s.listing.items, s.listing.ending⟩ := by
  have hevents := h.runFrom_events takeAll []
  obtain ⟨hitems, hending⟩ := Search.run_takeAll s
  rw [run] at hitems hending ⊢
  rcases hrun : s.runFrom takeAll [] with ⟨events, items, ending⟩
  rw [hrun] at hevents hitems hending
  dsimp only at hevents hitems hending
  rw [hevents, hitems, hending]

end Search

variable {ν : Type} (c : Catalog) (fuel : Nat)

open Search

/-- Reading a type in its structural form may fail, but reports nothing. -/
theorem silent_withStructural {α : Type} (t : Ty) {f : Ty → Search ν ResolutionError α}
    (hf : ∀ t, (f t).Silent) : (withStructural t f).Silent := by
  rw [withStructural]
  cases t.structuralForm with
  | error e => trivial
  | ok t => exact hf t

/-- A candidate is compared with a bound type by a single test. -/
theorem silent_compareBound (v : Variance) (candidate bound : Ty) :
    (compareBound c fuel v candidate bound : Search ν _ _).Silent :=
  silent_withStructural candidate fun _ => silent_withStructural bound fun _ => silent_guard _ _

/-- So is a candidate with the instance that is rebuilt from what the arguments were matched with.
-/
theorem silent_rebuild (v : Variance) (target : DefIndex) (candidate : Ty) (args : List Ty) :
    (rebuild c fuel v target candidate args : Search ν _ _).Silent := by
  rw [rebuild]
  rcases c.instantiate fuel target args with _ | _ | result
  · trivial
  · trivial
  · exact silent_guard _ _

/-- An instance constraint is silent, provided that its sub-constraints are. How these are matched
is a parameter here, since constraint and sub-constraints are matched by one recursion: the two
lemmas behind this one put it in. -/
theorem silent_unifyInstance (outer v : Variance) (target : DefIndex) (args : List Constraint)
    {unify : Variance → Site → Search ν ResolutionError (Bindings × List Ty)}
    (hu : ∀ inForce site, (unify inForce site).Silent) (b : Bindings) (candidate : Ty) :
    (unifyInstance c fuel outer v target args unify b candidate).Silent := by
  rw [unifyInstance]
  refine silent_withStructural candidate fun candidate => ?_
  -- the constraints on kinds of types are tests; the other stand-ins go the way of ordinary
  -- instances
  rcases Marker.ofDefinition? target with _ | _ | _ | _ | _ | _
  case some.valueType => cases c.isValueType candidate <;> trivial
  case some.referenceType => cases c.isReferenceType candidate <;> trivial
  all_goals
    rcases checkArgCount c target args.length with e | _
    · trivial
    · dsimp only
      rcases sites c fuel candidate target (outer.nest v) args b with _ | found
      · trivial
      · exact .bindList found fun site => (hu _ site).bind fun p =>
          (silent_rebuild c fuel _ target candidate p.2).map _

mutual
/-- An argument is matched in silence, along with `silent_unifySite` for lists of arguments. The
recursion is that of constraints in their arguments. -/
theorem silent_unifyArg (outer : Variance) (arg : Ty) (b : Bindings) : (k : Constraint) →
    (unifyArg c fuel outer arg b k : Search ν _ _).Silent
  | .wildcard => trivial
  | .param name v => by
    rw [unifyArg]
    cases b.get? name with
    | none => trivial
    | some bound => exact (silent_compareBound c fuel _ arg bound).map _
  | .instanceOf target v args => by
    rw [unifyArg]
    exact silent_unifyInstance c fuel outer v target args
      (fun inForce site => silent_unifySite inForce site b args) b arg
  | .negation _ => trivial

/-- The arguments of a site are matched one after another, each under the bindings that the ones
before came to. -/
theorem silent_unifySite (outer : Variance) (site : Site) (b : Bindings) :
    (ks : List Constraint) → (unifySite c fuel outer site b ks : Search ν _ _).Silent
  | [] => by cases site <;> trivial
  | k :: ks => by
    cases site with
    | nil => trivial
    | cons arg rest =>
      rw [unifySite]
      exact silent_withStructural arg fun arg => (silent_unifyArg outer arg b k).bind fun p =>
        (silent_unifySite outer rest p.1 ks).map _
end

mutual
/-- A constraint at its outermost place is matched in silence. Only here negations are looked into,
and they are matched by `matchAll` again. -/
theorem silent_matchOne (outer : Variance) (candidate : Ty) (b : Bindings) : (k : Constraint) →
    (matchOne c fuel outer candidate b k : Search ν _ _).Silent
  | .wildcard => trivial
  | .param name v => by
    rw [matchOne]
    cases b.get? name with
    | none => trivial
    | some bound => exact (silent_compareBound c fuel _ candidate bound).map _
  | .instanceOf target v args => by
    rw [matchOne]
    exact (silent_unifyInstance c fuel outer v target args
      (fun inForce site => silent_unifySite c fuel inForce site b args) b candidate).map _
  | .negation inner => by
    rw [matchOne]
    exact (silent_matchAll outer candidate b inner).ifNone trivial

/-- The constraints of a slot are matched one after another. -/
theorem silent_matchAll (outer : Variance) (candidate : Ty) (b : Bindings) :
    (ks : List Constraint) → (matchAll c fuel outer candidate b ks : Search ν _ _).Silent
  | [] => trivial
  | k :: ks => by
    rw [matchAll]
    exact (silent_matchOne outer candidate b k).bind fun b => silent_matchAll outer candidate b ks
end

/-- **Matching slots reports nothing.** -/
theorem silent_slotBindings (slots : List Slot) (candidates : List Ty) (b : Bindings) :
    (slotBindings c fuel slots candidates b : Search ν _ _).Silent := by
  induction slots generalizing candidates b with
  | nil => trivial
  | cons slot slots ih =>
    cases candidates with
    | nil => trivial
    | cons candidate rest =>
      exact (silent_matchAll c fuel .ambivariant candidate b slot.constraints).choose
        slot.definitive fun b => ih rest b

end TypeResolution

import TypeResolution.Search

/-!
# More fuel

What a bounded question answers under little fuel it also answers under more. Two orders say so,
one for each kind of bounded object:

* `Fueled.Le x y`: if `x` is an answer, then `y` is the same one;
* `Search.Le s t`: `t` goes on where `s` may have run out of fuel, and is the same search before.

Every combinator respects them, so that monotonicity in the fuel is passed on from the walk over the
hierarchy, where the fuel is spent, up to whole resolutions. What `Search.Le` is good for is
`Le.run`: a run that came to its end stays as it is.

The second order compares more than the items: events and errors stand at the same places in both
searches, and only `exhausted` may be replaced. It is therefore respected by the combinators that
prune, too. A pruned alternative is pruned under more fuel as well, because what prunes it has been
found already.
-/

namespace TypeResolution

/-! ## Bounded answers

A bounded answer is an `Option` whose `none` stands for missing fuel. Nothing lies between a missing
answer and the answer, so every lemma is a case split on whether the first question was answered. -/

namespace Fueled

variable {α β : Type}

/-- The second answer is the first one, unless the first is still missing. -/
def Le (x y : Fueled α) : Prop := x = none ∨ x = y

/-- An answer is no less than itself. -/
theorem Le.refl (x : Fueled α) : x.Le x := .inr rfl

/-- Without an answer there is nothing to keep. -/
theorem Le.none (y : Fueled α) : Fueled.Le none y := .inl rfl

/-- An answer stays. -/
theorem Le.eq_some {x y : Fueled α} (h : x.Le y) {a : α} (hx : x = some a) : y = some a := by
  rcases h with h | rfl
  · rw [h] at hx
    cases hx
  · exact hx

/-- Whatever the fuel, there is only one answer. -/
theorem eq_of_answers {f : Nat → Fueled α} (hf : ∀ {n m}, n ≤ m → (f n).Le (f m)) {n m : Nat}
    {a b : α} (hn : f n = some a) (hm : f m = some b) : a = b := by
  have hmax := (hf (Nat.le_max_left n m)).eq_some hn
  have hmax' := (hf (Nat.le_max_right n m)).eq_some hm
  exact Option.some.inj (hmax.symm.trans hmax')

/-- The first answer is missing, or both are one and the same. -/
theorem Le.none_or_some {x y : Fueled α} (h : x.Le y) :
    x = Option.none ∨ ∃ a, x = some a ∧ y = some a := by
  rcases h with h | rfl
  · exact .inl h
  · cases x with
    | none => exact .inl rfl
    | some a => exact .inr ⟨a, rfl, rfl⟩

/-- What is read off an answer stays as well. -/
theorem Le.map {x y : Fueled α} (h : x.Le y) (f : α → β) :
    Fueled.Le (Option.map f x) (Option.map f y) := by
  rcases h with rfl | rfl
  · exact .none _
  · exact .refl _

/-- A disjunction is answered from the left. Its second question is asked only if the first is
answered in the negative, so both have to stay. -/
theorem Le.or {x y : Fueled Bool} (h : x.Le y) {f g : Unit → Fueled Bool}
    (hfg : (f ()).Le (g ())) : (Fueled.or x f).Le (Fueled.or y g) := by
  rcases h with rfl | rfl
  · exact .none _
  · rcases x with _ | _ | _
    · exact .none _
    · exact hfg
    · exact .refl _

/-- So is the question whether some element passes a test. -/
theorem Le.any {p q : α → Fueled Bool} (h : ∀ a, (p a).Le (q a)) (as : List α) :
    (Fueled.any p as).Le (Fueled.any q as) := by
  induction as with
  | nil => exact .refl _
  | cons a as ih =>
    rw [Fueled.any, Fueled.any]
    -- without an answer for this element the rest is not asked about
    rcases (h a).none_or_some with hp | ⟨holds, hp, hq⟩
    · rw [hp]
      exact .none _
    · rw [hp, hq]
      cases holds with
      | false => exact ih
      | true => exact .refl _

/-- And the question whether all elements do. -/
theorem Le.all {p q : α → Fueled Bool} (h : ∀ a, (p a).Le (q a)) (as : List α) :
    (Fueled.all p as).Le (Fueled.all q as) := by
  induction as with
  | nil => exact .refl _
  | cons a as ih =>
    rw [Fueled.all, Fueled.all]
    rcases (h a).none_or_some with hp | ⟨holds, hp, hq⟩
    · rw [hp]
      exact .none _
    · rw [hp, hq]
      cases holds with
      | false => exact .refl _
      | true => exact ih

end Fueled

/-! ## Searches

A proof about two searches in this order goes by induction on the order itself: its constructors
walk through both searches at once. -/

namespace Search

variable {ν ε ε' α β : Type}

/-- The second search is the first one, going on where the first runs out of fuel. -/
inductive Le : Search ν ε α → Search ν ε α → Prop where
  /-- anything may stand in for a lack of fuel -/
  | exhausted (t : Search ν ε α) : Le .exhausted t
  /-- both come to their end -/
  | done : Le .done .done
  /-- both fail alike -/
  | failed (e : ε) : Le (.failed e) (.failed e)
  /-- both report the same event -/
  | event (e : ν) {s t : Unit → Search ν ε α} (h : Le (s ()) (t ())) :
      Le (.event e s) (.event e t)
  /-- both find the same item -/
  | found (a : α) {s t : Unit → Search ν ε α} (h : Le (s ()) (t ())) :
      Le (.found a s) (.found a t)

/-- A search is no less than itself, all the way down. -/
theorem Le.refl (s : Search ν ε α) : s.Le s := by
  induction s with
  | done => exact .done
  | failed e => exact .failed e
  | exhausted => exact .exhausted _
  | event e rest ih => exact .event e (ih ())
  | found a rest ih => exact .found a (ih ())

/-- Searching on behind the first search respects the order. Where the first lacks fuel, so does the
whole. -/
theorem Le.append {s s' : Search ν ε α} (h : s.Le s') {t t' : Unit → Search ν ε α}
    (ht : (t ()).Le (t' ())) : (s.append t).Le (s'.append t') := by
  induction h with
  | exhausted s' => exact .exhausted _
  | done => exact ht
  | failed e => exact .failed e
  | event e _ ih => exact .event e ih
  | found a _ ih => exact .found a ih

/-- Falling back on a second search respects the order. If the first finds an item under little fuel
it finds it under more, and the second has no part in either. -/
theorem Le.orElse {s s' : Search ν ε α} (h : s.Le s') {t t' : Unit → Search ν ε α}
    (ht : (t ()).Le (t' ())) : (s.orElse t).Le (s'.orElse t') := by
  induction h with
  | exhausted s' => exact .exhausted _
  | done => exact ht
  | failed e => exact .failed e
  | event e _ ih => exact .event e ih
  | found a h _ => exact .found a h

/-- So does going on behind a search that may be definitive. -/
theorem Le.andThen (definitive : Bool) {s s' : Search ν ε α} (h : s.Le s')
    {t t' : Unit → Search ν ε α} (ht : (t ()).Le (t' ())) :
    (s.andThen definitive t).Le (s'.andThen definitive t') := by
  cases definitive with
  | false => exact h.append ht
  | true => exact h.orElse ht

/-- Changing items respects the order. -/
theorem Le.map {s s' : Search ν ε α} (h : s.Le s') (f : α → β) : (s.map f).Le (s'.map f) := by
  induction h with
  | exhausted s' => exact .exhausted _
  | done => exact .done
  | failed e => exact .failed e
  | event e _ ih => exact .event e ih
  | found a _ ih => exact .found (f a) ih

/-- Searching on from each item respects the order, if what each item leads to does. -/
theorem Le.bind {s s' : Search ν ε α} (h : s.Le s') {f f' : α → Search ν ε β}
    (hf : ∀ a, (f a).Le (f' a)) : (s.bind f).Le (s'.bind f') := by
  induction h with
  | exhausted s' => exact .exhausted _
  | done => exact .done
  | failed e => exact .failed e
  | event e _ ih => exact .event e ih
  | found a _ ih => exact (hf a).append ih

/-- So does searching on up to the first item that leads to something. -/
theorem Le.bindFirst {s s' : Search ν ε α} (h : s.Le s') {f f' : α → Search ν ε β}
    (hf : ∀ a, (f a).Le (f' a)) : (s.bindFirst f).Le (s'.bindFirst f') := by
  induction h with
  | exhausted s' => exact .exhausted _
  | done => exact .done
  | failed e => exact .failed e
  | event e _ ih => exact .event e ih
  | found a _ ih => exact (hf a).orElse ih

/-- So does a choice between the two. -/
theorem Le.choose (definitive : Bool) {s s' : Search ν ε α} (h : s.Le s')
    {f f' : α → Search ν ε β} (hf : ∀ a, (f a).Le (f' a)) :
    (s.choose definitive f).Le (s'.choose definitive f') := by
  cases definitive with
  | false => exact h.bind hf
  | true => exact h.bindFirst hf

/-- Going through a list of alternatives respects the order. The list is the same in both. -/
theorem Le.bindList (as : List α) {f f' : α → Search ν ε β} (hf : ∀ a, (f a).Le (f' a)) :
    (Search.bindList as f).Le (Search.bindList as f') := by
  induction as with
  | nil => exact .done
  | cons a as ih => exact (hf a).append ih

/-- A test whether a search finds nothing respects the order. It is decided by the first item or by
the end, and both are kept. -/
theorem Le.ifNone {s s' : Search ν ε α} (h : s.Le s') {t t' : Unit → Search ν ε β}
    (ht : (t ()).Le (t' ())) : (s.ifNone t).Le (s'.ifNone t') := by
  induction h with
  | exhausted s' => exact .exhausted _
  | done => exact ht
  | failed e => exact .failed e
  | event e _ ih => exact .event e ih
  | found a _ _ => exact .done

/-- A drive respects the order: the consumer is shown the same items, and what it answers does not
depend on the fuel. -/
theorem Le.gather (stop : List α → Bool) {s s' : Search ν ε α} (h : s.Le s') (seen : List α) :
    (s.gather stop seen : Search ν ε' _).Le (s'.gather stop seen) := by
  induction h generalizing seen with
  | exhausted s' => exact .exhausted _
  | done => exact .refl _
  | failed e => exact .refl _
  | event e _ ih => exact .event e (ih seen)
  | found a _ ih =>
    -- the consumer decides by what it has seen, which is the same in both
    rw [Search.gather, Search.gather]
    split
    · exact .refl _
    · exact ih (seen ++ [a])

/-- A run that ended ends the same way, with the same record, whatever stands in for a lack of
fuel. -/
theorem Le.run {s s' : Search ν ε α} (h : s.Le s') (stop : List α → Bool) (seen : List α)
    (hend : (s.runFrom stop seen).ending ≠ none) :
    s'.runFrom stop seen = s.runFrom stop seen := by
  induction h generalizing seen with
  | exhausted s' => exact absurd rfl hend
  | done => rfl
  | failed e => rfl
  | event e _ ih =>
    rw [runFrom, runFrom, ih seen hend]
  -- the consumer stops at the same item, or goes on in both
  | found a _ ih =>
    rw [runFrom, runFrom]
    split
    · rfl
    · next hstop =>
      rw [ih (seen ++ [a])]
      intro hnone
      apply hend
      rw [runFrom, if_neg hstop]
      exact hnone

end Search

end TypeResolution

import TypeResolution.Catalog.BaseLibrary
import TypeResolution.Proofs.Search.Trace
import TypeResolution.Proofs.Unification.InPlace
import TypeResolution.Proofs.Unification.Silent
import TypeResolution.Proofs.Unification.Solutions

/-!
# Negation is complement

A negation is decided by a search that is given up at its first item. Nothing but that item is ever
asked for, and yet the negation means what the whole list of solutions says: if the inside has no
solution the matching goes on as if the negation were not there, and if it has one the matching
finds nothing (`matchAll_negation`). The condition is that the list has an end, since a search that
is given up does not get to an error behind its first item.

So two negations accept what their inside accepts, and bind nothing.

The proofs go through the listing of the inside, which is finished by hypothesis and has items or
none. A probe answers which of the two it is at the first item, and the end of the listing counts
only when there is no item.
-/

namespace TypeResolution

namespace Search

variable {ν ε α β : Type} {s : Search ν ε α}

/-- A silent search that comes to its end either has an item or is nothing at all. -/
theorem Silent.ifNone_eq (hs : s.Silent) (hend : s.listing.interruption = none)
    (t : Unit → Search ν ε β) : s.ifNone t = if s.listing.items.isEmpty then t () else .done := by
  cases s with
  | done => rfl
  | failed e => cases hend
  | exhausted => cases hend
  | event e rest => exact hs.elim
  | found a rest => rfl

/-- A probe is called if there is an item to call it with. -/
theorem feed_probe (hend : s.listing.interruption = none) :
    s.feed probe false =
      if s.listing.items.isEmpty then (false, some (.ok .finished))
      else (true, some (.ok .stopped)) := by
  induction s with
  | done => rfl
  | failed e => cases hend
  | exhausted => cases hend
  | event e rest ih => exact ih () hend
  | found a rest ih => rfl

end Search

section

variable {ν : Type} (c : Catalog) (fuel : Nat) (outer : Variance) (candidate : Ty) (b : Bindings)
variable {cs : List Constraint}

/-- As a search, the negation is either not there or the end of it all. -/
theorem matchAll_negation_cons
    (hend : (matchAll c fuel outer candidate b cs : Search ν _ _).listing.interruption = none)
    (rest : List Constraint) :
    (matchAll c fuel outer candidate b (.negation cs :: rest) : Search ν _ _) =
      if (matchAll c fuel outer candidate b cs : Search ν _ _).listing.items.isEmpty
      then matchAll c fuel outer candidate b rest else .done := by
  rw [matchAll, matchOne, (silent_matchAll c fuel outer candidate b cs).ifNone_eq hend]
  split
  · exact Search.single_bind b _
  · rfl

/-- In one environment it is the same. The continuation is not the one that the probe stops at, so
it does not matter what it does to the environment. -/
theorem InPlace.matchAll_negation_cons
    (hend : (TypeResolution.matchAll c fuel outer candidate b cs :
      Search ν _ _).listing.interruption = none)
    (rest : List Constraint) {σ : Type} (k : Continuation Bindings σ) (m : σ) :
    matchAll c fuel outer candidate (.negation cs :: rest) σ k b m =
      if (TypeResolution.matchAll c fuel outer candidate b cs :
        Search ν _ _).listing.items.isEmpty
      then matchAll c fuel outer candidate rest σ k b m else nothing b m := by
  rw [matchAll, matchOne, matchAll_eq (ν := ν), Search.feed_probe hend]
  split <;> rfl

/-- The inside of two negations has an end as well, and a solution if there was none. -/
theorem listing_matchAll_negation
    (hend : (matchAll c fuel outer candidate b cs : Search ν _ _).listing.interruption = none) :
    (matchAll c fuel outer candidate b [.negation cs] : Search ν _ _).listing.interruption = none ∧
      (matchAll c fuel outer candidate b [.negation cs] : Search ν _ _).listing.items.isEmpty =
        !(matchAll c fuel outer candidate b cs : Search ν _ _).listing.items.isEmpty := by
  rw [matchAll_negation_cons c fuel outer candidate b hend]
  cases (matchAll c fuel outer candidate b cs : Search ν _ _).listing.items.isEmpty with
  | true => exact ⟨rfl, rfl⟩
  | false => exact ⟨rfl, rfl⟩

/-- **Negation is complement.** If the list of solutions of some constraints comes to its end, their
negation in front of other constraints is not there when that list is empty, and finds nothing
otherwise; two negations are not there when the list is not empty, and find nothing otherwise. The
searches are the same from the first step on, and in one environment every continuation, whatever it
does, notices no difference. -/
theorem matchAll_negation (rest : List Constraint)
    (hend : ((matchAll c fuel outer candidate b cs : Search ν _ _).run Search.takeAll).ending =
      some (.ok .finished)) :
    let refused := ((matchAll c fuel outer candidate b cs : Search ν _ _).run
      Search.takeAll).items.isEmpty
    (matchAll c fuel outer candidate b (.negation cs :: rest) : Search ν _ _) =
        (if refused then matchAll c fuel outer candidate b rest else .done) ∧
      (matchAll c fuel outer candidate b (.negation [.negation cs] :: rest) : Search ν _ _) =
        (if refused then .done else matchAll c fuel outer candidate b rest) ∧
      ∀ (σ : Type) (k : InPlace.Continuation Bindings σ) (m : σ),
        InPlace.matchAll c fuel outer candidate (.negation cs :: rest) σ k b m =
            (if refused then InPlace.matchAll c fuel outer candidate rest σ k b m
              else InPlace.nothing b m) ∧
          InPlace.matchAll c fuel outer candidate (.negation [.negation cs] :: rest) σ k b m =
            (if refused then InPlace.nothing b m
              else InPlace.matchAll c fuel outer candidate rest σ k b m) := by
  intro refused
  rw [(Search.run_takeAll _).2] at hend
  have hinner := Listing.ending_eq_finished_iff.mp hend
  obtain ⟨houter, hempty⟩ := listing_matchAll_negation c fuel outer candidate b hinner
  have hrefused : (matchAll c fuel outer candidate b cs : Search ν _ _).listing.items.isEmpty =
      refused := congrArg List.isEmpty (Search.run_takeAll _).1.symm
  rw [hrefused] at hempty
  refine ⟨?_, ?_, fun σ k m => ⟨?_, ?_⟩⟩
  · rw [matchAll_negation_cons c fuel outer candidate b hinner, hrefused]
  · rw [matchAll_negation_cons c fuel outer candidate b houter, hempty]
    cases refused <;> rfl
  · rw [InPlace.matchAll_negation_cons c fuel outer candidate b hinner, hrefused]
  · rw [InPlace.matchAll_negation_cons c fuel outer candidate b houter, hempty]
    cases refused <;> rfl

end

/-- A string is enumerable. The negation of that refuses it; two negations accept it, and `T`, which
stands inside of them, is not bound. -/
theorem string_negation :
    let sequence : List Constraint := [.named "T", .instanceOf 10 .covariant []]
    ((matchAll .baseLibrary 9 .ambivariant (.nominal 18) [] sequence : Search Empty _ _).run
        Search.takeAll).ending = some (.ok .finished) ∧
      (matchAll .baseLibrary 9 .ambivariant (.nominal 18) [] [.negation sequence, .named "U"] :
        Search Empty _ _) = .done ∧
      ((matchAll .baseLibrary 9 .ambivariant (.nominal 18) []
        [.negation [.negation sequence], .named "U"] : Search Empty _ _).run
          Search.takeAll).items = [[("U", .nominal 18)]] := by
  intro sequence
  have hend : ((matchAll .baseLibrary 9 .ambivariant (.nominal 18) [] sequence :
      Search Empty _ _).run Search.takeAll).ending = some (.ok .finished) := rfl
  obtain ⟨hone, htwo, -⟩ :=
    matchAll_negation .baseLibrary 9 .ambivariant (.nominal 18) [] [.named "U"] hend
  exact ⟨hend, hone, by rw [htwo]; rfl⟩

end TypeResolution

import Mathlib.Data.List.Forall2
import TypeResolution.Catalog.BaseLibrary
import TypeResolution.Proofs.Unification.Solutions

/-!
# Pruning loses no match

A definitive slot goes through the alternatives of its constraints until one of them leads to a
match of all slots, and leaves the others out. Compared with the run that tries everything, such
flags shorten the list of matches without emptying it (`slotBindings_prunes`), however many slots
carry one.

Both halves are needed for the induction over the slots. That a slot further back shortens its list
says that what is found is found; that it does not empty the list says that the alternative at which
a definitive slot stops is the one at which it would have stopped without the flags further back.
-/

namespace TypeResolution

/-! ## Shorter listings

Shortening is claimed of complete listings only. A cut may remove an error that the full run comes
upon, and then the two cannot be compared; but nothing is lost where the full run comes to its end
without one. -/

namespace Listing

variable {ε α β : Type} {d d' : Bool} {l l' m m' : Listing ε α}

/-- If `l` is complete then `l'` is complete too, and has some of its items: one at least, if there
is one. -/
def Shortens (l' l : Listing ε α) : Prop :=
  l.interruption = none →
    l'.interruption = none ∧ l'.items.Sublist l.items ∧ (l'.items = [] ↔ l.items = [])

/-- A listing shortens itself. -/
theorem Shortens.refl (l : Listing ε α) : l.Shortens l := fun h =>
  ⟨h, List.Sublist.refl _, Iff.rfl⟩

/-- A complete listing is followed by all of the next. -/
theorem append_of_complete (h : l.interruption = none) (m : Listing ε α) :
    l.append m = ⟨l.items ++ m.items, m.interruption⟩ := by
  rw [append, h]

/-- If two listings in a row are complete, so is each of them. -/
theorem complete_of_append (h : (l.append m).interruption = none) :
    l.interruption = none ∧ m.interruption = none := by
  rcases l with ⟨as, _ | i⟩
  · exact ⟨rfl, h⟩
  · cases h

/-- Both parts of a row may be shortened. -/
theorem Shortens.append (hl : l'.Shortens l) (hm : m'.Shortens m) :
    (l'.append m').Shortens (l.append m) := by
  intro h
  obtain ⟨hcomplete, hcomplete'⟩ := complete_of_append h
  obtain ⟨hl, hsub, hempty⟩ := hl hcomplete
  obtain ⟨hm, hsub', hempty'⟩ := hm hcomplete'
  rw [append_of_complete hl, append_of_complete hcomplete]
  refine ⟨hm, hsub.append hsub', ?_⟩
  rw [List.append_eq_nil_iff, List.append_eq_nil_iff, hempty, hempty']

/-- A list that is not empty may as well stand for itself and what is behind it. -/
theorem shortens_append (hl : l'.Shortens l) (hne : l'.items ≠ []) (m : Listing ε α) :
    l'.Shortens (l.append m) := by
  intro h
  obtain ⟨hcomplete, -⟩ := complete_of_append h
  obtain ⟨hl, hsub, hempty⟩ := hl hcomplete
  rw [append_of_complete hcomplete]
  refine ⟨hl, hsub.trans (List.sublist_append_left _ _), fun h => absurd h hne, fun h => ?_⟩
  exact hempty.mpr (List.append_eq_nil_iff.mp h).1

/-- A cut where there was none before, or where there was one, shortens. -/
theorem Shortens.andThen (hd : d = true → d' = true) (hl : l'.Shortens l) (hm : m'.Shortens m) :
    (l'.andThen d' m').Shortens (l.andThen d m) := by
  intro h
  rw [Listing.andThen] at h
  rw [Listing.andThen, Listing.andThen]
  by_cases hcut : (d && !l.items.isEmpty) = true
  · rw [if_pos hcut] at h ⊢
    -- the cut behind `l` is there behind `l'` as well, since `l'` is not empty either
    obtain ⟨hdefinitive, hne⟩ := Bool.and_eq_true_iff.mp hcut
    have hne' : (!l'.items.isEmpty) = true := by
      rw [Bool.not_eq_true', List.isEmpty_eq_false_iff] at hne ⊢
      exact fun hempty => hne ((hl h).2.2.mp hempty)
    rw [hd hdefinitive, hne', Bool.and_true, if_pos rfl]
    exact hl h
  · rw [if_neg hcut] at h ⊢
    split
    · next hcut' =>
      have hne : l'.items ≠ [] := by
        rw [Bool.and_eq_true, Bool.not_eq_true', List.isEmpty_eq_false_iff] at hcut'
        exact hcut'.2
      exact shortens_append hl hne m h
    · exact hl.append hm h

/-- So may what the items of a listing lead to, with a cut added. -/
theorem Shortens.each (hd : d = true → d' = true) (l : Listing ε α) {f f' : α → Listing ε β}
    (hf : ∀ a, (f' a).Shortens (f a)) : (l.each d' f').Shortens (l.each d f) := by
  rw [Listing.each, Listing.each]
  induction l.items with
  | nil => exact .refl _
  | cons a as ih => exact (hf a).andThen hd ih

end Listing

/-! ## Definitive slots

One slot prunes another if both have the same constraints, and it is definitive if the other one is.
A list of slots prunes another slot by slot. -/

namespace Slot

/-- The slot that tries everything. -/
def exhaustive (s : Slot) : Slot := { s with definitive := false }

/-- A slot with the same constraints that is definitive if the first one is. -/
structure Prunes (s s' : Slot) : Prop where
  /-- nothing else is asked for -/
  constraints : s'.constraints = s.constraints
  /-- the flag may be set, but not cleared -/
  definitive : s.definitive = true → s'.definitive = true

/-- Every slot prunes the one without its flag. -/
theorem exhaustive_prunes (s : Slot) : s.exhaustive.Prunes s := ⟨rfl, fun h => nomatch h⟩

end Slot

section

variable (c : Catalog) (fuel : Nat)

/-- Slots that prune others have fewer solutions, but not none. -/
theorem shortens_slotSolutions {slots slots' : List Slot}
    (h : List.Forall₂ Slot.Prunes slots slots') (candidates : List Ty) (b : Bindings) :
    (slotSolutions c fuel slots' candidates b).Shortens
      (slotSolutions c fuel slots candidates b) := by
  induction h generalizing candidates b with
  | nil => exact .refl _
  | cons hslot _ ih =>
    cases candidates with
    | nil => exact .refl _
    | cons candidate rest =>
      rw [slotSolutions, slotSolutions, hslot.constraints]
      exact .each hslot.definitive _ fun b => ih rest b

/-- What flags do to a run that comes to its end. -/
theorem run_shortens {ν : Type} {slots slots' : List Slot}
    (h : List.Forall₂ Slot.Prunes slots slots') {candidates : List Ty} {b : Bindings}
    (hend : ((slotBindings c fuel slots candidates b : Search ν _ _).run Search.takeAll).ending =
      some (.ok .finished)) :
    let before := (slotBindings c fuel slots candidates b : Search ν _ _).run Search.takeAll
    let after := (slotBindings c fuel slots' candidates b : Search ν _ _).run Search.takeAll
    after.ending = some (.ok .finished) ∧ after.items.Sublist before.items ∧
      (after.items = [] ↔ before.items = []) := by
  intro before after
  obtain ⟨hitems, hending⟩ := Search.run_takeAll (slotBindings c fuel slots candidates b :
    Search ν _ _)
  obtain ⟨hitems', hending'⟩ := Search.run_takeAll (slotBindings c fuel slots' candidates b :
    Search ν _ _)
  rw [listing_slotBindings] at hitems hending hitems' hending'
  rw [hending] at hend
  obtain ⟨hcomplete, hshort⟩ :=
    shortens_slotSolutions c fuel h candidates b (Listing.ending_eq_finished_iff.mp hend)
  rw [hitems, hitems', hending']
  exact ⟨Listing.ending_eq_finished_iff.mpr hcomplete, hshort⟩

/-- **Definitive slots prune without losing matches.** If the run in which no slot is definitive
comes to its end, so does every run in which some are. Its matches are some of the others, in the
same order, and there are none only if there were none. The same holds of every further flag. -/
theorem slotBindings_prunes {ν : Type} {slots slots' : List Slot}
    (further : List.Forall₂ Slot.Prunes slots slots') {candidates : List Ty} {b : Bindings}
    (hend : ((slotBindings c fuel (slots.map Slot.exhaustive) candidates b : Search ν _ _).run
      Search.takeAll).ending = some (.ok .finished)) :
    let all := (slotBindings c fuel (slots.map Slot.exhaustive) candidates b : Search ν _ _).run
      Search.takeAll
    let pruned := (slotBindings c fuel slots candidates b : Search ν _ _).run Search.takeAll
    let pruned' := (slotBindings c fuel slots' candidates b : Search ν _ _).run Search.takeAll
    (pruned.ending = some (.ok .finished) ∧ pruned.items.Sublist all.items ∧
        (pruned.items = [] ↔ all.items = [])) ∧
      pruned'.ending = some (.ok .finished) ∧ pruned'.items.Sublist pruned.items ∧
        (pruned'.items = [] ↔ pruned.items = []) := by
  have hflags : List.Forall₂ Slot.Prunes (slots.map Slot.exhaustive) slots :=
    List.forall₂_map_left_iff.mpr (List.forall₂_same.mpr fun s _ => s.exhaustive_prunes)
  intro all pruned pruned'
  have hfirst := run_shortens c fuel hflags hend
  exact ⟨hfirst, run_shortens c fuel further hfirst.1⟩

end

/-- A base library with rows, which are sequences of integers and sequences of strings. -/
def rowLibrary : Catalog :=
  .ofDefs (Catalog.baseLibraryDefs ++
    [{ name := "Row", base := some (.nominal 8),
       interfaces := [.named 11 [.nominal 19], .named 11 [.nominal 18]] }])

/-- Two sequences, with elements of any type. -/
def twoSequences (first second : Bool) : List Slot :=
  [⟨[.instanceOf 11 .covariant [.named "T"]], first⟩,
    ⟨[.instanceOf 11 .covariant [.named "U"]], second⟩]

/-- Two rows are two sequences in four ways. Of these, two have the first element type that the
first row offers, and one has the first that the second row offers as well. -/
theorem rows_pruned :
    let run (first second : Bool) :=
      (slotBindings rowLibrary 9 (twoSequences first second) [.nominal 22, .nominal 22] [] :
        Search Empty _ _).run Search.takeAll
    (run false false).ending = some (.ok .finished) ∧
      ((run true false).items.Sublist (run false false).items ∧
        (run true true).items.Sublist (run true false).items) ∧
      (run false false).items.length = 4 ∧ (run true false).items.length = 2 ∧
        (run true true).items.length = 1 := by
  intro run
  have hend : (run false false).ending = some (.ok .finished) := rfl
  have hfurther : List.Forall₂ Slot.Prunes (twoSequences true false) (twoSequences true true) :=
    .cons ⟨rfl, id⟩ (.cons ⟨rfl, fun _ => rfl⟩ .nil)
  obtain ⟨⟨-, hfirst, -⟩, -, hsecond, -⟩ := slotBindings_prunes rowLibrary 9 hfurther hend
  exact ⟨hend, ⟨hfirst, hsecond⟩, rfl, rfl, rfl⟩

end TypeResolution
